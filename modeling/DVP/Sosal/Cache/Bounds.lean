import DVP.Sosal.Cache.Runs

/-!
# Which bytes the memory cache copies

The copies of a call: the line, the place in it and the number of bytes of each `memcpy`, whatever
the offset and the length are, and whatever the callbacks read and write.

* `InBounds` is what a call promises: every line it uses is one of the cache, no copy leaves its
  line, and the copies move the bytes of the caller, each once.
* `CopiesFit` is the condition: a length below the line size does not run past the end of a line,
  and no line has to be aged out.
* `cache_stays_in_bounds`: in the runs whose calls meet the condition each call keeps the promise.
-/

namespace DVP.Sosal

variable {a : Arch} {clock : Nat → Int} {m m' : CacheMem} {c c' : Cache} {i len offset L N : Nat}
  {l l' : CacheLine}

/-- The loop of `cache_invalidate` on one line. -/
def CacheLine.dropped (l : CacheLine) : CacheLine :=
  if l.valid then { l with age := 0, valid := false } else l

/-- `cache_invalidate`. -/
def cacheInvalidate (m : CacheMem) : CacheMem :=
  { m with cache := { m.cache with line := m.cache.line.map CacheLine.dropped } }

/-- The calls of a run, of all functions of the cache. -/
inductive CacheCall where
  | op (o : CacheOp)
  | invalidate
  deriving DecidableEq, Repr

/-- One call. -/
def cacheCall (a : Arch) (clock : Nat → Int) (m : CacheMem) :
    CacheCall → Except Fault (CacheMem × List UInt8)
  | .op o => cacheStep a clock m o
  | .invalidate => .ok (cacheInvalidate m, [])

/-! ## Copies -/

/-- A `memcpy` between the bytes of the caller and the `size` bytes of `line[index]` from `intra` on. -/
structure CacheCopy where
  index : Nat
  intra : Nat
  size : Nat
  deriving DecidableEq, Repr

/-- The copy of one round of the loops of `cache_read` and `cache_write`. -/
def cacheCopy (clock : Nat → Int) (m : CacheMem) (len offset : Nat) : Except Fault CacheCopy := do
  let index ←
    match cacheIndex m.cache offset with
    | some index => pure index
    | none => do
      let (_, index) ← cacheNext clock m
      pure index
  return ⟨index, offset % m.cache.lineSize, cacheChunk m.cache len offset⟩

/-- The copies of a loop, given what one of its rounds does to the cache. -/
def cacheCopies (a : Arch) (clock : Nat → Int)
    (chunk : CacheMem → Nat → Nat → Except Fault CacheMem) :
    Nat → CacheMem → Nat → Nat → Except Fault (List CacheCopy)
  | 0, _, _, _ => .error .noReturn
  | fuel + 1, m, len, offset => do
    let size := cacheChunk m.cache len offset
    let copy ← cacheCopy clock m len offset
    let m ← chunk m len offset
    if len - size > 0 then
      let copies ← cacheCopies a clock chunk fuel m (len - size) (a.add offset size)
      return copy :: copies
    else
      return [copy]

/-- A round of `cache_read`. -/
def readRound (clock : Nat → Int) (m : CacheMem) (len offset : Nat) : Except Fault CacheMem := do
  let (m, _) ← cacheReadChunk clock m len offset
  return m

/-- A round of `cache_write`, with `len` bytes of the data left. -/
def writeRound (a : Arch) (clock : Nat → Int) (data : List UInt8) (m : CacheMem) (len offset : Nat) :
    Except Fault CacheMem :=
  cacheWriteChunk a clock m (data.drop (data.length - len)) offset

/-- The copies of `cache_read`. -/
def readCopies (a : Arch) (clock : Nat → Int) (m : CacheMem) (len offset : Nat) :
    Except Fault (List CacheCopy) :=
  cacheCopies a clock (readRound clock) (len + 1) m len offset

/-- The copies of `cache_write`. -/
def writeCopies (a : Arch) (clock : Nat → Int) (m : CacheMem) (data : List UInt8) (offset : Nat) :
    Except Fault (List CacheCopy) :=
  cacheCopies a clock (writeRound a clock data) (data.length + 1) m data.length offset

/-- The copies use lines of a cache of `N` lines of `L` bytes, stay in these, and move `len` bytes. -/
structure CopiesIn (L N len : Nat) (copies : List CacheCopy) : Prop where
  index : ∀ k ∈ copies, k.index < N
  inside : ∀ k ∈ copies, k.intra + k.size ≤ L
  total : (copies.map CacheCopy.size).sum = len

/-- What a call does with a cache of `N` lines of `L` bytes. Its copies are in bounds, and `cache_read`
hands out `len` bytes. -/
def InBounds (a : Arch) (clock : Nat → Int) (L N : Nat) (m : CacheMem) :
    CacheCall → List UInt8 → CacheMem → Prop
  | .op (.read len offset), bytes, _ =>
    bytes.length = len ∧ ∃ copies, readCopies a clock m len offset = .ok copies ∧
      CopiesIn L N len copies
  | .op (.write data offset), _, _ =>
    ∃ copies, writeCopies a clock m data offset = .ok copies ∧ CopiesIn L N data.length copies
  | _, _, _ => True

/-! ## The condition -/

/-- The lengths left and the offsets of the rounds of a loop. -/
def cacheRounds (a : Arch) (c : Cache) : Nat → Nat → Nat → List (Nat × Nat)
  | 0, _, _ => []
  | fuel + 1, len, offset =>
    (len, offset) ::
      let size := cacheChunk c len offset
      if len - size > 0 then cacheRounds a c fuel (len - size) (a.add offset size) else []

instance : Decidable (StaysInLine c len offset) := inferInstanceAs (Decidable (_ ∨ _))

/-- The number of rounds that do not find their line. -/
def missCount (c : Cache) (rounds : List (Nat × Nat)) : Nat :=
  rounds.countP fun r => !decide (c.Resident r.2)

/-- No round of the call runs past the end of its line, and there is a free line for those that do
not find theirs: one for a read, which does not keep it, and one for each of those of a write. -/
def CopiesFit (a : Arch) (m : CacheMem) : CacheCall → Prop
  | .op (.read len offset) =>
    (∀ r ∈ cacheRounds a m.cache (len + 1) len offset, StaysInLine m.cache r.1 r.2) ∧
      (m.cache.free ≠ [] ∨ missCount m.cache (cacheRounds a m.cache (len + 1) len offset) = 0)
  | .op (.write data offset) =>
    (∀ r ∈ cacheRounds a m.cache (data.length + 1) data.length offset,
        StaysInLine m.cache r.1 r.2) ∧
      missCount m.cache (cacheRounds a m.cache (data.length + 1) data.length offset) ≤
        m.cache.free.length
  | _ => True

instance (m : CacheMem) (o : CacheCall) : Decidable (CopiesFit a m o) := by
  cases o with
  | op o =>
    cases o
    · exact inferInstanceAs (Decidable (_ ∧ _))
    · exact inferInstanceAs (Decidable (_ ∧ _))
    · exact instDecidableTrue
  | invalidate => exact instDecidableTrue

/-! ## The shape of the lines -/

/-- The cache has `N` lines of `L` bytes each. -/
structure CacheShape (L N : Nat) (m : CacheMem) : Prop where
  lineSize : m.cache.lineSize = L
  pos : 0 < L
  lines : m.cache.line.length = N
  data_length : ∀ (i : Nat) (l : CacheLine), m.cache.line[i]? = some l → l.data.length = L

/-- A line is replaced by one with as many bytes. -/
theorem CacheShape.setLine (h : CacheShape L N m) {store : BackingStore} {ticks : Nat}
    (hl : m.cache.line[i]? = some l) (hlen : l'.data.length = L) :
    CacheShape L N ⟨m.cache.setLine i l', store, ticks⟩ := by
  refine ⟨h.lineSize, h.pos, List.length_set.trans h.lines, fun j k hj => ?_⟩
  dsimp only at hj
  rw [getElem?_setLine hl] at hj
  split_ifs at hj
  · cases hj
    exact hlen
  · exact h.data_length j k hj

theorem length_storeFill (store : BackingStore) (data : List UInt8) (offset : Nat) :
    (storeFill store data offset).length = data.length := by
  unfold storeFill
  apply List.length_overwrite
  simp only [List.segment, List.length_take, List.length_drop]
  omega

/-- An offset in a valid line stays in one when that line goes on to cover it. -/
theorem Cache.Resident.setLine {o : Nat} (hres : c.Resident o) (hl : c.line[i]? = some l)
    (hcov : l.covers o = true → l'.covers o = true) : (c.setLine i l').Resident o := by
  obtain ⟨k, hk, hkcov⟩ := hres
  obtain ⟨j, hj⟩ := List.mem_iff_getElem?.mp hk
  by_cases hij : i = j
  · subst hij
    rw [hl] at hj
    cases hj
    refine ⟨l', List.mem_of_getElem? (i := i) ?_, hcov hkcov⟩
    rw [getElem?_setLine hl, if_pos rfl]
  · refine ⟨k, List.mem_of_getElem? (i := j) ?_, hkcov⟩
    rw [getElem?_setLine hl, if_neg hij]
    exact hj

theorem free_setLine (hl : c.line[i]? = some l) (hvalid : l'.valid = l.valid) :
    (c.setLine i l').free = c.free := by
  unfold Cache.free
  rw [show (c.setLine i l').line.length = c.line.length from List.length_set]
  apply freeBelow_congr
  intro j _
  rw [getElem?_setLine hl]
  split_ifs with hij
  · rw [← hij, hl, Option.map_some, Option.map_some, hvalid]
  · rfl

/-! ## Rounds -/

/-- The number of bytes of a round is told by the size of the lines. -/
theorem cacheChunk_congr (hL : c'.lineSize = c.lineSize) (len offset : Nat) :
    cacheChunk c' len offset = cacheChunk c len offset := by
  unfold cacheChunk
  rw [hL]

theorem cacheRounds_congr (hL : c'.lineSize = c.lineSize) (fuel len offset : Nat) :
    cacheRounds a c' fuel len offset = cacheRounds a c fuel len offset := by
  induction fuel generalizing len offset with
  | zero => rfl
  | succ fuel ih =>
    unfold cacheRounds
    simp only [cacheChunk_congr hL, ih]

/-- No round moves more bytes than are left, and one that moves none is the last. -/
theorem cacheChunk_bounds (hpos : 0 < c.lineSize) (len offset : Nat) :
    cacheChunk c len offset ≤ len ∧
      (0 < len - cacheChunk c len offset → 0 < cacheChunk c len offset) := by
  have hmod := Nat.mod_lt offset hpos
  unfold cacheChunk
  split_ifs <;> omega

/-- The copy of a round that stays in its line. -/
theorem cacheChunk_inside (hpos : 0 < c.lineSize) (hstay : StaysInLine c len offset) :
    offset % c.lineSize + cacheChunk c len offset ≤ c.lineSize := by
  have hmod := Nat.mod_lt offset hpos
  rw [cacheChunk_eq hstay]
  omega

/-- A round of `cache_read` that stays in its line and finds it, or a free one. The line it fills
stays free. -/
theorem CacheShape.readChunk (h : CacheShape L N m) (clock : Nat → Int)
    (hstay : StaysInLine m.cache len offset) (hfree : m.cache.free ≠ [] ∨ m.cache.Resident offset) :
    ∃ m' bytes index, cacheReadChunk clock m len offset = .ok (m', bytes) ∧
      cacheCopy clock m len offset =
        .ok ⟨index, offset % m.cache.lineSize, cacheChunk m.cache len offset⟩ ∧
      bytes.length = cacheChunk m.cache len offset ∧ index < N ∧ CacheShape L N m' ∧
      m'.cache.free = m.cache.free ∧ ∀ o, m.cache.Resident o → m'.cache.Resident o := by
  have hinside := cacheChunk_inside (by rw [h.lineSize]; exact h.pos) hstay
  rw [show m.cache.lineSize = L from h.lineSize] at hinside
  have hlt : ∀ {c : Cache} {i : Nat} {l : CacheLine}, c.line.length = N → c.line[i]? = some l → i < N :=
    fun hN hl => hN ▸ (List.getElem?_eq_some_iff.mp hl).1
  rcases cacheIndex_cases m.cache offset with ⟨i, l, hindex, hl, hcov⟩ | ⟨hindex, hmiss⟩
  · have hlen := h.data_length i l hl
    refine ⟨m, _, i, ?_, ?_, List.length_segment (by rw [hlen]; exact hinside), hlt h.lines hl, h, rfl,
      fun _ ho => ho⟩
    · unfold cacheReadChunk
      simp only [hindex, pure_eq_ok, ok_bind, cacheLine_of_getElem? hl]
      rw [if_pos (by rw [hlen, h.lineSize]; exact hinside), h.lineSize]
    · unfold cacheCopy
      simp only [hindex, pure_eq_ok, ok_bind]
  · obtain ⟨i, free, hcons⟩ := List.exists_cons_of_ne_nil (hfree.resolve_right hmiss)
    obtain ⟨l, hl, hinvalid⟩ := Cache.free_head hcons
    have hlen : (storeFill m.store l.data (cacheRoundOffset m.cache offset)).length = L := by
      rw [length_storeFill, h.data_length i l hl]
    refine ⟨⟨m.cache.setLine i
        { l with data := storeFill m.store l.data (cacheRoundOffset m.cache offset) }, m.store,
      m.ticks + 1⟩, _, i, ?_, ?_, List.length_segment (by rw [hlen]; exact hinside), hlt h.lines hl,
      h.setLine hl hlen, free_setLine hl rfl, fun o ho => ho.setLine hl id⟩
    · unfold cacheReadChunk
      simp only [hindex, cacheNext_of_free hcons, ok_bind, cacheLine_of_getElem? hl, pure_eq_ok]
      rw [cacheLine_of_getElem? (by rw [getElem?_setLine hl, if_pos rfl])]
      simp only [ok_bind]
      rw [if_pos (by rw [hlen, h.lineSize]; exact hinside), h.lineSize]
    · unfold cacheCopy
      simp only [hindex, cacheNext_of_free hcons, ok_bind, pure_eq_ok]

/-- A round of `cache_write`. A free line that it takes is free no more. -/
theorem CacheShape.writeChunk (h : CacheShape L N m) (clock : Nat → Int) {data : List UInt8}
    (hstay : StaysInLine m.cache data.length offset)
    (hfree : m.cache.Resident offset ∨ m.cache.free ≠ []) :
    ∃ m' index, cacheWriteChunk a clock m data offset = .ok m' ∧
      cacheCopy clock m data.length offset =
        .ok ⟨index, offset % m.cache.lineSize, cacheChunk m.cache data.length offset⟩ ∧
      index < N ∧ CacheShape L N m' ∧
      m'.cache.free = (if m.cache.Resident offset then m.cache.free else m.cache.free.tail) ∧
      ∀ o, m.cache.Resident o → m'.cache.Resident o := by
  have hpos : 0 < m.cache.lineSize := by
    rw [h.lineSize]
    exact h.pos
  have hinside := cacheChunk_inside hpos hstay
  have hle := (cacheChunk_bounds hpos data.length offset).1
  have htake : (data.take (cacheChunk m.cache data.length offset)).length =
      cacheChunk m.cache data.length offset := by
    rw [List.length_take]
    omega
  -- the line that is written has as many bytes as before
  have hwritten : ∀ {i : Nat} {l : CacheLine}, m.cache.line[i]? = some l →
      offset % m.cache.lineSize + cacheChunk m.cache data.length offset ≤ l.data.length ∧
      (l.data.overwrite (offset % m.cache.lineSize)
        (data.take (cacheChunk m.cache data.length offset))).length = L := by
    intro i l hl
    have hlen := h.data_length i l hl
    have hroom : offset % m.cache.lineSize + cacheChunk m.cache data.length offset ≤ l.data.length := by
      rw [hlen, ← h.lineSize]
      exact hinside
    exact ⟨hroom, by rw [List.length_overwrite (by omega), hlen]⟩
  rcases cacheIndex_cases m.cache offset with ⟨i, l, hindex, hl, hcov⟩ | ⟨hindex, hmiss⟩
  · have hvalid := (covers_iff.mp hcov).1
    obtain ⟨hroom, hlen⟩ := hwritten hl
    let w : CacheLine := l.written (offset % m.cache.lineSize)
      (data.take (cacheChunk m.cache data.length offset)) (clock m.ticks)
    refine ⟨⟨m.cache.setLine i w, storeAfterWrite m.cache.policy m.store w, m.ticks + 1⟩, i,
      ?_, ?_, ?_, ?_, ?_, ?_⟩
    · unfold cacheWriteChunk
      simp only [hindex, cacheLine_of_getElem? hl, ok_bind, pure_eq_ok]
      rw [if_pos hroom]
      rfl
    · unfold cacheCopy
      simp only [hindex, pure_eq_ok, ok_bind]
    · exact h.lines ▸ (List.getElem?_eq_some_iff.mp hl).1
    · exact h.setLine hl hlen
    · rw [if_pos ⟨l, List.mem_of_getElem? hl, hcov⟩]
      exact free_setLine hl hvalid.symm
    · intro o ho
      refine ho.setLine hl fun hcov => ?_
      rw [covers_iff] at hcov ⊢
      exact ⟨rfl, hcov.2⟩
  · obtain ⟨i, free, hcons⟩ := List.exists_cons_of_ne_nil (hfree.resolve_left hmiss)
    obtain ⟨l, hl, hinvalid⟩ := Cache.free_head hcons
    obtain ⟨hroom, hlen⟩ := hwritten hl
    let w : CacheLine := CacheLine.written { l with
          startOffset := cacheRoundOffset m.cache offset
          endOffset := a.add (cacheRoundOffset m.cache offset) m.cache.lineSize }
      (offset % m.cache.lineSize) (data.take (cacheChunk m.cache data.length offset))
      (clock (m.ticks + 1))
    refine ⟨⟨m.cache.setLine i w, storeAfterWrite m.cache.policy m.store w, m.ticks + 1 + 1⟩, i,
      ?_, ?_, ?_, ?_, ?_, ?_⟩
    · unfold cacheWriteChunk
      simp only [hindex, cacheNext_of_free hcons, cacheLine_of_getElem? hl, ok_bind, pure_eq_ok]
      rw [if_pos hroom]
      rfl
    · unfold cacheCopy
      simp only [hindex, cacheNext_of_free hcons, ok_bind, pure_eq_ok]
    · exact h.lines ▸ (List.getElem?_eq_some_iff.mp hl).1
    · exact h.setLine hl hlen
    · rw [if_neg hmiss, hcons]
      unfold Cache.free
      rw [show (m.cache.setLine i w).line.length = m.cache.line.length from List.length_set]
      exact freeBelow_take rfl hcons
    · intro o ho
      refine ho.setLine hl fun hcov => ?_
      rw [(covers_iff.mp hcov).1] at hinvalid
      cases hinvalid

/-! ## The loops -/

/-- A copy in bounds, and those of the rounds after it. -/
theorem CopiesIn.cons {index intra size : Nat} {copies : List CacheCopy} (hindex : index < N)
    (hinside : intra + size ≤ L) (hle : size ≤ len) (hrest : CopiesIn L N (len - size) copies) :
    CopiesIn L N len (⟨index, intra, size⟩ :: copies) := by
  refine ⟨List.forall_mem_cons.mpr ⟨hindex, hrest.index⟩,
    List.forall_mem_cons.mpr ⟨hinside, hrest.inside⟩, ?_⟩
  rw [List.map_cons, List.sum_cons, hrest.total]
  show size + (len - size) = len
  omega

/-- The one copy of a loop of one round. -/
theorem CopiesIn.single {index intra size : Nat} (hindex : index < N) (hinside : intra + size ≤ L)
    (hsize : size = len) : CopiesIn L N len [⟨index, intra, size⟩] := by
  refine .cons hindex hinside (Nat.le_of_eq hsize) ⟨by simp, by simp, ?_⟩
  rw [hsize, Nat.sub_self]
  rfl

theorem mem_cacheRounds_self (fuel : Nat) :
    (len, offset) ∈ cacheRounds a c (fuel + 1) len offset := List.mem_cons_self

/-- The rounds after one that left bytes. -/
theorem cacheRounds_succ (fuel : Nat) (hleft : len - cacheChunk c len offset > 0) :
    cacheRounds a c (fuel + 1) len offset =
      (len, offset) :: cacheRounds a c fuel (len - cacheChunk c len offset)
        (a.add offset (cacheChunk c len offset)) := by
  rw [cacheRounds, if_pos hleft]

/-- Whether rounds stay in their lines is told by the size of the lines. -/
theorem stays_congr (hL : c'.lineSize = c.lineSize) {fuel : Nat}
    (hstay : ∀ r ∈ cacheRounds a c fuel len offset, StaysInLine c r.1 r.2) :
    ∀ r ∈ cacheRounds a c' fuel len offset, StaysInLine c' r.1 r.2 := by
  rw [cacheRounds_congr hL]
  intro r hr
  rw [StaysInLine, hL]
  exact hstay r hr

/-- A round misses no line that was found before. -/
theorem missCount_le (hres : ∀ o, c.Resident o → c'.Resident o) (rounds : List (Nat × Nat)) :
    missCount c' rounds ≤ missCount c rounds := by
  apply List.countP_mono_left
  intro r _ hmiss
  simp only [Bool.not_eq_true', decide_eq_false_iff_not] at hmiss ⊢
  exact fun ho => hmiss (hres _ ho)

theorem missCount_cons (r : Nat × Nat) (rounds : List (Nat × Nat)) :
    missCount c (r :: rounds) = missCount c rounds + if c.Resident r.2 then 0 else 1 := by
  unfold missCount
  rw [List.countP_cons]
  by_cases hres : c.Resident r.2
  · simp [hres]
  · simp [hres]

theorem CacheShape.chunk_le (h : CacheShape L N m) (len offset : Nat) :
    cacheChunk m.cache len offset ≤ len ∧
      (0 < len - cacheChunk m.cache len offset → 0 < cacheChunk m.cache len offset) :=
  cacheChunk_bounds (by rw [h.lineSize]; exact h.pos) len offset

theorem CacheShape.chunk_inside (h : CacheShape L N m) (hstay : StaysInLine m.cache len offset) :
    offset % m.cache.lineSize + cacheChunk m.cache len offset ≤ L := by
  rw [← h.lineSize]
  exact cacheChunk_inside (by rw [h.lineSize]; exact h.pos) hstay

/-- The loop of `cache_read`. -/
theorem CacheShape.readLoop (h : CacheShape L N m) (clock : Nat → Int) {fuel : Nat}
    (hfuel : len < fuel)
    (hstay : ∀ r ∈ cacheRounds a m.cache fuel len offset, StaysInLine m.cache r.1 r.2)
    (hfree : m.cache.free ≠ [] ∨ missCount m.cache (cacheRounds a m.cache fuel len offset) = 0) :
    ∃ m' bytes copies, cacheReadLoop a clock fuel m len offset = .ok (m', bytes) ∧
      cacheCopies a clock (readRound clock) fuel m len offset = .ok copies ∧
      bytes.length = len ∧ CopiesIn L N len copies ∧ CacheShape L N m' := by
  induction fuel generalizing m len offset with
  | zero => omega
  | succ fuel ih =>
    have hstay₀ : StaysInLine m.cache len offset := hstay _ (mem_cacheRounds_self fuel)
    have hfree₀ : m.cache.free ≠ [] ∨ m.cache.Resident offset := by
      refine hfree.imp id fun hnone => ?_
      by_contra hmiss
      rw [cacheRounds, missCount_cons, if_neg hmiss] at hnone
      cases hnone
    obtain ⟨hle, hprogress⟩ := h.chunk_le len offset
    have hinside := h.chunk_inside hstay₀
    obtain ⟨m₁, bytes, index, hchunk, hcopy, hbytes, hindex, h₁, hfree₁, hres₁⟩ :=
      h.readChunk clock hstay₀ hfree₀
    have hround : readRound clock m len offset = .ok m₁ := by
      unfold readRound
      rw [hchunk]
      rfl
    unfold cacheReadLoop cacheCopies
    simp only [hchunk, hcopy, hround, ok_bind]
    by_cases hleft : len - cacheChunk m.cache len offset > 0
    · -- the other rounds start from a cache that has the same lines
      have hL : m₁.cache.lineSize = m.cache.lineSize := h₁.lineSize.trans h.lineSize.symm
      rw [cacheRounds_succ fuel hleft] at hstay hfree
      have hfuel₁ : len - cacheChunk m.cache len offset < fuel := by
        have hsome := hprogress hleft
        omega
      have hfree' : m₁.cache.free ≠ [] ∨ missCount m₁.cache (cacheRounds a m₁.cache fuel
          (len - cacheChunk m.cache len offset) (a.add offset (cacheChunk m.cache len offset))) = 0 := by
        rw [hfree₁, cacheRounds_congr hL]
        refine hfree.imp id fun hnone => Nat.le_zero.mp ?_
        rw [missCount_cons] at hnone
        exact Nat.le_trans (missCount_le hres₁ _) (by omega)
      obtain ⟨m', rest, copies, hloop, hcopies, hrest, hin, h'⟩ :=
        ih h₁ hfuel₁ (stays_congr hL fun r hr => hstay r (List.mem_cons_of_mem _ hr)) hfree'
      refine ⟨m', bytes ++ rest, _ :: copies, ?_, ?_, ?_, .cons hindex hinside hle hin, h'⟩
      · rw [if_pos hleft, hloop]
        rfl
      · rw [if_pos hleft, hcopies]
        rfl
      · rw [List.length_append, hbytes, hrest]
        omega
    · have hall : cacheChunk m.cache len offset = len := by omega
      refine ⟨m₁, bytes, _, by rw [if_neg hleft]; rfl, by rw [if_neg hleft]; rfl,
        hbytes.trans hall, .single hindex hinside hall, h₁⟩

/-- The loop of `cache_write`, with the last `len` bytes of the data left. -/
theorem CacheShape.writeLoop (h : CacheShape L N m) (clock : Nat → Int) (data : List UInt8)
    {fuel : Nat} (hfuel : len < fuel) (hlen : len ≤ data.length)
    (hstay : ∀ r ∈ cacheRounds a m.cache fuel len offset, StaysInLine m.cache r.1 r.2)
    (hfree : missCount m.cache (cacheRounds a m.cache fuel len offset) ≤ m.cache.free.length) :
    ∃ m' copies, cacheWriteLoop a clock fuel m (data.drop (data.length - len)) offset = .ok m' ∧
      cacheCopies a clock (writeRound a clock data) fuel m len offset = .ok copies ∧
      CopiesIn L N len copies ∧ CacheShape L N m' := by
  induction fuel generalizing m len offset with
  | zero => omega
  | succ fuel ih =>
    have hleftData : (data.drop (data.length - len)).length = len := by
      rw [List.length_drop]
      omega
    have hstay₀ : StaysInLine m.cache len offset := hstay _ (mem_cacheRounds_self fuel)
    have hfree₀ : m.cache.Resident offset ∨ m.cache.free ≠ [] := by
      by_contra hnot
      rw [not_or, not_not] at hnot
      rw [hnot.2, cacheRounds, missCount_cons, if_neg hnot.1] at hfree
      cases hfree
    obtain ⟨hle, hprogress⟩ := h.chunk_le len offset
    have hinside := h.chunk_inside hstay₀
    have hstay' : StaysInLine m.cache (data.drop (data.length - len)).length offset := by
      rw [hleftData]
      exact hstay₀
    obtain ⟨m₁, index, hchunk, hcopy, hindex, h₁, hfree₁, hres₁⟩ :=
      h.writeChunk (a := a) clock hstay' hfree₀
    rw [hleftData] at hcopy
    have hround : writeRound a clock data m len offset = .ok m₁ := hchunk
    unfold cacheWriteLoop cacheCopies
    simp only [hchunk, hcopy, hround, ok_bind, hleftData]
    by_cases hleft : len - cacheChunk m.cache len offset > 0
    · have hL : m₁.cache.lineSize = m.cache.lineSize := h₁.lineSize.trans h.lineSize.symm
      rw [cacheRounds_succ fuel hleft] at hstay hfree
      have hfuel₁ : len - cacheChunk m.cache len offset < fuel := by
        have hsome := hprogress hleft
        omega
      -- a round that misses takes one free line, and there was one for each
      have hfree' : missCount m₁.cache (cacheRounds a m₁.cache fuel
          (len - cacheChunk m.cache len offset) (a.add offset (cacheChunk m.cache len offset))) ≤
            m₁.cache.free.length := by
        rw [cacheRounds_congr hL, hfree₁]
        rw [missCount_cons] at hfree
        refine Nat.le_trans (missCount_le hres₁ _) ?_
        dsimp only at hfree
        split_ifs at hfree ⊢
        · exact hfree
        · rw [List.length_tail]
          omega
      obtain ⟨m', copies, hloop, hcopies, hin, h'⟩ := ih h₁ hfuel₁ (by omega)
        (stays_congr hL fun r hr => hstay r (List.mem_cons_of_mem _ hr)) hfree'
      have hdrop : (data.drop (data.length - len)).drop (cacheChunk m.cache len offset) =
          data.drop (data.length - (len - cacheChunk m.cache len offset)) := by
        rw [List.drop_drop]
        congr 1
        omega
      refine ⟨m', _ :: copies, ?_, ?_, .cons hindex hinside hle hin, h'⟩
      · rw [if_pos hleft, hdrop, hloop]
      · rw [if_pos hleft, hcopies]
        rfl
    · have hall : cacheChunk m.cache len offset = len := by omega
      exact ⟨m₁, _, by rw [if_neg hleft]; rfl, by rw [if_neg hleft]; rfl,
        .single hindex hinside hall, h₁⟩

/-! ## Runs -/

theorem CacheLine.dropped_data (l : CacheLine) : l.dropped.data = l.data := by
  unfold CacheLine.dropped
  split_ifs
  · rfl
  · rfl

/-- `cache_flush` leaves the lines as `cache_invalidate` does. -/
theorem cacheFlushLines_eq (ls : List CacheLine) (store : BackingStore) :
    (cacheFlushLines ls store).1 = ls.map CacheLine.dropped := by
  induction ls generalizing store with
  | nil => rfl
  | cons l ls ih =>
    unfold cacheFlushLines
    rw [List.map_cons, CacheLine.dropped]
    split_ifs with hvalid
    · rw [← ih (storeCommit store l.data l.startOffset)]
    · rw [← ih store]

/-- All lines are marked as not valid. -/
theorem CacheShape.dropped (h : CacheShape L N m) (store : BackingStore) :
    CacheShape L N
      ⟨{ m.cache with line := m.cache.line.map CacheLine.dropped }, store, m.ticks⟩ := by
  refine ⟨h.lineSize, h.pos, (List.length_map _).trans h.lines, fun i l hl => ?_⟩
  dsimp only at hl
  rw [List.getElem?_map] at hl
  obtain ⟨k, hk, rfl⟩ := Option.map_eq_some_iff.mp hl
  rw [k.dropped_data]
  exact h.data_length i k hk

theorem cacheShape_create (lineSize numLines : Nat) (policy : CachePolicy) (store : BackingStore)
    (ticks : Nat) (hline : 0 < lineSize) :
    CacheShape lineSize numLines ⟨cacheCreate lineSize numLines policy, store, ticks⟩ := by
  refine ⟨rfl, hline, List.length_replicate, fun i l hl => ?_⟩
  rw [List.eq_of_mem_replicate (List.mem_of_getElem? hl)]
  exact List.length_replicate

/-- A call that meets the condition copies in bounds and leaves the lines as long as they were. -/
theorem CacheShape.call (h : CacheShape L N m) (clock : Nat → Int) {o : CacheCall}
    (hfit : CopiesFit a m o) :
    ∃ m' r, cacheCall a clock m o = .ok (m', r) ∧ InBounds a clock L N m o r m' ∧
      CacheShape L N m' := by
  cases o with
  | op o =>
    cases o with
    | read len offset =>
      obtain ⟨m', bytes, copies, hread, hcopies, hbytes, hin, h'⟩ :=
        h.readLoop clock (Nat.lt_succ_self len) hfit.1 hfit.2
      exact ⟨m', bytes, hread, ⟨hbytes, copies, hcopies, hin⟩, h'⟩
    | write data offset =>
      obtain ⟨m', copies, hwrite, hcopies, hin, h'⟩ :=
        h.writeLoop clock data (Nat.lt_succ_self data.length) (Nat.le_refl _) hfit.1 hfit.2
      rw [Nat.sub_self, List.drop_zero] at hwrite
      refine ⟨m', [], ?_, ⟨copies, hcopies, hin⟩, h'⟩
      rw [cacheCall, cacheStep, cacheWrite, hwrite]
      rfl
    | flush =>
      refine ⟨cacheFlush m, [], rfl, trivial, ?_⟩
      unfold cacheFlush
      dsimp only
      rw [cacheFlushLines_eq]
      exact h.dropped _
  | invalidate => exact ⟨cacheInvalidate m, [], rfl, trivial, h.dropped _⟩

/-- In every run from `cache_create` on whose calls meet the condition, each call returns, uses no
line but those of the cache, and copies the bytes of its caller from or to these, each once. -/
theorem cache_stays_in_bounds (a : Arch) (clock : Nat → Int) (lineSize numLines : Nat)
    (policy : CachePolicy) (store : BackingStore) (ticks : Nat) (hline : 0 < lineSize)
    (calls : List CacheCall)
    (hC : Machine.Meets (cacheCall a clock) (CopiesFit a)
      ⟨cacheCreate lineSize numLines policy, store, ticks⟩ calls) :
    Machine.EachStep (cacheCall a clock) (InBounds a clock lineSize numLines)
      ⟨cacheCreate lineSize numLines policy, store, ticks⟩ calls :=
  Machine.eachStep_of_invariant (fun _ _ h hfit => h.call clock hfit)
    (cacheShape_create lineSize numLines policy store ticks hline) hC

theorem cache_stays_in_bounds_four :
    Machine.EachStep (cacheCall .arch32 fun _ => 0)
      (InBounds .arch32 (fun _ => 0) 2 2)
      ⟨cacheCreate 2 2 .writeBack, ⟨[1, 2, 3, 4], []⟩, 0⟩
      [.op (.write [9] 1), .op (.read 3 0), .invalidate, .op (.read 0 3)] :=
  cache_stays_in_bounds .arch32 (fun _ => 0) 2 2 .writeBack ⟨[1, 2, 3, 4], []⟩ 0 (by decide)
    [.op (.write [9] 1), .op (.read 3 0), .invalidate, .op (.read 0 3)]
    (Machine.check_eq_true_iff.mp (by decide +kernel))

/-- Three bytes at offset `2` are read past the end of a line of four. A second line is written to a
cache that has one, and `cache_next` goes on with the line after it. -/
theorem cache_leaves_bounds :
    cacheCall .arch32 (fun _ => 0) ⟨cacheCreate 4 1 .writeBack, ⟨[1, 2, 3, 4, 5, 6, 7, 8], []⟩, 0⟩
        (.op (.read 3 2)) = .error .outOfBounds ∧
      cacheCopy (fun _ => 0) ⟨cacheCreate 4 1 .writeBack, ⟨[1, 2, 3, 4, 5, 6, 7, 8], []⟩, 0⟩ 3 2 =
        .ok ⟨0, 2, 3⟩ ∧
      Machine.run (cacheCall .arch32 fun _ => 0)
        ⟨cacheCreate 4 1 .writeBack, ⟨[1, 2, 3, 4, 5, 6, 7, 8], []⟩, 0⟩
        [.op (.write [9] 0), .op (.write [9] 4)] = .error .outOfBounds ∧
      ¬∀ (a : Arch) (clock : Nat → Int) (lineSize numLines : Nat) (policy : CachePolicy)
        (store : BackingStore) (calls : List CacheCall), 0 < lineSize → 0 < numLines →
        Machine.EachStep (cacheCall a clock)
          (InBounds a clock lineSize numLines)
          ⟨cacheCreate lineSize numLines policy, store, 0⟩ calls := by
  refine ⟨rfl, rfl, rfl, fun hall => ?_⟩
  obtain ⟨m', r, hcall, -⟩ := hall .arch32 (fun _ => 0) 4 1 .writeBack
    ⟨[1, 2, 3, 4, 5, 6, 7, 8], []⟩ [.op (.read 3 2)] (by decide) (by decide)
  cases hcall

end DVP.Sosal
