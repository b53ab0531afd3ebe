import DVP.Lib.Run
import DVP.Sosal.Cache.Coherence

/-!
# Runs of the memory cache

One round of each loop keeps the cache coherent under a condition on the state before the call
(`CacheFits`), and so do the loops and the calls:

* `cache_refines_flat`: over every run whose calls meet the condition, `cache_read` answers as a
  flat memory does;
* `cache_keeps_store`: over every such run the backing store holds the written bytes after a
  write-through or a flush, and no byte that was not written has ever changed.
-/

namespace DVP.Sosal

variable {a : Arch} {clock : Nat → Int} {policy : CachePolicy} {init ref : List UInt8}
  {K : Nat → Prop} {m m' : CacheMem}

/-! ## The condition -/

/-- The `size` computed from a length below the line size does not leave the line. -/
def StaysInLine (c : Cache) (len offset : Nat) : Prop :=
  c.lineSize ≤ len ∨ offset % c.lineSize + len ≤ c.lineSize

/-- The starts of the lines an access touches and does not find, in order. -/
def missingLines (c : Cache) (len offset : Nat) : List Nat :=
  (List.range' (cacheRoundOffset c offset)
    ((offset % c.lineSize + len + c.lineSize - 1) / c.lineSize) c.lineSize).filter
      fun start => !decide (c.Resident start)

/-- Outside the range of the access, the free line `i` happens to hold the bytes the store has in
the line at `start`. -/
def LineMatches (m : CacheMem) (len offset start i : Nat) : Prop :=
  ∀ l : CacheLine, m.cache.line[i]? = some l → ∀ j < m.cache.lineSize,
    ¬(offset ≤ start + j ∧ start + j < offset + len) → l.data[j]? = m.store.bytes[start + j]?

/-- There is a free line for each line the write does not find, and the bytes it leaves alone
there are right. -/
def WriteFits (m : CacheMem) (len offset : Nat) : Prop :=
  (missingLines m.cache len offset).length ≤ m.cache.free.length ∧
    ∀ p ∈ (missingLines m.cache len offset).zip m.cache.free, LineMatches m len offset p.1 p.2

/-- The condition under which a call keeps the cache coherent: no short access crosses the end of
a line, no line has to be aged out, and no line is written in part without its other bytes. -/
def CacheFits (m : CacheMem) : CacheOp → Prop
  | .read len offset => StaysInLine m.cache len offset ∧
      (m.cache.free ≠ [] ∨ ∀ i < len, m.cache.Resident (offset + i))
  | .write data offset => StaysInLine m.cache data.length offset ∧
      WriteFits m data.length offset
  | .flush => True

/-- The call accesses bytes of a store of the length, at least one. -/
def CacheOp.Inside (n : Nat) : CacheOp → Prop
  | .read len offset => 0 < len ∧ offset + len ≤ n
  | .write data offset => 0 < data.length ∧ offset + data.length ≤ n
  | .flush => True

/-! ## One round of the loops -/

section Chunk

variable {len offset : Nat}

/-- A round moves the rest of the line, or the rest of the bytes. -/
theorem cacheChunk_eq {c : Cache} (hstay : StaysInLine c len offset) :
    cacheChunk c len offset = min (c.lineSize - offset % c.lineSize) len := by
  unfold cacheChunk
  rcases hstay with hlong | hshort
  · rw [if_neg (by omega), Nat.min_eq_left (by omega)]
  · split_ifs with hlen
    · rw [Nat.min_eq_right (by omega)]
    · rw [Nat.min_eq_left (by omega)]

theorem cacheChunk_le {c : Cache} (hpos : 0 < c.lineSize) (hlen : 0 < len)
    (hstay : StaysInLine c len offset) :
    0 < cacheChunk c len offset ∧ cacheChunk c len offset ≤ len ∧
      offset % c.lineSize + cacheChunk c len offset ≤ c.lineSize := by
  have hmod := Nat.mod_lt offset hpos
  rw [cacheChunk_eq hstay]
  omega

/-- When bytes are left after a round, the next one starts with the next line. -/
theorem cacheChunk_next {c : Cache} (hpos : 0 < c.lineSize)
    (hstay : StaysInLine c len offset) (hleft : 0 < len - cacheChunk c len offset) :
    offset + cacheChunk c len offset = cacheRoundOffset c offset + c.lineSize ∧
      (offset + cacheChunk c len offset) % c.lineSize = 0 ∧
      ∀ len', StaysInLine c len' (offset + cacheChunk c len offset) := by
  have hmod := Nat.mod_lt offset hpos
  have hsum := round_add_mod c offset
  have hnext : offset + cacheChunk c len offset = cacheRoundOffset c offset + c.lineSize := by
    rw [cacheChunk_eq hstay] at hleft ⊢
    omega
  have hzero : (offset + cacheChunk c len offset) % c.lineSize = 0 := by
    rw [hnext, Nat.add_mod_right]
    exact Nat.mod_eq_zero_of_dvd (dvd_round c offset)
  refine ⟨hnext, hzero, ?_⟩
  intro len'
  rw [StaysInLine, hzero]
  omega

theorem round_next {c : Cache} (hpos : 0 < c.lineSize) (hstay : StaysInLine c len offset)
    (hleft : 0 < len - cacheChunk c len offset) :
    cacheRoundOffset c (offset + cacheChunk c len offset) =
      cacheRoundOffset c offset + c.lineSize := by
  obtain ⟨hnext, -⟩ := cacheChunk_next hpos hstay hleft
  rw [hnext]
  exact round_eq (Nat.dvd_add (dvd_round c offset) (Nat.dvd_refl _)) le_rfl (by omega)

theorem cacheLine_of_getElem? {c : Cache} {i : Nat} {l : CacheLine} (hl : c.line[i]? = some l) :
    cacheLine c i = .ok l := by
  rw [cacheLine, hl]

/-- A free line can be handed out. -/
theorem Cache.free_head {c : Cache} {i : Nat} {free : List Nat} (h : c.free = i :: free) :
    ∃ l, c.line[i]? = some l ∧ l.valid = false := by
  have hmem : i ∈ c.free := by
    rw [h]
    exact List.mem_cons_self
  exact (mem_freeBelow hmem).2

/-- One round of `cache_read` copies the bytes of the memory. -/
theorem CacheHolds.readChunk (clock : Nat → Int) (h : CacheHolds policy init K m ref) (hlen : 0 < len)
    (hin : offset + len ≤ ref.length) (hstay : StaysInLine m.cache len offset)
    (hfree : m.cache.free ≠ [] ∨ m.cache.Resident offset) :
    ∃ m', cacheReadChunk clock m len offset =
        .ok (m', ref.segment offset (cacheChunk m.cache len offset)) ∧
      CacheHolds policy init K m' ref ∧ m'.cache.lineSize = m.cache.lineSize ∧
      m'.cache.free = m.cache.free ∧ ∀ o, m'.cache.Resident o ↔ m.cache.Resident o := by
  obtain ⟨hsize, hsizele, hsizein⟩ := cacheChunk_le h.lineSize_pos hlen hstay
  have hsum := round_add_mod m.cache offset
  have hroundle : cacheRoundOffset m.cache offset + m.cache.lineSize ≤ ref.length :=
    round_add_le h.dvd (by omega)
  -- a line with the bytes of its range gives those of the round
  have hcopy : ∀ data : List UInt8,
      data = ref.segment (cacheRoundOffset m.cache offset) m.cache.lineSize →
      data.segment (offset % m.cache.lineSize) (cacheChunk m.cache len offset) =
        ref.segment offset (cacheChunk m.cache len offset) := by
    rintro data rfl
    refine List.ext_getElem? fun j => ?_
    rw [List.getElem?_segment, List.getElem?_segment, List.getElem?_segment]
    split_ifs with hj hjL
    · rw [← Nat.add_assoc, hsum]
    · omega
    · rfl
  rcases cacheIndex_cases m.cache offset with ⟨i, l, hindex, hl, hcov⟩ | ⟨hindex, hmiss⟩
  · have hvalid := (covers_iff.mp hcov).1
    have hold := h.resident i l hl hvalid
    have hround := (hold.covers_iff h.lineSize_pos hvalid offset).mp hcov
    refine ⟨m, ?_, h, rfl, rfl, fun _ => Iff.rfl⟩
    unfold cacheReadChunk
    simp only [hindex, pure_eq_ok, ok_bind, cacheLine_of_getElem? hl]
    rw [if_pos (by rw [h.data_length i l hl]; exact hsizein),
      hcopy l.data (by rw [hround]; exact hold.data_eq)]
  · have hne : m.cache.free ≠ [] := hfree.resolve_right hmiss
    obtain ⟨i, free, hcons⟩ := List.exists_cons_of_ne_nil hne
    obtain ⟨l, hl, hinvalid⟩ := Cache.free_head hcons
    have hllen := h.data_length i l hl
    have hstore := h.length_eq
    -- the line filled holds the bytes of the store, which are those of the memory
    have hfill : storeFill m.store l.data (cacheRoundOffset m.cache offset) =
        ref.segment (cacheRoundOffset m.cache offset) m.cache.lineSize := by
      have hseg : (m.store.bytes.segment (cacheRoundOffset m.cache offset)
          m.cache.lineSize).length = m.cache.lineSize := List.length_segment (by omega)
      unfold storeFill
      rw [hllen]
      refine List.ext_getElem? fun j => ?_
      rw [List.getElem?_overwrite (by omega), hseg, List.getElem?_segment, List.getElem?_segment]
      by_cases hj : j < m.cache.lineSize
      · rw [if_pos (by omega), Nat.sub_zero, if_pos hj, if_pos hj, h.away_line hmiss hj]
      · rw [if_neg (by omega), if_neg hj]
        exact List.getElem?_eq_none (by omega)
    have hfilled : (storeFill m.store l.data (cacheRoundOffset m.cache offset)).length =
        m.cache.lineSize := by
      rw [hfill]
      exact List.length_segment hroundle
    obtain ⟨hholds, hfree', hres⟩ := h.setFree (m.ticks + 1)
      { l with data := storeFill m.store l.data (cacheRoundOffset m.cache offset) } hl hinvalid
      hinvalid hfilled
    refine ⟨_, ?_, hholds, rfl, hfree', hres⟩
    unfold cacheReadChunk
    simp only [hindex, cacheNext_of_free hcons, ok_bind, cacheLine_of_getElem? hl, pure_eq_ok]
    rw [cacheLine_of_getElem? (by rw [getElem?_setLine hl, if_pos rfl])]
    simp only [ok_bind]
    rw [if_pos (by rw [hfilled]; exact hsizein), hcopy _ hfill]

/-- The loop of `cache_read` copies the bytes of the memory. -/
theorem CacheHolds.readLoop (clock : Nat → Int) (hsize : ref.length < a.size) {fuel : Nat}
    (h : CacheHolds policy init K m ref) (hlen : 0 < len) (hfuel : len < fuel)
    (hin : offset + len ≤ ref.length) (hstay : StaysInLine m.cache len offset)
    (hfree : m.cache.free ≠ [] ∨ ∀ i < len, m.cache.Resident (offset + i)) :
    ∃ m', cacheReadLoop a clock fuel m len offset = .ok (m', ref.segment offset len) ∧
      CacheHolds policy init K m' ref := by
  induction fuel generalizing m len offset with
  | zero => omega
  | succ fuel ih =>
    obtain ⟨hpos, hle, -⟩ := cacheChunk_le h.lineSize_pos hlen hstay
    obtain ⟨m₁, hchunk, h₁, hL, hfree₁, hres₁⟩ := h.readChunk clock hlen hin hstay
      (hfree.imp id fun hall => by simpa using hall 0 hlen)
    unfold cacheReadLoop
    simp only [hchunk, ok_bind]
    by_cases hleft : len - cacheChunk m.cache len offset > 0
    · obtain ⟨hnext, -, hstay'⟩ := cacheChunk_next h.lineSize_pos hstay hleft
      have hadd : a.add offset (cacheChunk m.cache len offset) =
          offset + cacheChunk m.cache len offset := Arch.add_of_lt (by omega)
      have hstay₁ : StaysInLine m₁.cache (len - cacheChunk m.cache len offset)
          (offset + cacheChunk m.cache len offset) := by
        rw [StaysInLine, hL]
        exact hstay' _
      obtain ⟨m', hloop, h'⟩ := ih h₁ hleft (by omega) (by omega) hstay₁
        (by
          rw [hfree₁]
          refine hfree.imp id fun hall i hi => ?_
          rw [hres₁, Nat.add_assoc]
          exact hall _ (by omega))
      refine ⟨m', ?_, h'⟩
      rw [if_pos hleft, hadd, hloop, ok_bind, pure_eq_ok, List.segment_append_segment,
        Nat.add_sub_cancel' hle]
    · refine ⟨m₁, ?_, h₁⟩
      rw [if_neg hleft, pure_eq_ok, show cacheChunk m.cache len offset = len by omega]

/-- The line `l` after a round of `cache_write`. -/
def CacheLine.written (l : CacheLine) (intra : Nat) (bytes : List UInt8) (now : Int) : CacheLine :=
  { l with data := l.data.overwrite intra bytes, valid := true, age := now }

/-- One round of `cache_write` writes its bytes to the memory. A miss takes the first free line. -/
theorem CacheHolds.writeChunk {data : List UInt8} (clock : Nat → Int) (hsize : ref.length < a.size)
    (h : CacheHolds policy init K m ref) (hdata : 0 < data.length)
    (hin : offset + data.length ≤ ref.length) (hstay : StaysInLine m.cache data.length offset)
    (hK : ∀ o, offset ≤ o → o < offset + data.length → K o)
    (htake : m.cache.Resident offset ∨ ∃ i free, m.cache.free = i :: free ∧
      LineMatches m data.length offset (cacheRoundOffset m.cache offset) i) :
    ∃ m', cacheWriteChunk a clock m data offset = .ok m' ∧
      CacheHolds policy init K m'
        (ref.overwrite offset (data.take (cacheChunk m.cache data.length offset))) ∧
      WriteFrame m m' (cacheRoundOffset m.cache offset) ∧
      m'.cache.free =
        if m.cache.Resident offset then m.cache.free else m.cache.free.tail := by
  obtain ⟨hpos, hle, hchunkin⟩ := cacheChunk_le h.lineSize_pos hdata hstay
  have hsum := round_add_mod m.cache offset
  have hroundle : cacheRoundOffset m.cache offset + m.cache.lineSize ≤ ref.length :=
    round_add_le h.dvd (by omega)
  have htakelen : (data.take (cacheChunk m.cache data.length offset)).length =
      cacheChunk m.cache data.length offset := by
    rw [List.length_take]
    omega
  -- the part of the data that is written now stays within one line
  have hKchunk : ∀ o, cacheRoundOffset m.cache offset + offset % m.cache.lineSize ≤ o →
      o < cacheRoundOffset m.cache offset + offset % m.cache.lineSize +
        (data.take (cacheChunk m.cache data.length offset)).length → K o :=
    fun o hlo hhi => hK o (by omega) (by omega)
  rcases cacheIndex_cases m.cache offset with ⟨i, l, hindex, hl, hcov⟩ | ⟨hindex, hmiss⟩
  · -- a hit writes to the line found
    have hvalid := (covers_iff.mp hcov).1
    have hold := h.resident i l hl hvalid
    have hround := (hold.covers_iff h.lineSize_pos hvalid offset).mp hcov
    have hllen := h.data_length i l hl
    have w : WritesLine m ref i l (l.written (offset % m.cache.lineSize)
        (data.take (cacheChunk m.cache data.length offset)) (clock m.ticks))
        (offset % m.cache.lineSize) (data.take (cacheChunk m.cache data.length offset)) := by
      refine ⟨hl, rfl, hold.dvd, hold.end_eq, hold.end_le, rfl, by omega, ?_, fun _ => rfl, ?_⟩
      · intro j k hk hkvalid hstart
        exact h.distinct j i k l hk hl hkvalid hvalid hstart
      · intro j hj _
        rw [hold.data_eq, List.getElem?_segment, if_pos hj]
        rfl
    have hstart : (l.written (offset % m.cache.lineSize)
        (data.take (cacheChunk m.cache data.length offset)) (clock m.ticks)).startOffset =
        cacheRoundOffset m.cache offset := hround.symm
    refine ⟨⟨_, _, m.ticks + 1⟩, ?_, w.holdsAt h hstart hsum hKchunk, hstart ▸ w.frame h, ?_⟩
    · unfold cacheWriteChunk
      simp only [hindex, cacheLine_of_getElem? hl, ok_bind, pure_eq_ok]
      rw [if_pos (by omega)]
      rfl
    · rw [if_pos ⟨l, List.mem_of_getElem? hl, hcov⟩]
      exact w.free_eq.trans (if_pos hvalid)
  · -- a miss writes to the first free line
    obtain ⟨i, free, hfree, hmatches⟩ := htake.resolve_left hmiss
    obtain ⟨l, hl, hinvalid⟩ := Cache.free_head hfree
    have hllen := h.data_length i l hl
    have hend : a.add (cacheRoundOffset m.cache offset) m.cache.lineSize =
        cacheRoundOffset m.cache offset + m.cache.lineSize := Arch.add_of_lt (by omega)
    have w : WritesLine m ref i l (CacheLine.written { l with
          startOffset := cacheRoundOffset m.cache offset
          endOffset := a.add (cacheRoundOffset m.cache offset) m.cache.lineSize }
        (offset % m.cache.lineSize)
        (data.take (cacheChunk m.cache data.length offset)) (clock (m.ticks + 1)))
        (offset % m.cache.lineSize) (data.take (cacheChunk m.cache data.length offset)) := by
      refine ⟨hl, rfl, dvd_round _ _, hend, by rw [hend]; exact hroundle, rfl, by omega, ?_, ?_, ?_⟩
      · intro j k hk hkvalid hstart
        exact absurd ((h.resident_iff offset).mpr ⟨j, k, hk, hkvalid, hstart⟩) hmiss
      · intro hvalid
        rw [hinvalid] at hvalid
        cases hvalid
      · intro j hj hout
        rw [htakelen, cacheChunk_eq hstay] at hout
        exact (hmatches l hl j hj (by omega)).trans (h.away_line hmiss hj)
    refine ⟨⟨_, _, m.ticks + 1 + 1⟩, ?_, w.holdsAt h rfl hsum hKchunk, w.frame h, ?_⟩
    · unfold cacheWriteChunk
      simp only [hindex, cacheNext_of_free hfree, cacheLine_of_getElem? hl, ok_bind, pure_eq_ok]
      rw [if_pos (by omega)]
      rfl
    · rw [if_neg hmiss, hfree]
      refine w.free_eq.trans ?_
      rw [if_neg (by simp [hinvalid])]
      exact freeBelow_take rfl hfree

/-- The lines an access touches are its first one and those of the rest of the access. -/
theorem missingLines_cons {c : Cache} (hpos : 0 < c.lineSize) (hlen : 0 < len)
    (hstay : StaysInLine c len offset) :
    ∃ rest, missingLines c len offset =
        (if c.Resident (cacheRoundOffset c offset) then rest
          else cacheRoundOffset c offset :: rest) ∧
      (0 < len - cacheChunk c len offset → rest = missingLines c (len - cacheChunk c len offset)
        (offset + cacheChunk c len offset)) := by
  have hmod := Nat.mod_lt offset hpos
  -- the number of lines is one more than that of the rest
  have hcount : (offset % c.lineSize + len + c.lineSize - 1) / c.lineSize =
      (offset % c.lineSize + len - 1) / c.lineSize + 1 := by
    rw [← Nat.add_div_right _ hpos, show offset % c.lineSize + len + c.lineSize - 1 =
      offset % c.lineSize + len - 1 + c.lineSize by omega]
  refine ⟨(List.range' (cacheRoundOffset c offset + c.lineSize)
    ((offset % c.lineSize + len - 1) / c.lineSize) c.lineSize).filter
      fun start => !decide (c.Resident start), ?_, ?_⟩
  · unfold missingLines
    rw [hcount, List.range'_succ, List.filter_cons]
    by_cases hres : c.Resident (cacheRoundOffset c offset)
    · rw [if_pos hres, if_neg (by simp [hres])]
    · rw [if_neg hres, if_pos (by simp [hres])]
  · intro hleft
    obtain ⟨-, hzero, -⟩ := cacheChunk_next hpos hstay hleft
    have hround := round_next hpos hstay hleft
    have hrest : offset % c.lineSize + len - 1 =
        0 + (len - cacheChunk c len offset) + c.lineSize - 1 := by
      rw [cacheChunk_eq hstay] at hleft ⊢
      omega
    unfold missingLines
    rw [hround, hzero, hrest]

/-- A write that fits has a free line for a miss in its first round. -/
theorem WriteFits.head (h : CacheHolds policy init K m ref) (hlen : 0 < len)
    (hstay : StaysInLine m.cache len offset) (hfits : WriteFits m len offset) :
    m.cache.Resident offset ∨ ∃ i free, m.cache.free = i :: free ∧
      LineMatches m len offset (cacheRoundOffset m.cache offset) i := by
  by_cases hres : m.cache.Resident offset
  · exact .inl hres
  · right
    have hround : ¬m.cache.Resident (cacheRoundOffset m.cache offset) := by
      have hsum := round_add_mod m.cache offset
      have hpos := h.lineSize_pos
      rwa [h.resident_congr (round_eq (dvd_round _ _) le_rfl (by omega))]
    obtain ⟨rest, hmissing, -⟩ := missingLines_cons h.lineSize_pos hlen hstay
    rw [if_neg hround] at hmissing
    obtain ⟨hcount, hmatches⟩ := hfits
    rw [hmissing] at hcount hmatches
    rcases hfree : m.cache.free with _ | ⟨i, free⟩
    · rw [hfree] at hcount
      cases hcount
    · refine ⟨i, free, rfl, ?_⟩
      rw [hfree] at hmatches
      exact hmatches _ List.mem_cons_self

/-- After a round of a write that fits, the rest of the write fits. -/
theorem WriteFits.next (h : CacheHolds policy init K m ref) (hlen : 0 < len)
    (hstay : StaysInLine m.cache len offset) (hfits : WriteFits m len offset)
    (hframe : WriteFrame m m' (cacheRoundOffset m.cache offset))
    (hfree : m'.cache.free =
      if m.cache.Resident offset then m.cache.free else m.cache.free.tail)
    (hleft : 0 < len - cacheChunk m.cache len offset) :
    WriteFits m' (len - cacheChunk m.cache len offset)
      (offset + cacheChunk m.cache len offset) := by
  obtain ⟨hnext, -⟩ := cacheChunk_next h.lineSize_pos hstay hleft
  have hnextRound := round_next h.lineSize_pos hstay hleft
  have hpos := h.lineSize_pos
  have hround : m.cache.Resident (cacheRoundOffset m.cache offset) ↔ m.cache.Resident offset := by
    have hsum := round_add_mod m.cache offset
    exact h.resident_congr (round_eq (dvd_round _ _) le_rfl (by omega))
  -- the lines touched later start after this one, and are as resident as they were
  have hstarts : ∀ start ∈ missingLines m.cache (len - cacheChunk m.cache len offset)
      (offset + cacheChunk m.cache len offset),
      cacheRoundOffset m.cache offset + m.cache.lineSize ≤ start := by
    intro start hstart
    have hmem := (List.mem_filter.mp hstart).1
    obtain ⟨k, -, rfl⟩ := List.mem_range'.mp hmem
    rw [hnextRound]
    omega
  have hmissing' : missingLines m'.cache (len - cacheChunk m.cache len offset)
      (offset + cacheChunk m.cache len offset) =
      missingLines m.cache (len - cacheChunk m.cache len offset)
        (offset + cacheChunk m.cache len offset) := by
    have hround' : ∀ o, cacheRoundOffset m'.cache o = cacheRoundOffset m.cache o := by
      intro o
      rw [cacheRoundOffset, hframe.lineSize, cacheRoundOffset]
    unfold missingLines
    rw [hround', hframe.lineSize, hnextRound]
    apply List.filter_congr
    intro start hstart
    obtain ⟨k, -, rfl⟩ := List.mem_range'.mp hstart
    have hother : cacheRoundOffset m.cache
        (cacheRoundOffset m.cache offset + m.cache.lineSize + m.cache.lineSize * k) ≠
        cacheRoundOffset m.cache offset := by
      have hdvd : m.cache.lineSize ∣
          cacheRoundOffset m.cache offset + m.cache.lineSize + m.cache.lineSize * k :=
        Nat.dvd_add (Nat.dvd_add (dvd_round m.cache offset) (Nat.dvd_refl _)) (Nat.dvd_mul_right _ _)
      rw [round_eq hdvd le_rfl (by omega)]
      omega
    rw [decide_eq_decide.mpr (hframe.resident _ hother)]
  obtain ⟨rest, hmissing, hrest⟩ := missingLines_cons h.lineSize_pos hlen hstay
  rw [hrest hleft] at hmissing
  obtain ⟨hcount, hmatches⟩ := hfits
  -- what is left of the missing lines and of the free lines
  have hsplit : (missingLines m.cache (len - cacheChunk m.cache len offset)
        (offset + cacheChunk m.cache len offset)).length ≤ m'.cache.free.length ∧
      ∀ p ∈ (missingLines m.cache (len - cacheChunk m.cache len offset)
        (offset + cacheChunk m.cache len offset)).zip m'.cache.free,
        LineMatches m len offset p.1 p.2 := by
    rw [hmissing] at hcount hmatches
    by_cases hres : m.cache.Resident offset
    · rw [if_pos (hround.mpr hres)] at hcount hmatches
      rw [hfree, if_pos hres]
      exact ⟨hcount, hmatches⟩
    · rw [if_neg fun hr => hres (hround.mp hr)] at hcount hmatches
      rw [hfree, if_neg hres]
      rcases hcons : m.cache.free with _ | ⟨i, free⟩
      · rw [hcons] at hcount
        cases hcount
      · rw [hcons] at hcount hmatches
        refine ⟨by simpa using hcount, ?_⟩
        intro p hp
        exact hmatches p (List.mem_cons_of_mem _ hp)
  unfold WriteFits
  rw [hmissing']
  refine ⟨hsplit.1, ?_⟩
  intro p hp l hl j hj hout
  have hstart := hstarts p.1 (List.of_mem_zip hp).1
  rw [hframe.lineSize] at hj
  rw [hframe.line p.2 (List.of_mem_zip hp).2] at hl
  rw [hframe.store _ (by omega)]
  exact hsplit.2 p hp l hl j hj (by omega)

/-- The loop of `cache_write` writes its bytes to the memory. -/
theorem CacheHolds.writeLoop {data : List UInt8} (clock : Nat → Int) (hsize : ref.length < a.size)
    {fuel : Nat}
    (h : CacheHolds policy init K m ref) (hdata : 0 < data.length) (hfuel : data.length < fuel)
    (hin : offset + data.length ≤ ref.length) (hstay : StaysInLine m.cache data.length offset)
    (hK : ∀ o, offset ≤ o → o < offset + data.length → K o)
    (hfits : WriteFits m data.length offset) :
    ∃ m', cacheWriteLoop a clock fuel m data offset = .ok m' ∧
      CacheHolds policy init K m' (ref.overwrite offset data) := by
  induction fuel generalizing m ref data offset with
  | zero => omega
  | succ fuel ih =>
    obtain ⟨hpos, hle, -⟩ := cacheChunk_le h.lineSize_pos hdata hstay
    obtain ⟨m₁, hchunk, h₁, hframe, hfree⟩ := h.writeChunk clock hsize hdata hin hstay
      hK (hfits.head h hdata hstay)
    have htakelen : (data.take (cacheChunk m.cache data.length offset)).length =
        cacheChunk m.cache data.length offset := by
      rw [List.length_take]
      omega
    unfold cacheWriteLoop
    simp only [hchunk, ok_bind]
    -- what is left is written by the rounds that follow
    by_cases hleft : data.length - cacheChunk m.cache data.length offset > 0
    · obtain ⟨-, -, hstay'⟩ := cacheChunk_next h.lineSize_pos hstay hleft
      have hnext := hfits.next h hdata hstay hframe hfree hleft
      have hreflen : (ref.overwrite offset
          (data.take (cacheChunk m.cache data.length offset))).length = ref.length :=
        List.length_overwrite (by omega)
      have hdrop : (data.drop (cacheChunk m.cache data.length offset)).length =
          data.length - cacheChunk m.cache data.length offset := List.length_drop
      have hadd : a.add offset (cacheChunk m.cache data.length offset) =
          offset + cacheChunk m.cache data.length offset := Arch.add_of_lt (by omega)
      have hstay₁ : StaysInLine m₁.cache
          (data.drop (cacheChunk m.cache data.length offset)).length
          (offset + cacheChunk m.cache data.length offset) := by
        rw [StaysInLine, hframe.lineSize]
        exact hstay' _
      obtain ⟨m', hloop, h'⟩ := ih (by omega) h₁ (by omega) (by omega) (by omega) hstay₁
        (fun o hlo hhi => hK o (by omega) (by omega))
        (by rw [hdrop]; exact hnext)
      refine ⟨m', by rw [if_pos hleft, hadd, hloop], ?_⟩
      have hroom : offset + (data.take (cacheChunk m.cache data.length offset)).length +
          (data.drop (cacheChunk m.cache data.length offset)).length ≤ ref.length := by omega
      -- the two writes together are one of all bytes
      have happend := List.overwrite_overwrite_append hroom
      rw [htakelen, List.take_append_drop] at happend
      rw [← happend]
      exact h'
    · refine ⟨m₁, by rw [if_neg hleft, pure_eq_ok], ?_⟩
      rw [List.take_of_length_le (by omega)] at h₁
      exact h₁

end Chunk

/-! ## The flush -/

/-- The loop of `cache_flush` leaves the lines not valid, and a store that holds the memory
wherever it did before or a valid line does. -/
theorem cacheFlushLines_spec {L : Nat} (hinit : ∀ o, ¬K o → ref[o]? = init[o]?)
    {ls : List CacheLine} {store : BackingStore}
    (hlines : ∀ l ∈ ls, l.valid = true → LineHolds L ref l)
    (hlength : store.bytes.length = ref.length)
    (hstore : ∀ x ∈ store.bytes :: store.past, ∀ o, ¬K o → x[o]? = init[o]?) :
    (∀ (i : Nat) (l : CacheLine), (cacheFlushLines ls store).1[i]? = some l →
        l.valid = false ∧ ∃ k ∈ ls, l.data = k.data) ∧
      (cacheFlushLines ls store).2.bytes.length = ref.length ∧
      (∀ o, (store.bytes[o]? = ref[o]? ∨ ∃ l ∈ ls, l.covers o = true) →
        (cacheFlushLines ls store).2.bytes[o]? = ref[o]?) ∧
      ∀ x ∈ (cacheFlushLines ls store).2.bytes :: (cacheFlushLines ls store).2.past, ∀ o, ¬K o →
        x[o]? = init[o]? := by
  induction ls generalizing store with
  | nil =>
    refine ⟨?_, hlength, ?_, hstore⟩
    · intro i l hl
      cases hl
    · rintro o (ho | ⟨l, hl, -⟩)
      · exact ho
      · cases hl
  | cons k ls ih =>
    have hlines' : ∀ l ∈ ls, l.valid = true → LineHolds L ref l :=
      fun l hl => hlines l (List.mem_cons_of_mem _ hl)
    cases hvalid : k.valid with
    -- a line that is not valid is skipped, and covers no byte
    | false =>
      obtain ⟨hflushed, hlen, hbytes, hinitial⟩ := ih hlines' hlength hstore
      simp only [cacheFlushLines, hvalid]
      refine ⟨?_, hlen, ?_, hinitial⟩
      · intro i l hl
        cases i with
        | zero =>
          cases hl
          exact ⟨hvalid, k, List.mem_cons_self, rfl⟩
        | succ i =>
          obtain ⟨hl', k', hk', hdata⟩ := hflushed i l hl
          exact ⟨hl', k', List.mem_cons_of_mem _ hk', hdata⟩
      · rintro o (ho | ⟨l, hl, hcov⟩)
        · exact hbytes o (.inl ho)
        · rcases List.mem_cons.mp hl with rfl | hl
          · rw [(covers_iff.mp hcov).1] at hvalid
            cases hvalid
          · exact hbytes o (.inr ⟨l, hl, hcov⟩)
    | true =>
      have hk := hlines k List.mem_cons_self hvalid
      have hend := hk.end_eq
      have hle := hk.end_le
      -- a valid line agrees with `ref`, so its commit brings the store closer to it
      have hcommit : ∀ o, (storeCommit store k.data k.startOffset).bytes[o]? =
          if k.startOffset ≤ o ∧ o < k.startOffset + L then ref[o]? else store.bytes[o]? := by
        intro o
        rw [storeCommit, hk.data_eq]
        exact List.getElem?_overwrite_segment hlength (by omega) o
      have hseg : k.data.length = L := by
        rw [hk.data_eq]
        exact List.length_segment (by omega)
      have hlength' : (storeCommit store k.data k.startOffset).bytes.length = ref.length :=
        (List.length_overwrite (by omega)).trans hlength
      obtain ⟨hflushed, hlen, hbytes, hinitial⟩ := ih hlines' hlength'
          (by
            intro x hx o ho
            rcases List.mem_cons.mp hx with rfl | hx
            · rw [hcommit]
              split_ifs
              · exact hinit o ho
              · exact hstore _ List.mem_cons_self o ho
            · exact hstore x hx o ho)
      simp only [cacheFlushLines, hvalid, if_true]
      refine ⟨?_, hlen, ?_, hinitial⟩
      · intro i l hl
        cases i with
        | zero =>
          cases hl
          exact ⟨rfl, k, List.mem_cons_self, rfl⟩
        | succ i =>
          obtain ⟨hl', k', hk', hdata⟩ := hflushed i l hl
          exact ⟨hl', k', List.mem_cons_of_mem _ hk', hdata⟩
      · intro o ho
        by_cases hin : k.startOffset ≤ o ∧ o < k.startOffset + L
        · exact hbytes o (.inl (by rw [hcommit, if_pos hin]))
        · rcases ho with ho | ⟨l, hl, hcov⟩
          · exact hbytes o (.inl (by rw [hcommit, if_neg hin, ho]))
          · rcases List.mem_cons.mp hl with rfl | hl
            · obtain ⟨-, hlo, hhi⟩ := covers_iff.mp hcov
              omega
            · exact hbytes o (.inr ⟨l, hl, hcov⟩)

/-- A flush leaves the memory to the store alone. -/
theorem CacheHolds.flush (h : CacheHolds policy init K m ref) :
    CacheHolds policy init K (cacheFlush m) ref ∧ (cacheFlush m).store.bytes = ref := by
  have hlines : ∀ l ∈ m.cache.line, l.valid = true → LineHolds m.cache.lineSize ref l := by
    intro l hl hvalid
    obtain ⟨i, hi⟩ := List.mem_iff_getElem?.mp hl
    exact h.resident i l hi hvalid
  obtain ⟨hflushed, hlen, hbytes, hinitial⟩ := cacheFlushLines_spec
    (h.initial ref List.mem_cons_self) hlines h.length_eq
    fun x hx => h.initial x (List.mem_cons_of_mem _ hx)
  have hstore : (cacheFlush m).store.bytes = ref := by
    refine List.ext_getElem? fun o => hbytes o ?_
    by_cases hres : m.cache.Resident o
    · exact .inr hres
    · exact .inl (h.away o hres)
  have hinvalid : ∀ (i : Nat) (l : CacheLine), (cacheFlush m).cache.line[i]? = some l →
      l.valid = true → False := by
    intro i l hl hvalid
    rw [(hflushed i l hl).1] at hvalid
    cases hvalid
  refine ⟨⟨h.policy_eq, h.lineSize_pos, h.dvd, hlen, ?_, ?_, ?_, ?_, fun _ => hstore, ?_⟩, hstore⟩
  · intro i l hl
    obtain ⟨-, k, hk, hdata⟩ := hflushed i l hl
    obtain ⟨j, hj⟩ := List.mem_iff_getElem?.mp hk
    rw [hdata]
    exact h.data_length j k hj
  · intro i l hl hvalid
    exact (hinvalid i l hl hvalid).elim
  · intro i j l k hl _ hvalid
    exact (hinvalid i l hl hvalid).elim
  · intro o _
    rw [hstore]
  · intro x hx
    rcases List.mem_cons.mp hx with rfl | hx
    · exact h.initial x List.mem_cons_self
    · exact hinitial x hx

/-! ## Runs -/

/-- What a call does to a flat memory, and what it answers. -/
def flatStep (ref : List UInt8) : CacheOp → List UInt8 × List UInt8
  | .read len offset => (ref, ref.segment offset len)
  | .write data offset => (ref.overwrite offset data, [])
  | .flush => (ref, [])

/-- The call writes the byte `i`. -/
def CacheOp.Writes : CacheOp → Nat → Prop
  | .write data offset, i => offset ≤ i ∧ i < offset + data.length
  | _, _ => False

/-- A call that fits does what it does to a flat memory. -/
theorem CacheHolds.step (a : Arch) (clock : Nat → Int) (hsize : ref.length < a.size)
    (h : CacheHolds policy init K m ref) {o : CacheOp}
    (hin : o.Inside ref.length) (hC : CacheFits m o) (hK : ∀ i, o.Writes i → K i) :
    ∃ m', cacheStep a clock m o = .ok (m', (flatStep ref o).2) ∧
      CacheHolds policy init K m' (flatStep ref o).1 ∧ (flatStep ref o).1.length = ref.length ∧
      (o = .flush → m'.store.bytes = (flatStep ref o).1) := by
  cases o with
  | read len offset =>
    obtain ⟨m', hread, h'⟩ := h.readLoop clock hsize hin.1 (Nat.lt_succ_self len) hin.2
      hC.1 hC.2
    refine ⟨m', hread, h', rfl, ?_⟩
    intro hflush
    cases hflush
  | write data offset =>
    obtain ⟨m', hwrite, h'⟩ := h.writeLoop clock hsize hin.1
      (Nat.lt_succ_self data.length) hin.2 hC.1 (fun i hlo hhi => hK i ⟨hlo, hhi⟩) hC.2
    refine ⟨m', ?_, h', List.length_overwrite hin.2, ?_⟩
    · rw [cacheStep, cacheWrite, hwrite]
      rfl
    · intro hflush
      cases hflush
  | flush =>
    obtain ⟨h', hstore⟩ := h.flush
    exact ⟨cacheFlush m, rfl, h', rfl, fun _ => hstore⟩

/-- A cache just made holds what its store does. -/
theorem cacheHolds_create {lineSize numLines : Nat} {bytes : List UInt8}
    (hline : 0 < lineSize) (hdvd : lineSize ∣ bytes.length) :
    CacheHolds policy bytes K ⟨cacheCreate lineSize numLines policy, ⟨bytes, []⟩, 0⟩ bytes := by
  have hlines : ∀ (i : Nat) (l : CacheLine),
      (cacheCreate lineSize numLines policy).line[i]? = some l →
      l = ⟨false, false, 0, 0, 0, List.replicate lineSize 0⟩ := by
    intro i l hl
    exact List.eq_of_mem_replicate (List.mem_of_getElem? hl)
  have hinvalid : ∀ (i : Nat) (l : CacheLine),
      (cacheCreate lineSize numLines policy).line[i]? = some l → l.valid = true → False := by
    intro i l hl hvalid
    rw [hlines i l hl] at hvalid
    cases hvalid
  refine ⟨rfl, hline, hdvd, rfl, ?_, ?_, ?_, fun _ _ => rfl, fun _ => rfl, ?_⟩
  · intro i l hl
    rw [hlines i l hl]
    exact List.length_replicate
  · intro i l hl hvalid
    exact (hinvalid i l hl hvalid).elim
  · intro i j l k hl _ hvalid
    exact (hinvalid i l hl hvalid).elim
  · intro x hx o _
    simp only [List.mem_cons, List.not_mem_nil, or_false, or_self] at hx
    rw [hx]

section Run

variable {lineSize numLines : Nat} {bytes : List UInt8}

/-- What holds after the calls `past` of a run over a store of the bytes `init`. -/
def CacheAfter (policy : CachePolicy) (init : List UInt8) (past : List CacheOp) (m : CacheMem)
    (ref : List UInt8) : Prop :=
  CacheHolds policy init (fun i => ∃ o ∈ past, o.Writes i) m ref ∧ ref.length = init.length ∧
    (past.getLast? = some .flush → m.store.bytes = ref)

/-- Every run whose calls fit answers as the flat memory does. -/
theorem cacheRun_spec (hline : 0 < lineSize) (hdvd : lineSize ∣ bytes.length)
    (hsize : bytes.length < a.size) {os : List CacheOp} (hin : ∀ o ∈ os, o.Inside bytes.length)
    (hC : Machine.Meets (cacheStep a clock) CacheFits
      ⟨cacheCreate lineSize numLines policy, ⟨bytes, []⟩, 0⟩ os) :
    ∃ m', Machine.run (cacheStep a clock)
        ⟨cacheCreate lineSize numLines policy, ⟨bytes, []⟩, 0⟩ os =
        .ok (m', (Machine.specRun flatStep bytes os).2) ∧
      CacheAfter policy bytes os m' (Machine.specRun flatStep bytes os).1 := by
  have hinside : Machine.Meets (cacheStep a clock) (fun _ o => o.Inside bytes.length)
      ⟨cacheCreate lineSize numLines policy, ⟨bytes, []⟩, 0⟩ os :=
    Machine.meets_of_forall fun _ => hin
  refine Machine.run_refines_history (p := []) (Q := CacheAfter policy bytes) ?_ ?_ (hC.and hinside)
  · rintro past m ref o ⟨h, hlen, -⟩ ⟨hfits, hino⟩
    have h' : CacheHolds policy bytes (fun i => ∃ o' ∈ past ++ [o], o'.Writes i) m ref :=
      h.mono fun i ⟨o', ho', hi⟩ => ⟨o', List.mem_append_left _ ho', hi⟩
    obtain ⟨m', hstep, hholds, hlen', hflush⟩ := h'.step a clock
      (by omega) (by rw [hlen]; exact hino) hfits
      fun i hi => ⟨o, List.mem_append_right _ List.mem_cons_self, hi⟩
    refine ⟨m', hstep, hholds, by omega, ?_⟩
    intro hlast
    rw [List.getLast?_append_cons, List.getLast?_singleton, Option.some.injEq] at hlast
    exact hflush hlast
  · refine ⟨cacheHolds_create hline hdvd, rfl, ?_⟩
    intro hlast
    cases hlast

/-- Over every run whose calls fit, `cache_read` answers the bytes a flat memory would. -/
theorem cache_refines_flat (a : Arch) (clock : Nat → Int) (lineSize numLines : Nat)
    (policy : CachePolicy) (bytes : List UInt8) (hline : 0 < lineSize)
    (hdvd : lineSize ∣ bytes.length) (hsize : bytes.length < a.size) (os : List CacheOp)
    (hin : ∀ o ∈ os, o.Inside bytes.length)
    (hC : Machine.Meets (cacheStep a clock) CacheFits
      ⟨cacheCreate lineSize numLines policy, ⟨bytes, []⟩, 0⟩ os) :
    ∃ m', Machine.run (cacheStep a clock)
      ⟨cacheCreate lineSize numLines policy, ⟨bytes, []⟩, 0⟩ os =
      .ok (m', (Machine.specRun flatStep bytes os).2) := by
  obtain ⟨m', hrun, -⟩ := cacheRun_spec hline hdvd hsize hin hC
  exact ⟨m', hrun⟩

/-- A cache of two lines fills a line to read it, and then writes to it. -/
theorem cacheFits_two :
    Machine.Meets (cacheStep .arch32 fun _ => 0) CacheFits
      ⟨cacheCreate 2 2 .writeBack, ⟨[1, 2, 3, 4], []⟩, 0⟩
      [.read 2 0, .write [9] 1, .read 2 0, .flush] := by
  refine .cons (r := [1, 2]) ⟨.inr (by decide), .inl (by decide)⟩ rfl ?_
  refine .cons (r := []) ⟨.inr (by decide), by decide, ?_⟩ rfl ?_
  · -- the write misses the line at `0`, and is given the one the read has filled
    intro p hp
    cases List.mem_singleton.mp (show p ∈ [((0 : Nat), (1 : Nat))] from hp)
    intro l hl
    cases hl
    decide
  refine .cons (r := [1, 9]) ⟨.inr (by decide), .inl (by decide)⟩ rfl ?_
  exact .cons trivial rfl trivial

theorem cache_refines_flat_two :
    ∃ m', Machine.run (cacheStep .arch32 fun _ => 0)
        ⟨cacheCreate 2 2 .writeBack, ⟨[1, 2, 3, 4], []⟩, 0⟩
        [.read 2 0, .write [9] 1, .read 2 0, .flush] = .ok (m', [[1, 2], [], [1, 9], []]) :=
  cache_refines_flat .arch32 (fun _ => 0) 2 2 .writeBack [1, 2, 3, 4] (by decide) (by decide)
    (by decide) [.read 2 0, .write [9] 1, .read 2 0, .flush]
    (by simp [CacheOp.Inside]) cacheFits_two

/-- A write of one byte of a line that is not in the cache leaves the other byte of the line as
the cache has it, and that is what is read. -/
theorem cache_read_unfilled_byte :
    ∃ m' answers, Machine.run (cacheStep .arch32 fun _ => 0)
        ⟨cacheCreate 2 1 .writeBack, ⟨[1, 2], []⟩, 0⟩ [.write [9] 0, .read 1 1] =
        .ok (m', answers) ∧
      answers = [[], [0]] ∧
      (Machine.specRun flatStep [1, 2] [.write [9] 0, .read 1 1]).2 = [[], [2]] :=
  ⟨_, _, rfl, rfl, rfl⟩

/-- Over every run whose calls fit, the store holds the flat memory after a write-through and
after a flush, and no byte of it that was not written ever differed from what it was. -/
theorem cache_keeps_store (a : Arch) (clock : Nat → Int) (lineSize numLines : Nat)
    (policy : CachePolicy) (bytes : List UInt8) (hline : 0 < lineSize)
    (hdvd : lineSize ∣ bytes.length) (hsize : bytes.length < a.size) (os : List CacheOp)
    (hin : ∀ o ∈ os, o.Inside bytes.length)
    (hC : Machine.Meets (cacheStep a clock) CacheFits
      ⟨cacheCreate lineSize numLines policy, ⟨bytes, []⟩, 0⟩ os) :
    ∃ m' answers, Machine.run (cacheStep a clock)
        ⟨cacheCreate lineSize numLines policy, ⟨bytes, []⟩, 0⟩ os = .ok (m', answers) ∧
      (policy = .writeThrough → m'.store.bytes = (Machine.specRun flatStep bytes os).1) ∧
      (os.getLast? = some .flush → m'.store.bytes = (Machine.specRun flatStep bytes os).1) ∧
      ∀ x ∈ m'.store.bytes :: m'.store.past, ∀ i, (∀ o ∈ os, ¬o.Writes i) →
        x[i]? = bytes[i]? := by
  obtain ⟨m', hrun, hholds, -, hflush⟩ := cacheRun_spec hline hdvd hsize hin hC
  refine ⟨m', _, hrun, hholds.through, hflush, ?_⟩
  intro x hx i hi
  apply hholds.initial x (List.mem_cons_of_mem _ hx)
  rintro ⟨o, ho, hw⟩
  exact hi o ho hw

theorem cache_keeps_store_two :
    ∃ m' answers, Machine.run (cacheStep .arch32 fun _ => 0)
        ⟨cacheCreate 2 2 .writeBack, ⟨[1, 2, 3, 4], []⟩, 0⟩
        [.read 2 0, .write [9] 1, .read 2 0, .flush] = .ok (m', answers) ∧
      (CachePolicy.writeBack = .writeThrough → m'.store.bytes = [1, 9, 3, 4]) ∧
      (some CacheOp.flush = some .flush → m'.store.bytes = [1, 9, 3, 4]) ∧
      ∀ x ∈ m'.store.bytes :: m'.store.past, ∀ i,
        (∀ o ∈ [.read 2 0, .write [9] 1, .read 2 0, .flush], ¬CacheOp.Writes o i) →
        x[i]? = ([1, 2, 3, 4] : List UInt8)[i]? :=
  cache_keeps_store .arch32 (fun _ => 0) 2 2 .writeBack [1, 2, 3, 4] (by decide) (by decide)
    (by decide) [.read 2 0, .write [9] 1, .read 2 0, .flush]
    (by simp [CacheOp.Inside]) cacheFits_two

/-- A write of one byte through a line that is not in the cache changes the other byte of the
line in the store. -/
theorem cache_write_changes_neighbour :
    ∃ m' answers, Machine.run (cacheStep .arch32 fun _ => 0)
        ⟨cacheCreate 2 1 .writeThrough, ⟨[1, 2], []⟩, 0⟩ [.write [9] 0] = .ok (m', answers) ∧
      m'.store.bytes = [9, 0] ∧
      (Machine.specRun flatStep [1, 2] [.write [9] 0]).1 = [9, 2] ∧
      ¬CacheOp.Writes (.write [9] 0) 1 :=
  ⟨_, _, rfl, rfl, rfl, by simp [CacheOp.Writes]⟩

end Run

end DVP.Sosal
