import DVP.Sosal.Cache.Lines

/-!
# Coherence of the memory cache

`CacheHolds policy init K m ref` says that the cache and the backing store `m` together hold the
bytes `ref`, and that the store never lost an initial byte outside `K`. A line that is not valid
may hold anything (`CacheHolds.setFree`), and bytes written to a line that holds, or is given, the
right ones around them are written to the memory (`WritesLine.holds`).
-/

namespace DVP.Sosal

/-! ## The invariant -/

/-- A valid line holds the bytes of its range. -/
structure LineHolds (L : Nat) (ref : List UInt8) (l : CacheLine) : Prop where
  dvd : L ∣ l.startOffset
  end_eq : l.endOffset = l.startOffset + L
  end_le : l.endOffset ≤ ref.length
  data_eq : l.data = ref.segment l.startOffset L

/-- The cache and its store hold the bytes `ref` together: valid lines hold their range, and the
store everything else. Outside `K` nothing ever differed from `init`. -/
structure CacheHolds (policy : CachePolicy) (init : List UInt8) (K : Nat → Prop) (m : CacheMem)
    (ref : List UInt8) : Prop where
  policy_eq : m.cache.policy = policy
  lineSize_pos : 0 < m.cache.lineSize
  dvd : m.cache.lineSize ∣ ref.length
  length_eq : m.store.bytes.length = ref.length
  data_length : ∀ (i : Nat) (l : CacheLine), m.cache.line[i]? = some l →
    l.data.length = m.cache.lineSize
  resident : ∀ (i : Nat) (l : CacheLine), m.cache.line[i]? = some l → l.valid = true →
    LineHolds m.cache.lineSize ref l
  distinct : ∀ (i j : Nat) (l k : CacheLine), m.cache.line[i]? = some l →
    m.cache.line[j]? = some k → l.valid = true → k.valid = true →
    l.startOffset = k.startOffset → i = j
  away : ∀ o, ¬m.cache.Resident o → m.store.bytes[o]? = ref[o]?
  through : policy = .writeThrough → m.store.bytes = ref
  initial : ∀ x ∈ ref :: m.store.bytes :: m.store.past, ∀ o, ¬K o → x[o]? = init[o]?

variable {policy : CachePolicy} {init ref : List UInt8} {K K' : Nat → Prop} {m m' : CacheMem}

/-- A valid line covers the offsets that round to its start. -/
theorem LineHolds.covers_iff {c : Cache} {l : CacheLine} (hl : LineHolds c.lineSize ref l)
    (hpos : 0 < c.lineSize) (hvalid : l.valid = true) (o : Nat) :
    l.covers o = true ↔ cacheRoundOffset c o = l.startOffset := by
  rw [DVP.Sosal.covers_iff, hl.end_eq]
  constructor
  · rintro ⟨-, hle, hlt⟩
    exact round_eq hl.dvd hle hlt
  · intro hround
    have hmod := Nat.mod_lt o hpos
    have hsum := round_add_mod c o
    exact ⟨hvalid, by omega, by omega⟩

/-- An offset is resident when a valid line starts where it rounds to. -/
theorem CacheHolds.resident_iff (h : CacheHolds policy init K m ref) (o : Nat) :
    m.cache.Resident o ↔ ∃ (i : Nat) (l : CacheLine), m.cache.line[i]? = some l ∧
      l.valid = true ∧ l.startOffset = cacheRoundOffset m.cache o := by
  constructor
  · rintro ⟨l, hl, hcov⟩
    obtain ⟨i, hi⟩ := List.mem_iff_getElem?.mp hl
    have hvalid := (covers_iff.mp hcov).1
    exact ⟨i, l, hi, hvalid,
      (((h.resident i l hi hvalid).covers_iff h.lineSize_pos hvalid o).mp hcov).symm⟩
  · rintro ⟨i, l, hi, hvalid, hstart⟩
    exact ⟨l, List.mem_of_getElem? hi,
      ((h.resident i l hi hvalid).covers_iff h.lineSize_pos hvalid o).mpr hstart.symm⟩

/-- All offsets of a line are resident, or none is. -/
theorem CacheHolds.resident_congr (h : CacheHolds policy init K m ref) {o o' : Nat}
    (hround : cacheRoundOffset m.cache o = cacheRoundOffset m.cache o') :
    m.cache.Resident o ↔ m.cache.Resident o' := by
  rw [h.resident_iff, h.resident_iff, hround]

theorem CacheHolds.mono (h : CacheHolds policy init K m ref) (hK : ∀ o, K o → K' o) :
    CacheHolds policy init K' m ref :=
  { h with initial := fun x hx o ho => h.initial x hx o fun hk => ho (hK o hk) }

/-- The bytes of a line that is not resident are those of the store. -/
theorem CacheHolds.away_line (h : CacheHolds policy init K m ref) {o j : Nat}
    (ho : ¬m.cache.Resident o) (hj : j < m.cache.lineSize) :
    m.store.bytes[cacheRoundOffset m.cache o + j]? = ref[cacheRoundOffset m.cache o + j]? := by
  apply h.away
  have hround : cacheRoundOffset m.cache (cacheRoundOffset m.cache o + j) =
      cacheRoundOffset m.cache o :=
    round_eq (dvd_round _ _) (by omega) (by omega)
  rwa [h.resident_congr hround]

theorem getElem?_setLine {c : Cache} {i j : Nat} {l k : CacheLine}
    (hi : c.line[i]? = some k) :
    (c.setLine i l).line[j]? = if i = j then some l else c.line[j]? := by
  have hlt := (List.getElem?_eq_some_iff.mp hi).1
  unfold Cache.setLine
  by_cases hij : i = j
  · subst hij
    simp [hlt]
  · simp [hij]

/-- What a line that is not valid holds does not matter. -/
theorem CacheHolds.setFree (h : CacheHolds policy init K m ref) {i : Nat} {l : CacheLine}
    (ticks : Nat) (l' : CacheLine) (hl : m.cache.line[i]? = some l) (hfree : l.valid = false)
    (hfree' : l'.valid = false) (hlen : l'.data.length = m.cache.lineSize) :
    CacheHolds policy init K { m with cache := m.cache.setLine i l', ticks := ticks } ref ∧
      (m.cache.setLine i l').free = m.cache.free ∧
      ∀ o, (m.cache.setLine i l').Resident o ↔ m.cache.Resident o := by
  -- the valid lines are the same as before
  have hvalid : ∀ (j : Nat) (k : CacheLine), k.valid = true →
      ((m.cache.setLine i l').line[j]? = some k ↔ m.cache.line[j]? = some k) := by
    intro j k hk
    rw [getElem?_setLine hl]
    split_ifs with hij
    · rw [← hij, hl]
      constructor
      · intro heq
        cases heq
        rw [hfree'] at hk
        cases hk
      · intro heq
        cases heq
        rw [hfree] at hk
        cases hk
    · rfl
  have hresident : ∀ o, (m.cache.setLine i l').Resident o ↔ m.cache.Resident o := by
    intro o
    simp only [Cache.Resident, List.mem_iff_getElem?]
    constructor
    · rintro ⟨k, ⟨j, hj⟩, hcov⟩
      exact ⟨k, ⟨j, (hvalid j k (covers_iff.mp hcov).1).mp hj⟩, hcov⟩
    · rintro ⟨k, ⟨j, hj⟩, hcov⟩
      exact ⟨k, ⟨j, (hvalid j k (covers_iff.mp hcov).1).mpr hj⟩, hcov⟩
  refine ⟨?_, ?_, hresident⟩
  · refine ⟨h.policy_eq, h.lineSize_pos, h.dvd, h.length_eq, ?_, ?_, ?_, ?_, h.through, h.initial⟩
    · intro j k hj
      rw [getElem?_setLine hl] at hj
      split_ifs at hj with hij
      · cases hj
        exact hlen
      · exact h.data_length j k hj
    · intro j k hj hk
      exact h.resident j k ((hvalid j k hk).mp hj) hk
    · intro j₁ j₂ k₁ k₂ h₁ h₂ hk₁ hk₂
      exact h.distinct j₁ j₂ k₁ k₂ ((hvalid j₁ k₁ hk₁).mp h₁) ((hvalid j₂ k₂ hk₂).mp h₂) hk₁ hk₂
    · intro o ho
      exact h.away o fun hres => ho ((hresident o).mpr hres)
  · unfold Cache.free
    rw [show (m.cache.setLine i l').line.length = m.cache.line.length from List.length_set]
    apply freeBelow_congr
    intro j _
    rw [getElem?_setLine hl]
    split_ifs with hij
    · rw [← hij, hl, Option.map_some, Option.map_some, hfree, hfree']
    · rfl

/-- What the store is left with when the line `l` was written. -/
def storeAfterWrite (policy : CachePolicy) (store : BackingStore) (l : CacheLine) : BackingStore :=
  match policy with
  | .writeThrough => storeCommit store l.data l.startOffset
  | .writeBack => store

/-- Outside the line that was written the store is as before, and so is its length. -/
theorem storeAfterWrite_frame (policy : CachePolicy) {store : BackingStore} {l : CacheLine}
    (hle : l.startOffset + l.data.length ≤ store.bytes.length) :
    (storeAfterWrite policy store l).bytes.length = store.bytes.length ∧
      ∀ o, ¬(l.startOffset ≤ o ∧ o < l.startOffset + l.data.length) →
        (storeAfterWrite policy store l).bytes[o]? = store.bytes[o]? := by
  cases policy with
  | writeThrough =>
    refine ⟨List.length_overwrite hle, ?_⟩
    intro o ho
    unfold storeAfterWrite storeCommit
    rw [List.getElem?_overwrite hle, if_neg ho]
  | writeBack => exact ⟨rfl, fun _ _ => rfl⟩

/-- A line of the cache, the place `l'.startOffset` it is to hold, and the bytes written to it. -/
structure WritesLine (m : CacheMem) (ref : List UInt8) (i : Nat) (l l' : CacheLine) (intra : Nat)
    (bytes : List UInt8) : Prop where
  line : m.cache.line[i]? = some l
  valid : l'.valid = true
  dvd : m.cache.lineSize ∣ l'.startOffset
  end_eq : l'.endOffset = l'.startOffset + m.cache.lineSize
  end_le : l'.endOffset ≤ ref.length
  data_eq : l'.data = l.data.overwrite intra bytes
  inside : intra + bytes.length ≤ m.cache.lineSize
  /-- No other valid line holds that place. -/
  own : ∀ (j : Nat) (k : CacheLine), m.cache.line[j]? = some k → k.valid = true →
    k.startOffset = l'.startOffset → j = i
  /-- The line taken was free, or holds that place. -/
  old : l.valid = true → l.startOffset = l'.startOffset
  /-- The bytes of the line that are not written are those of that place. -/
  agrees : ∀ j < m.cache.lineSize, j < intra ∨ intra + bytes.length ≤ j →
    l.data[j]? = ref[l'.startOffset + j]?

section WritesLine

variable {i intra ticks : Nat} {l l' : CacheLine} {bytes : List UInt8}

/-- The line written holds the bytes of its range. -/
theorem WritesLine.data_segment (w : WritesLine m ref i l l' intra bytes)
    (h : CacheHolds policy init K m ref) :
    l'.data = (ref.overwrite (l'.startOffset + intra) bytes).segment l'.startOffset
      m.cache.lineSize := by
  have hend := w.end_eq
  have hle := w.end_le
  have hin := w.inside
  have hlen := h.data_length i l w.line
  have hseg : (ref.segment l'.startOffset m.cache.lineSize).length = m.cache.lineSize :=
    List.length_segment (by omega)
  rw [w.data_eq, List.segment_overwrite_inside (by omega) (by omega) (by omega),
    Nat.add_sub_cancel_left]
  apply List.overwrite_congr
  · rw [hlen, hseg]
  · omega
  · intro j hj
    rw [List.getElem?_segment]
    split_ifs with hjL
    · exact w.agrees j hjL hj
    · exact List.getElem?_eq_none (by omega)

theorem WritesLine.length_data (w : WritesLine m ref i l l' intra bytes)
    (h : CacheHolds policy init K m ref) : l'.data.length = m.cache.lineSize := by
  have hlen := h.data_length i l w.line
  have hin := w.inside
  rw [w.data_eq, List.length_overwrite (by omega), hlen]

/-- The offsets of other lines are resident as they were. -/
theorem WritesLine.resident_iff (w : WritesLine m ref i l l' intra bytes)
    (h : CacheHolds policy init K m ref) {o : Nat}
    (ho : cacheRoundOffset m.cache o ≠ l'.startOffset) :
    (m.cache.setLine i l').Resident o ↔ m.cache.Resident o := by
  -- neither the line written nor the one it replaces covers the offset
  have hnew : l'.covers o ≠ true := by
    intro hcov
    obtain ⟨-, hle, hlt⟩ := covers_iff.mp hcov
    rw [w.end_eq] at hlt
    exact ho (round_eq w.dvd hle hlt)
  have hold : l.covers o ≠ true := by
    intro hcov
    have hvalid := (covers_iff.mp hcov).1
    apply ho
    rw [← w.old hvalid]
    exact ((h.resident i l w.line hvalid).covers_iff h.lineSize_pos hvalid o).mp hcov
  simp only [Cache.Resident, List.mem_iff_getElem?]
  constructor
  · rintro ⟨k, ⟨j, hj⟩, hcov⟩
    rw [getElem?_setLine w.line] at hj
    split_ifs at hj with hij
    · cases hj
      exact absurd hcov hnew
    · exact ⟨k, ⟨j, hj⟩, hcov⟩
  · rintro ⟨k, ⟨j, hj⟩, hcov⟩
    refine ⟨k, ⟨j, ?_⟩, hcov⟩
    rw [getElem?_setLine w.line, if_neg]
    · exact hj
    · rintro rfl
      rw [w.line] at hj
      cases hj
      exact hold hcov

theorem WritesLine.length_overwrite (w : WritesLine m ref i l l' intra bytes) :
    (ref.overwrite (l'.startOffset + intra) bytes).length = ref.length := by
  have hend := w.end_eq
  have hle := w.end_le
  have hin := w.inside
  exact List.length_overwrite (by omega)

/-- Away from the bytes written the memory is as before. -/
theorem WritesLine.overwrite_frame (w : WritesLine m ref i l l' intra bytes) {o : Nat}
    (ho : ¬(l'.startOffset + intra ≤ o ∧ o < l'.startOffset + intra + bytes.length)) :
    (ref.overwrite (l'.startOffset + intra) bytes)[o]? = ref[o]? := by
  have hend := w.end_eq
  have hle := w.end_le
  have hin := w.inside
  rw [List.getElem?_overwrite (by omega), if_neg ho]

/-- The store after the line written went to it. -/
theorem WritesLine.getElem?_commit (w : WritesLine m ref i l l' intra bytes)
    (h : CacheHolds policy init K m ref) (o : Nat) :
    (storeCommit m.store l'.data l'.startOffset).bytes[o]? =
      if l'.startOffset ≤ o ∧ o < l'.startOffset + m.cache.lineSize then
        (ref.overwrite (l'.startOffset + intra) bytes)[o]?
      else m.store.bytes[o]? := by
  have hend := w.end_eq
  have hle := w.end_le
  have hlength := w.length_overwrite
  have hstore := h.length_eq
  rw [storeCommit, w.data_segment h]
  exact List.getElem?_overwrite_segment (by omega) (by omega) o

/-- The valid lines hold the bytes of their ranges. -/
theorem WritesLine.lineHolds (w : WritesLine m ref i l l' intra bytes)
    (h : CacheHolds policy init K m ref) {j : Nat} {k : CacheLine}
    (hj : (m.cache.setLine i l').line[j]? = some k) (hk : k.valid = true) :
    LineHolds m.cache.lineSize (ref.overwrite (l'.startOffset + intra) bytes) k := by
  have hend := w.end_eq
  have hle := w.end_le
  have hin := w.inside
  have hpos := h.lineSize_pos
  rw [getElem?_setLine w.line] at hj
  split_ifs at hj with hij
  · cases hj
    exact ⟨w.dvd, hend, by rw [w.length_overwrite]; exact hle, w.data_segment h⟩
  · -- the range of another line is apart from the bytes written
    have hold := h.resident j k hj hk
    have hne : k.startOffset ≠ l'.startOffset := fun heq => hij (w.own j k hj hk heq).symm
    have hkend := hold.end_eq
    have hkle := hold.end_le
    refine ⟨hold.dvd, hkend, by rw [w.length_overwrite]; exact hkle, ?_⟩
    rw [hold.data_eq]
    refine (List.segment_overwrite_disjoint (by omega) ?_).symm
    rcases lines_apart hold.dvd w.dvd hne with hapart | hapart
    · left
      omega
    · right
      omega

/-- No two valid lines hold one place. -/
theorem WritesLine.distinct (w : WritesLine m ref i l l' intra bytes)
    (h : CacheHolds policy init K m ref) {j₁ j₂ : Nat} {k₁ k₂ : CacheLine}
    (h₁ : (m.cache.setLine i l').line[j₁]? = some k₁)
    (h₂ : (m.cache.setLine i l').line[j₂]? = some k₂) (hk₁ : k₁.valid = true)
    (hk₂ : k₂.valid = true) (hstart : k₁.startOffset = k₂.startOffset) : j₁ = j₂ := by
  rw [getElem?_setLine w.line] at h₁ h₂
  split_ifs at h₁ h₂ with hj₁ hj₂ hj₂
  · rw [← hj₁, ← hj₂]
  · cases h₁
    exact absurd (w.own j₂ k₂ h₂ hk₂ hstart.symm).symm hj₂
  · cases h₂
    exact absurd (w.own j₁ k₁ h₁ hk₁ hstart).symm hj₁
  · exact h.distinct j₁ j₂ k₁ k₂ h₁ h₂ hk₁ hk₂ hstart

/-- What is not in a valid line is in the store. -/
theorem WritesLine.away (w : WritesLine m ref i l l' intra bytes)
    (h : CacheHolds policy init K m ref) {o : Nat} (ho : ¬(m.cache.setLine i l').Resident o) :
    (storeAfterWrite m.cache.policy m.store l').bytes[o]? =
      (ref.overwrite (l'.startOffset + intra) bytes)[o]? := by
  have hend := w.end_eq
  have hle := w.end_le
  have hin := w.inside
  have hstore := h.length_eq
  have hdlen := w.length_data h
  have hroom : l'.startOffset + l'.data.length ≤ m.store.bytes.length := by omega
  obtain ⟨-, hframe⟩ := storeAfterWrite_frame m.cache.policy hroom
  rw [hdlen] at hframe
  -- the line written is valid, so the offset is not in its range
  have hout : ¬(l'.startOffset ≤ o ∧ o < l'.startOffset + m.cache.lineSize) := by
    intro hin
    apply ho
    refine ⟨l', List.mem_of_getElem? (i := i) ?_, covers_iff.mpr ⟨w.valid, hin.1, by omega⟩⟩
    rw [getElem?_setLine w.line, if_pos rfl]
  have hround : cacheRoundOffset m.cache o ≠ l'.startOffset := by
    intro hround
    have hsum := round_add_mod m.cache o
    have hmod := Nat.mod_lt o h.lineSize_pos
    omega
  rw [hframe o hout, w.overwrite_frame (by omega)]
  exact h.away o fun hres => ho ((w.resident_iff h hround).mpr hres)

/-- What the memory and the store ever held differs from `init` in `K` alone. -/
theorem WritesLine.initial (w : WritesLine m ref i l l' intra bytes)
    (h : CacheHolds policy init K m ref)
    (hK : ∀ o, l'.startOffset + intra ≤ o → o < l'.startOffset + intra + bytes.length → K o) :
    ∀ x ∈ ref.overwrite (l'.startOffset + intra) bytes ::
        (storeAfterWrite m.cache.policy m.store l').bytes ::
          (storeAfterWrite m.cache.policy m.store l').past,
      ∀ o, ¬K o → x[o]? = init[o]? := by
  intro x hx o ho
  have hinit : (ref.overwrite (l'.startOffset + intra) bytes)[o]? = init[o]? := by
    rw [w.overwrite_frame fun hwritten => ho (hK o hwritten.1 hwritten.2)]
    exact h.initial ref List.mem_cons_self o ho
  -- what the store ever held: as before, and after a write through the line written
  have hold : ∀ y ∈ m.store.bytes :: m.store.past, y[o]? = init[o]? :=
    fun y hy => h.initial y (List.mem_cons_of_mem _ hy) o ho
  have hnew : (storeCommit m.store l'.data l'.startOffset).bytes[o]? = init[o]? := by
    rw [w.getElem?_commit h]
    split_ifs
    · exact hinit
    · exact hold _ List.mem_cons_self
  rcases List.mem_cons.mp hx with rfl | hx
  · exact hinit
  · cases hpolicy : m.cache.policy with
    | writeThrough =>
      rw [hpolicy, storeAfterWrite] at hx
      rcases List.mem_cons.mp hx with rfl | hx
      · exact hnew
      · exact hold x hx
    | writeBack =>
      rw [hpolicy, storeAfterWrite] at hx
      exact hold x hx

/-- Writing to a line of the cache, and through it, is writing to the memory. -/
theorem WritesLine.holds (w : WritesLine m ref i l l' intra bytes) (h : CacheHolds policy init K m ref)
    (hK : ∀ o, l'.startOffset + intra ≤ o → o < l'.startOffset + intra + bytes.length → K o) :
    CacheHolds policy init K ⟨m.cache.setLine i l', storeAfterWrite m.cache.policy m.store l', ticks⟩
      (ref.overwrite (l'.startOffset + intra) bytes) where
  policy_eq := h.policy_eq
  lineSize_pos := h.lineSize_pos
  dvd := by
    rw [w.length_overwrite]
    exact h.dvd
  length_eq := by
    have hend := w.end_eq
    have hle := w.end_le
    have hstore := h.length_eq
    have hdlen := w.length_data h
    have hroom : l'.startOffset + l'.data.length ≤ m.store.bytes.length := by omega
    rw [(storeAfterWrite_frame m.cache.policy hroom).1, w.length_overwrite, hstore]
  data_length := by
    intro j k hj
    rw [getElem?_setLine w.line] at hj
    split_ifs at hj with hij
    · cases hj
      exact w.length_data h
    · exact h.data_length j k hj
  resident := fun _ _ hj hk => w.lineHolds h hj hk
  distinct := fun _ _ _ _ h₁ h₂ hk₁ hk₂ hstart => w.distinct h h₁ h₂ hk₁ hk₂ hstart
  away := fun _ ho => w.away h ho
  through := by
    intro hpolicy
    refine List.ext_getElem? fun o => ?_
    dsimp only
    rw [h.policy_eq, hpolicy, storeAfterWrite, w.getElem?_commit h]
    split_ifs with hline
    · rfl
    · have hend := w.end_eq
      have hin := w.inside
      rw [h.through hpolicy, w.overwrite_frame (by omega)]
  initial := w.initial h hK

/-- The same where the line's place and the offset written are known. -/
theorem WritesLine.holdsAt (w : WritesLine m ref i l l' intra bytes)
    (h : CacheHolds policy init K m ref) {start offset : Nat} (hstart : l'.startOffset = start)
    (hoffset : start + intra = offset)
    (hK : ∀ o, start + intra ≤ o → o < start + intra + bytes.length → K o) :
    CacheHolds policy init K ⟨m.cache.setLine i l', storeAfterWrite m.cache.policy m.store l', ticks⟩
      (ref.overwrite offset bytes) := by
  subst hstart
  subst hoffset
  exact w.holds h hK

/-- What a round of `cache_write` at the line `start` leaves as it was. -/
structure WriteFrame (m m' : CacheMem) (start : Nat) : Prop where
  lineSize : m'.cache.lineSize = m.cache.lineSize
  resident : ∀ o, cacheRoundOffset m.cache o ≠ start →
    (m'.cache.Resident o ↔ m.cache.Resident o)
  line : ∀ i ∈ m'.cache.free, m'.cache.line[i]? = m.cache.line[i]?
  store : ∀ o, ¬(start ≤ o ∧ o < start + m.cache.lineSize) →
    m'.store.bytes[o]? = m.store.bytes[o]?

theorem WritesLine.frame (w : WritesLine m ref i l l' intra bytes) (h : CacheHolds policy init K m ref) :
    WriteFrame m ⟨m.cache.setLine i l', storeAfterWrite m.cache.policy m.store l', ticks⟩
      l'.startOffset := by
  have hend := w.end_eq
  have hle := w.end_le
  have hdlen := w.length_data h
  have hstore := h.length_eq
  have hroom : l'.startOffset + l'.data.length ≤ m.store.bytes.length := by omega
  obtain ⟨-, hframe⟩ := storeAfterWrite_frame m.cache.policy hroom
  refine ⟨rfl, fun o ho => w.resident_iff h ho, ?_, ?_⟩
  · intro j hj
    obtain ⟨-, k, hk, hinvalid⟩ := mem_freeBelow hj
    dsimp only at hk ⊢
    rw [getElem?_setLine w.line] at hk ⊢
    split_ifs at hk ⊢ with hij
    · cases hk
      rw [w.valid] at hinvalid
      cases hinvalid
    · rfl
  · rw [← hdlen]
    exact hframe

/-- A line that was written is not free. -/
theorem WritesLine.free_eq (w : WritesLine m ref i l l' intra bytes) :
    (m.cache.setLine i l').free =
      if l.valid = true then m.cache.free else freeBelow (m.cache.line.set i l') m.cache.line.length := by
  have hlength : (m.cache.setLine i l').line.length = m.cache.line.length := List.length_set
  unfold Cache.free
  rw [hlength]
  split_ifs with hvalid
  · apply freeBelow_congr
    intro j _
    rw [getElem?_setLine w.line]
    split_ifs with hij
    · rw [← hij, w.line, Option.map_some, Option.map_some, hvalid, w.valid]
    · rfl
  · rfl

end WritesLine

end DVP.Sosal
