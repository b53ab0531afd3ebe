import DVP.Sosal.Cache.Basic

/-!
# The lines of the memory cache

Where the lines of the backing store start, when an offset is in a line of the cache
(`Cache.Resident`), and which line `cache_next` hands out (`Cache.free`).
-/

namespace DVP.Sosal

variable {clock : Nat → Int}

/-! ## Lines of the backing store -/

/-- Two lines of the store are equal or apart. -/
theorem lines_apart {L s t : Nat} (hs : L ∣ s) (ht : L ∣ t) (hne : s ≠ t) :
    s + L ≤ t ∨ t + L ≤ s := by
  obtain ⟨x, rfl⟩ := hs
  obtain ⟨y, rfl⟩ := ht
  rcases Nat.lt_trichotomy x y with hxy | hxy | hxy
  · left
    calc L * x + L = L * (x + 1) := (Nat.mul_succ L x).symm
      _ ≤ L * y := Nat.mul_le_mul_left L hxy
  · exact absurd (by rw [hxy]) hne
  · right
    calc L * y + L = L * (y + 1) := (Nat.mul_succ L y).symm
      _ ≤ L * x := Nat.mul_le_mul_left L hxy

theorem round_le (c : Cache) (o : Nat) : cacheRoundOffset c o ≤ o := Nat.div_mul_le_self o _

theorem dvd_round (c : Cache) (o : Nat) : c.lineSize ∣ cacheRoundOffset c o :=
  Nat.dvd_mul_left _ _

theorem round_add_mod (c : Cache) (o : Nat) :
    cacheRoundOffset c o + o % c.lineSize = o := by
  unfold cacheRoundOffset
  rw [Nat.mul_comm]
  exact Nat.div_add_mod o c.lineSize

/-- The line an offset lies in is its own. -/
theorem round_eq {c : Cache} {s o : Nat} (hs : c.lineSize ∣ s) (hle : s ≤ o)
    (hlt : o < s + c.lineSize) : cacheRoundOffset c o = s := by
  have hmod := Nat.mod_lt o (show 0 < c.lineSize by omega)
  have hround := round_add_mod c o
  by_contra hne
  rcases lines_apart (dvd_round c o) hs hne with h | h <;> omega

/-- The line an offset lies in ends inside the store. -/
theorem round_add_le {c : Cache} {n o : Nat} (hdvd : c.lineSize ∣ n)
    (ho : o < n) : cacheRoundOffset c o + c.lineSize ≤ n := by
  have hle := round_le c o
  rcases lines_apart (dvd_round c o) hdvd (by omega) with h | h
  · exact h
  · omega

/-! ## The search for a line -/

/-- The offset is in a valid line. -/
def Cache.Resident (c : Cache) (o : Nat) : Prop := ∃ l ∈ c.line, l.covers o = true

instance (c : Cache) (o : Nat) : Decidable (c.Resident o) :=
  inferInstanceAs (Decidable (∃ l ∈ c.line, l.covers o = true))

theorem covers_iff {l : CacheLine} {o : Nat} :
    l.covers o = true ↔ l.valid = true ∧ l.startOffset ≤ o ∧ o < l.endOffset := by
  simp [CacheLine.covers, and_assoc]

theorem cacheIndex_cases (c : Cache) (o : Nat) :
    (∃ i l, cacheIndex c o = some i ∧ c.line[i]? = some l ∧ l.covers o = true) ∨
      (cacheIndex c o = none ∧ ¬c.Resident o) := by
  rcases hi : cacheIndex c o with _ | i
  · right
    refine ⟨rfl, ?_⟩
    rintro ⟨l, hl, hcov⟩
    have hnone := List.findIdx?_eq_none_iff.mp hi l hl
    rw [hcov] at hnone
    cases hnone
  · left
    obtain ⟨hlt, hcov, -⟩ := List.findIdx?_eq_some_iff_getElem.mp hi
    exact ⟨i, c.line[i], rfl, List.getElem?_eq_getElem hlt, hcov⟩

/-- The indexes below `n` of the lines that are not valid, from the last one on. -/
def freeBelow (lines : List CacheLine) : Nat → List Nat
  | 0 => []
  | i + 1 =>
    match lines[i]? with
    | none => freeBelow lines i
    | some l => if l.valid = false then i :: freeBelow lines i else freeBelow lines i

/-- The indexes of the free lines, in the order in which `cache_next` hands them out. -/
def Cache.free (c : Cache) : List Nat := freeBelow c.line c.line.length

theorem mem_freeBelow {lines : List CacheLine} {n i : Nat} (h : i ∈ freeBelow lines n) :
    i < n ∧ ∃ l, lines[i]? = some l ∧ l.valid = false := by
  induction n with
  | zero => cases h
  | succ n ih =>
    rw [freeBelow] at h
    split at h
    · have := ih h
      exact ⟨by omega, this.2⟩
    · next l hl =>
      split_ifs at h with hvalid
      · rcases List.mem_cons.mp h with rfl | h
        · exact ⟨by omega, l, hl, hvalid⟩
        · have := ih h
          exact ⟨by omega, this.2⟩
      · have := ih h
        exact ⟨by omega, this.2⟩

/-- Lines from `n` on do not count below `n`. -/
theorem freeBelow_congr {lines lines' : List CacheLine} {n : Nat}
    (h : ∀ i < n, (lines'[i]?).map CacheLine.valid = (lines[i]?).map CacheLine.valid) :
    freeBelow lines' n = freeBelow lines n := by
  induction n with
  | zero => rfl
  | succ n ih =>
    have hn := h n (by omega)
    have hrest := ih fun i hi => h i (by omega)
    rw [freeBelow, freeBelow, hrest]
    rcases hl : lines[n]? with _ | l <;> rcases hl' : lines'[n]? with _ | l' <;>
      simp_all

/-- A line that was the first free one and is valid now is no longer free. -/
theorem freeBelow_take {lines : List CacheLine} {n i : Nat} {free : List Nat} {l : CacheLine}
    (hvalid : l.valid = true) (h : freeBelow lines n = i :: free) :
    freeBelow (lines.set i l) n = free := by
  induction n with
  | zero => cases h
  | succ n ih =>
    have hbelow : ∀ j < n, n = i →
        ((lines.set i l)[j]?).map CacheLine.valid = (lines[j]?).map CacheLine.valid := by
      intro j hj hni
      rw [List.getElem?_set_ne (by omega)]
    rw [freeBelow] at h
    rw [freeBelow]
    rcases hn : lines[n]? with _ | k
    · rw [hn] at h
      have hset : (lines.set i l)[n]? = none := by
        rw [List.getElem?_eq_none_iff] at hn ⊢
        simpa using hn
      rw [hset]
      exact ih h
    · rw [hn] at h
      have hlt : n < lines.length := (List.getElem?_eq_some_iff.mp hn).1
      dsimp only at h
      split_ifs at h with hk
      · obtain ⟨hni, hfree⟩ := List.cons.inj h
        rw [← hni, List.getElem?_set_self hlt]
        simp only [hvalid, Bool.true_eq_false, if_false]
        rw [← hfree]
        exact freeBelow_congr fun j hj => by rw [hni]; exact hbelow j hj hni
      · have hi := (mem_freeBelow (h ▸ List.mem_cons_self : i ∈ freeBelow lines n)).1
        rw [List.getElem?_set_ne (by omega), hn]
        simp only [if_neg hk]
        exact ih h

/-- The loop of `cache_next` finds the last free line. -/
theorem cacheScan_free (c : Cache) (now : Int) (n : Nat) :
    (cacheScan c now n).found = !(freeBelow c.line n).isEmpty ∧
      ∀ i free, freeBelow c.line n = i :: free → (cacheScan c now n).freeIndex = i := by
  induction n with
  | zero =>
    refine ⟨rfl, ?_⟩
    intro i free h
    cases h
  | succ n ih =>
    rw [cacheScan, freeBelow]
    rcases hn : c.line[n]? with _ | l
    · exact ih
    · by_cases hvalid : l.valid = false
      · simp only [if_pos hvalid]
        refine ⟨rfl, ?_⟩
        intro i free h
        exact (List.cons.inj h).1
      · simp only [if_neg hvalid]
        split_ifs
        · exact ih
        · exact ih

/-- With a free line `cache_next` takes the last one, and only asks the clock. -/
theorem cacheNext_of_free {m : CacheMem} {i : Nat} {free : List Nat}
    (h : m.cache.free = i :: free) :
    cacheNext clock m = .ok ({ m with ticks := m.ticks + 1 }, i) := by
  obtain ⟨hfound, hindex⟩ := cacheScan_free m.cache (clock m.ticks) m.cache.line.length
  have hfree : freeBelow m.cache.line m.cache.line.length = i :: free := h
  rw [hfree] at hfound
  unfold cacheNext
  simp [hfound, hindex i free hfree]

end DVP.Sosal
