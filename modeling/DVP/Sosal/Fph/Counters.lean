import DVP.Lib.Run
import DVP.Sosal.Fph.Refinement
import Mathlib.Order.Interval.Finset.Nat

/-!
# The counters of the fixed-pointer hash

The counters that `FPH_METRICS` adds, over calls with any keys. A slot is empty when its key is
`NULL`, so an `fph_clr` of `NULL` finds the first empty slot of a block as it would find a key.

* `CountersExact` says that `length[b]` is the number of occupied slots of the block `b` and
  `numPtrs` the sum of all `length[b]`.
* `fph_counters_exact_iff`: the counters are exact after every call of a run, and none of them
  wraps below zero, exactly when no `fph_clr` of the run takes an empty slot for its key and none
  finds its key in a block of several keys whose `collisions` is zero.
-/

namespace DVP.Sosal

variable {a : Arch} {f : Fph} {b i j k : Nat}

/-- The key in the slot `i`, `NULL` when the slot is empty. -/
def Fph.keyAt (f : Fph) (i : Nat) : Nat := (f.hash.getD i ⟨0, 0⟩).key

/-- The occupied slots of the block `b`. -/
def Fph.occupied (f : Fph) (b : Nat) : Finset Nat :=
  {i ∈ Finset.Ico (b * f.blockSize) (b * f.blockSize + f.blockSize) | f.keyAt i ≠ 0}

/-- The calls of a run, with any keys. -/
inductive FphCall where
  | set (k v : Nat)
  | clr (k : Nat)
  | get (k : Nat)

/-- One call. It answers what it returned, and the value `fph_get` stored. -/
def fphCall (a : Arch) (f : Fph) : FphCall → Except Fault (Fph × (Nat × Nat))
  | .set k v => do
    let (r, f) ← fphSet a f k v
    return (f, (r, 0))
  | .clr k => do
    let (r, f) ← fphClr a f k
    return (f, (r, 0))
  | .get k => do
    let r ← fphGet a f k
    return (f, r)

/-- The counters `length` and `numPtrs` count the occupied slots. -/
structure CountersExact (f : Fph) : Prop where
  length : ∀ b < f.numBlocks, f.metrics.length[b]? = some (f.occupied b).card
  numPtrs : f.metrics.numPtrs = f.metrics.length.sum

/-- After the call the counters are exact, and no counter wrapped below zero in it. Only `fph_clr`
lowers counters, and one that wraps below zero is larger afterwards. -/
def CountersKept (f : Fph) (o : FphCall) (_ : Nat × Nat) (f' : Fph) : Prop :=
  CountersExact f' ∧
    match o with
    | .clr _ =>
      f'.metrics.numPtrs ≤ f.metrics.numPtrs ∧
        (∀ b, f'.metrics.length.getD b 0 ≤ f.metrics.length.getD b 0) ∧
        ∀ b, f'.metrics.collisions.getD b 0 ≤ f.metrics.collisions.getD b 0
    | _ => True

/-- The number of the block of a key. -/
def Fph.blockNum (f : Fph) (k : Nat) : Nat := f.start k / f.blockSize

/-- An `fph_clr` that finds its key in a slot is not given `NULL`, and `collisions` is not zero
for the block when it holds other keys. -/
def CountsClear (f : Fph) : FphCall → Prop
  | .clr k => (∃ i, f.InBlock k i ∧ f.HasKey i k) →
      k ≠ 0 ∧ (1 < f.metrics.length.getD (f.blockNum k) 0 →
        0 < f.metrics.collisions.getD (f.blockNum k) 0)
  | _ => True

/-! ## Occupied slots -/

/-- A hash with one slot and its counters replaced. -/
def Fph.put (f : Fph) (i : Nat) (kv : FphKv) (mt : FphMetrics) : Fph :=
  { f with hash := f.hash.set i kv, metrics := mt }

variable {kv : FphKv} {mt : FphMetrics}

theorem Fph.keyAt_put (hi : i < f.hash.length) :
    (f.put i kv mt).keyAt j = if j = i then kv.key else f.keyAt j := by
  unfold Fph.keyAt Fph.put
  grind

theorem Fph.hasKey_iff : f.HasKey i k ↔ i < f.hash.length ∧ f.keyAt i = k := by
  unfold Fph.HasKey Fph.keyAt
  constructor
  · rintro ⟨v, hv⟩
    obtain ⟨hi, -⟩ := List.getElem?_eq_some_iff.mp hv
    refine ⟨hi, ?_⟩
    rw [List.getD_eq_getElem?_getD, hv]
    rfl
  · rintro ⟨hi, rfl⟩
    refine ⟨f.hash[i].value, ?_⟩
    rw [List.getD_eq_getElem?_getD, List.getElem?_eq_getElem hi]
    rfl

/-- The slots of a block are those whose number divided by the size of a block is its number. -/
theorem Fph.mem_occupied (hpos : 0 < f.blockSize) :
    i ∈ f.occupied b ↔ i / f.blockSize = b ∧ f.keyAt i ≠ 0 := by
  unfold Fph.occupied
  rw [Finset.mem_filter, Finset.mem_Ico, Nat.div_eq_iff hpos]
  refine and_congr_left fun _ => ?_
  omega

theorem Fph.card_occupied_le : (f.occupied b).card ≤ f.blockSize := by
  refine (Finset.card_filter_le _ _).trans ?_
  rw [Nat.card_Ico]
  omega

theorem Fph.mem_occupied_put (hpos : 0 < f.blockSize) (hi : i < f.hash.length) :
    j ∈ (f.put i kv mt).occupied b ↔
      j / f.blockSize = b ∧ (if j = i then kv.key else f.keyAt j) ≠ 0 := by
  rw [← Fph.keyAt_put  hi]
  exact Fph.mem_occupied hpos

/-- Replacing a slot does not change the other blocks. -/
theorem Fph.occupied_put_of_ne (hpos : 0 < f.blockSize) (hi : i < f.hash.length)
    (hb : b ≠ i / f.blockSize) : (f.put i kv mt).occupied b = f.occupied b := by
  ext j
  rw [Fph.mem_occupied_put hpos hi, Fph.mem_occupied hpos]
  refine and_congr_right fun hj => ?_
  rw [if_neg]
  rintro rfl
  exact hb hj.symm

/-- A slot that takes a key is occupied. -/
theorem Fph.occupied_put_key (hpos : 0 < f.blockSize) (hi : i < f.hash.length) (hkv : kv.key ≠ 0) :
    (f.put i kv mt).occupied (i / f.blockSize) = insert i (f.occupied (i / f.blockSize)) := by
  ext j
  rw [Fph.mem_occupied_put hpos hi, Finset.mem_insert, Fph.mem_occupied hpos]
  by_cases hj : j = i
  · rw [if_pos hj]
    exact iff_of_true ⟨by rw [hj], hkv⟩ (.inl hj)
  · rw [if_neg hj, or_iff_right hj]

/-- A slot that takes `NULL` is not. -/
theorem Fph.occupied_put_null (hpos : 0 < f.blockSize) (hi : i < f.hash.length)
    (hkv : kv.key = 0) :
    (f.put i kv mt).occupied (i / f.blockSize) = (f.occupied (i / f.blockSize)).erase i := by
  ext j
  rw [Fph.mem_occupied_put hpos hi, Finset.mem_erase, Fph.mem_occupied hpos]
  by_cases hj : j = i
  · rw [if_pos hj]
    exact iff_of_false (fun h => h.2 hkv) fun h => h.1 hj
  · rw [if_neg hj, and_iff_right (show j ≠ i from hj)]

/-! ## Sums of counters -/

/-- Replacing a number of a list changes its sum by the difference. -/
theorem sum_set_add {xs : List Nat} {x y : Nat} (hx : xs[i]? = some x) :
    (xs.set i y).sum + x = xs.sum + y := by
  induction xs generalizing i with
  | nil => cases hx
  | cons z xs ih =>
    match i, hx with
    | 0, hx =>
      cases hx
      rw [List.set_cons_zero, List.sum_cons, List.sum_cons]
      omega
    | i + 1, hx =>
      have hrest := ih (i := i) hx
      rw [List.set_cons_succ, List.sum_cons, List.sum_cons]
      omega

/-- Replacing a number of a list by itself. -/
theorem set_eq_self {xs : List Nat} {x : Nat} (hx : xs[i]? = some x) : xs.set i x = xs := by
  obtain ⟨hi, rfl⟩ := List.getElem?_eq_some_iff.mp hx
  exact List.set_getElem_self hi

/-- Replacing a number of a list by a smaller one makes none larger. -/
theorem getD_set_le {xs : List Nat} {x y : Nat} (hx : xs[i]? = some x) (hy : y ≤ x) (b : Nat) :
    (xs.set i y).getD b 0 ≤ xs.getD b 0 := by
  grind

/-- The sum of numbers up to `c` of which only the first `n` are not zero. -/
theorem sum_le_mul {xs : List Nat} {c n : Nat}
    (hxs : ∀ i x, xs[i]? = some x → x ≤ c ∧ (n ≤ i → x = 0)) : xs.sum ≤ n * c := by
  induction xs generalizing n with
  | nil => exact Nat.zero_le _
  | cons x xs ih =>
    obtain ⟨hle, hzero⟩ := hxs 0 x rfl
    rw [List.sum_cons]
    match n with
    | 0 =>
      have hrest : xs.sum ≤ 0 * c :=
        ih fun i y hy => ⟨(hxs (i + 1) y hy).1, fun _ => (hxs (i + 1) y hy).2 (Nat.zero_le _)⟩
      have hfirst := hzero (Nat.zero_le _)
      omega
    | n + 1 =>
      have hrest : xs.sum ≤ n * c :=
        ih fun i y hy =>
          ⟨(hxs (i + 1) y hy).1, fun hn => (hxs (i + 1) y hy).2 (Nat.succ_le_succ hn)⟩
      rw [Nat.succ_mul]
      omega

/-! ## The invariant -/

/-- The counters of a hash are exact, the key function names whole blocks that a `uint32_t` can
count through, for `NULL` too, and the blocks beyond them are empty. -/
structure FphCounts (f : Fph) : Prop where
  block_pos : 0 < f.blockSize
  aligned : ∀ k, ∃ b < f.numBlocks,
    f.start k = b * f.blockSize ∧ b * f.blockSize + f.blockSize < 2 ^ 32
  hash_length : f.hash.length = f.numBlocks * f.blockSize
  collisions_length : f.metrics.collisions.length = f.numBlocks
  length_length : f.metrics.length.length = f.numBlocks
  collisions_lt : ∀ c ∈ f.metrics.collisions, c < 2 ^ 32
  exact : CountersExact f
  beyond : ∀ b, 2 ^ 32 ≤ b * f.blockSize + f.blockSize → f.occupied b = ∅

namespace FphCounts

theorem block_eq (h : FphCounts f) (k : Nat) :
    f.blockNum k < f.numBlocks ∧ f.start k = f.blockNum k * f.blockSize ∧
      f.start k + f.blockSize < 2 ^ 32 ∧ f.start k + f.blockSize ≤ f.hash.length := by
  obtain ⟨b, hb, hstart, hlt⟩ := h.aligned k
  have hblock : f.blockNum k = b := by
    unfold Fph.blockNum
    rw [hstart, Nat.mul_div_cancel _ h.block_pos]
  rw [hblock, h.hash_length, hstart, ← Nat.succ_mul]
  refine ⟨hb, rfl, ?_, Nat.mul_le_mul_right _ hb⟩
  rw [Nat.succ_mul]
  exact hlt

/-- The slots of the block of a key. -/
theorem div_of_inBlock (h : FphCounts f) (hi : f.InBlock k i) : i / f.blockSize = f.blockNum k := by
  obtain ⟨-, hstart, -, -⟩ := h.block_eq k
  have hpos := h.block_pos
  obtain ⟨hle, hlt⟩ := hi
  rw [hstart] at hle hlt
  rw [Nat.div_eq_iff hpos]
  omega

/-- The counters of the block of a key can be read. -/
theorem counters (h : FphCounts f) (k : Nat) :
    ∃ col, f.metrics.collisions[f.blockNum k]? = some col ∧ col < 2 ^ 32 ∧
      f.metrics.length[f.blockNum k]? = some (f.occupied (f.blockNum k)).card := by
  obtain ⟨hb, -, -, -⟩ := h.block_eq k
  have hcol : f.blockNum k < f.metrics.collisions.length := by
    rw [h.collisions_length]
    exact hb
  exact ⟨_, List.getElem?_eq_getElem hcol, h.collisions_lt _ (List.getElem_mem hcol),
    h.exact.length _ hb⟩

/-- The sum of the counters of a hash that counts exactly is a `uint32_t`. -/
theorem sum_lt {xs : List Nat} (hpos : 0 < f.blockSize) (hlen : xs.length = f.numBlocks)
    (hxs : ∀ b < f.numBlocks, xs[b]? = some (f.occupied b).card)
    (hbeyond : ∀ b, 2 ^ 32 ≤ b * f.blockSize + f.blockSize → f.occupied b = ∅) :
    xs.sum < 2 ^ 32 := by
  have hle : xs.sum ≤ (2 ^ 32 - 1) / f.blockSize * f.blockSize := by
    refine sum_le_mul fun b x hx => ?_
    have hb : b < f.numBlocks := by
      rw [← hlen]
      exact (List.getElem?_eq_some_iff.mp hx).1
    rw [hxs b hb] at hx
    cases hx
    refine ⟨Fph.card_occupied_le, fun hn => ?_⟩
    rw [hbeyond, Finset.card_empty]
    have hlt := (Nat.div_lt_iff_lt_mul hpos).mp (Nat.lt_succ_of_le hn)
    rw [Nat.succ_mul] at hlt
    omega
  -- as many blocks as a `uint32_t` can index, and no block holds more than its slots
  have hdiv := Nat.div_mul_le_self (2 ^ 32 - 1) f.blockSize
  omega

/-- A hash with a slot of the block of a key replaced counts exactly again when the counter of the
block is what the block now holds. -/
theorem put (h : FphCounts f) (hi : f.InBlock k i) {n : Nat}
    (hn : n = ((f.put i kv mt).occupied (f.blockNum k)).card)
    (hlength : mt.length = f.metrics.length.set (f.blockNum k) n)
    (hptrs : mt.length.sum < 2 ^ 32 → mt.numPtrs = mt.length.sum)
    (hcol : mt.collisions.length = f.numBlocks) (hcol_lt : ∀ c ∈ mt.collisions, c < 2 ^ 32) :
    FphCounts (f.put i kv mt) := by
  obtain ⟨hb, -, hlt, hle⟩ := h.block_eq k
  have hpos := h.block_pos
  have hslot : i < f.hash.length := hi.2.trans_le hle
  have hdiv := h.div_of_inBlock hi
  -- the slot lies in the block of the key, so the other blocks keep their slots
  have hothers : ∀ b, b ≠ f.blockNum k → (f.put i kv mt).occupied b = f.occupied b := by
    intro b hne
    refine Fph.occupied_put_of_ne hpos hslot ?_
    rw [hdiv]
    exact hne
  have hlen : mt.length.length = f.numBlocks := by
    rw [hlength, List.length_set, h.length_length]
  have hcounts : ∀ b < f.numBlocks, mt.length[b]? = some ((f.put i kv mt).occupied b).card := by
    intro b hb'
    rw [hlength]
    by_cases hne : b = f.blockNum k
    · rw [hne, List.getElem?_set_self (by rw [h.length_length]; exact hb), hn]
    · rw [List.getElem?_set_ne (fun heq => hne heq.symm), hothers b hne]
      exact h.exact.length b hb'
  have hbeyond : ∀ b, 2 ^ 32 ≤ b * f.blockSize + f.blockSize →
      (f.put i kv mt).occupied b = ∅ := by
    intro b hb'
    rw [hothers b, h.beyond b hb']
    rintro rfl
    obtain ⟨-, hstart, -, -⟩ := h.block_eq k
    omega
  have hsum : mt.length.sum < 2 ^ 32 := sum_lt (f := f.put i kv mt) hpos hlen hcounts hbeyond
  exact
    { block_pos := hpos
      aligned := h.aligned
      hash_length := by
        show (f.hash.set i kv).length = _
        rw [List.length_set]
        exact h.hash_length
      collisions_length := hcol
      length_length := hlen
      collisions_lt := hcol_lt
      exact := ⟨hcounts, hptrs hsum⟩
      beyond := hbeyond }

/-- A slot of the block of a key that takes it is one of the occupied ones of the block. -/
theorem occupied_put_inBlock (h : FphCounts f) (hi : f.InBlock k i) (hk : k ≠ 0) (v : Nat)
    (mt : FphMetrics) :
    (f.put i ⟨k, v⟩ mt).occupied (f.blockNum k) = insert i (f.occupied (f.blockNum k)) := by
  obtain ⟨-, -, -, hle⟩ := h.block_eq k
  rw [← h.div_of_inBlock hi]
  exact Fph.occupied_put_key h.block_pos (hi.2.trans_le hle) hk

theorem collisions_lt_set (h : FphCounts f) {b x c : Nat}
    (hc : c ∈ f.metrics.collisions.set b x) (hx : x < 2 ^ 32) : c < 2 ^ 32 := by
  rcases List.mem_or_eq_of_mem_set hc with hc | rfl
  · exact h.collisions_lt c hc
  · exact hx

end FphCounts

/-! ## The calls -/

theorem dec32_of_pos {n : Nat} (hpos : 0 < n) (hlt : n < 2 ^ 32) : dec32 n = n - 1 := by
  unfold dec32 wrap32
  omega

/-- The counters after an `fph_set` that replaced the value of its key. -/
def Fph.replaceCounters (f : Fph) (k col : Nat) : FphMetrics :=
  { f.metrics with
    numReplacements := inc32 f.metrics.numReplacements
    collisions := f.metrics.collisions.set (f.blockNum k) (inc32 col) }

/-- The counters after an `fph_set` that filled an empty slot, in a block of `n` occupied ones. -/
def Fph.fillCounters (f : Fph) (k n : Nat) : FphMetrics :=
  { f.metrics with
    length := f.metrics.length.set (f.blockNum k) (inc32 n)
    numPtrs := inc32 f.metrics.numPtrs }

/-- The counters after an `fph_clr` that found its key, in a block of `n` occupied slots. -/
def Fph.clrCounters (f : Fph) (k n col : Nat) : FphMetrics :=
  { f.metrics with
    collisions := f.metrics.collisions.set (f.blockNum k)
      (if n > 1 then dec32 col else if n = 1 then 0 else col)
    length := f.metrics.length.set (f.blockNum k) (dec32 n)
    numPtrs := dec32 f.metrics.numPtrs }

namespace FphCounts

/-- `fph_clr` empties a slot whose key it is given, or changes nothing. -/
theorem clr_spec (h : FphCounts f) (k : Nat) :
    (∃ i col, f.InBlock k i ∧ f.HasKey i k ∧ f.metrics.collisions[f.blockNum k]? = some col ∧
        fphClr a f k = .ok (1, f.put i ⟨0, 0⟩
          (f.clrCounters k (f.occupied (f.blockNum k)).card col))) ∨
      ((∀ i, f.InBlock k i → ¬f.HasKey i k) ∧ fphClr a f k = .ok (0, f)) := by
  obtain ⟨-, -, hlt, hle⟩ := h.block_eq k
  obtain ⟨col, hcol, -, hlen⟩ := h.counters k
  rcases fphScan_block (a := a) hle hlt (· == k) with
    ⟨j, kv, hscan, hj, hkv, hstop, -⟩ | ⟨hscan, hnone⟩
  · left
    have hkey : kv.key = k := by simpa using hstop
    refine ⟨j, col, hj, ⟨kv.value, by rw [hkv, ← hkey]⟩, hcol, ?_⟩
    unfold Fph.blockNum at hcol hlen
    -- the metrics are updated before the slot is, from the counters of the block
    have hmt : fphClrMetrics f (f.start k / f.blockSize) =
        .ok (f.clrCounters k (f.occupied (f.blockNum k)).card col) := by
      unfold fphClrMetrics fphCounter
      rw [hcol, hlen]
      rfl
    simp only [fphClr, ← Fph.start_eq, hscan, hmt, ok_bind]
    rfl
  · right
    refine ⟨?_, by simp [fphClr, ← Fph.start_eq, hscan]⟩
    rintro i hi ⟨v, hv⟩
    simpa using hnone i _ hi hv

/-- `fph_get` returns. -/
theorem get_ok (h : FphCounts f) (k : Nat) : ∃ r, fphGet a f k = .ok r := by
  obtain ⟨-, -, hlt, hle⟩ := h.block_eq k
  rcases fphScan_block (a := a) hle hlt (· == k) with
    ⟨j, kv, hscan, -, hkv, -, -⟩ | ⟨hscan, -⟩
  · exact ⟨(1, kv.value), by simp [fphGet, ← Fph.start_eq, hscan, hkv]⟩
  · exact ⟨(0, 0), by simp [fphGet, ← Fph.start_eq, hscan]⟩

/-- An `fph_clr` that finds a key other than `NULL` takes one off the counters of its block. -/
theorem clr_counts (h : FphCounts f) (hi : f.InBlock k i) (hkey : f.HasKey i k) (hk : k ≠ 0)
    {col : Nat} (hcol : f.metrics.collisions[f.blockNum k]? = some col) :
    FphCounts (f.put i ⟨0, 0⟩ (f.clrCounters k (f.occupied (f.blockNum k)).card col)) ∧
      0 < (f.occupied (f.blockNum k)).card ∧ 0 < f.metrics.numPtrs ∧ f.metrics.numPtrs < 2 ^ 32 ∧
      (f.occupied (f.blockNum k)).card < 2 ^ 32 := by
  obtain ⟨-, -, hlt, -⟩ := h.block_eq k
  obtain ⟨hslot, hkeyAt⟩ := Fph.hasKey_iff.mp hkey
  have hdiv := h.div_of_inBlock hi
  have hpos := h.block_pos
  obtain ⟨col', hcol', hcol_lt, hlen⟩ := h.counters k
  rw [hcol] at hcol'
  cases hcol'
  have hmem : i ∈ f.occupied (f.blockNum k) := by
    rw [Fph.mem_occupied hpos, hkeyAt]
    exact ⟨hdiv, hk⟩
  have hn : 0 < (f.occupied (f.blockNum k)).card := Finset.card_pos.mpr ⟨i, hmem⟩
  have hn_le := @Fph.card_occupied_le f (f.blockNum k)
  have hsum := sum_lt hpos h.length_length h.exact.length h.beyond
  have hn_lt : (f.occupied (f.blockNum k)).card < 2 ^ 32 := by omega
  have hdec := dec32_of_pos hn hn_lt
  -- the sum of the counters goes down by one with the counter of the block
  have hset := sum_set_add (y := (f.occupied (f.blockNum k)).card - 1) hlen
  have hptrs := h.exact.numPtrs
  refine ⟨h.put hi ?_ rfl (fun _ => ?_) ?_ fun c hc => ?_, hn, by omega, by omega, hn_lt⟩
  · rw [← hdiv, Fph.occupied_put_null hpos hslot rfl, hdiv, Finset.card_erase_of_mem hmem]
    exact hdec
  · show dec32 f.metrics.numPtrs = (f.metrics.length.set _ (dec32 _)).sum
    rw [hdec, dec32_of_pos (by omega) (by omega)]
    omega
  · show (List.set _ _ _).length = _
    rw [List.length_set, h.collisions_length]
  · refine h.collisions_lt_set hc ?_
    unfold dec32 wrap32
    split_ifs <;> omega

/-- A replacement leaves the slots occupied that were. -/
theorem replace_counts (h : FphCounts f) (hi : f.InBlock k i)
    (hmem : i ∈ f.occupied (f.blockNum k)) (hk : k ≠ 0) (v col : Nat) :
    FphCounts (f.put i ⟨k, v⟩ (f.replaceCounters k col)) := by
  obtain ⟨-, -, -, hle⟩ := h.block_eq k
  obtain ⟨-, -, -, hlen⟩ := h.counters k
  have hnew := h.occupied_put_inBlock hi hk v (f.replaceCounters k col)
  rw [Finset.insert_eq_of_mem hmem] at hnew
  refine h.put hi (congrArg Finset.card hnew).symm (set_eq_self hlen).symm
    (fun _ => h.exact.numPtrs) ?_ fun c hc => ?_
  · show (List.set _ _ _).length = _
    rw [List.length_set, h.collisions_length]
  · exact h.collisions_lt_set hc (Nat.mod_lt _ (by decide))

/-- A fill adds a slot to those of its block, and one to the counters. -/
theorem fill_counts (h : FphCounts f) (hi : f.InBlock k i)
    (hmem : i ∉ f.occupied (f.blockNum k)) (hk : k ≠ 0) (v : Nat) :
    FphCounts (f.put i ⟨k, v⟩ (f.fillCounters k (f.occupied (f.blockNum k)).card)) := by
  obtain ⟨-, -, hlt, -⟩ := h.block_eq k
  obtain ⟨-, -, -, hlen⟩ := h.counters k
  have hnew := h.occupied_put_inBlock hi hk v (f.fillCounters k (f.occupied (f.blockNum k)).card)
  have hcard : (insert i (f.occupied (f.blockNum k))).card =
      (f.occupied (f.blockNum k)).card + 1 := Finset.card_insert_of_notMem hmem
  -- a block has no more occupied slots than slots, so that its counter does not wrap
  have hinc : inc32 (f.occupied (f.blockNum k)).card =
      (f.occupied (f.blockNum k)).card + 1 := by
    have hle := @Fph.card_occupied_le (f.put i ⟨k, v⟩ f.metrics) (f.blockNum k)
    rw [h.occupied_put_inBlock hi hk v f.metrics, hcard] at hle
    have hle' : (f.occupied (f.blockNum k)).card + 1 ≤ f.blockSize := hle
    exact inc32_of_lt (by omega)
  refine h.put hi ?_ rfl (fun hsum => ?_) h.collisions_length h.collisions_lt
  · rw [hnew, hcard]
    exact hinc
  · have hset := sum_set_add (y := inc32 (f.occupied (f.blockNum k)).card) hlen
    have hptrs := h.exact.numPtrs
    show inc32 f.metrics.numPtrs = (f.metrics.length.set _ (inc32 _)).sum
    unfold Fph.fillCounters at hsum
    dsimp only at hsum
    rw [inc32_of_lt] <;> omega

/-- An `fph_set` keeps the counters exact. -/
theorem set_counts (h : FphCounts f) (k v : Nat) :
    ∃ f' r, fphSet a f k v = .ok (r, f') ∧ FphCounts f' := by
  by_cases hk : k = 0
  · exact ⟨f, 0, by rw [fphSet, if_pos hk], h⟩
  obtain ⟨-, -, hlt, hle⟩ := h.block_eq k
  have hpos := h.block_pos
  obtain ⟨col, hcol, -, hlen⟩ := h.counters k
  have hadd : a.add (f.start k) f.blockSize = f.start k + f.blockSize :=
    Arch.add_of_lt (lt_of_lt_of_le hlt a.size_ge)
  rcases fphScan_block (a := a) hle hlt (fun key => key == k || key == 0) with
    ⟨i, kv, hscan, hi, hkv, hstop, -⟩ | ⟨hscan, -⟩
  · have hdiv := h.div_of_inBlock hi
    have hkeyAt : f.keyAt i = kv.key := by
      unfold Fph.keyAt
      rw [List.getD_eq_getElem?_getD, hkv]
      rfl
    by_cases hkey : kv.key = k
    · -- a replacement: the slot was occupied already
      have hmem : i ∈ f.occupied (f.blockNum k) := by
        rw [Fph.mem_occupied hpos, hkeyAt, hkey]
        exact ⟨hdiv, hk⟩
      refine ⟨_, 1, ?_, h.replace_counts hi hmem hk v col⟩
      unfold Fph.blockNum at hcol
      simp [fphSet, hk, ← Fph.start_eq, hscan, hkv, hkey, fphCounter, hcol, Fph.put, Fph.blockNum,
        Fph.replaceCounters]
    · -- a new fill: one more slot of the block is occupied
      have hzero : kv.key = 0 := by simpa [hkey] using hstop
      have hmem : i ∉ f.occupied (f.blockNum k) := by
        rw [Fph.mem_occupied hpos, hkeyAt]
        exact fun hocc => hocc.2 hzero
      refine ⟨_, 1, ?_, h.fill_counts hi hmem hk v⟩
      unfold Fph.blockNum at hlen
      simp [fphSet, hk, ← Fph.start_eq, hscan, hkv, hkey, fphCounter, hlen, Fph.put, Fph.blockNum,
        Fph.fillCounters]
  · -- the block is full of other keys: only `numMisses` changes
    refine ⟨{ f with metrics.numMisses := inc32 f.metrics.numMisses }, 0, ?_, ?_⟩
    · simp [fphSet, hk, ← Fph.start_eq, hscan, hadd]
    · exact ⟨h.block_pos, h.aligned, h.hash_length, h.collisions_length, h.length_length,
        h.collisions_lt, ⟨h.exact.length, h.exact.numPtrs⟩, h.beyond⟩

/-- A call that meets the condition keeps the counters. -/
theorem step (h : FphCounts f) {o : FphCall} (hC : CountsClear f o) :
    ∃ f' r, fphCall a f o = .ok (f', r) ∧ CountersKept f o r f' ∧ FphCounts f' := by
  cases o with
  | set k v =>
    obtain ⟨f', r, hset, hf'⟩ := h.set_counts (a := a) k v
    exact ⟨f', (r, 0), by simp [fphCall, hset], ⟨hf'.exact, trivial⟩, hf'⟩
  | get k =>
    obtain ⟨r, hget⟩ := h.get_ok (a := a) k
    exact ⟨f, r, by simp [fphCall, hget], ⟨h.exact, trivial⟩, h⟩
  | clr k =>
    rcases h.clr_spec (a := a) k with ⟨i, col, hi, hkey, hcol, hclr⟩ | ⟨-, hclr⟩
    · obtain ⟨hk, hpos⟩ := hC ⟨i, hi, hkey⟩
      obtain ⟨col', hcol', hcol_lt, hlen⟩ := h.counters k
      rw [hcol] at hcol'
      cases hcol'
      rw [List.getD_eq_getElem?_getD, List.getD_eq_getElem?_getD, hlen, hcol,
        Option.getD_some, Option.getD_some] at hpos
      obtain ⟨hf', hn, hptrs, hptrs_lt, hn_lt⟩ := h.clr_counts hi hkey hk hcol
      refine ⟨_, (1, 0), by simp [fphCall, hclr], ⟨hf'.exact, ?_, fun b => ?_, fun b => ?_⟩, hf'⟩
      · show dec32 f.metrics.numPtrs ≤ _
        rw [dec32_of_pos hptrs hptrs_lt]
        exact Nat.sub_le _ _
      · exact getD_set_le hlen ((dec32_of_pos hn hn_lt).trans_le (Nat.sub_le _ _)) b
      · refine getD_set_le hcol ?_ b
        split_ifs with hmany hone
        · have hcol_pos := hpos hmany
          rw [dec32_of_pos hcol_pos hcol_lt]
          exact Nat.sub_le _ _
        · exact Nat.zero_le _
        · exact le_rfl
    · exact ⟨f, (0, 0), by simp [fphCall, hclr],
        ⟨h.exact, le_rfl, fun _ => le_rfl, fun _ => le_rfl⟩, h⟩

/-- An `fph_clr` of `NULL` lowers the counter of a block that has as many occupied slots as
before. -/
theorem clr_null_loses (h : FphCounts f) (hi : f.InBlock 0 i) (hkey : f.HasKey i 0) (col : Nat) :
    ¬CountersExact (f.put i ⟨0, 0⟩ (f.clrCounters 0 (f.occupied (f.blockNum 0)).card col)) := by
  intro hexact
  obtain ⟨hb, -, hlt, -⟩ := h.block_eq 0
  -- a slot without a key is none of the occupied ones, and clearing it leaves the block as it is
  have hn_le := @Fph.card_occupied_le f (f.blockNum 0)
  have hdiv := h.div_of_inBlock hi
  obtain ⟨hslot, hkeyAt⟩ := Fph.hasKey_iff.mp hkey
  have hmem : i ∉ f.occupied (f.blockNum 0) := by
    rw [Fph.mem_occupied h.block_pos, hkeyAt]
    exact fun hocc => hocc.2 rfl
  have hcount := hexact.length (f.blockNum 0) hb
  rw [← hdiv, Fph.occupied_put_null h.block_pos hslot rfl, hdiv,
    Finset.erase_eq_of_notMem hmem] at hcount
  have hcount' : (f.metrics.length.set (f.blockNum 0)
      (dec32 (f.occupied (f.blockNum 0)).card))[f.blockNum 0]? = _ := hcount
  rw [List.getElem?_set_self (by rw [h.length_length]; exact hb), Option.some.injEq] at hcount'
  unfold dec32 wrap32 at hcount'
  omega

/-- An `fph_clr` in a block with other keys takes `collisions` below zero when it is zero. -/
theorem clr_collisions_wraps (h : FphCounts f) (k : Nat)
    (hcol : f.metrics.collisions[f.blockNum k]? = some 0)
    (hmany : (f.occupied (f.blockNum k)).card > 1) :
    f.metrics.collisions.getD (f.blockNum k) 0 <
      (f.clrCounters k (f.occupied (f.blockNum k)).card 0).collisions.getD (f.blockNum k) 0 := by
  obtain ⟨hb, -, -, -⟩ := h.block_eq k
  show _ < (f.metrics.collisions.set (f.blockNum k)
    (if (f.occupied (f.blockNum k)).card > 1 then dec32 0 else _)).getD (f.blockNum k) 0
  rw [if_pos hmany, List.getD_eq_getElem?_getD, List.getD_eq_getElem?_getD, hcol,
    List.getElem?_set_self (by rw [h.collisions_length]; exact hb)]
  decide

/-- A call that does not meet it loses count. -/
theorem broken (h : FphCounts f) {o : FphCall} (hC : ¬CountsClear f o) {f' : Fph} {r : Nat × Nat}
    (hstep : fphCall a f o = .ok (f', r)) : ¬CountersKept f o r f' := by
  cases o with
  | set k v => exact absurd trivial hC
  | get k => exact absurd trivial hC
  | clr k =>
    unfold CountsClear at hC
    rw [Classical.not_imp] at hC
    obtain ⟨⟨l, hl, hlkey⟩, hbad⟩ := hC
    rcases h.clr_spec (a := a) k with ⟨i, col, hi, hkey, hcol, hclr⟩ | ⟨hnone, -⟩
    · simp only [fphCall, hclr, ok_bind] at hstep
      cases hstep
      rintro ⟨hexact, -, -, hcollisions⟩
      by_cases hk : k = 0
      · subst hk
        exact h.clr_null_loses hi hkey col hexact
      · obtain ⟨-, -, -, hlen⟩ := h.counters k
        rw [List.getD_eq_getElem?_getD, List.getD_eq_getElem?_getD, hlen, hcol] at hbad
        dsimp only [Option.getD_some] at hbad
        -- what is left of the condition: the key was not alone, and nothing was replaced
        obtain ⟨hmany, rfl⟩ : (f.occupied (f.blockNum k)).card > 1 ∧ col = 0 := by omega
        exact absurd (hcollisions (f.blockNum k)) (h.clr_collisions_wraps k hcol hmany).not_ge
    · exact absurd hlkey (hnone l hl)

end FphCounts

/-! ## Runs -/

/-- The results of a key function are indexes of whole blocks that a `uint32_t` can count through,
for every pointer. -/
def KeyFuncAligned (f : Fph) : Prop :=
  ∀ k, (∃ b < f.numBlocks, f.keyFunc k = b * f.blockSize) ∧ f.keyFunc k + f.blockSize < 2 ^ 32

section Init

variable {numBlocks blockSize : Nat} {keyFunc : Option (Nat → Nat)}

/-- The key function of a hash made without one is aligned. -/
theorem keyFuncAligned_fphHash (hblocks : 0 < numBlocks) (hslots : numBlocks * blockSize < 2 ^ 32) :
    KeyFuncAligned (fphInit a numBlocks blockSize none) := by
  intro k
  by_cases hk : k = 0
  · -- `NULL` and `1` differ in the bits that are shifted out
    rw [hk]
    exact keyFuncValid_fphHash hblocks hslots 1 one_ne_zero
  · exact keyFuncValid_fphHash hblocks hslots k hk

/-- A hash just made has no occupied slots, and counts none. -/
theorem fphCounts_init (hblock : 0 < blockSize) (hfit : SlotsFit a numBlocks blockSize)
    (hkey : KeyFuncAligned (fphInit a numBlocks blockSize keyFunc)) :
    FphCounts (fphInit a numBlocks blockSize keyFunc) := by
  have hempty : ∀ b, (fphInit a numBlocks blockSize keyFunc).occupied b = ∅ := by
    intro b
    refine Finset.filter_eq_empty_iff.mpr fun i _ hi => hi ?_
    unfold Fph.keyAt fphInit
    grind
  refine
    { block_pos := hblock
      aligned := fun k => ?_
      hash_length := fphInit_length hfit
      collisions_length := List.length_replicate
      length_length := List.length_replicate
      collisions_lt := fun c hc => ?_
      exact := ⟨fun b hb => ?_, ?_⟩
      beyond := fun b _ => hempty b }
  · obtain ⟨⟨b, hb, hstart⟩, hlt⟩ := hkey k
    refine ⟨b, hb, ?_, ?_⟩
    · rw [← hstart]
      exact Nat.mod_eq_of_lt (by omega)
    · rw [← hstart]
      exact hlt
  · rw [List.eq_of_mem_replicate hc]
    decide
  · rw [hempty, Finset.card_empty]
    exact List.getElem?_replicate_of_lt hb
  · show 0 = (List.replicate _ 0).sum
    simp

end Init

/-- The counters of a new hash are exact, and they are after every call of a run, without one that
wraps below zero, exactly when each `fph_clr` that finds its key is given one other than `NULL`
and does not take a `collisions` below zero. -/
theorem fph_counters_exact_iff (a : Arch) (numBlocks blockSize : Nat)
    (keyFunc : Option (Nat → Nat)) (hblock : 0 < blockSize) (hfit : SlotsFit a numBlocks blockSize)
    (hkey : KeyFuncAligned (fphInit a numBlocks blockSize keyFunc)) (os : List FphCall) :
    CountersExact (fphInit a numBlocks blockSize keyFunc) ∧
      (Machine.EachStep (fphCall a) CountersKept (fphInit a numBlocks blockSize keyFunc) os ↔
        Machine.Meets (fphCall a) CountsClear (fphInit a numBlocks blockSize keyFunc) os) := by
  have hinit := fphCounts_init hblock hfit hkey
  refine ⟨hinit.exact, Machine.eachStep_iff_meets (I := FphCounts) ?_ ?_ hinit⟩
  · exact fun f o h hC => h.step hC
  · exact fun f o f' r h hC hstep => h.broken hC hstep

/-- A hash of one block of two slots, over calls that count and one that does not. -/
theorem fph_counters_exact_iff_two :
    CountersExact (fphInit .arch64 1 2 none) ∧
      (Machine.EachStep (fphCall .arch64) CountersKept (fphInit .arch64 1 2 none)
          [.set 1 10, .set 1 11, .set 2 20, .clr 1, .clr 0] ↔
        Machine.Meets (fphCall .arch64) CountsClear (fphInit .arch64 1 2 none)
          [.set 1 10, .set 1 11, .set 2 20, .clr 1, .clr 0]) :=
  fph_counters_exact_iff .arch64 1 2 none (by decide) (by unfold SlotsFit; decide)
    (keyFuncAligned_fphHash (by decide) (by decide)) _

/-- An `fph_clr` of `NULL` on a new hash answers that it cleared a key, and its counters wrap. -/
theorem fph_clr_null_wraps :
    ∃ f, fphCall .arch64 (fphInit .arch64 1 1 none) (.clr 0) = .ok (f, (1, 0)) ∧
      f.metrics.numPtrs = 2 ^ 32 - 1 ∧ f.metrics.length = [2 ^ 32 - 1] ∧ ¬CountersExact f ∧
      ¬Machine.EachStep (fphCall .arch64) CountersKept (fphInit .arch64 1 1 none) [.clr 0] := by
  have hbad : ∀ f, fphCall .arch64 (fphInit .arch64 1 1 none) (.clr 0) = .ok (f, (1, 0)) →
      ¬CountersExact f := by
    intro f hclr hexact
    cases hclr
    exact absurd (hexact.length 0 (by decide)) (by decide)
  refine ⟨_, rfl, rfl, rfl, hbad _ rfl, ?_⟩
  rintro ⟨f, r, hstep, ⟨hexact, -⟩, -⟩
  cases hstep
  exact hbad _ rfl hexact

-- two keys of one block, of which none was ever replaced: `collisions` wraps when one is cleared
example : ∃ f answers, Machine.run (fphCall .arch64) (fphInit .arch64 1 2 none)
    [.set 1 10, .set 2 20, .clr 1] = .ok (f, answers) ∧ f.metrics.collisions = [2 ^ 32 - 1] :=
  ⟨_, _, rfl, rfl⟩

end DVP.Sosal
