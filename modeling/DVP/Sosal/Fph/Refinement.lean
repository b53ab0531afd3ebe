import DVP.Lib.Run
import DVP.Sosal.Fph.Basic

/-!
# The fixed-pointer hash against a finite map

`FphHolds f m` says that the slots of the hash `f` hold the finite map `m`. The loop all three
calls run has one specification lemma (`fphScan_spec`), each call one on top of it, and

* `fph_refines_iff`: a hash answers as the map in all states of a run exactly when no `fph_set`
  of the run finds an empty slot of the block before the slot that holds its key, because
  `fph_set` takes the first of the two and leaves the other as it was.
-/

namespace DVP.Sosal

variable {a : Arch} {f : Fph}

/-- The first slot of the block of a key, as the `uint32_t` the calls compute. -/
def Fph.start (f : Fph) (k : Nat) : Nat := wrap32 (f.keyFunc k)

theorem Fph.start_eq (f : Fph) (k : Nat) : f.start k = wrap32 (f.keyFunc k) := rfl

/-- The slot `i` belongs to the block of the key `k`. -/
def Fph.InBlock (f : Fph) (k i : Nat) : Prop := f.start k ≤ i ∧ i < f.start k + f.blockSize

/-- The key in the slot `i`, `NULL` when the slot is empty. -/
def Fph.HasKey (f : Fph) (i k : Nat) : Prop := ∃ v, f.hash[i]? = some ⟨k, v⟩

theorem Fph.HasKey.lt_length {i k : Nat} (h : f.HasKey i k) : i < f.hash.length := by
  obtain ⟨v, hv⟩ := h
  exact (List.getElem?_eq_some_iff.mp hv).1

/-- No slot holds two keys. -/
theorem Fph.HasKey.eq {i k l : Nat} (h : f.HasKey i k) (h' : f.HasKey i l) : k = l := by
  obtain ⟨v, hv⟩ := h
  obtain ⟨w, hw⟩ := h'
  rw [hv] at hw
  cases hw
  rfl

/-- The results of the key function are indexes of whole blocks, which a `uint32_t` can count
through. -/
structure FphSized (f : Fph) : Prop where
  block_pos : 0 < f.blockSize
  block_le : ∀ k ≠ 0, f.start k + f.blockSize ≤ f.hash.length
  block_lt : ∀ k ≠ 0, f.start k + f.blockSize < 2 ^ 32
  collisions_length : f.metrics.collisions.length = f.numBlocks
  length_length : f.metrics.length.length = f.numBlocks
  block_num : ∀ k ≠ 0, f.start k / f.blockSize < f.numBlocks

/-! ## The loop over a block -/

theorem inc32_of_lt {n : Nat} (h : n + 1 < 2 ^ 32) : inc32 n = n + 1 := Nat.mod_eq_of_lt h

/-- The loop stops at the first slot it is to stop at, or at the bound when there is none. -/
theorem fphScanFrom_spec {hash : List FphKv} (stop : Nat → Bool) {bound : Nat}
    (hbound : bound ≤ hash.length) (hlt : bound < 2 ^ 32) {fuel i : Nat} (hi : i ≤ bound)
    (hfuel : bound - i < fuel) :
    (∃ j kv, fphScanFrom hash stop bound fuel i = .ok (true, j) ∧ i ≤ j ∧ j < bound ∧
        hash[j]? = some kv ∧ stop kv.key = true ∧
        ∀ l kw, i ≤ l → l < j → hash[l]? = some kw → stop kw.key = false) ∨
      (fphScanFrom hash stop bound fuel i = .ok (false, bound) ∧
        ∀ l kw, i ≤ l → l < bound → hash[l]? = some kw → stop kw.key = false) := by
  induction fuel generalizing i with
  | zero => omega
  | succ fuel ih =>
    by_cases hlast : i < bound
    · have hget : hash[i]? = some hash[i] := List.getElem?_eq_getElem (by omega)
      by_cases hstop : stop hash[i].key = true
      · left
        refine ⟨i, hash[i], ?_, le_rfl, hlast, hget, hstop, ?_⟩
        · simp [fphScanFrom, hlast, hget, hstop]
        · intro l kw hil hli _
          omega
      · have hstep : fphScanFrom hash stop bound (fuel + 1) i =
            fphScanFrom hash stop bound fuel (i + 1) := by
          simp [fphScanFrom, hlast, hget, hstop, inc32_of_lt (show i + 1 < 2 ^ 32 by omega)]
        -- the slots passed over are the slot `i` and those the rest of the loop passes over
        have hpass : ∀ l kw, i ≤ l → hash[l]? = some kw →
            (i + 1 ≤ l → stop kw.key = false) → stop kw.key = false := by
          intro l kw hil hkw hrest
          by_cases hl : l = i
          · rw [hl, hget] at hkw
            cases hkw
            simpa using hstop
          · exact hrest (by omega)
        rw [hstep]
        rcases ih (show i + 1 ≤ bound by omega) (by omega) with
          ⟨j, kv, hscan, hij, hj, hkv, hstopped, hbefore⟩ | ⟨hscan, hnone⟩
        · refine .inl ⟨j, kv, hscan, by omega, hj, hkv, hstopped, ?_⟩
          intro l kw hil hlj hkw
          exact hpass l kw hil hkw fun hl => hbefore l kw hl hlj hkw
        · refine .inr ⟨hscan, ?_⟩
          intro l kw hil hlb hkw
          exact hpass l kw hil hkw fun hl => hnone l kw hl hlb hkw
    · have hend : i = bound := by omega
      right
      refine ⟨by simp [fphScanFrom, hend], ?_⟩
      intro l kw hil hlb _
      omega

/-- The loop over a block that a `uint32_t` can count through. -/
theorem fphScan_block {k : Nat} (hle : f.start k + f.blockSize ≤ f.hash.length)
    (hlt : f.start k + f.blockSize < 2 ^ 32) (stop : Nat → Bool) :
    (∃ j kv, fphScan a f (f.start k) stop = .ok (true, j) ∧ f.InBlock k j ∧
        f.hash[j]? = some kv ∧ stop kv.key = true ∧
        ∀ l kw, f.InBlock k l → l < j → f.hash[l]? = some kw → stop kw.key = false) ∨
      (fphScan a f (f.start k) stop = .ok (false, f.start k + f.blockSize) ∧
        ∀ l kw, f.InBlock k l → f.hash[l]? = some kw → stop kw.key = false) := by
  have hadd : a.add (f.start k) f.blockSize = f.start k + f.blockSize :=
    Arch.add_of_lt (lt_of_lt_of_le hlt a.size_ge)
  unfold fphScan
  rw [hadd]
  have hstart : f.start k ≤ f.start k + f.blockSize := Nat.le_add_right _ _
  have hfuel : f.start k + f.blockSize - f.start k < 2 ^ 32 + 1 := by omega
  rcases fphScanFrom_spec stop hle hlt hstart hfuel with
    ⟨j, kv, hscan, hij, hj, hkv, hstop, hbefore⟩ | ⟨hscan, hnone⟩
  · exact .inl ⟨j, kv, hscan, ⟨hij, hj⟩, hkv, hstop, fun l kw hl hlj => hbefore l kw hl.1 hlj⟩
  · exact .inr ⟨hscan, fun l kw hl => hnone l kw hl.1 hl.2⟩

/-- The loop over the block of a key. -/
theorem fphScan_spec (hf : FphSized f) {k : Nat} (hk : k ≠ 0) (stop : Nat → Bool) :
    (∃ j kv, fphScan a f (f.start k) stop = .ok (true, j) ∧ f.InBlock k j ∧
        f.hash[j]? = some kv ∧ stop kv.key = true ∧
        ∀ l kw, f.InBlock k l → l < j → f.hash[l]? = some kw → stop kw.key = false) ∨
      (fphScan a f (f.start k) stop = .ok (false, f.start k + f.blockSize) ∧
        ∀ l kw, f.InBlock k l → f.hash[l]? = some kw → stop kw.key = false) :=
  fphScan_block (hf.block_le k hk) (hf.block_lt k hk) stop

/-- A `uint32_t` counter of the block of a key can be read. -/
theorem fphCounter_block {xs : List Nat} (hf : FphSized f) (hxs : xs.length = f.numBlocks)
    {k : Nat} (hk : k ≠ 0) : ∃ x, fphCounter xs (f.start k / f.blockSize) = .ok x := by
  have hlt := hf.block_num k hk
  refine ⟨xs[f.start k / f.blockSize], ?_⟩
  simp [fphCounter, List.getElem?_eq_getElem (show f.start k / f.blockSize < xs.length by omega)]

/-! ## What each call does -/

/-- `fph_get` finds the first slot of the block that holds the key. -/
theorem fphGet_spec (hf : FphSized f) {k : Nat} (hk : k ≠ 0) :
    (∃ i v, fphGet a f k = .ok (1, v) ∧ f.InBlock k i ∧ f.hash[i]? = some ⟨k, v⟩) ∨
      (fphGet a f k = .ok (0, 0) ∧ ∀ i, f.InBlock k i → ¬f.HasKey i k) := by
  rcases fphScan_spec (a := a) hf hk (· == k) with
    ⟨j, kv, hscan, hj, hkv, hstop, -⟩ | ⟨hscan, hnone⟩
  · left
    have hkey : kv.key = k := by simpa using hstop
    refine ⟨j, kv.value, ?_, hj, by rw [hkv, ← hkey]⟩
    simp [fphGet, ← Fph.start_eq, hscan, hkv]
  · right
    refine ⟨?_, ?_⟩
    · simp [fphGet, ← Fph.start_eq, hscan]
    · intro i hi ⟨v, hv⟩
      simpa using hnone i _ hi hv

/-- The bookkeeping of `fph_clr` counts the block of the key. -/
theorem fphClrMetrics_spec (hf : FphSized f) {k : Nat} (hk : k ≠ 0) :
    ∃ mt, fphClrMetrics f (f.start k / f.blockSize) = .ok mt ∧
      mt.collisions.length = f.numBlocks ∧ mt.length.length = f.numBlocks := by
  obtain ⟨len, hlen⟩ := fphCounter_block hf hf.length_length hk
  obtain ⟨col, hcol⟩ := fphCounter_block hf hf.collisions_length hk
  refine ⟨_, by rw [fphClrMetrics, hlen, hcol]; rfl, ?_, ?_⟩
  · simp [hf.collisions_length]
  · simp [hf.length_length]

/-- `fph_clr` empties the first slot of the block that holds the key. -/
theorem fphClr_spec (hf : FphSized f) {k : Nat} (hk : k ≠ 0) :
    (∃ i v mt, fphClr a f k = .ok (1, { f with hash := f.hash.set i ⟨0, 0⟩, metrics := mt }) ∧
        f.InBlock k i ∧ f.hash[i]? = some ⟨k, v⟩ ∧
        mt.collisions.length = f.numBlocks ∧ mt.length.length = f.numBlocks) ∨
      (fphClr a f k = .ok (0, f) ∧ ∀ i, f.InBlock k i → ¬f.HasKey i k) := by
  rcases fphScan_spec (a := a) hf hk (· == k) with
    ⟨j, kv, hscan, hj, hkv, hstop, -⟩ | ⟨hscan, hnone⟩
  · left
    have hkey : kv.key = k := by simpa using hstop
    obtain ⟨mt, hmt, hcol, hlen⟩ := fphClrMetrics_spec hf hk
    refine ⟨j, kv.value, mt, ?_, hj, by rw [hkv, ← hkey], hcol, hlen⟩
    simp [fphClr, ← Fph.start_eq, hscan, hmt]
  · right
    refine ⟨?_, ?_⟩
    · simp [fphClr, ← Fph.start_eq, hscan]
    · intro i hi ⟨v, hv⟩
      simpa using hnone i _ hi hv

/-- `fph_set` takes the first slot of the block that holds the key or is empty. -/
theorem fphSet_spec (hf : FphSized f) {k : Nat} (hk : k ≠ 0) (v : Nat) :
    (∃ i mt, fphSet a f k v = .ok (1, { f with hash := f.hash.set i ⟨k, v⟩, metrics := mt }) ∧
        f.InBlock k i ∧ (f.HasKey i k ∨ f.HasKey i 0) ∧
        (∀ l, f.InBlock k l → l < i → ¬f.HasKey l k ∧ ¬f.HasKey l 0) ∧
        mt.collisions.length = f.numBlocks ∧ mt.length.length = f.numBlocks) ∨
      (fphSet a f k v =
          .ok (0, { f with metrics.numMisses := inc32 f.metrics.numMisses }) ∧
        ∀ l, f.InBlock k l → ¬f.HasKey l k ∧ ¬f.HasKey l 0) := by
  -- a slot the loop does not stop at holds another key
  have hother : ∀ l, f.InBlock k l →
      (∀ kw, f.hash[l]? = some kw → (kw.key == k || kw.key == 0) = false) →
      ¬f.HasKey l k ∧ ¬f.HasKey l 0 := by
    intro l hl hpass
    have hlen : l < f.hash.length := lt_of_lt_of_le hl.2 (hf.block_le k hk)
    have hkey := hpass _ (List.getElem?_eq_getElem hlen)
    simp only [Bool.or_eq_false_iff, beq_eq_false_iff_ne] at hkey
    have hslot : f.HasKey l f.hash[l].key := ⟨_, List.getElem?_eq_getElem hlen⟩
    exact ⟨fun h => hkey.1 (hslot.eq h), fun h => hkey.2 (hslot.eq h)⟩
  have hadd : a.add (f.start k) f.blockSize = f.start k + f.blockSize :=
    Arch.add_of_lt (lt_of_lt_of_le (hf.block_lt k hk) a.size_ge)
  rcases fphScan_spec (a := a) hf hk (fun key => key == k || key == 0) with
    ⟨j, kv, hscan, hj, hkv, hstop, hbefore⟩ | ⟨hscan, hnone⟩
  · left
    have hbefore' : ∀ l, f.InBlock k l → l < j → ¬f.HasKey l k ∧ ¬f.HasKey l 0 :=
      fun l hl hlj => hother l hl fun kw hkw => hbefore l kw hl hlj hkw
    by_cases hkey : kv.key = k
    · obtain ⟨col, hcol⟩ := fphCounter_block hf hf.collisions_length hk
      refine ⟨j, { f.metrics with
          numReplacements := inc32 f.metrics.numReplacements
          collisions := f.metrics.collisions.set (f.start k / f.blockSize) (inc32 col) },
        ?_, hj, .inl ⟨kv.value, by rw [hkv, ← hkey]⟩, hbefore', ?_, ?_⟩
      · simp [fphSet, hk, ← Fph.start_eq, hscan, hkv, hkey, hcol]
      · simp [hf.collisions_length]
      · exact hf.length_length
    · have hzero : kv.key = 0 := by simpa [hkey] using hstop
      obtain ⟨len, hlen⟩ := fphCounter_block hf hf.length_length hk
      refine ⟨j, { f.metrics with
          length := f.metrics.length.set (f.start k / f.blockSize) (inc32 len)
          numPtrs := inc32 f.metrics.numPtrs },
        ?_, hj, .inr ⟨kv.value, by rw [hkv, ← hzero]⟩, hbefore', ?_, ?_⟩
      · simp [fphSet, hk, ← Fph.start_eq, hscan, hkv, hkey, hlen]
      · exact hf.collisions_length
      · simp [hf.length_length]
  · right
    refine ⟨?_, fun l hl => hother l hl fun kw hkw => hnone l kw hl hkw⟩
    simp [fphSet, hk, ← Fph.start_eq, hscan, hadd]

/-! ## Runs -/

/-- The keys a caller may use: pointers that are not `NULL`. -/
abbrev FphKey := { k : Nat // k ≠ 0 }

/-- The calls of a run. -/
inductive FphOp where
  | set (k : FphKey) (v : Nat)
  | clr (k : FphKey)
  | get (k : FphKey)

/-- A hash in use, and the map its calls have built: for each key the value of the last
successful `fph_set` that no `fph_clr` followed. -/
structure FphUse where
  fph : Fph
  map : FphKey → Option Nat

/-- One call. It answers what it returned, and the value `fph_get` stored. -/
def fphStep (a : Arch) (s : FphUse) : FphOp → Except Fault (FphUse × (Nat × Nat))
  | .set k v => do
    let (r, f) ← fphSet a s.fph k v
    return (⟨f, if r = 1 then Function.update s.map k (some v) else s.map⟩, (r, 0))
  | .clr k => do
    let (r, f) ← fphClr a s.fph k
    return (⟨f, Function.update s.map k none⟩, (r, 0))
  | .get k => do
    let r ← fphGet a s.fph k
    return (s, r)

/-- What `fph_get` is to return and to store. -/
def fphAnswer : Option Nat → Nat × Nat
  | some v => (1, v)
  | none => (0, 0)

/-- The hash is a finite map: every call returns, `fph_get` answers from the map, no key is in
two slots, and `fph_set` fails only for an absent key whose block is full. -/
structure FphMatches (a : Arch) (s : FphUse) : Prop where
  get : ∀ k : FphKey, fphGet a s.fph k = .ok (fphAnswer (s.map k))
  clr : ∀ k : FphKey, ∃ r, fphClr a s.fph k = .ok r
  set : ∀ (k : FphKey) (v : Nat), ∃ r, fphSet a s.fph k v = .ok r ∧
    (r.1 = 0 → s.map k = none ∧ ∀ i, s.fph.InBlock k i → ¬s.fph.HasKey i 0)
  unique : ∀ (k : FphKey) (i j : Nat), s.fph.HasKey i k → s.fph.HasKey j k → i = j

/-- An `fph_set` finds no empty slot of the block before the slot that holds its key. -/
def NoHoleBefore (s : FphUse) : FphOp → Prop
  | .set k _ => ∀ i j, s.fph.InBlock k i → s.fph.HasKey i 0 → s.fph.HasKey j k → j < i
  | _ => True

/-- The slots of the hash hold the map, each key in one slot of its own block. -/
structure FphHolds (s : FphUse) : Prop where
  sized : FphSized s.fph
  home : ∀ (k : FphKey) (i : Nat), s.fph.HasKey i k → s.fph.InBlock k i
  unique : ∀ (k : FphKey) (i j : Nat), s.fph.HasKey i k → s.fph.HasKey j k → i = j
  agrees : ∀ (k : FphKey) (v : Nat), s.map k = some v ↔
    ∃ i : Nat, s.fph.hash[i]? = some (FphKv.mk k v)

variable {s : FphUse}

/-- A key that no slot holds is not in the map. -/
theorem FphHolds.map_eq_none (h : FphHolds s) {k : FphKey} (hk : ∀ i, ¬s.fph.HasKey i k) :
    s.map k = none := by
  by_contra hsome
  obtain ⟨v, hv⟩ := Option.ne_none_iff_exists'.mp hsome
  obtain ⟨i, hi⟩ := (h.agrees k v).mp hv
  exact hk i ⟨v, hi⟩

/-- A key that no slot of its block holds, no slot holds. -/
theorem FphHolds.absent (h : FphHolds s) {k : FphKey}
    (hk : ∀ i, s.fph.InBlock k i → ¬s.fph.HasKey i k) (i : Nat) : ¬s.fph.HasKey i k := by
  intro hi
  exact hk i (h.home k i hi) hi

theorem FphHolds.get_eq (h : FphHolds s) (k : FphKey) :
    fphGet a s.fph k = .ok (fphAnswer (s.map k)) := by
  rcases fphGet_spec (a := a) h.sized k.property with ⟨i, v, hget, -, hi⟩ | ⟨hget, hnone⟩
  · rw [hget, (h.agrees k v).mpr ⟨i, hi⟩, fphAnswer]
  · rw [hget, h.map_eq_none (h.absent hnone), fphAnswer]

/-- A hash that holds a map is one. -/
theorem FphHolds.matches (h : FphHolds s) : FphMatches a s where
  get := h.get_eq
  clr k := by
    rcases fphClr_spec (a := a) h.sized k.property with ⟨i, v, mt, hclr, -⟩ | ⟨hclr, -⟩
    · exact ⟨_, hclr⟩
    · exact ⟨_, hclr⟩
  set k v := by
    rcases fphSet_spec (a := a) h.sized k.property v with ⟨i, mt, hset, -⟩ | ⟨hset, hfull⟩
    · refine ⟨_, hset, ?_⟩
      intro hfail
      cases hfail
    · refine ⟨_, hset, ?_⟩
      intro _
      exact ⟨h.map_eq_none (h.absent fun i hi => (hfull i hi).1), fun i hi => (hfull i hi).2⟩
  unique := h.unique

/-- The sizes of a hash do not change when a slot and the counters do. -/
theorem FphSized.put (hf : FphSized f) {i : Nat} {kv : FphKv} {mt : FphMetrics}
    (hcol : mt.collisions.length = f.numBlocks) (hlen : mt.length.length = f.numBlocks) :
    FphSized { f with hash := f.hash.set i kv, metrics := mt } where
  block_pos := hf.block_pos
  block_le k hk := by
    rw [List.length_set]
    exact hf.block_le k hk
  block_lt := hf.block_lt
  collisions_length := hcol
  length_length := hlen
  block_num := hf.block_num

theorem Fph.hasKey_put {i l k : Nat} {kv : FphKv} {mt : FphMetrics} (hi : i < f.hash.length) :
    Fph.HasKey { f with hash := f.hash.set i kv, metrics := mt } l k ↔
      if i = l then kv.key = k else f.HasKey l k := by
  unfold Fph.HasKey
  by_cases hil : i = l
  · subst hil
    simp only [List.getElem?_set_self hi, Option.some.injEq, if_true]
    constructor
    · rintro ⟨v, rfl⟩
      rfl
    · rintro rfl
      exact ⟨kv.value, rfl⟩
  · simp [List.getElem?_set_ne hil, hil]

/-- Storing a value in a slot that is empty or holds the key, and is the only one that may hold
it, updates the map. -/
theorem FphHolds.put (h : FphHolds s) {k : FphKey} {v i : Nat} {mt : FphMetrics}
    (hi : s.fph.InBlock k i) (hslot : s.fph.HasKey i k ∨ s.fph.HasKey i 0)
    (honly : ∀ l, s.fph.HasKey l k → l = i)
    (hcol : mt.collisions.length = s.fph.numBlocks)
    (hlen : mt.length.length = s.fph.numBlocks) :
    FphHolds ⟨{ s.fph with hash := s.fph.hash.set i ⟨k, v⟩, metrics := mt },
      Function.update s.map k (some v)⟩ := by
  have hlt : i < s.fph.hash.length := by
    rcases hslot with hslot | hslot <;> exact hslot.lt_length
  -- the slot belongs to no other key
  have hother : ∀ l : FphKey, l ≠ k → ¬s.fph.HasKey i l := by
    intro l hlk hl
    rcases hslot with hslot | hslot
    · exact hlk (Subtype.ext (hl.eq hslot))
    · exact l.property (hl.eq hslot)
  refine ⟨h.sized.put hcol hlen, ?_, ?_, ?_⟩
  · intro l j hj
    rw [Fph.hasKey_put hlt] at hj
    split_ifs at hj with hij
    · rw [← hij, ← show k.val = l.val from hj]
      exact hi
    · exact h.home l j hj
  · intro l j₁ j₂ h₁ h₂
    rw [Fph.hasKey_put hlt] at h₁ h₂
    split_ifs at h₁ h₂ with hj₁ hj₂ hj₂
    · rw [← hj₁, ← hj₂]
    · rw [← show k.val = l.val from h₁] at h₂
      exact absurd (honly j₂ h₂).symm hj₂
    · rw [← show k.val = l.val from h₂] at h₁
      exact absurd (honly j₁ h₁).symm hj₁
    · exact h.unique l j₁ j₂ h₁ h₂
  · intro l w
    dsimp only
    by_cases hlk : l = k
    · subst hlk
      rw [Function.update_self, Option.some.injEq]
      constructor
      · rintro rfl
        exact ⟨i, List.getElem?_set_self hlt⟩
      · rintro ⟨j, hj⟩
        by_cases hij : i = j
        · rw [← hij, List.getElem?_set_self hlt] at hj
          cases hj
          rfl
        · rw [List.getElem?_set_ne hij] at hj
          exact absurd (honly j ⟨w, hj⟩).symm hij
    · rw [Function.update_of_ne hlk, h.agrees l w]
      apply exists_congr
      intro j
      by_cases hij : i = j
      · subst hij
        rw [List.getElem?_set_self hlt]
        constructor
        · intro hw
          exact absurd ⟨w, hw⟩ (hother l hlk)
        · intro hw
          have hkeys := congrArg FphKv.key (Option.some.inj hw)
          exact absurd (Subtype.ext hkeys.symm) hlk
      · rw [List.getElem?_set_ne hij]

/-- Emptying the slot of a key removes the key from the map. -/
theorem FphHolds.remove (h : FphHolds s) {k : FphKey} {i : Nat} {mt : FphMetrics}
    (hi : s.fph.HasKey i k) (hcol : mt.collisions.length = s.fph.numBlocks)
    (hlen : mt.length.length = s.fph.numBlocks) :
    FphHolds ⟨{ s.fph with hash := s.fph.hash.set i ⟨0, 0⟩, metrics := mt },
      Function.update s.map k none⟩ := by
  have hlt := hi.lt_length
  -- a key in a slot of the new hash is in that slot of the old one, and not the removed key
  have hkept : ∀ (l : FphKey) (j : Nat),
      Fph.HasKey { s.fph with hash := s.fph.hash.set i ⟨0, 0⟩, metrics := mt } j l →
        s.fph.HasKey j l ∧ l ≠ k := by
    intro l j hj
    rw [Fph.hasKey_put hlt] at hj
    split_ifs at hj with hij
    · exact absurd hj.symm l.property
    · refine ⟨hj, ?_⟩
      rintro rfl
      exact hij (h.unique l i j hi hj)
  refine ⟨h.sized.put hcol hlen, ?_, ?_, ?_⟩
  · intro l j hj
    exact h.home l j (hkept l j hj).1
  · intro l j₁ j₂ h₁ h₂
    exact h.unique l j₁ j₂ (hkept l j₁ h₁).1 (hkept l j₂ h₂).1
  · intro l w
    dsimp only
    by_cases hlk : l = k
    · subst hlk
      rw [Function.update_self]
      constructor
      · intro hw
        cases hw
      · rintro ⟨j, hj⟩
        exact absurd rfl (hkept l j ⟨w, hj⟩).2
    · rw [Function.update_of_ne hlk, h.agrees l w]
      apply exists_congr
      intro j
      by_cases hij : i = j
      · subst hij
        rw [List.getElem?_set_self hlt]
        constructor
        · intro hw
          exact absurd (Subtype.ext (Fph.HasKey.eq ⟨w, hw⟩ hi)) hlk
        · intro hw
          have hkeys := congrArg FphKv.key (Option.some.inj hw)
          exact absurd hkeys.symm l.property
      · rw [List.getElem?_set_ne hij]

/-- A miss only counts. -/
theorem FphHolds.miss (h : FphHolds s) (n : Nat) :
    FphHolds ⟨{ s.fph with metrics.numMisses := n }, s.map⟩ where
  sized := ⟨h.sized.block_pos, h.sized.block_le, h.sized.block_lt, h.sized.collisions_length,
    h.sized.length_length, h.sized.block_num⟩
  home := h.home
  unique := h.unique
  agrees := h.agrees

/-- A call of a hash that holds its map leaves it so, when no hole comes before the key. -/
theorem FphHolds.step (h : FphHolds s) {o : FphOp} (hC : NoHoleBefore s o) {s' : FphUse}
    {r : Nat × Nat} (hstep : fphStep a s o = .ok (s', r)) : FphHolds s' := by
  cases o with
  | set k v =>
    rcases fphSet_spec (a := a) h.sized k.property v with
      ⟨i, mt, hset, hi, hslot, hbefore, hcol, hlen⟩ | ⟨hset, -⟩
    · simp only [fphStep, hset, ok_bind, if_true] at hstep
      cases hstep
      refine h.put hi hslot ?_ hcol hlen
      intro l hl
      have hnotBefore : ¬l < i := fun hli => (hbefore l (h.home k l hl) hli).1 hl
      rcases hslot with hslot | hslot
      · exact h.unique k l i hl hslot
      · exact absurd (hC i l hi hslot hl) hnotBefore
    · simp only [fphStep, hset, ok_bind, zero_ne_one, if_false] at hstep
      cases hstep
      exact h.miss _
  | clr k =>
    rcases fphClr_spec (a := a) h.sized k.property with
      ⟨i, v, mt, hclr, -, hi, hcol, hlen⟩ | ⟨hclr, hnone⟩
    · simp only [fphStep, hclr, ok_bind] at hstep
      cases hstep
      exact h.remove ⟨v, hi⟩ hcol hlen
    · simp only [fphStep, hclr, ok_bind] at hstep
      cases hstep
      have hmap : Function.update s.map k none = s.map := by
        rw [← h.map_eq_none (h.absent hnone), Function.update_eq_self]
      rw [hmap]
      exact h
  | get k =>
    simp only [fphStep, h.get_eq k, ok_bind] at hstep
    cases hstep
    exact h

/-- An `fph_set` that finds a hole before its key leaves the key in two slots. -/
theorem FphHolds.broken (h : FphHolds s) {o : FphOp} (hC : ¬NoHoleBefore s o) :
    ∃ s' r, fphStep a s o = .ok (s', r) ∧ ¬FphMatches a s' := by
  cases o with
  | set k v =>
    simp only [NoHoleBefore, not_forall] at hC
    obtain ⟨i, j, hi, hhole, hj, hij⟩ := hC
    have hjblock := h.home k j hj
    have hne : i ≠ j := by
      rintro rfl
      exact k.property (hj.eq hhole)
    rcases fphSet_spec (a := a) h.sized k.property v with
      ⟨l, mt, hset, hl, hslot, hbefore, -⟩ | ⟨-, hnone⟩
    · have hli : l ≤ i := by
        by_contra hlt
        exact (hbefore i hi (by omega)).2 hhole
      refine ⟨_, _, by simp only [fphStep, hset, ok_bind]; rfl, ?_⟩
      intro hbad
      have hlen : l < s.fph.hash.length := by
        rcases hslot with hslot | hslot <;> exact hslot.lt_length
      have hlj : l = j := by
        apply hbad.unique k l j
        · rw [Fph.hasKey_put hlen, if_pos rfl]
        · rw [Fph.hasKey_put hlen]
          split_ifs
          · rfl
          · exact hj
      omega
    · exact absurd hhole (hnone i hi).2
  | clr k => exact absurd trivial hC
  | get k => exact absurd trivial hC

/-- The results of a key function are valid: indexes of whole blocks that a `uint32_t` can count
through. -/
def KeyFuncValid (f : Fph) : Prop :=
  ∀ k ≠ 0, (∃ b < f.numBlocks, f.keyFunc k = b * f.blockSize) ∧
    f.keyFunc k + f.blockSize < 2 ^ 32

section Init

variable {numBlocks blockSize : Nat} {keyFunc : Option (Nat → Nat)}

/-- The allocation of the slots does not overflow. -/
def SlotsFit (a : Arch) (numBlocks blockSize : Nat) : Prop :=
  numBlocks * blockSize * (2 * a.ptrSize) < a.size

theorem Arch.ptrSize_pos : 0 < a.ptrSize := by cases a <;> decide

theorem fphInit_length (hfit : SlotsFit a numBlocks blockSize) :
    (fphInit a numBlocks blockSize keyFunc).hash.length = numBlocks * blockSize := by
  have hpos : 0 < 2 * a.ptrSize := Nat.mul_pos two_pos Arch.ptrSize_pos
  have hnum : numBlocks * blockSize < a.size :=
    lt_of_le_of_lt (Nat.le_mul_of_pos_right _ hpos) hfit
  unfold fphInit
  rw [List.length_replicate, Arch.mul_of_lt hnum, Arch.mul_of_lt hfit, Nat.mul_div_cancel _ hpos]

/-- The key function of a hash made without one is valid. -/
theorem keyFuncValid_fphHash (hblocks : 0 < numBlocks) (hslots : numBlocks * blockSize < 2 ^ 32) :
    KeyFuncValid (fphInit a numBlocks blockSize none) := by
  intro k _
  have hlt : (k >>> 8) % numBlocks < numBlocks := Nat.mod_lt _ hblocks
  have hle : (k >>> 8) % numBlocks * blockSize + blockSize ≤ numBlocks * blockSize := by
    rw [← Nat.succ_mul]
    exact Nat.mul_le_mul_right _ hlt
  have hsize := a.size_ge
  have hkey : (fphInit a numBlocks blockSize none).keyFunc k =
      (k >>> 8) % numBlocks * blockSize := by
    rw [show (fphInit a numBlocks blockSize none).keyFunc = fphHash a numBlocks blockSize from rfl,
      fphHash, Arch.mul_of_lt (by omega)]
  exact ⟨⟨_, hlt, hkey⟩, by rw [hkey]; exact lt_of_le_of_lt hle hslots⟩

/-- A hash just made holds the empty map. -/
theorem fphHolds_init (hblock : 0 < blockSize) (hfit : SlotsFit a numBlocks blockSize)
    (hkey : KeyFuncValid (fphInit a numBlocks blockSize keyFunc)) :
    FphHolds ⟨fphInit a numBlocks blockSize keyFunc, fun _ => none⟩ := by
  have hlength : (fphInit a numBlocks blockSize keyFunc).hash.length = numBlocks * blockSize :=
    fphInit_length hfit
  -- every slot has the key `0`
  have hempty : ∀ (k : FphKey) (i : Nat), ¬(fphInit a numBlocks blockSize keyFunc).HasKey i k := by
    rintro k i ⟨v, hv⟩
    have hslot := List.eq_of_mem_replicate (List.mem_of_getElem? hv)
    exact k.property (congrArg FphKv.key hslot)
  have hstart : ∀ k ≠ 0, (fphInit a numBlocks blockSize keyFunc).start k =
      (fphInit a numBlocks blockSize keyFunc).keyFunc k := by
    intro k hk
    have hlt := (hkey k hk).2
    exact Nat.mod_eq_of_lt (by omega)
  refine ⟨⟨hblock, ?_, ?_, ?_, ?_, ?_⟩, ?_, ?_, ?_⟩
  · intro k hk
    obtain ⟨b, hb, hbk⟩ := (hkey k hk).1
    rw [hstart k hk, hlength, hbk, ← Nat.succ_mul]
    exact Nat.mul_le_mul_right _ hb
  · intro k hk
    rw [hstart k hk]
    exact (hkey k hk).2
  · exact List.length_replicate
  · exact List.length_replicate
  · intro k hk
    obtain ⟨b, hb, hbk⟩ := (hkey k hk).1
    rw [hstart k hk, hbk, Nat.mul_div_cancel _ (show 0 < Fph.blockSize _ from hblock)]
    exact hb
  · intro k i hi
    exact absurd hi (hempty k i)
  · intro k i j hi
    exact absurd hi (hempty k i)
  · intro k v
    constructor
    · intro hv
      cases hv
    · rintro ⟨i, hi⟩
      exact absurd ⟨v, hi⟩ (hempty k i)

end Init

/-- A hash refines a finite map over exactly the runs in which no `fph_set` finds an empty slot
of the block before the slot that holds its key. -/
theorem fph_refines_iff (a : Arch) (numBlocks blockSize : Nat) (keyFunc : Option (Nat → Nat))
    (hblock : 0 < blockSize) (hfit : SlotsFit a numBlocks blockSize)
    (hkey : KeyFuncValid (fphInit a numBlocks blockSize keyFunc)) (os : List FphOp) :
    Machine.Always (fphStep a) (FphMatches a)
        ⟨fphInit a numBlocks blockSize keyFunc, fun _ => none⟩ os ↔
      Machine.Meets (fphStep a) NoHoleBefore
        ⟨fphInit a numBlocks blockSize keyFunc, fun _ => none⟩ os := by
  apply Machine.always_iff_meets (I := FphHolds)
  · intro s h
    exact h.matches
  · intro s o s' r h hC hstep
    exact h.step hC hstep
  · intro s o h hC
    exact h.broken hC
  · exact fphHolds_init hblock hfit hkey

/-- A hash of one block of two slots: a key is cleared and set again, and the other one is set to
a new value. -/
theorem fph_refines_iff_two :
    Machine.Always (fphStep .arch64) (FphMatches .arch64)
        ⟨fphInit .arch64 1 2 none, fun _ => none⟩
        [.set ⟨1, by decide⟩ 10, .set ⟨2, by decide⟩ 20, .clr ⟨1, by decide⟩,
          .set ⟨1, by decide⟩ 11, .set ⟨2, by decide⟩ 21] ↔
      Machine.Meets (fphStep .arch64) NoHoleBefore
        ⟨fphInit .arch64 1 2 none, fun _ => none⟩
        [.set ⟨1, by decide⟩ 10, .set ⟨2, by decide⟩ 20, .clr ⟨1, by decide⟩,
          .set ⟨1, by decide⟩ 11, .set ⟨2, by decide⟩ 21] :=
  fph_refines_iff .arch64 1 2 none (by decide) (by unfold SlotsFit; decide)
    (keyFuncValid_fphHash (by decide) (by decide)) _

/-- A key is set again when the slot before its own is empty, and cleared: the hash still answers
with its first value. -/
theorem fph_set_resurrects_value :
    ∃ s answers, Machine.run (fphStep .arch64) ⟨fphInit .arch64 1 2 none, fun _ => none⟩
        [.set ⟨1, by decide⟩ 10, .set ⟨2, by decide⟩ 20, .clr ⟨1, by decide⟩,
          .set ⟨2, by decide⟩ 21, .clr ⟨2, by decide⟩, .get ⟨2, by decide⟩] = .ok (s, answers) ∧
      answers = [(1, 0), (1, 0), (1, 0), (1, 0), (1, 0), (1, 20)] ∧
      s.map ⟨2, by decide⟩ = none ∧ ¬FphMatches .arch64 s := by
  refine ⟨_, _, rfl, rfl, rfl, ?_⟩
  intro h
  have hget := h.get ⟨2, by decide⟩
  cases hget

end DVP.Sosal
