import DVP.Sosal.Fph.Refinement

/-!
# A hash that is never cleared

Without `fph_clr` the keys of a block fill it from its start: no empty slot of a block comes before
a slot with a key (`FphPacked`). Then `fph_set` always finds the slot of a key that is there, and
the hash holds the map of its last values (`fphSet_packed`).
-/

namespace DVP.Sosal

variable {a : Arch} {f : Fph} {map : FphKey → Option Nat}

/-- The slots of the block of a key. -/
def Fph.block (f : Fph) (k : Nat) : List FphKv := (f.hash.drop (f.start k)).take f.blockSize

/-- The block of a key has a slot for it. -/
def Fph.HasRoom (f : Fph) (k : Nat) : Prop := ∃ kv ∈ f.block k, kv.key = k ∨ kv.key = 0

instance (f : Fph) (k : Nat) : Decidable (f.HasRoom k) :=
  inferInstanceAs (Decidable (∃ kv ∈ f.block k, kv.key = k ∨ kv.key = 0))

theorem Fph.hasRoom_iff {k : Nat} :
    f.HasRoom k ↔ ∃ i, f.InBlock k i ∧ (f.HasKey i k ∨ f.HasKey i 0) := by
  constructor
  · rintro ⟨kv, hkv, hkey⟩
    obtain ⟨j, hj⟩ := List.mem_iff_getElem?.mp hkv
    rw [Fph.block, List.getElem?_take] at hj
    split_ifs at hj with hlt
    rw [List.getElem?_drop] at hj
    refine ⟨f.start k + j, ⟨Nat.le_add_right _ _, by omega⟩, ?_⟩
    rcases hkey with hkey | hkey
    · exact .inl ⟨kv.value, by rw [hj, ← hkey]⟩
    · exact .inr ⟨kv.value, by rw [hj, ← hkey]⟩
  · rintro ⟨i, ⟨hle, hlt⟩, hkey⟩
    have hmem : ∀ kv, f.hash[i]? = some kv → kv ∈ f.block k := by
      intro kv hkv
      apply List.mem_iff_getElem?.mpr
      refine ⟨i - f.start k, ?_⟩
      rw [Fph.block, List.getElem?_take, if_pos (by omega), List.getElem?_drop,
        Nat.add_sub_cancel' hle, hkv]
    rcases hkey with ⟨v, hv⟩ | ⟨v, hv⟩
    · exact ⟨_, hmem _ hv, .inl rfl⟩
    · exact ⟨_, hmem _ hv, .inr rfl⟩

/-- No empty slot of a block comes before a slot with a key. -/
def FphPacked (f : Fph) : Prop :=
  ∀ (k : FphKey) (i j : Nat), f.InBlock k i → f.HasKey i 0 → f.HasKey j k → j < i

/-- A hash just made is empty. -/
theorem fphInit_hasKey {numBlocks blockSize i k : Nat} {keyFunc : Option (Nat → Nat)}
    (h : (fphInit a numBlocks blockSize keyFunc).HasKey i k) : k = 0 := by
  obtain ⟨v, hv⟩ := h
  exact congrArg FphKv.key (List.eq_of_mem_replicate (List.mem_of_getElem? hv))

theorem fphPacked_init {numBlocks blockSize : Nat} {keyFunc : Option (Nat → Nat)} :
    FphPacked (fphInit a numBlocks blockSize keyFunc) := by
  intro k i j _ _ hj
  exact absurd (fphInit_hasKey hj) k.property

/-- Filling the first slot of a block that holds the key or is empty keeps the hash packed. -/
theorem FphPacked.put (h : FphPacked f) {k v i : Nat} (hk : k ≠ 0) {mt : FphMetrics}
    (hslot : f.HasKey i k ∨ f.HasKey i 0)
    (hbefore : ∀ l, f.InBlock k l → l < i → ¬f.HasKey l k ∧ ¬f.HasKey l 0) :
    FphPacked { f with hash := f.hash.set i ⟨k, v⟩, metrics := mt } := by
  have hlt : i < f.hash.length := by
    rcases hslot with hslot | hslot <;> exact hslot.lt_length
  intro l e j he hempty hj
  rw [Fph.hasKey_put hlt] at hempty hj
  split_ifs at hempty with hie
  · exact absurd hempty hk
  · split_ifs at hj with hij
    · -- the slot filled is the first one of the block, and `e` is another empty one
      obtain rfl : k = l := hj
      have hle : ¬e < i := fun hlt => (hbefore e he hlt).2 hempty
      omega
    · exact h l e j he hempty hj

/-- The values of a hash that is never cleared. -/
structure FphRemembers (f : Fph) (map : FphKey → Option Nat) : Prop where
  holds : FphHolds ⟨f, map⟩
  packed : FphPacked f

namespace FphRemembers

theorem get_eq (h : FphRemembers f map) (k : FphKey) :
    fphGet a f k = .ok (fphAnswer (map k)) :=
  h.holds.get_eq k

/-- A key with a value is in a slot. -/
theorem hasKey (h : FphRemembers f map) {k : FphKey} {v : Nat} (hk : map k = some v) :
    ∃ i, f.HasKey i k := by
  obtain ⟨i, hi⟩ := (h.holds.agrees k v).mp hk
  exact ⟨i, v, hi⟩

/-- A key with a value has room. -/
theorem hasRoom (h : FphRemembers f map) {k : FphKey} {v : Nat} (hk : map k = some v) :
    f.HasRoom k := by
  obtain ⟨i, hi⟩ := h.hasKey hk
  exact Fph.hasRoom_iff.mpr ⟨i, h.holds.home k i hi, .inl hi⟩

/-- `fph_set` remembers the value, if the block of the key has room. -/
theorem set (h : FphRemembers f map) (k : FphKey) (v : Nat) :
    ∃ f', f'.hash.length = f.hash.length ∧
      ((f.HasRoom k ∧ fphSet a f k v = .ok (1, f') ∧
          FphRemembers f' (Function.update map k (some v))) ∨
        (¬f.HasRoom k ∧ fphSet a f k v = .ok (0, f') ∧ f'.hash = f.hash ∧
          FphRemembers f' map)) := by
  rcases fphSet_spec (a := a) h.holds.sized k.property v with
    ⟨i, mt, hset, hi, hslot, hbefore, hcol, hlen⟩ | ⟨hset, hnone⟩
  · refine ⟨{ f with hash := f.hash.set i ⟨k, v⟩, metrics := mt }, List.length_set,
      .inl ⟨?_, hset, ?_, ?_⟩⟩
    · exact Fph.hasRoom_iff.mpr ⟨i, hi, hslot⟩
    · refine h.holds.put hi hslot ?_ hcol hlen
      intro l hl
      rcases hslot with hslot | hslot
      · exact h.holds.unique k l i hl hslot
      · have hli := h.packed k i l hi hslot hl
        exact absurd hl (hbefore l (h.holds.home k l hl) hli).1
    · exact h.packed.put k.property hslot hbefore
  · refine ⟨{ f with metrics.numMisses := inc32 f.metrics.numMisses }, rfl,
      .inr ⟨?_, hset, rfl, h.holds.miss _, h.packed⟩⟩
    rw [Fph.hasRoom_iff]
    rintro ⟨i, hi, hkey | hkey⟩
    · exact (hnone i hi).1 hkey
    · exact (hnone i hi).2 hkey

/-- `fph_set` leaves a hash that remembers, whether the block has room or not. -/
theorem set_ok {f' : Fph} {k : FphKey} {v stored : Nat} (h : FphRemembers f map)
    (hset : fphSet a f k v = .ok (stored, f')) : ∃ map', FphRemembers f' map' := by
  obtain ⟨f₁, -, ⟨-, hset', h'⟩ | ⟨-, hset', -, h'⟩⟩ := h.set (a := a) k v
  · rw [hset'] at hset
    cases hset
    exact ⟨_, h'⟩
  · rw [hset'] at hset
    cases hset
    exact ⟨_, h'⟩

end FphRemembers

end DVP.Sosal
