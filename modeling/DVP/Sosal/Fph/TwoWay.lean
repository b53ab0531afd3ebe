import DVP.Lib.PartialEquiv
import DVP.Sosal.Fph.Packed

/-!
# Two hashes that map both ways

A caller that has to find pointers in both directions keeps two fixed-pointer hashes. `TwoWay.Holds`
says that they hold a partial equivalence of pointers, so that each one is the inverse of the other. A
pair that is new in both directions is added when both blocks have room (`TwoWay.Holds.install`), and a pair
is removed from both hashes (`TwoWay.Holds.remove`).
-/

namespace DVP.Sosal

/-- A hash for each direction. -/
structure TwoWay where
  forward : Fph
  backward : Fph

variable {a : Arch} {f : Fph} {map : FphKey → Option Nat} {k : FphKey} {v : Nat}

/-- A key that is not in the map meets no hole before its slot. -/
theorem FphHolds.noHoleBefore (h : FphHolds ⟨f, map⟩) (hk : map k = none) :
    NoHoleBefore ⟨f, map⟩ (.set k v) := by
  intro i j _ _ hj
  obtain ⟨w, hw⟩ := hj
  have hsome : map k = some w := (h.agrees k w).mpr ⟨j, hw⟩
  rw [hk] at hsome
  cases hsome

/-- `fph_set` adds a key that is not in the map, if its block has room. -/
theorem FphHolds.set_absent (h : FphHolds ⟨f, map⟩) (hk : map k = none) :
    (f.HasRoom k ∧ ∃ f', fphSet a f k v = .ok (1, f') ∧
        FphHolds ⟨f', Function.update map k (some v)⟩) ∨
      (¬f.HasRoom k ∧ ∃ f', fphSet a f k v = .ok (0, f') ∧ FphHolds ⟨f', map⟩) := by
  rcases fphSet_spec (a := a) h.sized k.property v with
    ⟨i, mt, hset, hi, hslot, -⟩ | ⟨hset, hnone⟩
  · refine .inl ⟨Fph.hasRoom_iff.mpr ⟨i, hi, hslot⟩, _, hset, ?_⟩
    refine h.step (a := a) (h.noHoleBefore (v := v) hk) (r := (1, 0)) ?_
    simp only [fphStep, hset, ok_bind, if_true]
    rfl
  · refine .inr ⟨?_, _, hset, h.miss _⟩
    rw [Fph.hasRoom_iff]
    rintro ⟨i, hi, hkey | hkey⟩
    · exact (hnone i hi).1 hkey
    · exact (hnone i hi).2 hkey

/-- `fph_clr` removes a key from the map. -/
theorem FphHolds.clr (h : FphHolds ⟨f, map⟩) (k : FphKey) :
    ∃ r f', fphClr a f k = .ok (r, f') ∧ FphHolds ⟨f', Function.update map k none⟩ := by
  obtain ⟨⟨r, f'⟩, hclr⟩ := h.matches.clr (a := a) k
  refine ⟨r, f', hclr, ?_⟩
  refine h.step (a := a) (o := .clr k) trivial (r := (r, 0)) ?_
  simp only [fphStep, hclr, ok_bind]
  rfl

section Pointers

variable {m : FphKey → Option FphKey} {x : FphKey}

theorem map_val_eq_none (hk : m k = none) : (m k).map Subtype.val = none := by
  rw [hk]
  rfl

/-- A map of pointers that changes at one key. -/
theorem map_val_update {y : Option FphKey} :
    (fun l => (Function.update m k y l).map Subtype.val) =
      Function.update (fun l => (m l).map Subtype.val) k (y.map Subtype.val) := by
  funext l
  by_cases hl : l = k
  · subst hl
    rw [Function.update_self, Function.update_self]
  · rw [Function.update_of_ne hl, Function.update_of_ne hl]

/-- `fph_get` finds what the map has. -/
theorem FphHolds.get_some (h : FphHolds ⟨f, fun l => (m l).map Subtype.val⟩) (hk : m k = some x) :
    fphGet a f k = .ok (1, x.val) := by
  rw [h.get_eq k]
  dsimp only
  rw [hk, Option.map_some, fphAnswer]

theorem FphHolds.get_none (h : FphHolds ⟨f, fun l => (m l).map Subtype.val⟩) (hk : m k = none) :
    fphGet a f k = .ok (0, 0) := by
  rw [h.get_eq k]
  dsimp only
  rw [hk, Option.map_none, fphAnswer]

/-- `fph_set` of a key that is not in a map of pointers, whether its block has room or not. -/
theorem FphHolds.set_pointer (h : FphHolds ⟨f, fun l => (m l).map Subtype.val⟩) (hk : m k = none) :
    ∃ r f', ∃ m' : FphKey → Option FphKey, fphSet a f k x = .ok (r, f') ∧
      FphHolds ⟨f', fun l => (m' l).map Subtype.val⟩ ∧
      (∀ l, m' l = m l ∨ (l = k ∧ m' l = some x)) ∧ (f.HasRoom k → m' k = some x) := by
  rcases h.set_absent (a := a) (v := x) (map_val_eq_none hk) with
    ⟨-, f', hset, hholds⟩ | ⟨hfull, f', hset, hholds⟩
  · refine ⟨1, f', Function.update m k (some x), hset, ?_, fun l => ?_, fun _ => Function.update_self ..⟩
    · rw [map_val_update]
      exact hholds
    · by_cases hl : l = k
      · subst hl
        exact .inr ⟨rfl, Function.update_self ..⟩
      · exact .inl (Function.update_of_ne hl ..)
  · exact ⟨0, f', m, hset, hholds, fun l => .inl rfl, fun hroom => absurd hroom hfull⟩

/-- `fph_clr` of a key of a map of pointers. -/
theorem FphHolds.clr_pointer (h : FphHolds ⟨f, fun l => (m l).map Subtype.val⟩) (k : FphKey) :
    ∃ r f', fphClr a f k = .ok (r, f') ∧
      FphHolds ⟨f', fun l => (Function.update m k none l).map Subtype.val⟩ := by
  obtain ⟨r, f', hclr, hholds⟩ := h.clr (a := a) k
  refine ⟨r, f', hclr, ?_⟩
  rw [map_val_update]
  exact hholds

/-- The pairs of the map are in the slots. -/
theorem FphHolds.mem_iff (h : FphHolds ⟨f, fun l => (m l).map Subtype.val⟩) :
    FphKv.mk k x ∈ f.hash ↔ m k = some x := by
  rw [List.mem_iff_getElem?, ← h.agrees k x]
  dsimp only
  rw [Option.map_eq_some_iff]
  exact ⟨fun ⟨y, hy, hyx⟩ => Subtype.ext hyx ▸ hy, fun hx => ⟨x, hx, rfl⟩⟩

/-- A slot with a key holds a pair of the map. -/
theorem FphHolds.slot (h : FphHolds ⟨f, fun l => (m l).map Subtype.val⟩) {kv : FphKv}
    (hkv : kv ∈ f.hash) (hkey : kv.key ≠ 0) : ∃ x, m ⟨kv.key, hkey⟩ = some x ∧ kv.value = x.val := by
  obtain ⟨i, hi⟩ := List.mem_iff_getElem?.mp hkv
  have hmap := (h.agrees ⟨kv.key, hkey⟩ kv.value).mpr ⟨i, hi⟩
  dsimp only at hmap
  obtain ⟨x, hx, hvalue⟩ := Option.map_eq_some_iff.mp hmap
  exact ⟨x, hx, hvalue.symm⟩

/-- A slot holds a key of the map. -/
theorem FphHolds.exists_key_iff (h : FphHolds ⟨f, fun l => (m l).map Subtype.val⟩) :
    (∃ kv ∈ f.hash, kv.key = k.val) ↔ ∃ x, m k = some x := by
  constructor
  · rintro ⟨kv, hkv, hkey⟩
    have hne : kv.key ≠ 0 := hkey ▸ k.property
    obtain ⟨x, hx, -⟩ := h.slot hkv hne
    have hk : (⟨kv.key, hne⟩ : FphKey) = k := Subtype.ext hkey
    exact ⟨x, hk ▸ hx⟩
  · rintro ⟨x, hx⟩
    exact ⟨⟨k, x⟩, h.mem_iff.mpr hx, rfl⟩

/-- A slot holds a value of the map. -/
theorem FphHolds.exists_value_iff (h : FphHolds ⟨f, fun l => (m l).map Subtype.val⟩) :
    (∃ kv ∈ f.hash, kv.key ≠ 0 ∧ kv.value = x.val) ↔ ∃ k, m k = some x := by
  constructor
  · rintro ⟨kv, hkv, hkey, hvalue⟩
    obtain ⟨y, hy, hyx⟩ := h.slot hkv hkey
    obtain rfl : x = y := Subtype.ext (hvalue.symm.trans hyx)
    exact ⟨_, hy⟩
  · rintro ⟨k, hk⟩
    exact ⟨⟨k, x⟩, h.mem_iff.mpr hk, k.property, rfl⟩

end Pointers

/-- `fph_get` finds what the map has. -/
theorem fphAnswer_pointer {m : Option FphKey} {x : FphKey} :
    fphAnswer (m.map Subtype.val) = (1, x.val) ↔ m = some x := by
  cases m with
  | none => exact iff_of_false (fun h => by cases h) (fun h => by cases h)
  | some y =>
    rw [Option.map_some, fphAnswer, Prod.mk.injEq, Option.some.injEq]
    exact (and_iff_right rfl).trans Subtype.ext_iff.symm

namespace TwoWay

variable {w : TwoWay} {e : FphKey ≃. FphKey} {x : FphKey}

/-- The hashes hold the pairs of `e`, each one in its direction. -/
structure Holds (w : TwoWay) (e : FphKey ≃. FphKey) : Prop where
  forward : FphHolds ⟨w.forward, fun k => (e k).map Subtype.val⟩
  backward : FphHolds ⟨w.backward, fun x => (e.symm x).map Subtype.val⟩

/-- Each of the hashes finds what the other one has. -/
def Inverse (a : Arch) (w : TwoWay) : Prop :=
  ∀ k x : FphKey, fphGet a w.forward k = .ok (1, x.val) ↔ fphGet a w.backward x = .ok (1, k.val)

/-- Hashes that hold maps which are inverse to each other. -/
theorem inverse_of_maps {m m' : FphKey → Option FphKey}
    (hforward : FphHolds ⟨w.forward, fun k => (m k).map Subtype.val⟩)
    (hbackward : FphHolds ⟨w.backward, fun x => (m' x).map Subtype.val⟩)
    (hiff : ∀ k x, m k = some x ↔ m' x = some k) : w.Inverse a := by
  intro k x
  rw [hforward.get_eq k, hbackward.get_eq x, Except.ok.injEq, Except.ok.injEq, fphAnswer_pointer,
    fphAnswer_pointer]
  exact hiff k x

theorem Holds.inverse (h : w.Holds e) : w.Inverse a :=
  inverse_of_maps h.forward h.backward fun k x => (e.eq_some_iff (a := k) (b := x)).symm

/-- A slot of the hashes holds the key of a pair. -/
def HoldsSource (w : TwoWay) (k : Nat) : Prop :=
  (∃ kv ∈ w.forward.hash, kv.key = k) ∨ ∃ kv ∈ w.backward.hash, kv.key ≠ 0 ∧ kv.value = k

/-- A slot of the hashes holds the address of a pair. -/
def HoldsTarget (w : TwoWay) (x : Nat) : Prop :=
  (∃ kv ∈ w.forward.hash, kv.key ≠ 0 ∧ kv.value = x) ∨ ∃ kv ∈ w.backward.hash, kv.key = x

instance (w : TwoWay) (k : Nat) : Decidable (w.HoldsSource k) :=
  inferInstanceAs (Decidable (_ ∨ _))

/-- Remember the pair of `key` and `addr`, first forward and then backward. It answers for each direction
whether that was done. -/
def install (a : Arch) (w : TwoWay) (key addr : Nat) : Except Fault (Bool × Bool × TwoWay) := do
  let (set, forward) ← fphSet a w.forward key addr
  if set ≠ 0 then
    let (set, backward) ← fphSet a w.backward addr key
    return (true, set != 0, ⟨forward, backward⟩)
  else return (false, false, ⟨forward, w.backward⟩)

/-- Both blocks of a pair have room. -/
def HasRoom (w : TwoWay) (key addr : Nat) : Prop :=
  w.forward.HasRoom key ∧ w.backward.HasRoom addr

instance (w : TwoWay) (key addr : Nat) : Decidable (w.HasRoom key addr) :=
  inferInstanceAs (Decidable (_ ∧ _))

theorem Holds.holdsSource_iff (h : w.Holds e) : w.HoldsSource k ↔ ∃ x, e k = some x := by
  rw [HoldsSource, h.forward.exists_key_iff, h.backward.exists_value_iff]
  refine or_iff_left_of_imp ?_
  rintro ⟨x, hx⟩
  exact ⟨x, e.eq_some_iff.mp hx⟩

theorem Holds.holdsTarget_iff (h : w.Holds e) : w.HoldsTarget x ↔ ∃ k, e k = some x := by
  rw [HoldsTarget, h.forward.exists_value_iff, h.backward.exists_key_iff]
  refine or_iff_left_of_imp ?_
  rintro ⟨k, hk⟩
  exact ⟨k, e.eq_some_iff.mp hk⟩

theorem Holds.get_forward (h : w.Holds e) (k : FphKey) :
    fphGet a w.forward k = .ok (fphAnswer ((e k).map Subtype.val)) :=
  h.forward.get_eq k

/-- A pair that is new in both directions is remembered, if both blocks have room. -/
theorem Holds.install (h : w.Holds e) (hk : e k = none) (hx : e.symm x = none)
    (hroom : w.HasRoom k x) :
    ∃ w', w.install a k x = .ok (true, true, w') ∧ w'.Holds (e.extend k x hk hx) := by
  obtain ⟨-, forward, hforward, hholds⟩ :=
    (h.forward.set_absent (a := a) (v := x) (map_val_eq_none hk)).resolve_right fun hno => hno.1 hroom.1
  obtain ⟨-, backward, hbackward, hholds'⟩ :=
    (h.backward.set_absent (a := a) (v := k) (map_val_eq_none hx)).resolve_right fun hno => hno.1 hroom.2
  refine ⟨⟨forward, backward⟩, ?_, ?_, ?_⟩
  · simp only [TwoWay.install, hforward, hbackward, ok_bind]
    rfl
  · rw [PEquiv.coe_extend, map_val_update]
    exact hholds
  · rw [PEquiv.coe_symm_extend, map_val_update]
    exact hholds'

/-- Without room the pair is not remembered in one of the directions. -/
theorem Holds.install_full (h : w.Holds e) (hk : e k = none) (hx : e.symm x = none)
    (hroom : ¬w.HasRoom k x) : ∃ there w', w.install a k x = .ok (there, false, w') := by
  rcases h.forward.set_absent (a := a) (v := x) (map_val_eq_none hk) with
    ⟨hforwardRoom, forward, hforward, -⟩ | ⟨-, forward, hforward, -⟩
  · obtain ⟨-, backward, hbackward, -⟩ :=
      (h.backward.set_absent (a := a) (v := k) (map_val_eq_none hx)).resolve_left fun hyes =>
        hroom ⟨hforwardRoom, hyes.1⟩
    exact ⟨true, ⟨forward, backward⟩, by
      simp only [TwoWay.install, hforward, hbackward, ok_bind]
      rfl⟩
  · exact ⟨false, ⟨forward, w.backward⟩, by
      simp only [TwoWay.install, hforward, ok_bind]
      rfl⟩

/-- A pair is removed from both hashes. -/
theorem Holds.remove (h : w.Holds e) (hk : e k = some x) :
    ∃ r r' forward backward, fphClr a w.forward k = .ok (r, forward) ∧
      fphClr a w.backward x = .ok (r', backward) ∧ Holds ⟨forward, backward⟩ (e.erase k) := by
  obtain ⟨r, forward, hforward, hholds⟩ := h.forward.clr (a := a) k
  obtain ⟨r', backward, hbackward, hholds'⟩ := h.backward.clr (a := a) x
  refine ⟨r, r', forward, backward, hforward, hbackward, ?_, ?_⟩
  · rw [PEquiv.coe_erase, map_val_update]
    exact hholds
  · rw [PEquiv.coe_symm_erase hk, map_val_update]
    exact hholds'

end TwoWay

end DVP.Sosal
