import Mathlib.Data.BitVec
import Mathlib.Data.Fin.Tuple.Basic
import Mathlib.Data.Set.Lattice
import Mathlib.Order.CompletePartialOrder

/-!
# Regions of a wrapping memory

A memory has a value at every address, and addresses are numbers of a fixed width that wrap. A
region is a run of places from an address on. Whether an address is in a region is told by its
distance from the first one, so regions may wrap as well.

* `write_add`, `write_of_notMem`: what a write leaves inside and outside of its region;
* `write_append`: writes to adjoining regions are one write.
-/

namespace Region

variable {w : Nat} {V : Type} {m m' : BitVec w → V} {a b x : BitVec w} {i j k n : Nat}

/-- The `n` addresses from `a` on. -/
def span (a : BitVec w) (n : Nat) : Set (BitVec w) := {x | (x - a).toNat < n}

/-- The memory with the places from `a` on written. -/
def write (m : BitVec w → V) (a : BitVec w) (f : Fin n → V) : BitVec w → V :=
  fun x => if h : (x - a).toNat < n then f ⟨(x - a).toNat, h⟩ else m x

theorem mem_span : x ∈ span a n ↔ (x - a).toNat < n := Iff.rfl

/-- The distance of an address of a region that does not go around. -/
theorem toNat_add_sub (hi : i < n) (hn : n ≤ 2 ^ w) : (a + BitVec.ofNat w i - a).toNat = i := by
  have hsub : a + BitVec.ofNat w i - a = BitVec.ofNat w i := by
    rw [BitVec.add_comm, BitVec.add_sub_cancel]
  rw [hsub, BitVec.toNat_ofNat, Nat.mod_eq_of_lt (hi.trans_le hn)]

theorem add_mem_span (hi : i < n) (hn : n ≤ 2 ^ w) : a + BitVec.ofNat w i ∈ span a n := by
  rwa [mem_span, toNat_add_sub hi hn]

theorem add_toNat_sub : a + BitVec.ofNat w (x - a).toNat = x := by
  rw [BitVec.ofNat_toNat, BitVec.setWidth_eq, BitVec.add_comm, BitVec.sub_add_cancel]

theorem mem_span_iff_exists (hn : n ≤ 2 ^ w) : x ∈ span a n ↔ ∃ i < n, a + BitVec.ofNat w i = x := by
  constructor
  · intro hx
    exact ⟨(x - a).toNat, hx, add_toNat_sub⟩
  · rintro ⟨i, hi, rfl⟩
    exact add_mem_span hi hn

/-- The part of a region from a place on. -/
theorem span_add_subset (h : i + k ≤ n) (hn : n ≤ 2 ^ w) : span (a + BitVec.ofNat w i) k ⊆ span a n := by
  intro x hx
  rw [mem_span_iff_exists (by omega)] at hx
  obtain ⟨j, hj, rfl⟩ := hx
  rw [BitVec.add_assoc, ← BitVec.ofNat_add]
  exact add_mem_span (by omega) hn

/-! ## Writes -/

theorem write_of_mem {f : Fin n → V} (h : (x - a).toNat < n) :
    write m a f x = f ⟨(x - a).toNat, h⟩ := dif_pos h

theorem write_of_notMem {f : Fin n → V} (h : x ∉ span a n) : write m a f x = m x := dif_neg h

theorem write_add {f : Fin n → V} (hn : n ≤ 2 ^ w) (i : Fin n) :
    write m a f (a + BitVec.ofNat w i) = f i := by
  have hi := toNat_add_sub (a := a) i.isLt hn
  rw [write_of_mem (hi.trans_lt i.isLt)]
  exact congrArg f (Fin.ext hi)

/-- Writes to adjoining regions are one write. -/
theorem write_append {f : Fin n → V} {g : Fin k → V} (h : n + k ≤ 2 ^ w) :
    write (write m a f) (a + BitVec.ofNat w n) g = write m a (Fin.append f g) := by
  funext x
  obtain ⟨i, hi, rfl⟩ : ∃ i < 2 ^ w, a + BitVec.ofNat w i = x := ⟨_, (x - a).isLt, add_toNat_sub⟩
  have hia : (a + BitVec.ofNat w i - a).toNat = i := toNat_add_sub hi le_rfl
  rcases lt_or_ge i n with hin | hni
  · -- the first region
    have hb : a + BitVec.ofNat w i ∉ span (a + BitVec.ofNat w n) k := by
      rw [mem_span_iff_exists (by omega)]
      rintro ⟨j, hj, hji⟩
      rw [BitVec.add_assoc, ← BitVec.ofNat_add] at hji
      have hsame : (a + BitVec.ofNat w (n + j) - a).toNat = i := by rw [hji, hia]
      rw [toNat_add_sub (by omega : n + j < 2 ^ w) le_rfl] at hsame
      omega
    rw [write_of_notMem hb, write_add (by omega) ⟨i, hin⟩, write_add h ⟨i, by omega⟩]
    exact (Fin.append_left f g ⟨i, hin⟩).symm
  rcases lt_or_ge i (n + k) with hik | hki
  · -- the second region
    obtain ⟨j, rfl⟩ := Nat.exists_eq_add_of_le hni
    have hj : j < k := by omega
    rw [write_add h ⟨n + j, hik⟩, BitVec.ofNat_add, ← BitVec.add_assoc,
      write_add (by omega) ⟨j, hj⟩]
    exact (Fin.append_right f g ⟨j, hj⟩).symm
  · have ha : a + BitVec.ofNat w i ∉ span a n := by rw [mem_span, hia]; omega
    have hab : a + BitVec.ofNat w i ∉ span a (n + k) := by rw [mem_span, hia]; omega
    have hb : a + BitVec.ofNat w i ∉ span (a + BitVec.ofNat w n) k := fun hb =>
      hab (span_add_subset le_rfl h hb)
    rw [write_of_notMem hb, write_of_notMem ha, write_of_notMem hab]

/-! ## Loops -/

/-- The rounds of a loop, which are counted from zero. -/
def loop {S : Type} (f : Nat → S → S) : Nat → S → S
  | 0, s => s
  | n + 1, s => f n (loop f n s)

end Region
