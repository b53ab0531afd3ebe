import Mathlib.Data.List.Basic
import Mathlib.Tactic.Linarith

/-!
# Bytes in memory

A memory is a function from addresses to bytes. `peek` reads a run of bytes and `poke` writes one;
`toLE` and `ofLE` are the bytes of a number, the least significant one first, and `unitBytes` and
`unitOf` those of a number of a fixed width.
-/

namespace Bytes

variable {α : Type} {m m' : Nat → α} {o k n i : Nat} {bs cs : List α}

/-- The `n` bytes at `o`. -/
def peek (m : Nat → α) (o n : Nat) : List α := (List.range n).map fun i => m (o + i)

/-- The memory with bytes written at `o`. -/
def poke (m : Nat → α) (o : Nat) (bs : List α) : Nat → α :=
  fun i => if o ≤ i then bs[i - o]?.getD (m i) else m i

@[simp]
theorem length_peek : (peek m o n).length = n := by
  rw [peek, List.length_map, List.length_range]

theorem peek_add : peek m o (k + n) = peek m o k ++ peek m (o + k) n := by
  simp only [peek, List.range_add, List.map_append, List.map_map]
  congr 1
  apply List.map_congr_left
  intro i _
  simp only [Function.comp_apply, Nat.add_assoc]

/-- Reading depends on the bytes read only. -/
theorem peek_congr (h : ∀ i, o ≤ i → i < o + n → m' i = m i) : peek m' o n = peek m o n := by
  apply List.map_congr_left
  intro i hi
  exact h _ (Nat.le_add_right _ _) (Nat.add_lt_add_left (List.mem_range.mp hi) _)

theorem apply_eq_of_peek_eq (h : peek m' o n = peek m o n) (hlow : o ≤ i) (hi : i < o + n) :
    m' i = m i := by
  have hat := List.map_inj_left.mp h (i - o) (List.mem_range.mpr (Nat.sub_lt_left_of_lt_add hlow hi))
  rwa [Nat.add_sub_of_le hlow] at hat

/-- A run of bytes is read as a whole if its parts are. -/
theorem peek_eq_append :
    peek m o (bs ++ cs).length = bs ++ cs ↔
      peek m o bs.length = bs ∧ peek m (o + bs.length) cs.length = cs := by
  rw [List.length_append, peek_add]
  constructor
  · intro h
    exact List.append_inj h length_peek
  · rintro ⟨hbs, hcs⟩
    rw [hbs, hcs]

/-! ## Writing -/

@[simp]
theorem poke_nil : poke m o [] = m := by
  funext i
  simp [poke]

theorem poke_of_lt (h : i < o) : poke m o bs i = m i := if_neg (Nat.not_le.mpr h)

theorem poke_of_ge (h : o + bs.length ≤ i) : poke m o bs i = m i := by
  have hnone : bs[i - o]? = none := List.getElem?_eq_none (by omega)
  rw [poke, hnone, Option.getD_none, ite_self]

theorem poke_add (h : i < bs.length) : poke m o bs (o + i) = bs[i] := by
  rw [poke, if_pos (Nat.le_add_right _ _), Nat.add_sub_cancel_left, List.getElem?_eq_getElem h]
  rfl

/-- Writing two runs of bytes one after the other writes them together. -/
theorem poke_append : poke m o (bs ++ cs) = poke (poke m o bs) (o + bs.length) cs := by
  funext i
  by_cases hlt : i < o
  · rw [poke_of_lt hlt, poke_of_lt (by omega), poke_of_lt hlt]
  · obtain ⟨j, rfl⟩ := Nat.exists_eq_add_of_le (Nat.not_lt.mp hlt)
    by_cases hbs : j < bs.length
    · rw [poke_of_lt (i := o + j) (o := o + bs.length) (by omega), poke_add hbs,
        poke_add (by rw [List.length_append]; omega), List.getElem_append_left hbs]
    · simp only [poke]
      rw [if_pos (by omega), if_pos (by omega), if_pos (by omega),
        List.getElem?_append_right (by omega), List.getElem?_eq_none (l := bs) (by omega),
        Option.getD_none, show o + j - o - bs.length = o + j - (o + bs.length) by omega]

/-- Bytes just written are read. -/
@[simp]
theorem peek_poke_self : peek (poke m o bs) o bs.length = bs := by
  apply List.ext_getElem length_peek
  intro i _ hi
  simp only [peek, List.getElem_map, List.getElem_range]
  exact poke_add hi

/-- Bytes apart from those written are read as before. -/
theorem peek_poke_of_apart (h : k + n ≤ o ∨ o + bs.length ≤ k) :
    peek (poke m o bs) k n = peek m k n := by
  apply peek_congr
  intro i hki hin
  rcases h with h | h
  · exact poke_of_lt (by omega)
  · exact poke_of_ge (by omega)

/-! ## Numbers -/

/-- The `k` lowest bytes of a number. -/
def toLE : Nat → Nat → List UInt8
  | 0, _ => []
  | k + 1, n => UInt8.ofNat n :: toLE k (n / 256)

/-- The number of some bytes. -/
def ofLE : List UInt8 → Nat
  | [] => 0
  | b :: bs => b.toNat + 256 * ofLE bs

@[simp]
theorem length_toLE : (toLE k n).length = k := by
  induction k generalizing n with
  | zero => rfl
  | succ k ih => rw [toLE, List.length_cons, ih]

/-- The bytes of a number give it back, up to what they can hold. -/
theorem ofLE_toLE : ofLE (toLE k n) = n % 256 ^ k := by
  induction k generalizing n with
  | zero => rw [Nat.pow_zero, Nat.mod_one]; rfl
  | succ k ih =>
    have hbyte : (UInt8.ofNat n).toNat = n % 256 := by simp
    rw [toLE, ofLE, ih, hbyte, Nat.pow_succ, Nat.mul_comm (256 ^ k), Nat.mod_mul]

/-- Some bytes are those of their number. -/
theorem toLE_ofLE (bs : List UInt8) : toLE bs.length (ofLE bs) = bs := by
  induction bs with
  | nil => rfl
  | cons b bs ih =>
    have hlow : UInt8.ofNat (b.toNat + 256 * ofLE bs) = b := by
      apply UInt8.toNat_inj.mp
      have hb := b.toNat_lt
      rw [UInt8.toNat_ofNat', Nat.add_mul_mod_self_left, Nat.mod_eq_of_lt hb]
    have hhigh : (b.toNat + 256 * ofLE bs) / 256 = ofLE bs := by
      have hb : b.toNat < 256 := b.toNat_lt
      omega
    rw [List.length_cons, ofLE, toLE, hlow, hhigh, ih]

theorem ofLE_lt (bs : List UInt8) : ofLE bs < 256 ^ bs.length := by
  have hmod : ofLE (toLE bs.length (ofLE bs)) = ofLE bs % 256 ^ bs.length := ofLE_toLE
  rw [toLE_ofLE] at hmod
  rw [hmod]
  exact Nat.mod_lt _ (Nat.pow_pos (by decide))

variable {w : Nat}

/-- The bytes of a number of `w` bits. -/
def unitBytes (x : BitVec w) : List UInt8 := toLE (w / 8) x.toNat

/-- The number of `w` bits of some bytes. -/
def unitOf (w : Nat) (bs : List UInt8) : BitVec w := BitVec.ofNat w (ofLE bs)

@[simp]
theorem length_unitBytes {x : BitVec w} : (unitBytes x).length = w / 8 := length_toLE

theorem unitOf_unitBytes (hw : 8 ∣ w) (x : BitVec w) : unitOf w (unitBytes x) = x := by
  have hpow : 256 ^ (w / 8) = 2 ^ w := by
    rw [show 256 = 2 ^ 8 from rfl, ← Nat.pow_mul, Nat.mul_div_cancel' hw]
  rw [unitOf, unitBytes, ofLE_toLE, hpow, Nat.mod_eq_of_lt x.isLt, BitVec.ofNat_toNat,
    BitVec.setWidth_eq]

theorem unitBytes_unitOf {bs : List UInt8} (hw : 8 ∣ w) (hbs : bs.length = w / 8) :
    unitBytes (unitOf w bs) = bs := by
  have hlt : ofLE bs < 2 ^ w := by
    have hpow : 256 ^ bs.length = 2 ^ w := by
      rw [show 256 = 2 ^ 8 from rfl, ← Nat.pow_mul, hbs, Nat.mul_div_cancel' hw]
    rw [← hpow]
    exact ofLE_lt bs
  rw [unitBytes, unitOf, BitVec.toNat_ofNat, Nat.mod_eq_of_lt hlt, ← hbs, toLE_ofLE]

end Bytes
