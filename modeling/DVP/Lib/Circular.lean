import Mathlib.Data.List.Rotate
import DVP.Lib.Overwrite

/-!
# The circular window of a list

`circular mem f n` reads `n` elements of `mem` from index `f` on, wrapping at the end: the
contents of a ring whose oldest element sits at `f`. Adding at the end of the window and
removing at its front are the two moves of a ring buffer:

* `circular_overwrite`: overwriting the cells right behind the window appends to it;
* `circular_eq_segment_append`: a window that does not reach the end of the list starts with
  a plain range of it, and the rest is the window from behind that range.
-/

namespace List

variable {α : Type}

/-- The `n` elements of `mem` from index `f` on, wrapping at the end. -/
def circular (mem : List α) (f n : Nat) : List α := (mem.rotate f).take n

@[simp]
theorem circular_zero (mem : List α) (f : Nat) : mem.circular f 0 = [] := by
  simp [circular]

theorem length_circular {mem : List α} {f n : Nat} (h : n ≤ mem.length) :
    (mem.circular f n).length = n := by
  rw [circular, length_take, length_rotate, Nat.min_eq_left h]

theorem getElem?_circular {mem : List α} {f n : Nat} (h : n ≤ mem.length) (j : Nat) :
    (mem.circular f n)[j]? = if j < n then mem[(f + j) % mem.length]? else none := by
  rw [circular, getElem?_take]
  split_ifs with hj
  · rw [getElem?_rotate (by omega), Nat.add_comm]
  · rfl

/-- The index of a cell of the window is off the cells right behind the window. -/
private theorem circular_index_off {t f u m j p : Nat} (hp : p = (f + u) % t) (hpm : p + m ≤ t)
    (hum : u + m ≤ t) (hj : j < u) :
    ¬(p ≤ (f + j) % t ∧ (f + j) % t < p + m) := by
  rintro ⟨h1, h2⟩
  have ht : 0 < t := by omega
  have hsum : f + u = (f + j) + (u - j) := by omega
  have hlt := Nat.mod_lt (f + j) ht
  rw [hsum, Nat.add_mod, Nat.mod_eq_of_lt (show u - j < t by omega)] at hp
  -- the window is shorter than the list, so at most one wrap lies between the two indices
  rcases Nat.lt_or_ge ((f + j) % t + (u - j)) t with hw | hw
  · rw [Nat.mod_eq_of_lt hw] at hp
    omega
  · rw [Nat.mod_eq_sub_mod hw, Nat.mod_eq_of_lt (by omega)] at hp
    omega

/-- Overwriting the cells right behind a window appends to the window. -/
theorem circular_overwrite {mem ys : List α} {f u p : Nat} (hp : p = (f + u) % mem.length)
    (hpy : p + ys.length ≤ mem.length) (huy : u + ys.length ≤ mem.length) :
    (mem.overwrite p ys).circular f (u + ys.length) = mem.circular f u ++ ys := by
  refine ext_getElem? fun j => ?_
  rw [getElem?_circular (by rw [length_overwrite hpy]; exact huy), length_overwrite hpy,
    getElem?_overwrite hpy]
  rcases Nat.lt_or_ge j u with hj | hj
  · rw [if_pos (by omega), if_neg (circular_index_off hp hpy huy hj),
      getElem?_append_left (by rw [length_circular (by omega)]; exact hj),
      getElem?_circular (by omega), if_pos hj]
  · rw [getElem?_append_right (by rw [length_circular (by omega)]; exact hj),
      length_circular (by omega)]
    rcases Nat.lt_or_ge j (u + ys.length) with hj' | hj'
    · have hidx : (f + j) % mem.length = p + (j - u) := by
        rw [show f + j = (f + u) + (j - u) by omega, Nat.add_mod, ← hp,
          Nat.mod_eq_of_lt (show j - u < mem.length by omega), Nat.mod_eq_of_lt (by omega)]
      rw [if_pos hj', hidx, if_pos (by omega), Nat.add_sub_cancel_left]
    · rw [if_neg (by omega), getElem?_eq_none (by omega)]

/-- A window whose first `m` cells do not wrap starts with a plain range. -/
theorem circular_eq_segment_append {mem : List α} {f u m : Nat} (hfm : f + m ≤ mem.length)
    (hmu : m ≤ u) (hu : u ≤ mem.length) :
    mem.circular f u = mem.segment f m ++ mem.circular ((f + m) % mem.length) (u - m) := by
  refine ext_getElem? fun j => ?_
  rw [getElem?_circular hu]
  rcases Nat.lt_or_ge j m with hj | hj
  · rw [if_pos (by omega), getElem?_append_left (by rw [length_segment hfm]; exact hj),
      getElem?_segment, if_pos hj, Nat.mod_eq_of_lt (by omega)]
  · rw [getElem?_append_right (by rw [length_segment hfm]; exact hj), length_segment hfm,
      getElem?_circular (by omega)]
    rcases Nat.lt_or_ge j u with hj' | hj'
    · rw [if_pos hj', if_pos (by omega), Nat.mod_add_mod]
      congr 2
      omega
    · rw [if_neg (by omega), if_neg (by omega)]

end List
