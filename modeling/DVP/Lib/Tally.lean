import Mathlib.Algebra.BigOperators.Group.List.Basic
import Mathlib.Data.List.Count
import Mathlib.Data.List.Induction
import Mathlib.Tactic.Linarith

/-!
# Tallies

How often the classes below `n` are met in a list, where a classifier puts an element in one class
or in none.

* `tally_append_of_some`, `tally_append_of_none`: one element more adds one to its own class only.
* `sum_tally`: the counts of all classes sum up to the number of elements that have a class.
-/

namespace List

variable {α : Type} {f : α → Option ℕ} {n i : ℕ} {x : α} {xs : List α}

/-- How many elements of the list are in each of the classes below `n`. -/
def tally (f : α → Option ℕ) (n : ℕ) (xs : List α) : List ℕ :=
  (range n).map fun i => xs.countP fun x => f x = some i

@[simp]
theorem length_tally : (tally f n xs).length = n := by
  simp [tally]

@[simp]
theorem tally_nil : tally f n [] = replicate n 0 := by
  simp [tally, map_const']

theorem getElem_tally (hi : i < (tally f n xs).length) :
    (tally f n xs)[i] = xs.countP fun x => f x = some i := by
  simp [tally]

/-- An element adds one to its class. -/
theorem tally_append_of_some (hx : f x = some i) :
    tally f n (xs ++ [x]) = (tally f n xs).modify i (· + 1) := by
  apply ext_getElem
  · simp
  · intro j hj hj'
    rw [getElem_tally, getElem_modify, getElem_tally, countP_append, countP_singleton, hx]
    grind

/-- An element without a class adds nothing. -/
theorem tally_append_of_none (hx : f x = none) : tally f n (xs ++ [x]) = tally f n xs := by
  simp [tally, hx]

/-- No count is above the length of the list. -/
theorem tally_le_length (hi : i < (tally f n xs).length) : (tally f n xs)[i] ≤ xs.length := by
  rw [getElem_tally]
  exact countP_le_length

theorem sum_modify_succ {counts : List ℕ} (hi : i < counts.length) :
    (counts.modify i (· + 1)).sum = counts.sum + 1 := by
  induction counts generalizing i with
  | nil => exact absurd hi (Nat.not_lt_zero i)
  | cons c counts ih =>
    cases i with
    | zero =>
      simp only [modify_zero_cons, sum_cons]
      omega
    | succ i =>
      simp only [modify_succ_cons, sum_cons, ih (Nat.lt_of_succ_lt_succ hi)]
      omega

/-- Counting in another type. -/
theorem map_modify_succ {β : Type} {g : ℕ → β} {s : β → β} {counts : List ℕ}
    (hg : ∀ c, g (c + 1) = s (g c)) :
    (counts.modify i (· + 1)).map g = (counts.map g).modify i s := by
  apply ext_getElem
  · simp
  · intro j hj hj'
    simp only [getElem_map, getElem_modify]
    split
    · exact hg _
    · rfl

/-- The classes together count the elements that have one. -/
theorem sum_tally (hf : ∀ x i, f x = some i → i < n) :
    (tally f n xs).sum = xs.countP fun x => (f x).isSome := by
  induction xs using reverseRecOn with
  | nil => simp
  | append_singleton xs x ih =>
    cases hx : f x with
    | none => simp [tally_append_of_none hx, ih, hx]
    | some i =>
      rw [tally_append_of_some hx, sum_modify_succ (by simpa using hf x i hx), ih]
      simp [hx]

end List
