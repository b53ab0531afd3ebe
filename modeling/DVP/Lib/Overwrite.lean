import Mathlib.Data.List.Basic

/-!
# Reading and overwriting a range of a list

`xs.segment i n` is the range of `n` elements of `xs` from index `i` on, and `xs.overwrite i ys`
is `xs` with the elements from index `i` on replaced by those of `ys`. Both are pinned down by
`getElem?`, so that equalities between overlapping reads and writes are index arithmetic.
-/

namespace List

variable {α : Type}

/-- The `n` elements of `xs` from index `i` on. -/
def segment (xs : List α) (i n : Nat) : List α := (xs.drop i).take n

/-- `xs` with the elements from index `i` on replaced by `ys`. -/
def overwrite (xs : List α) (i : Nat) (ys : List α) : List α :=
  xs.take i ++ ys ++ xs.drop (i + ys.length)

theorem length_segment {xs : List α} {i n : Nat} (h : i + n ≤ xs.length) :
    (xs.segment i n).length = n := by
  simp only [segment, length_take, length_drop]
  omega

theorem getElem?_segment (xs : List α) (i n j : Nat) :
    (xs.segment i n)[j]? = if j < n then xs[i + j]? else none := by
  simp only [segment, getElem?_take, getElem?_drop]

/-- A range splits at every point inside it. -/
theorem segment_append_segment (xs : List α) (i m n : Nat) :
    xs.segment i m ++ xs.segment (i + m) n = xs.segment i (m + n) := by
  rw [segment, segment, segment, take_add, drop_drop]

theorem length_overwrite {xs ys : List α} {i : Nat} (h : i + ys.length ≤ xs.length) :
    (xs.overwrite i ys).length = xs.length := by
  simp only [overwrite, length_append, length_take, length_drop]
  omega

theorem getElem?_overwrite {xs ys : List α} {i : Nat} (h : i + ys.length ≤ xs.length) (j : Nat) :
    (xs.overwrite i ys)[j]? = if i ≤ j ∧ j < i + ys.length then ys[j - i]? else xs[j]? := by
  have hi : (xs.take i).length = i := by
    rw [length_take]
    omega
  rw [overwrite, append_assoc]
  rcases Nat.lt_or_ge j i with hj | hj
  · rw [getElem?_append_left (by omega), getElem?_take, if_pos hj, if_neg (by omega)]
  · rw [getElem?_append_right (by omega), hi]
    rcases Nat.lt_or_ge j (i + ys.length) with hj' | hj'
    · rw [getElem?_append_left (by omega), if_pos ⟨hj, hj'⟩]
    · rw [getElem?_append_right (by omega), getElem?_drop, if_neg (by omega)]
      congr 1
      omega

/-- A range disjoint from the written one is not changed. -/
theorem segment_overwrite_disjoint {xs ys : List α} {i k n : Nat} (h : i + ys.length ≤ xs.length)
    (hd : k + n ≤ i ∨ i + ys.length ≤ k) :
    (xs.overwrite i ys).segment k n = xs.segment k n := by
  refine ext_getElem? fun j => ?_
  rw [getElem?_segment, getElem?_segment, getElem?_overwrite h]
  split_ifs <;> first | rfl | omega

/-- Inside a range that contains the written one, writing and taking the range commute. -/
theorem segment_overwrite_inside {xs ys : List α} {i k n : Nat} (hki : k ≤ i)
    (hin : i + ys.length ≤ k + n) (hk : k + n ≤ xs.length) :
    (xs.overwrite i ys).segment k n = (xs.segment k n).overwrite (i - k) ys := by
  have hlen : (xs.segment k n).length = n := length_segment hk
  refine ext_getElem? fun j => ?_
  rw [getElem?_segment, getElem?_overwrite (by omega), getElem?_overwrite (by omega),
    getElem?_segment]
  by_cases hj : j < n
  · by_cases hwritten : i ≤ k + j ∧ k + j < i + ys.length
    · rw [if_pos hj, if_pos hwritten, if_pos (by omega), show k + j - i = j - (i - k) by omega]
    · rw [if_pos hj, if_neg hwritten, if_neg (by omega), if_pos hj]
  · rw [if_neg hj, if_neg (by omega), if_neg hj]

/-- Only what is not overwritten matters. -/
theorem overwrite_congr {xs ys zs : List α} {i : Nat} (hlen : xs.length = ys.length)
    (hi : i + zs.length ≤ xs.length)
    (hagree : ∀ j, j < i ∨ i + zs.length ≤ j → xs[j]? = ys[j]?) :
    xs.overwrite i zs = ys.overwrite i zs := by
  refine ext_getElem? fun j => ?_
  rw [getElem?_overwrite hi, getElem?_overwrite (hlen ▸ hi)]
  by_cases hwritten : i ≤ j ∧ j < i + zs.length
  · rw [if_pos hwritten, if_pos hwritten]
  · rw [if_neg hwritten, if_neg hwritten]
    exact hagree j (by omega)

/-- Copying a range of another list to the same place. -/
theorem getElem?_overwrite_segment {xs ys : List α} {i n : Nat} (hlen : xs.length = ys.length)
    (hi : i + n ≤ ys.length) (j : Nat) :
    (xs.overwrite i (ys.segment i n))[j]? = if i ≤ j ∧ j < i + n then ys[j]? else xs[j]? := by
  have hseg : (ys.segment i n).length = n := length_segment hi
  rw [getElem?_overwrite (by omega), hseg, getElem?_segment]
  by_cases hj : i ≤ j ∧ j < i + n
  · rw [if_pos hj, if_pos hj, if_pos (by omega), show i + (j - i) = j by omega]
  · rw [if_neg hj, if_neg hj]

/-- Overwriting with one range and then with the next is overwriting with both. -/
theorem overwrite_overwrite_append {xs ys zs : List α} {i : Nat}
    (hi : i + ys.length + zs.length ≤ xs.length) :
    (xs.overwrite i ys).overwrite (i + ys.length) zs = xs.overwrite i (ys ++ zs) := by
  have hlen : (xs.overwrite i ys).length = xs.length := length_overwrite (by omega)
  refine ext_getElem? fun j => ?_
  rw [getElem?_overwrite (by omega), getElem?_overwrite (by omega),
    getElem?_overwrite (by rw [length_append]; omega), length_append]
  by_cases hy : i ≤ j ∧ j < i + ys.length
  · rw [if_neg (by omega), if_pos hy, if_pos (by omega), getElem?_append_left (by omega)]
  · by_cases hz : i + ys.length ≤ j ∧ j < i + ys.length + zs.length
    · rw [if_pos hz, if_pos (by omega), getElem?_append_right (by omega),
        show j - (i + ys.length) = j - i - ys.length by omega]
    · rw [if_neg hz, if_neg hy, if_neg (by omega)]

@[simp]
theorem overwrite_nil (xs : List α) (i : Nat) : xs.overwrite i [] = xs := by
  simp [overwrite]

end List
