import Mathlib.Data.List.Basic

/-!
# Insertion into a sorted list by looking at two neighbours

`List.insertNear le x xs` walks down `xs` and puts `x` before an element it is strictly below, or
between two elements it fits between; in a list that is not sorted there may be no such place.
For a total preorder and a sorted list there is (`insertNear_sorted`). `List.insertInto` is the
insertion into a list that may be empty, and `List.around` finds an element again.
-/

namespace List

variable {α : Type} {le : α → α → Bool} {x : α} {xs : List α}

/-- `x` is put before the first element it is strictly below, or after the first one that, with
its successor, encloses it. -/
def insertNear (le : α → α → Bool) (x : α) : List α → Option (List α)
  | [] => none
  | y :: ys =>
    if le y x = false then some (x :: y :: ys)
    else if ys.head?.all (le x) then some (y :: x :: ys)
    else (insertNear le x ys).map (y :: ·)

/-- An insertion puts the element somewhere and leaves the others in order. -/
theorem insertNear_split {zs : List α} (h : insertNear le x xs = some zs) :
    ∃ as bs, xs = as ++ bs ∧ zs = as ++ x :: bs := by
  induction xs generalizing zs with
  | nil => cases h
  | cons y ys ih =>
    rw [insertNear] at h
    split_ifs at h
    · cases h
      exact ⟨[], y :: ys, rfl, rfl⟩
    · cases h
      exact ⟨[y], ys, rfl, rfl⟩
    · obtain ⟨ws, hws, rfl⟩ := Option.map_eq_some_iff.mp h
      obtain ⟨as, bs, rfl, rfl⟩ := ih hws
      exact ⟨y :: as, bs, rfl, rfl⟩

/-- In a sorted list there is a place, and the list stays sorted. -/
theorem insertNear_sorted (htotal : ∀ a b, le a b = true ∨ le b a = true)
    (htrans : ∀ a b c, le a b = true → le b c = true → le a c = true)
    (hne : xs ≠ []) (hsorted : xs.Pairwise fun a b => le a b = true) :
    ∃ zs, insertNear le x xs = some zs ∧ zs.Pairwise fun a b => le a b = true := by
  induction xs with
  | nil => exact absurd rfl hne
  | cons y ys ih =>
    obtain ⟨hy, hys⟩ := pairwise_cons.mp hsorted
    rw [insertNear]
    by_cases hyx : le y x = false
    · rw [if_pos hyx]
      have hxy : le x y = true := (htotal x y).resolve_right (by simp [hyx])
      refine ⟨_, rfl, pairwise_cons.mpr ⟨?_, hsorted⟩⟩
      intro z hz
      rcases mem_cons.mp hz with rfl | hz
      · exact hxy
      · exact htrans x y z hxy (hy z hz)
    · rw [if_neg hyx]
      have hyx' : le y x = true := by simpa using hyx
      by_cases hhead : ys.head?.all (le x) = true
      · -- `x` is below the next element, and so below all that follow
        rw [if_pos hhead]
        refine ⟨_, rfl, pairwise_cons.mpr ⟨?_, pairwise_cons.mpr ⟨?_, hys⟩⟩⟩
        · intro z hz
          rcases mem_cons.mp hz with rfl | hz
          · exact hyx'
          · exact hy z hz
        · intro z hz
          cases ys with
          | nil => cases hz
          | cons w ws =>
            have hxw : le x w = true := hhead
            rcases mem_cons.mp hz with rfl | hz
            · exact hxw
            · exact htrans x w z hxw ((pairwise_cons.mp hys).1 z hz)
      · rw [if_neg hhead]
        have hne' : ys ≠ [] := by
          rintro rfl
          exact hhead rfl
        obtain ⟨zs, hzs, hsorted'⟩ := ih hne' hys
        refine ⟨y :: zs, by rw [hzs, Option.map_some], pairwise_cons.mpr ⟨?_, hsorted'⟩⟩
        obtain ⟨as, bs, rfl, rfl⟩ := insertNear_split hzs
        intro z hz
        rcases mem_append.mp hz with hz | hz
        · exact hy z (mem_append_left _ hz)
        · rcases mem_cons.mp hz with rfl | hz
          · exact hyx'
          · exact hy z (mem_append_right _ hz)

/-- The insertion into a list that may be empty. -/
def insertInto (le : α → α → Bool) (x : α) (xs : List α) : List α := (insertNear le x xs).getD [x]

/-- The elements before `x` and those after it. -/
def around [DecidableEq α] (x : α) (xs : List α) : List α × List α :=
  (xs.takeWhile (· ≠ x), (xs.dropWhile (· ≠ x)).tail)

theorem around_middle [DecidableEq α] {as bs : List α} (hx : x ∉ as) :
    around x (as ++ x :: bs) = (as, bs) := by
  induction as with
  | nil => simp [around]
  | cons a as ih =>
    have hax : a ≠ x := by
      rintro rfl
      exact hx mem_cons_self
    have hrest := ih fun h => hx (mem_cons_of_mem _ h)
    simpa [around, hax] using hrest

end List
