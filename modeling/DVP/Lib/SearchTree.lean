import Mathlib.Data.Nat.Log
import Mathlib.Data.Tree.Basic
import Mathlib.Tactic.Linarith

/-!
# Balanced trees over a list

The tree whose values from left to right are a given list, split in the middle at every node, and
the search of a tree along a function that tells on which side of a value the one searched for is.
-/

namespace BinaryTree

variable {α : Type*}

/-- The values of a tree from left to right. -/
def inorder : BinaryTree α → List α
  | nil => []
  | node x l r => l.inorder ++ x :: r.inorder

@[simp]
theorem inorder_nil : (nil : BinaryTree α).inorder = [] := rfl

/-- The tree over a list that has the value in the middle at its root. -/
def balanced (xs : List α) : BinaryTree α :=
  if h : xs.length / 2 < xs.length then
    node xs[xs.length / 2] (balanced (xs.take (xs.length / 2)))
      (balanced (xs.drop (xs.length / 2 + 1)))
  else nil
termination_by xs.length
decreasing_by
  · rw [List.length_take]
    omega
  · rw [List.length_drop]
    omega

@[simp]
theorem balanced_nil : balanced ([] : List α) = nil := by
  rw [balanced, dif_neg (by simp)]

/-- The root of the tree, and the lists its sides are built from. -/
theorem balanced_append {xs ys : List α} {x : α} (h : xs.length = (xs ++ x :: ys).length / 2) :
    balanced (xs ++ x :: ys) = node x (balanced xs) (balanced ys) := by
  rw [balanced]
  simp only [← h]
  rw [dif_pos (by simp), List.take_left, List.getElem_append_right (Nat.le_refl _)]
  simp

/-- A list that is not empty splits in the middle. -/
theorem exists_middle {zs : List α} (h : zs ≠ []) :
    ∃ xs x ys, zs = xs ++ x :: ys ∧ xs.length = zs.length / 2 := by
  have hpos : 0 < zs.length := List.length_pos_iff.mpr h
  have hlt : zs.length / 2 < zs.length := by omega
  refine ⟨zs.take (zs.length / 2), zs[zs.length / 2], zs.drop (zs.length / 2 + 1), ?_, ?_⟩
  · rw [← List.drop_eq_getElem_cons hlt, List.take_append_drop]
  · rw [List.length_take]
    omega

/-- The tree has the values of the list, in their order. -/
theorem inorder_balanced (zs : List α) : (balanced zs).inorder = zs := by
  induction hn : zs.length using Nat.strong_induction_on generalizing zs with
  | _ n ih =>
    by_cases hne : zs = []
    · rw [hne, balanced_nil, inorder]
    · obtain ⟨xs, x, ys, rfl, hlen⟩ := exists_middle hne
      have hsum : (xs ++ x :: ys).length = xs.length + ys.length + 1 := by
        rw [List.length_append, List.length_cons, Nat.add_assoc]
      rw [balanced_append hlen, inorder, ih _ (by omega) xs rfl, ih _ (by omega) ys rfl]

/-- Each level halves the list. -/
theorem height_balanced_le {k : Nat} {zs : List α} (h : zs.length < 2 ^ k) :
    (balanced zs).height ≤ k := by
  induction k generalizing zs with
  | zero =>
    rw [List.length_eq_zero_iff.mp (Nat.lt_one_iff.mp h), balanced_nil]
    exact Nat.le_refl 0
  | succ k ih =>
    by_cases hne : zs = []
    · rw [hne, balanced_nil]
      exact Nat.zero_le _
    · obtain ⟨xs, x, ys, rfl, hlen⟩ := exists_middle hne
      have hsum : (xs ++ x :: ys).length = xs.length + ys.length + 1 := by
        rw [List.length_append, List.length_cons, Nat.add_assoc]
      rw [Nat.pow_succ] at h
      rw [balanced_append hlen, height]
      exact Nat.succ_le_succ (Nat.max_le.mpr ⟨ih (by omega), ih (by omega)⟩)

/-- The height of the tree is logarithmic. -/
theorem height_balanced (zs : List α) : (balanced zs).height ≤ Nat.log 2 zs.length + 1 :=
  height_balanced_le (Nat.lt_pow_succ_log_self Nat.one_lt_two _)

/-- A path meets each value once. -/
theorem height_le_length (t : BinaryTree α) : t.height ≤ t.inorder.length := by
  induction t with
  | nil => exact Nat.le_refl 0
  | node x l r ihl ihr =>
    rw [height, inorder, List.length_append, List.length_cons]
    omega

/-! ## Searching -/

/-- The search that stops at `0`, goes right at `1` and left otherwise. -/
def search (c : α → Int) : BinaryTree α → Option α
  | nil => none
  | node x l r => if c x = 0 then some x else if c x = 1 then r.search c else l.search c

/-- The answers of `c` along a list: first to the right, then here, then to the left. -/
structure Guides (c : α → Int) (xs : List α) : Prop where
  range : ∀ x ∈ xs, c x = 1 ∨ c x = 0 ∨ c x = -1
  antitone : xs.Pairwise fun x y => c y ≤ c x

namespace Guides

variable {c : α → Int} {x : α} {xs ys : List α}

theorem left (h : Guides c (xs ++ x :: ys)) : Guides c xs :=
  ⟨fun y hy => h.range y (List.mem_append_left _ hy), (List.pairwise_append.mp h.antitone).1⟩

theorem right (h : Guides c (xs ++ x :: ys)) : Guides c ys :=
  ⟨fun y hy => h.range y (List.mem_append_right _ (List.mem_cons_of_mem _ hy)),
    (List.pairwise_cons.mp (List.pairwise_append.mp h.antitone).2.1).2⟩

/-- Before a value that leads to the right all do. -/
theorem before (h : Guides c (xs ++ x :: ys)) (hx : c x = 1) {y : α} (hy : y ∈ xs) : c y = 1 := by
  have hle := (List.pairwise_append.mp h.antitone).2.2 y hy x List.mem_cons_self
  have hrange := h.range y (List.mem_append_left _ hy)
  omega

/-- After a value that leads to the left all do. -/
theorem after (h : Guides c (xs ++ x :: ys)) (hx : c x = -1) {y : α} (hy : y ∈ ys) :
    c y = -1 := by
  have hle := (List.pairwise_cons.mp (List.pairwise_append.mp h.antitone).2.1).1 y hy
  have hrange := h.range y (List.mem_append_right _ (List.mem_cons_of_mem _ hy))
  omega

end Guides

theorem search_eq_some {c : α → Int} {t : BinaryTree α} {x : α} (h : t.search c = some x) :
    x ∈ t.inorder ∧ c x = 0 := by
  induction t with
  | nil => cases h
  | node y l r ihl ihr =>
    rw [search] at h
    rw [inorder]
    split_ifs at h with h0 h1
    · cases h
      exact ⟨List.mem_append_right _ List.mem_cons_self, h0⟩
    · obtain ⟨hmem, hx⟩ := ihr h
      exact ⟨List.mem_append_right _ (List.mem_cons_of_mem _ hmem), hx⟩
    · obtain ⟨hmem, hx⟩ := ihl h
      exact ⟨List.mem_append_left _ hmem, hx⟩

/-- A search misses nothing. -/
theorem search_eq_none {c : α → Int} {t : BinaryTree α} (h : Guides c t.inorder)
    (hnone : t.search c = none) : ∀ x ∈ t.inorder, c x ≠ 0 := by
  induction t with
  | nil => exact fun x hx => absurd hx List.not_mem_nil
  | node y l r ihl ihr =>
    rw [inorder] at h
    rw [search] at hnone
    intro x hx
    rw [inorder, List.mem_append, List.mem_cons] at hx
    split_ifs at hnone with h0 h1
    · rcases hx with hx | rfl | hx
      · have hx1 := h.before h1 hx
        omega
      · exact h0
      · exact ihr h.right hnone x hx
    · have hrange := h.range y (List.mem_append_right _ List.mem_cons_self)
      rcases hx with hx | rfl | hx
      · exact ihl h.left hnone x hx
      · exact h0
      · have hx1 := h.after (by omega) hx
        omega

end BinaryTree
