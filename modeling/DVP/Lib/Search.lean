import Mathlib.Data.List.Basic

/-!
# Searches that return early

A loop that goes over numbers in order and returns from its first round that finds something. This
module has the facts that its proofs need:

* `List.findSomeM?_ok`: a loop none of whose rounds faults is a pure search;
* `List.findSome?_range_range`: two nested loops are one loop over all pairs in order;
* `List.findSome?_range_eq_some`, `List.findSome?_range_eq_none`: what a search over numbers finds.

`List.takeThrough` is what a loop goes through that ends after the element it looks for.
-/

namespace List

variable {α β ε : Type} {n m : Nat}

/-- A search whose rounds all end is a pure search. -/
theorem findSomeM?_ok {f : α → Except ε (Option β)} {g : α → Option β} {xs : List α}
    (h : ∀ x ∈ xs, f x = .ok (g x)) : xs.findSomeM? f = .ok (xs.findSome? g) := by
  induction xs with
  | nil => rfl
  | cons x xs ih =>
    obtain ⟨hx, hxs⟩ := forall_mem_cons.mp h
    rw [findSomeM?, hx, findSome?_cons]
    show (match g x with | some b => pure (some b) | none => findSomeM? f xs) = _
    cases g x with
    | none => exact ih hxs
    | some y => rfl

/-- Two searches whose rounds find the same find the same. -/
theorem findSome?_congr_mem {f g : α → Option β} {xs : List α} (h : ∀ x ∈ xs, f x = g x) :
    xs.findSome? f = xs.findSome? g := by
  induction xs with
  | nil => rfl
  | cons x xs ih =>
    obtain ⟨hx, hxs⟩ := forall_mem_cons.mp h
    rw [findSome?_cons, findSome?_cons, hx, ih hxs]

/-- A search over pairs of numbers, the second one below `m`, goes through them in the order of
`i * m + d`. -/
theorem findSome?_range_range (f : Nat → Nat → Option β) (hm : 0 < m) :
    (range n).findSome? (fun i => (range m).findSome? (f i)) =
      (range (n * m)).findSome? fun c => f (c / m) (c % m) := by
  induction n with
  | zero => simp
  | succ n ih =>
    have hlast : (range m).findSome? (f n) =
        ((range m).map (n * m + ·)).findSome? fun c => f (c / m) (c % m) := by
      rw [findSome?_map]
      refine findSome?_congr_mem fun d hd => ?_
      have hd := mem_range.mp hd
      show f n d = f ((n * m + d) / m) ((n * m + d) % m)
      rw [Nat.add_comm, Nat.add_mul_div_right _ _ hm, Nat.div_eq_of_lt hd, Nat.zero_add,
        Nat.add_mul_mod_self_right, Nat.mod_eq_of_lt hd]
    rw [range_succ, findSome?_append, ih, findSome?_singleton, hlast, Nat.succ_mul, range_add,
      findSome?_append]

/-- What is found first. -/
theorem findSome?_range_eq_some {f : Nat → Option β} {y : β} :
    (range n).findSome? f = some y ↔ ∃ c < n, f c = some y ∧ ∀ j < c, f j = none := by
  induction n with
  | zero => simp
  | succ n ih =>
    rw [range_succ, findSome?_append, findSome?_singleton, Option.or_eq_some_iff, ih,
      findSome?_eq_none_iff]
    constructor
    · rintro (⟨c, hc, hfound⟩ | ⟨hnone, hlast⟩)
      · exact ⟨c, Nat.lt_succ_of_lt hc, hfound⟩
      · exact ⟨n, Nat.lt_succ_self n, hlast, fun j hj => hnone j (mem_range.mpr hj)⟩
    · rintro ⟨c, hc, hfound, hbefore⟩
      rcases Nat.lt_succ_iff_lt_or_eq.mp hc with hc | rfl
      · exact .inl ⟨c, hc, hfound, hbefore⟩
      · exact .inr ⟨fun j hj => hbefore j (mem_range.mp hj), hfound⟩

theorem findSome?_range_eq_none {f : Nat → Option β} :
    (range n).findSome? f = none ↔ ∀ c < n, f c = none := by
  simp only [findSome?_eq_none_iff, mem_range]

/-- The elements up to the first one with `p`, which is the last one taken. -/
def takeThrough (p : α → Bool) : List α → List α
  | [] => []
  | x :: xs => if p x then [x] else x :: takeThrough p xs

theorem takeThrough_cons_of_pos {p : α → Bool} {x : α} {xs : List α} (h : p x = true) :
    (x :: xs).takeThrough p = [x] :=
  if_pos h

theorem takeThrough_cons_of_neg {p : α → Bool} {x : α} {xs : List α} (h : p x = false) :
    (x :: xs).takeThrough p = x :: xs.takeThrough p :=
  if_neg (ne_of_eq_of_ne h Bool.false_ne_true)

theorem takeThrough_congr {p q : α → Bool} {xs : List α} (h : ∀ x ∈ xs, p x = q x) :
    xs.takeThrough p = xs.takeThrough q := by
  induction xs with
  | nil => rfl
  | cons x xs ih =>
    obtain ⟨hx, hxs⟩ := forall_mem_cons.mp h
    unfold takeThrough
    rw [hx, ih hxs]

end List
