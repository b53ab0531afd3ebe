import Mathlib.Data.List.Induction

/-!
# Doubly linked chains

A store of nodes is a function `link` from nodes to their two links; a node it does not know is
dead. `Chain link p xs q` says that the nodes `xs` are linked one after the other in both
directions, with `p` before the first and `q` after the last. The two edits of a linked list,
putting a node between two and taking one out (`Chain.insert`, `Chain.remove`), are stated for
any store that agrees with the old one away from the seam.
-/

/-- The links of a node: the node before it and the node after it. -/
structure Links (α : Type) where
  prev : Option α
  next : Option α
  deriving DecidableEq, Repr

variable {α : Type} {link link' : α → Option (Links α)} {p q : Option α} {x : α}
  {xs ys : List α}

/-- The nodes `xs` are linked in both directions, between `p` and `q`. -/
def Chain (link : α → Option (Links α)) : Option α → List α → Option α → Prop
  | _, [], _ => True
  | p, x :: xs, q => link x = some ⟨p, xs.head?.or q⟩ ∧ Chain link (some x) xs q

/-- Following `f` from `p` visits the nodes `xs` and ends. -/
def Follows (f : α → Option α) : Option α → List α → Prop
  | p, [] => p = none
  | p, x :: xs => p = some x ∧ Follows f (f x) xs

namespace Chain

/-- The links of a concatenation are those of its halves, with the seam between them. -/
theorem append_iff :
    Chain link p (xs ++ ys) q ↔
      Chain link p xs (ys.head?.or q) ∧ Chain link (xs.getLast?.or p) ys q := by
  induction xs generalizing p with
  | nil => simp [Chain]
  | cons x xs ih =>
    have hhead : (xs ++ ys).head?.or q = xs.head?.or (ys.head?.or q) := by
      rw [List.head?_append, Option.or_assoc]
    have hlast : (x :: xs).getLast?.or p = xs.getLast?.or (some x) := by
      cases xs with
      | nil => rfl
      | cons y xs => simp [List.getLast?_cons]
    rw [List.cons_append, Chain, Chain, ih, hhead, hlast, and_assoc]

/-- Only the links of the nodes themselves matter. -/
theorem congr (h : Chain link p xs q) (hagree : ∀ z ∈ xs, link' z = link z) :
    Chain link' p xs q := by
  induction xs generalizing p with
  | nil => trivial
  | cons x xs ih =>
    refine ⟨?_, ih h.2 fun z hz => hagree z (List.mem_cons_of_mem _ hz)⟩
    rw [hagree x List.mem_cons_self]
    exact h.1

/-- Every node of a chain is alive. -/
theorem alive (h : Chain link p xs q) (hx : x ∈ xs) : ∃ l, link x = some l := by
  obtain ⟨ys, zs, rfl⟩ := List.append_of_mem hx
  exact ⟨_, (append_iff.mp h).2.1⟩

/-- The links of a node in the middle. -/
theorem link_eq (h : Chain link p (xs ++ x :: ys) q) :
    link x = some ⟨xs.getLast?.or p, ys.head?.or q⟩ :=
  (append_iff.mp h).2.1

/-- The first node can be given another one before it. -/
theorem setPrev {p' : Option α} (h : Chain link p xs q)
    (hhead : ∀ z ∈ xs.head?, link' z = (link z).map fun l => { l with prev := p' })
    (hrest : ∀ z ∈ xs.tail, link' z = link z) : Chain link' p' xs q := by
  cases xs with
  | nil => trivial
  | cons x xs =>
    refine ⟨?_, h.2.congr hrest⟩
    rw [hhead x rfl, h.1, Option.map_some]

/-- The last node can be given another one after it. -/
theorem setNext {q' : Option α} (h : Chain link p xs q)
    (hlast : ∀ z ∈ xs.getLast?, link' z = (link z).map fun l => { l with next := q' })
    (hrest : ∀ z ∈ xs.dropLast, link' z = link z) : Chain link' p xs q' := by
  rcases List.eq_nil_or_concat xs with rfl | ⟨ys, y, rfl⟩
  · trivial
  · rw [List.concat_eq_append] at *
    rw [List.dropLast_concat] at hrest
    obtain ⟨hys, hy, -⟩ := append_iff.mp h
    refine append_iff.mpr ⟨?_, ?_, trivial⟩
    · exact hys.congr hrest
    · rw [hlast y (by simp), hy]
      simp

/-- Away from a seam there are the nodes before the last one and those after the first. -/
theorem agree_away {P : α → Prop} (hnodup : (xs ++ ys).Nodup)
    (hrest : ∀ z ∈ xs ++ ys, z ∉ xs.getLast? → z ∉ ys.head? → P z) :
    (∀ z ∈ xs.dropLast, P z) ∧ ∀ z ∈ ys.tail, P z := by
  obtain ⟨hnx, hny, hdisjoint⟩ := List.nodup_append.mp hnodup
  constructor
  · intro z hz
    have hzx := (List.dropLast_sublist xs).mem hz
    refine hrest z (List.mem_append_left _ hzx) ?_ ?_
    · intro hzlast
      obtain ⟨zs, rfl⟩ := List.getLast?_eq_some_iff.mp hzlast
      rw [List.dropLast_concat] at hz
      exact (List.nodup_append.mp hnx).2.2 z hz z List.mem_cons_self rfl
    · intro hzy
      exact hdisjoint z hzx z (List.mem_of_mem_head? hzy) rfl
  · intro z hz
    have hzy := List.mem_of_mem_tail hz
    refine hrest z (List.mem_append_right _ hzy) ?_ ?_
    · intro hzx
      exact hdisjoint z (List.mem_of_mem_getLast? hzx) z hzy rfl
    · intro hzhead
      obtain ⟨zs, rfl⟩ := List.head?_eq_some_iff.mp hzhead
      exact (List.nodup_cons.mp hny).1 hz

/-- Putting a node between two neighbours: it is given their links, and they are linked to it. -/
theorem insert (h : Chain link p (xs ++ ys) q)
    (hnodup : (xs ++ ys).Nodup)
    (hx : link' x = some ⟨xs.getLast?.or p, ys.head?.or q⟩)
    (hlast : ∀ z ∈ xs.getLast?, link' z = (link z).map fun l => { l with next := some x })
    (hhead : ∀ z ∈ ys.head?, link' z = (link z).map fun l => { l with prev := some x })
    (hrest : ∀ z ∈ xs ++ ys, z ∉ xs.getLast? → z ∉ ys.head? → link' z = link z) :
    Chain link' p (xs ++ x :: ys) q := by
  obtain ⟨hxs, hys⟩ := append_iff.mp h
  obtain ⟨hfront, hback⟩ := agree_away hnodup hrest
  exact append_iff.mpr ⟨hxs.setNext hlast hfront, hx, hys.setPrev hhead hback⟩

/-- Taking a node out: its neighbours are linked to each other. -/
theorem remove (h : Chain link p (xs ++ x :: ys) q) (hnodup : (xs ++ ys).Nodup)
    (hlast : ∀ z ∈ xs.getLast?, link' z = (link z).map fun l => { l with next := ys.head?.or q })
    (hhead : ∀ z ∈ ys.head?, link' z = (link z).map fun l => { l with prev := xs.getLast?.or p })
    (hrest : ∀ z ∈ xs ++ ys, z ∉ xs.getLast? → z ∉ ys.head? → link' z = link z) :
    Chain link' p (xs ++ ys) q := by
  obtain ⟨hxs, -, hys⟩ := append_iff.mp h
  obtain ⟨hfront, hback⟩ := agree_away hnodup hrest
  exact append_iff.mpr ⟨hxs.setNext hlast hfront, hys.setPrev hhead hback⟩

/-- Following the next links from the first node visits the chain. -/
theorem follows_next (h : Chain link p xs none) :
    Follows (fun z => (link z).bind Links.next) xs.head? xs := by
  induction xs generalizing p with
  | nil => rfl
  | cons x xs ih =>
    refine ⟨rfl, ?_⟩
    have hnext : (link x).bind Links.next = xs.head? := by
      rw [h.1]
      simp
    show Follows _ ((link x).bind Links.next) xs
    rw [hnext]
    exact ih h.2

/-- Following the previous links from the last node visits the chain backwards. -/
theorem follows_prev (h : Chain link none xs q) :
    Follows (fun z => (link z).bind Links.prev) xs.getLast? xs.reverse := by
  induction xs using List.reverseRecOn generalizing q with
  | nil => rfl
  | append_singleton xs x ih =>
    obtain ⟨hxs, hx, -⟩ := append_iff.mp h
    rw [List.getLast?_concat, List.reverse_concat]
    refine ⟨rfl, ?_⟩
    have hprev : (link x).bind Links.prev = xs.getLast? := by
      rw [hx]
      simp
    show Follows _ ((link x).bind Links.prev) xs.reverse
    rw [hprev]
    exact ih hxs

end Chain
