import Mathlib.Data.List.Nodup

/-!
# Items in custody

Some parties hold items, and `held x` counts how often they hold `x`. `Accounted held known` says that they hold
each known item once and nothing else. Handing an item on keeps it (`Accounted.congr`), a new item joins the
others (`Accounted.cons`), and an item that a party lets go of is missed (`Accounted.not_once_of_lost`).
-/

namespace Custody

variable {α : Type} [DecidableEq α]

/-- Every known item is held once, and nothing else is held. -/
structure Accounted (held : α → Nat) (known : List α) : Prop where
  held_eq : ∀ x, held x = known.count x
  nodup : known.Nodup

variable {held held' : α → Nat} {known : List α} {x : α}

theorem accounted_nil (h : ∀ x, held x = 0) : Accounted held [] := ⟨h, List.nodup_nil⟩

namespace Accounted

/-- A known item is held once. -/
theorem once (h : Accounted held known) (hx : x ∈ known) : held x = 1 :=
  (h.held_eq x).trans (List.count_eq_one_of_mem h.nodup hx)

/-- What is held is known. -/
theorem mem_of_pos (h : Accounted held known) (hx : 0 < held x) : x ∈ known := by
  rw [h.held_eq] at hx
  exact List.count_pos_iff.mp hx

/-- Items change hands. -/
theorem congr (h : Accounted held known) (hheld : ∀ x, held' x = held x) : Accounted held' known :=
  ⟨fun x => (hheld x).trans (h.held_eq x), h.nodup⟩

/-- A new item is held. -/
theorem cons (h : Accounted held known) (hx : x ∉ known)
    (hheld : ∀ y, held' y = held y + [x].count y) : Accounted held' (x :: known) := by
  refine ⟨fun y => ?_, List.nodup_cons.mpr ⟨hx, h.nodup⟩⟩
  rw [hheld, h.held_eq, List.count_singleton, List.count_cons]

/-- An item that is let go of is missed. -/
theorem not_once_of_lost (h : Accounted held known) (held' : α → Nat)
    (hlost : held x = held' x + 1) :
    ¬∀ y ∈ known, held' y = 1 := by
  intro hall
  have hmem : x ∈ known := h.mem_of_pos (hlost ▸ Nat.succ_pos _)
  have hone := h.once hmem
  rw [hlost, hall x hmem] at hone
  cases hone

end Accounted

end Custody
