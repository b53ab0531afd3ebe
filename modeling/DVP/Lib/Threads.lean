import Mathlib.Algebra.BigOperators.Group.Finset.Basic
import Mathlib.Algebra.Order.BigOperators.Group.Finset

/-!
# Sums over threads

The local states of `n` threads are a function of the index of the thread. `total` adds up a number
that each thread contributes, and a step of one thread changes its own summand.
-/

namespace Threads

variable {β : Type} {n : Nat} {threads : Nat → β} {f g : β → Nat} {w : Nat}

/-- The sum of `f` over the threads. -/
def total (n : Nat) (threads : Nat → β) (f : β → Nat) : Nat := ∑ w ∈ Finset.range n, f (threads w)

/-- A step of one thread changes its summand. -/
theorem total_update (threads : Nat → β) (f : β → Nat) (h : w < n) (b : β) :
    total n (Function.update threads w b) f + f (threads w) = total n threads f + f b := by
  have hmem : w ∈ Finset.range n := Finset.mem_range.mpr h
  have hrest : ∑ v ∈ (Finset.range n).erase w, f (Function.update threads w b v) =
      ∑ v ∈ (Finset.range n).erase w, f (threads v) :=
    Finset.sum_congr rfl fun v hv => by rw [Function.update_of_ne (Finset.ne_of_mem_erase hv)]
  rw [total, total, ← Finset.add_sum_erase _ _ hmem, ← Finset.add_sum_erase _ _ hmem, hrest,
    Function.update_self]
  omega

theorem le_total (threads : Nat → β) (f : β → Nat) (h : w < n) : f (threads w) ≤ total n threads f :=
  Finset.single_le_sum (f := fun w => f (threads w)) (fun _ _ => Nat.zero_le _)
    (Finset.mem_range.mpr h)

/-- A bound for each thread bounds the sum. -/
theorem total_le {b : Nat} (h : ∀ w < n, f (threads w) ≤ b) : total n threads f ≤ n * b := by
  have hle := Finset.sum_le_card_nsmul (Finset.range n) (fun w => f (threads w)) b fun w hw =>
    h w (Finset.mem_range.mp hw)
  rw [Finset.card_range] at hle
  exact hle

theorem total_eq_zero_iff : total n threads f = 0 ↔ ∀ w < n, f (threads w) = 0 := by
  rw [total, Finset.sum_eq_zero_iff]
  simp only [Finset.mem_range]

theorem total_add : total n threads (fun b => f b + g b) = total n threads f + total n threads g :=
  Finset.sum_add_distrib

theorem total_eq_zero_of_forall (h : ∀ w, f (threads w) = 0) : total n threads f = 0 :=
  total_eq_zero_iff.mpr fun w _ => h w

end Threads
