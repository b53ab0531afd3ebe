import Mathlib.Data.Set.Card

/-!
# Stages

What an inductive definition with finitely many possible members defines is complete after as many
stages as there are possible members.

* `Staged.subset_card`: stages of subsets of a finite set are contained in the one that its
  cardinality numbers.
-/

/-- Sets that grow, each of which depends on the one before only. -/
structure Staged {α : Type} (F : Nat → Set α) : Prop where
  subset_succ : ∀ n, F n ⊆ F (n + 1)
  eq_succ : ∀ n, F n = F (n + 1) → F (n + 1) = F (n + 2)

namespace Staged

variable {α : Type} {F : Nat → Set α} {s : Finset α} {k m n : Nat}

theorem subset_of_le (h : Staged F) (hle : m ≤ n) : F m ⊆ F n := by
  induction n, hle using Nat.le_induction with
  | base => exact subset_rfl
  | succ n hle ih => exact ih.trans (h.subset_succ n)

/-- When nothing is added once, nothing is added any more. -/
theorem eq_of_le (h : Staged F) (hk : F k = F (k + 1)) (hle : k ≤ n) : F n = F k ∧ F n = F (n + 1) := by
  induction n, hle using Nat.le_induction with
  | base => exact ⟨rfl, hk⟩
  | succ n hle ih => exact ⟨ih.2.symm.trans ih.1, h.eq_succ n ih.2⟩

/-- Either nothing was added once, or something was added each time. -/
theorem eq_succ_or_le_ncard (h : Staged F) (hs : ∀ n, F n ⊆ s) (n : Nat) :
    (∃ k < n, F k = F (k + 1)) ∨ n ≤ (F n).ncard := by
  induction n with
  | zero => exact .inr (Nat.zero_le _)
  | succ n ih =>
    rcases ih with ⟨k, hk, heq⟩ | hle
    · exact .inl ⟨k, hk.trans n.lt_succ_self, heq⟩
    by_cases heq : F n = F (n + 1)
    · exact .inl ⟨n, n.lt_succ_self, heq⟩
    · have hfinite : (F (n + 1)).Finite := s.finite_toSet.subset (hs (n + 1))
      have hlt : (F n).ncard < (F (n + 1)).ncard :=
        Set.ncard_lt_ncard ((h.subset_succ n).ssubset_of_ne heq) hfinite
      exact .inr (hle.trans_lt hlt)

/-- Stages of a finite set are contained in the one that its cardinality numbers. -/
theorem subset_card (h : Staged F) (hs : ∀ n, F n ⊆ s) (n : Nat) : F n ⊆ F s.card := by
  rcases h.eq_succ_or_le_ncard hs (s.card + 1) with ⟨k, hk, heq⟩ | hle
  · rcases le_total n k with hn | hn
    · exact h.subset_of_le (hn.trans (Nat.le_of_lt_succ hk))
    · rw [(h.eq_of_le heq hn).1]
      exact h.subset_of_le (Nat.le_of_lt_succ hk)
  · have hcard : (F (s.card + 1)).ncard ≤ s.card := by
      rw [← Set.ncard_coe_finset s]
      exact Set.ncard_le_ncard (hs _) s.finite_toSet
    omega

end Staged
