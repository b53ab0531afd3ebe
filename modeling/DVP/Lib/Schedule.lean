import Mathlib.Order.Basic

/-!
# Infinite schedules

The states of a machine that never faults along an infinite sequence of steps, with the rule for
what happens eventually: a natural number that no step raises, and that some later step lowers as
long as it is not zero, comes down to zero.
-/

namespace Schedule

variable {S O : Type} {step : S → O → S} {s : S} {acts : Nat → O}

/-- The state after the first `n` steps. -/
def after (step : S → O → S) (s : S) (acts : Nat → O) : Nat → S
  | 0 => s
  | n + 1 => step (after step s acts n) (acts n)

/-- What every step keeps holds after every number of steps. -/
theorem after_invariant {I : S → Prop} (hstep : ∀ s o, I s → I (step s o)) (hs : I s)
    (acts : Nat → O) (n : Nat) :
    I (after step s acts n) := by
  induction n with
  | zero => exact hs
  | succ n ih => exact hstep _ _ ih

/-- The rule for what happens eventually. -/
theorem eventually_zero (rank : S → Nat) {I : S → Prop} (hI : ∀ s o, I s → I (step s o))
    (hle : ∀ s o, I s → rank (step s o) ≤ rank s) {n : Nat} (hn : I (after step s acts n))
    (hlt : ∀ m, n ≤ m → I (after step s acts m) → 0 < rank (after step s acts m) →
      ∃ k, m ≤ k ∧ (0 < rank (after step s acts k) →
        rank (after step s acts (k + 1)) < rank (after step s acts k))) :
    ∃ m, n ≤ m ∧ I (after step s acts m) ∧ rank (after step s acts m) = 0 := by
  -- The invariant holds, and the rank does not grow, from `n` on.
  have hfrom : ∀ m d, I (after step s acts m) →
      I (after step s acts (m + d)) ∧ rank (after step s acts (m + d)) ≤ rank (after step s acts m) := by
    intro m d hm
    induction d with
    | zero => exact ⟨hm, Nat.le_refl _⟩
    | succ d ih => exact ⟨hI _ _ ih.1, Nat.le_trans (hle _ _ ih.1) ih.2⟩
  -- Induction on a bound of the rank.
  suffices h : ∀ b m, n ≤ m → I (after step s acts m) → rank (after step s acts m) ≤ b →
      ∃ k, n ≤ k ∧ I (after step s acts k) ∧ rank (after step s acts k) = 0 from
    h _ n (Nat.le_refl n) hn (Nat.le_refl _)
  intro b
  induction b with
  | zero => exact fun m hm hinv hrank => ⟨m, hm, hinv, Nat.le_zero.mp hrank⟩
  | succ b ih =>
    intro m hm hinv hrank
    rcases Nat.eq_zero_or_pos (rank (after step s acts m)) with hzero | hpos
    · exact ⟨m, hm, hinv, hzero⟩
    · obtain ⟨k, hk, hlower⟩ := hlt m hm hinv hpos
      obtain ⟨d, rfl⟩ := Nat.exists_eq_add_of_le hk
      obtain ⟨hinvk, hrankk⟩ := hfrom m d hinv
      rcases Nat.eq_zero_or_pos (rank (after step s acts (m + d))) with hzero | hposk
      · exact ⟨m + d, by omega, hinvk, hzero⟩
      · have hdrop := hlower hposk
        exact ih (m + d + 1) (by omega) (hI _ _ hinvk) (by omega)

end Schedule
