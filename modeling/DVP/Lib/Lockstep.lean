import DVP.Lib.Run

/-!
# Machines in lockstep

Two machines with the same operations and answers, and a relation between their states that every
operation keeps. Their runs are related, and a property or a condition that the relation carries over
holds along a run of one exactly when it holds along the run of the other.
-/

namespace Machine

variable {S T O R E : Type}

/-- Every operation goes through in both machines, with one answer, and keeps the relation. -/
def Lockstep (step : S → O → Except E (S × R)) (step' : T → O → Except E (T × R))
    (Rel : S → T → Prop) : Prop :=
  ∀ s t o, Rel s t → ∃ s' t' r, step s o = .ok (s', r) ∧ step' t o = .ok (t', r) ∧ Rel s' t'

namespace Lockstep

variable {step : S → O → Except E (S × R)} {step' : T → O → Except E (T × R)}
  {Rel : S → T → Prop} {s : S} {t : T}

/-- Runs go through in both machines, with the same answers. -/
theorem run (h : Lockstep step step' Rel) (hrel : Rel s t) (os : List O) :
    ∃ s' t' rs, Machine.run step s os = .ok (s', rs) ∧ Machine.run step' t os = .ok (t', rs) ∧
      Rel s' t' := by
  induction os generalizing s t with
  | nil => exact ⟨s, t, [], rfl, rfl, hrel⟩
  | cons o os ih =>
    obtain ⟨s₁, t₁, r, hstep, hstep', hrel₁⟩ := h s t o hrel
    obtain ⟨s₂, t₂, rs, hrun, hrun', hrel₂⟩ := ih hrel₁
    exact ⟨s₂, t₂, r :: rs, run_cons_ok hstep hrun, run_cons_ok hstep' hrun', hrel₂⟩

/-- A condition on the steps carries over. -/
theorem meets_iff {C : S → O → Prop} {D : T → O → Prop} (h : Lockstep step step' Rel)
    (hcond : ∀ s t o, Rel s t → (C s o ↔ D t o)) (hrel : Rel s t) (os : List O) :
    Meets step C s os ↔ Meets step' D t os := by
  induction os generalizing s t with
  | nil => exact Iff.rfl
  | cons o os ih =>
    obtain ⟨s₁, t₁, r, hstep, hstep', hrel₁⟩ := h s t o hrel
    constructor
    · intro hmeets
      exact Meets.cons ((hcond s t o hrel).mp hmeets.1) hstep' ((ih hrel₁).mp (hmeets.2 s₁ r hstep))
    · intro hmeets
      exact Meets.cons ((hcond s t o hrel).mpr hmeets.1) hstep
        ((ih hrel₁).mpr (hmeets.2 t₁ r hstep'))

/-- A property of the states carries over. -/
theorem always_iff {P : S → Prop} {P' : T → Prop} (h : Lockstep step step' Rel)
    (hprop : ∀ s t, Rel s t → (P s ↔ P' t)) (hrel : Rel s t) (os : List O) :
    Always step P s os ↔ Always step' P' t os := by
  induction os generalizing s t with
  | nil => exact hprop s t hrel
  | cons o os ih =>
    obtain ⟨s₁, t₁, r, hstep, hstep', hrel₁⟩ := h s t o hrel
    constructor
    · rintro ⟨hP, hrest⟩
      refine ⟨(hprop s t hrel).mp hP, fun t₂ r₂ hstep₂ => ?_⟩
      cases hstep'.symm.trans hstep₂
      exact (ih hrel₁).mp (hrest s₁ r hstep)
    · rintro ⟨hP, hrest⟩
      refine ⟨(hprop s t hrel).mpr hP, fun s₂ r₂ hstep₂ => ?_⟩
      cases hstep.symm.trans hstep₂
      exact (ih hrel₁).mpr (hrest t₁ r hstep')

end Lockstep

end Machine
