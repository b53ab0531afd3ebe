import Mathlib.Data.List.Basic
import Mathlib.Tactic.SplitIfs

/-!
# Runs of a fallible machine

A machine is a function `step : S → O → Except E (S × R)` that performs one operation, or
faults, and answers. This module has the runs of such a machine and the two rules by which
facts about one step become facts about every run:

* `run_invariant`: an invariant kept by every step whose condition holds is kept by every run
  whose steps all meet the condition, and no such run faults;
* `run_refines_history`, `run_refines`: a machine that simulates an abstract one step by step
  gives the abstract machine's answers over every run;
* `eachStep_of_invariant`: a relation that holds across every step from a state with the invariant
  holds across every step of a run;
* `eachStep_iff_meets`: such a relation holds across every step of a run exactly when all its steps
  meet a condition;
* `always_iff_meets`: a property holds in all states of a run exactly when all its steps meet
  a condition, given that steps that meet it keep an invariant and steps that do not break the
  property; `run_and_always_iff_meets` is the rule for runs that may fault.
-/

namespace Machine

variable {S A O R E : Type}

/-- Perform the operations one after the other and collect the answers. -/
def run (step : S → O → Except E (S × R)) : S → List O → Except E (S × List R)
  | s, [] => .ok (s, [])
  | s, o :: os =>
    match step s o with
    | .error e => .error e
    | .ok (s', r) =>
      match run step s' os with
      | .error e => .error e
      | .ok (s'', rs) => .ok (s'', r :: rs)

/-- Every step of the run of `os` from `s` meets the condition `C`, which is about the state
before the step and the operation. -/
def Meets (step : S → O → Except E (S × R)) (C : S → O → Prop) : S → List O → Prop
  | _, [] => True
  | s, o :: os => C s o ∧ ∀ s' r, step s o = .ok (s', r) → Meets step C s' os

/-- The property `P` holds in every state of the run of `os` from `s`, up to the first fault. -/
def Always (step : S → O → Except E (S × R)) (P : S → Prop) : S → List O → Prop
  | s, [] => P s
  | s, o :: os => P s ∧ ∀ s' r, step s o = .ok (s', r) → Always step P s' os

/-- Every operation of the run of `os` from `s` ends, and the relation `T` holds between the state
before it, the operation, its answer and the state after it. -/
def EachStep (step : S → O → Except E (S × R)) (T : S → O → R → S → Prop) : S → List O → Prop
  | _, [] => True
  | s, o :: os => ∃ s' r, step s o = .ok (s', r) ∧ T s o r s' ∧ EachStep step T s' os

/-- Perform the operations and test the condition at each. -/
def check (step : S → O → Except E (S × R)) (C : S → O → Prop) [∀ s o, Decidable (C s o)] :
    S → List O → Bool
  | _, [] => true
  | s, o :: os =>
    decide (C s o) &&
      match step s o with
      | .error _ => true
      | .ok (s', _) => check step C s' os

/-- Perform the operations and test the condition at each: the last state, if all of them end and
meet it. -/
def checkedRun (step : S → O → Except E (S × R)) (C : S → O → Prop) [∀ s o, Decidable (C s o)] :
    S → List O → Option S
  | s, [] => some s
  | s, o :: os =>
    if C s o then
      match step s o with
      | .error _ => none
      | .ok (s', _) => checkedRun step C s' os
    else none

/-- The run of an abstract machine, which never faults. -/
def specRun (spec : A → O → A × R) : A → List O → A × List R
  | a, [] => (a, [])
  | a, o :: os =>
    let next := specRun spec (spec a o).1 os
    (next.1, (spec a o).2 :: next.2)

variable {step : S → O → Except E (S × R)} {C : S → O → Prop}

/-- A step that ends, before a run that does. -/
theorem run_cons_ok {s s' s'' : S} {o : O} {os : List O} {r : R} {rs : List R}
    (hstep : step s o = .ok (s', r)) (hrun : run step s' os = .ok (s'', rs)) :
    run step s (o :: os) = .ok (s'', r :: rs) := by
  simp [run, hstep, hrun]

/-- A run that ends well starts with a step that ends well and goes on with a run that does. -/
theorem run_cons_eq_ok {s s'' : S} {o : O} {os : List O} {rs : List R}
    (h : run step s (o :: os) = .ok (s'', rs)) :
    ∃ s' r rs', step s o = .ok (s', r) ∧ run step s' os = .ok (s'', rs') ∧ rs = r :: rs' := by
  rw [run] at h
  split at h
  · cases h
  · next s' r hstep =>
    split at h
    · cases h
    · next s₂ rs' hrun =>
      cases h
      exact ⟨s', r, rs', hstep, hrun, rfl⟩

/-- A run goes on from where another one ends. -/
theorem run_append {s s' s'' : S} {os os' : List O} {rs rs' : List R}
    (hrun : run step s os = .ok (s', rs)) (hrest : run step s' os' = .ok (s'', rs')) :
    run step s (os ++ os') = .ok (s'', rs ++ rs') := by
  induction os generalizing s rs with
  | nil =>
    cases hrun
    exact hrest
  | cons o os ih =>
    obtain ⟨s₁, r, rs₁, h₁, h₂, rfl⟩ := run_cons_eq_ok hrun
    exact run_cons_ok h₁ (ih h₂)

/-- A condition that every operation of the list meets in every state is met along the run. -/
theorem meets_of_forall {s : S} {os : List O} (h : ∀ s, ∀ o ∈ os, C s o) :
    Meets step C s os := by
  induction os generalizing s with
  | nil => trivial
  | cons o os ih =>
    exact ⟨h s o List.mem_cons_self,
      fun s' _ _ => ih fun s o ho => h s o (List.mem_cons_of_mem _ ho)⟩

/-- The test of a condition along a run is a test of every step. -/
theorem check_eq_true_iff [∀ s o, Decidable (C s o)] {s : S} {os : List O} :
    check step C s os = true ↔ Meets step C s os := by
  induction os generalizing s with
  | nil => exact iff_of_true rfl trivial
  | cons o os ih =>
    rw [check, Bool.and_eq_true, decide_eq_true_eq, Meets]
    refine and_congr_right fun _ => ?_
    cases hstep : step s o with
    | error e => simp
    | ok x =>
      obtain ⟨s', r⟩ := x
      simp only [ih, Except.ok.injEq, Prod.mk.injEq]
      constructor
      · rintro h _ _ ⟨rfl, rfl⟩
        exact h
      · exact fun h => h s' r ⟨rfl, rfl⟩

/-- A run that is performed and tested ends in the state found. -/
theorem checkedRun_eq_some [∀ s o, Decidable (C s o)] {s s' : S} {os : List O}
    (h : checkedRun step C s os = some s') :
    Meets step C s os ∧ ∃ rs, run step s os = .ok (s', rs) := by
  induction os generalizing s with
  | nil =>
    cases h
    exact ⟨trivial, [], rfl⟩
  | cons o os ih =>
    rw [checkedRun] at h
    split_ifs at h with hC
    cases hstep : step s o with
    | error e =>
      rw [hstep] at h
      cases h
    | ok x =>
      obtain ⟨s₁, r⟩ := x
      rw [hstep] at h
      obtain ⟨hmeets, rs, hrun⟩ := ih h
      refine ⟨⟨hC, fun s₂ r₂ h₂ => ?_⟩, r :: rs, run_cons_ok hstep hrun⟩
      rw [hstep] at h₂
      cases h₂
      exact hmeets

/-- Two conditions can be met together. -/
theorem Meets.and {D : S → O → Prop} {s : S} {os : List O} (hC : Meets step C s os)
    (hD : Meets step D s os) : Meets step (fun s o => C s o ∧ D s o) s os := by
  induction os generalizing s with
  | nil => trivial
  | cons o os ih =>
    exact ⟨⟨hC.1, hD.1⟩, fun s' r hstep => ih (hC.2 s' r hstep) (hD.2 s' r hstep)⟩

/-- A weaker condition is met too. -/
theorem Meets.mono {D : S → O → Prop} {s : S} {os : List O} (h : ∀ s o, C s o → D s o)
    (hC : Meets step C s os) : Meets step D s os := by
  induction os generalizing s with
  | nil => trivial
  | cons o os ih => exact ⟨h s o hC.1, fun s' r hstep => ih (hC.2 s' r hstep)⟩

/-- A condition that follows from an invariant is met, where a condition is met that keeps the
invariant. -/
theorem Meets.of_invariant {I : S → Prop} {D : S → O → Prop} {s : S} {os : List O}
    (hkeep : ∀ s o s' r, I s → C s o → step s o = .ok (s', r) → I s')
    (hD : ∀ s o, I s → C s o → D s o) (hs : I s) (hC : Meets step C s os) :
    Meets step D s os := by
  induction os generalizing s with
  | nil => trivial
  | cons o os ih =>
    exact ⟨hD s o hs hC.1, fun s' r hstep => ih (hkeep s o s' r hs hC.1 hstep) (hC.2 s' r hstep)⟩

/-- To meet a condition along a run, meet it at the first step and along the rest. -/
theorem Meets.cons {s s' : S} {o : O} {os : List O} {r : R} (hC : C s o)
    (hstep : step s o = .ok (s', r)) (hrest : Meets step C s' os) :
    Meets step C s (o :: os) := by
  refine ⟨hC, fun s₁ r₁ h₁ => ?_⟩
  rw [hstep] at h₁
  cases h₁
  exact hrest

/-- To meet a condition along a run, meet it along a part and then along the rest. -/
theorem Meets.append {s s' : S} {os os' : List O} {rs : List R} (hC : Meets step C s os)
    (hrun : run step s os = .ok (s', rs)) (hrest : Meets step C s' os') :
    Meets step C s (os ++ os') := by
  induction os generalizing s rs with
  | nil =>
    cases hrun
    exact hrest
  | cons o os ih =>
    obtain ⟨s₁, r, rs₁, h₁, h₂, -⟩ := run_cons_eq_ok hrun
    exact Meets.cons hC.1 h₁ (ih (hC.2 s₁ r h₁) h₂)

/-- The invariant rule: no run whose steps meet the condition faults, and each ends in a
state with the invariant, after answers with the property each step gives them. -/
theorem run_invariant_answers {I : S → Prop} {G : R → Prop}
    (hstep : ∀ s o, I s → C s o → ∃ s' r, step s o = .ok (s', r) ∧ I s' ∧ G r)
    {s : S} {os : List O} (hs : I s) (hC : Meets step C s os) :
    ∃ s' rs, run step s os = .ok (s', rs) ∧ I s' ∧ ∀ r ∈ rs, G r := by
  induction os generalizing s with
  | nil => exact ⟨s, [], rfl, hs, fun r hr => absurd hr List.not_mem_nil⟩
  | cons o os ih =>
    obtain ⟨s', r, hs', hinv, hr⟩ := hstep s o hs hC.1
    obtain ⟨s'', rs, hrun, hinv', hrs⟩ := ih hinv (hC.2 s' r hs')
    exact ⟨s'', r :: rs, run_cons_ok hs' hrun, hinv', List.forall_mem_cons.mpr ⟨hr, hrs⟩⟩

/-- The invariant rule, for the states alone. -/
theorem run_invariant {I : S → Prop}
    (hstep : ∀ s o, I s → C s o → ∃ s' r, step s o = .ok (s', r) ∧ I s')
    {s : S} {os : List O} (hs : I s) (hC : Meets step C s os) :
    ∃ s' rs, run step s os = .ok (s', rs) ∧ I s' := by
  obtain ⟨s', rs, hrun, hinv, -⟩ := run_invariant_answers (G := fun _ => True)
    (fun s o hs hC =>
      let ⟨s', r, h, hI⟩ := hstep s o hs hC
      ⟨s', r, h, hI, trivial⟩) hs hC
  exact ⟨s', rs, hrun, hinv⟩

/-- The invariant rule for machines with steps that may not end: every run that ends, and
whose steps meet the condition, ends in a state with the invariant. -/
theorem run_invariant_of_ok {I : S → Prop}
    (hstep : ∀ s o s' r, I s → C s o → step s o = .ok (s', r) → I s')
    {s s' : S} {os : List O} {rs : List R} (hs : I s) (hC : Meets step C s os)
    (hrun : run step s os = .ok (s', rs)) : I s' := by
  induction os generalizing s rs with
  | nil =>
    cases hrun
    exact hs
  | cons o os ih =>
    obtain ⟨s₁, r, rs', h₁, h₂, -⟩ := run_cons_eq_ok hrun
    exact ih (hstep s o s₁ r hs hC.1 h₁) (hC.2 s₁ r h₁) h₂

/-- The invariant rule, for what holds across the steps. -/
theorem eachStep_of_invariant {I : S → Prop} {T : S → O → R → S → Prop}
    (hstep : ∀ s o, I s → C s o → ∃ s' r, step s o = .ok (s', r) ∧ T s o r s' ∧ I s')
    {s : S} {os : List O} (hs : I s) (hC : Meets step C s os) : EachStep step T s os := by
  induction os generalizing s with
  | nil => trivial
  | cons o os ih =>
    obtain ⟨s', r, hs', hT, hinv⟩ := hstep s o hs hC.1
    exact ⟨s', r, hs', hT, ih hinv (hC.2 s' r hs')⟩

/-- The rule for exact conditions, for what holds across the steps: steps that meet the condition
`C` have the property and keep the invariant, and steps that do not meet it do not have the
property. -/
theorem eachStep_iff_meets {I : S → Prop} {T : S → O → R → S → Prop}
    (hkeep : ∀ s o, I s → C s o → ∃ s' r, step s o = .ok (s', r) ∧ T s o r s' ∧ I s')
    (hbreak : ∀ s o s' r, I s → ¬C s o → step s o = .ok (s', r) → ¬T s o r s')
    {s : S} {os : List O} (hs : I s) : EachStep step T s os ↔ Meets step C s os := by
  constructor
  · intro h
    induction os generalizing s with
    | nil => trivial
    | cons o os ih =>
      obtain ⟨s', r, hstep, hT, hrest⟩ := h
      have hC : C s o := by
        by_contra hnot
        exact hbreak s o s' r hs hnot hstep hT
      obtain ⟨s₁, r₁, hstep₁, -, hinv⟩ := hkeep s o hs hC
      rw [hstep] at hstep₁
      cases hstep₁
      exact Meets.cons hC hstep (ih hinv hrest)
  · exact eachStep_of_invariant hkeep hs

/-- What holds across an operation in the middle of a run. -/
theorem EachStep.middle {T : S → O → R → S → Prop} {s : S} {o : O} {os os' : List O}
    (h : EachStep step T s (os ++ o :: os')) :
    ∃ s₁ rs s₂ r, run step s os = .ok (s₁, rs) ∧ step s₁ o = .ok (s₂, r) ∧ T s₁ o r s₂ := by
  induction os generalizing s with
  | nil =>
    obtain ⟨s₂, r, hstep, hT, -⟩ := h
    exact ⟨s, [], s₂, r, rfl, hstep, hT⟩
  | cons o' os ih =>
    obtain ⟨s', r', hstep, -, hrest⟩ := h
    obtain ⟨s₁, rs, s₂, r, hrun, hlast, hT⟩ := ih hrest
    exact ⟨s₁, r' :: rs, s₂, r, run_cons_ok hstep hrun, hlast, hT⟩

/-- The refinement rule, for a relation that may speak of the operations so far: a forward
simulation of an abstract machine answers every run as the abstract machine does. -/
theorem run_refines_history {spec : A → O → A × R} {Q : List O → S → A → Prop}
    (hstep : ∀ p s a o, Q p s a → C s o →
      ∃ s', step s o = .ok (s', (spec a o).2) ∧ Q (p ++ [o]) s' (spec a o).1)
    {p : List O} {s : S} {a : A} {os : List O} (hs : Q p s a) (hC : Meets step C s os) :
    ∃ s', run step s os = .ok (s', (specRun spec a os).2) ∧
      Q (p ++ os) s' (specRun spec a os).1 := by
  induction os generalizing p s a with
  | nil =>
    refine ⟨s, rfl, ?_⟩
    rw [List.append_nil]
    exact hs
  | cons o os ih =>
    obtain ⟨s', hs', hrel⟩ := hstep p s a o hs hC.1
    obtain ⟨s'', hrun, hrel'⟩ := ih hrel (hC.2 s' _ hs')
    rw [List.append_assoc] at hrel'
    exact ⟨s'', run_cons_ok hs' hrun, hrel'⟩

/-- The refinement rule. -/
theorem run_refines {spec : A → O → A × R} {Q : S → A → Prop}
    (hstep : ∀ s a o, Q s a → C s o →
      ∃ s', step s o = .ok (s', (spec a o).2) ∧ Q s' (spec a o).1)
    {s : S} {a : A} {os : List O} (hs : Q s a) (hC : Meets step C s os) :
    ∃ s', run step s os = .ok (s', (specRun spec a os).2) ∧ Q s' (specRun spec a os).1 :=
  run_refines_history (p := []) (Q := fun _ => Q) (fun _ => hstep) hs hC

/-- The refinement rule for machines with steps that may not end: every run that ends, and whose steps meet
the condition, answers as the abstract machine does. -/
theorem run_refines_of_ok {spec : A → O → A × R} {Q : S → A → Prop}
    (hstep : ∀ s a o s' r, Q s a → C s o → step s o = .ok (s', r) →
      r = (spec a o).2 ∧ Q s' (spec a o).1)
    {s s' : S} {a : A} {os : List O} {rs : List R} (hs : Q s a) (hC : Meets step C s os)
    (hrun : run step s os = .ok (s', rs)) :
    rs = (specRun spec a os).2 ∧ Q s' (specRun spec a os).1 := by
  induction os generalizing s a rs with
  | nil =>
    cases hrun
    exact ⟨rfl, hs⟩
  | cons o os ih =>
    obtain ⟨s₁, r, rs', h₁, h₂, rfl⟩ := run_cons_eq_ok hrun
    obtain ⟨rfl, hs₁⟩ := hstep s a o s₁ r hs hC.1 h₁
    obtain ⟨rfl, hs'⟩ := ih hs₁ (hC.2 s₁ _ h₁) h₂
    exact ⟨rfl, hs'⟩

/-- A property of all states of a run is one of the first state. -/
theorem Always.head {P : S → Prop} {s : S} {os : List O} (h : Always step P s os) : P s := by
  cases os with
  | nil => exact h
  | cons o os => exact h.1

/-- A property of all states of a run is one of the states after any part of it. -/
theorem Always.append {P : S → Prop} {s s' : S} {os os' : List O} {rs : List R}
    (h : Always step P s (os ++ os')) (hrun : run step s os = .ok (s', rs)) :
    Always step P s' os' := by
  induction os generalizing s rs with
  | nil =>
    cases hrun
    exact h
  | cons o os ih =>
    obtain ⟨s₁, r, rs', h₁, h₂, -⟩ := run_cons_eq_ok hrun
    exact ih (h.2 s₁ r h₁) h₂

/-- A property of all states of a run holds in the last one. -/
theorem Always.last {P : S → Prop} {s s' : S} {os : List O} {rs : List R} (h : Always step P s os)
    (hrun : run step s os = .ok (s', rs)) : P s' := by
  rw [← List.append_nil os] at h
  exact h.append hrun

/-- A property that follows from an invariant holds in all states of the runs whose steps meet a condition
that keeps the invariant. -/
theorem Always.of_invariant {I P : S → Prop} (hP : ∀ s, I s → P s)
    (hkeep : ∀ s o s' r, I s → C s o → step s o = .ok (s', r) → I s') {s : S} {os : List O}
    (hs : I s) (hC : Meets step C s os) : Always step P s os := by
  induction os generalizing s with
  | nil => exact hP s hs
  | cons o os ih =>
    exact ⟨hP s hs, fun s' r hstep => ih (hkeep s o s' r hs hC.1 hstep) (hC.2 s' r hstep)⟩

/-- A property that every step of a loop keeps holds after it. -/
theorem foldlM_keeps {f : S → O → Except E S} {P : S → Prop}
    (hstep : ∀ s o s', P s → f s o = .ok s' → P s') {os : List O} {s s' : S} (hs : P s)
    (hrun : os.foldlM f s = .ok s') : P s' := by
  induction os generalizing s with
  | nil =>
    cases hrun
    exact hs
  | cons o os ih =>
    rw [List.foldlM_cons] at hrun
    cases hfirst : f s o with
    | error e =>
      rw [hfirst] at hrun
      cases hrun
    | ok s₁ =>
      rw [hfirst] at hrun
      exact ih (hstep s o s₁ hs hfirst) hrun

/-- The rule for exact conditions, over the runs whose steps meet `D`: steps that meet the condition
`C` keep an invariant stronger than the property, and steps that do not break the property. -/
theorem always_iff_meets_of {I P : S → Prop} {D : S → O → Prop} (hP : ∀ s, I s → P s)
    (hkeep : ∀ s o s' r, I s → D s o → C s o → step s o = .ok (s', r) → I s')
    (hbreak : ∀ s o, I s → D s o → ¬C s o → ∃ s' r, step s o = .ok (s', r) ∧ ¬P s')
    {s : S} {os : List O} (hs : I s) (hD : Meets step D s os) :
    Always step P s os ↔ Meets step C s os := by
  induction os generalizing s with
  | nil => exact ⟨fun _ => trivial, fun _ => hP s hs⟩
  | cons o os ih =>
    have hrest : ∀ s' r, C s o → step s o = .ok (s', r) →
        (Always step P s' os ↔ Meets step C s' os) :=
      fun s' r hC hstep => ih (hkeep s o s' r hs hD.1 hC hstep) (hD.2 s' r hstep)
    constructor
    · intro h
      have hC : C s o := by
        by_contra hnot
        obtain ⟨s', r, hstep, hbad⟩ := hbreak s o hs hD.1 hnot
        exact hbad (h.2 s' r hstep).head
      exact ⟨hC, fun s' r hstep => (hrest s' r hC hstep).mp (h.2 s' r hstep)⟩
    · intro h
      exact ⟨hP s hs, fun s' r hstep => (hrest s' r h.1 hstep).mpr (h.2 s' r hstep)⟩

/-- The rule for exact conditions, over all runs. -/
theorem always_iff_meets {I P : S → Prop} (hP : ∀ s, I s → P s)
    (hkeep : ∀ s o s' r, I s → C s o → step s o = .ok (s', r) → I s')
    (hbreak : ∀ s o, I s → ¬C s o → ∃ s' r, step s o = .ok (s', r) ∧ ¬P s')
    {s : S} {os : List O} (hs : I s) : Always step P s os ↔ Meets step C s os :=
  always_iff_meets_of (D := fun _ _ => True) hP (fun s o s' r hI _ => hkeep s o s' r hI)
    (fun s o hI _ => hbreak s o hI) hs (meets_of_forall fun _ _ _ => trivial)

/-- The rule for exact conditions where a run may fault: it ends, and a property holds in all its states,
exactly when all its steps meet a condition, given that steps that meet it end and keep an invariant
stronger than the property, and steps that do not and yet end break the property. -/
theorem run_and_always_iff_meets {I P : S → Prop} {D : S → O → Prop} (hP : ∀ s, I s → P s)
    (hkeep : ∀ s o, I s → D s o → C s o → ∃ s' r, step s o = .ok (s', r) ∧ I s')
    (hbreak : ∀ s o s' r, I s → D s o → ¬C s o → step s o = .ok (s', r) → ¬P s')
    {s : S} {os : List O} (hs : I s) (hD : Meets step D s os) :
    (∃ x, run step s os = .ok x) ∧ Always step P s os ↔ Meets step C s os := by
  induction os generalizing s with
  | nil => exact ⟨fun _ => trivial, fun _ => ⟨⟨_, rfl⟩, hP s hs⟩⟩
  | cons o os ih =>
    constructor
    · rintro ⟨⟨⟨s'', rs⟩, hrun⟩, halways⟩
      obtain ⟨s₁, r, rs', hstep, hrest, -⟩ := run_cons_eq_ok hrun
      have hC : C s o := by
        by_contra hnot
        exact hbreak s o s₁ r hs hD.1 hnot hstep (halways.2 s₁ r hstep).head
      obtain ⟨s₂, r₂, hstep₂, hinv⟩ := hkeep s o hs hD.1 hC
      rw [hstep] at hstep₂
      cases hstep₂
      exact Meets.cons hC hstep
        ((ih hinv (hD.2 s₁ r hstep)).mp ⟨⟨_, hrest⟩, halways.2 s₁ r hstep⟩)
    · intro h
      obtain ⟨s₁, r, hstep, hinv⟩ := hkeep s o hs hD.1 h.1
      obtain ⟨⟨⟨s'', rs⟩, hrest⟩, halways⟩ :=
        (ih hinv (hD.2 s₁ r hstep)).mpr (h.2 s₁ r hstep)
      refine ⟨⟨_, run_cons_ok hstep hrest⟩, hP s hs, fun s₂ r₂ hstep₂ => ?_⟩
      rw [hstep] at hstep₂
      cases hstep₂
      exact halways

end Machine
