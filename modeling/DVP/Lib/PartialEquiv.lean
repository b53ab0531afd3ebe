import Mathlib.Data.PEquiv

/-!
# Growing and shrinking a partial equivalence

A partial equivalence `e : α ≃. β` is a finite table that is read in both directions. `e.extend a b`
adds a pair whose sides are both new, and `e.erase a` removes the pair of `a`.
-/

namespace PEquiv

variable {α β : Type} [DecidableEq α]

/-- The table with the pair of `a` and `b`, which are both new. -/
def extend [DecidableEq β] (e : α ≃. β) (a : α) (b : β) (ha : e a = none) (hb : e.symm b = none) : α ≃. β where
  toFun a' := if a' = a then some b else e a'
  invFun b' := if b' = b then some a else e.symm b'
  inv a' b' := by
    by_cases haa : a' = a <;> by_cases hbb : b' = b
    · subst haa hbb
      simp
    · subst haa
      -- The pair of `a'` is new, so it has no other one.
      have hnone : e.symm b' ≠ some a' := fun h => by
        rw [e.eq_some_iff, ha] at h
        cases h
      simpa [hbb, Ne.symm hbb] using hnone
    · subst hbb
      have hnone : e a' ≠ some b' := fun h => by
        rw [← e.eq_some_iff, hb] at h
        cases h
      simpa [haa, Ne.symm haa] using hnone
    · simpa [haa, hbb] using e.mem_iff_mem

/-- The table without the pair of `a`. -/
def erase (e : α ≃. β) (a : α) : α ≃. β where
  toFun a' := if a' = a then none else e a'
  invFun b' := if e.symm b' = some a then none else e.symm b'
  inv a' b' := by
    by_cases haa : a' = a
    · subst haa
      by_cases hb : e.symm b' = some a' <;> simp [hb]
    · by_cases hb : e.symm b' = some a
      · have hnone : e a' ≠ some b' := fun h => by
          rw [← e.eq_some_iff, hb] at h
          exact haa (Option.some.inj h).symm
        simpa [haa, hb] using hnone
      · simpa [haa, hb] using e.mem_iff_mem

variable {e : α ≃. β} {a a' : α} {b : β}

theorem extend_apply [DecidableEq β] {ha : e a = none} {hb : e.symm b = none} :
    e.extend a b ha hb a' = if a' = a then some b else e a' := rfl

theorem erase_apply : e.erase a a' = if a' = a then none else e a' := rfl

/-- The table changes at one place in each direction. -/
theorem coe_extend [DecidableEq β] {ha : e a = none} {hb : e.symm b = none} :
    ⇑(e.extend a b ha hb) = Function.update e a (some b) := by
  funext a'
  rw [extend_apply, Function.update_apply]

theorem coe_symm_extend [DecidableEq β] {ha : e a = none} {hb : e.symm b = none} :
    ⇑(e.extend a b ha hb).symm = Function.update e.symm b (some a) := by
  funext b'
  rw [Function.update_apply]
  rfl

theorem coe_erase : ⇑(e.erase a) = Function.update e a none := by
  funext a'
  rw [erase_apply, Function.update_apply]

/-- The other side of the pair is gone too. -/
theorem coe_symm_erase [DecidableEq β] (h : e a = some b) :
    ⇑(e.erase a).symm = Function.update e.symm b none := by
  funext b'
  rw [Function.update_apply]
  change (if e.symm b' = some a then none else e.symm b') = _
  have hiff : e.symm b' = some a ↔ b' = b := by
    rw [e.eq_some_iff, h, Option.some.injEq, eq_comm]
  simp only [hiff]

end PEquiv
