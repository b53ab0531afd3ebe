import DVP.Lib.Run
import Mathlib.Algebra.BigOperators.Group.List.Basic
import Mathlib.Algebra.Order.BigOperators.Group.List
import Mathlib.Algebra.Order.Group.Int
import Mathlib.Logic.Function.Basic
import Mathlib.Order.Fin.Basic
import Mathlib.Tactic.Linarith

/-!
# The load table

`DVP_CommitLoad` and `DVP_DecommitLoad` of `source/dvp/dvp_kgraph/dvp_kgb.c`, with
`DVP_USE_LOAD_TABLE`, on the table of core loads that processes share. The region under the semaphore
of the table is one atomic step. Handles and sections are not `NULL`.

* `dvpCommitLoad_eq`: a commit is all or nothing, although it adds and checks core by core.
* `loads_accounted`: over any interleaving of commits and decommits, `currentLoad` is the sum of the
  loads of the sections that are committed and is at most `maximumLoad`.
-/

namespace DVP.Kgraph

/-- `DVP_CORE_MAX`. -/
def coreMax : Nat := 7

/-- The cores of `DVP_Core_e` between `DVP_CORE_MIN`, which is -1, and `DVP_CORE_MAX`. -/
abbrev Core : Type := Fin coreMax

/-- `DVP_CORE_DSP`. -/
def coreDsp : Core := ⟨0, by decide⟩

/-- The cores in the order of the loops over them. -/
def cores : List Core := List.finRange coreMax

/-- The array `cores` of `DVP_Load_t`. The loads are `DVP_S32`. -/
@[ext]
structure LoadTable where
  maximumLoad : Core → BitVec 32
  currentLoad : Core → BitVec 32

/-- What the load table needs of `DVP_KernelGraphSection_t`. -/
structure LoadSection where
  numNodes : Nat
  coreLoad : Core → BitVec 32

namespace LoadTable

/-- `currentLoad += load` for one core. -/
def add (loads : LoadTable) (c : Core) (load : BitVec 32) : LoadTable :=
  { loads with currentLoad := Function.update loads.currentLoad c (loads.currentLoad c + load) }

/-- `currentLoad -= load` for one core. -/
def sub (loads : LoadTable) (c : Core) (load : BitVec 32) : LoadTable :=
  { loads with currentLoad := Function.update loads.currentLoad c (loads.currentLoad c - load) }

/-- `currentLoad > maximumLoad` for one core. -/
def exceeds (loads : LoadTable) (c : Core) : Bool := (loads.maximumLoad c).slt (loads.currentLoad c)

end LoadTable

/-- The loop of `DVP_CommitLoad` over the cores `todo`, after the cores `done`, the last one first. When
a core exceeds its maximum, the loads of this core and of those before are taken back. -/
def commitCores (coreLoad : Core → BitVec 32) :
    List Core → List Core → LoadTable → Bool × LoadTable
  | _, [], loads => (true, loads)
  | done, c :: todo, loads =>
    let loads := loads.add c (coreLoad c)
    if loads.exceeds c then
      (false, (c :: done).foldl (fun loads c => loads.sub c (coreLoad c)) loads)
    else commitCores coreLoad (c :: done) todo loads

/-- `DVP_CommitLoad`. -/
def dvpCommitLoad (loads : LoadTable) (graphSection : LoadSection) : Bool × LoadTable :=
  if graphSection.numNodes = 0 then (false, loads)
  else commitCores graphSection.coreLoad [] cores loads

/-- `DVP_DecommitLoad`. -/
def dvpDecommitLoad (loads : LoadTable) (graphSection : LoadSection) : LoadTable :=
  cores.foldl (fun loads c => loads.sub c (graphSection.coreLoad c)) loads

/-! ## One commit -/

namespace LoadTable

/-- The core has room for a load. -/
def Fits (loads : LoadTable) (coreLoad : Core → BitVec 32) (c : Core) : Prop :=
  (loads.maximumLoad c).slt (loads.currentLoad c + coreLoad c) = false

instance (loads : LoadTable) (coreLoad : Core → BitVec 32) (c : Core) :
    Decidable (loads.Fits coreLoad c) :=
  inferInstanceAs (Decidable (_ = false))

/-- All cores with the load added. -/
def addAll (loads : LoadTable) (coreLoad : Core → BitVec 32) : LoadTable :=
  { loads with currentLoad := fun c => loads.currentLoad c + coreLoad c }

/-- All cores with the load taken away. -/
def subAll (loads : LoadTable) (coreLoad : Core → BitVec 32) : LoadTable :=
  { loads with currentLoad := fun c => loads.currentLoad c - coreLoad c }

variable {loads loads' : LoadTable} {coreLoad : Core → BitVec 32} {c d : Core} {load : BitVec 32}

theorem add_currentLoad_of_ne (h : d ≠ c) :
    (loads.add c load).currentLoad d = loads.currentLoad d := Function.update_of_ne h ..

theorem add_currentLoad_self :
    (loads.add c load).currentLoad c = loads.currentLoad c + load := Function.update_self ..

/-- What was added can be taken back. -/
theorem sub_add_cancel : (loads.add c load).sub c load = loads := by
  ext1
  · rfl
  · calc ((loads.add c load).sub c load).currentLoad
        = Function.update (loads.add c load).currentLoad c
            ((loads.add c load).currentLoad c - load) := rfl
      _ = Function.update (loads.add c load).currentLoad c (loads.currentLoad c) := by
          rw [add_currentLoad_self, BitVec.add_sub_cancel]
      _ = loads.currentLoad := (Function.update_idem ..).trans (Function.update_eq_self ..)

theorem fits_add_of_ne (h : d ≠ c) : (loads.add c load).Fits coreLoad d ↔ loads.Fits coreLoad d := by
  rw [Fits, Fits, add_currentLoad_of_ne h]
  rfl

theorem exceeds_add : (loads.add c (coreLoad c)).exceeds c = false ↔ loads.Fits coreLoad c := by
  rw [exceeds, Fits, add_currentLoad_self]
  rfl

theorem subAll_addAll : (loads.addAll coreLoad).subAll coreLoad = loads := by
  ext1
  · rfl
  · exact funext fun c => BitVec.add_sub_cancel _ _

end LoadTable

section Commit

variable {loads : LoadTable} {graphSection : LoadSection} {coreLoad : Core → BitVec 32}

/-- The loop commits all cores that are left, or takes back the cores that are done. -/
theorem commitCores_eq {todo done : List Core} (hnodup : todo.Nodup) :
    commitCores coreLoad done todo loads =
      if ∀ c ∈ todo, loads.Fits coreLoad c then
        (true, todo.foldl (fun loads c => loads.add c (coreLoad c)) loads)
      else (false, done.foldl (fun loads c => loads.sub c (coreLoad c)) loads) := by
  induction todo generalizing done loads with
  | nil =>
    rw [if_pos fun _ h => absurd h List.not_mem_nil]
    rfl
  | cons c todo ih =>
    obtain ⟨hc, htodo⟩ := List.nodup_cons.mp hnodup
    -- The cores that are left have the same room as before.
    have hrest : (∀ d ∈ todo, (loads.add c (coreLoad c)).Fits coreLoad d) ↔
        ∀ d ∈ todo, loads.Fits coreLoad d :=
      forall₂_congr fun d hd => LoadTable.fits_add_of_ne (ne_of_mem_of_not_mem hd hc)
    rw [commitCores]
    by_cases hfits : loads.Fits coreLoad c
    · rw [if_neg (by rw [LoadTable.exceeds_add.mpr hfits]; exact Bool.false_ne_true), ih htodo,
        List.foldl_cons, LoadTable.sub_add_cancel]
      simp only [hrest, List.forall_mem_cons, hfits, true_and]
      rfl
    · have hexceeds : (loads.add c (coreLoad c)).exceeds c = true := by
        rw [← Bool.not_eq_false, LoadTable.exceeds_add]
        exact hfits
      rw [if_pos hexceeds, if_neg fun hall => hfits (hall c List.mem_cons_self), List.foldl_cons,
        LoadTable.sub_add_cancel]

/-- Changing core by core changes the cores of the list, each one once. -/
theorem foldl_currentLoad (op : BitVec 32 → BitVec 32 → BitVec 32) (coreLoad : Core → BitVec 32)
    {f : LoadTable → Core → LoadTable}
    (hf : ∀ loads c, (f loads c).currentLoad =
      Function.update loads.currentLoad c (op (loads.currentLoad c) (coreLoad c)))
    {todo : List Core} (hnodup : todo.Nodup) (d : Core) :
    (todo.foldl f loads).currentLoad d =
      if d ∈ todo then op (loads.currentLoad d) (coreLoad d) else loads.currentLoad d := by
  induction todo generalizing loads with
  | nil => rfl
  | cons c todo ih =>
    obtain ⟨hc, htodo⟩ := List.nodup_cons.mp hnodup
    rw [List.foldl_cons, ih htodo, hf]
    by_cases hdc : d = c
    · subst hdc
      rw [if_neg hc, if_pos List.mem_cons_self, Function.update_self]
    · rw [Function.update_of_ne hdc]
      simp only [List.mem_cons, hdc, false_or]

/-- The maxima do not change. -/
theorem foldl_maximumLoad {f : LoadTable → Core → LoadTable}
    (hf : ∀ loads c, (f loads c).maximumLoad = loads.maximumLoad) (todo : List Core) :
    (todo.foldl f loads).maximumLoad = loads.maximumLoad := by
  induction todo generalizing loads with
  | nil => rfl
  | cons c todo ih => rw [List.foldl_cons, ih, hf]

theorem nodup_cores : cores.Nodup := List.nodup_finRange coreMax

theorem mem_cores (c : Core) : c ∈ cores := List.mem_finRange c

theorem foldl_add_cores :
    cores.foldl (fun loads c => loads.add c (coreLoad c)) loads = loads.addAll coreLoad := by
  ext1
  · exact foldl_maximumLoad (f := fun loads c => loads.add c (coreLoad c)) (fun _ _ => rfl) cores
  · funext d
    rw [foldl_currentLoad (· + ·) coreLoad (fun _ _ => rfl) nodup_cores,
      if_pos (mem_cores d)]
    rfl

/-- A decommit takes the load away from all cores. -/
theorem dvpDecommitLoad_eq :
    dvpDecommitLoad loads graphSection = loads.subAll graphSection.coreLoad := by
  ext1
  · exact foldl_maximumLoad (f := fun loads c => loads.sub c (graphSection.coreLoad c))
      (fun _ _ => rfl) cores
  · funext d
    rw [dvpDecommitLoad, foldl_currentLoad (· - ·) graphSection.coreLoad (fun _ _ => rfl) nodup_cores,
      if_pos (mem_cores d)]
    rfl

/-- A commit adds the load of the section to all cores if all of them have room for it, and does nothing
otherwise. -/
theorem dvpCommitLoad_eq :
    dvpCommitLoad loads graphSection =
      if graphSection.numNodes ≠ 0 ∧ ∀ c, loads.Fits graphSection.coreLoad c then
        (true, loads.addAll graphSection.coreLoad)
      else (false, loads) := by
  have hall : (∀ c ∈ cores, loads.Fits graphSection.coreLoad c) ↔
      ∀ c, loads.Fits graphSection.coreLoad c :=
    ⟨fun h c => h c (mem_cores c), fun h c _ => h c⟩
  rw [dvpCommitLoad, commitCores_eq nodup_cores, foldl_add_cores]
  simp only [hall]
  by_cases hnodes : graphSection.numNodes = 0
  · rw [if_pos hnodes, if_neg fun h => h.1 hnodes]
  · rw [if_neg hnodes]
    simp only [ne_eq, hnodes, not_false_eq_true, true_and]
    rfl

/-- A commit that fails changes nothing. -/
theorem dvpCommitLoad_of_failed (h : (dvpCommitLoad loads graphSection).1 = false) :
    (dvpCommitLoad loads graphSection).2 = loads := by
  rw [dvpCommitLoad_eq] at h ⊢
  split at h
  · cases h
  · next hnot => rw [if_neg hnot]

/-- A decommit undoes the commit before it. -/
theorem dvpDecommitLoad_dvpCommitLoad (h : (dvpCommitLoad loads graphSection).1 = true) :
    dvpDecommitLoad (dvpCommitLoad loads graphSection).2 graphSection = loads := by
  rw [dvpCommitLoad_eq] at h ⊢
  split at h
  · next hfits => rw [if_pos hfits, dvpDecommitLoad_eq, LoadTable.subAll_addAll]
  · cases h

end Commit

/-! ## The processes that share the table -/

/-- The table with the sections of all processes, which have the names `I`. -/
structure LoadSystem (I : Type) where
  table : LoadTable
  sections : I → LoadSection
  /-- The sections with a commit that succeeded and that have no decommit yet, once for each commit. -/
  committed : List I

/-- A step of a process. -/
inductive LoadAct (I : Type)
  /-- `DVP_CommitLoad` of a section. -/
  | commit (i : I)
  /-- `DVP_DecommitLoad` of a section. -/
  | decommit (i : I)
  /-- The process that has the section gives it other loads. -/
  | configure (i : I) (coreLoad : Core → BitVec 32)

namespace LoadSystem

variable {I : Type}

/-- One step, with the answer of the commit. -/
def step [DecidableEq I] (s : LoadSystem I) : LoadAct I → Except Empty (LoadSystem I × Bool)
  | .commit i =>
    let answer := dvpCommitLoad s.table (s.sections i)
    .ok ({
      s with
      table := answer.2
      committed := if answer.1 then i :: s.committed else s.committed
    }, answer.1)
  | .decommit i =>
    .ok ({
      s with
      table := dvpDecommitLoad s.table (s.sections i)
      committed := s.committed.erase i
    }, true)
  | .configure i coreLoad =>
    .ok ({
      s with
      sections := Function.update s.sections i { s.sections i with coreLoad := coreLoad }
    }, true)

/-- Nothing is committed, and no section has a negative load. -/
structure Init (s : LoadSystem I) : Prop where
  zero : ∀ c, s.table.currentLoad c = 0
  none_committed : s.committed = []
  nonneg : ∀ i c, 0 ≤ ((s.sections i).coreLoad c).toInt

/-- What the processes keep to: a section is decommitted after a commit that succeeded, its loads are not
negative and change only while it is not committed, and no sum that a commit computes overflows. -/
def Disciplined (s : LoadSystem I) : LoadAct I → Prop
  | .commit i =>
    ∀ c, (∀ d < c, s.table.Fits (s.sections i).coreLoad d) →
      (s.table.currentLoad c).saddOverflow ((s.sections i).coreLoad c) = false
  | .decommit i => i ∈ s.committed
  | .configure i coreLoad => i ∉ s.committed ∧ ∀ c, 0 ≤ (coreLoad c).toInt

instance [DecidableEq I] (s : LoadSystem I) (a : LoadAct I) : Decidable (s.Disciplined a) :=
  match a with
  | .commit _ => inferInstanceAs (Decidable (∀ c : Core, (∀ d < c, s.table.Fits _ d) → _ = false))
  | .decommit i => inferInstanceAs (Decidable (i ∈ s.committed))
  | .configure i coreLoad => inferInstanceAs (Decidable (i ∉ s.committed ∧ ∀ c, 0 ≤ (coreLoad c).toInt))

/-- The load that the committed sections have on a core. -/
def load (s : LoadSystem I) (c : Core) : Int :=
  (s.committed.map fun i => ((s.sections i).coreLoad c).toInt).sum

/-- The table has the loads of the sections that are committed, and they are within the maxima. A
core with a negative maximum has no load. -/
structure Accounted (s : LoadSystem I) : Prop where
  current : ∀ c, (s.table.currentLoad c).toInt = s.load c
  within : ∀ c, (s.table.currentLoad c).toInt ≤ max 0 (s.table.maximumLoad c).toInt

variable {s : LoadSystem I} {i : I} {c : Core}

/-- What a state needs in addition so that the next step keeps the account. -/
structure Inv (s : LoadSystem I) : Prop extends s.Accounted where
  nonneg : ∀ i c, 0 ≤ ((s.sections i).coreLoad c).toInt

theorem Init.inv (h : s.Init) : s.Inv where
  current c := by
    rw [h.zero, load, h.none_committed]
    rfl
  within c := by
    rw [h.zero]
    exact le_max_left (0 : Int) _
  nonneg := h.nonneg

/-- A section that fits adds its load to the account, which stays within the maxima. -/
theorem Inv.commit (h : s.Inv) (hoverflow : s.Disciplined (.commit i))
    (hfits : ∀ c, s.table.Fits (s.sections i).coreLoad c) :
    Inv { s with table := s.table.addAll (s.sections i).coreLoad, committed := i :: s.committed } := by
  have hadd : ∀ c, (s.table.currentLoad c + (s.sections i).coreLoad c).toInt =
      (s.table.currentLoad c).toInt + ((s.sections i).coreLoad c).toInt := fun c =>
    BitVec.toInt_add_of_not_saddOverflow
      (ne_of_eq_of_ne (hoverflow c fun d _ => hfits d) Bool.false_ne_true)
  refine ⟨⟨fun c => ?_, fun c => ?_⟩, h.nonneg⟩
  · have hcurrent := h.current c
    have hcons : load { s with
        table := s.table.addAll (s.sections i).coreLoad
        committed := i :: s.committed } c = ((s.sections i).coreLoad c).toInt + s.load c := rfl
    rw [hcons, ← hcurrent, add_comm]
    exact hadd c
  · have hroom := hfits c
    rw [LoadTable.Fits, BitVec.slt_eq_decide, decide_eq_false_iff_not] at hroom
    exact le_max_of_le_right (not_lt.mp hroom)

section Steps

variable [DecidableEq I]

/-- The load without one of the sections that are committed. -/
theorem load_erase (hi : i ∈ s.committed) (c : Core) :
    ((s.committed.erase i).map fun i => ((s.sections i).coreLoad c).toInt).sum =
      s.load c - ((s.sections i).coreLoad c).toInt := by
  have hsum := List.sum_map_erase (fun i => ((s.sections i).coreLoad c).toInt) hi
  rw [load]
  omega

/-- A section that is decommitted takes its load out of the account. -/
theorem Inv.decommit (h : s.Inv) (hi : i ∈ s.committed) :
    Inv { s with
      table := s.table.subAll (s.sections i).coreLoad
      committed := s.committed.erase i } := by
  have hpart : ∀ c, 0 ≤ s.load c - ((s.sections i).coreLoad c).toInt := fun c => by
    rw [← load_erase hi]
    exact List.sum_nonneg fun x hx => by
      obtain ⟨j, -, rfl⟩ := List.mem_map.mp hx
      exact h.nonneg j c
  have hsub : ∀ c, (s.table.currentLoad c - (s.sections i).coreLoad c).toInt =
      (s.table.currentLoad c).toInt - ((s.sections i).coreLoad c).toInt := fun c =>
    BitVec.toInt_sub_of_not_ssubOverflow (by
      have hcurrent := h.current c
      have hnonneg := h.nonneg i c
      have hleft := hpart c
      have hlt := BitVec.toInt_lt (x := s.table.currentLoad c)
      rw [BitVec.ssubOverflow, Bool.or_eq_true, decide_eq_true_eq, decide_eq_true_eq]
      omega)
  refine ⟨⟨fun c => ?_, fun c => ?_⟩, h.nonneg⟩
  · rw [load, load_erase hi, ← h.current c]
    exact hsub c
  · exact le_trans ((hsub c).le.trans (Int.sub_le_self _ (h.nonneg i c))) (h.within c)

/-- New loads of a section that is not committed are not in the account. -/
theorem Inv.configure (h : s.Inv) {coreLoad : Core → BitVec 32} (hi : i ∉ s.committed)
    (hnonneg : ∀ c, 0 ≤ (coreLoad c).toInt) :
    Inv { s with
      sections := Function.update s.sections i { s.sections i with coreLoad := coreLoad } } := by
  refine ⟨⟨fun c => (h.current c).trans ?_, h.within⟩, fun j c => ?_⟩
  · rw [load, load]
    refine congrArg List.sum (List.map_congr_left fun j hj => ?_)
    simp only [Function.update_of_ne (ne_of_mem_of_not_mem hj hi)]
  · by_cases hij : j = i
    · subst hij
      simp only [Function.update_self]
      exact hnonneg c
    · simp only [Function.update_of_ne hij]
      exact h.nonneg j c

/-- A step of a process that keeps to the discipline keeps the account. -/
theorem Inv.step {s' : LoadSystem I} {a : LoadAct I} {r : Bool} (h : s.Inv) (ha : s.Disciplined a)
    (hstep : s.step a = .ok (s', r)) : s'.Inv := by
  cases a with
  | commit i =>
    cases hstep
    rw [dvpCommitLoad_eq]
    split
    · next hfits => exact h.commit ha hfits.2
    · exact h
  | decommit i =>
    cases hstep
    rw [dvpDecommitLoad_eq]
    exact h.decommit ha
  | configure i coreLoad =>
    cases hstep
    exact h.configure ha.1 ha.2

end Steps

end LoadSystem

/-- Over any interleaving of the commits and decommits of any number of processes, the table accounts for
the sections that are committed. -/
theorem loads_accounted {I : Type} [DecidableEq I] (s : LoadSystem I) (acts : List (LoadAct I))
    (hinit : s.Init) (hacts : Machine.Meets LoadSystem.step LoadSystem.Disciplined s acts) :
    Machine.Always LoadSystem.step LoadSystem.Accounted s acts ∧
      (∀ loads graphSection, (dvpCommitLoad loads graphSection).1 = false →
        (dvpCommitLoad loads graphSection).2 = loads) ∧
      ∀ loads graphSection, (dvpCommitLoad loads graphSection).1 = true →
        dvpDecommitLoad (dvpCommitLoad loads graphSection).2 graphSection = loads :=
  ⟨Machine.Always.of_invariant (fun _ => LoadSystem.Inv.toAccounted)
    (fun _ _ _ _ h ha hstep => h.step ha hstep) hinit.inv hacts,
    fun _ _ => dvpCommitLoad_of_failed, fun _ _ => dvpDecommitLoad_dvpCommitLoad⟩

/-- Two sections of three and of four units on the first core. -/
def twoSections (maximum : BitVec 32) : LoadSystem Bool where
  table := {
    maximumLoad := fun _ => maximum
    currentLoad := fun _ => 0
  }
  sections i := {
    numNodes := 1
    coreLoad := fun c => if c = coreDsp then (if i then 3 else 4) else 0
  }
  committed := []

/-- The second commit fails, until the first section is decommitted. -/
theorem loads_accounted_twoSections :
    Machine.Always LoadSystem.step LoadSystem.Accounted (twoSections 5)
      [.commit true, .commit false, .decommit true, .commit false] :=
  (loads_accounted (twoSections 5) [.commit true, .commit false, .decommit true, .commit false]
    ⟨fun _ => rfl, rfl, by decide⟩ (Machine.check_eq_true_iff.mp (by decide))).1

/-- With a negative maximum, which `DVP_SetMaxLoad` gets from a large `DVP_U32`, the current load is
above the maximum although no section is committed. -/
theorem negative_maximum_exceeded :
    (twoSections 0xFFFFFFFF).Init ∧
      Machine.Meets LoadSystem.step LoadSystem.Disciplined (twoSections 0xFFFFFFFF) [.commit true] ∧
      ¬Machine.Always LoadSystem.step (fun s => ∀ c, (s.table.currentLoad c).toInt = s.load c ∧
          (s.table.currentLoad c).toInt ≤ (s.table.maximumLoad c).toInt)
        (twoSections 0xFFFFFFFF) [.commit true] :=
  ⟨⟨fun _ => rfl, rfl, by decide⟩, Machine.check_eq_true_iff.mp (by decide),
    fun h => absurd (h.head coreDsp).2 (by decide)⟩

end DVP.Kgraph
