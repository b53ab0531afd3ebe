import DVP.Kgraph.GraphLock
import Mathlib.Data.List.Nodup
import Mathlib.Data.List.Perm.Subperm
import Mathlib.Tactic.Linarith

/-!
# The orders of a graph

The loop over the orders in `DVP_KernelGraph_Process` of `source/dvp/dvp_kgraph/dvp_kgraph.c`, for
a graph that is verified. A round collects the sections of one order in `ppSections` and runs
them, on the thread pool if there are several. The pool accepts and completes each batch it is
given, and runs the sections of a batch in any interleaving.

* `selectIndices_eq_none_iff`, `selectIndices_eq_some`: what a round collects.
* `processOrders_spec`: the batches of a call, which ends for every graph.
* `process_executes_iff`: the sections that are not skipped run once each and in order, and are
  counted, exactly when their orders have no gap and no section follows a full batch in the array.
-/

namespace DVP.Kgraph

/-! ## A round -/

/-- The loop of `selectSections`, where a pointer to a section is its index in the array. -/
def selectIndices (order : BitVec 32) :
    Nat → List KernelGraphSection → List Nat → Option (List Nat)
  | _, [], ppSections => some ppSections
  | i, s :: sections, ppSections =>
    if s.order = order ∧ ppSections.length < maxSections ∧ s.skipSection = false then
      selectIndices order (i + 1) sections (ppSections ++ [i])
    else if maxSections ≤ ppSections.length then none
    else selectIndices order (i + 1) sections ppSections

/-- The section is not skipped and has this order. -/
def KernelGraphSection.runsIn (order : BitVec 32) (s : KernelGraphSection) : Bool :=
  decide (s.order = order) && !s.skipSection

/-- The indices from `i` on of the sections that run in this order. -/
def sectionsFrom (order : BitVec 32) : Nat → List KernelGraphSection → List Nat
  | _, [] => []
  | i, s :: sections =>
    if s.runsIn order then i :: sectionsFrom order (i + 1) sections
    else sectionsFrom order (i + 1) sections

/-- A section follows after `k` or more that run in this order. -/
def FollowedAfter (k : Nat) (order : BitVec 32) (sections : List KernelGraphSection) : Prop :=
  ∃ before s after, sections = before ++ s :: after ∧ k ≤ before.countP (·.runsIn order)

section Select

variable {order : BitVec 32} {i k : Nat} {s : KernelGraphSection}
  {sections : List KernelGraphSection} {ppSections : List Nat}

/-- A section runs in its order unless it is skipped. -/
theorem runsIn_iff : s.runsIn order = true ↔ s.order = order ∧ s.skipSection = false := by
  rw [KernelGraphSection.runsIn, Bool.and_eq_true, decide_eq_true_eq, Bool.not_eq_true']

/-- Nothing follows when there are no sections. -/
theorem not_followedAfter_nil : ¬FollowedAfter k order [] := by
  rintro ⟨before, s, after, h, -⟩
  cases before <;> cases h

/-- A section comes after no others. -/
theorem followedAfter_zero : FollowedAfter 0 order (s :: sections) :=
  ⟨[], s, sections, rfl, Nat.zero_le _⟩

/-- Sections that run in this order count. -/
theorem followedAfter_cons (hk : 0 < k) :
    FollowedAfter k order (s :: sections) ↔
      FollowedAfter (if s.runsIn order then k - 1 else k) order sections := by
  constructor
  · rintro ⟨before, s', after, h, hle⟩
    cases before with
    | nil => exact absurd hle (Nat.not_le.mpr hk)
    | cons _ before =>
      obtain ⟨rfl, rfl⟩ := List.cons.inj h
      rw [List.countP_cons] at hle
      refine ⟨before, s', after, rfl, ?_⟩
      split_ifs at hle ⊢ <;> omega
  · rintro ⟨before, s', after, rfl, hle⟩
    refine ⟨s :: before, s', after, rfl, ?_⟩
    rw [List.countP_cons]
    split_ifs at hle ⊢ <;> omega

/-- A round that has room looks at the next section. -/
theorem selectIndices_cons (hlt : ppSections.length < maxSections) :
    selectIndices order i (s :: sections) ppSections =
      selectIndices order (i + 1) sections
        (if s.runsIn order then ppSections ++ [i] else ppSections) := by
  rw [selectIndices]
  by_cases hruns : s.runsIn order = true
  · obtain ⟨horder, hskip⟩ := runsIn_iff.mp hruns
    rw [if_pos ⟨horder, hlt, hskip⟩, if_pos hruns]
  · rw [if_neg fun h => hruns (runsIn_iff.mpr ⟨h.1, h.2.2⟩), if_neg (Nat.not_le.mpr hlt),
      if_neg hruns]

/-- A round that has no room ends the call. -/
theorem selectIndices_full (hfull : maxSections ≤ ppSections.length) :
    selectIndices order i (s :: sections) ppSections = none := by
  rw [selectIndices, if_neg fun h => absurd h.2.1 (Nat.not_lt.mpr hfull), if_pos hfull]

/-- What is left to collect after the next section. -/
theorem sub_length_ite (c : Bool) (hlt : ppSections.length < maxSections) :
    (if c then ppSections ++ [i] else ppSections).length ≤ maxSections ∧
      maxSections - (if c then ppSections ++ [i] else ppSections).length =
        if c then maxSections - ppSections.length - 1 else maxSections - ppSections.length := by
  cases c
  · exact ⟨Nat.le_of_lt hlt, rfl⟩
  · rw [if_pos rfl, if_pos rfl, List.length_append, List.length_singleton]
    omega

/-- A round ends the call when a section follows after `MAX_SECTIONS` that run in its order. -/
theorem selectIndices_eq_none_iff (hlen : ppSections.length ≤ maxSections) :
    selectIndices order i sections ppSections = none ↔
      FollowedAfter (maxSections - ppSections.length) order sections := by
  induction sections generalizing i ppSections with
  | nil => exact iff_of_false nofun not_followedAfter_nil
  | cons s sections ih =>
    rcases Nat.lt_or_ge ppSections.length maxSections with hlt | hge
    · obtain ⟨hlen', hrest⟩ := sub_length_ite (i := i) (s.runsIn order) hlt
      rw [selectIndices_cons hlt, followedAfter_cons (by omega), ih hlen', hrest]
    · rw [selectIndices_full hge, Nat.sub_eq_zero_of_le hge]
      exact iff_of_true rfl followedAfter_zero

/-- Otherwise it collects all sections that run in its order. -/
theorem selectIndices_eq_some (hlen : ppSections.length ≤ maxSections)
    (h : ¬FollowedAfter (maxSections - ppSections.length) order sections) :
    selectIndices order i sections ppSections = some (ppSections ++ sectionsFrom order i sections) := by
  induction sections generalizing i ppSections with
  | nil => rw [selectIndices, sectionsFrom, List.append_nil]
  | cons s sections ih =>
    rcases Nat.lt_or_ge ppSections.length maxSections with hlt | hge
    · obtain ⟨hlen', hrest⟩ := sub_length_ite (i := i) (s.runsIn order) hlt
      rw [followedAfter_cons (by omega), ← hrest] at h
      rw [selectIndices_cons hlt, ih hlen' h, sectionsFrom]
      split_ifs
      · rw [List.append_assoc]
        rfl
      · rfl
    · rw [Nat.sub_eq_zero_of_le hge] at h
      exact absurd followedAfter_zero h

/-- The sections of a round are those at its indices. -/
theorem selectSections_map_length (i : Nat) {pp : List KernelGraphSection}
    (hlen : pp.length = ppSections.length) :
    (selectSections order sections pp).map List.length =
      (selectIndices order i sections ppSections).map List.length := by
  induction sections generalizing i pp ppSections with
  | nil => rw [selectSections, selectIndices, Option.map_some, Option.map_some, hlen]
  | cons s sections ih =>
    rw [selectSections, selectIndices, hlen]
    split_ifs
    · exact ih _ (by rw [List.length_append, List.length_append, hlen]; rfl)
    · rfl
    · exact ih _ hlen

/-- The indices are in the array, at sections that run in this order. -/
theorem mem_sectionsFrom {j : Nat} :
    j ∈ sectionsFrom order i sections ↔
      ∃ m s, j = i + m ∧ sections[m]? = some s ∧ s.runsIn order = true := by
  induction sections generalizing i with
  | nil => exact iff_of_false List.not_mem_nil (by rintro ⟨m, s, -, h, -⟩; cases h)
  | cons s sections ih =>
    have hcons : (∃ m t, j = i + m ∧ (s :: sections)[m]? = some t ∧ t.runsIn order = true) ↔
        (j = i ∧ s.runsIn order = true) ∨
          ∃ m t, j = i + 1 + m ∧ sections[m]? = some t ∧ t.runsIn order = true := by
      constructor
      · rintro ⟨_ | m, t, rfl, hget, hruns⟩
        · cases hget
          exact .inl ⟨rfl, hruns⟩
        · exact .inr ⟨m, t, by omega, hget, hruns⟩
      · rintro (⟨rfl, hruns⟩ | ⟨m, t, rfl, hget, hruns⟩)
        · exact ⟨0, s, rfl, rfl, hruns⟩
        · exact ⟨m + 1, t, by omega, hget, hruns⟩
    rw [sectionsFrom, hcons]
    split_ifs with hruns
    · rw [List.mem_cons, ih]
      simp only [hruns, and_true]
    · rw [ih, or_iff_right fun h => hruns h.2]

/-- A section is listed once. -/
theorem nodup_sectionsFrom : (sectionsFrom order i sections).Nodup := by
  induction sections generalizing i with
  | nil => exact List.nodup_nil
  | cons s sections ih =>
    rw [sectionsFrom]
    split_ifs
    · refine List.nodup_cons.mpr ⟨fun hmem => ?_, ih⟩
      obtain ⟨m, -, hm, -⟩ := mem_sectionsFrom.mp hmem
      omega
    · exact ih

end Select

/-! ## A call -/

/-- The loop over the orders from `order` on, after `numSectionsRun` sections: the batches that run
and the value that is returned. One section runs in the thread of the call. -/
def processOrders (graph : KernelGraph) :
    Nat → BitVec 32 → BitVec 32 → Option (List (List Nat) × BitVec 32)
  | 0, _, _ => none
  | fuel + 1, order, numSectionsRun =>
    match selectIndices order 0 graph.sections [] with
    | none => some ([], numSectionsRun)
    | some [] => some ([], numSectionsRun)
    | some [i] =>
      (processOrders graph fuel (order + 1) (numSectionsRun + 1)).map fun (batches, ret) =>
        ([i] :: batches, ret)
    | some ppSections =>
      (processOrders graph fuel (order + 1)
          (numSectionsRun + BitVec.ofNat 32 ppSections.length)).map fun (batches, ret) =>
        (ppSections :: batches, ret)

namespace KernelGraph

/-- The indices of the sections that run in this order. -/
def sectionsIn (graph : KernelGraph) (order : BitVec 32) : List Nat :=
  sectionsFrom order 0 graph.sections

/-- A section follows in the array after `MAX_SECTIONS` that run in this order. -/
def Overfull (graph : KernelGraph) (order : BitVec 32) : Prop :=
  FollowedAfter maxSections order graph.sections

/-- The sections of the first `n` orders. -/
def batches (graph : KernelGraph) (n : Nat) : List (List Nat) :=
  (List.range n).map fun order => graph.sectionsIn (BitVec.ofNat 32 order)

variable {graph : KernelGraph} {order : BitVec 32} {i n : Nat}

/-- The sections of an order are those that run in it. -/
theorem mem_sectionsIn :
    i ∈ graph.sectionsIn order ↔
      ∃ s, graph.sections[i]? = some s ∧ s.order = order ∧ s.skipSection = false := by
  rw [sectionsIn, mem_sectionsFrom]
  constructor
  · rintro ⟨m, s, rfl, hget, hruns⟩
    exact ⟨s, by rwa [Nat.zero_add], runsIn_iff.mp hruns⟩
  · rintro ⟨s, hget, hruns⟩
    exact ⟨i, s, (Nat.zero_add i).symm, hget, runsIn_iff.mpr hruns⟩

/-- A section that runs in one order runs in no other. -/
theorem sectionsIn_disjoint {order' : BitVec 32} (h : order ≠ order') :
    (graph.sectionsIn order).Disjoint (graph.sectionsIn order') := by
  intro i hi hi'
  obtain ⟨s, hget, horder, -⟩ := mem_sectionsIn.mp hi
  obtain ⟨s', hget', horder', -⟩ := mem_sectionsIn.mp hi'
  obtain rfl := Option.some.inj (hget.symm.trans hget')
  exact h (horder.symm.trans horder')

/-- Different orders below 2 ^ 32 stay different. -/
theorem ofNat_order_ne {a b : Nat} (h : a < b) (hb : b < 2 ^ 32) :
    BitVec.ofNat 32 a ≠ BitVec.ofNat 32 b := by
  intro heq
  have hnat := congrArg BitVec.toNat heq
  rw [BitVec.toNat_ofNat, BitVec.toNat_ofNat] at hnat
  omega

/-- As long as the order has not wrapped, no section is in two batches. -/
theorem nodup_flatten_batches (hn : n ≤ 2 ^ 32) : (graph.batches n).flatten.Nodup := by
  refine List.nodup_flatten.mpr ⟨?_, ?_⟩
  · intro batch hbatch
    obtain ⟨order, -, rfl⟩ := List.mem_map.mp hbatch
    exact nodup_sectionsFrom
  · refine List.pairwise_map.mpr ((List.pairwise_lt_range (n := n)).imp_of_mem fun _ hb hlt => ?_)
    have hlt' := List.mem_range.mp hb
    exact sectionsIn_disjoint (ofNat_order_ne hlt (by omega))

/-- The batches have the sections of the orders that are reached. -/
theorem mem_flatten_batches (hn : n ≤ 2 ^ 32) :
    i ∈ (graph.batches n).flatten ↔
      ∃ s, graph.sections[i]? = some s ∧ s.order.toNat < n ∧ s.skipSection = false := by
  rw [List.mem_flatten]
  constructor
  · rintro ⟨batch, hbatch, hi⟩
    obtain ⟨order, horder, rfl⟩ := List.mem_map.mp hbatch
    obtain ⟨s, hget, heq, hskip⟩ := mem_sectionsIn.mp hi
    have hlt := List.mem_range.mp horder
    refine ⟨s, hget, ?_, hskip⟩
    rw [heq, BitVec.toNat_ofNat, Nat.mod_eq_of_lt (by omega)]
    exact hlt
  · rintro ⟨s, hget, hlt, hskip⟩
    refine ⟨_, List.mem_map.mpr ⟨s.order.toNat, List.mem_range.mpr hlt, rfl⟩, ?_⟩
    exact mem_sectionsIn.mpr ⟨s, hget, (by simp), hskip⟩

/-- There are no more sections to run than the array has. -/
theorem length_flatten_batches_le (graph : KernelGraph) (hn : n ≤ 2 ^ 32) :
    (graph.batches n).flatten.length ≤ graph.sections.length := by
  have hsub : (graph.batches n).flatten ⊆ List.range graph.sections.length := by
    intro i hi
    obtain ⟨s, hget, -⟩ := (mem_flatten_batches hn).mp hi
    exact List.mem_range.mpr (List.getElem?_eq_some_iff.mp hget).1
  have hle := ((nodup_flatten_batches hn).subperm hsub).length_le
  rwa [List.length_range] at hle

/-- The next order adds a batch. -/
theorem batches_succ :
    graph.batches (n + 1) = graph.batches n ++ [graph.sectionsIn (BitVec.ofNat 32 n)] := by
  rw [batches, List.range_succ, List.map_append]
  rfl

/-- The first batches are those of fewer orders. -/
theorem take_batches {m : Nat} (h : m ≤ n) : (graph.batches n).take m = graph.batches m := by
  rw [batches, batches, ← List.map_take, List.take_range, Nat.min_eq_left h]

/-- A call gets through an order that has sections to run and is not overfull. -/
def Runs (graph : KernelGraph) (order : BitVec 32) : Prop :=
  ¬graph.Overfull order ∧ graph.sectionsIn order ≠ []

/-- A call gets through no more orders than the array has sections. -/
theorem le_length_of_runs (hsize : graph.sections.length < 2 ^ 32)
    (h : ∀ order < n, graph.Runs (BitVec.ofNat 32 order)) : n ≤ graph.sections.length := by
  have hle : ∀ m ≤ n, m ≤ (graph.batches m).flatten.length := by
    intro m hm
    induction m with
    | zero => exact Nat.zero_le _
    | succ m ih =>
      have hpos := List.length_pos_iff.mpr (h m (by omega)).2
      rw [batches_succ, List.flatten_append, List.length_append, List.flatten_singleton]
      have := ih (by omega)
      omega
  -- Otherwise the first `sections.length + 1` orders run too many sections.
  by_contra hgt
  have hmany := hle (graph.sections.length + 1) (by omega)
  have hfew := length_flatten_batches_le graph (n := graph.sections.length + 1) (by omega)
  omega

/-- A round in an order that is not overfull collects the sections that run in it. -/
theorem selectIndices_eq (hoverfull : ¬graph.Overfull order) :
    selectIndices order 0 graph.sections [] = some (graph.sectionsIn order) :=
  selectIndices_eq_some (Nat.zero_le _) hoverfull

/-- The indices do not fit when there are more sections of an order than entries. -/
theorem selectIndices_eq_none :
    selectIndices order 0 graph.sections [] = none ↔ graph.Overfull order :=
  selectIndices_eq_none_iff (Nat.zero_le _)

/-- A round ends the call, or there is nothing to run in it. -/
theorem selectIndices_of_not_runs (h : ¬graph.Runs order) :
    selectIndices order 0 graph.sections [] = none ∨
      selectIndices order 0 graph.sections [] = some [] := by
  by_cases hoverfull : graph.Overfull order
  · exact .inl (selectIndices_eq_none.mpr hoverfull)
  · have hnil : graph.sectionsIn order = [] := by
      by_contra hne
      exact h ⟨hoverfull, hne⟩
    exact .inr ((selectIndices_eq hoverfull).trans (congrArg some hnil))

end KernelGraph

section Call

variable {graph : KernelGraph}

/-- An order that a call gets through. -/
theorem processOrders_of_runs {order : BitVec 32} (h : graph.Runs order) (fuel : Nat)
    (numSectionsRun : BitVec 32) :
    processOrders graph (fuel + 1) order numSectionsRun =
      (processOrders graph fuel (order + 1)
          (numSectionsRun + BitVec.ofNat 32 (graph.sectionsIn order).length)).map
        fun (batches, ret) => (graph.sectionsIn order :: batches, ret) := by
  rw [processOrders, graph.selectIndices_eq h.1]
  cases hsections : graph.sectionsIn order with
  | nil => exact absurd hsections h.2
  | cons i rest =>
    cases rest with
    | nil => rfl
    | cons j rest => rfl

/-- An order that ends the call. -/
theorem processOrders_of_not_runs {order : BitVec 32} (h : ¬graph.Runs order) (fuel : Nat)
    (numSectionsRun : BitVec 32) :
    processOrders graph (fuel + 1) order numSectionsRun = some ([], numSectionsRun) := by
  rw [processOrders]
  rcases KernelGraph.selectIndices_of_not_runs h with hselect | hselect
  · rw [hselect]
  · rw [hselect]

/-- Every call ends, at the first order that does not run, with the number of the sections in its
batches. -/
theorem processOrders_spec (hsize : graph.sections.length < 2 ^ 32) :
    ∃ n ≤ graph.sections.length, (∀ order < n, graph.Runs (BitVec.ofNat 32 order)) ∧
      ¬graph.Runs (BitVec.ofNat 32 n) ∧
      processOrders graph (graph.sections.length + 1) 0 0 =
        some (graph.batches n, BitVec.ofNat 32 (graph.batches n).flatten.length) := by
  -- from any order on, with the sections of the lower ones counted
  suffices h : ∀ fuel k, (∀ order < k, graph.Runs (BitVec.ofNat 32 order)) →
      graph.sections.length + 1 ≤ fuel + k →
      ∃ n, (∀ order < n, graph.Runs (BitVec.ofNat 32 order)) ∧ ¬graph.Runs (BitVec.ofNat 32 n) ∧
        ∃ rest, graph.batches n = graph.batches k ++ rest ∧
          processOrders graph fuel (BitVec.ofNat 32 k)
              (BitVec.ofNat 32 (graph.batches k).flatten.length) =
            some (rest, BitVec.ofNat 32 (graph.batches n).flatten.length) by
    obtain ⟨n, hruns, hstop, rest, hrest, hprocess⟩ :=
      h (graph.sections.length + 1) 0 (fun _ h => absurd h (Nat.not_lt_zero _)) (Nat.le_refl _)
    obtain rfl : graph.batches n = rest := hrest
    exact ⟨n, KernelGraph.le_length_of_runs hsize hruns, hruns, hstop, hprocess⟩
  intro fuel
  induction fuel with
  | zero =>
    intro k hruns hfuel
    have hle := KernelGraph.le_length_of_runs hsize hruns
    omega
  | succ fuel ih =>
    intro k hruns hfuel
    by_cases hk : graph.Runs (BitVec.ofNat 32 k)
    · obtain ⟨n, hruns', hstop, rest, hrest, hprocess⟩ := ih (k + 1) (fun order horder => by
        rcases Nat.lt_succ_iff_lt_or_eq.mp horder with hlt | rfl
        · exact hruns order hlt
        · exact hk) (by omega)
      refine ⟨n, hruns', hstop, graph.sectionsIn (BitVec.ofNat 32 k) :: rest, ?_, ?_⟩
      · rw [hrest, KernelGraph.batches_succ, List.append_assoc]
        rfl
      · have horder : BitVec.ofNat 32 k + 1 = BitVec.ofNat 32 (k + 1) := (BitVec.ofNat_add k 1).symm
        have hcount : BitVec.ofNat 32 (graph.batches k).flatten.length +
            BitVec.ofNat 32 (graph.sectionsIn (BitVec.ofNat 32 k)).length =
              BitVec.ofNat 32 (graph.batches (k + 1)).flatten.length := by
          rw [← BitVec.ofNat_add, KernelGraph.batches_succ, List.flatten_append, List.length_append,
            List.flatten_singleton]
        rw [processOrders_of_runs hk, horder, hcount, hprocess]
        rfl
    · exact ⟨k, hruns, hk, [], (List.append_nil _).symm, processOrders_of_not_runs hk _ _⟩

end Call

/-- The loop over the orders of a call, which goes through at most one order for each section. -/
def dvpKernelGraphProcess (graph : KernelGraph) : Option (List (List Nat) × BitVec 32) :=
  processOrders graph (graph.sections.length + 1) 0 0

/-! ## What a call executes -/

/-- The section with the index `i` starts, or it has completed. -/
inductive SectionEvent where
  | start (i : Nat)
  | complete (i : Nat)
  deriving DecidableEq, Repr

namespace SectionEvent

/-- The section that an event starts. -/
def started : SectionEvent → Option Nat
  | .start i => some i
  | .complete _ => none

/-- The section that an event completes. -/
def completed : SectionEvent → Option Nat
  | .start _ => none
  | .complete i => some i

variable {events : List SectionEvent} {i : Nat}

/-- How often a section starts is how often it is among those that start. -/
theorem count_start : events.count (.start i) = (events.filterMap started).count i := by
  rw [List.count_filterMap, List.count]
  exact List.countP_congr fun e _ => by cases e <;> simp [started]

/-- How often a section completes is how often it is among those that complete. -/
theorem count_complete : events.count (.complete i) = (events.filterMap completed).count i := by
  rw [List.count_filterMap, List.count]
  exact List.countP_congr fun e _ => by cases e <;> simp [completed]

/-- A section starts when it is among those that start. -/
theorem start_mem_iff : .start i ∈ events ↔ i ∈ events.filterMap started := by
  rw [← List.count_pos_iff, count_start, List.count_pos_iff]

/-- A section completes when it is among those that complete. -/
theorem complete_mem_iff : .complete i ∈ events ↔ i ∈ events.filterMap completed := by
  rw [← List.count_pos_iff, count_complete, List.count_pos_iff]

end SectionEvent

/-- What happens when a batch runs: each of its sections starts once and completes once, after its
start. -/
structure BatchEvents (batch : List Nat) (events : List SectionEvent) : Prop where
  starts : (events.filterMap SectionEvent.started).Perm batch
  completes : (events.filterMap SectionEvent.completed).Perm batch
  nested : ∀ before i after, events = before ++ .complete i :: after → .start i ∈ before

/-- What happens in a call: each batch has completed before the next one starts. -/
def CallEvents : List (List Nat) → List SectionEvent → Prop
  | [], events => events = []
  | batch :: batches, events =>
    ∃ now later, events = now ++ later ∧ BatchEvents batch now ∧ CallEvents batches later

/-- What is expected of a call: the sections that are not skipped run once, a section does not start
before those of lower orders have completed, and the sections are counted. -/
structure ProcessSound (graph : KernelGraph) (events : List SectionEvent) (ret : BitVec 32) : Prop where
  once : ∀ i s, graph.sections[i]? = some s → s.skipSection = false →
    events.count (.start i) = 1 ∧ events.count (.complete i) = 1
  inOrder : ∀ i s j t before after, graph.sections[i]? = some s → graph.sections[j]? = some t →
    s.skipSection = false → s.order < t.order → events = before ++ .start j :: after →
    .complete i ∈ before
  counted : ret.toNat = (events.filterMap SectionEvent.started).length

/-- The orders of the sections that are not skipped are those below some order, and no section
follows in the array after `MAX_SECTIONS` of one order. -/
structure OrdersRun (graph : KernelGraph) : Prop where
  noGap : ∀ s ∈ graph.sections, s.skipSection = false → ∀ order < s.order,
    ∃ t ∈ graph.sections, t.skipSection = false ∧ t.order = order
  notOverfull : ∀ order, ¬graph.Overfull order

namespace CallEvents

variable {batches before after : List (List Nat)} {events : List SectionEvent}

/-- The events of two runs of batches are those of the first and then those of the second. -/
theorem append_iff :
    CallEvents (before ++ after) events ↔
      ∃ now later, events = now ++ later ∧ CallEvents before now ∧ CallEvents after later := by
  induction before generalizing events with
  | nil =>
    constructor
    · exact fun h => ⟨[], events, rfl, rfl, h⟩
    · rintro ⟨_, later, rfl, rfl, h⟩
      exact h
  | cons batch before ih =>
    constructor
    · rintro ⟨first, rest, rfl, hbatch, hrest⟩
      obtain ⟨now, later, rfl, hnow, hlater⟩ := ih.mp hrest
      exact ⟨first ++ now, later, (List.append_assoc ..).symm, ⟨first, now, rfl, hbatch, hnow⟩, hlater⟩
    · rintro ⟨_, later, rfl, ⟨first, now, rfl, hbatch, hnow⟩, hlater⟩
      exact ⟨first, now ++ later, List.append_assoc .., hbatch, ih.mpr ⟨now, later, rfl, hnow, hlater⟩⟩

/-- Each section of the batches starts once. -/
theorem starts (h : CallEvents batches events) :
    (events.filterMap SectionEvent.started).Perm batches.flatten := by
  induction batches generalizing events with
  | nil =>
    obtain rfl : events = [] := h
    exact .refl _
  | cons batch batches ih =>
    obtain ⟨now, later, rfl, hnow, hlater⟩ := h
    rw [List.filterMap_append, List.flatten_cons]
    exact hnow.starts.append (ih hlater)

/-- Each section of the batches completes once. -/
theorem completes (h : CallEvents batches events) :
    (events.filterMap SectionEvent.completed).Perm batches.flatten := by
  induction batches generalizing events with
  | nil =>
    obtain rfl : events = [] := h
    exact .refl _
  | cons batch batches ih =>
    obtain ⟨now, later, rfl, hnow, hlater⟩ := h
    rw [List.filterMap_append, List.flatten_cons]
    exact hnow.completes.append (ih hlater)

/-- The batches can run: one section after the other. -/
theorem exists_events (batches : List (List Nat)) : ∃ events, CallEvents batches events := by
  induction batches with
  | nil => exact ⟨[], rfl⟩
  | cons batch batches ih =>
    obtain ⟨later, hlater⟩ := ih
    suffices h : ∃ now, BatchEvents batch now by
      obtain ⟨now, hnow⟩ := h
      exact ⟨now ++ later, now, later, rfl, hnow, hlater⟩
    induction batch with
    | nil => exact ⟨[], .refl _, .refl _, fun before _ _ h => by cases before <;> cases h⟩
    | cons i batch ih =>
      obtain ⟨now, hstarts, hcompletes, hnested⟩ := ih
      refine ⟨.start i :: .complete i :: now, hstarts.cons i, hcompletes.cons i, ?_⟩
      intro before j after h
      rcases before with _ | ⟨e, _ | ⟨e', before⟩⟩
      · cases h
      · cases h
        exact List.mem_singleton_self _
      · obtain ⟨-, hrest⟩ := List.cons.inj h
        obtain ⟨-, hrest⟩ := List.cons.inj hrest
        exact List.mem_cons_of_mem _ (List.mem_cons_of_mem _ (hnested before j after hrest))

/-- A section does not start before those of the batches before its own have completed. -/
theorem complete_mem_of_start (h : CallEvents (before ++ after) events) {i j : Nat}
    (hi : i ∈ before.flatten) (hj : j ∉ before.flatten) {earlier later : List SectionEvent}
    (hevents : events = earlier ++ .start j :: later) : .complete i ∈ earlier := by
  obtain ⟨now, rest, rfl, hnow, -⟩ := append_iff.mp h
  have hcomplete : .complete i ∈ now :=
    SectionEvent.complete_mem_iff.mpr (hnow.completes.mem_iff.mpr hi)
  have hstart : .start j ∉ now := fun hmem =>
    hj (hnow.starts.mem_iff.mp (SectionEvent.start_mem_iff.mp hmem))
  rcases List.append_eq_append_iff.mp hevents with ⟨more, rfl, -⟩ | ⟨more, rfl, hmore⟩
  · exact List.mem_append_left _ hcomplete
  · -- The start of `j` is not among the events of `before`.
    cases more with
    | nil => rwa [List.append_nil] at hcomplete
    | cons e more =>
      obtain ⟨rfl, -⟩ := List.cons.inj hmore
      exact absurd (List.mem_append_right _ List.mem_cons_self) hstart

end CallEvents

section Execute

variable {graph : KernelGraph} {events : List SectionEvent} {n : Nat}

/-- The batches run in the order of their sections. -/
theorem KernelGraph.batches_inOrder (hn : n ≤ 2 ^ 32) (h : CallEvents (graph.batches n) events)
    {i j : Nat} {s t : KernelGraphSection} (hi : graph.sections[i]? = some s)
    (hj : graph.sections[j]? = some t) (hskip : s.skipSection = false) (hlt : s.order < t.order)
    {before after : List SectionEvent} (hevents : events = before ++ .start j :: after) :
    .complete i ∈ before := by
  have hmem : j ∈ (graph.batches n).flatten := by
    refine h.starts.mem_iff.mp (SectionEvent.start_mem_iff.mp ?_)
    rw [hevents]
    exact List.mem_append_right _ List.mem_cons_self
  obtain ⟨t', hj', horder, -⟩ := (KernelGraph.mem_flatten_batches hn).mp hmem
  obtain rfl := Option.some.inj (hj.symm.trans hj')
  have hlt' : s.order.toNat < t.order.toNat := hlt
  -- The batches up to the order of `j` are those before its own.
  rw [← List.take_append_drop t.order.toNat (graph.batches n),
    KernelGraph.take_batches (Nat.le_of_lt horder)] at h
  refine h.complete_mem_of_start ?_ (fun hmem => ?_) hevents
  · exact (KernelGraph.mem_flatten_batches (by omega)).mpr ⟨s, hi, hlt', hskip⟩
  · obtain ⟨t', hj', horder', -⟩ := (KernelGraph.mem_flatten_batches (by omega)).mp hmem
    obtain rfl := Option.some.inj (hj.symm.trans hj')
    exact Nat.lt_irrefl _ horder'

/-- A call that gets through all orders below `n` does what is expected if no section that is not
skipped has another order. -/
theorem processSound_batches_iff (hn : n < 2 ^ 32) (h : CallEvents (graph.batches n) events)
    (hcount : (graph.batches n).flatten.length < 2 ^ 32) :
    ProcessSound graph events (BitVec.ofNat 32 (graph.batches n).flatten.length) ↔
      ∀ s ∈ graph.sections, s.skipSection = false → s.order.toNat < n := by
  constructor
  · intro hsound s hs hskip
    obtain ⟨i, hi⟩ := List.mem_iff_getElem?.mp hs
    have hone := (hsound.once i s hi hskip).1
    rw [SectionEvent.count_start, h.starts.count_eq] at hone
    have hmem : i ∈ (graph.batches n).flatten := by
      rw [← List.count_pos_iff, hone]
      exact Nat.one_pos
    obtain ⟨s', hi', horder, -⟩ := (KernelGraph.mem_flatten_batches (Nat.le_of_lt hn)).mp hmem
    obtain rfl := Option.some.inj (hi.symm.trans hi')
    exact horder
  · intro hall
    constructor
    · intro i s hi hskip
      have hmem : i ∈ (graph.batches n).flatten :=
        (KernelGraph.mem_flatten_batches (Nat.le_of_lt hn)).mpr
          ⟨s, hi, hall s (List.mem_of_getElem? hi) hskip, hskip⟩
      have hone := List.count_eq_one_of_mem
        (KernelGraph.nodup_flatten_batches (Nat.le_of_lt hn)) hmem
      rw [SectionEvent.count_start, SectionEvent.count_complete, h.starts.count_eq,
        h.completes.count_eq]
      exact ⟨hone, hone⟩
    · exact fun i s j t before after hi hj hskip hlt =>
        KernelGraph.batches_inOrder (Nat.le_of_lt hn) h hi hj hskip hlt
    · rw [BitVec.toNat_ofNat, Nat.mod_eq_of_lt hcount]
      exact h.starts.length_eq.symm

/-- A call that stops at the order `n` has got through the orders of all sections exactly when these
have no gap and none of them is overfull. -/
theorem ordersRun_iff (hn : n < 2 ^ 32) (hruns : ∀ order < n, graph.Runs (BitVec.ofNat 32 order))
    (hstop : ¬graph.Runs (BitVec.ofNat 32 n)) :
    OrdersRun graph ↔ ∀ s ∈ graph.sections, s.skipSection = false → s.order.toNat < n := by
  constructor
  · intro h s hs hskip
    by_contra hge
    -- A section runs in the order `n`, since there is no gap below `s.order`.
    refine hstop ⟨h.notOverfull _, ?_⟩
    obtain ⟨t, ht, htskip, htorder⟩ : ∃ t ∈ graph.sections, t.skipSection = false ∧
        t.order = BitVec.ofNat 32 n := by
      rcases Nat.eq_or_lt_of_le (Nat.not_lt.mp hge) with heq | hlt
      · exact ⟨s, hs, hskip, by rw [heq]; simp⟩
      · refine h.noGap s hs hskip _ ?_
        rw [BitVec.lt_def, BitVec.toNat_ofNat, Nat.mod_eq_of_lt hn]
        exact hlt
    obtain ⟨i, hi⟩ := List.mem_iff_getElem?.mp ht
    exact List.ne_nil_of_mem (KernelGraph.mem_sectionsIn.mpr ⟨t, hi, htorder, htskip⟩)
  · intro hall
    constructor
    · intro s hs hskip order horder
      have hlt : order.toNat < n := Nat.lt_trans horder (hall s hs hskip)
      obtain ⟨i, hi⟩ := List.exists_mem_of_ne_nil _ (hruns _ hlt).2
      obtain ⟨t, hget, htorder, htskip⟩ := KernelGraph.mem_sectionsIn.mp hi
      exact ⟨t, List.mem_of_getElem? hget, htskip, htorder.trans (by simp)⟩
    · intro order hoverfull
      -- One of the sections that make the order overfull runs in it, so the call got through it.
      obtain ⟨before, s, after, hsections, hcount⟩ := hoverfull
      obtain ⟨t, ht, htruns⟩ := List.countP_pos_iff.mp (Nat.lt_of_lt_of_le (by decide) hcount)
      obtain ⟨htorder, htskip⟩ := runsIn_iff.mp htruns
      have hmem : t ∈ graph.sections := by
        rw [hsections]
        exact List.mem_append_left _ ht
      have hlt := hall t hmem htskip
      refine (hruns _ hlt).1 ?_
      rw [htorder, BitVec.ofNat_toNat, BitVec.setWidth_eq]
      exact ⟨before, s, after, hsections, hcount⟩

/-- Every call ends, its batches can run, and in whatever way they run, the call does what is expected
exactly when the orders have no gap and no section follows in the array after `MAX_SECTIONS` of one
order. -/
theorem process_executes_iff (hsize : graph.sections.length < 2 ^ 32) :
    ∃ batches ret, dvpKernelGraphProcess graph = some (batches, ret) ∧
      (∃ events, CallEvents batches events) ∧
      ∀ events, CallEvents batches events → (ProcessSound graph events ret ↔ OrdersRun graph) := by
  obtain ⟨n, hle, hruns, hstop, hprocess⟩ := processOrders_spec hsize
  refine ⟨_, _, hprocess, CallEvents.exists_events _, fun events hevents => ?_⟩
  have hn : n < 2 ^ 32 := Nat.lt_of_le_of_lt hle hsize
  have hcount := KernelGraph.length_flatten_batches_le graph (Nat.le_of_lt hn)
  rw [processSound_batches_iff hn hevents (by omega), ordersRun_iff hn hruns hstop]

end Execute

/-- A graph of three sections in two orders. -/
def twoOrders : KernelGraph := ⟨[⟨1, false, 1⟩, ⟨2, false, 0⟩, ⟨3, false, 0⟩]⟩

/-- A graph with sections of the orders 0 and 2, of which the second ones do not run. -/
theorem process_executes_iff_twoOrders :
    twoOrders.sections.length < 2 ^ 32 ∧
    ∃ batches ret, dvpKernelGraphProcess twoOrders = some (batches, ret) ∧
      (∃ events, CallEvents batches events) ∧
      ∀ events, CallEvents batches events →
        (ProcessSound twoOrders events ret ↔ OrdersRun twoOrders) :=
  ⟨by decide, process_executes_iff (by decide)⟩

/-- A graph whose sections have the orders 0 and 2. -/
def gapInOrders : KernelGraph := ⟨[⟨1, false, 0⟩, ⟨1, false, 2⟩]⟩

/-- The section of order 2 does not run when there is none of order 1. -/
theorem process_skips_after_gap :
    ¬∀ graph : KernelGraph, graph.sections.length < 2 ^ 32 →
      (∀ order, (graph.sectionsIn order).length ≤ maxSections) →
      ∀ batches ret events, dvpKernelGraphProcess graph = some (batches, ret) →
        CallEvents batches events → ProcessSound graph events ret := by
  intro h
  have hfew : ∀ order, (gapInOrders.sectionsIn order).length ≤ maxSections := fun order => by
    have hsub : gapInOrders.sectionsIn order ⊆ List.range 2 := fun i hi => by
      obtain ⟨s, hget, -⟩ := KernelGraph.mem_sectionsIn.mp hi
      exact List.mem_range.mpr (List.getElem?_eq_some_iff.mp hget).1
    have hle := (nodup_sectionsFrom.subperm hsub).length_le
    exact Nat.le_trans hle (by decide)
  have hbatch : BatchEvents [0] [.start 0, .complete 0] := by
    refine ⟨.refl _, .refl _, fun before i after hevents => ?_⟩
    rcases before with _ | ⟨e, _ | ⟨e', before⟩⟩
    · cases hevents
    · cases hevents
      exact List.mem_singleton_self _
    · cases before <;> cases hevents
  have hsound := h gapInOrders (by decide) hfew [[0]] 1 [.start 0, .complete 0] (by decide)
    ⟨_, [], rfl, hbatch, rfl⟩
  exact absurd (hsound.once 1 ⟨1, false, 2⟩ rfl rfl).1 (by decide)

end DVP.Kgraph
