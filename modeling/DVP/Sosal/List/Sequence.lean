import DVP.Lib.Run
import DVP.Sosal.List.Spec

/-!
# The list as a sequence

A list is used as a sequence of nodes. `ListRefines` says what each function does to that sequence,
and `list_refines_sequence` that this is all that happens over any sequence of calls whose callers
pass nodes the function may be given (`ListCall`). `listInsert_sorted` is the insertion of a node
into a sorted list.
-/

namespace DVP.Sosal

variable {D K : Type} {m : NodeMem D} {l : LinkedList} {ns ps : List Ptr} {x : Ptr}

/-! ## Comparisons that order the nodes -/

/-- The results `cmp` are those of a total preorder of the nodes `ps`: swapping the nodes swaps the
sign, and "at most `0`" is transitive. -/
structure TotalPreorder (cmp : Ptr → Ptr → Int) (ps : List Ptr) : Prop where
  swap : ∀ p ∈ ps, ∀ q ∈ ps, cmp p q < 0 ↔ 0 < cmp q p
  trans : ∀ p ∈ ps, ∀ q ∈ ps, ∀ r ∈ ps, cmp p q ≤ 0 → cmp q r ≤ 0 → cmp p r ≤ 0

/-- The comparison of the nodes `ps` has the results `cmp`, and any of them compares equal to
`NULL`. -/
structure ComparesNodes (m : NodeMem D) (compare : NodeCompare D) (cmp : Ptr → Ptr → Int)
    (ps : List Ptr) : Prop where
  some : ∀ p ∈ ps, ∀ q ∈ ps, compare m p (some q) = .ok (cmp p q)
  null : ∀ p ∈ ps, compare m p none = .ok 0

/-- No node comes before an earlier one, in the direction given. -/
def SortedBy (cmp : Ptr → Ptr → Int) (sortAscending : Bool) (ns : List Ptr) : Prop :=
  ns.Pairwise fun a b => isBeforeEq sortAscending (cmp a b) = true

/-- The preorder of the results, with the nodes outside `ps` above all others. -/
def cmpLe (cmp : Ptr → Ptr → Int) (sortAscending : Bool) (ps : List Ptr) (a b : Ptr) : Bool :=
  decide (b ∉ ps) || (decide (a ∈ ps) && isBeforeEq sortAscending (cmp a b))

variable {cmp : Ptr → Ptr → Int} {compare : NodeCompare D} {sortAscending : Bool}

/-- For the nodes of the list the order is that of the comparison. -/
theorem cmpLe_of_mem {a b : Ptr} (ha : a ∈ ps) (hb : b ∈ ps) :
    cmpLe cmp sortAscending ps a b = isBeforeEq sortAscending (cmp a b) := by
  simp [cmpLe, ha, hb]

namespace TotalPreorder

/-- Results with the signs of the differences of ranks are those of a total preorder. -/
theorem of_orders {rank : Ptr → Nat}
    (h : ∀ p ∈ ps, ∀ q ∈ ps, Orders (rank p) (rank q) (cmp p q)) : TotalPreorder cmp ps where
  swap p hp q hq := by
    have hpq := h p hp q hq
    have hqp := h q hq p hp
    have := hpq.lt
    have := hqp.lt
    have := hqp.eq
    omega
  trans p hp q hq r hr hpq hqr := by
    have := (h p hp q hq).lt
    have := (h p hp q hq).eq
    have := (h q hq r hr).lt
    have := (h q hq r hr).eq
    have := (h p hp r hr).lt
    have := (h p hp r hr).eq
    omega

/-- Any two nodes can be compared. -/
theorem total (h : TotalPreorder cmp ps) (a b : Ptr) :
    cmpLe cmp sortAscending ps a b = true ∨ cmpLe cmp sortAscending ps b a = true := by
  by_cases ha : a ∈ ps
  · by_cases hb : b ∈ ps
    · rw [cmpLe_of_mem ha hb, cmpLe_of_mem hb ha]
      have hab := h.swap a ha b hb
      have hba := h.swap b hb a ha
      cases sortAscending
      · simp only [isBeforeEq, Bool.false_eq_true, if_false, decide_eq_true_eq]
        omega
      · simp only [isBeforeEq, if_true, decide_eq_true_eq]
        omega
    · left
      simp [cmpLe, hb]
  · right
    simp [cmpLe, ha]

/-- The order of the nodes is transitive. -/
theorem trans_le (h : TotalPreorder cmp ps) (a b c : Ptr)
    (hab : cmpLe cmp sortAscending ps a b = true) (hbc : cmpLe cmp sortAscending ps b c = true) :
    cmpLe cmp sortAscending ps a c = true := by
  by_cases hc : c ∈ ps
  · -- what is below a node of `ps` is a node of `ps`
    have hb : b ∈ ps := by
      by_contra hb
      simp [cmpLe, hb, hc] at hbc
    have ha : a ∈ ps := by
      by_contra ha
      simp [cmpLe, ha, hb] at hab
    rw [cmpLe_of_mem ha hb] at hab
    rw [cmpLe_of_mem hb hc] at hbc
    rw [cmpLe_of_mem ha hc]
    cases sortAscending
    · simp only [isBeforeEq, Bool.false_eq_true, if_false, decide_eq_true_eq] at hab hbc ⊢
      have := h.swap a ha b hb
      have := h.swap b hb c hc
      have := h.swap a ha c hc
      have := h.trans c hc b hb a ha
      have := h.swap b hb a ha
      have := h.swap c hc b hb
      have := h.swap c hc a ha
      omega
    · simp only [isBeforeEq, if_true, decide_eq_true_eq] at hab hbc ⊢
      exact h.trans a ha b hb c hc hab hbc
  · simp [cmpLe, hc]

/-- The tests of `list_insert` decide the preorder. -/
theorem compares (h : TotalPreorder cmp ps) (sortAscending : Bool)
    (hcmp : ComparesNodes m compare cmp ps) :
    Compares m compare sortAscending (cmpLe cmp sortAscending ps) ps := by
  refine ⟨fun p hp q hq => ⟨cmp p q, hcmp.some p hp q hq, ?_, ?_⟩, hcmp.null⟩
  · rw [cmpLe_of_mem hq hp]
    have hpq := h.swap p hp q hq
    have hqp := h.swap q hq p hp
    cases sortAscending
    · simp only [isBefore, isBeforeEq, Bool.false_eq_true, if_false, ← decide_not, decide_eq_decide]
      omega
    · simp only [isBefore, isBeforeEq, if_true, ← decide_not, decide_eq_decide]
      omega
  · rw [cmpLe_of_mem hp hq]

/-- A list is sorted when its nodes are in order. -/
theorem sortedBy_iff (ps : List Ptr) (hsub : ∀ p ∈ ns, p ∈ ps) :
    SortedBy cmp sortAscending ns ↔
      ns.Pairwise fun a b => cmpLe cmp sortAscending ps a b = true := by
  unfold SortedBy
  constructor
  · intro hsorted
    refine hsorted.imp_of_mem ?_
    intro a b ha hb hab
    rwa [cmpLe_of_mem (hsub a ha) (hsub b hb)]
  · intro hsorted
    refine hsorted.imp_of_mem ?_
    intro a b ha hb hab
    rwa [cmpLe_of_mem (hsub a ha) (hsub b hb)] at hab

end TotalPreorder

/-- `node_sorter`, on numbers. -/
def nodeSorter : NodeCompare Nat
  | m, a, some b => do
    let a ← m.read (some a)
    let b ← m.read (some b)
    return if a.data < b.data then -1 else if a.data = b.data then 0 else 1
  | _, _, none => .ok 0

/-- The results of `node_sorter`, from the numbers in the nodes. -/
def sorterCmp (rank : Ptr → Nat) (p q : Ptr) : Int :=
  if rank p < rank q then -1 else if rank p = rank q then 0 else 1

/-- The results of `node_sorter` are those for the numbers. -/
theorem sorterCmp_orders (rank : Ptr → Nat) (p q : Ptr) :
    Orders (rank p) (rank q) (sorterCmp rank p q) := by
  unfold sorterCmp
  constructor
  · split_ifs <;> simp <;> omega
  · split_ifs <;> simp <;> omega

/-- The order of the numbers is a total preorder of the nodes. -/
theorem totalPreorder_sorterCmp (rank : Ptr → Nat) (ps : List Ptr) :
    TotalPreorder (sorterCmp rank) ps :=
  .of_orders fun p _ q _ => sorterCmp_orders rank p q

/-- `node_sorter` compares nodes as their numbers. -/
theorem comparesNodes_nodeSorter {m : NodeMem Nat} {rank : Ptr → Nat}
    (hdata : ∀ p ∈ ps, m.data p = some (rank p)) :
    ComparesNodes m nodeSorter (sorterCmp rank) ps := by
  refine ⟨fun p hp q hq => ?_, fun _ _ => rfl⟩
  obtain ⟨a, ha, hpa⟩ := Option.map_eq_some_iff.mp (hdata p hp)
  obtain ⟨b, hb, hqb⟩ := Option.map_eq_some_iff.mp (hdata q hq)
  simp only [nodeSorter, NodeMem.read, ha, hb, ok_bind, pure_eq_ok, hpa, hqb, sorterCmp]

/-- `list_insert` into a list that is sorted in the same direction inserts the node, at a place
that keeps the list sorted. -/
theorem listInsert_sorted (h : ListHolds m l ns) (hx : x ∉ ns) (hax : m.Alive x)
    (horder : TotalPreorder cmp (x :: ns)) (hcmp : ComparesNodes m compare cmp (x :: ns))
    (hsorted : SortedBy cmp sortAscending ns) :
    ∃ m' l' xs ys, listInsert m l x compare sortAscending = .ok (m', l', some x) ∧
      ns = xs ++ ys ∧ ListHolds m' l' (xs ++ x :: ys) ∧ Frame m m' (xs ++ x :: ys) ∧
      SortedBy cmp sortAscending (xs ++ x :: ys) := by
  have hle := (TotalPreorder.sortedBy_iff (x :: ns) fun p hp => List.mem_cons_of_mem x hp).mp hsorted
  obtain ⟨m', l', xs, ys, hins, ⟨hsplit, -⟩, hholds, hframe, hsorted'⟩ :=
    listInsert_spec h hx hax (horder.compares sortAscending hcmp) horder.total horder.trans_le hle
  refine ⟨m', l', xs, ys, hins, hsplit, hholds, hframe, ?_⟩
  -- the nodes of the longer list are the node and those of the shorter one
  apply (TotalPreorder.sortedBy_iff (x :: ns) _).mpr hsorted'
  intro p hp
  rw [hsplit]
  simp only [List.mem_append, List.mem_cons] at hp ⊢
  tauto

/-- The memory with the nodes of a list. -/
def listedNodes (nodes : List (Node Nat)) : NodeMem Nat := ⟨nodes.length, fun p => nodes[p]?⟩

/-- There are no other nodes. -/
theorem listedNodes_bounded (nodes : List (Node Nat)) : (listedNodes nodes).Bounded := by
  intro p hp
  by_contra hge
  have hnone : (listedNodes nodes).node p = none := List.getElem?_eq_none (Nat.le_of_not_lt hge)
  simp [NodeMem.Alive, hnone] at hp

/-- The nodes of `2` and `9`, which are linked, and that of `5`. -/
def linkedNodes : NodeMem Nat := listedNodes [⟨some 1, none, 2⟩, ⟨none, some 0, 9⟩, ⟨none, none, 5⟩]

/-- The list of `2` and `9`. -/
def twoLinked : LinkedList := ⟨some 0, some 1⟩

/-- The list of two nodes is well formed. -/
theorem twoLinked_holds : ListHolds linkedNodes twoLinked [0, 1] :=
  ⟨rfl, rfl, by decide, ⟨rfl, rfl, trivial⟩, listedNodes_bounded _⟩

/-- The numbers of these nodes. -/
def linkedRanks (p : Ptr) : Nat := [2, 9, 5].getD p 0

/-- `5` goes between `2` and `9`. -/
theorem listInsert_sorted_two :
    ∃ m' l' xs ys, listInsert linkedNodes twoLinked 2 nodeSorter true = .ok (m', l', some 2) ∧
      [0, 1] = xs ++ ys ∧ ListHolds m' l' (xs ++ 2 :: ys) ∧ Frame linkedNodes m' (xs ++ 2 :: ys) ∧
      SortedBy (sorterCmp linkedRanks) true (xs ++ 2 :: ys) :=
  listInsert_sorted twoLinked_holds (by decide) rfl (totalPreorder_sorterCmp _ _)
    (comparesNodes_nodeSorter (by decide)) (List.pairwise_pair.mpr (by decide))

/-! ## Calls -/

/-- A call of a function of the list, with its arguments. -/
inductive ListOp (D K : Type) where
  | append (node : Option Ptr)
  | trim
  | push (node : Ptr)
  | pop
  | insert (node : Ptr) (compare : NodeCompare D) (sortAscending : Bool)
  | extract (node : Option Ptr)
  | removeMatch (node : Option K) (compare : NodeMatch D K)
  | search (node : Option K) (compare : NodeMatch D K)

/-- A call on a list. Functions that return nothing answer `NULL`. -/
def listStep (s : NodeMem D × LinkedList) :
    ListOp D K → Except Fault ((NodeMem D × LinkedList) × Option Ptr)
  | .append node => do
    let (m, l) ← listAppend s.1 s.2 node
    return ((m, l), none)
  | .trim => do
    let (m, l, node) ← listTrim s.1 s.2
    return ((m, l), node)
  | .push node => do
    let (m, l) ← listPush s.1 s.2 node
    return ((m, l), none)
  | .pop => do
    let (m, l, node) ← listPop s.1 s.2
    return ((m, l), node)
  | .insert node compare sortAscending => do
    let (m, l, node) ← listInsert s.1 s.2 node compare sortAscending
    return ((m, l), node)
  | .extract node => do
    let (m, l, node) ← listExtract s.1 s.2 node
    return ((m, l), node)
  -- `list_search` tests its node, and `list_remove_match` takes out what it finds
  | .removeMatch none _ => .ok (s, none)
  | .removeMatch (some node) compare => do
    let (m, l, node) ← listRemoveMatch s.1 s.2 node compare
    return ((m, l), node)
  | .search none _ => .ok (s, none)
  | .search (some node) compare => do
    let node ← listSearch s.1 s.2 node compare
    return (s, node)

/-- The node was made, and is not on the list. -/
def Unlisted (s : NodeMem D × LinkedList) (x : Ptr) : Prop :=
  s.1.Alive x ∧ x ∉ listNodes s.1 s.2

/-- The calls that may be made: a node that is added is not on the list, one that is extracted is,
the comparison of `list_insert` is a total preorder, and the one of a search returns. -/
def ListCall (s : NodeMem D × LinkedList) : ListOp D K → Prop
  | .append none => True
  | .append (some node) => Unlisted s node
  | .trim => True
  | .push node => Unlisted s node
  | .pop => True
  | .insert node compare _ => Unlisted s node ∧ ∃ cmp,
      TotalPreorder cmp (node :: listNodes s.1 s.2) ∧
      ComparesNodes s.1 compare cmp (node :: listNodes s.1 s.2)
  | .extract none => True
  | .extract (some node) => node ∈ listNodes s.1 s.2
  | .removeMatch none _ => True
  | .removeMatch (some node) compare => ∀ p ∈ listNodes s.1 s.2, ∃ c, compare s.1 p node = .ok c
  | .search none _ => True
  | .search (some node) compare => ∀ p ∈ listNodes s.1 s.2, ∃ c, compare s.1 p node = .ok c

/-! ## What they do to the sequence -/

/-- The comparison finds the node unequal. -/
def Differs (m : NodeMem D) (compare : NodeMatch D K) (node : K) (p : Ptr) : Prop :=
  ∃ c, compare m p node = .ok c ∧ c ≠ 0

/-- `x` stands between `xs` and `ys`, and is the first node the comparison finds equal. -/
def FirstMatch (m : NodeMem D) (compare : NodeMatch D K) (node : K) (ns xs ys : List Ptr) (x : Ptr) :
    Prop :=
  ns = xs ++ x :: ys ∧ compare m x node = .ok 0 ∧ ∀ p ∈ xs, Differs m compare node p

/-- What a call does to the sequence `ns`, given its answer and the sequence after it. -/
def SequenceStep (m : NodeMem D) (ns : List Ptr) : ListOp D K → Option Ptr → List Ptr → Prop
  | .append none, r, ns' => r = none ∧ ns' = ns
  | .append (some node), r, ns' => r = none ∧ ns' = ns ++ [node]
  | .trim, r, ns' => (ns = [] ∧ r = none ∧ ns' = []) ∨ ∃ x, ns = ns' ++ [x] ∧ r = some x
  | .push node, r, ns' => r = none ∧ ns' = node :: ns
  | .pop, r, ns' => (ns = [] ∧ r = none ∧ ns' = []) ∨ ∃ x, ns = x :: ns' ∧ r = some x
  | .insert node _ _, r, ns' => (r = none ∧ ns' = ns) ∨
      (r = some node ∧ ∃ xs ys, ns = xs ++ ys ∧ ns' = xs ++ node :: ys)
  | .extract none, r, ns' => r = none ∧ ns' = ns
  | .extract (some node), r, ns' => r = some node ∧
      ∃ xs ys, ns = xs ++ node :: ys ∧ ns' = xs ++ ys
  | .removeMatch none _, r, ns' => r = none ∧ ns' = ns
  | .removeMatch (some node) compare, r, ns' =>
      ((∀ p ∈ ns, Differs m compare node p) ∧ r = none ∧ ns' = ns) ∨
      ∃ xs ys x, FirstMatch m compare node ns xs ys x ∧ r = some x ∧ ns' = xs ++ ys
  | .search none _, r, ns' => r = none ∧ ns' = ns
  | .search (some node) compare, r, ns' => ns' = ns ∧
      (((∀ p ∈ ns, Differs m compare node p) ∧ r = none) ∨
        ∃ xs ys x, FirstMatch m compare node ns xs ys x ∧ r = some x)

/-- A call refines the one on the sequence: the list is well formed before and after it, only the
links of nodes on the list changed, nodes taken out have `NULL` links, and a call that leaves the
sequence as it is changes nothing. -/
def ListRefines (s : NodeMem D × LinkedList) (o : ListOp D K) (r : Option Ptr)
    (s' : NodeMem D × LinkedList) : Prop :=
  ∃ ns ns', ListHolds s.1 s.2 ns ∧ ListHolds s'.1 s'.2 ns' ∧ SequenceStep s.1 ns o r ns' ∧
    Frame s.1 s'.1 (ns ++ ns') ∧ (∀ p ∈ ns, p ∉ ns' → Detached s'.1 p) ∧ (ns' = ns → s' = s)

variable {s s' : NodeMem D × LinkedList} {o : ListOp D K} {r : Option Ptr} {xs ys : List Ptr}

/-- A call that leaves the list refines one that leaves the sequence. -/
theorem ListRefines.unchanged (h : ListHolds s.1 s.2 ns) (hseq : SequenceStep s.1 ns o r ns) :
    ListRefines s o r s :=
  ⟨ns, ns, h, h, hseq, Frame.refl _, fun _ hp hnot => absurd hp hnot, fun _ => rfl⟩

/-- A call that adds a node refines one that adds it to the sequence. -/
theorem ListRefines.added (h : ListHolds s.1 s.2 (xs ++ ys))
    (h' : ListHolds s'.1 s'.2 (xs ++ x :: ys)) (hframe : Frame s.1 s'.1 (xs ++ x :: ys))
    (hseq : SequenceStep s.1 (xs ++ ys) o r (xs ++ x :: ys)) : ListRefines s o r s' := by
  refine ⟨_, _, h, h', hseq, hframe.mono fun p hp => List.mem_append_right _ hp, ?_, ?_⟩
  · intro p hp hnot
    simp only [List.mem_append, List.mem_cons, not_or] at hp hnot
    tauto
  · intro heq
    have hlen := congrArg List.length heq
    simp only [List.length_append, List.length_cons] at hlen
    omega

/-- A call that removes a node refines one that removes it from the sequence. -/
theorem ListRefines.removed (h : ListHolds s.1 s.2 (xs ++ x :: ys))
    (h' : ListHolds s'.1 s'.2 (xs ++ ys)) (hframe : Frame s.1 s'.1 (xs ++ x :: ys))
    (hdet : Detached s'.1 x) (hseq : SequenceStep s.1 (xs ++ x :: ys) o r (xs ++ ys)) :
    ListRefines s o r s' := by
  refine ⟨_, _, h, h', hseq, hframe.mono fun p hp => List.mem_append_left _ hp, ?_, ?_⟩
  · intro p hp hnot
    -- `x` is the only node that is gone
    have hpx : p = x := by
      simp only [List.mem_append, List.mem_cons, not_or] at hp hnot
      tauto
    rwa [hpx]
  · intro heq
    have hlen := congrArg List.length heq
    simp only [List.length_append, List.length_cons] at hlen
    omega

/-- The nodes the comparison of a search finds equal. -/
def foundBy (m : NodeMem D) (compare : NodeMatch D K) (node : K) (p : Ptr) : Bool :=
  match compare m p node with
  | .ok c => c == 0
  | .error _ => false

section Search

variable {node : K} {nodeMatch : NodeMatch D K}

/-- A node matches when the comparison answers 0. -/
theorem foundBy_eq_true {p : Ptr} :
    foundBy m nodeMatch node p = true ↔ nodeMatch m p node = .ok 0 := by
  unfold foundBy
  split <;> simp_all

/-- A node that does not match differs. -/
theorem differs_of_foundBy {p : Ptr} (hreturns : ∃ c, nodeMatch m p node = .ok c)
    (hp : foundBy m nodeMatch node p = false) : Differs m nodeMatch node p := by
  obtain ⟨c, hc⟩ := hreturns
  refine ⟨c, hc, ?_⟩
  rintro rfl
  rw [foundBy_eq_true.mpr hc] at hp
  cases hp

/-- When the comparison returns for every node it tells which of them match. -/
theorem matches_foundBy (hreturns : ∀ p ∈ ns, ∃ c, nodeMatch m p node = .ok c) :
    Matches m node nodeMatch (foundBy m nodeMatch node) ns := by
  intro p hp
  obtain ⟨c, hc⟩ := hreturns p hp
  refine ⟨c, hc, ?_⟩
  rw [foundBy_eq_true, hc, Except.ok.injEq]

/-- Either no node of the list matches, or there is a first one that does. -/
theorem exists_firstMatch (hreturns : ∀ p ∈ ns, ∃ c, nodeMatch m p node = .ok c) :
    (ns.find? (foundBy m nodeMatch node) = none ∧ ∀ p ∈ ns, Differs m nodeMatch node p) ∨
      ∃ xs ys x, ns.find? (foundBy m nodeMatch node) = some x ∧
        FirstMatch m nodeMatch node ns xs ys x := by
  cases hfind : ns.find? (foundBy m nodeMatch node) with
  | none =>
    left
    refine ⟨rfl, fun p hp => differs_of_foundBy (hreturns p hp) ?_⟩
    simpa using List.find?_eq_none.mp hfind p hp
  | some x =>
    right
    obtain ⟨hx, xs, ys, hsplit, hxs⟩ := List.find?_eq_some_iff_append.mp hfind
    refine ⟨xs, ys, x, rfl, hsplit, foundBy_eq_true.mp hx, fun p hp => ?_⟩
    refine differs_of_foundBy (hreturns p ?_) (by simpa using hxs p hp)
    rw [hsplit]
    exact List.mem_append_left _ hp

end Search

/-- One call, on a well-formed list. -/
theorem listStep_refines (h : ListHolds s.1 s.2 ns) (hcall : ListCall s o) :
    ∃ s' r, listStep s o = .ok (s', r) ∧ ListRefines s o r s' := by
  have hnodes := h.listNodes_eq
  cases o with
  | append node =>
    cases node with
    | none => exact ⟨s, none, rfl, .unchanged h ⟨rfl, rfl⟩⟩
    | some node =>
      obtain ⟨halive, hnot⟩ := hcall
      rw [hnodes] at hnot
      obtain ⟨m', l', happend, h', hframe⟩ := listAppend_spec h hnot halive
      refine ⟨(m', l'), none, by simp [listStep, happend], ?_⟩
      -- the node is put after all the others
      have hwhole : ListHolds s.1 s.2 (ns ++ []) := by simpa using h
      exact .added hwhole h' hframe ⟨rfl, by simp⟩
  -- an empty list answers `NULL` and stays; otherwise the last node goes
  | trim =>
    rcases List.eq_nil_or_concat ns with rfl | ⟨ys, x, rfl⟩
    · refine ⟨s, none, ?_, .unchanged h (.inl ⟨rfl, rfl, rfl⟩)⟩
      have htail : s.2.tail = none := h.tail
      simp [listStep, listTrim, htail]
    · rw [List.concat_eq_append] at h
      obtain ⟨m', l', htrim, h', hframe, hdet⟩ := listTrim_spec h
      refine ⟨(m', l'), some x, by simp [listStep, htrim], ?_⟩
      exact .removed h (by simpa using h') hframe hdet (.inr ⟨x, by simp, rfl⟩)
  | push node =>
    obtain ⟨halive, hnot⟩ := hcall
    rw [hnodes] at hnot
    obtain ⟨m', l', hpush, h', hframe⟩ := listPush_spec h hnot halive
    refine ⟨(m', l'), none, by simp [listStep, hpush], ?_⟩
    exact .added h.start h' hframe ⟨rfl, rfl⟩
  | pop =>
    cases ns with
    | nil =>
      refine ⟨s, none, ?_, .unchanged h (.inl ⟨rfl, rfl, rfl⟩)⟩
      simp [listStep, listPop_nil h]
    | cons x xs =>
      obtain ⟨m', l', hpop, h', hframe, hdet⟩ := listPop_spec h
      refine ⟨(m', l'), some x, by simp [listStep, hpop], ?_⟩
      exact .removed h.start h' hframe hdet (.inr ⟨x, rfl, rfl⟩)
  | insert node compare sortAscending =>
    obtain ⟨⟨halive, hnot⟩, cmp, horder, hcmp⟩ := hcall
    rw [hnodes] at hnot horder hcmp
    by_cases hnil : ns = []
    · -- an empty list is sorted
      obtain ⟨m', l', xs, ys, hins, ⟨hsplit, -⟩, h', hframe, -⟩ := listInsert_spec h hnot halive
        (horder.compares sortAscending hcmp) horder.total horder.trans_le
        (by simp [hnil])
      rw [hsplit] at h
      refine ⟨(m', l'), some node, by simp [listStep, hins], ?_⟩
      exact .added h h' hframe (.inr ⟨rfl, xs, ys, rfl, rfl⟩)
    -- the loop of `list_insert` is `insertNear`, which may find no place
    · have hloop := listInsertLoop_spec h.start hnot halive
        (horder.compares sortAscending hcmp) (Nat.lt_succ_of_le h.length_le)
      have hinsert : listInsert s.1 s.2 node compare sortAscending =
          listInsertLoop s.1 s.2 node compare sortAscending (s.1.size + 1) ns.head? := by
        cases ns with
        | nil => exact absurd rfl hnil
        | cons y ys => rw [listInsert, show s.2.head = some y from h.head, List.head?_cons]
      cases hnear : ns.insertNear (cmpLe cmp sortAscending (node :: ns)) node with
      | none =>
        rw [hnear] at hloop
        refine ⟨s, none, ?_, .unchanged h (.inl ⟨rfl, rfl⟩)⟩
        simp [listStep, hinsert, hloop]
      | some zs =>
        rw [hnear] at hloop
        obtain ⟨xs, ys, rfl, rfl⟩ := List.insertNear_split hnear
        obtain ⟨m', l', hloop, h', hframe⟩ := hloop
        refine ⟨(m', l'), some node, ?_, ?_⟩
        · rw [listStep, hinsert, hloop]
          rfl
        · exact .added h h' hframe (.inr ⟨rfl, xs, ys, rfl, rfl⟩)
  | extract node =>
    cases node with
    | none => exact ⟨s, none, rfl, .unchanged h ⟨rfl, rfl⟩⟩
    | some node =>
      have hmem : node ∈ listNodes s.1 s.2 := hcall
      rw [hnodes] at hmem
      obtain ⟨xs, ys, rfl⟩ := List.append_of_mem hmem
      obtain ⟨m', l', hextract, h', hframe, hdet⟩ := listExtract_spec h
      refine ⟨(m', l'), some node, by simp [listStep, hextract], ?_⟩
      exact .removed h h' hframe hdet ⟨rfl, xs, ys, rfl, rfl⟩
  -- the search of the source stops at the first node that compares equal
  | removeMatch node compare =>
    cases node with
    | none => exact ⟨s, none, rfl, .unchanged h ⟨rfl, rfl⟩⟩
    | some node =>
      have hreturns : ∀ p ∈ listNodes s.1 s.2, ∃ c, compare s.1 p node = .ok c := hcall
      rw [hnodes] at hreturns
      have hmatch := matches_foundBy hreturns
      rcases exists_firstMatch hreturns with ⟨hnone, hdiffers⟩ | ⟨xs, ys, x, -, hfirst⟩
      · refine ⟨s, none, ?_, .unchanged h (.inl ⟨hdiffers, rfl, rfl⟩)⟩
        have hremove := listRemoveMatch_none h hmatch fun p hp => by
          simpa using List.find?_eq_none.mp hnone p hp
        simp [listStep, hremove]
      · obtain ⟨rfl, hx, hxs⟩ := hfirst
        have hbefore : ∀ p ∈ xs, foundBy s.1 compare node p = false := by
          intro p hp
          obtain ⟨c, hc, hne⟩ := hxs p hp
          simp [foundBy, hc, hne]
        obtain ⟨m', l', hremove, h', hframe, hdet⟩ :=
          listRemoveMatch_some h hmatch (foundBy_eq_true.mpr hx) hbefore
        refine ⟨(m', l'), some x, by simp [listStep, hremove], ?_⟩
        exact .removed h h' hframe hdet (.inr ⟨xs, ys, x, ⟨rfl, hx, hxs⟩, rfl, rfl⟩)
  | search node compare =>
    cases node with
    | none => exact ⟨s, none, rfl, .unchanged h ⟨rfl, rfl⟩⟩
    | some node =>
      have hreturns : ∀ p ∈ listNodes s.1 s.2, ∃ c, compare s.1 p node = .ok c := hcall
      rw [hnodes] at hreturns
      have hsearch := listSearch_spec h (matches_foundBy hreturns)
      refine ⟨s, _, by simp [listStep, hsearch]; rfl, .unchanged h ⟨rfl, ?_⟩⟩
      rcases exists_firstMatch hreturns with ⟨hnone, hdiffers⟩ | ⟨xs, ys, x, hsome, hfirst⟩
      · exact .inl ⟨hdiffers, hnone⟩
      · exact .inr ⟨xs, ys, x, hfirst, hsome⟩

/-- Over any sequence of calls that may be made, a well-formed list stays well formed and behaves as
the sequence of its nodes; no assertion fires. -/
theorem list_refines_sequence {os : List (ListOp D K)} (h : ListHolds s.1 s.2 ns)
    (hcalls : Machine.Meets listStep ListCall s os) :
    Machine.EachStep listStep ListRefines s os := by
  refine Machine.eachStep_of_invariant (I := fun s => ∃ ns, ListHolds s.1 s.2 ns) ?_ ⟨ns, h⟩ hcalls
  rintro s o ⟨ns, h⟩ hcall
  obtain ⟨s', r, hstep, hrefines⟩ := listStep_refines h hcall
  refine ⟨s', r, hstep, hrefines, ?_⟩
  obtain ⟨-, ns', -, h', -⟩ := hrefines
  exact ⟨ns', h'⟩

/-- Three nodes, with the numbers `5`, `2` and `9`. -/
def threeNodes : NodeMem Nat := listedNodes [⟨none, none, 5⟩, ⟨none, none, 2⟩, ⟨none, none, 9⟩]

/-- The list of `5` alone. -/
def oneNode : LinkedList := ⟨some 0, some 0⟩

/-- The list of one node is well formed. -/
theorem oneNode_holds : ListHolds threeNodes oneNode [0] :=
  ⟨rfl, rfl, List.nodup_singleton 0, ⟨rfl, trivial⟩, listedNodes_bounded _⟩

/-- The numbers of the three nodes. -/
def threeRanks (p : Ptr) : Nat := [5, 2, 9].getD p 0

/-- Two insertions, one of them in front, and the removal of a match and of the last node. -/
def fourCalls : List (ListOp Nat Ptr) :=
  [.insert 1 nodeSorter true, .insert 2 nodeSorter true,
    .removeMatch (some 0) fun m p q => nodeSorter m p (some q), .trim]

/-- The list of `5` becomes `2 5`, `2 5 9`, `2 9` and `2`. -/
theorem list_refines_sequence_four :
    Machine.EachStep listStep ListRefines (threeNodes, oneNode) fourCalls := by
  refine list_refines_sequence oneNode_holds ?_
  have hcompares : ∀ (s : NodeMem Nat × LinkedList) (x : Ptr),
      (∀ p ∈ x :: listNodes s.1 s.2, s.1.data p = some (threeRanks p)) →
        ComparesNodes s.1 nodeSorter (sorterCmp threeRanks) (x :: listNodes s.1 s.2) :=
    fun _ _ hdata => comparesNodes_nodeSorter hdata
  refine .cons ⟨⟨rfl, by decide⟩, _, totalPreorder_sorterCmp _ _, hcompares _ _ (by decide)⟩ rfl ?_
  refine .cons ⟨⟨rfl, by decide⟩, _, totalPreorder_sorterCmp _ _, hcompares _ _ (by decide)⟩ rfl ?_
  refine .cons ?_ rfl (.cons trivial rfl trivial)
  intro p hp
  exact ⟨_, (hcompares _ 0 (by decide)).some p (List.mem_cons_of_mem 0 hp) 0 List.mem_cons_self⟩

end DVP.Sosal
