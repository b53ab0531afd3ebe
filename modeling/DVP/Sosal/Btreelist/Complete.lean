import DVP.Sosal.Btreelist.Objects

/-!
# Finding what the list has

`btreelist_find` follows the children of the nodes, and a value is in the list when one of the
linked nodes compares equal to it. The two agree in every run in which `count` can hold the number
of the nodes: `count` is an `int32_t`, and when the add of node `2 ^ 31` overflows it,
`btreelist_rebtree` leaves the list without a root (`always_findComplete_iff`).
-/

namespace DVP.Sosal

variable {V K : Type} {lt : V → V → Prop} {ok : V → Prop} {m m' : BtreeMem V}
  {btl btl' : Btreelist V K} {x p : Ptr} {v : V} {ns : List Ptr}
  {compare : V → K → Int} {sort : V → V → Int}

/-- What happens to a list: a call, or the work of the rest of the program on the objects. -/
inductive BtreeEvent (V K : Type) where
  | call (o : BtreeOp K)
  | objects (m : BtreeMem V)

/-- One event. -/
def btreelistEvent (s : BtreeMem V × Btreelist V K) :
    BtreeEvent V K → Except Fault ((BtreeMem V × Btreelist V K) × Option Ptr)
  | .call o => btreelistStep s o
  | .objects m => .ok ((m, s.2), none)

/-- The program adds objects that exist and whose value is `ok`, and it leaves the objects alone
whose nodes are in the list. -/
def BtreeProper (ok : V → Prop) (s : BtreeMem V × Btreelist V K) : BtreeEvent V K → Prop
  | .call (.add node _) => ∃ v ∈ valueOf s.1 node, ok v
  | .call (.remove _ _) => True
  | .objects m =>
    m.Bounded ∧ ∀ p ∈ s.2.nodes s.1, m.link p = s.1.link p ∧ m.data p = s.1.data p

/-- There is room for one more in `count`, or the node to add is not a new one. -/
def BtreeCounts (s : BtreeMem V × Btreelist V K) : BtreeEvent V K → Prop
  | .call (.add node _) =>
    s.2.count + 1 < 2 ^ 31 ∨ ∃ v ∈ valueOf s.1 node, ∃ y ∈ s.2.values s.1, s.2.sort y v = 0
  | _ => True

/-- `btreelist_find` returns. It finds a node of the list that compares equal, when there is one. -/
def FindComplete (s : BtreeMem V × Btreelist V K) : Prop :=
  ∀ k, ∃ found, btreelistFind s.1 s.2 k = .ok found ∧
    (∀ p ∈ found, p ∈ s.2.nodes s.1 ∧ ∃ v ∈ valueOf s.1 p, s.2.compare v k = 0) ∧
    (found.isSome ↔ ∃ v ∈ s.2.values s.1, s.2.compare v k = 0)

/-- The two functions of a list order the values the same way. -/
structure BtreeOrder (lt : V → V → Prop) (ok : V → Prop) (compare : V → K → Int)
    (sort : V → V → Int) : Prop where
  sorts : SortTells lt ok sort
  compares : ∀ k, Tells lt ok fun v => compare v k
  probe : ∀ v, ok v → ∃ k, compare v k = 0

/-- The list has these functions, and its tree is over its nodes. -/
structure BtreeKept (lt : V → V → Prop) (ok : V → Prop) (compare : V → K → Int)
    (sort : V → V → Int) (s : BtreeMem V × Btreelist V K) : Prop where
  sort_eq : s.2.sort = sort
  compare_eq : s.2.compare = compare
  holds : ∃ ns, BtreeHolds lt ok s.1 s.2 ns

/-! ## One event -/

/-- The search of the tree finds what the list has. -/
theorem BtreeKept.findComplete {s : BtreeMem V × Btreelist V K}
    (horder : BtreeOrder lt ok compare sort) (h : BtreeKept lt ok compare sort s) :
    FindComplete s := by
  obtain ⟨-, hcompare, ns, hholds⟩ := h
  intro k
  have hnodes : s.2.nodes s.1 = ns := hholds.list.listNodes_eq
  have hlisted := exists_rank_iff (f := fun v => s.2.compare v k) hholds.list
  rcases btreelistFind_spec (hcompare ▸ horder.compares k) hholds with
    ⟨hfind, hnone⟩ | ⟨p, hp, hfind, hrank⟩
  · refine ⟨none, hfind, by simp, ?_⟩
    rw [← hlisted]
    refine iff_of_false (by simp) ?_
    rintro ⟨p, hp, hrank⟩
    exact hnone p hp hrank
  · refine ⟨some p, hfind, ?_, ?_⟩
    · rintro q hq
      obtain rfl : p = q := Option.some.inj hq
      obtain ⟨v, hv, -⟩ := hholds.value hp
      rw [rankOf_eq hv] at hrank
      refine ⟨?_, v, hv, hrank⟩
      rwa [hnodes]
    · rw [← hlisted]
      exact iff_of_true rfl ⟨p, hp, hrank⟩

/-- A call that returns and has room in `count` keeps the tree over the nodes. -/
theorem BtreeKept.call {s s' : BtreeMem V × Btreelist V K} {o : BtreeOp K} {r : Option Ptr}
    (horder : BtreeOrder lt ok compare sort) (h : BtreeKept lt ok compare sort s)
    (hproper : BtreeProper ok s (.call o)) (hcounts : BtreeCounts s (.call o))
    (hstep : btreelistStep s o = .ok (s', r)) : BtreeKept lt ok compare sort s' := by
  obtain ⟨hsort, hcompare, ns, hholds⟩ := h
  have hsortTells : SortTells lt ok s.2.sort := hsort ▸ horder.sorts
  cases o with
  | add node alloc =>
    obtain ⟨v, hv, hok⟩ := hproper
    have hroom : ns.length + 1 < 2 ^ 31 ∨ ∃ p ∈ ns, rankOf s.1 (fun y => s.2.sort y v) p = 0 := by
      rw [exists_rank_iff hholds.list]
      rcases hcounts with hroom | ⟨w, hw, hequal⟩
      · rw [hholds.count] at hroom
        exact .inl (by omega)
      · obtain rfl : v = w := Option.mem_unique hv hw
        exact .inr hequal
    cases alloc with
    | false =>
      rw [btreelistStep, btreelistAdd_without_array hsortTells hholds hv hok hroom] at hstep
      cases hstep
    | true =>
      rcases btreelistAdd_spec hsortTells hholds hv hok hroom with
        ⟨-, array, hadd⟩ | ⟨-, m', btl', xs, ys, -, hadd, hholds', -, hsort', hcompare'⟩
      · rw [btreelistStep, hadd] at hstep
        cases hstep
        -- only the array is a new one
        exact ⟨hsort, hcompare, ns, hholds.list, hholds.sorted, hholds.ok, hholds.count,
          hholds.fits, hholds.tree⟩
      · rw [btreelistStep, hadd] at hstep
        cases hstep
        exact ⟨hsort'.trans hsort, hcompare'.trans hcompare, _, hholds'⟩
  | remove value alloc =>
    have hcompareTells : Tells lt ok fun y => s.2.compare y value := hcompare ▸ horder.compares value
    cases hremove : btreelistRemove alloc s.1 s.2 value with
    | error e =>
      rw [btreelistStep, hremove] at hstep
      cases hstep
    | ok res =>
      -- a call that returns had an array, or did not need one
      have halloc := btreelistRemove_alloc hcompareTells hholds hremove
      rw [btreelistStep, hremove] at hstep
      cases hstep
      rcases btreelistRemove_spec hcompareTells hholds halloc with
        ⟨-, hremove'⟩ | ⟨xs, p, ys, m', btl', -, -, hremove', hholds', -, hsort', hcompare'⟩
      · rw [hremove] at hremove'
        cases hremove'
        exact ⟨hsort, hcompare, ns, hholds⟩
      · rw [hremove] at hremove'
        cases hremove'
        exact ⟨hsort'.trans hsort, hcompare'.trans hcompare, _, hholds'⟩

/-- An event that has room in `count` keeps the tree over the nodes. -/
theorem BtreeKept.event {s s' : BtreeMem V × Btreelist V K} {e : BtreeEvent V K} {r : Option Ptr}
    (horder : BtreeOrder lt ok compare sort) (h : BtreeKept lt ok compare sort s)
    (hproper : BtreeProper ok s e) (hcounts : BtreeCounts s e)
    (hstep : btreelistEvent s e = .ok (s', r)) : BtreeKept lt ok compare sort s' := by
  cases e with
  | call o => exact h.call horder hproper hcounts hstep
  | objects m =>
    obtain ⟨hsort, hcompare, ns, hholds⟩ := h
    obtain ⟨hbounded, hsame⟩ := hproper
    have hnodes : s.2.nodes s.1 = ns := hholds.list.listNodes_eq
    rw [hnodes] at hsame
    rw [btreelistEvent] at hstep
    cases hstep
    exact ⟨hsort, hcompare, ns, hholds.congr hbounded (fun p hp => (hsame p hp).1)
      fun p hp => (hsame p hp).2⟩

/-! ## The overflow of `count` -/

/-- `btreelist_rebtree` has no tree for a negative number of nodes. -/
theorem btreelistRebuild_negative {alloc : Bool} (hcount : btl.count < 0) :
    btreelistRebuild alloc m btl = .ok (m, { btl with array := none, root := none }) := by
  have harray : ¬(alloc = true ∧ 0 ≤ btl.count) := fun h => by omega
  have hpos : ¬btl.count > 0 := by omega
  unfold btreelistRebuild
  rw [btreelistRebtree, if_pos rfl, rebtreeArray, if_neg harray]
  simp only [ok_bind, if_neg hpos, ite_self]
  rfl

/-- The add of node `2 ^ 31` makes `count` negative, and leaves a linked list without a root. -/
theorem btreelistAdd_overflows (alloc : Bool) (hsort : SortTells lt ok btl.sort)
    (h : BtreeHolds lt ok m btl ns) (hx : valueOf m x = some v) (hv : ok v)
    (hfull : ns.length + 1 = 2 ^ 31)
    (hnew : ∀ p ∈ ns, rankOf m (fun y => btl.sort y v) p ≠ 0) :
    ∃ m' btl' ns', btreelistAdd alloc m btl (some x) = .ok (m', btl') ∧ btl'.root = none ∧
      btl'.compare = btl.compare ∧ ListHolds m' btl'.list ns' ∧ x ∈ ns' ∧ valueOf m' x = some v := by
  have hne : ns ≠ [] := by
    rintro rfl
    simp at hfull
  rcases btreelistInsert_root hsort h hx hv hne with
    ⟨⟨p, hp, hzero⟩, -⟩ | ⟨m', head, tail, as, bs, rfl, -, -, hinsert, hlist, hobjects⟩
  · exact absurd hzero (hnew p hp)
  · let btl₁ : Btreelist V K :=
      { btl with
        head := head
        tail := tail
        count := int32 (btl.count + 1) }
    have hcount : btl₁.count < 0 := by
      show int32 (btl.count + 1) < 0
      have hold : btl.count + 1 = 2 ^ 31 := by
        rw [h.count]
        exact_mod_cast hfull
      rw [hold]
      decide
    refine ⟨m', { btl₁ with array := none, root := none }, as ++ x :: bs, ?_, rfl, rfl, hlist,
      by simp, (hobjects.value x).trans hx⟩
    rw [btreelistAdd_of_insert hinsert]
    exact btreelistRebuild_negative hcount

/-- Nothing is found in a list without a root. -/
theorem not_findComplete (hroot : btl.root = none) (hlist : ListHolds m btl.list ns) (hp : p ∈ ns)
    (hvalue : valueOf m p = some v) {k : K} (hequal : btl.compare v k = 0) :
    ¬FindComplete (m, btl) := by
  intro hcomplete
  obtain ⟨found, hfind, -, hiff⟩ := hcomplete k
  have hnodes : btl.nodes m = ns := hlist.listNodes_eq
  have hmem : v ∈ btl.values m := by
    rw [Btreelist.values, hnodes]
    exact List.mem_filterMap.mpr ⟨p, hp, hvalue⟩
  have hnone : btreelistFind m btl k = .ok none := by
    rw [btreelistFind, hroot, btreeFind]
  rw [hnone] at hfind
  cases hfind
  exact absurd (hiff.mpr ⟨v, hmem, hequal⟩) (by simp)

/-- An event without room in `count` loses the nodes of the list. -/
theorem BtreeKept.loses {s : BtreeMem V × Btreelist V K} {e : BtreeEvent V K}
    (horder : BtreeOrder lt ok compare sort) (h : BtreeKept lt ok compare sort s)
    (hproper : BtreeProper ok s e) (hcounts : ¬BtreeCounts s e) :
    ∃ s' r, btreelistEvent s e = .ok (s', r) ∧ ¬FindComplete s' := by
  obtain ⟨hsort, hcompare, ns, hholds⟩ := h
  match e, hproper, hcounts with
  | .call (.remove _ _), _, hcounts => exact absurd trivial hcounts
  | .objects _, _, hcounts => exact absurd trivial hcounts
  | .call (.add node alloc), ⟨v, hv, hok⟩, hcounts =>
    obtain ⟨hroom, habsent⟩ := not_or.mp hcounts
    have hfull : ns.length + 1 = 2 ^ 31 := by
      rw [hholds.count] at hroom
      have hfits := hholds.fits
      omega
    have hnew : ∀ p ∈ ns, rankOf s.1 (fun y => s.2.sort y v) p ≠ 0 := by
      intro p hp hzero
      exact habsent ⟨v, hv, (exists_rank_iff hholds.list).mp ⟨p, hp, hzero⟩⟩
    obtain ⟨m', btl', ns', hadd, hroot, hcompare', hlist, hmem, hvalue⟩ :=
      btreelistAdd_overflows alloc (hsort ▸ horder.sorts) hholds hv hok hfull hnew
    obtain ⟨k, hequal⟩ := horder.probe v hok
    refine ⟨(m', btl'), none, ?_, not_findComplete hroot hlist hmem hvalue (k := k) ?_⟩
    · rw [btreelistEvent, btreelistStep, hadd]
      rfl
    · rw [hcompare', hcompare]
      exact hequal

/-! ## Runs -/

theorem btreeKept_create (hm : m.Bounded) :
    BtreeKept lt ok compare sort (m, btreelistCreate compare sort) := by
  refine ⟨rfl, rfl, [], ListHolds.empty hm, List.Pairwise.nil, by simp, rfl, by simp, ?_⟩
  rw [BinaryTree.balanced_nil]
  rfl

/-- In a run, `btreelist_find` finds what the list has in every state, exactly when `count` has room
for every node that is added. -/
theorem always_findComplete_iff (horder : BtreeOrder lt ok compare sort) (hm : m.Bounded)
    {es : List (BtreeEvent V K)}
    (hproper : Machine.Meets btreelistEvent (BtreeProper ok) (m, btreelistCreate compare sort) es) :
    Machine.Always btreelistEvent FindComplete (m, btreelistCreate compare sort) es ↔
      Machine.Meets btreelistEvent BtreeCounts (m, btreelistCreate compare sort) es := by
  apply Machine.always_iff_meets_of (I := BtreeKept lt ok compare sort) (D := BtreeProper ok)
  · intro s hkept
    exact hkept.findComplete horder
  · intro s e s' r hkept hproper hcounts hstep
    exact hkept.event horder hproper hcounts hstep
  · intro s e hkept hproper hcounts
    exact hkept.loses horder hproper hcounts
  · exact btreeKept_create hm
  · exact hproper

/-! ## Values in increasing order -/

/-- An order of the values is one of the lists with its functions. -/
theorem btreeOrder_sortOf [LinearOrder V] :
    BtreeOrder (· < ·) (fun _ => True) compareOf (sortOf : V → V → Int) where
  sorts := sortTells_sortOf
  compares := compareOf_tells
  probe v _ := ⟨v, by rw [compareOf_eq, sortOf_eq_zero]⟩

/-- A memory with the objects from `1` to `n`, whose values are their addresses. -/
def objectsTo (n : Nat) : BtreeMem Nat :=
  ⟨n + 1, fun (p : Nat) => if p = 0 ∨ n < p then none else some ⟨none, none, none, none, p⟩⟩

/-- The calls that add the objects from `1` to `n`. -/
def addsTo (n : Nat) : List (BtreeEvent Nat Nat) :=
  (List.range n).map fun i => .call (.add (i + 1) true)

/-- The list has `n` of the objects from `1` to `top`, with the smallest values. -/
structure HasTo (top n : Nat) (s : BtreeMem Nat × Btreelist Nat Nat) : Prop where
  objects : SameObjects (objectsTo top) s.1
  kept : BtreeKept (· < ·) (fun _ => True) compareOf sortOf s
  count : s.2.count = n
  nodes : ∀ p ∈ s.2.nodes s.1, p ≤ n

variable {top n : Nat}

theorem valueOf_objectsTo {p : Nat} :
    valueOf (objectsTo top) p = if p = 0 ∨ top < p then none else some p := by
  unfold valueOf NodeMem.data objectsTo
  dsimp only
  split_ifs <;> rfl

theorem objectsTo_bounded : (objectsTo top).Bounded := by
  intro p hp
  obtain ⟨y, hy⟩ := alive_iff_valueOf.mp hp
  rw [valueOf_objectsTo] at hy
  split_ifs at hy with hout
  exact Nat.lt_succ_of_le (not_lt.mp (not_or.mp hout).2)

theorem addsTo_succ : addsTo (n + 1) = addsTo n ++ [.call (.add (n + 1) true)] := by
  rw [addsTo, List.range_succ, List.map_append]
  rfl

/-- No node that is in the list is equal to the next one. -/
theorem HasTo.rank_ne_zero {s : BtreeMem Nat × Btreelist Nat Nat} {ns : List Ptr}
    (h : HasTo top n s) (hholds : BtreeHolds (· < ·) (fun _ => True) s.1 s.2 ns) :
    ∀ p ∈ ns, rankOf s.1 (fun y => s.2.sort y (n + 1)) p ≠ 0 := by
  intro p hp hrank
  have hnodes : s.2.nodes s.1 = ns := hholds.list.listNodes_eq
  have hle : p ≤ n := h.nodes p (by rwa [hnodes])
  obtain ⟨y, hy, -⟩ := hholds.value hp
  rw [rankOf_eq hy, h.kept.sort_eq, sortOf_eq_zero] at hrank
  rw [h.objects.value, valueOf_objectsTo] at hy
  split_ifs at hy
  cases hy
  rw [hrank] at hle
  exact Nat.not_succ_le_self n hle

/-- The next object is there. -/
theorem HasTo.value {s : BtreeMem Nat × Btreelist Nat Nat} (h : HasTo top n s) (htop : n < top) :
    valueOf s.1 (n + 1) = some (n + 1) := by
  rw [h.objects.value, valueOf_objectsTo, if_neg (by omega)]

/-- The next object is added behind the others. -/
theorem HasTo.add {s : BtreeMem Nat × Btreelist Nat Nat} (h : HasTo top n s) (htop : n < top)
    (hfits : n + 1 < 2 ^ 31) :
    ∃ s', btreelistEvent s (.call (.add (n + 1) true)) = .ok (s', none) ∧ HasTo top (n + 1) s' := by
  obtain ⟨hsort, hcompare, ns, hholds⟩ := h.kept
  have hlength : ns.length = n := by
    have hcount := h.count
    rw [hholds.count] at hcount
    exact_mod_cast hcount
  have hnew := h.rank_ne_zero hholds
  rcases btreelistAdd_spec (hsort ▸ sortTells_sortOf) hholds (h.value htop) trivial
      (.inl (by omega)) with
    ⟨⟨p, hp, hrank⟩, -⟩ | ⟨-, m', btl', xs, ys, rfl, hadd, hholds', hobjects, hsort', hcompare'⟩
  · exact absurd hrank (hnew p hp)
  · have hnodes : s.2.nodes s.1 = xs ++ ys := hholds.list.listNodes_eq
    have hnodes' : btl'.nodes m' = xs ++ (n + 1) :: ys := hholds'.list.listNodes_eq
    refine ⟨(m', btl'), ?_, h.objects.trans hobjects,
      ⟨hsort'.trans hsort, hcompare'.trans hcompare, _, hholds'⟩, ?_, ?_⟩
    · rw [btreelistEvent, btreelistStep, hadd]
      rfl
    · show btl'.count = _
      rw [hholds'.count, List.length_append, List.length_cons, ← Nat.add_assoc,
        ← List.length_append, hlength]
    · intro p hp
      have hmem : p ∈ xs ++ (n + 1) :: ys := by rwa [← hnodes']
      rcases mem_middle.mp hmem with rfl | hmem
      · exact le_rfl
      · exact Nat.le_succ_of_le (h.nodes p (by rwa [hnodes]))

/-- All objects can be added, up to the greatest `int32_t`. -/
theorem addsTo_spec (top n : Nat) (htop : n ≤ top) (hfits : n < 2 ^ 31) :
    Machine.Meets btreelistEvent (BtreeProper fun _ => True)
        (objectsTo top, btreelistCreate compareOf sortOf) (addsTo n) ∧
      ∃ s rs, Machine.run btreelistEvent (objectsTo top, btreelistCreate compareOf sortOf)
        (addsTo n) = .ok (s, rs) ∧ HasTo top n s := by
  induction n with
  | zero =>
    have hkept : BtreeKept (· < ·) (fun _ => True) compareOf sortOf
        (objectsTo top, btreelistCreate compareOf sortOf) := btreeKept_create objectsTo_bounded
    refine ⟨trivial, _, [], rfl, SameObjects.refl, hkept, rfl, ?_⟩
    have hnodes : (btreelistCreate compareOf sortOf : Btreelist Nat Nat).nodes (objectsTo top) =
        [] := (ListHolds.empty objectsTo_bounded).listNodes_eq
    simp [hnodes]
  | succ n ih =>
    obtain ⟨hproper, s, rs, hrun, hhas⟩ := ih (by omega) (by omega)
    obtain ⟨s', hstep, hhas'⟩ := hhas.add (by omega) hfits
    rw [addsTo_succ]
    refine ⟨hproper.append hrun ?_, s', _, Machine.run_append hrun (Machine.run_cons_ok hstep rfl),
      hhas'⟩
    exact Machine.Meets.cons ⟨n + 1, hhas.value (by omega), trivial⟩ hstep trivial

/-- In the run that adds the objects from `1` to `2 ^ 31`, the list ends with nodes that
`btreelist_find` does not find. -/
theorem btreelist_find_loses :
    (objectsTo (2 ^ 31)).Bounded ∧
      Machine.Meets btreelistEvent (BtreeProper fun _ => True)
        (objectsTo (2 ^ 31), btreelistCreate compareOf sortOf) (addsTo (2 ^ 31)) ∧
      ¬Machine.Always btreelistEvent FindComplete
        (objectsTo (2 ^ 31), btreelistCreate compareOf sortOf) (addsTo (2 ^ 31)) := by
  obtain ⟨n, hn⟩ : ∃ n : Nat, n + 1 = 2 ^ 31 := ⟨2 ^ 31 - 1, by norm_num⟩
  obtain ⟨hproper, s, rs, hrun, hhas⟩ := addsTo_spec (2 ^ 31) n (by omega) (by omega)
  have hlast : BtreeProper (fun _ => True) s (.call (.add (n + 1) true)) :=
    ⟨n + 1, hhas.value (by omega), trivial⟩
  have hfull : ¬BtreeCounts s (.call (.add (n + 1) true)) := by
    obtain ⟨-, -, ns, hholds⟩ := hhas.kept
    rintro (hroom | ⟨v, hv, hequal⟩)
    · rw [hhas.count] at hroom
      omega
    · rw [hhas.value (by omega)] at hv
      obtain rfl : n + 1 = v := Option.some.inj hv
      obtain ⟨p, hp, hrank⟩ := (exists_rank_iff hholds.list).mpr hequal
      exact hhas.rank_ne_zero hholds p hp hrank
  obtain ⟨s', r, hstep, hlost⟩ := hhas.kept.loses btreeOrder_sortOf hlast hfull
  have hadds : addsTo (2 ^ 31) = addsTo n ++ [.call (.add (n + 1) true)] := by
    rw [← hn, addsTo_succ]
  rw [hadds]
  refine ⟨objectsTo_bounded, hproper.append hrun (Machine.Meets.cons hlast hstep trivial), ?_⟩
  intro halways
  exact hlost ((halways.append hrun).2 s' r hstep)

end DVP.Sosal
