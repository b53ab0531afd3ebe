import DVP.Kgraph.Rpc.Basic
import DVP.Sosal.Btreelist.Complete

/-!
# The ranges of the registry

The list of ranges as a set of disjoint address ranges: `RangesHold m btl rs` says that the list
`btl` has exactly the ranges `rs`. The three calls of the registry have one lemma each, and so has
each way they may not return.
-/

namespace DVP.Kgraph

open DVP.Sosal

variable {m m' : BtreeMem MemRange} {btl btl' : Btreelist MemRange Nat} {r : MemRange}
  {rs rs' : List MemRange} {x p : Ptr} {k : Nat}

namespace MemRange

/-- The range ends after its base. -/
def Valid (r : MemRange) : Prop := r.base < r.end_

/-- The range lies before another one. -/
def Before (r s : MemRange) : Prop := r.end_ ≤ s.base

/-- The ranges have no address in common. -/
def Apart (r s : MemRange) : Prop := r.Before s ∨ s.Before r

/-- The address is in the range. -/
def Contains (r : MemRange) (k : Nat) : Prop := r.base ≤ k ∧ k < r.end_

instance (r s : MemRange) : Decidable (r.Apart s) :=
  inferInstanceAs (Decidable (r.end_ ≤ s.base ∨ s.end_ ≤ r.base))

instance (r : MemRange) (k : Nat) : Decidable (r.Contains k) :=
  inferInstanceAs (Decidable (r.base ≤ k ∧ k < r.end_))

theorem Apart.symm {s : MemRange} (h : r.Apart s) : s.Apart r := Or.symm h

/-- Disjoint ranges do not contain the same address. -/
theorem Apart.not_contains {s : MemRange} (h : r.Apart s) (hr : r.Contains k) :
    ¬s.Contains k := by
  intro hs
  simp only [Apart, Before, Contains] at h hr hs
  omega

end MemRange

open MemRange

/-! ## The compare and the sort function -/

theorem dvpMemRangeCompare_eq_zero : dvpMemRangeCompare r k = 0 ↔ r.Contains k := by
  simp only [dvpMemRangeCompare, Contains]
  split_ifs <;> simp_all

theorem dvpMemRangeSort_eq_zero {s : MemRange} (h : dvpMemRangeSort r s = 0) :
    ¬r.Apart s := by
  simp only [dvpMemRangeSort] at h
  simp only [Apart, Before]
  split_ifs at h <;> omega

/-- The compare function tells on which side of an address a range is. -/
theorem dvpMemRangeCompare_tells (k : Nat) :
    Tells Before Valid fun r => dvpMemRangeCompare r k := by
  constructor
  · intro r _
    simp only [dvpMemRangeCompare]
    split_ifs <;> simp
  · intro r s hr hs hrs
    simp only [dvpMemRangeCompare, Before, Valid] at *
    split_ifs <;> omega

/-- The sort function tells the order of disjoint ranges. -/
theorem dvpMemRangeSort_tells : SortTells Before Valid dvpMemRangeSort where
  tells z hz := by
    constructor
    · intro r _
      simp only [dvpMemRangeSort]
      split_ifs <;> simp
    · intro r s hr hs hrs
      simp only [dvpMemRangeSort, Before, Valid] at *
      split_ifs <;> omega
  lt_of_one r z _ _ h := by
    simp only [dvpMemRangeSort] at h
    split_ifs at h with hzr hrz
    · exact hrz
    · exact absurd h (by decide)
  lt_of_neg r z _ _ h := by
    simp only [dvpMemRangeSort] at h
    split_ifs at h with hzr
    exact hzr
  irrefl r hr h := by
    simp only [Before, Valid] at h hr
    omega

/-! ## The list as a set of ranges -/

/-- The list has the ranges `rs`. -/
structure RangesHold (m : BtreeMem MemRange) (btl : Btreelist MemRange Nat)
    (rs : List MemRange) : Prop where
  compare : btl.compare = dvpMemRangeCompare
  sort : btl.sort = dvpMemRangeSort
  nodes : ∃ ns, BtreeHolds Before Valid m btl ns ∧ (ns.map (valueOf m)).Perm (rs.map some)

/-- A list just made has no ranges. -/
theorem rangesHold_create (hm : m.Bounded) :
    RangesHold m (btreelistCreate dvpMemRangeCompare dvpMemRangeSort) [] where
  compare := rfl
  sort := rfl
  nodes := by
    refine ⟨[], ⟨ListHolds.empty hm, List.Pairwise.nil, by simp, rfl, by simp, ?_⟩, List.Perm.nil⟩
    rw [BinaryTree.balanced_nil]
    rfl

/-- The nodes of the list are those with its ranges. -/
theorem mem_ranges {ns : List Ptr} (hperm : (ns.map (valueOf m)).Perm (rs.map some)) :
    r ∈ rs ↔ ∃ p ∈ ns, valueOf m p = some r := by
  have hmem : some r ∈ ns.map (valueOf m) ↔ some r ∈ rs.map some := hperm.mem_iff
  rw [List.mem_map, List.mem_map_of_injective (Option.some_injective _)] at hmem
  exact hmem.symm

theorem RangesHold.length_eq {ns : List Ptr}
    (hperm : (ns.map (valueOf m)).Perm (rs.map some)) : ns.length = rs.length := by
  have hlength := hperm.length_eq
  rwa [List.length_map, List.length_map] at hlength

/-- A node has rank `0` for an address when its range contains it. -/
theorem rankOf_compare (hp : valueOf m p = some r) :
    rankOf m (fun s => dvpMemRangeCompare s k) p = 0 ↔ r.Contains k := by
  rw [rankOf_eq hp, dvpMemRangeCompare_eq_zero]

/-- `btreelist_find` finds the range that contains an address. -/
theorem RangesHold.find (h : RangesHold m btl rs) (k : Nat) :
    (btreelistFind m btl k = .ok none ∧ ∀ r ∈ rs, ¬r.Contains k) ∨
      ∃ p n, btreelistFind m btl k = .ok (some p) ∧ m.read (some p) = .ok n ∧
        n.data.value ∈ rs ∧ n.data.value.Contains k := by
  obtain ⟨hcompare, -, ns, hholds, hperm⟩ := h
  rcases btreelistFind_spec (hcompare ▸ dvpMemRangeCompare_tells k) hholds with
    ⟨hfind, hnone⟩ | ⟨p, hp, hfind, hrank⟩
  · refine .inl ⟨hfind, ?_⟩
    intro r hr hcontains
    obtain ⟨p, hp, hvalue⟩ := (mem_ranges hperm).mp hr
    rw [hcompare] at hnone
    exact hnone p hp ((rankOf_compare hvalue).mpr hcontains)
  · right
    obtain ⟨r, hvalue, -⟩ := hholds.value hp
    rw [hcompare, rankOf_compare hvalue] at hrank
    obtain ⟨d, hd, rfl⟩ := Option.map_eq_some_iff.mp hvalue
    obtain ⟨n, hn, rfl⟩ := Option.map_eq_some_iff.mp hd
    refine ⟨p, n, hfind, by simp [NodeMem.read, hn], ?_, hrank⟩
    exact (mem_ranges hperm).mpr ⟨p, hp, hvalue⟩

/-- A range is found by an address in it. -/
theorem btreeOrder_ranges : BtreeOrder Before Valid dvpMemRangeCompare dvpMemRangeSort where
  sorts := dvpMemRangeSort_tells
  compares := dvpMemRangeCompare_tells
  probe r hr := ⟨r.base, dvpMemRangeCompare_eq_zero.mpr ⟨le_rfl, hr⟩⟩

/-- A memory with the ranges of a list, from address `1` on. -/
def rangesAt (rs : List MemRange) : BtreeMem MemRange :=
  ⟨rs.length + 1, fun (p : Nat) =>
    if p = 0 then none else rs[p - 1]?.map fun r => ⟨none, none, none, none, r⟩⟩

theorem rangesAt_bounded : (rangesAt rs).Bounded := by
  intro p hp
  obtain ⟨r, hr⟩ := alive_iff_valueOf.mp hp
  unfold valueOf NodeMem.data rangesAt at hr
  dsimp only at hr
  split_ifs at hr with hzero
  · simp at hr
  · simp only [Option.map_map, Option.map_eq_some_iff] at hr
    obtain ⟨r', hr', -⟩ := hr
    obtain ⟨hlt, -⟩ := List.getElem?_eq_some_iff.mp hr'
    exact Nat.lt_succ_of_le (Nat.le_of_pred_lt hlt)

/-- In a run of a list with the functions of an order, and in one of a list of ranges,
`btreelist_find` finds what the list has exactly as long as `count` has room for the nodes added. A
range is not added when it overlaps one of the list. -/
theorem btreelist_find_complete {V : Type} [LinearOrder V] (m : BtreeMem V) (hm : m.Bounded)
    (es : List (BtreeEvent V V))
    (hproper : Machine.Meets btreelistEvent (BtreeProper fun _ => True)
      (m, btreelistCreate compareOf sortOf) es)
    (mr : BtreeMem MemRange) (hmr : mr.Bounded) (ers : List (BtreeEvent MemRange Nat))
    (hranges : Machine.Meets btreelistEvent (BtreeProper Valid)
      (mr, btreelistCreate dvpMemRangeCompare dvpMemRangeSort) ers) :
    (Machine.Always btreelistEvent FindComplete (m, btreelistCreate compareOf sortOf) es ↔
      Machine.Meets btreelistEvent BtreeCounts (m, btreelistCreate compareOf sortOf) es) ∧
    (Machine.Always btreelistEvent FindComplete
        (mr, btreelistCreate dvpMemRangeCompare dvpMemRangeSort) ers ↔
      Machine.Meets btreelistEvent BtreeCounts
        (mr, btreelistCreate dvpMemRangeCompare dvpMemRangeSort) ers) :=
  ⟨always_findComplete_iff btreeOrder_sortOf hm hproper,
    always_findComplete_iff btreeOrder_ranges hmr hranges⟩

theorem btreelist_find_complete_runs :
    (Machine.Always btreelistEvent FindComplete
        (objectsTo 3, btreelistCreate compareOf sortOf) (addsTo 3) ↔
      Machine.Meets btreelistEvent BtreeCounts
        (objectsTo 3, btreelistCreate compareOf sortOf) (addsTo 3)) ∧
    (Machine.Always btreelistEvent FindComplete
        (rangesAt [⟨20, 30⟩, ⟨0, 10⟩], btreelistCreate dvpMemRangeCompare dvpMemRangeSort)
        [.call (.add 1 true), .call (.add 2 true), .call (.remove 25 true)] ↔
      Machine.Meets btreelistEvent BtreeCounts
        (rangesAt [⟨20, 30⟩, ⟨0, 10⟩], btreelistCreate dvpMemRangeCompare dvpMemRangeSort)
        [.call (.add 1 true), .call (.add 2 true), .call (.remove 25 true)]) := by
  apply btreelist_find_complete _ objectsTo_bounded _ ?_ _ rangesAt_bounded
  · apply Machine.Meets.cons ⟨⟨20, 30⟩, rfl, (by decide : 20 < 30)⟩ rfl
    apply Machine.Meets.cons ⟨⟨0, 10⟩, rfl, (by decide : 0 < 10)⟩ rfl
    exact ⟨trivial, fun _ _ _ => trivial⟩
  · exact (addsTo_spec 3 3 le_rfl (by norm_num)).1

/-- `btreelist_add` adds a new range that is disjoint from the others. -/
theorem RangesHold.add (h : RangesHold m btl rs) (hx : ¬m.Alive x) (hlt : x < m.size)
    (hr : r.Valid) (hapart : ∀ s ∈ rs, s.Apart r) (hfits : rs.length + 1 < 2 ^ 31) :
    ∃ m' btl', btreelistAdd true (callocRange m r (some x)) btl (some x) = .ok (m', btl') ∧
      RangesHold m' btl' (r :: rs) := by
  obtain ⟨hcompare, hsort, ns, hholds, hperm⟩ := h
  have hlength := RangesHold.length_eq hperm
  have hcreate : BtreeHolds Before Valid (callocRange m r (some x)) btl ns :=
    hholds.create hx hlt
  have hvalue : valueOf (callocRange m r (some x)) x = some r := by
    rw [callocRange, valueOf_nodeCreate, if_pos rfl]
  have hold : ∀ p ∈ ns, valueOf (callocRange m r (some x)) p = valueOf m p := by
    intro p hp
    rw [callocRange, valueOf_nodeCreate, if_neg (hholds.ne_of_fresh hx hp)]
  rcases btreelistAdd_spec (hsort ▸ dvpMemRangeSort_tells) hcreate hvalue hr (.inl (by omega)) with
    ⟨⟨p, hp, hrank⟩, -⟩ | ⟨-, m', btl', xs, ys, rfl, hadd, hholds', hobjects, hsort', hcompare'⟩
  · -- no range of the list overlaps the new one
    obtain ⟨s, hs, -⟩ := hholds.value hp
    have hmem : s ∈ rs := (mem_ranges hperm).mpr ⟨p, hp, hs⟩
    rw [rankOf_eq ((hold p hp).trans hs), hsort] at hrank
    exact absurd (hapart s hmem) (dvpMemRangeSort_eq_zero hrank)
  · refine ⟨m', btl', hadd, hcompare'.trans hcompare, hsort'.trans hsort, _, hholds', ?_⟩
    have hnew : valueOf m' x = some r := by rw [hobjects.value, hvalue]
    have hrest : (xs ++ ys).map (valueOf m') = (xs ++ ys).map (valueOf m) := by
      apply List.map_congr_left
      intro p hp
      rw [hobjects.value, hold p hp]
    refine (List.perm_middle.map (valueOf m')).trans ?_
    rw [List.map_cons, hnew, hrest]
    exact hperm.cons (some r)

/-- `btreelist_add` adds the range, or `calloc` had no memory for it or for the array. -/
theorem RangesHold.add_or_error {mrange : Option Ptr} (alloc : Bool) (h : RangesHold m btl rs)
    (hfresh : ∀ x ∈ mrange, ¬m.Alive x ∧ x < m.size) (hr : r.Valid)
    (hapart : ∀ s ∈ rs, s.Apart r) (hfits : rs.length + 1 < 2 ^ 31) :
    (∃ m' btl', btreelistAdd alloc (callocRange m r mrange) btl mrange = .ok (m', btl') ∧
        RangesHold m' btl' (r :: rs)) ∨
      (¬(mrange ≠ none ∧ alloc = true) ∧
        btreelistAdd alloc (callocRange m r mrange) btl mrange = .error .nullPointer) := by
  cases mrange with
  | none =>
    obtain ⟨-, -, ns, hholds, -⟩ := h
    exact .inr ⟨by simp, btreelistAdd_null hholds⟩
  | some x =>
    obtain ⟨hx, hlt⟩ := hfresh x rfl
    cases alloc with
    | true => exact .inl (h.add hx hlt hr hapart hfits)
    | false =>
      obtain ⟨-, hsort, ns, hholds, hperm⟩ := h
      have hlength := RangesHold.length_eq hperm
      have hcreate : BtreeHolds Before Valid (callocRange m r (some x)) btl ns :=
        hholds.create hx hlt
      refine .inr ⟨by simp, ?_⟩
      apply btreelistAdd_without_array (hsort ▸ dvpMemRangeSort_tells) hcreate ?_ hr (.inl (by omega))
      rw [callocRange, valueOf_nodeCreate, if_pos rfl]

/-- `btreelist_remove` of an address takes the range out that contains it, and frees it. -/
theorem RangesHold.remove {alloc : Bool} (h : RangesHold m btl rs) (hrs : rs.Perm (r :: rs'))
    (hk : r.Contains k) (hapart : ∀ s ∈ rs', s.Apart r) (halloc : alloc = true ∨ rs' = []) :
    ∃ m' btl' p m'', btreelistRemove alloc m btl k = .ok (m', btl', some p) ∧
      freeRange m' (some p) = .ok m'' ∧ RangesHold m'' btl' rs' := by
  obtain ⟨hcompare, hsort, ns, hholds, hperm⟩ := h
  have hperm' : (ns.map (valueOf m)).Perm (some r :: rs'.map some) :=
    hperm.trans (hrs.map some)
  have hlength : ns.length = rs'.length + 1 := by
    have hlength := hperm'.length_eq
    simpa using hlength
  obtain ⟨p, hp, hvalue⟩ : ∃ p ∈ ns, valueOf m p = some r :=
    (mem_ranges hperm).mp (hrs.mem_iff.mpr List.mem_cons_self)
  have halloc' : alloc = true ∨ ns.length ≤ 1 ∨
      ∀ p ∈ ns, rankOf m (fun y => btl.compare y k) p ≠ 0 := by
    refine halloc.imp_right fun hnil => .inl ?_
    rw [hlength, hnil]
    rfl
  -- the ranges are apart, so that only one of them contains the address
  have hrank : ∀ q ∈ ns, rankOf m (fun y => btl.compare y k) q = 0 → valueOf m q = some r := by
    intro q hq hzero
    obtain ⟨s, hs, -⟩ := hholds.value hq
    rw [hcompare, rankOf_compare hs] at hzero
    have hmem : s ∈ rs := (mem_ranges hperm).mpr ⟨q, hq, hs⟩
    rcases List.mem_cons.mp (hrs.mem_iff.mp hmem) with rfl | hmem
    · exact hs
    · exact absurd hk ((hapart s hmem).not_contains hzero)
  rcases btreelistRemove_spec (hcompare ▸ dvpMemRangeCompare_tells k) hholds halloc' with
    ⟨hnone, -⟩ | ⟨xs, q, ys, m', btl', rfl, hzero, hremove, hholds', hobjects, hsort', hcompare'⟩
  · refine absurd ?_ (hnone p hp)
    rw [hcompare, rankOf_compare hvalue]
    exact hk
  · have hq : valueOf m q = some r := hrank q (by simp) hzero
    have hq' : valueOf m' q = some r := (hobjects.value q).trans hq
    have hnotMem : q ∉ xs ++ ys := hholds.list.notMem
    obtain ⟨d, hd, -⟩ := Option.map_eq_some_iff.mp hq'
    refine ⟨m', btl', q, NodeMem.without m' q, hremove, ?_, hcompare'.trans hcompare,
      hsort'.trans hsort, xs ++ ys, hholds'.destroy hnotMem, ?_⟩
    · rw [freeRange, nodeDestroy_eq hd]
      rfl
    -- the other nodes keep their ranges when this one is freed
    · have hsame : (xs ++ ys).map (valueOf (NodeMem.without m' q)) =
          (xs ++ ys).map (valueOf m) := by
        apply List.map_congr_left
        intro t ht
        have htq : t ≠ q := by
          rintro rfl
          exact hnotMem ht
        rw [valueOf_without, if_neg htq, hobjects.value]
      have hmiddle := (List.perm_middle.map (valueOf m)).symm.trans hperm'
      rw [List.map_cons, hq] at hmiddle
      rw [hsame]
      exact hmiddle.cons_inv

/-- `btreelist_remove` takes the range out, or `calloc` had no memory for the array. -/
theorem RangesHold.remove_or_error (alloc : Bool) (h : RangesHold m btl rs)
    (hrs : rs.Perm (r :: rs')) (hk : r.Contains k) (hapart : ∀ s ∈ rs', s.Apart r) :
    (∃ m' btl' p m'', btreelistRemove alloc m btl k = .ok (m', btl', some p) ∧
        freeRange m' (some p) = .ok m'' ∧ RangesHold m'' btl' rs') ∨
      (alloc = false ∧ ∃ e, btreelistRemove alloc m btl k = .error e) := by
  by_cases halloc : alloc = true ∨ rs' = []
  · exact .inl (h.remove hrs hk hapart halloc)
  · rw [not_or, Bool.not_eq_true] at halloc
    refine .inr ⟨halloc.1, ?_⟩
    cases hremove : btreelistRemove alloc m btl k with
    | error e => exact ⟨e, rfl⟩
    | ok res =>
      exfalso
      obtain ⟨hcompare, -, ns, hholds, hperm⟩ := h
      have hlength := RangesHold.length_eq hperm
      rw [hrs.length_eq, List.length_cons] at hlength
      have hpos : 0 < rs'.length := List.length_pos_iff.mpr halloc.2
      rcases btreelistRemove_alloc (hcompare ▸ dvpMemRangeCompare_tells k) hholds hremove with
        htrue | hone | hnone
      · rw [halloc.1] at htrue
        cases htrue
      · omega
      · obtain ⟨p, hp, hvalue⟩ : ∃ p ∈ ns, valueOf m p = some r :=
          (mem_ranges hperm).mp (hrs.mem_iff.mpr List.mem_cons_self)
        refine hnone p hp ?_
        rw [hcompare, rankOf_compare hvalue]
        exact hk

end DVP.Kgraph
