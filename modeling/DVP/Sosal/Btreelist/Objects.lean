import DVP.Sosal.Btreelist.Runs

/-!
# Objects that come and go

The list with a search tree when the objects its nodes are in are allocated and freed between the
calls, and what the calls do when `calloc` has no memory for the array: `btreelist_rebtree` reads
the array all the same, so a call that returns had it, unless the list is empty.
-/

namespace DVP.Sosal

variable {V K : Type} {lt : V → V → Prop} {ok : V → Prop} {m m' : BtreeMem V}
  {btl btl' : Btreelist V K} {x p : Ptr} {v : V} {ns : List Ptr}

/-- The list depends on its own nodes only. -/
theorem BtreeHolds.congr (h : BtreeHolds lt ok m btl ns) (hbounded : m'.Bounded)
    (hlink : ∀ p ∈ ns, m'.link p = m.link p) (hdata : ∀ p ∈ ns, m'.data p = m.data p) :
    BtreeHolds lt ok m' btl ns := by
  have hvalue : ∀ p ∈ ns, valueOf m' p = valueOf m p := by
    intro p hp
    rw [valueOf, hdata p hp, valueOf]
  refine ⟨h.list.congr_link hbounded hlink, ?_, ?_, h.count, h.fits, h.tree.congr ?_⟩
  · refine List.Pairwise.imp_of_mem ?_ h.sorted
    intro p q hp hq hpq
    rwa [hvalue p hp, hvalue q hq]
  · intro p hp
    rw [hvalue p hp]
    exact h.ok p hp
  · rwa [BinaryTree.inorder_balanced]

/-! ## Allocating and freeing -/

theorem valueOf_nodeCreate {d : BtreeData V} {q : Ptr} :
    valueOf (nodeCreate m p d) q = if q = p then some d.value else valueOf m q := by
  simp only [valueOf, data_nodeCreate]
  split_ifs <;> rfl

theorem valueOf_without {q : Ptr} :
    valueOf (NodeMem.without m p) q = if q = p then none else valueOf m q := by
  simp only [valueOf, NodeMem.data_without]
  split_ifs <;> rfl

/-- A node of the list is not at the address of a new object. -/
theorem BtreeHolds.ne_of_fresh (h : BtreeHolds lt ok m btl ns) (hx : ¬m.Alive x) (hp : p ∈ ns) :
    p ≠ x := by
  rintro rfl
  exact hx (h.list.alive hp)

/-- A new object leaves the list as it is. -/
theorem BtreeHolds.create (h : BtreeHolds lt ok m btl ns) {d : BtreeData V} (hx : ¬m.Alive x)
    (hlt : x < m.size) : BtreeHolds lt ok (nodeCreate m x d) btl ns := by
  apply h.congr
  · intro q hq
    rcases alive_nodeCreate.mp hq with rfl | hq
    · exact hlt
    · exact h.list.bounded q hq
  · intro p hp
    rw [link_nodeCreate, if_neg (h.ne_of_fresh hx hp)]
  · intro p hp
    rw [data_nodeCreate, if_neg (h.ne_of_fresh hx hp)]

/-- Freeing an object that is not in the list leaves the list as it is. -/
theorem BtreeHolds.destroy (h : BtreeHolds lt ok m btl ns) (hx : x ∉ ns) :
    BtreeHolds lt ok (NodeMem.without m x) btl ns := by
  have hne : ∀ p ∈ ns, p ≠ x := by
    rintro p hp rfl
    exact hx hp
  apply h.congr
  · intro q hq
    exact h.list.bounded q (NodeMem.alive_without.mp hq).2
  · intro p hp
    rw [NodeMem.link_without, if_neg (hne p hp)]
  · intro p hp
    rw [NodeMem.data_without, if_neg (hne p hp)]

/-! ## No memory for the array -/

/-- Without an array, the tree of a list with nodes is not rebuilt. -/
theorem btreelistRebuild_without_array (hcount : 0 < btl.count) :
    btreelistRebuild false m btl = .error .nullPointer := by
  have hcenter : ¬btl.count.tdiv 2 < 0 := Int.not_lt.mpr (Int.tdiv_nonneg hcount.le (by decide))
  simp [btreelistRebuild, btreelistRebtree, rebtreeArray, Btreelist.nodeAt, hcenter, hcount]

/-- `btreelist_add` does not return without an array. -/
theorem btreelistAdd_without_array (hsort : SortTells lt ok btl.sort)
    (h : BtreeHolds lt ok m btl ns) (hx : valueOf m x = some v) (hv : ok v)
    (hfits : ns.length + 1 < 2 ^ 31 ∨ ∃ p ∈ ns, rankOf m (fun y => btl.sort y v) p = 0) :
    btreelistAdd false m btl (some x) = .error .nullPointer := by
  have hax : m.Alive x := alive_iff_valueOf.mpr ⟨v, hx⟩
  have hcount := h.count
  by_cases hne : ns = []
  · subst hne
    obtain ⟨m₁, hinsert, -⟩ := btreelistInsertFirst_spec h.list.bounded hax
    rw [btreelistAdd_of_insert ((btreelistInsert_empty h).trans hinsert)]
    exact btreelistRebuild_without_array Int.zero_lt_one
  · have hpos : 0 < ns.length := List.length_pos_iff.mpr hne
    rcases btreelistInsert_root hsort h hx hv hne with
      ⟨-, hinsert⟩ | ⟨m₁, head, tail, as, bs, rfl, has, hbs, hinsert, -⟩
    · rw [btreelistAdd_of_insert hinsert]
      exact btreelistRebuild_without_array (by omega)
    · rw [btreelistAdd_of_insert hinsert]
      refine btreelistRebuild_without_array ?_
      have hroom : (as ++ bs).length + 1 < 2 ^ 31 := by
        refine hfits.resolve_right ?_
        rintro ⟨p, hp, hzero⟩
        exact rank_ne_zero has hbs hp hzero
      show 0 < int32 (btl.count + 1)
      rw [int32_eq (by omega) (by omega)]
      omega

/-- `btreelist_add` does not return for a `NULL` node. -/
theorem btreelistAdd_null {alloc : Bool} (h : BtreeHolds lt ok m btl ns) :
    btreelistAdd alloc m btl none = .error .nullPointer := by
  have hinsert : btreelistInsert m btl none (m.size + 1) btl.root = .error .nullPointer := by
    have htree := h.tree
    cases ht : BinaryTree.balanced ns with
    | nil =>
      -- An empty tree is over an empty list.
      have hns : ns = [] := by rw [← BinaryTree.inorder_balanced ns, ht]; rfl
      subst hns
      rw [btreelistInsert_empty h]
      rfl
    | node p l r =>
      rw [ht] at htree
      obtain ⟨hroot, d, hd, -⟩ := htree
      obtain ⟨n, hn, -⟩ := Option.map_eq_some_iff.mp hd
      rw [hroot, btreelistInsert, if_neg (by simp [hroot])]
      simp [NodeMem.read, hn]
  rw [btreelistAdd, hinsert]
  rfl

/-- `btreelist_remove` that returns had an array, or left the list empty, or found nothing. -/
theorem btreelistRemove_alloc {k : K} {alloc : Bool} {r : BtreeMem V × Btreelist V K × Option Ptr}
    (hcompare : Tells lt ok fun y => btl.compare y k) (h : BtreeHolds lt ok m btl ns)
    (hremove : btreelistRemove alloc m btl k = .ok r) :
    alloc = true ∨ ns.length ≤ 1 ∨ ∀ p ∈ ns, rankOf m (fun y => btl.compare y k) p ≠ 0 := by
  by_contra hnot
  rw [not_or, not_or, Bool.not_eq_true] at hnot
  obtain ⟨rfl, hlength, hrank⟩ := hnot
  rcases btreelistFind_spec hcompare h with ⟨-, hnone⟩ | ⟨p, hp, hfind, -⟩
  · exact hrank hnone
  · obtain ⟨xs, ys, rfl⟩ := List.append_of_mem hp
    obtain ⟨m₁, head, tail, hunlink, -⟩ := btreelistUnlink_spec h.list
    have hcount := h.count
    have hfits := h.fits
    rw [btreelistRemove, hfind, ok_bind] at hremove
    simp only [hunlink, ok_bind] at hremove
    rw [btreelistRebuild_without_array] at hremove
    · cases hremove
    · change 0 < int32 (btl.count - 1)
      rw [int32_eq (by omega) (by omega)]
      omega

end DVP.Sosal
