import DVP.Lib.SearchTree
import DVP.Sosal.Btreelist.Basic
import DVP.Sosal.List.Spec

/-!
# Rebuilding the search tree

`TreeAt m r t` says that the tree `t` is in memory at `r`. `btreelist_rebtree` leaves the balanced
tree over the nodes of the list there, and changes nothing but the children of these nodes
(`btreelistRebuild_spec`).
-/

namespace DVP.Sosal

variable {V K : Type} {m m' m'' : BtreeMem V} {btl : Btreelist V K} {p q : Ptr}
  {v r : Option Ptr} {ns xs ys zs : List Ptr}

/-! ## The children of nodes -/

/-- The value of the object a node is in. -/
def valueOf (m : BtreeMem V) (p : Ptr) : Option V := (m.data p).map BtreeData.value

/-- A node that is alive has a value. -/
theorem alive_iff_valueOf : m.Alive p ↔ ∃ x, valueOf m p = some x := by
  rw [NodeMem.alive_iff_data]
  simp [valueOf]

/-- The memory with a child written. -/
def BtreeMem.withLeft (m : BtreeMem V) (p : Ptr) (v : Option Ptr) : BtreeMem V :=
  m.modify p fun n => { n with data := { n.data with left := v } }

/-- `p->right = v`, when `p` is alive. -/
def BtreeMem.withRight (m : BtreeMem V) (p : Ptr) (v : Option Ptr) : BtreeMem V :=
  m.modify p fun n => { n with data := { n.data with right := v } }

/-- The left child of a node that is alive can be written. -/
theorem setLeft_of_alive (h : m.Alive p) : m.setLeft p v = .ok (m.withLeft p v) :=
  NodeMem.write_of_alive h

/-- The right child of a node that is alive can be written. -/
theorem setRight_of_alive (h : m.Alive p) : m.setRight p v = .ok (m.withRight p v) :=
  NodeMem.write_of_alive h

/-- A left child changes the data of one node. -/
theorem data_withLeft : (m.withLeft p v).data q =
    if q = p then (m.data p).map fun d => { d with left := v } else m.data q := by
  simp only [NodeMem.data, BtreeMem.withLeft, NodeMem.node_modify]
  split_ifs with hqp
  · cases m.node p <;> rfl
  · rfl

/-- A right child changes the data of one node. -/
theorem data_withRight : (m.withRight p v).data q =
    if q = p then (m.data p).map fun d => { d with right := v } else m.data q := by
  simp only [NodeMem.data, BtreeMem.withRight, NodeMem.node_modify]
  split_ifs with hqp
  · cases m.node p <;> rfl
  · rfl

/-- A left child leaves the links of the list. -/
theorem link_withLeft : (m.withLeft p v).link q = m.link q := by
  simp only [NodeMem.link, BtreeMem.withLeft, NodeMem.node_modify]
  split_ifs with hqp
  · rw [hqp]
    cases m.node p <;> rfl
  · rfl

/-- A right child leaves the links of the list. -/
theorem link_withRight : (m.withRight p v).link q = m.link q := by
  simp only [NodeMem.link, BtreeMem.withRight, NodeMem.node_modify]
  split_ifs with hqp
  · rw [hqp]
    cases m.node p <;> rfl
  · rfl

/-- Only the children of the nodes `ps` changed. -/
structure Retied (m m' : BtreeMem V) (ps : List Ptr) : Prop where
  size : m'.size = m.size
  link : ∀ p, m'.link p = m.link p
  value : ∀ p, valueOf m' p = valueOf m p
  data : ∀ p, p ∉ ps → m'.data p = m.data p

namespace Retied

variable {ps qs : List Ptr}

/-- Nothing has changed. -/
theorem refl : Retied m m ps := ⟨rfl, fun _ => rfl, fun _ => rfl, fun _ _ => rfl⟩

/-- Two changes of the children of some nodes are one. -/
theorem trans (h : Retied m m' ps) (h' : Retied m' m'' ps) : Retied m m'' ps where
  size := h'.size.trans h.size
  link p := (h'.link p).trans (h.link p)
  value p := (h'.value p).trans (h.value p)
  data p hp := (h'.data p hp).trans (h.data p hp)

/-- More nodes may have other children. -/
theorem mono (h : Retied m m' ps) (hsub : ∀ p ∈ ps, p ∈ qs) : Retied m m' qs :=
  ⟨h.size, h.link, h.value, fun p hp => h.data p fun hmem => hp (hsub p hmem)⟩

/-- New children leave what is alive. -/
theorem alive_iff (h : Retied m m' ps) : m'.Alive p ↔ m.Alive p := by
  rw [alive_iff_valueOf, alive_iff_valueOf, h.value]

/-- A left child changes its node alone. -/
theorem withLeft : Retied m (m.withLeft p v) [p] := by
  refine ⟨rfl, fun q => link_withLeft, fun q => ?_, fun q hq => ?_⟩
  · rw [valueOf, valueOf, data_withLeft]
    split_ifs with hqp
    · rw [hqp, Option.map_map]
      rfl
    · rfl
  · rw [data_withLeft, if_neg (List.ne_of_not_mem_cons hq)]

/-- A right child changes its node alone. -/
theorem withRight : Retied m (m.withRight p v) [p] := by
  refine ⟨rfl, fun q => link_withRight, fun q => ?_, fun q hq => ?_⟩
  · rw [valueOf, valueOf, data_withRight]
    split_ifs with hqp
    · rw [hqp, Option.map_map]
      rfl
    · rfl
  · rw [data_withRight, if_neg (List.ne_of_not_mem_cons hq)]

end Retied

/-! ## Trees in memory -/

/-- The tree at `r` in memory. -/
def TreeAt (m : BtreeMem V) : Option Ptr → BinaryTree Ptr → Prop
  | r, .nil => r = none
  | r, .node p lt rt =>
    r = some p ∧ ∃ d, m.data p = some d ∧ TreeAt m d.left lt ∧ TreeAt m d.right rt

namespace TreeAt

variable {t : BinaryTree Ptr}

/-- A tree depends on the data of its own nodes only. -/
theorem congr (h : TreeAt m r t) (hdata : ∀ p ∈ t.inorder, m'.data p = m.data p) :
    TreeAt m' r t := by
  induction t generalizing r with
  | nil => exact h
  | node p lt rt ihl ihr =>
    obtain ⟨hr, d, hd, hl, hrt⟩ := h
    have hsub : ∀ q, q ∈ lt.inorder ∨ q = p ∨ q ∈ rt.inorder → m'.data q = m.data q := by
      intro q hq
      apply hdata
      rwa [BinaryTree.inorder, List.mem_append, List.mem_cons]
    refine ⟨hr, d, (hsub p (.inr (.inl rfl))).trans hd, ?_, ?_⟩
    · exact ihl hl fun q hq => hsub q (.inl hq)
    · exact ihr hrt fun q hq => hsub q (.inr (.inr hq))

/-- Two memories with the same tree, that differ at most in its children, agree on them. -/
theorem unique {r' : Option Ptr} (h : TreeAt m r t) (h' : TreeAt m' r' t)
    (hvalue : ∀ p ∈ t.inorder, valueOf m' p = valueOf m p) :
    r' = r ∧ ∀ p ∈ t.inorder, m'.data p = m.data p := by
  induction t generalizing r r' with
  | nil => exact ⟨h'.trans h.symm, fun p hp => absurd hp List.not_mem_nil⟩
  | node p lt rt ihl ihr =>
    obtain ⟨hr, d, hd, hl, hrt⟩ := h
    obtain ⟨hr', d', hd', hl', hrt'⟩ := h'
    have hsub : ∀ q, q ∈ lt.inorder ∨ q = p ∨ q ∈ rt.inorder → valueOf m' q = valueOf m q := by
      intro q hq
      apply hvalue
      rwa [BinaryTree.inorder, List.mem_append, List.mem_cons]
    obtain ⟨hleft, hldata⟩ := ihl hl hl' fun q hq => hsub q (.inl hq)
    obtain ⟨hright, hrdata⟩ := ihr hrt hrt' fun q hq => hsub q (.inr (.inr hq))
    have hp := hsub p (.inr (.inl rfl))
    rw [valueOf, valueOf, hd, hd', Option.map_some, Option.map_some, Option.some.injEq] at hp
    have hdd : d' = d := by
      cases d
      cases d'
      simp_all
    refine ⟨hr'.trans hr.symm, fun q hq => ?_⟩
    rw [BinaryTree.inorder, List.mem_append, List.mem_cons] at hq
    rcases hq with hq | rfl | hq
    · exact hldata q hq
    · rw [hd', hd, hdd]
    · exact hrdata q hq

/-- Two sides and their root make a tree. -/
theorem join {left right : Option Ptr} {lt rt : BinaryTree Ptr} {m₁ m₂ : BtreeMem V}
    (hnodup : (lt.inorder ++ p :: rt.inorder).Nodup) (hp : m.Alive p) (hlt : TreeAt m₁ left lt)
    (htied : Retied m m₁ lt.inorder) (hrt : TreeAt m₂ right rt)
    (htied' : Retied (m₁.withLeft p left) m₂ rt.inorder) :
    TreeAt (m₂.withRight p right) (some p) (.node p lt rt) ∧
      Retied m (m₂.withRight p right) (lt.inorder ++ p :: rt.inorder) := by
  obtain ⟨hnodup', hpmem⟩ := nodup_middle.mp hnodup
  obtain ⟨-, -, hapart⟩ := List.nodup_append.mp hnodup'
  rw [List.mem_append, not_or] at hpmem
  obtain ⟨d, hd⟩ := NodeMem.alive_iff_data.mp (htied.alive_iff.mpr hp)
  -- the right side does not change the root
  have hd₂ : m₂.data p = some { d with left := left } := by
    rw [htied'.data p hpmem.2, data_withLeft, if_pos rfl, hd]
    rfl
  constructor
  · refine ⟨rfl, { d with left := left, right := right }, ?_, ?_, ?_⟩
    · rw [data_withRight, if_pos rfl, hd₂]
      rfl
    · refine hlt.congr fun q hq => ?_
      have hqp : q ≠ p := by
        rintro rfl
        exact hpmem.1 hq
      have hqr : q ∉ rt.inorder := fun hqr => hapart q hq q hqr rfl
      rw [data_withRight, if_neg hqp, htied'.data q hqr, data_withLeft, if_neg hqp]
    · refine hrt.congr fun q hq => ?_
      rw [data_withRight, if_neg]
      rintro rfl
      exact hpmem.2 hq
  · have hsub : ∀ q, q ∈ lt.inorder ∨ q = p ∨ q ∈ rt.inorder →
        q ∈ lt.inorder ++ p :: rt.inorder := by
      intro q hq
      rwa [List.mem_append, List.mem_cons]
    have hnode : ∀ q ∈ [p], q ∈ lt.inorder ++ p :: rt.inorder :=
      fun q hq => hsub q (.inr (.inl (List.mem_singleton.mp hq)))
    have h₁ : Retied m (m₁.withLeft p left) (lt.inorder ++ p :: rt.inorder) :=
      (htied.mono fun q hq => hsub q (.inl hq)).trans (Retied.withLeft.mono hnode)
    exact (h₁.trans (htied'.mono fun q hq => hsub q (.inr (.inr hq)))).trans
      (Retied.withRight.mono hnode)

end TreeAt

/-! ## The numbers of `btreelist_rebtree` -/

/-- A number that 32 bits with a sign hold is kept. -/
theorem int32_eq {n : Int} (h : 0 ≤ n) (h' : n < 2 ^ 31) : int32 n = n := by
  unfold int32
  omega

/-- A number that 32 bits without a sign hold is kept. -/
theorem uint32_eq {n : Int} (h : 0 ≤ n) (h' : n < 2 ^ 32) : uint32 n = n := by
  unfold uint32
  omega

/-- The middle of the left half. -/
theorem left_center {lo n : Nat} (hn : 4 < n) (hlo : lo + n < 2 ^ 31) :
    (let ll := uint32 ((n : Int) / 2)
      let lc := uint32 (((lo + n / 2 : Nat) : Int) - ll / 2)
      int32 (if ll % 2 ≠ 0 then uint32 (lc - 1) else lc)) = ((lo + n / 2 / 2 : Nat) : Int) := by
  have hll : uint32 ((n : Int) / 2) = (n : Int) / 2 := uint32_eq (by omega) (by omega)
  have hlc : uint32 (((lo + n / 2 : Nat) : Int) - (n : Int) / 2 / 2) =
      ((lo + n / 2 : Nat) : Int) - (n : Int) / 2 / 2 := uint32_eq (by omega) (by omega)
  simp only [hll, hlc]
  split_ifs with hodd
  · rw [uint32_eq (by omega) (by omega), int32_eq (by omega) (by omega)]
    omega
  · rw [int32_eq (by omega) (by omega)]
    omega

/-- The length of the right half. -/
theorem right_length {n : Nat} (hn : 4 < n) (hlt : n < 2 ^ 31) :
    (if (n : Int) % 2 ≠ 0 then uint32 ((n : Int) / 2) else uint32 (uint32 ((n : Int) / 2) - 1)) =
      ((n - n / 2 - 1 : Nat) : Int) := by
  rw [uint32_eq (by omega) (by omega)]
  split_ifs with hodd
  · omega
  · rw [uint32_eq (by omega) (by omega)]
    omega

/-! ## Rebuilding -/

/-- A function that rebuilds the parts of the list that are shorter than `bound`. -/
def Rebuilds (rebtree : Rebtree V K) (btl : Btreelist V K) (ns : List Ptr) (bound : Nat) : Prop :=
  ∀ (m : BtreeMem V) (pre zs post : List Ptr) (center count : Int),
    ns = pre ++ (zs ++ post) → zs ≠ [] → zs.length < bound → (∀ p ∈ zs, m.Alive p) →
    center = ((pre.length + zs.length / 2 : Nat) : Int) → count = zs.length →
    ∃ m' root, rebtree m btl center count = .ok (m', btl, root) ∧
      TreeAt m' root (.balanced zs) ∧ Retied m m' zs

/-- The rebuilt half of a list, which may be empty. -/
theorem Rebuilds.half {rebtree : Rebtree V K} {bound : Nat} (m : BtreeMem V)
    (pre zs post : List Ptr) (hrec : Rebuilds rebtree btl ns bound) (hns : ns = pre ++ (zs ++ post))
    (hlt : zs.length < bound) (halive : ∀ p ∈ zs, m.Alive p) :
    ∃ m' root, (zs = [] → m' = m ∧ root = none) ∧
      (∀ center count : Int, zs ≠ [] → center = ((pre.length + zs.length / 2 : Nat) : Int) →
        count = zs.length → rebtree m btl center count = .ok (m', btl, root)) ∧
      TreeAt m' root (.balanced zs) ∧ Retied m m' zs := by
  by_cases hne : zs = []
  · refine ⟨m, none, fun _ => ⟨rfl, rfl⟩, fun _ _ hne' => absurd hne hne', ?_, Retied.refl⟩
    rw [hne, BinaryTree.balanced_nil]
    rfl
  · obtain ⟨m', root, hrebtree, htree, htied⟩ := hrec m pre zs post _ _ hns hne hlt halive rfl rfl
    refine ⟨m', root, fun hnil => absurd hnil hne, fun center count _ hcenter hcount => ?_, htree,
      htied⟩
    rw [hcenter, hcount, hrebtree]

/-- The `switch` builds the tree over a part of the list from the trees over its halves. -/
theorem rebtreeSwitch_spec {rebtree : Rebtree V K} {pre post : List Ptr}
    (hns : ns = pre ++ ((xs ++ p :: ys) ++ post))
    (hlen : xs.length = (xs ++ p :: ys).length / 2) (hlt : ns.length < 2 ^ 31)
    (hnodup : (xs ++ p :: ys).Nodup) (halive : ∀ q ∈ xs ++ p :: ys, m.Alive q)
    (hrec : Rebuilds rebtree btl ns (xs ++ p :: ys).length) :
    ∃ m', rebtreeSwitch rebtree m btl p ((pre.length + (xs ++ p :: ys).length / 2 : Nat) : Int)
        ((xs ++ p :: ys).length : Nat) = .ok (m', btl, some p) ∧
      TreeAt m' (some p) (.balanced (xs ++ p :: ys)) ∧ Retied m m' (xs ++ p :: ys) := by
  have hsum : (xs ++ p :: ys).length = xs.length + ys.length + 1 := by
    rw [List.length_append, List.length_cons, Nat.add_assoc]
  have hroom : pre.length + (xs ++ p :: ys).length ≤ ns.length := by
    rw [hns]
    simp only [List.length_append]
    omega
  have hp : m.Alive p := halive p (by simp)
  obtain ⟨m₁, left, hnil₁, hleft, htree₁, htied₁⟩ := hrec.half m pre xs (p :: ys ++ post)
    (by rw [hns, List.append_assoc]) (by omega) fun q hq => halive q (List.mem_append_left _ hq)
  obtain ⟨m₂, right, hnil₂, hright, htree₂, htied₂⟩ := hrec.half (m₁.withLeft p left)
    (pre ++ (xs ++ [p])) ys post (by rw [hns]; simp) (by omega) fun q hq => by
      rw [Retied.withLeft.alive_iff, htied₁.alive_iff]
      exact halive q (by simp [hq])
  have hp₁ : m₁.Alive p := htied₁.alive_iff.mpr hp
  have hp₂ : m₂.Alive p := by rwa [htied₂.alive_iff, Retied.withLeft.alive_iff]
  have hpre : (pre ++ (xs ++ [p])).length = pre.length + (xs.length + 1) := by simp
  rw [hpre] at hright
  have hzero : ∀ zs : List Ptr, zs.length = 0 → zs = [] := fun _ => List.eq_nil_of_length_eq_zero
  have hpos : ∀ zs : List Ptr, 0 < zs.length → zs ≠ [] := fun _ => List.length_pos_iff.mp
  refine ⟨m₂.withRight p right, ?_, ?_⟩
  · generalize (xs ++ p :: ys).length = n at *
    -- the calls of the `switch` are those for the two halves
    rw [rebtreeSwitch]
    by_cases h1 : n = 1
    · obtain ⟨rfl, rfl⟩ := hnil₁ (hzero xs (by omega))
      obtain ⟨rfl, rfl⟩ := hnil₂ (hzero ys (by omega))
      rw [if_pos (by omega)]
      simp [setLeft_of_alive, setRight_of_alive, hp, hp₂]
    rw [if_neg (by omega)]
    by_cases h2 : n = 2
    · obtain ⟨rfl, rfl⟩ := hnil₂ (hzero ys (by omega))
      rw [if_pos (by omega), hleft _ _ (hpos xs (by omega)) (by omega) (by omega)]
      simp [setLeft_of_alive, setRight_of_alive, hp₁, hp₂]
    rw [if_neg (by omega)]
    by_cases h3 : n = 3
    · rw [if_pos (by omega), hleft _ _ (hpos xs (by omega)) (by omega) (by omega)]
      simp only [ok_bind, setLeft_of_alive hp₁]
      rw [hright _ _ (hpos ys (by omega)) (by omega) (by omega)]
      simp [setRight_of_alive, hp₂]
    rw [if_neg (by omega)]
    by_cases h4 : n = 4
    · rw [if_pos (by omega), hleft _ _ (hpos xs (by omega)) (by omega) (by omega)]
      simp only [ok_bind, setLeft_of_alive hp₁]
      rw [hright _ _ (hpos ys (by omega)) (by omega) (by omega)]
      simp [setRight_of_alive, hp₂]
    rw [if_neg (by omega)]
    have hcenter := left_center (show 4 < n by omega) (show pre.length + n < 2 ^ 31 by omega)
    have hlength := right_length (show 4 < n by omega) (by omega)
    simp only at hcenter
    simp only [hcenter, hlength]
    rw [hleft _ _ (hpos xs (by omega)) (by omega) (by
      rw [uint32_eq (by omega) (by omega), int32_eq (by omega) (by omega)]
      omega)]
    simp only [ok_bind, setLeft_of_alive hp₁]
    rw [hright _ _ (hpos ys (by omega)) (by
      rw [uint32_eq (by omega) (by omega), int32_eq (by omega) (by omega)]
      omega) (by
      rw [int32_eq (by omega) (by omega)]
      omega)]
    simp [setRight_of_alive, hp₂]
  · have hjoin : TreeAt (m₂.withRight p right) (some p)
          (.node p (.balanced xs) (.balanced ys)) ∧ Retied m (m₂.withRight p right)
            ((BinaryTree.balanced xs).inorder ++ p :: (BinaryTree.balanced ys).inorder) := by
      apply TreeAt.join _ hp htree₁ _ htree₂ <;> simpa only [BinaryTree.inorder_balanced]
    rw [BinaryTree.balanced_append hlen]
    rwa [BinaryTree.inorder_balanced, BinaryTree.inorder_balanced] at hjoin

/-- The array holds the nodes of the list. -/
theorem nodeAt_eq (harray : btl.array = some (ns.map some)) (pre post : List Ptr)
    (hns : ns = pre ++ p :: post) {center : Int} (hcenter : center = (pre.length : Nat)) :
    btl.nodeAt center = .ok p := by
  have hget : (ns.map some)[center.toNat]? = some (some p) := by
    rw [hns, hcenter, Int.toNat_natCast, List.getElem?_map, List.getElem?_append_right le_rfl]
    simp
  simp [Btreelist.nodeAt, harray, hget]

/-- A call of `btreelist_rebtree` for some nodes is its `switch` for the one in the middle. -/
theorem btreelistRebtree_succ {alloc : Bool} {fuel : Nat} {btl' : Btreelist V K}
    {center count : Int}
    (hbtl : (if count = btl.count then rebtreeArray alloc m btl count else pure btl) = .ok btl')
    (hcenter : 0 ≤ center) (hcount : 0 < count) (hnode : btl'.nodeAt center = .ok p) :
    btreelistRebtree alloc (fuel + 1) m btl center count =
      rebtreeSwitch (btreelistRebtree alloc fuel) m btl' p center count := by
  rw [btreelistRebtree]
  by_cases hwhole : count = btl.count
  · rw [if_pos hwhole] at hbtl ⊢
    simp only [hbtl, ok_bind, if_neg (Int.not_lt.mpr hcenter), if_pos hcount, hnode]
  · rw [if_neg hwhole] at hbtl ⊢
    simp only [hbtl, ok_bind, if_neg (Int.not_lt.mpr hcenter), if_pos hcount, hnode]

/-- A recursive call of `btreelist_rebtree` rebuilds its part of the list. -/
theorem btreelistRebtree_rebuilds {alloc : Bool} {fuel bound : Nat}
    (harray : btl.array = some (ns.map some)) (hcount : btl.count = ns.length)
    (hlt : ns.length < 2 ^ 31) (hnodup : ns.Nodup) (hfuel : bound ≤ fuel + 1)
    (hbound : bound ≤ ns.length) : Rebuilds (btreelistRebtree alloc fuel) btl ns bound := by
  induction fuel generalizing bound with
  | zero =>
    intro m pre zs post center count hns hne hlen
    have hpos : 0 < zs.length := List.length_pos_iff.mpr hne
    omega
  | succ fuel ih =>
    intro m pre zs post center count hns hne hlen halive hcenter hcnt
    obtain ⟨xs, p, ys, rfl, hmiddle⟩ := BinaryTree.exists_middle hne
    have hpos : 0 < (xs ++ p :: ys).length := List.length_pos_iff.mpr hne
    have hnodup' : (xs ++ p :: ys).Nodup := by
      rw [hns] at hnodup
      exact (List.nodup_append.mp (List.nodup_append.mp hnodup).2.1).1
    have hnode : btl.nodeAt center = .ok p := by
      refine nodeAt_eq harray (pre ++ xs) (ys ++ post) ?_ ?_
      · rw [hns]
        simp
      · rw [hcenter, ← hmiddle, List.length_append]
    obtain ⟨m', hswitch, htree, htied⟩ := rebtreeSwitch_spec hns hmiddle hlt hnodup' halive
      (ih (show (xs ++ p :: ys).length ≤ fuel + 1 by omega) (by omega))
    refine ⟨m', some p, ?_, htree, htied⟩
    rw [btreelistRebtree_succ (if_neg (by omega)) (by omega) (by omega) hnode, hcenter, hcnt]
    exact hswitch

/-- The loop over the list writes its nodes to the array. -/
theorem rebtreeFill_spec {l : LinkedList} {fuel : Nat} (h : ListHolds m l (xs ++ ys))
    (hfuel : ys.length ≤ fuel) :
    rebtreeFill m fuel ys.head? xs.length (xs.map some ++ List.replicate ys.length none) =
      .ok ((xs ++ ys).map some) := by
  induction fuel generalizing xs ys with
  | zero =>
    obtain rfl : ys = [] := List.eq_nil_of_length_eq_zero (by omega)
    simp [rebtreeFill]
  | succ fuel ih =>
    cases ys with
    | nil => simp [rebtreeFill]
    | cons y ys =>
      obtain ⟨d, hread⟩ := NodeMem.read_of_link h.link_eq
      have hrest := ih h.step (by simpa using hfuel)
      rw [List.head?_cons, rebtreeFill, hread, ok_bind, if_pos (by simp)]
      simpa [List.replicate_succ] using hrest

/-- `btreelist_rebtree` leaves the balanced tree over the list in memory. -/
theorem btreelistRebuild_spec {alloc : Bool} (h : ListHolds m ⟨btl.head, btl.tail⟩ ns)
    (hcount : btl.count = ns.length) (hlt : ns.length < 2 ^ 31) (halloc : alloc = true ∨ ns = []) :
    ∃ m' root array, btreelistRebuild alloc m btl =
        .ok (m', { btl with array := array, root := root }) ∧
      TreeAt m' root (.balanced ns) ∧ Retied m m' ns := by
  by_cases hne : ns = []
  · -- there is nothing to put in the array
    have hzero : btl.count = 0 := by rw [hcount, hne]; rfl
    have hhead : btl.head = none := by
      have hhead := h.head
      rwa [hne] at hhead
    obtain ⟨btl', harray⟩ : ∃ array, rebtreeArray alloc m btl 0 =
        .ok { btl with array := array } := by
      by_cases halloc : alloc = true
      · exact ⟨some [], by simp [rebtreeArray, halloc, hhead, rebtreeFill]⟩
      · exact ⟨none, by simp [rebtreeArray, halloc]⟩
    refine ⟨m, none, btl', ?_, ?_, Retied.refl⟩
    · simp [btreelistRebuild, btreelistRebtree, hzero, harray]
    · rw [hne, BinaryTree.balanced_nil]
      rfl
  · have halloc' : alloc = true := halloc.resolve_right hne
    obtain ⟨xs, p, ys, rfl, hmiddle⟩ := BinaryTree.exists_middle hne
    have hpos : 0 < (xs ++ p :: ys).length := List.length_pos_iff.mpr hne
    have hfill := rebtreeFill_spec h.start (Nat.le_succ_of_le h.length_le)
    have hhead : btl.head = (xs ++ p :: ys).head? := h.head
    have harray : rebtreeArray alloc m btl btl.count =
        .ok { btl with array := some ((xs ++ p :: ys).map some) } := by
      rw [rebtreeArray, if_pos ⟨halloc', by omega⟩, hcount, Int.toNat_natCast, hhead]
      simp only [List.map_nil, List.nil_append, List.length_nil] at hfill
      rw [hfill]
      rfl
    have hnode : ({ btl with array := some ((xs ++ p :: ys).map some) } : Btreelist V K).nodeAt
        (((xs ++ p :: ys).length / 2 : Nat) : Int) = .ok p :=
      nodeAt_eq rfl xs ys rfl (by rw [hmiddle])
    have hcenter : btl.count.tdiv 2 = (((xs ++ p :: ys).length / 2 : Nat) : Int) := by
      rw [hcount]
      rfl
    have hns : xs ++ p :: ys = [] ++ ((xs ++ p :: ys) ++ []) := (List.append_nil _).symm
    -- the two halves are rebuilt by the recursion
    have hrec : Rebuilds (btreelistRebtree alloc (xs ++ p :: ys).length)
        { btl with array := some ((xs ++ p :: ys).map some) } (xs ++ p :: ys)
        (xs ++ p :: ys).length :=
      btreelistRebtree_rebuilds rfl hcount hlt h.nodup (Nat.le_succ _) le_rfl
    obtain ⟨m', hswitch, htree, htied⟩ := rebtreeSwitch_spec hns hmiddle hlt h.nodup
      (fun q hq => h.alive hq) hrec
    rw [List.length_nil, Nat.zero_add, ← hcount] at hswitch
    have hfuel : btl.count.toNat = (xs ++ p :: ys).length := by rw [hcount, Int.toNat_natCast]
    refine ⟨m', some p, some ((xs ++ p :: ys).map some), ?_, htree, htied⟩
    rw [btreelistRebuild, hcenter,
      btreelistRebtree_succ ((if_pos rfl).trans harray) (by omega) (by omega) hnode, hfuel,
      hswitch]
    rfl

end DVP.Sosal
