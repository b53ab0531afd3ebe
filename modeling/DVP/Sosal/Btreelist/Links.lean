import DVP.Sosal.Btreelist.Tree

/-!
# The links of the list

What the branches of `btreelist_insert` and `btreelist_remove` do to the linked list, before the
tree is rebuilt. The node removed is left without links and children.
-/

namespace DVP.Sosal

variable {V K : Type} {m m' : BtreeMem V} {btl : Btreelist V K} {x y : Ptr}
  {ns xs ys : List Ptr}

/-- The objects are the same, whatever happened to the links and children of their nodes. -/
structure SameObjects (m m' : BtreeMem V) : Prop where
  size : m'.size = m.size
  value : ∀ p, valueOf m' p = valueOf m p

namespace SameObjects

variable {m'' : BtreeMem V}

theorem refl : SameObjects m m := ⟨rfl, fun _ => rfl⟩

theorem trans (h : SameObjects m m') (h' : SameObjects m' m'') : SameObjects m m'' :=
  ⟨h'.size.trans h.size, fun p => (h'.value p).trans (h.value p)⟩

theorem alive_iff (h : SameObjects m m') : m'.Alive x ↔ m.Alive x := by
  rw [alive_iff_valueOf, alive_iff_valueOf, h.value]

theorem bounded (h : SameObjects m m') (hm : m.Bounded) : m'.Bounded := by
  intro p hp
  rw [h.size]
  exact hm p (h.alive_iff.mp hp)

end SameObjects

theorem Frame.sameObjects (h : Frame m m' ns) : SameObjects m m' :=
  ⟨h.size, fun p => by rw [valueOf, valueOf, h.data]⟩

theorem Retied.sameObjects (h : Retied m m' ns) : SameObjects m m' := ⟨h.size, h.value⟩

/-- The memory with a node cleared. -/
def BtreeMem.withClear (m : BtreeMem V) (p : Ptr) : BtreeMem V :=
  m.modify p fun n => ⟨none, none, { n.data with left := none, right := none }⟩

theorem clear_of_alive (h : m.Alive x) : m.clear x = .ok (m.withClear x) :=
  NodeMem.write_of_alive h

theorem link_withClear : (m.withClear x).link y =
    if y = x then (m.link x).map fun _ => ⟨none, none⟩ else m.link y := by
  simp only [NodeMem.link, BtreeMem.withClear, NodeMem.node_modify]
  split_ifs with hyx
  · cases m.node x <;> rfl
  · rfl

theorem sameObjects_withClear : SameObjects m (m.withClear x) := by
  refine ⟨rfl, fun q => ?_⟩
  simp only [valueOf, NodeMem.data, BtreeMem.withClear, NodeMem.node_modify]
  split_ifs with hqx
  · rw [hqx]
    cases m.node x <;> rfl
  · rfl

/-- The linked list of a list with a tree. -/
def Btreelist.list (btl : Btreelist V K) : LinkedList := ⟨btl.head, btl.tail⟩

/-- A node is put after `y`. -/
theorem btreelistInsertNext_spec (h : ListHolds m btl.list (xs ++ y :: ys))
    (hx : x ∉ xs ++ y :: ys) (hax : m.Alive x) :
    ∃ m' tail, btreelistInsertNext m btl y x =
        .ok (m', { btl with tail := tail, count := int32 (btl.count + 1) }) ∧
      ListHolds m' ⟨btl.head, tail⟩ (xs ++ y :: x :: ys) ∧ Frame m m' (xs ++ y :: x :: ys) := by
  have hlink := h.link_eq
  obtain ⟨k, hk⟩ := NodeMem.alive_iff_link.mp hax
  have hay : m.Alive y := h.alive (by simp)
  obtain ⟨d, hread⟩ := NodeMem.read_of_link hlink
  have hyx : y ≠ x := by
    rintro rfl
    exact hx (by simp)
  have h' := h.step
  have hx' : x ∉ (xs ++ [y]) ++ ys := by simpa using hx
  have hhead : btl.head = (xs ++ y :: ys).head? := h.head
  rw [show xs ++ y :: x :: ys = (xs ++ [y]) ++ x :: ys by simp]
  -- behind the last node the tail moves
  cases ys with
  | nil =>
    refine ⟨((m.withNext x none).withNext y (some x)).withPrev x (some y), some x, ?_, ?_⟩
    · simp [btreelistInsertNext, hread, NodeMem.setPrev_of_alive, NodeMem.setNext_of_alive, hax, hay]
    · refine h'.insert hx' rfl (fun _ => by simp) ?_ ?_ (by simp)
      · intro z
        simp only [NodeMem.link_withNext, NodeMem.link_withPrev, linkAfterInsert, hk]
        split_ifs <;> simp_all
      · rw [hhead]
        cases xs <;> rfl
  | cons z zs =>
    have haz : m.Alive z := h.alive (by simp)
    have hzx : z ≠ x := by
      rintro rfl
      exact hx (by simp)
    have hyz : y ≠ z := (h.ne (by simp)).symm
    have htail : btl.tail = (xs ++ y :: z :: zs).getLast? := h.tail
    refine ⟨(((m.withNext x (some z)).withPrev z (some x)).withNext y (some x)).withPrev x (some y),
      btl.tail, ?_, ?_⟩
    · simp [btreelistInsertNext, hread, NodeMem.setPrev_of_alive, NodeMem.setNext_of_alive, hax,
        hay, haz]
    · refine h'.insert hx' rfl (fun _ => by simp) ?_ ?_ ?_
      · intro w
        simp only [NodeMem.link_withNext, NodeMem.link_withPrev, linkAfterInsert, hk]
        split_ifs <;> simp_all
      · rw [hhead]
        cases xs <;> rfl
      · rw [htail]
        simp

/-- A node is put before `y`. -/
theorem btreelistInsertPrev_spec (h : ListHolds m btl.list (xs ++ y :: ys))
    (hx : x ∉ xs ++ y :: ys) (hax : m.Alive x) :
    ∃ m' head, btreelistInsertPrev m btl y x =
        .ok (m', { btl with head := head, count := int32 (btl.count + 1) }) ∧
      ListHolds m' ⟨head, btl.tail⟩ (xs ++ x :: y :: ys) ∧ Frame m m' (xs ++ x :: y :: ys) := by
  have hlink := h.link_eq
  obtain ⟨k, hk⟩ := NodeMem.alive_iff_link.mp hax
  have hay : m.Alive y := h.alive (by simp)
  obtain ⟨d, hread⟩ := NodeMem.read_of_link hlink
  have hyx : y ≠ x := by
    rintro rfl
    exact hx (by simp)
  have htail : btl.tail = (xs ++ y :: ys).getLast? := h.tail
  -- in front of the first node the head moves
  rcases List.eq_nil_or_concat xs with rfl | ⟨zs, t, rfl⟩
  · refine ⟨((m.withPrev x none).withPrev y (some x)).withNext x (some y), some x, ?_, ?_⟩
    · simp [btreelistInsertPrev, hread, NodeMem.setPrev_of_alive, NodeMem.setNext_of_alive, hax, hay]
    · refine h.insert hx rfl (fun _ => by simp) ?_ rfl ?_
      · intro z
        simp only [NodeMem.link_withNext, NodeMem.link_withPrev, linkAfterInsert, hk]
        split_ifs <;> simp_all
      · rw [htail, List.nil_append, List.nil_append, List.getLast?_cons_cons]
  · rw [List.concat_eq_append] at *
    have hat : m.Alive t := h.alive (by simp)
    have htx : t ≠ x := by
      rintro rfl
      exact hx (by simp)
    have hty : t ≠ y := h.ne (by simp)
    have hhead : btl.head = (zs ++ [t] ++ y :: ys).head? := h.head
    refine ⟨(((m.withPrev x (some t)).withNext t (some x)).withPrev y (some x)).withNext x (some y),
      btl.head, ?_, ?_⟩
    · simp [btreelistInsertPrev, hread, NodeMem.setPrev_of_alive, NodeMem.setNext_of_alive, hax,
        hat, hay]
    · refine h.insert hx rfl (fun _ => by simp) ?_ ?_ ?_
      · intro z
        simp only [NodeMem.link_withNext, NodeMem.link_withPrev, linkAfterInsert, hk]
        split_ifs <;> simp_all
      · rw [hhead]
        cases zs <;> rfl
      · rw [htail]
        simp

/-- The first node of a list. -/
theorem btreelistInsertFirst_spec (hbounded : m.Bounded) (hax : m.Alive x) :
    ∃ m', btreelistInsertFirst m btl (some x) =
        .ok (m', { btl with root := some x, head := some x, tail := some x, count := 1 }) ∧
      ListHolds m' ⟨some x, some x⟩ [x] ∧ SameObjects m m' := by
  obtain ⟨k, hk⟩ := NodeMem.alive_iff_link.mp hax
  have hinsert : ListHolds ((m.withNext x none).withPrev x none) ⟨some x, some x⟩ ([] ++ x :: []) ∧
      Frame m ((m.withNext x none).withPrev x none) ([] ++ x :: []) := by
    refine (ListHolds.empty hbounded).start.insert List.not_mem_nil rfl (fun _ => by simp) ?_ rfl rfl
    intro z
    simp only [NodeMem.link_withNext, NodeMem.link_withPrev, linkAfterInsert, hk]
    split_ifs <;> simp_all
  refine ⟨m.withClear x, ?_, ?_, sameObjects_withClear⟩
  · simp [btreelistInsertFirst, clear_of_alive hax]
  · refine hinsert.1.congr_link (sameObjects_withClear.bounded hbounded) fun q hq => ?_
    rw [List.mem_singleton.mp hq]
    simp [link_withClear, NodeMem.link_withNext, NodeMem.link_withPrev, hk]

/-- A node is taken out of the list. -/
theorem btreelistUnlink_spec (h : ListHolds m btl.list (xs ++ x :: ys)) :
    ∃ m' head tail, btreelistUnlink m btl x =
        .ok (m', { btl with head := head, tail := tail, count := int32 (btl.count - 1) }) ∧
      ListHolds m' ⟨head, tail⟩ (xs ++ ys) ∧ SameObjects m m' := by
  have hlink := h.link_eq
  have hax : m.Alive x := h.alive (by simp)
  obtain ⟨d, hread⟩ := NodeMem.read_of_link hlink
  obtain ⟨hnodup, hx⟩ := nodup_middle.mp h.nodup
  have hhead : btl.head = (xs ++ x :: ys).head? := h.head
  have htail : btl.tail = (xs ++ x :: ys).getLast? := h.tail
  have hsame : ∀ (m₁ : BtreeMem V), SameObjects m m₁ → SameObjects m (m₁.withClear x) :=
    fun m₁ hm₁ => hm₁.trans sameObjects_withClear
  -- the links that are written depend on whether the node is the head, the tail, or both
  rcases List.eq_nil_or_concat xs with rfl | ⟨zs, t, rfl⟩
  · cases ys with
    | nil =>
      have hobjects := hsame m SameObjects.refl
      refine ⟨m.withClear x, none, none, ?_, ?_, hobjects⟩
      · simp [btreelistUnlink, hread, clear_of_alive hax]
      · exact ListHolds.empty (hobjects.bounded h.bounded)
    | cons y ys =>
      have hay : m.Alive y := h.alive (by simp)
      have hyx : y ≠ x := by
        rintro rfl
        exact hx (by simp)
      have hobjects := hsame (m.withPrev y none) ⟨rfl, fun q => by simp [valueOf]⟩
      refine ⟨BtreeMem.withClear (m.withPrev y none) x, some y, btl.tail, ?_, ?_, hobjects⟩
      · simp [btreelistUnlink, hread, NodeMem.setPrev_of_alive, hay, clear_of_alive, hax]
      · refine h.removeLinks (hobjects.bounded h.bounded) (fun z => ?_) rfl ?_
        · simp only [link_withClear, NodeMem.link_withPrev, linkAfterRemove, hlink]
          split_ifs <;> simp_all
        · rw [htail]
          simp
  · rw [List.concat_eq_append] at *
    have hat : m.Alive t := h.alive (by simp)
    have htx : t ≠ x := by
      rintro rfl
      exact hx (by simp)
    cases ys with
    | nil =>
      have hobjects := hsame (m.withNext t none) ⟨rfl, fun q => by simp [valueOf]⟩
      refine ⟨BtreeMem.withClear (m.withNext t none) x, btl.head, some t, ?_, ?_, hobjects⟩
      · simp [btreelistUnlink, hread, NodeMem.setNext_of_alive, hat, clear_of_alive, hax]
      · refine h.removeLinks (hobjects.bounded h.bounded) (fun z => ?_) ?_ (by simp)
        · simp only [link_withClear, NodeMem.link_withNext, linkAfterRemove, hlink]
          split_ifs <;> simp_all
        · rw [hhead]
          cases zs <;> rfl
    | cons y ys =>
      have hay : m.Alive y := h.alive (by simp)
      have hyx : y ≠ x := by
        rintro rfl
        exact hx (by simp)
      have hty : t ≠ y := by
        rintro rfl
        exact (List.nodup_append.mp hnodup).2.2 t (by simp) t List.mem_cons_self rfl
      have hobjects := hsame ((m.withNext t (some y)).withPrev y (some t))
        ⟨rfl, fun q => by simp [valueOf]⟩
      refine ⟨BtreeMem.withClear ((m.withNext t (some y)).withPrev y (some t)) x, btl.head, btl.tail, ?_, ?_,
        hobjects⟩
      · simp [btreelistUnlink, hread, NodeMem.setNext_of_alive, NodeMem.setPrev_of_alive, hat, hay,
          clear_of_alive, hax]
      · refine h.removeLinks (hobjects.bounded h.bounded) (fun z => ?_) ?_ ?_
        · simp only [link_withClear, NodeMem.link_withNext, NodeMem.link_withPrev, linkAfterRemove,
            hlink]
          split_ifs <;> simp_all
        · rw [hhead]
          cases zs <;> rfl
        · rw [htail]
          simp

end DVP.Sosal
