import Mathlib.Data.List.Nodup
import Mathlib.Data.List.Perm.Subperm
import DVP.Lib.Chain
import DVP.Lib.SortedInsert
import DVP.Sosal.List.Basic

/-!
# What the functions of a well-formed list do

`ListHolds m l ns` says that the list `l` holds the nodes `ns`, in order. Each function has one
specification: the nodes it leaves, and the frame (`Frame`) of what it did not touch. Nodes that
were taken out have `NULL` links.
-/

namespace DVP.Sosal

variable {D K : Type} {m m' m'' : NodeMem D} {l : LinkedList} {p q : Ptr}

/-! ## Memories -/

namespace NodeMem

/-- The links of a node. -/
def link (m : NodeMem D) (p : Ptr) : Option (Links Ptr) :=
  (m.node p).map fun n => ⟨n.prev, n.next⟩

/-- The data of a node. -/
def data (m : NodeMem D) (p : Ptr) : Option D := (m.node p).map Node.data

/-- A node with links is alive and has data. -/
theorem node_eq_some {k : Links Ptr} (h : m.link p = some k) :
    ∃ d, m.data p = some d ∧ m.node p = some ⟨k.next, k.prev, d⟩ := by
  obtain ⟨n, hn, rfl⟩ := Option.map_eq_some_iff.mp h
  exact ⟨n.data, by rw [data, hn, Option.map_some], hn⟩

/-- It can be read. -/
theorem read_of_link {k : Links Ptr} (h : m.link p = some k) :
    ∃ d, m.read (some p) = .ok ⟨k.next, k.prev, d⟩ := by
  obtain ⟨d, -, hn⟩ := node_eq_some h
  exact ⟨d, by rw [read, hn]⟩

/-- The node was made and not freed. -/
def Alive (m : NodeMem D) (p : Ptr) : Prop := (m.node p).isSome = true

/-- A node that is alive has links. -/
theorem alive_iff_link : m.Alive p ↔ ∃ k, m.link p = some k := by
  rw [Alive, ← Option.isSome_iff_exists, link, Option.isSome_map]

/-- A node that is alive has data. -/
theorem alive_iff_data : m.Alive p ↔ ∃ d, m.data p = some d := by
  rw [Alive, ← Option.isSome_iff_exists, data, Option.isSome_map]

variable {f : Node D → Node D}

/-- Writing to a node that is alive does not fail. -/
theorem write_of_alive (h : m.Alive p) : m.write p f = .ok (m.modify p f) := by
  obtain ⟨n, hn⟩ := Option.isSome_iff_exists.mp h
  rw [write, hn]

/-- A write does not make nodes. -/
@[simp]
theorem size_modify : (m.modify p f).size = m.size := rfl

/-- A write changes the one node that it is to. -/
theorem node_modify : (m.modify p f).node q = if q = p then (m.node p).map f else m.node q := by
  exact Function.update_apply _ _ _ _

/-- Writing a link does not write the data. -/
theorem data_modify (hf : ∀ n, (f n).data = n.data) : (m.modify p f).data q = m.data q := by
  rw [data, node_modify]
  split_ifs with hqp
  · rw [hqp, data, Option.map_map]
    congr 1
    funext n
    exact hf n
  · rfl

end NodeMem

/-- `p->next = q`, when `p` is alive. -/
def NodeMem.withNext (m : NodeMem D) (p : Ptr) (q : Option Ptr) : NodeMem D :=
  m.modify p fun n => { n with next := q }

/-- `p->prev = q`, when `p` is alive. -/
def NodeMem.withPrev (m : NodeMem D) (p : Ptr) (q : Option Ptr) : NodeMem D :=
  m.modify p fun n => { n with prev := q }

/-- `p->data = d`, when `p` is alive. -/
def NodeMem.withData (m : NodeMem D) (p : Ptr) (d : D) : NodeMem D :=
  m.modify p fun n => { n with data := d }

namespace NodeMem

variable {v : Option Ptr} {d : D}

/-- The data of a node that is alive can be written. -/
theorem setData_of_alive (h : m.Alive p) : m.setData p d = .ok (m.withData p d) :=
  write_of_alive h

/-- Data do not make nodes. -/
@[simp]
theorem size_withData : (m.withData p d).size = m.size := rfl

/-- Data leave the links. -/
@[simp]
theorem link_withData : (m.withData p d).link q = m.link q := by
  rw [link, withData, node_modify]
  split_ifs with hqp
  · rw [hqp, link, Option.map_map]
    rfl
  · rfl

/-- Data leave what is alive. -/
@[simp]
theorem alive_withData : (m.withData p d).Alive q ↔ m.Alive q := by
  rw [alive_iff_link, alive_iff_link, link_withData]

/-- Data change in one node. -/
theorem data_withData :
    (m.withData p d).data q = if q = p then (m.data p).map fun _ => d else m.data q := by
  rw [data, withData, node_modify]
  split_ifs
  · rw [data, Option.map_map, Option.map_map]
    rfl
  · rfl

/-- The next node of a node that is alive can be written. -/
theorem setNext_of_alive (h : m.Alive p) : m.setNext p v = .ok (m.withNext p v) :=
  write_of_alive h

/-- The previous node of a node that is alive can be written. -/
theorem setPrev_of_alive (h : m.Alive p) : m.setPrev p v = .ok (m.withPrev p v) :=
  write_of_alive h

/-- A link to the next node does not make nodes. -/
@[simp]
theorem size_withNext : (m.withNext p v).size = m.size := rfl

/-- A link to the previous node does not make nodes. -/
@[simp]
theorem size_withPrev : (m.withPrev p v).size = m.size := rfl

/-- A link to the next node leaves the data. -/
@[simp]
theorem data_withNext : (m.withNext p v).data q = m.data q := data_modify fun _ => rfl

/-- A link to the previous node leaves the data. -/
@[simp]
theorem data_withPrev : (m.withPrev p v).data q = m.data q := data_modify fun _ => rfl

/-- A link to the next node leaves what is alive. -/
@[simp]
theorem alive_withNext : (m.withNext p v).Alive q ↔ m.Alive q := by
  rw [alive_iff_data, alive_iff_data, data_withNext]

/-- A link to the previous node leaves what is alive. -/
@[simp]
theorem alive_withPrev : (m.withPrev p v).Alive q ↔ m.Alive q := by
  rw [alive_iff_data, alive_iff_data, data_withPrev]

/-- The next node changes in the links of one node. -/
theorem link_withNext :
    (m.withNext p v).link q =
      if q = p then (m.link p).map fun k => { k with next := v } else m.link q := by
  rw [link, withNext, node_modify]
  split_ifs
  · rw [link, Option.map_map, Option.map_map]
    rfl
  · rfl

/-- The previous node changes in the links of one node. -/
theorem link_withPrev :
    (m.withPrev p v).link q =
      if q = p then (m.link p).map fun k => { k with prev := v } else m.link q := by
  rw [link, withPrev, node_modify]
  split_ifs
  · rw [link, Option.map_map, Option.map_map]
    rfl
  · rfl

end NodeMem

/-! ## Making and freeing nodes -/

/-- A new node has no neighbours. -/
theorem link_nodeCreate {d : D} :
    (nodeCreate m p d).link q = if q = p then some ⟨none, none⟩ else m.link q := by
  simp only [NodeMem.link, nodeCreate, Function.update_apply]
  split_ifs <;> rfl

/-- A new node has its data. -/
theorem data_nodeCreate {d : D} :
    (nodeCreate m p d).data q = if q = p then some d else m.data q := by
  simp only [NodeMem.data, nodeCreate, Function.update_apply]
  split_ifs <;> rfl

/-- A new node is alive with the others. -/
theorem alive_nodeCreate {d : D} : (nodeCreate m p d).Alive q ↔ q = p ∨ m.Alive q := by
  by_cases hqp : q = p
  · simp [NodeMem.Alive, nodeCreate, hqp]
  · simp [NodeMem.Alive, nodeCreate, hqp]

/-- The memory without a node. -/
def NodeMem.without (m : NodeMem D) (p : Ptr) : NodeMem D :=
  { m with node := Function.update m.node p none }

/-- `node_destroy` frees the node and returns its data. -/
theorem nodeDestroy_eq {d : D} (hd : m.data p = some d) :
    nodeDestroy m p = .ok (m.without p, d) := by
  obtain ⟨n, hn, rfl⟩ := Option.map_eq_some_iff.mp hd
  simp [nodeDestroy, NodeMem.read, hn, NodeMem.without]

/-- Freeing a node just made leaves the memory as it was. -/
theorem nodeDestroy_nodeCreate {d : D} (hp : ¬m.Alive p) :
    nodeDestroy (nodeCreate m p d) p = .ok (m, d) := by
  have hnone : m.node p = none := by simpa [NodeMem.Alive] using hp
  have hsame : Function.update m.node p none = m.node := by
    rw [← hnone, Function.update_eq_self]
  rw [nodeDestroy_eq (by rw [data_nodeCreate, if_pos rfl])]
  simp [NodeMem.without, nodeCreate, hsame]

/-- A node that was freed has no links. -/
theorem NodeMem.link_without : (m.without p).link q = if q = p then none else m.link q := by
  simp only [link, without, Function.update_apply]
  split_ifs <;> rfl

/-- A node that was freed has no data. -/
theorem NodeMem.data_without : (m.without p).data q = if q = p then none else m.data q := by
  simp only [data, without, Function.update_apply]
  split_ifs <;> rfl

/-- A node that was freed is not alive. -/
theorem NodeMem.alive_without : (m.without p).Alive q ↔ q ≠ p ∧ m.Alive q := by
  by_cases hqp : q = p
  · simp [Alive, without, hqp]
  · simp [Alive, without, hqp]

/-- Only the links of the nodes `ps` changed. -/
structure Frame (m m' : NodeMem D) (ps : List Ptr) : Prop where
  size : m'.size = m.size
  data : ∀ p, m'.data p = m.data p
  link : ∀ p, p ∉ ps → m'.link p = m.link p

/-- Nothing has changed. -/
theorem Frame.refl (ps : List Ptr) : Frame m m ps := ⟨rfl, fun _ => rfl, fun _ _ => rfl⟩

/-- More nodes may have changed. -/
theorem Frame.mono {ps qs : List Ptr} (h : Frame m m' ps) (hsub : ∀ p ∈ ps, p ∈ qs) :
    Frame m m' qs :=
  ⟨h.size, h.data, fun p hp => h.link p fun hps => hp (hsub p hps)⟩

/-- Two changes of some nodes are a change of these nodes. -/
theorem Frame.trans {ps : List Ptr} (h : Frame m m' ps) (h' : Frame m' m'' ps) :
    Frame m m'' ps :=
  ⟨h'.size.trans h.size, fun p => (h'.data p).trans (h.data p),
    fun p hp => (h'.link p hp).trans (h.link p hp)⟩

/-- A change of nodes leaves what is alive. -/
theorem Frame.alive_iff {ps : List Ptr} (h : Frame m m' ps) : m'.Alive p ↔ m.Alive p := by
  rw [NodeMem.alive_iff_data, NodeMem.alive_iff_data, h.data]

/-- The links of a node that is in no list. -/
def Detached (m : NodeMem D) (p : Ptr) : Prop := m.link p = some ⟨none, none⟩

/-- Nodes are at addresses below `size`. -/
def NodeMem.Bounded (m : NodeMem D) : Prop := ∀ p, m.Alive p → p < m.size

/-! ## Lists -/

/-- The list holds the nodes `ns`, in order. -/
structure ListHolds (m : NodeMem D) (l : LinkedList) (ns : List Ptr) : Prop where
  head : l.head = ns.head?
  tail : l.tail = ns.getLast?
  nodup : ns.Nodup
  chain : Chain m.link none ns none
  bounded : m.Bounded

variable {x y : Ptr} {xs ys ns : List Ptr}

/-- No nodes have come into being. -/
theorem Frame.bounded {ps : List Ptr} (h : Frame m m' ps) (hm : m.Bounded) : m'.Bounded := by
  intro p hp
  rw [h.size]
  exact hm p (h.alive_iff.mp hp)

/-- A list that was just made has no nodes. -/
theorem ListHolds.empty (hm : m.Bounded) : ListHolds m LinkedList.empty [] :=
  ⟨rfl, rfl, List.nodup_nil, trivial, hm⟩

/-- A list depends on the links of its nodes alone. -/
theorem ListHolds.congr_link (h : ListHolds m l ns) (hbounded : m'.Bounded)
    (hlink : ∀ p ∈ ns, m'.link p = m.link p) : ListHolds m' l ns where
  head := h.head
  tail := h.tail
  nodup := h.nodup
  chain := h.chain.congr hlink
  bounded := hbounded

/-- A list is not affected by what happens to other nodes. -/
theorem ListHolds.congr {ps : List Ptr} (h : ListHolds m l ns) (hframe : Frame m m' ps)
    (hps : ∀ p ∈ ps, p ∉ ns) : ListHolds m' l ns :=
  h.congr_link (hframe.bounded h.bounded) fun p hp => hframe.link p fun hpps => hps p hpps hp

/-- The nodes of a list are alive. -/
theorem ListHolds.alive (h : ListHolds m l ns) (hx : x ∈ ns) : m.Alive x :=
  NodeMem.alive_iff_link.mpr (h.chain.alive hx)

/-- A list has no more nodes than there is room for. -/
theorem ListHolds.length_le (h : ListHolds m l ns) : ns.length ≤ m.size := by
  have hsub : ns ⊆ List.range m.size := by
    intro p hp
    exact List.mem_range.mpr (h.bounded p (h.alive hp))
  have hle := (List.subperm_of_subset h.nodup hsub).length_le
  rwa [List.length_range] at hle

/-- A node is linked with those before and after it. -/
theorem ListHolds.link_eq (h : ListHolds m l (xs ++ x :: ys)) :
    m.link x = some ⟨xs.getLast?, ys.head?⟩ := by
  have hlink := h.chain.link_eq
  rwa [Option.or_none, Option.or_none] at hlink

/-- The place before the first node. -/
theorem ListHolds.start (h : ListHolds m l ns) : ListHolds m l ([] ++ ns) := h

/-- The next place in the list. -/
theorem ListHolds.step (h : ListHolds m l (xs ++ x :: ys)) : ListHolds m l ((xs ++ [x]) ++ ys) := by
  rwa [List.append_assoc, List.singleton_append]

/-- The node in the middle of a list without repetitions is none of the others. -/
theorem nodup_middle : (xs ++ x :: ys).Nodup ↔ (xs ++ ys).Nodup ∧ x ∉ xs ++ ys := by
  rw [List.nodup_middle, List.nodup_cons, and_comm]

/-- The others are different from it. -/
theorem ne_of_nodup_middle (h : (xs ++ x :: ys).Nodup) (hy : y ∈ xs ++ ys) : y ≠ x := by
  rintro rfl
  exact (nodup_middle.mp h).2 hy

/-- A node is not twice in the list. -/
theorem ListHolds.notMem (h : ListHolds m l (xs ++ x :: ys)) : x ∉ xs ++ ys :=
  (nodup_middle.mp h.nodup).2

/-- The other nodes of a list are different from a node of it. -/
theorem ListHolds.ne (h : ListHolds m l (xs ++ x :: ys)) (hy : y ∈ xs ++ ys) : y ≠ x :=
  ne_of_nodup_middle h.nodup hy

/-- The nodes are the one in the middle and the others. -/
theorem mem_middle : y ∈ xs ++ x :: ys ↔ y = x ∨ y ∈ xs ++ ys := by
  rw [List.perm_middle.mem_iff, List.mem_cons]

/-- The links after the node `x` was put between `xs` and `ys`. -/
def linkAfterInsert (m : NodeMem D) (xs ys : List Ptr) (x z : Ptr) : Option (Links Ptr) :=
  if z = x then some ⟨xs.getLast?, ys.head?⟩
  else if z ∈ xs.getLast? then (m.link z).map fun k => { k with next := some x }
  else if z ∈ ys.head? then (m.link z).map fun k => { k with prev := some x }
  else m.link z

/-- The links after the node `x` was taken out between `xs` and `ys`. -/
def linkAfterRemove (m : NodeMem D) (xs ys : List Ptr) (x z : Ptr) : Option (Links Ptr) :=
  if z = x then some ⟨none, none⟩
  else if z ∈ xs.getLast? then (m.link z).map fun k => { k with next := ys.head? }
  else if z ∈ ys.head? then (m.link z).map fun k => { k with prev := xs.getLast? }
  else m.link z

/-- The two halves of a list have no node in common. -/
theorem not_mem_head?_of_getLast? (hnodup : (xs ++ ys).Nodup) {z : Ptr} (hz : z ∈ xs.getLast?) :
    z ∉ ys.head? := by
  intro hzy
  exact (List.nodup_append.mp hnodup).2.2 z (List.mem_of_mem_getLast? hz) z
    (List.mem_of_mem_head? hzy) rfl

/-- A memory with the links of an insertion holds the longer list. -/
theorem ListHolds.insert {l' : LinkedList} (h : ListHolds m l (xs ++ ys)) (hx : x ∉ xs ++ ys)
    (hsize : m'.size = m.size) (hdata : ∀ p, m'.data p = m.data p)
    (hlink : ∀ z, m'.link z = linkAfterInsert m xs ys x z)
    (hhead : l'.head = (xs ++ x :: ys).head?) (htail : l'.tail = (xs ++ x :: ys).getLast?) :
    ListHolds m' l' (xs ++ x :: ys) ∧ Frame m m' (xs ++ x :: ys) := by
  have hne : ∀ z ∈ xs ++ ys, z ≠ x := by
    rintro z hz rfl
    exact hx hz
  have hframe : Frame m m' (xs ++ x :: ys) := by
    refine ⟨hsize, hdata, ?_⟩
    intro z hz
    simp only [List.mem_append, List.mem_cons, not_or] at hz
    rw [hlink, linkAfterInsert, if_neg hz.2.1, if_neg, if_neg]
    · exact fun hzy => hz.2.2 (List.mem_of_mem_head? hzy)
    · exact fun hzx => hz.1 (List.mem_of_mem_getLast? hzx)
  refine ⟨⟨hhead, htail, nodup_middle.mpr ⟨h.nodup, hx⟩, ?_, hframe.bounded h.bounded⟩, hframe⟩
  refine h.chain.insert h.nodup ?_ ?_ ?_ ?_
  · rw [hlink, linkAfterInsert, if_pos rfl, Option.or_none, Option.or_none]
  · intro z hz
    have hmem := List.mem_append_left ys (List.mem_of_mem_getLast? hz)
    rw [hlink, linkAfterInsert, if_neg (hne z hmem), if_pos hz]
  · intro z hz
    have hmem := List.mem_append_right xs (List.mem_of_mem_head? hz)
    rw [hlink, linkAfterInsert, if_neg (hne z hmem), if_neg, if_pos hz]
    exact fun hzx => not_mem_head?_of_getLast? h.nodup hzx hz
  · intro z hz hzx hzy
    rw [hlink, linkAfterInsert, if_neg (hne z hz), if_neg hzx, if_neg hzy]

/-- Only the links of the list change in a removal. -/
theorem linkAfterRemove_of_not_mem {z : Ptr} (hz : z ∉ xs ++ x :: ys) :
    linkAfterRemove m xs ys x z = m.link z := by
  simp only [List.mem_append, List.mem_cons, not_or] at hz
  rw [linkAfterRemove, if_neg hz.2.1, if_neg, if_neg]
  · exact fun hzy => hz.2.2 (List.mem_of_mem_head? hzy)
  · exact fun hzx => hz.1 (List.mem_of_mem_getLast? hzx)

/-- A memory with the links of a removal holds the shorter list. -/
theorem ListHolds.removeLinks {l' : LinkedList} (h : ListHolds m l (xs ++ x :: ys))
    (hbounded : m'.Bounded) (hlink : ∀ z, m'.link z = linkAfterRemove m xs ys x z)
    (hhead : l'.head = (xs ++ ys).head?) (htail : l'.tail = (xs ++ ys).getLast?) :
    ListHolds m' l' (xs ++ ys) := by
  obtain ⟨hnodup, hx⟩ := nodup_middle.mp h.nodup
  have hne : ∀ z ∈ xs ++ ys, z ≠ x := by
    rintro z hz rfl
    exact hx hz
  refine ⟨hhead, htail, hnodup, h.chain.remove hnodup ?_ ?_ ?_, hbounded⟩
  · intro z hz
    have hmem := List.mem_append_left ys (List.mem_of_mem_getLast? hz)
    rw [hlink, linkAfterRemove, if_neg (hne z hmem), if_pos hz, Option.or_none]
  · intro z hz
    have hmem := List.mem_append_right xs (List.mem_of_mem_head? hz)
    rw [hlink, linkAfterRemove, if_neg (hne z hmem), if_neg, if_pos hz, Option.or_none]
    exact fun hzx => not_mem_head?_of_getLast? hnodup hzx hz
  · intro z hz hzx hzy
    rw [hlink, linkAfterRemove, if_neg (hne z hz), if_neg hzx, if_neg hzy]

/-- Taking a node out of a list changes no data. -/
theorem ListHolds.remove {l' : LinkedList} (h : ListHolds m l (xs ++ x :: ys))
    (hsize : m'.size = m.size) (hdata : ∀ p, m'.data p = m.data p)
    (hlink : ∀ z, m'.link z = linkAfterRemove m xs ys x z)
    (hhead : l'.head = (xs ++ ys).head?) (htail : l'.tail = (xs ++ ys).getLast?) :
    ListHolds m' l' (xs ++ ys) ∧ Frame m m' (xs ++ x :: ys) ∧ Detached m' x := by
  have hframe : Frame m m' (xs ++ x :: ys) :=
    ⟨hsize, hdata, fun z hz => (hlink z).trans (linkAfterRemove_of_not_mem hz)⟩
  refine ⟨h.removeLinks (hframe.bounded h.bounded) hlink hhead htail, hframe, ?_⟩
  rw [Detached, hlink, linkAfterRemove, if_pos rfl]

/-! ## Adding and removing at the ends -/

/-- `list_append` adds the node at the end. -/
theorem listAppend_spec (h : ListHolds m l ns) (hx : x ∉ ns) (hax : m.Alive x) :
    ∃ m' l', listAppend m l (some x) = .ok (m', l') ∧ ListHolds m' l' (ns ++ [x]) ∧
      Frame m m' (ns ++ [x]) := by
  rcases List.eq_nil_or_concat ns with rfl | ⟨ys, t, rfl⟩
  · have htail : l.tail = none := h.tail
    refine ⟨(m.withPrev x none).withNext x none, ⟨some x, some x⟩, ?_, ?_⟩
    · simp [listAppend, htail, NodeMem.setPrev_of_alive, NodeMem.setNext_of_alive, hax]
    · refine h.start.insert hx rfl (fun _ => by simp) ?_ rfl rfl
      obtain ⟨k, hk⟩ := NodeMem.alive_iff_link.mp hax
      intro z
      simp only [NodeMem.link_withNext, NodeMem.link_withPrev, linkAfterInsert, hk]
      split_ifs <;> simp_all
  · rw [List.concat_eq_append] at *
    have htail : l.tail = some t := by rw [h.tail, List.getLast?_concat]
    have hat : m.Alive t := h.alive (by simp)
    have htx : t ≠ x := by
      rintro rfl
      exact hx (by simp)
    refine ⟨((m.withNext t (some x)).withPrev x (some t)).withNext x none,
      { l with tail := some x }, ?_, ?_⟩
    · simp [listAppend, htail, htx, NodeMem.setPrev_of_alive, NodeMem.setNext_of_alive, hax, hat]
    · have hins : ListHolds m l ((ys ++ [t]) ++ []) := by simpa using h
      refine hins.insert (by simpa using hx) rfl (fun _ => by simp) ?_ ?_ (by simp)
      · obtain ⟨k, hk⟩ := NodeMem.alive_iff_link.mp hax
        intro z
        simp only [NodeMem.link_withNext, NodeMem.link_withPrev, linkAfterInsert, hk]
        split_ifs <;> simp_all
      · rw [h.head]
        cases ys <;> rfl

/-- `list_push` adds the node at the front. -/
theorem listPush_spec (h : ListHolds m l ns) (hx : x ∉ ns) (hax : m.Alive x) :
    ∃ m' l', listPush m l x = .ok (m', l') ∧ ListHolds m' l' (x :: ns) ∧
      Frame m m' (x :: ns) := by
  obtain ⟨k, hk⟩ := NodeMem.alive_iff_link.mp hax
  cases ns with
  | nil =>
    have hhead : l.head = none := h.head
    refine ⟨(m.withNext x none).withPrev x none, ⟨some x, some x⟩, ?_, ?_⟩
    · simp [listPush, hhead, NodeMem.setPrev_of_alive, NodeMem.setNext_of_alive, hax]
    · refine h.start.insert hx rfl (fun _ => by simp) ?_ rfl rfl
      intro z
      simp only [NodeMem.link_withNext, NodeMem.link_withPrev, linkAfterInsert, hk]
      split_ifs <;> simp_all
  | cons y ys =>
    have hhead : l.head = some y := h.head
    have hay : m.Alive y := h.alive List.mem_cons_self
    have hyx : y ≠ x := by
      rintro rfl
      exact hx List.mem_cons_self
    refine ⟨((m.withPrev y (some x)).withNext x (some y)).withPrev x none,
      { l with head := some x }, ?_, ?_⟩
    · simp [listPush, hhead, hyx, NodeMem.setPrev_of_alive, NodeMem.setNext_of_alive, hax, hay]
    · refine h.start.insert hx rfl (fun _ => by simp) ?_ rfl ?_
      · intro z
        simp only [NodeMem.link_withNext, NodeMem.link_withPrev, linkAfterInsert, hk]
        split_ifs <;> simp_all
      · rw [h.tail, List.nil_append, List.getLast?_cons_cons]

/-- An empty list has no node to pop. -/
theorem listPop_nil (h : ListHolds m l []) : listPop m l = .ok (m, l, none) := by
  rw [listPop, show l.head = none from h.head]

/-- `list_pop` takes the first node. -/
theorem listPop_spec (h : ListHolds m l (x :: ns)) :
    ∃ m' l', listPop m l = .ok (m', l', some x) ∧ ListHolds m' l' ns ∧
      Frame m m' (x :: ns) ∧ Detached m' x := by
  have hhead : l.head = some x := h.head
  have hax : m.Alive x := h.alive List.mem_cons_self
  have hlink : m.link x = some ⟨none, ns.head?⟩ := h.start.link_eq
  obtain ⟨d, hread⟩ := NodeMem.read_of_link hlink
  cases ns with
  | nil =>
    refine ⟨(m.withNext x none).withPrev x none, ⟨none, none⟩, ?_, ?_⟩
    · simp [listPop, hhead, hread, NodeMem.setPrev_of_alive, NodeMem.setNext_of_alive, hax]
    · refine h.start.remove rfl (fun _ => by simp) ?_ rfl rfl
      intro z
      simp only [NodeMem.link_withNext, NodeMem.link_withPrev, linkAfterRemove, hlink]
      split_ifs <;> simp_all
  | cons y ys =>
    have hay : m.Alive y := h.alive (by simp)
    have hyx : y ≠ x := by
      rintro rfl
      exact (List.nodup_cons.mp h.nodup).1 List.mem_cons_self
    have htail : l.tail ≠ none := by simp [h.tail]
    refine ⟨((m.withPrev y none).withNext x none).withPrev x none, { l with head := some y },
      ?_, ?_⟩
    · simp [listPop, hhead, hread, hyx, htail, NodeMem.setPrev_of_alive, NodeMem.setNext_of_alive,
        hax, hay]
    · refine h.start.remove rfl (fun _ => by simp) ?_ rfl ?_
      · intro z
        simp only [NodeMem.link_withNext, NodeMem.link_withPrev, linkAfterRemove, hlink]
        split_ifs <;> simp_all
      · rw [h.tail, List.nil_append, List.getLast?_cons_cons]

/-- An empty list has nothing to destroy. -/
theorem listDestroy_nil (h : ListHolds m l []) : listDestroy m l = .ok m := by
  simp [listDestroy, listDestroyLoop, listPop_nil h]

/-- `list_trim` takes the last node. -/
theorem listTrim_spec (h : ListHolds m l (ns ++ [x])) :
    ∃ m' l', listTrim m l = .ok (m', l', some x) ∧ ListHolds m' l' ns ∧
      Frame m m' (ns ++ [x]) ∧ Detached m' x := by
  have htail : l.tail = some x := by rw [h.tail, List.getLast?_concat]
  have hax : m.Alive x := h.alive (by simp)
  have hlink : m.link x = some ⟨ns.getLast?, none⟩ := h.link_eq
  obtain ⟨d, hread⟩ := NodeMem.read_of_link hlink
  -- the only node takes the head with it
  rcases List.eq_nil_or_concat ns with rfl | ⟨ys, t, rfl⟩
  · refine ⟨(m.withPrev x none).withNext x none, ⟨none, none⟩, ?_, ?_⟩
    · simp [listTrim, htail, hread, NodeMem.setPrev_of_alive, NodeMem.setNext_of_alive, hax]
    · refine h.start.remove rfl (fun _ => by simp) ?_ rfl rfl
      intro z
      simp only [NodeMem.link_withNext, NodeMem.link_withPrev, linkAfterRemove, hlink]
      split_ifs <;> simp_all
  · rw [List.concat_eq_append] at *
    have hat : m.Alive t := h.alive (by simp)
    have htx : t ≠ x := h.ne (by simp)
    have hhead : l.head ≠ none := by
      rw [h.head]
      cases ys <;> simp
    refine ⟨((m.withNext t none).withPrev x none).withNext x none, { l with tail := some t },
      ?_, ?_⟩
    · simp [listTrim, htail, hread, htx, hhead, NodeMem.setPrev_of_alive,
        NodeMem.setNext_of_alive, hax, hat]
    · suffices hrem : ListHolds (((m.withNext t none).withPrev x none).withNext x none)
          { l with tail := some t } (ys ++ [t] ++ []) ∧
            Frame m (((m.withNext t none).withPrev x none).withNext x none) (ys ++ [t] ++ [x]) ∧
            Detached (((m.withNext t none).withPrev x none).withNext x none) x by
        simpa using hrem
      · refine h.remove rfl (fun _ => by simp) ?_ ?_ (by simp)
        · intro z
          simp only [NodeMem.link_withNext, NodeMem.link_withPrev, linkAfterRemove, hlink]
          split_ifs <;> simp_all
        · show l.head = _
          rw [h.head]
          cases ys <;> rfl

/-! ## Removing in the middle -/

/-- The links of a node that has none can be cleared. -/
theorem Detached.clear (h : Detached m x) :
    ((m.withNext x none).withPrev x none).link = m.link := by
  funext z
  simp only [NodeMem.link_withNext, NodeMem.link_withPrev, show m.link x = some ⟨none, none⟩ from h]
  split_ifs with hzx
  · rw [hzx, show m.link x = some ⟨none, none⟩ from h]
    rfl
  · rfl

/-- `list_extract` takes out a node of the list. -/
theorem listExtract_spec (h : ListHolds m l (xs ++ x :: ys)) :
    ∃ m' l', listExtract m l (some x) = .ok (m', l', some x) ∧ ListHolds m' l' (xs ++ ys) ∧
      Frame m m' (xs ++ x :: ys) ∧ Detached m' x := by
  have hlink := h.link_eq
  have hax : m.Alive x := h.alive (by simp)
  obtain ⟨d, hread⟩ := NodeMem.read_of_link hlink
  have hhead : l.head ≠ none := by
    rw [h.head]
    cases xs <;> simp
  have htail : l.tail ≠ none := by simp [h.tail]
  -- the branches that pop and trim clear the links of the node once more
  have hclear : ∀ {m₁ : NodeMem D} {l₁ : LinkedList}, ListHolds m₁ l₁ (xs ++ ys) →
      Frame m m₁ (xs ++ x :: ys) → Detached m₁ x →
      ∃ m' l', ((m₁.setNext x none) >>= fun m => (m.setPrev x none) >>= fun m =>
          (Except.ok (m, l₁, some x) : Except Fault (NodeMem D × LinkedList × Option Ptr))) =
          .ok (m', l', some x) ∧
        ListHolds m' l' (xs ++ ys) ∧ Frame m m' (xs ++ x :: ys) ∧ Detached m' x := by
    intro m₁ l₁ h₁ hframe hdet
    have hax₁ : m₁.Alive x := hframe.alive_iff.mpr hax
    have hlink₁ := hdet.clear
    refine ⟨(m₁.withNext x none).withPrev x none, l₁, ?_, ?_, ?_, ?_⟩
    · simp [NodeMem.setPrev_of_alive, NodeMem.setNext_of_alive, hax₁]
    · have hclear : Frame m₁ ((m₁.withNext x none).withPrev x none) [] :=
        ⟨rfl, fun _ => by simp, fun p _ => by rw [hlink₁]⟩
      exact h₁.congr hclear (by simp)
    · exact hframe.trans ⟨rfl, fun _ => by simp, fun p _ => by rw [hlink₁]⟩
    · rw [Detached, hlink₁]
      exact hdet
  rcases List.eq_nil_or_concat xs with rfl | ⟨zs, t, rfl⟩
  · -- the first node, or the only one
    obtain ⟨m₁, l₁, hpop, h₁, hframe, hdet⟩ := listPop_spec h
    obtain ⟨m', l', hset, hrest⟩ := hclear h₁ hframe hdet
    refine ⟨m', l', ?_, hrest⟩
    rw [← hset]
    cases ys <;> simp_all [listExtract]
  · rw [List.concat_eq_append] at *
    cases ys with
    | nil =>
      -- the last node
      obtain ⟨m₁, l₁, htrim, h₁, hframe, hdet⟩ := listTrim_spec h
      obtain ⟨m', l', hset, hrest⟩ := hclear (by simpa using h₁) hframe hdet
      refine ⟨m', l', ?_, hrest⟩
      rw [← hset]
      simp_all [listExtract]
    | cons y ys =>
      have hat : m.Alive t := h.alive (by simp)
      have hay : m.Alive y := h.alive (by simp)
      obtain ⟨hnodup, hxmem⟩ := nodup_middle.mp h.nodup
      have htx : t ≠ x := by
        rintro rfl
        exact hxmem (by simp)
      have hyx : y ≠ x := by
        rintro rfl
        exact hxmem (by simp)
      have hty : t ≠ y := by
        rintro rfl
        exact not_mem_head?_of_getLast? hnodup (by simp) rfl
      refine ⟨(((m.withPrev y (some t)).withNext t (some y)).withNext x none).withPrev x none, l,
        ?_, ?_⟩
      · simp [listExtract, hhead, htail, hread, NodeMem.setPrev_of_alive,
          NodeMem.setNext_of_alive, hax, hat, hay]
      · refine h.remove rfl (fun _ => by simp) ?_ ?_ ?_
        · intro z
          simp only [NodeMem.link_withNext, NodeMem.link_withPrev, linkAfterRemove, hlink]
          split_ifs <;> simp_all
        · rw [h.head]
          cases zs <;> rfl
        · rw [h.tail]
          simp

/-! ## Inserting in the middle -/

/-- The node gets a place in front of the other one. -/
theorem listInsertBefore_spec (h : ListHolds m l (xs ++ y :: ys)) (hx : x ∉ xs ++ y :: ys)
    (hax : m.Alive x) :
    ∃ m' l', listInsertBefore m l x y = .ok (m', l') ∧ ListHolds m' l' (xs ++ x :: y :: ys) ∧
      Frame m m' (xs ++ x :: y :: ys) := by
  have hlink := h.link_eq
  obtain ⟨k, hk⟩ := NodeMem.alive_iff_link.mp hax
  have hay : m.Alive y := h.alive (by simp)
  obtain ⟨d, hread⟩ := NodeMem.read_of_link hlink
  have hyx : y ≠ x := by
    rintro rfl
    exact hx (by simp)
  -- in front of the first node the head moves
  rcases List.eq_nil_or_concat xs with rfl | ⟨zs, t, rfl⟩
  · have hhead : l.head = some y := h.head
    refine ⟨((m.withNext x (some y)).withPrev x none).withPrev y (some x),
      { l with head := some x }, ?_, ?_⟩
    · simp_all [listInsertBefore, NodeMem.setPrev_of_alive, NodeMem.setNext_of_alive]
    · refine h.insert hx rfl (fun _ => by simp) ?_ rfl ?_
      · intro z
        simp only [NodeMem.link_withNext, NodeMem.link_withPrev, linkAfterInsert, hk]
        split_ifs <;> simp_all
      · rw [h.tail, List.nil_append, List.nil_append, List.getLast?_cons_cons]
  · rw [List.concat_eq_append] at *
    have hat : m.Alive t := h.alive (by simp)
    have htx : t ≠ x := by
      rintro rfl
      exact hx (by simp)
    have hty : t ≠ y := h.ne (by simp)
    -- the first node is another one, as no node is twice in a list
    have hhead : l.head ≠ some y := by
      intro hhead
      rw [h.head] at hhead
      have hmem : y ∈ zs ++ [t] := by
        cases zs with
        | nil => exact absurd (by simpa using hhead) hty
        | cons z zs =>
          rw [show y = z by simpa using hhead.symm]
          simp
      exact h.notMem (List.mem_append_left _ hmem)
    refine ⟨(((m.withNext x (some y)).withPrev x (some t)).withNext t (some x)).withPrev y (some x),
      l, ?_, ?_⟩
    · simp [listInsertBefore, hread, hhead, NodeMem.setPrev_of_alive, NodeMem.setNext_of_alive,
        hax, hat, hay]
    · refine h.insert hx rfl (fun _ => by simp) ?_ ?_ ?_
      · intro z
        simp only [NodeMem.link_withNext, NodeMem.link_withPrev, linkAfterInsert, hk]
        split_ifs <;> simp_all
      · rw [h.head]
        cases zs <;> rfl
      · rw [h.tail]
        simp

/-- The node gets a place behind the other one. -/
theorem listInsertAfter_spec (h : ListHolds m l (xs ++ y :: ys)) (hx : x ∉ xs ++ y :: ys)
    (hax : m.Alive x) :
    ∃ m' l', listInsertAfter m l x y = .ok (m', l') ∧ ListHolds m' l' (xs ++ y :: x :: ys) ∧
      Frame m m' (xs ++ y :: x :: ys) := by
  have hlink := h.link_eq
  obtain ⟨k, hk⟩ := NodeMem.alive_iff_link.mp hax
  have hay : m.Alive y := h.alive (by simp)
  obtain ⟨d, hread⟩ := NodeMem.read_of_link hlink
  have hyx : y ≠ x := by
    rintro rfl
    exact hx (by simp)
  have h' : ListHolds m l ((xs ++ [y]) ++ ys) := by simpa using h
  have hx' : x ∉ (xs ++ [y]) ++ ys := by simpa using hx
  rw [show xs ++ y :: x :: ys = (xs ++ [y]) ++ x :: ys by simp]
  -- behind the last node the tail moves
  cases ys with
  | nil =>
    have htail : l.tail = some y := by rw [h.tail, List.getLast?_concat]
    refine ⟨((m.withNext x none).withPrev x (some y)).withNext y (some x),
      { l with tail := some x }, ?_, ?_⟩
    · simp_all [listInsertAfter, NodeMem.setPrev_of_alive, NodeMem.setNext_of_alive]
    · refine h'.insert hx' rfl (fun _ => by simp) ?_ ?_ (by simp)
      · intro z
        simp only [NodeMem.link_withNext, NodeMem.link_withPrev, linkAfterInsert, hk]
        split_ifs <;> simp_all
      · rw [h.head]
        cases xs <;> rfl
  | cons z zs =>
    have haz : m.Alive z := h.alive (by simp)
    have hzx : z ≠ x := by
      rintro rfl
      exact hx (by simp)
    have hyz : y ≠ z := (h.ne (by simp)).symm
    have htail : l.tail ≠ some y := by
      intro htail
      rw [h.tail, List.getLast?_append_cons, List.getLast?_cons_cons] at htail
      exact h.notMem
        (List.mem_append_right _ (List.mem_of_mem_getLast? htail))
    refine ⟨(((m.withNext x (some z)).withPrev x (some y)).withPrev z (some x)).withNext y (some x),
      l, ?_, ?_⟩
    · simp [listInsertAfter, hread, htail, NodeMem.setPrev_of_alive, NodeMem.setNext_of_alive,
        hax, hay, haz]
    · refine h'.insert hx' rfl (fun _ => by simp) ?_ ?_ ?_
      · intro w
        simp only [NodeMem.link_withNext, NodeMem.link_withPrev, linkAfterInsert, hk]
        split_ifs <;> simp_all
      · rw [h.head]
        cases xs <;> rfl
      · rw [h.tail]
        simp

/-- The comparison decides the preorder `le` on the nodes `ps`, in the direction asked for, and
finds every node equal to `NULL`. -/
structure Compares (m : NodeMem D) (compare : NodeCompare D) (sortAscending : Bool)
    (le : Ptr → Ptr → Bool) (ps : List Ptr) : Prop where
  some : ∀ p ∈ ps, ∀ q ∈ ps, ∃ c, compare m p (some q) = .ok c ∧
    isBefore sortAscending c = !le q p ∧ isBeforeEq sortAscending c = le p q
  null : ∀ p ∈ ps, compare m p none = .ok 0

/-- The order of nodes by a number. -/
def rankLe (rank : Ptr → Nat) (p q : Ptr) : Bool := decide (rank p ≤ rank q)

/-- Any two numbers can be compared. -/
theorem rankLe_total (rank : Ptr → Nat) (p q : Ptr) :
    rankLe rank p q = true ∨ rankLe rank q p = true := by
  simp only [rankLe, decide_eq_true_eq]
  exact Nat.le_total _ _

/-- The order of numbers is transitive. -/
theorem rankLe_trans (rank : Ptr → Nat) (p q r : Ptr) (hpq : rankLe rank p q = true)
    (hqr : rankLe rank q r = true) : rankLe rank p r = true := by
  simp only [rankLe, decide_eq_true_eq] at *
  exact Nat.le_trans hpq hqr

/-- A comparison whose sign is that of the difference of two numbers. -/
structure Orders (x y : Nat) (c : Int) : Prop where
  lt : c < 0 ↔ x < y
  eq : c = 0 ↔ x = y

/-- A comparison of numbers decides their order. -/
theorem Compares.of_orders {rank : Ptr → Nat} {compare : NodeCompare D} {ps : List Ptr}
    (hsome : ∀ p ∈ ps, ∀ q ∈ ps, ∃ c, compare m p (.some q) = .ok c ∧ Orders (rank p) (rank q) c)
    (hnull : ∀ p ∈ ps, compare m p none = .ok 0) :
    Compares m compare true (rankLe rank) ps := by
  refine ⟨fun p hp q hq => ?_, hnull⟩
  obtain ⟨c, hc, horders⟩ := hsome p hp q hq
  have hlt := horders.lt
  have heq := horders.eq
  refine ⟨c, hc, ?_, ?_⟩
  · rw [isBefore, if_pos rfl, rankLe, ← decide_not, decide_eq_decide]
    omega
  · rw [isBeforeEq, if_pos rfl, rankLe, decide_eq_decide]
    omega

/-- Equal nodes are in order, in both directions. -/
theorem isBeforeEq_zero (sortAscending : Bool) : isBeforeEq sortAscending 0 = true := by
  cases sortAscending <;> rfl

variable {compare : NodeCompare D} {sortAscending : Bool} {le : Ptr → Ptr → Bool}

/-- The loop of `list_insert` looks for the place `List.insertNear` finds. -/
theorem listInsertLoop_spec {fuel : Nat} (h : ListHolds m l (xs ++ ys)) (hx : x ∉ xs ++ ys)
    (hax : m.Alive x) (hcmp : Compares m compare sortAscending le (x :: ys))
    (hfuel : ys.length < fuel) :
    match ys.insertNear le x with
    | none => listInsertLoop m l x compare sortAscending fuel ys.head? = .ok (m, l, none)
    | some zs => ∃ m' l', listInsertLoop m l x compare sortAscending fuel ys.head? =
        .ok (m', l', some x) ∧ ListHolds m' l' (xs ++ zs) ∧ Frame m m' (xs ++ zs) := by
  induction fuel generalizing xs ys with
  | zero => omega
  | succ fuel ih =>
    cases ys with
    | nil => rfl
    | cons y ys =>
      have hxmem : x ∈ x :: y :: ys := List.mem_cons_self
      have hymem : y ∈ x :: y :: ys := by simp
      obtain ⟨c₁, hc₁, hbefore, -⟩ := hcmp.some x hxmem y hymem
      obtain ⟨c₂, hc₂, -, hbeforeEq⟩ := hcmp.some y hymem x hxmem
      obtain ⟨d, hread⟩ := NodeMem.read_of_link h.link_eq
      rw [List.insertNear]
      by_cases hyx : le y x = false
      · -- the node goes before `y`
        obtain ⟨m', l', hins, hholds, hframe⟩ := listInsertBefore_spec h hx hax
        rw [if_pos hyx]
        refine ⟨m', l', ?_, hholds, hframe⟩
        simp [listInsertLoop, hc₁, hbefore, hyx, hins]
      · rw [if_neg hyx]
        have hyx' : le y x = true := by simpa using hyx
        -- the second comparison is with the next node, or with `NULL`
        obtain ⟨c₃, hc₃, hnext⟩ : ∃ c, compare m x ys.head? = .ok c ∧
            isBeforeEq sortAscending c = ys.head?.all (le x) := by
          cases ys with
          | nil => exact ⟨0, hcmp.null x hxmem, isBeforeEq_zero _⟩
          | cons z zs =>
            obtain ⟨c, hc, -, hle⟩ := hcmp.some x hxmem z (by simp)
            exact ⟨c, hc, hle⟩
        by_cases hhead : ys.head?.all (le x) = true
        · obtain ⟨m', l', hins, hholds, hframe⟩ := listInsertAfter_spec h hx hax
          rw [if_pos hhead]
          refine ⟨m', l', ?_, hholds, hframe⟩
          simp [listInsertLoop, hc₁, hbefore, hyx', hc₂, hbeforeEq, hread, hc₃, hnext, hhead, hins]
        · rw [if_neg hhead]
          have hstep : listInsertLoop m l x compare sortAscending (fuel + 1) (y :: ys).head? =
              listInsertLoop m l x compare sortAscending fuel ys.head? := by
            simp [listInsertLoop, hc₁, hbefore, hyx', hc₂, hread, hc₃, hnext, hhead]
          have hcmp' : Compares m compare sortAscending le (x :: ys) := by
            have hsub : ∀ p ∈ x :: ys, p ∈ x :: y :: ys := by
              intro p hp
              rcases List.mem_cons.mp hp with rfl | hp
              · exact hxmem
              · simp [hp]
            exact ⟨fun p hp q hq => hcmp.some p (hsub p hp) q (hsub q hq),
              fun p hp => hcmp.null p (hsub p hp)⟩
          have hrest := ih h.step (by simpa using hx) hcmp'
            (by simpa using hfuel)
          rw [hstep]
          cases hnear : ys.insertNear le x with
          | none =>
            rw [hnear] at hrest
            exact hrest
          | some zs =>
            rw [hnear] at hrest
            obtain ⟨m', l', hloop, hholds, hframe⟩ := hrest
            refine ⟨m', l', hloop, ?_, ?_⟩
            · simpa using hholds
            · simpa using hframe

/-- `list_insert` into a sorted list puts the node at a place that keeps it sorted. -/
theorem listInsert_spec (h : ListHolds m l ns) (hx : x ∉ ns) (hax : m.Alive x)
    (hcmp : Compares m compare sortAscending le (x :: ns))
    (htotal : ∀ a b, le a b = true ∨ le b a = true)
    (htrans : ∀ a b c, le a b = true → le b c = true → le a c = true)
    (hsorted : ns.Pairwise fun a b => le a b = true) :
    ∃ m' l' xs ys, listInsert m l x compare sortAscending = .ok (m', l', some x) ∧
      (ns = xs ++ ys ∧ ns.insertInto le x = xs ++ x :: ys) ∧
      ListHolds m' l' (xs ++ x :: ys) ∧ Frame m m' (xs ++ x :: ys) ∧
      (xs ++ x :: ys).Pairwise fun a b => le a b = true := by
  cases hns : ns with
  | nil =>
    rw [hns] at h hx
    have hhead : l.head = none := h.head
    obtain ⟨k, hk⟩ := NodeMem.alive_iff_link.mp hax
    refine ⟨(m.withPrev x none).withNext x none, ⟨some x, some x⟩, [], [], ?_, ⟨rfl, rfl⟩,
      ?_⟩
    · simp [listInsert, hhead, NodeMem.setPrev_of_alive, NodeMem.setNext_of_alive, hax]
    · rw [← and_assoc]
      refine ⟨h.start.insert hx rfl (fun _ => by simp) ?_ rfl rfl,
        List.pairwise_singleton _ _⟩
      intro z
      simp only [NodeMem.link_withNext, NodeMem.link_withPrev, linkAfterInsert, hk]
      split_ifs <;> simp_all
  | cons n ns' =>
    have hne : ns ≠ [] := by simp [hns]
    obtain ⟨zs, hnear, hsorted'⟩ := List.insertNear_sorted (x := x) htotal htrans hne hsorted
    obtain ⟨as, bs, hsplit, rfl⟩ := List.insertNear_split hnear
    have hlen := h.length_le
    -- the loop stops where `insertNear` does
    have hloop := listInsertLoop_spec h.start hx hax hcmp (Nat.lt_succ_of_le h.length_le)
    rw [hnear] at hloop
    obtain ⟨m', l', hloop, hholds, hframe⟩ := hloop
    rw [← hns]
    refine ⟨m', l', as, bs, ?_, ⟨hsplit, by rw [List.insertInto, hnear, Option.getD_some]⟩, hholds,
      hframe, hsorted'⟩
    have hhead : l.head = some n := by rw [h.head, hns, List.head?_cons]
    rw [listInsert, hhead]
    rw [hns, List.head?_cons] at hloop
    exact hloop

/-! ## Searching -/

/-- The comparison finds the nodes of `ps` that satisfy `found`. -/
def Matches (m : NodeMem D) (node : K) (compare : NodeMatch D K) (found : Ptr → Bool)
    (ps : List Ptr) : Prop :=
  ∀ p ∈ ps, ∃ c, compare m p node = .ok c ∧ (c = 0 ↔ found p = true)

variable {node : K} {nodeMatch : NodeMatch D K} {found : Ptr → Bool}

/-- The loop finds the first match among the nodes that are left. -/
theorem listSearchLoop_spec {fuel : Nat} (h : ListHolds m l (xs ++ ys))
    (hmatch : Matches m node nodeMatch found ys) (hfuel : ys.length < fuel) :
    listSearchLoop m node nodeMatch fuel ys.head? = .ok (ys.find? found) := by
  induction fuel generalizing xs ys with
  | zero => omega
  | succ fuel ih =>
    cases ys with
    | nil => rfl
    | cons y ys =>
      obtain ⟨c, hc, hfound⟩ := hmatch y List.mem_cons_self
      obtain ⟨d, hread⟩ := NodeMem.read_of_link h.link_eq
      rw [List.head?_cons, listSearchLoop, List.find?_cons]
      by_cases hy : found y = true
      · simp [hc, hfound.mpr hy, hy]
      · have hc0 : c ≠ 0 := fun hzero => hy (hfound.mp hzero)
        have hrest := ih h.step
          (fun p hp => hmatch p (List.mem_cons_of_mem _ hp)) (by simpa using hfuel)
        simp [hc, hc0, hread, hrest, hy]

/-- `list_search` finds the first node that matches. -/
theorem listSearch_spec (h : ListHolds m l ns) (hmatch : Matches m node nodeMatch found ns) :
    listSearch m l node nodeMatch = .ok (ns.find? found) := by
  have hlen := h.length_le
  unfold listSearch
  rw [h.head]
  exact listSearchLoop_spec h.start hmatch (by omega)

/-- `list_remove_match` leaves a list without a match as it is. -/
theorem listRemoveMatch_none (h : ListHolds m l ns) (hmatch : Matches m node nodeMatch found ns)
    (hnone : ∀ p ∈ ns, found p = false) :
    listRemoveMatch m l node nodeMatch = .ok (m, l, none) := by
  have hfind : ns.find? found = none := by
    rw [List.find?_eq_none]
    intro p hp
    simp [hnone p hp]
  simp [listRemoveMatch, listSearch_spec h hmatch, hfind]

/-- `list_remove_match` takes out the first match. -/
theorem listRemoveMatch_some (h : ListHolds m l (xs ++ x :: ys))
    (hmatch : Matches m node nodeMatch found (xs ++ x :: ys)) (hx : found x = true)
    (hxs : ∀ p ∈ xs, found p = false) :
    ∃ m' l', listRemoveMatch m l node nodeMatch = .ok (m', l', some x) ∧
      ListHolds m' l' (xs ++ ys) ∧ Frame m m' (xs ++ x :: ys) ∧ Detached m' x := by
  have hfind : (xs ++ x :: ys).find? found = some x := by
    rw [List.find?_eq_some_iff_append]
    exact ⟨hx, xs, ys, rfl, fun p hp => by simp [hxs p hp]⟩
  obtain ⟨m', l', hextract, hrest⟩ := listExtract_spec h
  refine ⟨m', l', ?_, hrest⟩
  simp [listRemoveMatch, listSearch_spec h hmatch, hfind, hextract]

/-- The rating of the best node so far. -/
def bestRating (rating : Ptr → Nat) : Option Ptr → Nat
  | none => 0
  | some b => rating b

/-- The rating of the best node so far. -/
@[simp]
theorem bestRating_some (rating : Ptr → Nat) (b : Ptr) :
    bestRating rating (some b) = rating b := rfl

/-- The better of the best node so far and the next one. -/
def better (rating : Ptr → Nat) (best : Option Ptr) (p : Ptr) : Option Ptr :=
  if bestRating rating best < rating p then some p else best

/-- The best node of a list: the first one that no other is rated above, if it is rated above `0`. -/
def bestOf (rating : Ptr → Nat) (ps : List Ptr) : Option Ptr := ps.foldl (better rating) none

variable {rate : NodeMem D → Ptr → Except Fault Nat} {rating : Ptr → Nat} {best : Option Ptr}

/-- The better of two nodes is rated as high as both. -/
theorem le_bestRating_better {p : Ptr} :
    bestRating rating best ≤ bestRating rating (better rating best p) ∧
      rating p ≤ bestRating rating (better rating best p) := by
  unfold better
  split_ifs with hlt
  · exact ⟨Nat.le_of_lt hlt, Nat.le_refl _⟩
  · exact ⟨Nat.le_refl _, Nat.le_of_not_lt hlt⟩

/-- The best of some nodes and one more is the better of the two. -/
theorem bestOf_concat {p : Ptr} : bestOf rating (xs ++ [p]) = better rating (bestOf rating xs) p := by
  rw [bestOf, List.foldl_append, List.foldl_cons, List.foldl_nil, bestOf]

/-- No node is rated above the best one. -/
theorem le_bestRating {p : Ptr} (hp : p ∈ xs) : rating p ≤ bestRating rating (bestOf rating xs) := by
  induction xs using List.reverseRecOn with
  | nil => exact absurd hp List.not_mem_nil
  | append_singleton xs q ih =>
    rw [bestOf_concat]
    rcases List.mem_append.mp hp with hp | hp
    · exact Nat.le_trans (ih hp) le_bestRating_better.1
    · rw [List.mem_singleton.mp hp]
      exact le_bestRating_better.2

/-- A node that is not rated above the best one so far does not change it. -/
theorem foldl_better (hle : ∀ p ∈ ys, rating p ≤ bestRating rating best) :
    ys.foldl (better rating) best = best := by
  induction ys with
  | nil => rfl
  | cons y ys ih =>
    rw [List.foldl_cons, better, if_neg (Nat.not_lt.mpr (hle y List.mem_cons_self))]
    exact ih fun p hp => hle p (List.mem_cons_of_mem _ hp)

/-- There is no best node when none has a rating above zero. -/
theorem bestOf_eq_none_iff : bestOf rating xs = none ↔ ∀ p ∈ xs, rating p = 0 := by
  constructor
  · intro hnone p hp
    have hle : rating p ≤ bestRating rating (bestOf rating xs) := le_bestRating hp
    rw [hnone] at hle
    exact Nat.le_zero.mp hle
  · intro hzero
    exact foldl_better fun p hp => Nat.le_of_eq (hzero p hp)

/-- The best node is rated above those before it, and not below those after it. -/
theorem bestOf_eq_some {p : Ptr} (hbest : bestOf rating ns = some p) :
    ∃ xs ys, ns = xs ++ p :: ys ∧ 0 < rating p ∧ (∀ q ∈ xs, rating q < rating p) ∧
      ∀ q ∈ ys, rating q ≤ rating p := by
  induction ns using List.reverseRecOn with
  | nil => cases hbest
  | append_singleton ns q ih =>
    rw [bestOf_concat, better] at hbest
    split_ifs at hbest with hlt
    · -- the last node is rated above all others
      cases hbest
      exact ⟨ns, [], rfl, Nat.zero_lt_of_lt hlt,
        fun r hr => Nat.lt_of_le_of_lt (le_bestRating hr) hlt, by simp⟩
    · obtain ⟨xs, ys, rfl, hpos, hbefore, hafter⟩ := ih hbest
      rw [hbest, bestRating_some, Nat.not_lt] at hlt
      refine ⟨xs, ys ++ [q], by simp, hpos, hbefore, fun r hr => ?_⟩
      rcases List.mem_append.mp hr with hr | hr
      · exact hafter r hr
      · rw [List.mem_singleton.mp hr]
        exact hlt

/-- The loop compares the nodes that are left with the best one so far. -/
theorem listScoreLoop_spec {fuel : Nat} (h : ListHolds m l (xs ++ ys))
    (hrate : ∀ p ∈ ys, rate m p = .ok (rating p)) (hfuel : ys.length < fuel) :
    listScoreLoop m rate fuel ys.head? best (bestRating rating best) =
      .ok (ys.foldl (better rating) best) := by
  induction fuel generalizing xs ys best with
  | zero => omega
  | succ fuel ih =>
    cases ys with
    | nil => rfl
    | cons y ys =>
      obtain ⟨d, hread⟩ := NodeMem.read_of_link h.link_eq
      have hrate_y := hrate y List.mem_cons_self
      have hnext : ys.head? ≠ some y := by
        intro hhead
        exact h.notMem (List.mem_append_right _ (List.mem_of_mem_head? hhead))
      have hrest : listScoreLoop m rate fuel ys.head? (better rating best y)
          (bestRating rating (better rating best y)) = _ :=
        ih h.step (fun p hp => hrate p (List.mem_cons_of_mem _ hp)) (by simpa using hfuel)
      rw [List.foldl_cons, ← hrest, List.head?_cons, listScoreLoop, better]
      by_cases hlt : bestRating rating best < rating y
      · simp [hrate_y, hread, hnext, hlt]
      · simp [hrate_y, hread, hnext, hlt]

/-- `list_score` finds the best node. -/
theorem listScore_spec (h : ListHolds m l ns) (hrate : ∀ p ∈ ns, rate m p = .ok (rating p)) :
    listScore m l rate = .ok (bestOf rating ns) := by
  have hlen := h.length_le
  unfold listScore
  rw [h.head]
  exact listScoreLoop_spec h.start hrate (by omega)

/-- The loop counts the nodes that are left. -/
theorem listLengthLoop_spec {fuel n : Nat} (h : ListHolds m l (xs ++ ys))
    (hfuel : ys.length < fuel) :
    listLengthLoop m fuel ys.head? n = .ok (n + ys.length) := by
  induction fuel generalizing xs ys n with
  | zero => omega
  | succ fuel ih =>
    cases ys with
    | nil => rfl
    | cons y ys =>
      obtain ⟨d, hread⟩ := NodeMem.read_of_link h.link_eq
      have hrest := ih (n := n + 1) h.step (by simpa using hfuel)
      rw [List.head?_cons, listLengthLoop]
      simp only [hread, ok_bind, hrest, List.length_cons]
      congr 1
      omega

/-- `list_length` counts the nodes. -/
theorem listLength_spec (h : ListHolds m l ns) : listLength m l = .ok ns.length := by
  have hlen := h.length_le
  have hloop := listLengthLoop_spec (n := 0) h.start (Nat.lt_succ_of_le h.length_le)
  rw [listLength, h.head, hloop, Nat.zero_add]

/-! ## What the links of a list look like from outside -/

/-- The nodes that following the next links from `p` visits, at most as many as the number. -/
def walk (m : NodeMem D) : Nat → Option Ptr → List Ptr
  | 0, _ => []
  | _, none => []
  | fuel + 1, some p => p :: walk m fuel ((m.node p).bind Node.next)

/-- The nodes of a list, from the head on. -/
def listNodes (m : NodeMem D) (l : LinkedList) : List Ptr := walk m m.size l.head

/-- A walk along the links visits the nodes that are left. -/
theorem walk_eq {fuel : Nat} (h : ListHolds m l (xs ++ ys)) (hfuel : ys.length ≤ fuel) :
    walk m fuel ys.head? = ys := by
  induction fuel generalizing xs ys with
  | zero =>
    rw [List.eq_nil_of_length_eq_zero (by omega : ys.length = 0)]
    rfl
  | succ fuel ih =>
    cases ys with
    | nil => rfl
    | cons y ys =>
      obtain ⟨d, -, hnode⟩ := NodeMem.node_eq_some h.link_eq
      have hrest := ih h.step (by simpa using hfuel)
      rw [List.head?_cons, walk, hnode, Option.bind_some, hrest]

/-- The walk over a list finds its nodes. -/
theorem ListHolds.listNodes_eq (h : ListHolds m l ns) : listNodes m l = ns := by
  rw [listNodes, h.head]
  exact walk_eq h.start h.length_le

/-- Following the next links from the head, and the previous links from the tail, visits the
nodes of the list, in opposite orders. -/
theorem ListHolds.follows (h : ListHolds m l ns) :
    Follows (fun p => (m.node p).bind Node.next) l.head ns ∧
      Follows (fun p => (m.node p).bind Node.prev) l.tail ns.reverse := by
  have hnext : (fun p => (m.link p).bind Links.next) = fun p => (m.node p).bind Node.next := by
    funext p
    rw [NodeMem.link, Option.bind_map]
    rfl
  have hprev : (fun p => (m.link p).bind Links.prev) = fun p => (m.node p).bind Node.prev := by
    funext p
    rw [NodeMem.link, Option.bind_map]
    rfl
  rw [← hnext, ← hprev, h.head, h.tail]
  exact ⟨h.chain.follows_next, h.chain.follows_prev⟩

end DVP.Sosal
