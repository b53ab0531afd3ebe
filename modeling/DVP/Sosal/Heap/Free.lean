import DVP.Sosal.Heap.Coalesce

/-!
# What `heap_free` does

`Heap.freedNode` is the node a call frees, and `Heap.freePlace` tells between which nodes it comes
to lie on the free list. A call that frees nothing changes nothing (`heapFree_none`). A call that
frees a block does what `FreeStep` says and keeps the invariant of the heap, but for the tail of the
free list, which it does not move when it merges the last node away (`heapFree_spec`).
-/

namespace DVP.Sosal

variable {a : Arch} {arena : Arena a} {h : Heap} {blk : Ptr → Block} {p q : Ptr} {i j : Nat}
  {us fs ss xs ys : List Ptr}

/-! ## The neighbours of a block -/

/-- `block_is_adjacent` of two blocks. -/
def touches (a : Arch) (b c : Block) : Bool := decide (a.add b.data b.size = c.data)

/-- In the data region no address wraps. -/
theorem Region.touches_iff {bs : List Block} {b c : Block} (h : Region arena bs) (hb : b ∈ bs) :
    touches a b c = true ↔ b.data + b.size = c.data := by
  rw [touches, decide_eq_true_eq, Arch.add_of_lt (h.end_lt hb)]

/-- A node merges with the node before it. -/
def mergesPrev (a : Arch) (blk : Ptr → Block) (p : Ptr) (place : List Ptr × List Ptr) : Bool :=
  place.1.getLast?.any fun q => touches a (blk q) (blk p)

/-- A node merges with the node after it. -/
def mergesNext (a : Arch) (blk : Ptr → Block) (p : Ptr) (place : List Ptr × List Ptr) : Bool :=
  !mergesPrev a blk p place && place.2.head?.any fun q => touches a (blk p) (blk q)

theorem readData_of_data {m : HeapNodes} {v : Option Nat} (hv : m.data q = some v) :
    readData m (some q) = .ok v := by
  obtain ⟨n, hn, hnv⟩ := Option.map_eq_some_iff.mp hv
  simp [readData, NodeMem.read, hn, hnv]

section Neighbours

variable (hl : HeapLists h us (xs ++ p :: ys) ss [] blk) (hi : h.nodes.data p = some (some i))
include hl hi

theorem read_node : h.nodes.read (some p) = .ok ⟨ys.head?, xs.getLast?, some i⟩ := by
  obtain ⟨d, hd, hnode⟩ := NodeMem.node_eq_some hl.free.link_eq
  rw [hi] at hd
  cases hd
  rw [NodeMem.read, hnode]

/-- The test of the node before it. -/
theorem isAdjacent_prev : ∃ prevBlock, readData h.nodes xs.getLast? = .ok prevBlock ∧
    blockIsAdjacent a h.blocks prevBlock (some i) = .ok (mergesPrev a blk p (xs, ys)) ∧
    ∀ q ∈ xs.getLast?, h.nodes.data q = some prevBlock ∧ prevBlock ≠ none := by
  have hread_p := hl.own.readBlock_eq (p := p) (by simp) hi
  cases hlast : xs.getLast? with
  | none => exact ⟨none, rfl, by simp [blockIsAdjacent, mergesPrev, hlast], by simp⟩
  | some q =>
    have hq : q ∈ xs := List.mem_of_mem_getLast? hlast
    obtain ⟨j, hj, -⟩ := hl.own.block q (by simp [hq])
    have hread_q := hl.own.readBlock_eq (p := q) (by simp [hq]) hj
    refine ⟨some j, readData_of_data hj, ?_, ?_⟩
    · simp [blockIsAdjacent, hread_p, hread_q, mergesPrev, hlast, touches]
    · rintro r ⟨⟩
      exact ⟨hj, by simp⟩

/-- The test of the node after it. -/
theorem isAdjacent_next : ∃ nextBlock, readData h.nodes ys.head? = .ok nextBlock ∧
    blockIsAdjacent a h.blocks (some i) nextBlock =
      .ok (ys.head?.any fun q => touches a (blk p) (blk q)) ∧
    ∀ q ∈ ys.head?, h.nodes.data q = some nextBlock ∧ nextBlock ≠ none := by
  have hread_p := hl.own.readBlock_eq (p := p) (by simp) hi
  cases ys with
  | nil => exact ⟨none, rfl, by simp [blockIsAdjacent], by simp⟩
  | cons q zs =>
    obtain ⟨j, hj, -⟩ := hl.own.block q (by simp)
    have hread_q := hl.own.readBlock_eq (p := q) (by simp) hj
    refine ⟨some j, readData_of_data hj, ?_, ?_⟩
    · simp [blockIsAdjacent, hread_p, hread_q, touches]
    · rintro r ⟨⟩
      exact ⟨hj, by simp⟩

end Neighbours

/-- The coalescing without a neighbour that touches the block. -/
theorem heapCoalesce_none (hl : HeapLists h us (xs ++ p :: ys) ss [] blk)
    (hi : h.nodes.data p = some (some i)) (hprev : mergesPrev a blk p (xs, ys) = false)
    (hnext : mergesNext a blk p (xs, ys) = false) : heapCoalesce a h p i = .ok h := by
  obtain ⟨prevBlock, hread_prev, hadj_prev, -⟩ := isAdjacent_prev (a := a) hl hi
  obtain ⟨nextBlock, hread_next, hadj_next, -⟩ := isAdjacent_next (a := a) hl hi
  have hnext' : (ys.head?.any fun q => touches a (blk p) (blk q)) = false := by
    simpa [mergesNext, hprev] using hnext
  rw [hprev] at hadj_prev
  rw [hnext'] at hadj_next
  simp [heapCoalesce, read_node hl hi, hread_prev, hread_next, hadj_prev, hadj_next]

/-- The coalescing with the node before. -/
theorem heapCoalesce_prev (hl : HeapLists h us (xs ++ p :: ys) ss [] blk)
    (hi : h.nodes.data p = some (some i)) (hprev : mergesPrev a blk p (xs, ys) = true) :
    ∃ zs q j, xs = zs ++ [q] ∧ h.nodes.data q = some (some j) ∧
      touches a (blk q) (blk p) = true ∧
      heapCoalesce a h p i = heapCoalescePrev a h p q i j := by
  obtain ⟨prevBlock, hread_prev, hadj_prev, hblock⟩ := isAdjacent_prev (a := a) hl hi
  obtain ⟨nextBlock, hread_next, -, -⟩ := isAdjacent_next (a := a) hl hi
  rw [hprev] at hadj_prev
  rcases List.eq_nil_or_concat xs with rfl | ⟨zs, q, rfl⟩
  · simp [mergesPrev] at hprev
  · rw [List.concat_eq_append] at *
    obtain ⟨hq, hne⟩ := hblock q (by simp)
    obtain ⟨j, rfl⟩ := Option.ne_none_iff_exists'.mp hne
    refine ⟨zs, q, j, rfl, hq, by simpa [mergesPrev] using hprev, ?_⟩
    rw [List.getLast?_concat] at hread_prev
    have hread := read_node hl hi
    rw [List.getLast?_concat] at hread
    simp [heapCoalesce, hread, hread_prev, hread_next, hadj_prev]

/-- The coalescing with the node after. -/
theorem heapCoalesce_next (hl : HeapLists h us (xs ++ p :: ys) ss [] blk)
    (hi : h.nodes.data p = some (some i)) (hnext : mergesNext a blk p (xs, ys) = true) :
    ∃ q zs j, ys = q :: zs ∧ h.nodes.data q = some (some j) ∧
      touches a (blk p) (blk q) = true ∧
      heapCoalesce a h p i = heapCoalesceNext a h p q i j := by
  obtain ⟨prevBlock, hread_prev, hadj_prev, -⟩ := isAdjacent_prev (a := a) hl hi
  obtain ⟨nextBlock, hread_next, hadj_next, hblock⟩ := isAdjacent_next (a := a) hl hi
  obtain ⟨hprev, htouch⟩ : mergesPrev a blk p (xs, ys) = false ∧
      (ys.head?.any fun q => touches a (blk p) (blk q)) = true := by
    simpa [mergesNext] using hnext
  rw [hprev] at hadj_prev
  rw [htouch] at hadj_next
  cases ys with
  | nil => simp at htouch
  | cons q zs =>
    obtain ⟨hq, hne⟩ := hblock q (by simp)
    obtain ⟨j, rfl⟩ := Option.ne_none_iff_exists'.mp hne
    refine ⟨q, zs, j, rfl, hq, by simpa using htouch, ?_⟩
    rw [List.head?_cons] at hread_next
    have hread := read_node hl hi
    rw [List.head?_cons] at hread
    simp [heapCoalesce, hread, hread_prev, hread_next, hadj_prev, hadj_next]

/-- What the coalescing of the node `p` between `xs` and `ys` does to the free nodes and to their
blocks. -/
inductive CoalesceStep (a : Arch) (blk : Ptr → Block) (p : Ptr) (xs ys : List Ptr) :
    List Ptr → (Ptr → Block) → Prop
  | none (hprev : mergesPrev a blk p (xs, ys) = false) (hnext : mergesNext a blk p (xs, ys) = false) :
      CoalesceStep a blk p xs ys (xs ++ p :: ys) blk
  | prev (zs : List Ptr) (q : Ptr) (hxs : xs = zs ++ [q])
      (hprev : mergesPrev a blk p (xs, ys) = true)
      (htouch : (blk q).data + (blk q).size = (blk p).data) :
      CoalesceStep a blk p xs ys (zs ++ q :: ys)
        (Function.update blk q ⟨(blk q).size + (blk p).size, (blk q).data⟩)
  | next (q : Ptr) (zs : List Ptr) (hys : ys = q :: zs)
      (hnext : mergesNext a blk p (xs, ys) = true)
      (htouch : (blk p).data + (blk p).size = (blk q).data) :
      CoalesceStep a blk p xs ys (xs ++ p :: zs)
        (Function.update blk p ⟨(blk p).size + (blk q).size, (blk p).data⟩)

/-- The coalescing keeps the invariant, but for the tail of the free list, which it does not move. -/
theorem heapCoalesce_spec (hinv : HeapInv arena h us (xs ++ p :: ys) ss blk)
    (hi : h.nodes.data p = some (some i)) :
    ∃ h' fs' blk', heapCoalesce a h p i = .ok h' ∧ h'.free = h.free ∧
      HeapInv arena (h'.retail fs') us fs' ss blk' ∧ CoalesceStep a blk p xs ys fs' blk' := by
  have hmem : ∀ q ∈ xs ++ p :: ys, blk q ∈ (us ++ (xs ++ p :: ys)).map blk :=
    fun q hq => List.mem_map_of_mem (List.mem_append_right _ hq)
  have hsize : ∀ q r, q ∈ xs ++ p :: ys → r ∈ xs ++ p :: ys →
      (blk q).data + (blk q).size = (blk r).data →
      a.add (blk q).size (blk r).size = (blk q).size + (blk r).size := by
    intro q r hq hr htouch
    have hend := hinv.region.end_lt (hmem r hr)
    exact Arch.add_of_lt (by omega)
  by_cases hp : mergesPrev a blk p (xs, ys) = true
  · obtain ⟨zs, q, j, rfl, hj, htouch, hcoalesce⟩ := heapCoalesce_prev hinv.lists hi hp
    have hlists : (zs ++ [q]) ++ p :: ys = zs ++ q :: p :: ys := by simp
    rw [hlists] at hinv hmem hsize
    have htouch' := (hinv.region.touches_iff (hmem q (by simp))).mp htouch
    obtain ⟨m', heq, hmerged⟩ := heapCoalescePrev_eq (a := a) hinv.lists hi hj
    rw [Arch.add, Nat.add_comm (blk p).size, ← Arch.add,
      hsize q p (by simp) (by simp) htouch'] at heq
    exact ⟨_, zs ++ q :: ys, _, hcoalesce.trans heq, rfl, hinv.merge htouch' (.inr ⟨hj, hi⟩) hmerged,
      .prev zs q rfl hp htouch'⟩
  · by_cases hn : mergesNext a blk p (xs, ys) = true
    · obtain ⟨q, zs, j, rfl, hj, htouch, hcoalesce⟩ := heapCoalesce_next hinv.lists hi hn
      have htouch' := (hinv.region.touches_iff (hmem p (by simp))).mp htouch
      obtain ⟨m', heq, hmerged⟩ := heapCoalesceNext_eq (a := a) hinv.lists hi hj
      rw [hsize p q (by simp) (by simp) htouch'] at heq
      exact ⟨_, xs ++ p :: zs, _, hcoalesce.trans heq, rfl, hinv.merge htouch' (.inl ⟨hi, hj⟩) hmerged,
        .next q zs rfl hn htouch'⟩
    · rw [Bool.not_eq_true] at hp hn
      refine ⟨h, xs ++ p :: ys, blk, heapCoalesce_none hinv.lists hi hp hn, rfl, ?_, .none hp hn⟩
      rwa [Heap.retail_eq hinv.lists.free.tail]

/-- The node `p` between `xs` and `ys`, or the one after it, is merged away and is the last one. -/
def mergesLast (a : Arch) (blk : Ptr → Block) (p : Ptr) (place : List Ptr × List Ptr) : Bool :=
  (mergesPrev a blk p place && place.2.isEmpty) ||
    (mergesNext a blk p place && place.2.tail.isEmpty)

/-- The last free node is still the last one, or it is gone. -/
theorem CoalesceStep.getLast? {fs' : List Ptr} {blk' : Ptr → Block}
    (hstep : CoalesceStep a blk p xs ys fs' blk') (hnodup : (xs ++ p :: ys).Nodup) :
    (mergesLast a blk p (xs, ys) = false ∧ (xs ++ p :: ys).getLast? = fs'.getLast?) ∨
      mergesLast a blk p (xs, ys) = true ∧
        ∃ t ∈ xs ++ p :: ys, (xs ++ p :: ys).getLast? = some t ∧ t ∉ fs' := by
  cases hstep with
  | none hprev hnext => exact .inl ⟨by simp [mergesLast, hprev, hnext], rfl⟩
  | prev zs q hxs hprev htouch =>
    subst hxs
    cases ys with
    | nil =>
      refine .inr ⟨by simp [mergesLast, hprev], p, by simp, by simp, ?_⟩
      have hp := (nodup_middle.mp hnodup).2
      simpa using hp
    | cons y ys =>
      have hnext : mergesNext a blk p (zs ++ [q], y :: ys) = false := by simp [mergesNext, hprev]
      exact .inl ⟨by simp [mergesLast, hnext], by simp⟩
  | next q zs hys hnext htouch =>
    subst hys
    have hprev : mergesPrev a blk p (xs, q :: zs) = false := by
      rw [mergesNext, Bool.and_eq_true, Bool.not_eq_true'] at hnext
      exact hnext.1
    cases zs with
    | nil =>
      refine .inr ⟨by simp [mergesLast, hnext], q, by simp, by simp, ?_⟩
      have hq : q ∉ xs ++ [p] := by
        have hnodup' : ((xs ++ [p]) ++ q :: []).Nodup := by simpa using hnodup
        simpa using (nodup_middle.mp hnodup').2
      exact hq
    | cons y ys => exact .inl ⟨by simp [mergesLast, hprev], by simp⟩

/-- A node that is left was there. -/
theorem CoalesceStep.subset {fs' : List Ptr} {blk' : Ptr → Block}
    (hstep : CoalesceStep a blk p xs ys fs' blk') : fs' ⊆ xs ++ p :: ys := by
  cases hstep with
  | none => exact List.Subset.refl _
  | prev zs q hxs =>
    intro r hr
    simp only [hxs, List.mem_append, List.mem_cons] at hr ⊢
    tauto
  | next q zs hys =>
    intro r hr
    simp only [hys, List.mem_append, List.mem_cons] at hr ⊢
    tauto

/-- A list is not linked when its tail is a cleared node that is not its head. -/
theorem not_linked_of_stale {m : HeapNodes} {l : LinkedList} {ps : List Ptr}
    (htail : l.tail = some p) (hhead : l.head ≠ some p) (hprev : (m.node p).bind Node.prev = none) :
    ¬Linked m l ps := by
  rintro ⟨hforward, hbackward⟩
  -- backwards from the tail there is only that node, and forwards the list starts with another
  have hrev : ps.reverse = [p] := by
    generalize ps.reverse = qs at hbackward
    cases qs with
    | nil =>
      rw [htail] at hbackward
      cases hbackward
    | cons q qs =>
      obtain ⟨hq, hrest⟩ := hbackward
      rw [htail, Option.some.injEq] at hq
      subst hq
      cases qs with
      | nil => rfl
      | cons r rs =>
        have hr := hrest.1
        simp only [hprev] at hr
        cases hr
  have hps : ps = [p] := by simpa using congrArg List.reverse hrev
  rw [hps] at hforward
  exact hhead hforward.1

/-- The list a merge of its last node leaves. -/
theorem not_linked_of_merged {m m' : HeapNodes} {l : LinkedList} {kept gone : Ptr} {ps : List Ptr}
    (hl : ListHolds m l (xs ++ [gone])) (hxs : xs ≠ []) (hmerged : Merged m m' xs [] kept gone i) :
    ¬Linked m' l ps := by
  have hlink : m'.link gone = some ⟨none, none⟩ := by
    rw [hmerged.link, linkAfterRemove, if_pos rfl]
  obtain ⟨d, -, hnode⟩ := NodeMem.node_eq_some hlink
  obtain ⟨y, ys, rfl⟩ := List.exists_cons_of_ne_nil hxs
  refine not_linked_of_stale (by rw [hl.tail, List.getLast?_concat]) ?_ (by rw [hnode]; rfl)
  intro hhead
  rw [hl.head, List.cons_append, List.head?_cons, Option.some.injEq] at hhead
  exact hl.notMem (by simp [hhead])

/-- The coalescing that merges the last node away leaves the tail of the free list at that node. -/
theorem heapCoalesce_breaks (hinv : HeapInv arena h us (xs ++ p :: ys) ss blk)
    (hi : h.nodes.data p = some (some i))
    (hlast : (mergesPrev a blk p (xs, ys) = true ∧ ys = []) ∨
      (mergesNext a blk p (xs, ys) = true ∧ ys.tail = [])) :
    ∃ h', heapCoalesce a h p i = .ok h' ∧ ∀ ps, ¬Linked h'.nodes h'.free ps := by
  rcases hlast with ⟨hprev, rfl⟩ | ⟨hnext, htail⟩
  · obtain ⟨zs, q, j, rfl, hj, -, hcoalesce⟩ := heapCoalesce_prev hinv.lists hi hprev
    have hlists : (zs ++ [q]) ++ [p] = zs ++ q :: p :: [] := by simp
    have hfree := hinv.lists.free
    have hinv' := hinv
    rw [hlists] at hinv'
    obtain ⟨m', heq, hmerged⟩ := heapCoalescePrev_eq (a := a) hinv'.lists hi hj
    exact ⟨_, hcoalesce.trans heq, fun ps => not_linked_of_merged hfree (by simp) hmerged⟩
  · obtain ⟨q, zs, j, rfl, hj, -, hcoalesce⟩ := heapCoalesce_next hinv.lists hi hnext
    obtain rfl : zs = [] := htail
    obtain ⟨m', heq, hmerged⟩ := heapCoalesceNext_eq (a := a) hinv.lists hi hj
    have hfree : ListHolds h.nodes h.free ((xs ++ [p]) ++ [q]) := by simpa using hinv.lists.free
    exact ⟨_, hcoalesce.trans heq, fun ps => not_linked_of_merged hfree (by simp) hmerged⟩

/-! ## Freeing -/

/-- The node that `heap_free` finds for a pointer. -/
def Heap.freedNode (h : Heap) (pointer : Nat) : Option Ptr :=
  if pointer = 0 ∨ ptrIsAligned pointer h.align = false then none
  else (listNodes h.nodes h.used).find? fun p => decide ((h.blockOf p).data = pointer)

/-- The nodes of the free list before and after the place where `list_insert` puts a node. -/
def Heap.freePlace (h : Heap) (p : Ptr) : List Ptr × List Ptr :=
  List.around p ((listNodes h.nodes h.free).insertInto (addrLe h.blockOf) p)

/-- The call merges the block it frees with a neighbour. -/
def Heap.coalesces (a : Arch) (h : Heap) (pointer : Nat) : Bool :=
  (h.freedNode pointer).any fun p =>
    mergesPrev a h.blockOf p (h.freePlace p) || mergesNext a h.blockOf p (h.freePlace p)

/-- The call merges the last node of the free list away: the node of the freed block, with no node
after it, or the one after that node, with no other behind. -/
def Heap.losesLast (a : Arch) (h : Heap) (pointer : Nat) : Bool :=
  (h.freedNode pointer).any fun p =>
    (mergesPrev a h.blockOf p (h.freePlace p) && (h.freePlace p).2.isEmpty) ||
      (mergesNext a h.blockOf p (h.freePlace p) && (h.freePlace p).2.tail.isEmpty)

/-- A call that frees a block puts it on the free list and coalesces. -/
theorem heapFree_eq {pointer : Nat} {m₁ m₂ : HeapNodes} {l₁ l₂ : LinkedList} {n : Node (Option Nat)}
    {b : Block} {node : Option Ptr} (hpointer : pointer ≠ 0) (hraw : h.raw ≠ 0)
    (haligned : ptrIsAligned pointer h.align = true) (hpolicy : h.coalescePolicy = true)
    (hremove : listRemoveMatch h.nodes h.used pointer (blockMatchPtr h.blocks) =
      .ok (m₁, l₁, some p))
    (hread : m₁.read (some p) = .ok n) (hn : n.data = some i)
    (hblock : readBlock h.blocks (some i) = .ok b) (hb : b.data = pointer)
    (hinsert : listInsert m₁ h.free p (blockComparePtr h.blocks) true = .ok (m₂, l₂, node)) :
    heapFree a h pointer = (do
      let h ← heapCoalesce a
        { h with
          nodes := m₂
          used := l₁
          free := l₂
          bytesUsed := a.sub h.bytesUsed b.size
          bytesFree := a.add h.bytesFree b.size } p i
      return (h, true)) := by
  simp [heapFree, hpointer, hraw, haligned, hremove, hread, hn, hblock, hb, hinsert, hpolicy]

/-- A call that finds no block to free changes nothing. -/
theorem heapFree_none {pointer : Nat} (hinv : HeapInv arena h us fs ss h.blockOf)
    (hnone : h.freedNode pointer = none) : heapFree a h pointer = .ok (h, false) := by
  by_cases hpointer : pointer = 0
  · simp [heapFree, hpointer]
  by_cases haligned : ptrIsAligned pointer h.align = false
  · simp [heapFree, hpointer, hinv.raw, haligned]
  rw [Heap.freedNode, if_neg (by simp [hpointer, haligned]), hinv.lists.used.listNodes_eq] at hnone
  have hmatch := hinv.lists.own.matches (fun q (hq : q ∈ us) => by simp [hq]) pointer
  have hremove := listRemoveMatch_none hinv.lists.used hmatch (by
    intro q hq
    simpa using List.find?_eq_none.mp hnone q hq)
  simp [heapFree, hpointer, hinv.raw, haligned, hremove]

/-- The node that is freed, taken from the used list and put on the free list. -/
theorem moveToFree {pointer : Nat} (hinv : HeapInv arena h us fs ss h.blockOf)
    (hfreed : h.freedNode pointer = some p) :
    ∃ us₁ us₂ xs ys m₁ m₂ l₁ l₂ i, h.freePlace p = (xs, ys) ∧
      us = us₁ ++ p :: us₂ ∧ fs = xs ++ ys ∧
      listRemoveMatch h.nodes h.used pointer (blockMatchPtr h.blocks) = .ok (m₁, l₁, some p) ∧
      m₁.data p = some (some i) ∧ readBlock h.blocks (some i) = .ok (h.blockOf p) ∧
      listInsert m₁ h.free p (blockComparePtr h.blocks) true = .ok (m₂, l₂, some p) ∧
      m₂.data p = some (some i) ∧
      HeapInv arena
        { h with
          nodes := m₂
          used := l₁
          free := l₂
          bytesUsed := a.sub h.bytesUsed (h.blockOf p).size
          bytesFree := a.add h.bytesFree (h.blockOf p).size }
        (us₁ ++ us₂) (xs ++ p :: ys) ss h.blockOf := by
  have hfind : us.find? (fun q => decide ((h.blockOf q).data = pointer)) = some p := by
    rw [Heap.freedNode, hinv.lists.used.listNodes_eq] at hfreed
    split_ifs at hfreed
    exact hfreed
  obtain ⟨hp, zs, ws, rfl, hzs⟩ := List.find?_eq_some_iff_append.mp hfind
  obtain ⟨m₁, l₁, hremove, hl₁, -⟩ := hinv.lists.removeUsed (of_decide_eq_true hp)
    (fun q hq => by simpa using hzs q hq)
  obtain ⟨i, hi, -⟩ := hl₁.own.block p (by simp)
  have hblock := hl₁.own.readBlock_eq (by simp) hi
  obtain ⟨m₂, l₂, xs, ys, hinsert, ⟨rfl, hplace⟩, hl₂, hsorted, hkeep⟩ :=
    hl₁.insertFree hinv.freeSorted
  have hpxs : p ∉ xs := by
    intro hmem
    have hcount := hl₂.count_le p
    have hpos := List.count_pos_iff.mpr hmem
    simp only [List.count_append, List.count_cons_self] at hcount
    omega
  have hused : Sorted h.blockOf (zs ++ ws) :=
    hinv.usedSorted.sublist (List.Sublist.append_left (List.sublist_cons_self p ws) zs)
  -- the blocks are the same, in another order
  have hperm : ((zs ++ p :: ws) ++ (xs ++ ys)).Perm ((zs ++ ws) ++ (xs ++ p :: ys)) := by
    refine List.perm_iff_count.mpr fun q => ?_
    simp only [List.count_append, List.count_cons]
    omega
  have htotal := hinv.bytes_add
  have hlt := arena.total_lt
  have hbytesUsed := hinv.bytesUsed
  have hbytesFree := hinv.bytesFree
  simp only [bytesOf_append, bytesOf_cons] at hbytesUsed hbytesFree
  refine ⟨zs, ws, xs, ys, m₁, m₂, l₁, l₂, i, ?_, rfl, rfl, hremove, hi, hblock, hinsert,
    (hkeep p).trans hi, ⟨⟨hl₂.used, hl₂.free, hl₂.spare, hl₂.own⟩, hused, hsorted,
      hinv.region.perm (hperm.map _), ?_, ?_, hinv.raw, hinv.align, hinv.coalescePolicy⟩⟩
  · rw [Heap.freePlace, hinv.lists.free.listNodes_eq, hplace, List.around_middle hpxs]
  · dsimp only
    rw [Arch.sub_of_le (by omega) (by omega), hbytesUsed]
    simp only [bytesOf_append]
    omega
  · dsimp only
    rw [Arch.add_of_lt (by omega), hbytesFree]
    simp only [bytesOf_append, bytesOf_cons]
    omega

/-- A call that finds a block moves its node to the free list and coalesces. -/
theorem heapFree_some {pointer : Nat} (hinv : HeapInv arena h us fs ss h.blockOf)
    (hfreed : h.freedNode pointer = some p) :
    ∃ us₁ us₂ xs ys i h₂, h.freePlace p = (xs, ys) ∧ us = us₁ ++ p :: us₂ ∧ fs = xs ++ ys ∧
      h₂.nodes.data p = some (some i) ∧
      HeapInv arena h₂ (us₁ ++ us₂) (xs ++ p :: ys) ss h.blockOf ∧
      heapFree a h pointer = (do
        let h ← heapCoalesce a h₂ p i
        return (h, true)) := by
  obtain ⟨us₁, us₂, xs, ys, m₁, m₂, l₁, l₂, i, hplace, hus, hfs, hremove, hi₁, hblock, hinsert, hi₂,
    hinv₂⟩ := moveToFree hinv hfreed
  have hpointer : pointer ≠ 0 ∧ ptrIsAligned pointer h.align = true ∧
      (h.blockOf p).data = pointer := by
    rw [Heap.freedNode] at hfreed
    split_ifs at hfreed with hcond
    simp only [not_or, Bool.not_eq_false] at hcond
    exact ⟨hcond.1, hcond.2, by simpa using List.find?_some hfreed⟩
  obtain ⟨n, hn, hni⟩ := Option.map_eq_some_iff.mp hi₁
  have hread : m₁.read (some p) = .ok n := by rw [NodeMem.read, hn]
  exact ⟨us₁, us₂, xs, ys, i, _, hplace, hus, hfs, hi₂, hinv₂,
    heapFree_eq hpointer.1 hinv.raw hpointer.2.1 hinv.coalescePolicy hremove hread hni hblock
      hpointer.2.2 hinsert⟩

/-- What a call answers and does to the used and the free nodes, and to their blocks. -/
inductive FreeStep (a : Arch) (h : Heap) (pointer : Nat) (us fs : List Ptr) :
    Bool → List Ptr → List Ptr → (Ptr → Block) → Prop
  | none (hfreed : h.freedNode pointer = none) : FreeStep a h pointer us fs false us fs h.blockOf
  | some (p : Ptr) (us₁ us₂ xs ys fs' : List Ptr) (blk' : Ptr → Block)
      (hfreed : h.freedNode pointer = some p) (hplace : h.freePlace p = (xs, ys))
      (hus : us = us₁ ++ p :: us₂) (hfs : fs = xs ++ ys) (hsorted : Sorted h.blockOf (xs ++ p :: ys))
      (hcoalesce : CoalesceStep a h.blockOf p xs ys fs' blk') :
      FreeStep a h pointer us fs true (us₁ ++ us₂) fs' blk'

/-- A call keeps the invariant, but for the tail of the free list when it merges the last node away:
that is then a node that is on no list. -/
theorem heapFree_spec (hinv : HeapInv arena h us fs ss blk) (pointer : Nat) :
    ∃ h' r us' fs' blk', heapFree a h pointer = .ok (h', r) ∧
      HeapInv arena (h'.retail fs') us' fs' ss blk' ∧ FreeStep a h pointer us fs r us' fs' blk' ∧
      ((h.losesLast a pointer = false ∧ h'.free.tail = fs'.getLast?) ∨
        h.losesLast a pointer = true ∧ ∃ t, h'.free.tail = some t ∧ t ∉ us' ++ (fs' ++ ss)) := by
  replace hinv := hinv.toBlockOf
  cases hfreed : h.freedNode pointer with
  | none =>
    refine ⟨h, false, us, fs, _, heapFree_none hinv hfreed, ?_, .none hfreed, .inl ⟨?_, ?_⟩⟩
    · rwa [Heap.retail_eq hinv.lists.free.tail]
    · rw [Heap.losesLast, hfreed, Option.any_none]
    · exact hinv.lists.free.tail
  | some p =>
    obtain ⟨us₁, us₂, xs, ys, i, h₂, hplace, hus, hfs, hi, hinv₂, hfree⟩ := heapFree_some hinv hfreed
    obtain ⟨h', fs', blk', hcoalesce, hkeep, hinv', hstep⟩ := heapCoalesce_spec hinv₂ hi
    have hloses : h.losesLast a pointer = mergesLast a h.blockOf p (xs, ys) := by
      rw [Heap.losesLast, hfreed, Option.any_some, hplace]
      rfl
    have hnodup := hinv₂.lists.own.nodup
    rw [List.append_nil] at hnodup
    refine ⟨h', true, us₁ ++ us₂, fs', blk', by rw [hfree, hcoalesce, ok_bind, pure_eq_ok], hinv',
      .some p us₁ us₂ xs ys fs' blk' hfreed hplace hus hfs hinv₂.freeSorted hstep, ?_⟩
    rw [hloses, hkeep, hinv₂.lists.free.tail]
    rcases hstep.getLast? hinv₂.lists.free.nodup with hlast | ⟨hlast, t, ht, htail, hgone⟩
    · exact .inl hlast
    · refine .inr ⟨hlast, t, htail, fun hmem => ?_⟩
      -- the last node was on the free list, and so on no other
      have hcount := List.nodup_iff_count_le_one.mp hnodup t
      have hpos := List.count_pos_iff.mpr ht
      have hzero := List.count_eq_zero.mpr hgone
      have hpos' := List.count_pos_iff.mpr hmem
      simp only [List.count_append] at hcount hpos hpos'
      omega

/-- A call that does not coalesce loses no node. -/
theorem FreeStep.length_eq {pointer : Nat} {r : Bool} {us' fs' : List Ptr}
    {blk' : Ptr → Block} (hstep : FreeStep a h pointer us fs r us' fs' blk')
    (hnot : h.coalesces a pointer = false) : us'.length + fs'.length = us.length + fs.length := by
  cases hstep with
  | none => rfl
  | some p us₁ us₂ xs ys _ _ hfreed hplace hus hfs hsorted hcoalesce =>
    rw [Heap.coalesces, hfreed, Option.any_some, hplace, Bool.or_eq_false_iff] at hnot
    cases hcoalesce with
    | none =>
      subst hus hfs
      simp only [List.length_append, List.length_cons]
      omega
    | prev zs q hxs hprev =>
      rw [hnot.1] at hprev
      cases hprev
    | next q zs hys hnext =>
      rw [hnot.2] at hnext
      cases hnext

/-- A call that merges the last free node away leaves the tail of the free list at that node. -/
theorem heapFree_breaks {pointer : Nat} (hinv : HeapInv arena h us fs ss blk)
    (hlast : h.losesLast a pointer = true) :
    ∃ h' r, heapFree a h pointer = .ok (h', r) ∧ ∀ ps, ¬Linked h'.nodes h'.free ps := by
  replace hinv := hinv.toBlockOf
  obtain ⟨p, hfreed, hlast⟩ := (Option.any_eq_true _ _).mp hlast
  obtain ⟨us₁, us₂, xs, ys, i, h₂, hplace, -, -, hi, hinv₂, hfree⟩ := heapFree_some hinv hfreed
  rw [hplace] at hlast
  obtain ⟨h', hcoalesce, hbroken⟩ := heapCoalesce_breaks (a := a) hinv₂ hi (by
    simpa only [Bool.or_eq_true, Bool.and_eq_true, List.isEmpty_iff] using hlast)
  exact ⟨h', true, by rw [hfree, hcoalesce, ok_bind, pure_eq_ok], hbroken⟩

end DVP.Sosal
