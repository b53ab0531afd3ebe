import DVP.Sosal.Heap.Invariant

/-!
# Merging free blocks

The two merges of `heap_free` take a node out of the free list by its links alone, clear it, and
leave the bytes of both blocks to the other node (`heapCoalescePrev_eq`, `heapCoalesceNext_eq`).
They do not touch the head and the tail of the list, so the list stays well formed only if a node
follows the one that was taken out. What is left is well formed once the tail is the last node that
is left (`Heap.retail`).
-/

namespace DVP.Sosal

variable {a : Arch} {h : Heap} {m m' : HeapNodes} {blocks : BlockMem} {blk : Ptr → Block} {b : Block}
  {p q : Ptr} {i j : Nat} {ps us fs ss xs ys : List Ptr}

/-- `node_clear` of a node. -/
theorem nodeClear_of_alive (hp : m.Alive p) :
    nodeClear m p = .ok (((m.withPrev p none).withNext p none).withData p none) := by
  simp [nodeClear, NodeMem.setPrev_of_alive, NodeMem.setNext_of_alive, NodeMem.setData_of_alive, hp]

/-- The memory after the node `gone` was taken out between `xs` and `ys` and cleared, and the node
`kept` was given the block `i`. -/
structure Merged (m m' : HeapNodes) (xs ys : List Ptr) (kept gone : Ptr) (i : Nat) : Prop where
  bounded : m'.Bounded
  link : ∀ z, m'.link z = linkAfterRemove m xs ys gone z
  data_kept : m'.data kept = some (some i)
  data : ∀ z, z ≠ kept → z ≠ gone → m'.data z = m.data z

/-- The merge into the node before writes the links and the data of a removal. -/
theorem heapCoalescePrev_eq (hl : HeapLists h us (xs ++ q :: p :: ys) ss [] blk)
    (hi : h.nodes.data p = some (some i)) (hj : h.nodes.data q = some (some j)) :
    ∃ m', heapCoalescePrev a h p q i j =
        .ok { h with
              nodes := m'
              blocks := Function.update (Function.update h.blocks i
                (some ⟨a.add (blk p).size (blk q).size, (blk q).data⟩)) j (some ⟨0, 0⟩) } ∧
      Merged h.nodes m' (xs ++ [q]) ys q p i := by
  have hfree : ListHolds h.nodes h.free ((xs ++ [q]) ++ p :: ys) := by simpa using hl.free
  have hp : h.nodes.Alive p := hfree.alive (by simp)
  have hq : h.nodes.Alive q := hfree.alive (by simp)
  have hqp : q ≠ p := hfree.ne (by simp)
  have hlink := hfree.link_eq
  have hlink_q : h.nodes.link q = some ⟨xs.getLast?, some p⟩ := by simpa using hl.free.link_eq
  have hread_i := hl.own.readBlock_eq (p := p) (by simp) hi
  have hread_j := hl.own.readBlock_eq (p := q) (by simp) hj
  have hbounded := hfree.bounded
  have hread := NodeMem.read_of_link (m := h.nodes.withData q (some i)) (p := p)
    (by rw [NodeMem.link_withData]; exact hlink)
  obtain ⟨d, hread⟩ := hread
  -- a node behind the one that goes away is linked to the one that stays
  cases ys with
  | nil =>
    refine ⟨((((h.nodes.withData q (some i)).withNext q none).withPrev p none).withNext p
      none).withData p none, ?_, ?_, ?_, ?_, ?_⟩
    · simp only [List.head?_nil] at hread
      simp [heapCoalescePrev, hread_i, hread_j, NodeMem.setData_of_alive, hq, hread,
        NodeMem.setNext_of_alive, nodeClear_of_alive, hp, Heap.setBlock]
    · intro z hz
      exact hbounded z (by simpa using hz)
    · intro z
      simp only [NodeMem.link_withNext, NodeMem.link_withPrev, NodeMem.link_withData,
        linkAfterRemove, hlink]
      split_ifs <;> simp_all
    · simp [NodeMem.data_withData, hqp, hj]
    · intro z hzq hzp
      simp [NodeMem.data_withData, hzq, hzp]
  | cons y ys =>
    have hy : h.nodes.Alive y := hfree.alive (by simp)
    have hnodup := hfree.nodup
    have hyp : y ≠ p ∧ y ≠ q := by
      simp only [List.nodup_append, List.nodup_cons, List.mem_append, List.mem_cons] at hnodup
      grind
    refine ⟨(((((h.nodes.withData q (some i)).withNext q (some y)).withPrev y (some q)).withPrev p
      none).withNext p none).withData p none, ?_, ?_, ?_, ?_, ?_⟩
    · simp only [List.head?_cons] at hread
      simp [heapCoalescePrev, hread_i, hread_j, NodeMem.setData_of_alive, hq, hread,
        NodeMem.setNext_of_alive, NodeMem.setPrev_of_alive, hy, nodeClear_of_alive, hp,
        Heap.setBlock]
    · intro z hz
      exact hbounded z (by simpa using hz)
    · intro z
      simp only [NodeMem.link_withNext, NodeMem.link_withPrev, NodeMem.link_withData,
        linkAfterRemove, hlink]
      split_ifs <;> simp_all
    · simp [NodeMem.data_withData, hqp, hj]
    · intro z hzq hzp
      simp [NodeMem.data_withData, hzq, hzp]

/-- The merge of the node after it writes the links and the data of a removal. -/
theorem heapCoalesceNext_eq (hl : HeapLists h us (xs ++ p :: q :: ys) ss [] blk)
    (hi : h.nodes.data p = some (some i)) (hj : h.nodes.data q = some (some j)) :
    ∃ m', heapCoalesceNext a h p q i j =
        .ok { h with
              nodes := m'
              blocks := Function.update (Function.update h.blocks i
                (some ⟨a.add (blk p).size (blk q).size, (blk p).data⟩)) j (some ⟨0, 0⟩) } ∧
      Merged h.nodes m' (xs ++ [p]) ys p q i := by
  have hfree : ListHolds h.nodes h.free ((xs ++ [p]) ++ q :: ys) := by simpa using hl.free
  have hp : h.nodes.Alive p := hfree.alive (by simp)
  have hq : h.nodes.Alive q := hfree.alive (by simp)
  have hpq : p ≠ q := hfree.ne (by simp)
  have hlink := hfree.link_eq
  have hread_i := hl.own.readBlock_eq (p := p) (by simp) hi
  have hread_j := hl.own.readBlock_eq (p := q) (by simp) hj
  have hbounded := hfree.bounded
  obtain ⟨d, hread⟩ := NodeMem.read_of_link hlink
  -- a node behind the one that goes away is linked to the one that stays
  cases ys with
  | nil =>
    refine ⟨(((h.nodes.withNext p none).withPrev q none).withNext q none).withData q none,
      ?_, ?_, ?_, ?_, ?_⟩
    · simp only [List.head?_nil] at hread
      simp [heapCoalesceNext, hread_i, hread_j, hq, hread, NodeMem.setNext_of_alive,
        nodeClear_of_alive, hp, Heap.setBlock]
    · intro z hz
      exact hbounded z (by simpa using hz)
    · intro z
      simp only [NodeMem.link_withNext, NodeMem.link_withPrev, NodeMem.link_withData,
        linkAfterRemove, hlink]
      split_ifs <;> simp_all
    · simp [NodeMem.data_withData, hpq, hi]
    · intro z hzq hzp
      simp [NodeMem.data_withData, hzp]
  | cons y ys =>
    have hy : h.nodes.Alive y := hfree.alive (by simp)
    have hnodup := hfree.nodup
    have hyp : y ≠ p ∧ y ≠ q := by
      simp only [List.nodup_append, List.nodup_cons, List.mem_append, List.mem_cons] at hnodup
      grind
    refine ⟨((((h.nodes.withNext p (some y)).withPrev y (some p)).withPrev q none).withNext q
      none).withData q none, ?_, ?_, ?_, ?_, ?_⟩
    · simp only [List.head?_cons] at hread
      simp [heapCoalesceNext, hread_i, hread_j, hq, hread, NodeMem.setNext_of_alive,
        NodeMem.setPrev_of_alive, hy, nodeClear_of_alive, hp, Heap.setBlock]
    · intro z hz
      exact hbounded z (by simpa using hz)
    · intro z
      simp only [NodeMem.link_withNext, NodeMem.link_withPrev, NodeMem.link_withData,
        linkAfterRemove, hlink]
      split_ifs <;> simp_all
    · simp [NodeMem.data_withData, hpq, hi]
    · intro z hzq hzp
      simp [NodeMem.data_withData, hzp]

/-! ## The lists after a merge -/

variable {kept gone : Ptr} {bs : BlockMem} {qs : List Ptr}

/-- The blocks of the two nodes are `i` and `j`, in one order or the other. -/
def HoldBlocks (m : HeapNodes) (kept gone : Ptr) (i j : Nat) : Prop :=
  (m.data kept = some (some i) ∧ m.data gone = some (some j)) ∨
    (m.data kept = some (some j) ∧ m.data gone = some (some i))

/-- The nodes that are left keep their blocks, and `kept` has the block `i`. -/
theorem OwnBlocks.merge (h : OwnBlocks m blocks blk ps) (hperm : ps.Perm (gone :: qs))
    (hkept : kept ∈ qs) (hhold : HoldBlocks m kept gone i j)
    (hmerged : Merged m m' xs ys kept gone i) :
    OwnBlocks m' (Function.update (Function.update blocks i (some b)) j (some ⟨0, 0⟩))
      (Function.update blk kept b) qs := by
  obtain ⟨hgone, hnodup⟩ := List.nodup_cons.mp (hperm.nodup_iff.mp h.nodup)
  have hmem : ∀ z ∈ qs, z ∈ ps := fun z hz => hperm.mem_iff.mpr (List.mem_cons_of_mem _ hz)
  have hgone_mem : gone ∈ ps := hperm.mem_iff.mpr List.mem_cons_self
  have hne : ∀ z ∈ qs, z ≠ gone := by
    rintro z hz rfl
    exact hgone hz
  have hij : i ≠ j := by
    rintro rfl
    refine hne kept hkept (h.distinct kept (hmem kept hkept) gone hgone_mem ?_)
    rcases hhold with ⟨hk, hg⟩ | ⟨hk, hg⟩ <;> rw [hk, hg]
  -- a node that is left, other than `kept`, has the data it had, and not that of the two
  have hother : ∀ z ∈ qs, z ≠ kept →
      m'.data z = m.data z ∧ m.data z ≠ some (some i) ∧ m.data z ≠ some (some j) := by
    intro z hz hzk
    have hnot : ∀ c, m.data kept = some (some c) ∨ m.data gone = some (some c) →
        m.data z ≠ some (some c) := by
      rintro c (hc | hc) hzc
      · exact hzk (h.distinct z (hmem z hz) kept (hmem kept hkept) (hzc.trans hc.symm))
      · exact hne z hz (h.distinct z (hmem z hz) gone hgone_mem (hzc.trans hc.symm))
    refine ⟨hmerged.data z hzk (hne z hz), hnot i ?_, hnot j ?_⟩
    · rcases hhold with ⟨hk, -⟩ | ⟨-, hg⟩
      · exact .inl hk
      · exact .inr hg
    · rcases hhold with ⟨-, hg⟩ | ⟨hk, -⟩
      · exact .inr hg
      · exact .inl hk
  refine ⟨hnodup, fun z hz => ?_, fun z hz w hw hzw => ?_⟩
  · by_cases hzk : z = kept
    · rw [hzk]
      refine ⟨i, hmerged.data_kept, ?_⟩
      rw [Function.update_of_ne hij, Function.update_self, Function.update_self]
    · obtain ⟨hz', hzi, hzj⟩ := hother z hz hzk
      obtain ⟨c, hc, hblock⟩ := h.block z (hmem z hz)
      have hci : c ≠ i := by
        rintro rfl
        exact hzi hc
      have hcj : c ≠ j := by
        rintro rfl
        exact hzj hc
      refine ⟨c, hz'.trans hc, ?_⟩
      rw [Function.update_of_ne hcj, Function.update_of_ne hci, Function.update_of_ne hzk, hblock]
  · by_cases hzk : z = kept <;> by_cases hwk : w = kept
    · rw [hzk, hwk]
    · obtain ⟨hw', hwi, -⟩ := hother w hw hwk
      rw [hzk, hmerged.data_kept, hw'] at hzw
      exact absurd hzw.symm hwi
    · obtain ⟨hz', hzi, -⟩ := hother z hz hzk
      rw [hwk, hmerged.data_kept, hz'] at hzw
      exact absurd hzw hzi
    · rw [(hother z hz hzk).1, (hother w hw hwk).1] at hzw
      exact h.distinct z (hmem z hz) w (hmem w hw) hzw

/-- The heap with the last of some nodes as the tail of its free list. -/
def Heap.retail (h : Heap) (fs : List Ptr) : Heap :=
  { h with free := { h.free with tail := fs.getLast? } }

/-- A tail that is the last node is not moved. -/
theorem Heap.retail_eq (htail : h.free.tail = fs.getLast?) : h.retail fs = h := by
  rw [retail, ← htail]

/-- The lists after a merge, with the last node that is left as the tail of the free list. -/
theorem HeapLists.merge (hl : HeapLists h us (xs ++ kept :: gone :: ys) ss [] blk)
    (hhold : HoldBlocks h.nodes kept gone i j)
    (hmerged : Merged h.nodes m' (xs ++ [kept]) ys kept gone i) :
    HeapLists
      (Heap.retail
        { h with
          nodes := m'
          blocks := Function.update (Function.update h.blocks i (some b)) j (some ⟨0, 0⟩) }
        (xs ++ kept :: ys))
      us (xs ++ kept :: ys) ss [] (Function.update blk kept b) := by
  have hfree : ListHolds h.nodes h.free ((xs ++ [kept]) ++ gone :: ys) := by
    simpa using hl.free
  have hlink : ∀ z, z ∉ xs ++ kept :: gone :: ys → m'.link z = h.nodes.link z := by
    intro z hz
    rw [hmerged.link, linkAfterRemove_of_not_mem]
    simpa using hz
  have hapart : ∀ z, z ∈ us ∨ z ∈ ss → z ∉ xs ++ kept :: gone :: ys := by
    intro z hz hzfree
    have hcount := hl.count_le z
    have hpos := List.count_pos_iff.mpr hzfree
    rcases hz with hz | hz <;> have hpos' := List.count_pos_iff.mpr hz <;> omega
  refine ⟨?_, ?_, ?_, ?_⟩
  · exact hl.used.congr_link hmerged.bounded fun z hz => hlink z (hapart z (.inl hz))
  · have hholds : ListHolds m' { h.free with tail := (xs ++ kept :: ys).getLast? }
        ((xs ++ [kept]) ++ ys) := by
      apply hfree.removeLinks hmerged.bounded hmerged.link
      · show h.free.head = _
        rw [hfree.head]
        cases xs <;> rfl
      · simp
    rwa [List.append_assoc] at hholds
  · exact hl.spare.congr_link hmerged.bounded fun z hz => hlink z (hapart z (.inr hz))
  · refine hl.own.merge (List.perm_iff_count.mpr fun z => ?_) (by simp) hhold hmerged
    simp only [List.count_append, List.count_cons]
    omega

/-- The invariant after a merge of two blocks that touch. -/
theorem HeapInv.merge {arena : Arena a}
    (hinv : HeapInv arena h us (xs ++ kept :: gone :: ys) ss blk)
    (htouch : (blk kept).data + (blk kept).size = (blk gone).data)
    (hhold : HoldBlocks h.nodes kept gone i j)
    (hmerged : Merged h.nodes m' (xs ++ [kept]) ys kept gone i) :
    HeapInv arena
      (Heap.retail
        { h with
          nodes := m'
          blocks := Function.update (Function.update h.blocks i
            (some ⟨(blk kept).size + (blk gone).size, (blk kept).data⟩)) j (some ⟨0, 0⟩) }
        (xs ++ kept :: ys))
      us (xs ++ kept :: ys) ss
      (Function.update blk kept ⟨(blk kept).size + (blk gone).size, (blk kept).data⟩) := by
  have hnodup := hinv.lists.own.nodup
  simp only [List.nodup_append, List.nodup_cons, List.mem_append, List.mem_cons, List.mem_nil_iff,
    or_false] at hnodup
  have hus : kept ∉ us := by grind
  have hxs : kept ∉ xs := by grind
  have hys : kept ∉ ys := by grind
  have hrest : kept ∉ us ++ (xs ++ ys) := by
    simp [hus, hxs, hys]
  refine ⟨hinv.lists.merge hhold hmerged, hinv.usedSorted.update hus, ?_, ?_, ?_, ?_, hinv.raw,
    hinv.align, hinv.coalescePolicy⟩
  · have hsub : (xs ++ kept :: ys).Sublist (xs ++ kept :: gone :: ys) :=
      List.Sublist.append_left ((List.sublist_cons_self gone _).cons_cons kept) xs
    have hsorted : Sorted blk (xs ++ kept :: ys) := hinv.freeSorted.sublist hsub
    refine hsorted.congr_data fun z => ?_
    by_cases hz : z = kept
    · rw [hz, Function.update_self]
    · rw [Function.update_of_ne hz]
  -- the two blocks lie next to each other
  · have hregion : Region arena (⟨(blk kept).size, (blk kept).data⟩ ::
        ⟨(blk gone).size, (blk kept).data + (blk kept).size⟩ ::
          (us ++ (xs ++ ys)).map blk) := by
      rw [htouch]
      have hperm : (us ++ (xs ++ kept :: gone :: ys)).Perm
          (kept :: gone :: (us ++ (xs ++ ys))) := by
        refine List.perm_iff_count.mpr fun z => ?_
        simp only [List.count_append, List.count_cons]
        omega
      exact hinv.region.perm (hperm.map blk)
    have hperm : (kept :: (us ++ (xs ++ ys))).Perm (us ++ (xs ++ kept :: ys)) := by
      refine List.perm_iff_count.mpr fun z => ?_
      simp only [List.count_append, List.count_cons]
      omega
    refine Region.perm ?_ (hperm.map _)
    rw [List.map_cons, Function.update_self, map_update hrest]
    exact hregion.join
  · rw [bytesOf_update hus]
    exact hinv.bytesUsed
  · have hbytes := hinv.bytesFree
    simp only [bytesOf_append, bytesOf_cons] at hbytes ⊢
    rw [bytesOf_update hxs, bytesOf_update hys, Function.update_self]
    show h.bytesFree = bytesOf blk xs + ((blk kept).size + (blk gone).size + bytesOf blk ys)
    omega

end DVP.Sosal
