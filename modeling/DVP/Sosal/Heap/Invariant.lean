import DVP.Sosal.Heap.Layout
import DVP.Sosal.Heap.Region

/-!
# The invariant of a heap

`HeapInv arena h us fs ss blk` says that the lists of the heap `h` hold the nodes `us`, `fs` and
`ss`, the first two in the order of their addresses, and that the blocks of these share out the
data region. `HeapSound` is what of it can be told from the links and the counters
(`HeapInv.sound`).
-/

namespace DVP.Sosal

variable {a : Arch} {arena : Arena a} {h : Heap} {blk blk' : Ptr → Block} {p : Ptr} {b : Block}
  {us fs ss loose ps : List Ptr}

/-- The block of a node. -/
def Heap.blockOf (h : Heap) (p : Ptr) : Block :=
  match nodeBlock h.blocks h.nodes p with
  | .ok b => b
  | .error _ => ⟨0, 0⟩

/-- The bytes of the blocks of nodes. -/
def bytesOf (blk : Ptr → Block) (ps : List Ptr) : Nat := ((ps.map blk).map Block.size).sum

@[simp]
theorem bytesOf_cons : bytesOf blk (p :: ps) = (blk p).size + bytesOf blk ps := by
  simp [bytesOf]

@[simp]
theorem bytesOf_append {qs : List Ptr} :
    bytesOf blk (ps ++ qs) = bytesOf blk ps + bytesOf blk qs := by
  simp [bytesOf]

theorem bytesOf_update (hp : p ∉ ps) : bytesOf (Function.update blk p b) ps = bytesOf blk ps := by
  rw [bytesOf, map_update hp, bytesOf]

/-- The blocks of the loose nodes and of the nodes of the lists can be read. -/
theorem HeapLists.blockOf_eq (hl : HeapLists h us fs ss loose blk)
    (hp : p ∈ us ++ (fs ++ (ss ++ loose))) : h.blockOf p = blk p := by
  rw [Heap.blockOf, hl.own.nodeBlock_eq hp]

/-- The invariant of a heap. -/
structure HeapInv (arena : Arena a) (h : Heap) (us fs ss : List Ptr) (blk : Ptr → Block) :
    Prop where
  lists : HeapLists h us fs ss [] blk
  usedSorted : Sorted blk us
  freeSorted : Sorted blk fs
  region : Region arena ((us ++ fs).map blk)
  bytesUsed : h.bytesUsed = bytesOf blk us
  bytesFree : h.bytesFree = bytesOf blk fs
  raw : h.raw ≠ 0
  align : h.align = arena.align
  coalescePolicy : h.coalescePolicy = true

namespace HeapInv

/-- The contents of the blocks are those the heap has. -/
theorem toBlockOf (hinv : HeapInv arena h us fs ss blk) :
    HeapInv arena h us fs ss h.blockOf := by
  have hall : ∀ p ∈ us ++ (fs ++ (ss ++ [])), h.blockOf p = blk p :=
    fun p hp => hinv.lists.blockOf_eq hp
  have hused : ∀ p ∈ us, h.blockOf p = blk p := fun p hp => hall p (by simp [hp])
  have hfree : ∀ p ∈ fs, h.blockOf p = blk p := fun p hp => hall p (by simp [hp])
  have hmapUsed : us.map h.blockOf = us.map blk := List.map_congr_left hused
  have hmapFree : fs.map h.blockOf = fs.map blk := List.map_congr_left hfree
  refine ⟨⟨hinv.lists.used, hinv.lists.free, hinv.lists.spare, hinv.lists.own.nodup, ?_,
    hinv.lists.own.distinct⟩, hinv.usedSorted.congr hused, hinv.freeSorted.congr hfree, ?_, ?_, ?_,
    hinv.raw, hinv.align, hinv.coalescePolicy⟩
  · intro p hp
    rw [hall p hp]
    exact hinv.lists.own.block p hp
  · rw [List.map_append, hmapUsed, hmapFree, ← List.map_append]
    exact hinv.region
  · rw [bytesOf, hmapUsed]
    exact hinv.bytesUsed
  · rw [bytesOf, hmapFree]
    exact hinv.bytesFree

theorem bytes_add (hinv : HeapInv arena h us fs ss blk) :
    h.bytesUsed + h.bytesFree = arena.total := by
  rw [hinv.bytesUsed, hinv.bytesFree, ← bytesOf_append]
  exact hinv.region.bytes

end HeapInv

/-! ## What the links and the counters tell -/

/-- Following the next links from the head and the previous links from the tail visits the same
nodes in opposite orders, and ends. -/
def Linked (m : HeapNodes) (l : LinkedList) (ps : List Ptr) : Prop :=
  Follows (fun p => (m.node p).bind Node.next) l.head ps ∧
    Follows (fun p => (m.node p).bind Node.prev) l.tail ps.reverse

/-- The used list and the free list of a heap are well formed, with the nodes `us` and `fs`, and
their blocks tile the `total` bytes at `base`. -/
structure HeapSound (align base total : Nat) (h : Heap) (us fs : List Ptr) : Prop where
  used : Linked h.nodes h.used us
  free : Linked h.nodes h.free fs
  nodup : (us ++ fs).Nodup
  blocks : ∀ p ∈ us ++ fs, nodeBlock h.blocks h.nodes p = .ok (h.blockOf p)
  usedSorted : us.Pairwise fun p q => (h.blockOf p).data ≤ (h.blockOf q).data
  freeSorted : fs.Pairwise fun p q => (h.blockOf p).data ≤ (h.blockOf q).data
  apart : (us ++ fs).Pairwise fun p q => (h.blockOf p).span.Apart (h.blockOf q).span
  within : ∀ p ∈ us ++ fs, base ≤ (h.blockOf p).data ∧
    (h.blockOf p).data + (h.blockOf p).size ≤ base + total
  aligned : ∀ p ∈ us ++ fs, align ∣ (h.blockOf p).data - base ∧ align ∣ (h.blockOf p).size
  tiles : ∀ x, (∃ p ∈ us ++ fs, (h.blockOf p).span.Has x) ↔ base ≤ x ∧ x < base + total
  bytesUsed : (us.map fun p => (h.blockOf p).size).sum = h.bytesUsed
  bytesFree : (fs.map fun p => (h.blockOf p).size).sum = h.bytesFree
  bytes : h.bytesUsed + h.bytesFree = total

/-- The invariant implies that the heap is sound. -/
theorem HeapInv.sound (hinv : HeapInv arena h us fs ss blk) :
    HeapSound arena.align arena.base arena.total h us fs := by
  replace hinv := hinv.toBlockOf
  have hregion := hinv.region
  have hmem : ∀ p ∈ us ++ fs, p ∈ us ++ (fs ++ (ss ++ [])) := by
    intro p hp
    rw [← List.append_assoc]
    exact List.mem_append_left _ hp
  have hsorted : ∀ {ps}, Sorted h.blockOf ps →
      ps.Pairwise fun p q => (h.blockOf p).data ≤ (h.blockOf q).data := by
    intro ps hps
    exact hps.imp fun hle => of_decide_eq_true hle
  refine ⟨hinv.lists.used.follows, hinv.lists.free.follows, ?_, ?_, hsorted hinv.usedSorted,
    hsorted hinv.freeSorted, ?_, ?_, ?_, ?_, ?_, ?_, hinv.bytes_add⟩
  · have hnodup := hinv.lists.own.nodup
    rw [← List.append_assoc] at hnodup
    exact (List.nodup_append.mp hnodup).1
  · exact fun p hp => hinv.lists.own.nodeBlock_eq (hmem p hp)
  · have hapart := hregion.tiles.pairwise_apart
    rw [List.pairwise_map, List.pairwise_map] at hapart
    exact hapart
  · exact fun p hp => hregion.within _ (List.mem_map_of_mem hp)
  · exact fun p hp => hregion.aligned _ (List.mem_map_of_mem hp)
  · intro x
    rw [← hregion.tiles.mem_iff x]
    simp only [List.mem_map, exists_exists_and_eq_and]
  · rw [hinv.bytesUsed, bytesOf, List.map_map]
    rfl
  · rw [hinv.bytesFree, bytesOf, List.map_map]
    rfl

end DVP.Sosal
