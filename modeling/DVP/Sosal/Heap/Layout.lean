import Mathlib.Data.List.Count
import DVP.Sosal.Heap.Basic
import DVP.Sosal.List.Spec

/-!
# The lists of a heap and their blocks

`HeapLists h us fs ss loose blk` says that the used, the free and the spare list of the heap `h`
hold the nodes `us`, `fs` and `ss`, and that each of these nodes, and of the nodes `loose` that
were taken out, has a block of its own, with the contents `blk`. Each list operation the heap
performs moves one node (`HeapLists.extractFree` and those that follow it).
-/

namespace DVP.Sosal

variable {a : Arch} {h : Heap} {m m' : HeapNodes} {blocks : BlockMem} {b : Block}
  {blk blk' : Ptr → Block} {p q : Ptr} {ps qs us fs ss loose xs ys : List Ptr}

/-! ## Nodes and their blocks -/

/-- Each of the nodes has a block of its own. -/
structure OwnBlocks (m : HeapNodes) (blocks : BlockMem) (blk : Ptr → Block) (ps : List Ptr) :
    Prop where
  nodup : ps.Nodup
  block : ∀ p ∈ ps, ∃ i, m.data p = some (some i) ∧ blocks i = some (blk p)
  distinct : ∀ p ∈ ps, ∀ q ∈ ps, m.data p = m.data q → p = q

namespace OwnBlocks

theorem perm (h : OwnBlocks m blocks blk ps) (hperm : ps.Perm qs) : OwnBlocks m blocks blk qs where
  nodup := hperm.nodup_iff.mp h.nodup
  block p hp := h.block p (hperm.mem_iff.mpr hp)
  distinct p hp q hq := h.distinct p (hperm.mem_iff.mpr hp) q (hperm.mem_iff.mpr hq)

/-- What happens to links does not matter. -/
theorem congr (h : OwnBlocks m blocks blk ps) (hdata : ∀ p, m'.data p = m.data p) :
    OwnBlocks m' blocks blk ps where
  nodup := h.nodup
  block p hp := by
    rw [hdata]
    exact h.block p hp
  distinct p hp q hq := by
    rw [hdata, hdata]
    exact h.distinct p hp q hq

theorem alive (h : OwnBlocks m blocks blk ps) (hp : p ∈ ps) : m.Alive p := by
  obtain ⟨i, hi, -⟩ := h.block p hp
  exact NodeMem.alive_iff_data.mpr ⟨_, hi⟩

theorem nodeBlock_eq (h : OwnBlocks m blocks blk ps) (hp : p ∈ ps) :
    nodeBlock blocks m p = .ok (blk p) := by
  obtain ⟨i, hdata, hblock⟩ := h.block p hp
  obtain ⟨n, hn, hni⟩ := Option.map_eq_some_iff.mp hdata
  simp [nodeBlock, NodeMem.read, hn, hni, readBlock, hblock]

/-- Writing to the block of a node changes its contents alone. -/
theorem setBlock (h : OwnBlocks m blocks blk ps) (hp : p ∈ ps) {i : Nat}
    (hi : m.data p = some (some i)) (b : Block) :
    OwnBlocks m (Function.update blocks i (some b)) (Function.update blk p b) ps where
  nodup := h.nodup
  block q hq := by
    by_cases hqp : q = p
    · rw [hqp]
      exact ⟨i, hi, by rw [Function.update_self, Function.update_self]⟩
    · obtain ⟨j, hj, hblock⟩ := h.block q hq
      have hji : j ≠ i := by
        rintro rfl
        exact hqp (h.distinct q hq p hp (hj.trans hi.symm))
      exact ⟨j, hj, by rw [Function.update_of_ne hji, Function.update_of_ne hqp, hblock]⟩
  distinct := h.distinct

theorem readBlock_eq (h : OwnBlocks m blocks blk ps) (hp : p ∈ ps) {i : Nat}
    (hi : m.data p = some (some i)) : readBlock blocks (some i) = .ok (blk p) := by
  obtain ⟨j, hdata, hblock⟩ := h.block p hp
  rw [hi] at hdata
  cases hdata
  rw [readBlock, hblock]

end OwnBlocks

/-- The order `list_insert` keeps. -/
def addrLe (blk : Ptr → Block) : Ptr → Ptr → Bool := rankLe fun p => (blk p).data

theorem compareAddr_orders (x y : Nat) : Orders x y (compareAddr x y) := by
  rcases Nat.lt_trichotomy x y with hlt | heq | hgt
  · exact ⟨by simp [compareAddr, hlt], by simp [compareAddr, hlt, Nat.ne_of_lt hlt]⟩
  · exact ⟨by simp [compareAddr, heq], by simp [compareAddr, heq]⟩
  · exact ⟨by simp [compareAddr, Nat.not_lt.mpr (Nat.le_of_lt hgt), Nat.ne_of_gt hgt],
      by simp [compareAddr, Nat.not_lt.mpr (Nat.le_of_lt hgt), Nat.ne_of_gt hgt]⟩

/-- `block_compare_ptr` compares addresses. -/
theorem OwnBlocks.compares (h : OwnBlocks m blocks blk ps) (hqs : ∀ q ∈ qs, q ∈ ps) :
    Compares m (blockComparePtr blocks) true (addrLe blk) qs := by
  refine Compares.of_orders (fun p hp q hq => ?_) fun _ _ => rfl
  refine ⟨compareAddr (blk p).data (blk q).data, ?_, compareAddr_orders _ _⟩
  simp [blockComparePtr, h.nodeBlock_eq (hqs p hp), h.nodeBlock_eq (hqs q hq)]

/-- `block_compare_ptr` finds the blocks at an address. -/
theorem OwnBlocks.matches (h : OwnBlocks m blocks blk ps) (hqs : ∀ q ∈ qs, q ∈ ps) (ptr : Nat) :
    Matches m ptr (blockMatchPtr blocks) (fun q => decide ((blk q).data = ptr)) qs := by
  intro p hp
  refine ⟨compareAddr (blk p).data ptr, ?_, ?_⟩
  · simp [blockMatchPtr, h.nodeBlock_eq (hqs p hp)]
  · rw [(compareAddr_orders _ _).eq, decide_eq_true_eq]

/-- The nodes are in the order of their addresses. -/
def Sorted (blk : Ptr → Block) (ps : List Ptr) : Prop :=
  ps.Pairwise fun p q => addrLe blk p q = true

theorem Sorted.congr (hsorted : Sorted blk ps) (hblk : ∀ p ∈ ps, blk' p = blk p) :
    Sorted blk' ps := by
  refine List.Pairwise.imp_of_mem ?_ hsorted
  intro p q hp hq hle
  rw [addrLe, rankLe, hblk p hp, hblk q hq]
  exact hle

/-- The blocks before and after one of the nodes. -/
theorem Sorted.around (hsorted : Sorted blk (ps ++ p :: qs)) :
    (∀ q ∈ ps, (blk q).data ≤ (blk p).data) ∧ ∀ q ∈ qs, (blk p).data ≤ (blk q).data := by
  obtain ⟨-, hcons, hacross⟩ := List.pairwise_append.mp hsorted
  constructor
  · intro q hq
    exact of_decide_eq_true (hacross q hq p List.mem_cons_self)
  · intro q hq
    exact of_decide_eq_true ((List.pairwise_cons.mp hcons).1 q hq)

/-- Only the addresses matter. -/
theorem Sorted.congr_data (hsorted : Sorted blk ps) (hdata : ∀ p, (blk' p).data = (blk p).data) :
    Sorted blk' ps := by
  refine List.Pairwise.imp ?_ hsorted
  intro p q hle
  rw [addrLe, rankLe, hdata p, hdata q]
  exact hle

/-- A node that is not among them can be given another block. -/
theorem Sorted.update (hsorted : Sorted blk ps) (hp : p ∉ ps) :
    Sorted (Function.update blk p b) ps := by
  apply hsorted.congr
  intro q hq
  rw [Function.update_of_ne]
  rintro rfl
  exact hp hq

theorem map_update (hp : p ∉ ps) : ps.map (Function.update blk p b) = ps.map blk := by
  apply List.map_congr_left
  intro q hq
  rw [Function.update_of_ne]
  rintro rfl
  exact hp hq

/-! ## The three lists -/

/-- The lists of the heap hold the nodes `us`, `fs` and `ss`; these and the loose nodes have
blocks. -/
structure HeapLists (h : Heap) (us fs ss loose : List Ptr) (blk : Ptr → Block) : Prop where
  used : ListHolds h.nodes h.used us
  free : ListHolds h.nodes h.free fs
  spare : ListHolds h.nodes h.spare ss
  own : OwnBlocks h.nodes h.blocks blk (us ++ (fs ++ (ss ++ loose)))

/-- A list is not affected by what happens to nodes that do not occur in it. -/
theorem ListHolds.congr_count {l : LinkedList} (h : ListHolds m l qs) (hframe : Frame m m' ps)
    (hcount : ∀ q ∈ ps, qs.count q = 0) : ListHolds m' l qs :=
  h.congr hframe fun q hq => List.count_eq_zero.mp (hcount q hq)

namespace HeapLists

/-- No node is twice in the lists. -/
theorem count_le (hl : HeapLists h us fs ss loose blk) (p : Ptr) :
    us.count p + (fs.count p + (ss.count p + loose.count p)) ≤ 1 := by
  have hcount := List.nodup_iff_count_le_one.mp hl.own.nodup p
  simpa only [List.count_append] using hcount

/-- A node of the free list is taken out. -/
theorem extractFree (hl : HeapLists h us (xs ++ p :: ys) ss loose blk) :
    ∃ m l, listExtract h.nodes h.free (some p) = .ok (m, l, some p) ∧
      HeapLists { h with nodes := m, free := l } us (xs ++ ys) ss (p :: loose) blk ∧
      ∀ q, m.data q = h.nodes.data q := by
  obtain ⟨m, l, hextract, hfree, hframe, -⟩ := listExtract_spec hl.free
  have htouched : ∀ q ∈ xs ++ p :: ys, us.count q = 0 ∧ ss.count q = 0 := by
    intro q hq
    have hcount := hl.count_le q
    have hpos := List.count_pos_iff.mpr hq
    omega
  refine ⟨m, l, hextract, ⟨hl.used.congr_count hframe fun q hq => (htouched q hq).1, hfree,
    hl.spare.congr_count hframe fun q hq => (htouched q hq).2,
    (hl.own.congr hframe.data).perm (List.perm_iff_count.mpr fun q => ?_)⟩, hframe.data⟩
  simp only [List.count_append, List.count_cons]
  omega

/-- The first spare node is taken out. -/
theorem popSpare (hl : HeapLists h us fs (p :: ss) loose blk) :
    ∃ m l, listPop h.nodes h.spare = .ok (m, l, some p) ∧
      HeapLists { h with nodes := m, spare := l } us fs ss (p :: loose) blk ∧
      ∀ q, m.data q = h.nodes.data q := by
  obtain ⟨m, l, hpop, hspare, hframe, -⟩ := listPop_spec hl.spare
  have htouched : ∀ q ∈ p :: ss, us.count q = 0 ∧ fs.count q = 0 := by
    intro q hq
    have hcount := hl.count_le q
    have hpos := List.count_pos_iff.mpr hq
    omega
  refine ⟨m, l, hpop, ⟨hl.used.congr_count hframe fun q hq => (htouched q hq).1,
    hl.free.congr_count hframe fun q hq => (htouched q hq).2, hspare,
    (hl.own.congr hframe.data).perm (List.perm_iff_count.mpr fun q => ?_)⟩, hframe.data⟩
  simp only [List.count_append, List.count_cons]
  omega

/-- A loose node is put on the free list, at the front. -/
theorem pushFree (hl : HeapLists h us fs ss (p :: loose) blk) :
    ∃ m l, listPush h.nodes h.free p = .ok (m, l) ∧
      HeapLists { h with nodes := m, free := l } us (p :: fs) ss loose blk := by
  have hcountp := hl.count_le p
  rw [List.count_cons_self] at hcountp
  obtain ⟨m, l, hpush, hfree, hframe⟩ := listPush_spec hl.free
    (List.count_eq_zero.mp (by omega)) (hl.own.alive (p := p) (by simp))
  have htouched : ∀ q ∈ p :: fs, us.count q = 0 ∧ ss.count q = 0 := by
    intro q hq
    have hcount := hl.count_le q
    have hpos := List.count_pos_iff.mpr hq
    simp only [List.count_cons] at hpos hcount
    omega
  refine ⟨m, l, hpush, hl.used.congr_count hframe fun q hq => (htouched q hq).1, hfree,
    hl.spare.congr_count hframe fun q hq => (htouched q hq).2,
    (hl.own.congr hframe.data).perm (List.perm_iff_count.mpr fun q => ?_)⟩
  simp only [List.count_append, List.count_cons]
  omega

/-- The first node of the used list with the address searched for is taken out. -/
theorem removeUsed (hl : HeapLists h (xs ++ p :: ys) fs ss loose blk) {ptr : Nat}
    (hp : (blk p).data = ptr) (hxs : ∀ q ∈ xs, (blk q).data ≠ ptr) :
    ∃ m l, listRemoveMatch h.nodes h.used ptr (blockMatchPtr h.blocks) = .ok (m, l, some p) ∧
      HeapLists { h with nodes := m, used := l } (xs ++ ys) fs ss (p :: loose) blk ∧
      ∀ q, m.data q = h.nodes.data q := by
  have hmatch := hl.own.matches
    (fun q (hq : q ∈ xs ++ p :: ys) => List.mem_append_left _ hq) ptr
  obtain ⟨m, l, hremove, hused, hframe, -⟩ := listRemoveMatch_some hl.used hmatch
    (by simpa using hp) (fun q hq => by simpa using hxs q hq)
  have htouched : ∀ q ∈ xs ++ p :: ys, fs.count q = 0 ∧ ss.count q = 0 := by
    intro q hq
    have hcount := hl.count_le q
    have hpos := List.count_pos_iff.mpr hq
    omega
  refine ⟨m, l, hremove, ⟨hused, hl.free.congr_count hframe fun q hq => (htouched q hq).1,
    hl.spare.congr_count hframe fun q hq => (htouched q hq).2,
    (hl.own.congr hframe.data).perm (List.perm_iff_count.mpr fun q => ?_)⟩, hframe.data⟩
  simp only [List.count_append, List.count_cons]
  omega

/-- A loose node is put on the free list, at its address. -/
theorem insertFree (hl : HeapLists h us fs ss (p :: loose) blk)
    (hsorted : Sorted blk fs) :
    ∃ m l xs ys, listInsert h.nodes h.free p (blockComparePtr h.blocks) true =
        .ok (m, l, some p) ∧ (fs = xs ++ ys ∧ fs.insertInto (addrLe blk) p = xs ++ p :: ys) ∧
      HeapLists { h with nodes := m, free := l } us (xs ++ p :: ys) ss loose blk ∧
      Sorted blk (xs ++ p :: ys) ∧ ∀ q, m.data q = h.nodes.data q := by
  have hcountp := hl.count_le p
  rw [List.count_cons_self] at hcountp
  have hsub : ∀ q ∈ p :: fs, q ∈ us ++ (fs ++ (ss ++ p :: loose)) := by
    intro q hq
    rcases List.mem_cons.mp hq with rfl | hq
    · simp
    · simp [hq]
  have hcmp := hl.own.compares hsub
  obtain ⟨m, l, xs, ys, hinsert, ⟨rfl, hplace⟩, hfree, hframe, hsorted'⟩ := listInsert_spec hl.free
    (List.count_eq_zero.mp (by omega)) (hl.own.alive (by simp)) hcmp (rankLe_total _)
    (rankLe_trans _) hsorted
  have htouched : ∀ q ∈ xs ++ p :: ys, us.count q = 0 ∧ ss.count q = 0 := by
    intro q hq
    have hcount := hl.count_le q
    have hpos := List.count_pos_iff.mpr hq
    simp only [List.count_append, List.count_cons] at hpos hcount
    omega
  refine ⟨m, l, xs, ys, hinsert, ⟨rfl, hplace⟩,
    ⟨hl.used.congr_count hframe fun q hq => (htouched q hq).1, hfree,
      hl.spare.congr_count hframe fun q hq => (htouched q hq).2,
      (hl.own.congr hframe.data).perm (List.perm_iff_count.mpr fun q => ?_)⟩, hsorted',
    hframe.data⟩
  simp only [List.count_append, List.count_cons]
  omega

/-- A loose node is put on the used list, at its address. -/
theorem insertUsed (hl : HeapLists h us fs ss (p :: loose) blk)
    (hsorted : Sorted blk us) :
    ∃ m l xs ys, listInsert h.nodes h.used p (blockComparePtr h.blocks) true =
        .ok (m, l, some p) ∧ (us = xs ++ ys ∧ us.insertInto (addrLe blk) p = xs ++ p :: ys) ∧
      HeapLists { h with nodes := m, used := l } (xs ++ p :: ys) fs ss loose blk ∧
      Sorted blk (xs ++ p :: ys) ∧ ∀ q, m.data q = h.nodes.data q := by
  have hcountp := hl.count_le p
  rw [List.count_cons_self] at hcountp
  have hsub : ∀ q ∈ p :: us, q ∈ us ++ (fs ++ (ss ++ p :: loose)) := by
    intro q hq
    rcases List.mem_cons.mp hq with rfl | hq
    · simp
    · simp [hq]
  have hcmp := hl.own.compares hsub
  obtain ⟨m, l, xs, ys, hinsert, ⟨rfl, hplace⟩, hused, hframe, hsorted'⟩ := listInsert_spec hl.used
    (List.count_eq_zero.mp (by omega)) (hl.own.alive (by simp)) hcmp (rankLe_total _)
    (rankLe_trans _) hsorted
  have htouched : ∀ q ∈ xs ++ p :: ys, fs.count q = 0 ∧ ss.count q = 0 := by
    intro q hq
    have hcount := hl.count_le q
    have hpos := List.count_pos_iff.mpr hq
    simp only [List.count_append, List.count_cons] at hpos hcount
    omega
  refine ⟨m, l, xs, ys, hinsert, ⟨rfl, hplace⟩,
    ⟨hused, hl.free.congr_count hframe fun q hq => (htouched q hq).1,
      hl.spare.congr_count hframe fun q hq => (htouched q hq).2,
      (hl.own.congr hframe.data).perm (List.perm_iff_count.mpr fun q => ?_)⟩, hsorted',
    hframe.data⟩
  simp only [List.count_append, List.count_cons]
  omega

/-- Writing to the block of a node changes its contents alone. -/
theorem setBlock (hl : HeapLists h us fs ss loose blk)
    (hp : p ∈ us ++ (fs ++ (ss ++ loose))) {i : Nat} (hi : h.nodes.data p = some (some i))
    (b : Block) : HeapLists (h.setBlock i b) us fs ss loose (Function.update blk p b) where
  used := hl.used
  free := hl.free
  spare := hl.spare
  own := hl.own.setBlock hp hi b

end HeapLists

end DVP.Sosal
