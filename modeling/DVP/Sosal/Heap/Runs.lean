import DVP.Lib.Run
import DVP.Sosal.Heap.Alloc
import DVP.Sosal.Heap.Free
import DVP.Sosal.Heap.Init

/-!
# Runs of a heap

What holds in every state a heap can get into after `heap_init`. The coalescing of `heap_free`
neither moves the tail of the free list nor gives the node it takes out back to the spare list.

* `heap_sound_iff`: the lists stay well formed, and their blocks tile the data region, exactly when
  no call merges the last node of the free list away;
* `heap_keeps_nodes`: so long as no call coalesces, no node is lost and `heap_alloc` fails only for
  want of a block that is large enough.
-/

namespace DVP.Sosal

variable {a : Arch} {arena : Arena a} {h h₀ : Heap} {blk : Ptr → Block} {us fs ss : List Ptr}
  {estimate buffer size p2align : Nat} {ops : List HeapOp}

/-! ## Well-formed lists -/

/-- The call does not merge the last node of the free list away. -/
def KeepsTail (a : Arch) (h : Heap) : HeapOp → Prop
  | .alloc _ => True
  | .free pointer => h.losesLast a pointer = false

instance (h : Heap) : (op : HeapOp) → Decidable (KeepsTail a h op)
  | .alloc _ => instDecidableTrue
  | .free _ => inferInstanceAs (Decidable (_ = _))

/-- Some nodes and blocks have the invariant. -/
def HasInv (arena : Arena a) (h : Heap) : Prop := ∃ us fs ss blk, HeapInv arena h us fs ss blk

/-- One call keeps the invariant. -/
theorem heapStep_hasInv {op : HeapOp} (hinv : HasInv arena h) (hop : KeepsTail a h op) :
    ∃ h' r, heapStep a h op = .ok (h', r) ∧ HasInv arena h' := by
  obtain ⟨us, fs, ss, blk, hinv⟩ := hinv
  cases op with
  | alloc n =>
    obtain ⟨h', r, us', fs', ss', blk', halloc, hinv', -⟩ := heapAlloc_spec hinv n
    exact ⟨h', .alloc r, by simp [heapStep, halloc], us', fs', ss', blk', hinv'⟩
  | free pointer =>
    obtain ⟨h', r, us', fs', blk', hfree, hinv', -, htail⟩ := heapFree_spec hinv pointer
    rcases htail with ⟨-, htail⟩ | ⟨hloses, -⟩
    · rw [Heap.retail_eq htail] at hinv'
      exact ⟨h', .free r, by simp [heapStep, hfree], us', fs', ss, blk', hinv'⟩
    · rw [KeepsTail, hloses] at hop
      cases hop

/-- The lists of the heap are well formed, whatever their nodes are. -/
def Sound (align base total : Nat) (h : Heap) : Prop :=
  ∃ us fs, HeapSound align base total h us fs

theorem HasInv.sound (hinv : HasInv arena h) : Sound arena.align arena.base arena.total h := by
  obtain ⟨us, fs, ss, blk, hinv⟩ := hinv
  exact ⟨us, fs, hinv.sound⟩

/-- A call that merges the last free node away returns, and leaves lists that are not well formed. -/
theorem heapStep_breaks {op : HeapOp} (hinv : HasInv arena h) (hop : ¬KeepsTail a h op) :
    ∃ h' r, heapStep a h op = .ok (h', r) ∧ ¬Sound arena.align arena.base arena.total h' := by
  obtain ⟨us, fs, ss, blk, hinv⟩ := hinv
  cases op with
  | alloc n => exact absurd trivial hop
  | free pointer =>
    have hloses : h.losesLast a pointer = true := by simpa [KeepsTail] using hop
    obtain ⟨h', r, hfree, hbroken⟩ := heapFree_breaks hinv hloses
    refine ⟨h', .free r, by simp [heapStep, hfree], ?_⟩
    rintro ⟨us', fs', hsound⟩
    exact hbroken fs' hsound.free

/-- The lists are well formed in every state of a run exactly when no call merges the last node of
the free list away. -/
theorem heap_always_iff (hhas : HasInv arena h) :
    Machine.Always (heapStep a) (Sound arena.align arena.base arena.total) h ops ↔
      Machine.Meets (heapStep a) (KeepsTail a) h ops := by
  refine Machine.always_iff_meets (I := HasInv arena) (fun _ => HasInv.sound) ?_
    (fun _ _ => heapStep_breaks) hhas
  intro h op h' r hinv hop hstep
  obtain ⟨h'', r', hstep', hinv'⟩ := heapStep_hasInv hinv hop
  rw [hstep'] at hstep
  cases hstep
  exact hinv'

/-- A run from `heap_init` on does not fault and keeps the lists well formed, with blocks that tile
the data region, if and only if no call merges the last node of the free list away. -/
theorem heap_sound_iff
    (hinit : heapInit a estimate buffer size p2align = .ok (h₀, true))
    (hspace : h₀.data + h₀.maxBlocks * h₀.align < a.size) :
    (∃ h' answers, Machine.run (heapStep a) h₀ ops = .ok (h', answers)) ∧
        Machine.Always (heapStep a) (Sound h₀.align h₀.data h₀.bytesFree) h₀ ops ↔
      Machine.Meets (heapStep a) (KeepsTail a) h₀ ops := by
  obtain ⟨arena, ss, blk, hinv, -, halign, hbase, -, htotal⟩ := heapInit_inv hinit hspace
  have hhas : HasInv arena h₀ := ⟨[], [0], ss, blk, hinv⟩
  rw [← halign, ← hbase, ← htotal]
  constructor
  · rintro ⟨-, halways⟩
    exact (heap_always_iff hhas).mp halways
  · intro hops
    obtain ⟨h', answers, hrun, -⟩ := Machine.run_invariant (fun _ _ => heapStep_hasInv) hhas hops
    exact ⟨⟨h', answers, hrun⟩, (heap_always_iff hhas).mpr hops⟩

theorem heap_sound_iff_six :
    ∃ h₀, heapInit .arch64 166 4096 300 5 = .ok (h₀, true) ∧
      (∃ h' answers, Machine.run (heapStep .arch64) h₀
        [.alloc 32, .alloc 1, .alloc 1, .free 4288, .free 4256, .alloc 1] = .ok (h', answers)) ∧
      Machine.Always (heapStep .arch64) (Sound h₀.align h₀.data h₀.bytesFree) h₀
        [.alloc 32, .alloc 1, .alloc 1, .free 4288, .free 4256, .alloc 1] := by
  obtain ⟨⟨h₀, created⟩, hinit, hcreated, hspace, hcheck⟩ :
      ∃ r ∈ (heapInit .arch64 166 4096 300 5).toOption, r.2 = true ∧
        r.1.data + r.1.maxBlocks * r.1.align < Arch.arch64.size ∧
        Machine.check (heapStep .arch64) (KeepsTail .arch64) r.1
          [.alloc 32, .alloc 1, .alloc 1, .free 4288, .free 4256, .alloc 1] = true := by
    decide +kernel
  obtain rfl : created = true := hcreated
  have hinit := eq_ok_of_mem_toOption hinit
  exact ⟨h₀, hinit, (heap_sound_iff hinit hspace).mpr (Machine.check_eq_true_iff.mp hcheck)⟩

/-- After a block is allocated and freed again, the tail of the free list is a node that is on no
list. -/
theorem heap_free_leaves_tail :
    ∃ h₀ h', heapInit .arch64 166 4096 300 5 = .ok (h₀, true) ∧
      h₀.data + h₀.maxBlocks * h₀.align < Arch.arch64.size ∧
      Machine.run (heapStep .arch64) h₀ [.alloc 32, .free 4256] =
        .ok (h', [.alloc (.ptr 4256), .free true]) ∧
      ¬Sound h₀.align h₀.data h₀.bytesFree h' := by
  obtain ⟨⟨h₀, created⟩, hinit, hcreated, hspace, ⟨h', answers⟩, hrun, hanswers, hfree, hprev⟩ :
      ∃ r ∈ (heapInit .arch64 166 4096 300 5).toOption, r.2 = true ∧
        r.1.data + r.1.maxBlocks * r.1.align < Arch.arch64.size ∧
        ∃ r' ∈ (Machine.run (heapStep .arch64) r.1 [.alloc 32, .free 4256]).toOption,
          r'.2 = [.alloc (.ptr 4256), .free true] ∧ r'.1.free = ⟨some 0, some 1⟩ ∧
          (r'.1.nodes.node 1).bind Node.prev = none := by decide +kernel
  obtain rfl : created = true := hcreated
  obtain rfl : answers = _ := hanswers
  refine ⟨h₀, h', eq_ok_of_mem_toOption hinit, hspace, eq_ok_of_mem_toOption hrun, ?_⟩
  rintro ⟨us, fs, hsound⟩
  have hfree : h'.free = ⟨some 0, some 1⟩ := hfree
  exact not_linked_of_stale (by rw [hfree]) (by simp [hfree]) hprev hsound.free

/-! ## Nodes -/

/-- The call does not coalesce, and does not need a spare node that a request rounded to zero took:
when the rounding of a request went past the last `size_t`, now or before, there is a spare node, or
no free block is larger than the request. -/
def KeepsNodes (a : Arch) (h : Heap) : HeapOp → Prop
  | .alloc n =>
    (¬Roundable a h.align n ∨
      ∃ p ∈ listNodes h.nodes h.used ++ listNodes h.nodes h.free, (h.blockOf p).size = 0) →
    listNodes h.nodes h.spare ≠ [] ∨
      ∀ p ∈ listNodes h.nodes h.free, (h.blockOf p).size ≤ blockSize a h.align n
  | .free pointer => h.coalesces a pointer = false

instance (h : Heap) : (op : HeapOp) → Decidable (KeepsNodes a h op)
  | .alloc _ => inferInstanceAs (Decidable (_ ∨ _ → _ ∨ _))
  | .free _ => inferInstanceAs (Decidable (_ = _))

/-- A call that does not coalesce merges no node away. -/
theorem losesLast_of_coalesces {pointer : Nat} (hnot : h.coalesces a pointer = false) :
    h.losesLast a pointer = false := by
  rw [Heap.losesLast]
  rw [Heap.coalesces] at hnot
  cases hfreed : h.freedNode pointer with
  | none => rfl
  | some p =>
    rw [hfreed, Option.any_some, Bool.or_eq_false_iff] at hnot
    rw [Option.any_some, hnot.1, hnot.2]
    rfl

/-- The invariant, with all nodes that were made on the lists. -/
def HasNodes (arena : Arena a) (h : Heap) : Prop :=
  ∃ us fs ss blk, HeapInv arena h us fs ss blk ∧
    us.length + fs.length + ss.length = arena.maxBlocks

/-- So long as no block is empty there is a spare node whenever a block has to be split: without
one, each block has `align` bytes. -/
theorem spare_of_split (hinv : HeapInv arena h us fs [] h.blockOf)
    (hlength : us.length + fs.length = arena.maxBlocks) {n : Nat} (hn : n ≠ 0)
    (hop : KeepsNodes a h (.alloc n)) {p : Ptr} (hp : p ∈ fs) :
    (h.blockOf p).size ≤ blockSize a arena.align n := by
  rw [KeepsNodes, hinv.lists.used.listNodes_eq, hinv.lists.free.listNodes_eq,
    hinv.lists.spare.listNodes_eq, hinv.align] at hop
  by_cases hempty : ¬Roundable a arena.align n ∨ ∃ p ∈ us ++ fs, (h.blockOf p).size = 0
  · exact (hop hempty).resolve_left (fun hne => hne rfl) p hp
  · simp only [not_or, not_not, not_exists, not_and] at hempty
    obtain ⟨hround, hnonempty⟩ := hempty
    have hall : ∀ b ∈ (us ++ fs).map h.blockOf, 0 < b.size := by
      intro b hb
      obtain ⟨q, hq, rfl⟩ := List.mem_map.mp hb
      exact Nat.pos_of_ne_zero (hnonempty q hq)
    rw [hinv.region.size_eq_align hall (by simpa using hlength)
      (List.mem_map_of_mem (List.mem_append_right _ hp))]
    exact Nat.le_of_dvd (blockSize_pos hn hround) (dvd_blockSize arena n)

/-- What `heap_alloc` does to a heap that has lost no node. -/
theorem heapAlloc_hasNodes (hinv : HasNodes arena h) {n : Nat}
    (hop : KeepsNodes a h (.alloc n)) :
    ∃ h' r, heapAlloc a h n = .ok (h', r) ∧ HasNodes arena h' ∧ r ≠ .null .notEnoughSpareNodes ∧
      (n ≠ 0 → ∀ why, r = .null why → ∀ p ∈ listNodes h.nodes h.free,
        (h.blockOf p).size < blockSize a arena.align n) := by
  obtain ⟨us, fs, ss, blk, hinv, hlength⟩ := hinv
  replace hinv := hinv.toBlockOf
  obtain ⟨h', r, us', fs', ss', blk', halloc, hinv', hstep⟩ := heapAlloc_spec hinv n
  have hnodes : HasNodes arena h' := ⟨us', fs', ss', blk', hinv', hstep.length_eq.trans hlength⟩
  refine ⟨h', r, halloc, hnodes, ?_⟩
  cases hstep with
  | refused why hwhy hfit =>
    refine ⟨by simpa using hwhy.2, fun hn _ _ => ?_⟩
    rw [hinv.lists.free.listNodes_eq]
    exact hfit hn
  | dry xs p ys xs' ys' hn hfs hbest hsize hspare hplace =>
    subst hspare
    have hle := spare_of_split hinv (by simpa using hlength) hn hop (show p ∈ fs by simp [hfs])
    exact absurd hle (Nat.not_le_of_lt hsize)
  | whole => exact ⟨by simp, by simp⟩
  | part => exact ⟨by simp, by simp⟩

/-- One call keeps the nodes, and does not want for spare nodes. -/
theorem heapStep_hasNodes {op : HeapOp} (hinv : HasNodes arena h) (hop : KeepsNodes a h op) :
    ∃ h' r, heapStep a h op = .ok (h', r) ∧ HasNodes arena h' ∧
      r ≠ .alloc (.null .notEnoughSpareNodes) := by
  cases op with
  | alloc n =>
    obtain ⟨h', r, halloc, hinv', hr, -⟩ := heapAlloc_hasNodes hinv hop
    exact ⟨h', .alloc r, by simp [heapStep, halloc], hinv', by simpa using hr⟩
  | free pointer =>
    obtain ⟨us, fs, ss, blk, hinv, hlength⟩ := hinv
    obtain ⟨h', r, us', fs', blk', hfree, hinv', hstep, htail⟩ := heapFree_spec hinv pointer
    have hlength' := hstep.length_eq hop
    rcases htail with ⟨-, htail⟩ | ⟨hloses, -⟩
    · rw [Heap.retail_eq htail] at hinv'
      exact ⟨h', .free r, by simp [heapStep, hfree], ⟨us', fs', ss, blk', hinv', by omega⟩, by simp⟩
    · rw [losesLast_of_coalesces hop] at hloses
      cases hloses

/-- The nodes of the three lists are counted. -/
theorem HasNodes.count (hinv : HasNodes arena h) :
    ∃ used free spare, listLength h.nodes h.used = .ok used ∧
      listLength h.nodes h.free = .ok free ∧ listLength h.nodes h.spare = .ok spare ∧
      used + free + spare = arena.maxBlocks := by
  obtain ⟨us, fs, ss, blk, hinv, hlength⟩ := hinv
  exact ⟨_, _, _, listLength_spec hinv.lists.used, listLength_spec hinv.lists.free,
    listLength_spec hinv.lists.spare, hlength⟩

/-- Over every run from `heap_init` on without a call that coalesces, all nodes that were made stay
on the lists, no call wants for a spare node, and the next request is refused only if no free block
is large enough. -/
theorem heap_keeps_nodes
    (hinit : heapInit a estimate buffer size p2align = .ok (h₀, true))
    (hspace : h₀.data + h₀.maxBlocks * h₀.align < a.size)
    (hops : Machine.Meets (heapStep a) (KeepsNodes a) h₀ ops) :
    ∃ h answers, Machine.run (heapStep a) h₀ ops = .ok (h, answers) ∧
      (∃ used free spare, listLength h.nodes h.used = .ok used ∧
        listLength h.nodes h.free = .ok free ∧ listLength h.nodes h.spare = .ok spare ∧
        used + free + spare = h₀.maxBlocks) ∧
      .alloc (.null .notEnoughSpareNodes) ∉ answers ∧
      ∀ n ≠ 0, KeepsNodes a h (.alloc n) →
        ∃ h' r, heapAlloc a h n = .ok (h', r) ∧ r ≠ .null .notEnoughSpareNodes ∧
          ∀ why, r = .null why → ∀ p ∈ listNodes h.nodes h.free,
            (h.blockOf p).size < blockSize a h₀.align n := by
  obtain ⟨arena, ss, blk, hinv, hlength, halign, hbase, hmax, htotal⟩ := heapInit_inv hinit hspace
  rw [← hmax, ← halign]
  have hhas : HasNodes arena h₀ := by
    refine ⟨[], [0], ss, blk, hinv, ?_⟩
    rw [List.length_nil, List.length_singleton]
    omega
  obtain ⟨h, answers, hrun, hnodes, hanswers⟩ :=
    Machine.run_invariant_answers (fun _ _ => heapStep_hasNodes) hhas hops
  refine ⟨h, answers, hrun, hnodes.count, fun hmem => hanswers _ hmem rfl, fun n hn hop => ?_⟩
  obtain ⟨h', r, halloc, -, hr, hfit⟩ := heapAlloc_hasNodes hnodes hop
  exact ⟨h', r, halloc, hr, hfit hn⟩

theorem heap_keeps_nodes_three :
    ∃ h₀, heapInit .arch64 166 4096 300 5 = .ok (h₀, true) ∧
      ∃ h answers, Machine.run (heapStep .arch64) h₀ [.alloc 32, .alloc 1, .free 4256] =
          .ok (h, answers) ∧
        (∃ used free spare, listLength h.nodes h.used = .ok used ∧
          listLength h.nodes h.free = .ok free ∧ listLength h.nodes h.spare = .ok spare ∧
          used + free + spare = h₀.maxBlocks) ∧
        .alloc (.null .notEnoughSpareNodes) ∉ answers ∧
        ∀ n ≠ 0, KeepsNodes .arch64 h (.alloc n) →
          ∃ h' r, heapAlloc .arch64 h n = .ok (h', r) ∧ r ≠ .null .notEnoughSpareNodes ∧
            ∀ why, r = .null why → ∀ p ∈ listNodes h.nodes h.free,
              (h.blockOf p).size < blockSize .arch64 h₀.align n := by
  obtain ⟨⟨h₀, created⟩, hinit, hcreated, hspace, hcheck⟩ :
      ∃ r ∈ (heapInit .arch64 166 4096 300 5).toOption, r.2 = true ∧
        r.1.data + r.1.maxBlocks * r.1.align < Arch.arch64.size ∧
        Machine.check (heapStep .arch64) (KeepsNodes .arch64) r.1
          [.alloc 32, .alloc 1, .free 4256] = true := by decide +kernel
  obtain rfl : created = true := hcreated
  have hinit := eq_ok_of_mem_toOption hinit
  exact ⟨h₀, hinit, heap_keeps_nodes hinit hspace (Machine.check_eq_true_iff.mp hcheck)⟩

/-- Each time a block is allocated and freed again a node is lost, and the fourth request fails
although the whole region is free. -/
theorem heap_free_loses_nodes :
    ∃ h₀ h₁ h₂, heapInit .arch64 166 4096 300 5 = .ok (h₀, true) ∧ h₀.maxBlocks = 4 ∧
      h₀.bytesFree = 128 ∧
      Machine.run (heapStep .arch64) h₀ [.alloc 32, .free 4256] =
        .ok (h₁, [.alloc (.ptr 4256), .free true]) ∧
      listLength h₁.nodes h₁.used = .ok 0 ∧ listLength h₁.nodes h₁.free = .ok 1 ∧
      listLength h₁.nodes h₁.spare = .ok 2 ∧
      Machine.run (heapStep .arch64) h₁
          [.alloc 32, .free 4256, .alloc 32, .free 4256, .alloc 32] =
        .ok (h₂, [.alloc (.ptr 4256), .free true, .alloc (.ptr 4256), .free true,
          .alloc (.null .notEnoughSpareNodes)]) ∧
      h₂.bytesFree = 128 := by
  obtain ⟨⟨h₀, created⟩, hinit, hcreated, hmax, hbytes, ⟨h₁, answers₁⟩, hrun₁, hanswers₁, hused,
      hfree, hspare, ⟨h₂, answers₂⟩, hrun₂, hanswers₂, hwhole⟩ :
      ∃ r ∈ (heapInit .arch64 166 4096 300 5).toOption, r.2 = true ∧ r.1.maxBlocks = 4 ∧
        r.1.bytesFree = 128 ∧
        ∃ r₁ ∈ (Machine.run (heapStep .arch64) r.1 [.alloc 32, .free 4256]).toOption,
          r₁.2 = [.alloc (.ptr 4256), .free true] ∧
          0 ∈ (listLength r₁.1.nodes r₁.1.used).toOption ∧
          1 ∈ (listLength r₁.1.nodes r₁.1.free).toOption ∧
          2 ∈ (listLength r₁.1.nodes r₁.1.spare).toOption ∧
          ∃ r₂ ∈ (Machine.run (heapStep .arch64) r₁.1
              [.alloc 32, .free 4256, .alloc 32, .free 4256, .alloc 32]).toOption,
            r₂.2 = [.alloc (.ptr 4256), .free true, .alloc (.ptr 4256), .free true,
              .alloc (.null .notEnoughSpareNodes)] ∧ r₂.1.bytesFree = 128 := by
    decide +kernel
  obtain rfl : created = true := hcreated
  obtain rfl : answers₁ = _ := hanswers₁
  obtain rfl : answers₂ = _ := hanswers₂
  exact ⟨h₀, h₁, h₂, eq_ok_of_mem_toOption hinit, hmax, hbytes, eq_ok_of_mem_toOption hrun₁,
    eq_ok_of_mem_toOption hused, eq_ok_of_mem_toOption hfree, eq_ok_of_mem_toOption hspare,
    eq_ok_of_mem_toOption hrun₂, hwhole⟩

end DVP.Sosal
