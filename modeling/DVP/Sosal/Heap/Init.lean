import DVP.Sosal.Heap.Invariant

/-!
# What `heap_init` makes

A heap that `heap_init` made has the invariant: one free block that takes the whole data region,
and a spare node for each other block (`heapInit_inv`).
-/

namespace DVP.Sosal

variable {a : Arch} {h h' : Heap} {n : Nat}

/-! ## The tables -/

/-- What `heap_calc_overhead` leaves of a heap, and what it sets. -/
structure Calculated (a : Arch) (h h' : Heap) : Prop where
  raw : h'.raw = h.raw
  used : h'.used = h.used
  free : h'.free = h.free
  align : h'.align = h.align
  coalescePolicy : h'.coalescePolicy = h.coalescePolicy
  bytesUsed : h'.bytesUsed = 0
  bytesFree : h'.bytesFree = a.mul h'.maxBlocks h'.align

/-- Each round sets the tallies to those of its number of blocks. -/
theorem heapCalcLoop_calculated {fuel num : Nat}
    (hloop : heapCalcLoop a fuel h num = .ok (h', true)) : Calculated a h h' := by
  induction fuel generalizing h num with
  | zero => cases hloop
  | succ fuel ih =>
    rw [heapCalcLoop] at hloop
    dsimp only at hloop
    split_ifs at hloop
    all_goals first
      | (cases hloop; exact ⟨rfl, rfl, rfl, rfl, rfl, rfl, rfl⟩)
      | (have hrest := ih hloop
         exact ⟨hrest.raw, hrest.used, hrest.free, hrest.align, hrest.coalescePolicy,
          hrest.bytesUsed, hrest.bytesFree⟩)

theorem heapCalcOverhead_calculated {estimate : Nat}
    (hcalc : heapCalcOverhead a estimate h = .ok (h', true)) : Calculated a h h' := by
  rw [heapCalcOverhead] at hcalc
  split_ifs at hcalc
  · cases hcalc
  · exact heapCalcLoop_calculated hcalc

/-! ## The spare list -/

theorem spareNodes_link {i : Nat} (hi : i < n) :
    (spareNodes n).link i = some ⟨if i > 0 then some (i - 1) else none,
      if i < n - 1 then some (i + 1) else none⟩ := by
  simp [NodeMem.link, spareNodes, hi]

theorem spareNodes_data {i : Nat} (hi : i < n) : (spareNodes n).data i = some (some i) := by
  simp [NodeMem.data, spareNodes, hi]

theorem spareNodes_bounded : (spareNodes n).Bounded := by
  intro i hi
  by_contra hge
  simp [NodeMem.Alive, spareNodes, show ¬i < n from hge] at hi

/-- The nodes are linked in the order of the table. -/
theorem spareNodes_chain {s k : Nat} (hsk : s + k = n) :
    Chain (spareNodes n).link (if s > 0 then some (s - 1) else none) (List.range' s k) none := by
  induction k generalizing s with
  | zero => trivial
  | succ k ih =>
    rw [List.range'_succ]
    have hrest := ih (s := s + 1) (by omega)
    refine ⟨?_, by simpa using hrest⟩
    rw [spareNodes_link (by omega)]
    cases k with
    | zero => simp [show ¬s < n - 1 by omega]
    | succ k => simp [List.range'_succ, show s < n - 1 by omega]

theorem spareList_holds : ListHolds (spareNodes n) (spareList n) (List.range' 0 n) := by
  refine ⟨?_, ?_, List.nodup_range', spareNodes_chain (Nat.zero_add n), spareNodes_bounded⟩
  · cases n with
    | zero => rfl
    | succ n => simp [spareList, List.range'_succ]
  · cases n with
    | zero => rfl
    | succ n => simp [spareList, List.range'_concat]

/-- The lists when the spare nodes are linked. -/
theorem spareLists (hused : h.used = ⟨none, none⟩) (hfree : h.free = ⟨none, none⟩) :
    HeapLists
      { h with
        spare := spareList h.maxBlocks
        nodes := spareNodes h.maxBlocks
        blocks := fun i => if i < h.maxBlocks then some ⟨0, 0⟩ else none }
      [] [] (List.range' 0 h.maxBlocks) [] fun _ => ⟨0, 0⟩ := by
  have hdata : ∀ p ∈ List.range' 0 h.maxBlocks,
      p < h.maxBlocks ∧ (spareNodes h.maxBlocks).data p = some (some p) := by
    intro p hp
    have hlt : p < h.maxBlocks := by simpa using hp
    exact ⟨hlt, spareNodes_data hlt⟩
  refine ⟨?_, ?_, spareList_holds, ?_⟩
  · rw [hused]
    exact ListHolds.empty spareNodes_bounded
  · rw [hfree]
    exact ListHolds.empty spareNodes_bounded
  · simp only [List.nil_append, List.append_nil]
    refine ⟨List.nodup_range', fun p hp => ?_, fun p hp q hq hpq => ?_⟩
    · exact ⟨p, (hdata p hp).2, by simp [(hdata p hp).1]⟩
    · rw [(hdata p hp).2, (hdata q hq).2] at hpq
      simpa using hpq

/-! ## The first block -/

/-- The part of `heap_init` after the tables were placed. -/
theorem heapInit_ok {estimate buffer size p2align : Nat}
    (hinit : heapInit a estimate buffer size p2align = .ok (h, true)) :
    ∃ k h₁ firstNode m sp m' fr n firstBlock, (5 ≤ k ∧ k ≤ 12) ∧ buffer ≠ 0 ∧
      Calculated a (heapRaw buffer size (2 ^ k)) h₁ ∧
      listPop (spareNodes h₁.maxBlocks) (spareList h₁.maxBlocks) = .ok (m, sp, some firstNode) ∧
      m.read (some firstNode) = .ok n ∧ n.data = some firstBlock ∧
      listPush m h₁.free firstNode = .ok (m', fr) ∧
      h = { h₁ with
            spare := sp
            nodes := m'
            free := fr
            blocks := Function.update (fun i => if i < h₁.maxBlocks then some ⟨0, 0⟩ else none)
              firstBlock (some ⟨h₁.bytesFree, h₁.data⟩) } := by
  rw [heapInit] at hinit
  dsimp only at hinit
  generalize hk : (if (if p2align > 12 then 12 else p2align) < 5 then 5
    else if p2align > 12 then 12 else p2align) = k at hinit
  -- the exponent is held between 5 and 12
  have hk5 : 5 ≤ k ∧ k ≤ 12 := by
    rw [← hk]
    split_ifs <;> omega
  split_ifs at hinit with hbuffer halign
  · cases hinit
  · cases hinit
  obtain ⟨⟨h₁, ok⟩, hcalc, hinit⟩ := bind_eq_ok hinit
  dsimp only at hinit
  split_ifs at hinit with hok hmax
  · cases hinit
  rw [Bool.not_eq_false] at hok
  subst hok
  obtain ⟨⟨m, sp, node⟩, hpop, hinit⟩ := bind_eq_ok hinit
  cases node with
  | none => cases hinit
  | some firstNode =>
    obtain ⟨n, hread, hinit⟩ := bind_eq_ok hinit
    cases hn : n.data with
    | none =>
      simp only [hn] at hinit
      cases hinit
    | some firstBlock =>
      simp only [hn] at hinit
      obtain ⟨⟨m', fr⟩, hpush, hinit⟩ := bind_eq_ok hinit
      cases hinit
      exact ⟨k, h₁, firstNode, m, sp, m', fr, n, firstBlock, hk5, hbuffer,
        heapCalcOverhead_calculated hcalc, hpop, hread, hn, hpush, rfl⟩

/-- Of the spare nodes, the first one is popped, its block is set, and it is pushed. -/
theorem firstBlock_pushed (hused : h.used = ⟨none, none⟩) (hfree : h.free = ⟨none, none⟩)
    (hpos : 0 < h.maxBlocks) (b : Block) :
    ∃ m sp n m' fr,
      listPop (spareNodes h.maxBlocks) (spareList h.maxBlocks) = .ok (m, sp, some 0) ∧
      m.read (some 0) = .ok n ∧ n.data = some 0 ∧ listPush m h.free 0 = .ok (m', fr) ∧
      HeapLists
        { h with
          spare := sp
          nodes := m'
          free := fr
          blocks := Function.update (fun i => if i < h.maxBlocks then some ⟨0, 0⟩ else none) 0
            (some b) }
        [] [0] (List.range' 1 (h.maxBlocks - 1)) [] (Function.update (fun _ => ⟨0, 0⟩) 0 b) := by
  have hlists := spareLists (h := h) hused hfree
  have hrange : List.range' 0 h.maxBlocks = 0 :: List.range' 1 (h.maxBlocks - 1) := by
    obtain ⟨c, hc⟩ : ∃ c, h.maxBlocks = c + 1 := ⟨h.maxBlocks - 1, by omega⟩
    rw [hc, List.range'_succ]
    rfl
  rw [hrange] at hlists
  obtain ⟨m, sp, hpop, hl₁, hkeep⟩ := hlists.popSpare
  have hdata : m.data 0 = some (some 0) := (hkeep 0).trans (spareNodes_data hpos)
  obtain ⟨n, hn, hnode⟩ := Option.map_eq_some_iff.mp hdata
  have hl₂ := hl₁.setBlock (by simp) hdata b
  obtain ⟨m', fr, hpush, hl₃⟩ := hl₂.pushFree
  simp only [Heap.setBlock] at hpush hl₃
  have hread : m.read (some 0) = .ok n := by
    simp only [NodeMem.read, hn]
  exact ⟨m, sp, n, m', fr, hpop, hread, hnode, hpush, ⟨hl₃.used, hl₃.free, hl₃.spare, hl₃.own⟩⟩

/-- A heap that was made has the invariant, with one free block and all other nodes spare. -/
theorem heapInit_inv {estimate buffer size p2align : Nat}
    (hinit : heapInit a estimate buffer size p2align = .ok (h, true))
    (hspace : h.data + h.maxBlocks * h.align < a.size) :
    ∃ (arena : Arena a) (ss : List Ptr) (blk : Ptr → Block),
      HeapInv arena h [] [0] ss blk ∧ ss.length + 1 = h.maxBlocks ∧
      arena.align = h.align ∧ arena.base = h.data ∧ arena.maxBlocks = h.maxBlocks ∧
      arena.total = h.bytesFree := by
  obtain ⟨k, h₁, firstNode, m, sp, m', fr, n, firstBlock, hk, hbuffer, hcalc, hpop, hread, hn, hpush,
    rfl⟩ := heapInit_ok hinit
  dsimp only at hspace
  have halign : h₁.align = 2 ^ k := hcalc.align
  have hbytes : h₁.bytesFree = h₁.maxBlocks * h₁.align := by
    rw [hcalc.bytesFree, Arch.mul_of_lt (by omega)]
  let arena : Arena a := ⟨h₁.align, h₁.data, h₁.maxBlocks, ⟨k, hk.1, hk.2, halign⟩, hspace⟩
  rcases Nat.eq_zero_or_pos h₁.maxBlocks with hzero | hpos
  · rw [hzero] at hpop
    cases hpop
  · -- the first node is the one that was popped, and its block the one that was set
    obtain ⟨m₁, sp₁, n₁, m₂, fr₂, hpop₁, hread₁, hn₁, hpush₂, hl⟩ :=
      firstBlock_pushed hcalc.used hcalc.free hpos ⟨h₁.bytesFree, h₁.data⟩
    rw [hpop₁] at hpop
    cases hpop
    rw [hread₁] at hread
    cases hread
    rw [hn₁] at hn
    cases hn
    rw [hpush₂] at hpush
    cases hpush
    refine ⟨arena, List.range' 1 (h₁.maxBlocks - 1), _,
      ⟨⟨hl.used, hl.free, hl.spare, hl.own⟩, List.Pairwise.nil, List.pairwise_singleton _ _, ?_,
        hcalc.bytesUsed, ?_, ?_, rfl, ?_⟩, ?_, rfl, rfl, rfl, hbytes.symm⟩
    · rw [List.nil_append, List.map_singleton, Function.update_self, hbytes]
      exact Region.whole arena
    · simp [bytesOf]
    · rw [hcalc.raw]
      exact hbuffer
    · rw [hcalc.coalescePolicy]
      rfl
    · dsimp only
      rw [List.length_range']
      omega

end DVP.Sosal
