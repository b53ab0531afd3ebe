import DVP.Sosal.Heap.Invariant

/-!
# What `heap_alloc` does

The best fit for a request is a free block that is large enough, if there is one
(`blockBestfitAndRemove_cases`). `AllocStep` has the four things a call does under the invariant of a
heap (`heapAlloc_spec`): it returns `NULL` and leaves the heap as it is; it finds no spare node for
the rest of a block; or it moves a node from the free list to the used list, as it is or with the
first bytes of its block.
-/

namespace DVP.Sosal

variable {a : Arch} {arena : Arena a} {h : Heap} {blk : Ptr → Block} {p : Ptr} {n : Nat}
  {us fs ss xs ys : List Ptr}

/-! ## Rounding and rating -/

/-- The request is not rounded past the last `size_t`. -/
def Roundable (a : Arch) (align n : Nat) : Prop := n % align ≠ 0 → n + (align - n % align) < a.size

instance (align n : Nat) : Decidable (Roundable a align n) :=
  inferInstanceAs (Decidable (n % align ≠ 0 → n + (align - n % align) < a.size))

theorem dvd_blockSize (arena : Arena a) (n : Nat) : arena.align ∣ blockSize a arena.align n := by
  rw [blockSize]
  split_ifs with hrem
  · -- what is added completes `n` to a multiple, and the wrap takes a multiple away
    have hlt := Nat.mod_lt n arena.align_pos
    have hsum : arena.align ∣ n + (arena.align - n % arena.align) := by
      rw [show n + (arena.align - n % arena.align) = n - n % arena.align + arena.align by
        have := Nat.mod_le n arena.align
        omega]
      exact Nat.dvd_add (Nat.dvd_sub_mod n) dvd_rfl
    exact (Nat.dvd_mod_iff arena.align_dvd).mpr hsum
  · exact Nat.dvd_of_mod_eq_zero (not_not.mp hrem)

theorem blockSize_pos (hn : n ≠ 0) {align : Nat} (hround : Roundable a align n) :
    0 < blockSize a align n := by
  rw [blockSize]
  split_ifs with hrem
  · rw [Arch.add_of_lt (hround hrem)]
    omega
  · omega

/-- The request is rounded up to the next multiple of the alignment. -/
theorem le_blockSize {align : Nat} (hround : Roundable a align n) : n ≤ blockSize a align n := by
  unfold blockSize
  dsimp only
  split_ifs with hrem
  · rw [Arch.add_of_lt (hround hrem)]
    exact Nat.le_add_right _ _
  · exact Nat.le_refl _

theorem blockSize_le {align size : Nat} (halign : 0 < align) (hround : Roundable a align n)
    (hsize : align ∣ size) (hle : n ≤ size) : blockSize a align n ≤ size := by
  unfold blockSize
  dsimp only
  split_ifs with hrem
  · rw [Arch.add_of_lt (hround hrem)]
    -- `size` is a multiple that is not below the one the rounding gives
    obtain ⟨c, rfl⟩ := hsize
    have hdiv := Nat.div_add_mod n align
    have hlt := Nat.mod_lt n halign
    have hquot : n / align < c := by
      rw [Nat.div_lt_iff_lt_mul halign, Nat.mul_comm]
      refine Nat.lt_of_le_of_ne hle ?_
      rintro rfl
      exact hrem (Nat.mul_mod_right align c)
    have hmul : align * (n / align + 1) ≤ align * c := Nat.mul_le_mul_left align hquot
    rw [Nat.mul_add, Nat.mul_one] at hmul
    omega
  · exact hle

/-- The rating counts down with the bytes that are too many, of which it sees the low 32 bits. -/
theorem scoreBestfit_eq {this size : Nat} (hle : size ≤ this) :
    scoreBestfit a this size = maxScore - (this - size) % 2 ^ 32 := by
  have hbits : 32 ≤ a.bits := by cases a <;> decide
  have hdvd : 2 ^ 32 ∣ a.size := pow_dvd_pow 2 hbits
  unfold scoreBestfit
  split_ifs with heq hgt
  · rw [heq, Nat.sub_self, Nat.zero_mod, Nat.sub_zero]
  · rw [Arch.sub, maxScore, Nat.mod_mod_of_dvd _ hdvd]
    have hlt := Nat.mod_lt (this - size) a.size_pos
    have hmod : (this - size) % a.size % 2 ^ 32 = (this - size) % 2 ^ 32 := Nat.mod_mod_of_dvd _ hdvd
    obtain ⟨w, hw⟩ := hdvd
    omega
  · omega

/-- A rating is `0` just when the block is too small. -/
theorem scoreBestfit_pos (arena : Arena a) {this size : Nat} (hthis : arena.align ∣ this)
    (hsize : arena.align ∣ size) : 0 < scoreBestfit a this size ↔ size ≤ this := by
  by_cases hle : size ≤ this
  · refine iff_of_true ?_ hle
    -- the rating counts down from an odd number in steps of at least `32`
    obtain ⟨c, hc⟩ := Nat.dvd_sub (dvd_trans arena.dvd_align hthis) (dvd_trans arena.dvd_align hsize)
    rw [scoreBestfit_eq hle, hc, maxScore]
    omega
  · refine iff_of_false ?_ hle
    rw [scoreBestfit, if_neg (by omega), if_neg (by omega)]
    exact Nat.lt_irrefl 0

/-! ## The best fit -/

/-- The rating of the block of a node. -/
def ratingOf (a : Arch) (blk : Ptr → Block) (n : Nat) (p : Ptr) : Nat :=
  scoreBestfit a (blk p).size n

/-- The search of the best fit finds the best node of the free list. -/
theorem listScore_free (hinv : HeapInv arena h us fs ss blk) :
    listScore h.nodes h.free (blockRateBestfit a h.blocks n) =
      .ok (bestOf (ratingOf a blk n) fs) := by
  apply listScore_spec hinv.lists.free
  intro p hp
  have hblock := hinv.lists.own.nodeBlock_eq (p := p) (by simp [hp])
  unfold blockRateBestfit
  rw [hblock]
  rfl

/-- The best node of the free list is taken out, and its block is large enough. -/
theorem blockBestfitAndRemove_cases (hinv : HeapInv arena h us fs ss blk)
    (hn : arena.align ∣ n) :
    (blockBestfitAndRemove a h n = .ok (h, none) ∧ ∀ p ∈ fs, (blk p).size < n) ∨
    ∃ xs p ys m l i, fs = xs ++ p :: ys ∧ bestOf (ratingOf a blk n) fs = some p ∧
      n ≤ (blk p).size ∧
      blockBestfitAndRemove a h n = .ok ({ h with nodes := m, free := l }, some (p, some i)) ∧
      m.data p = some (some i) ∧
      HeapLists { h with nodes := m, free := l } us (xs ++ ys) ss [p] blk := by
  have hpos : ∀ p ∈ fs, 0 < ratingOf a blk n p ↔ n ≤ (blk p).size := by
    intro p hp
    exact scoreBestfit_pos arena (hinv.region.aligned _ (List.mem_map_of_mem (by simp [hp]))).2 hn
  have hscore := listScore_free (n := n) hinv
  cases hbest : bestOf (ratingOf a blk n) fs with
  | none =>
    left
    rw [hbest] at hscore
    refine ⟨by simp [blockBestfitAndRemove, hscore], fun p hp => ?_⟩
    have hzero := bestOf_eq_none_iff.mp hbest p hp
    have hiff := hpos p hp
    omega
  | some p =>
    right
    obtain ⟨xs, ys, rfl, hposp, -⟩ := bestOf_eq_some hbest
    rw [hbest] at hscore
    have hfit := (hpos p (by simp)).mp hposp
    obtain ⟨m, l, hextract, hlists, -⟩ := hinv.lists.extractFree
    obtain ⟨i, hdata, hblock⟩ := hlists.own.block p (by simp)
    obtain ⟨d, hd, hnode⟩ := Option.map_eq_some_iff.mp hdata
    refine ⟨xs, p, ys, m, l, i, rfl, rfl, hfit, ?_, hdata, hlists⟩
    dsimp only at hd
    simp [blockBestfitAndRemove, hscore, hextract, NodeMem.read, hd, hnode]

/-! ## Splitting a block -/

variable {i : Nat}

/-- A block of the right size is not split. -/
theorem heapFracture_exact (hl : HeapLists h us fs ss [p] blk)
    (hi : h.nodes.data p = some (some i)) (hsize : (blk p).size ≤ n) :
    heapFracture a h p i n = .ok (h, true) := by
  have hread := hl.own.readBlock_eq (by simp) hi
  simp [heapFracture, hread, Nat.not_lt.mpr hsize]

/-- Without a spare node the block goes back to the free list. -/
theorem heapFracture_dry (hl : HeapLists h us fs [] [p] blk) (hsorted : Sorted blk fs)
    (hi : h.nodes.data p = some (some i)) (hsize : n < (blk p).size) :
    ∃ m l xs ys, heapFracture a h p i n = .ok ({ h with nodes := m, free := l }, false) ∧
      fs = xs ++ ys ∧ HeapLists { h with nodes := m, free := l } us (xs ++ p :: ys) [] [] blk ∧
      Sorted blk (xs ++ p :: ys) := by
  have hread := hl.own.readBlock_eq (by simp) hi
  have hpop := listPop_nil hl.spare
  obtain ⟨m, l, xs, ys, hinsert, ⟨hfs, -⟩, hlists, hsorted', -⟩ := hl.insertFree hsorted
  refine ⟨m, l, xs, ys, ?_, hfs, hlists, hsorted'⟩
  simp [heapFracture, hread, hsize, hpop, hinsert]

/-- The block of `p` with its first `n` bytes, and that of `s` with the others. -/
def splitBlocks (blk : Ptr → Block) (p s : Ptr) (n : Nat) : Ptr → Block :=
  Function.update (Function.update blk s ⟨(blk p).size - n, (blk p).data + n⟩) p ⟨n, (blk p).data⟩

/-- The bytes that are too many go to a spare block, which is put on the free list. -/
theorem heapFracture_split {s : Ptr} (hl : HeapLists h us fs (s :: ss) [p] blk)
    (hsorted : Sorted blk fs) (hi : h.nodes.data p = some (some i)) (hsize : n < (blk p).size)
    (hend : (blk p).data + (blk p).size < a.size) :
    ∃ m sp l bs xs ys,
      heapFracture a h p i n =
        .ok ({ h with nodes := m, spare := sp, free := l, blocks := bs }, true) ∧
      fs = xs ++ ys ∧ m.data p = some (some i) ∧
      HeapLists { h with nodes := m, spare := sp, free := l, blocks := bs } us (xs ++ s :: ys) ss
        [p] (splitBlocks blk p s n) ∧
      Sorted (splitBlocks blk p s n) (xs ++ s :: ys) := by
  have hread := hl.own.readBlock_eq (by simp) hi
  obtain ⟨m₁, sp, hpop, hl₁, hkeep₁⟩ := hl.popSpare
  obtain ⟨j, hj, -⟩ := hl₁.own.block s (by simp)
  have hps : p ≠ s := by
    rintro rfl
    have hcount := hl.count_le p
    simp only [List.count_cons_self] at hcount
    omega
  have hcount : ∀ q, q = s ∨ q = p → q ∉ fs := by
    intro q hq hmem
    have hcount := hl.count_le q
    have hpos := List.count_pos_iff.mpr hmem
    rcases hq with rfl | rfl
    · rw [List.count_cons_self] at hcount
      omega
    · rw [List.count_cons_self (l := [])] at hcount
      omega
  have hi₁ : m₁.data p = some (some i) := (hkeep₁ p).trans hi
  -- the two blocks are written, and then the spare node is put on the free list
  have hl₂ := hl₁.setBlock (by simp) hj ⟨(blk p).size - n, (blk p).data + n⟩
  have hread₂ := hl₂.own.readBlock_eq (p := p) (by simp) hi₁
  rw [Function.update_of_ne hps] at hread₂
  have hl₃ := hl₂.setBlock (p := p) (by simp) hi₁ ⟨n, (blk p).data⟩
  obtain ⟨m, l, xs, ys, hinsert, ⟨hfs, -⟩, hl₄, hsorted', hkeep⟩ :=
    hl₃.insertFree ((hsorted.update (hcount s (.inl rfl))).update (hcount p (.inr rfl)))
  obtain ⟨d, hd, hnode⟩ := Option.map_eq_some_iff.mp hj
  dsimp only at hd
  have hsub : a.sub (blk p).size n = (blk p).size - n :=
    Arch.sub_of_le (Nat.le_of_lt hsize) (by omega)
  have hadd : a.add (blk p).data n = (blk p).data + n := Arch.add_of_lt (by omega)
  refine ⟨m, sp, l, _, xs, ys, ?_, hfs, (hkeep p).trans hi₁, hl₄, hsorted'⟩
  simp only [Heap.setBlock] at hread₂ hinsert
  simp [heapFracture, hread, hsize, hpop, NodeMem.read, hd, hnode, Heap.setBlock, hsub, hadd,
    hread₂, hinsert]

theorem splitBlocks_self (blk : Ptr → Block) (p s : Ptr) (n : Nat) :
    splitBlocks blk p s n p = ⟨n, (blk p).data⟩ :=
  Function.update_self _ _ _

theorem map_splitBlocks {s : Ptr} {ps : List Ptr} (hp : p ∉ ps) (hs : s ∉ ps) :
    ps.map (splitBlocks blk p s n) = ps.map blk := by
  rw [splitBlocks, map_update hp, map_update hs]

/-- The two blocks have the bytes of the one that was split. -/
theorem split_region {s : Ptr} (hl : HeapLists h us (xs ++ ys) (s :: ss) [p] blk)
    (hregion : Region arena ((p :: us ++ (xs ++ ys)).map blk)) (hn : arena.align ∣ n)
    (hsize : n ≤ (blk p).size) (hsorted : Sorted blk us) :
    Region arena ((p :: us ++ (xs ++ s :: ys)).map (splitBlocks blk p s n)) ∧
      Sorted (splitBlocks blk p s n) us ∧
      bytesOf (splitBlocks blk p s n) us = bytesOf blk us ∧
      bytesOf (splitBlocks blk p s n) (p :: (xs ++ s :: ys)) = bytesOf blk (p :: (xs ++ ys)) := by
  have hnodup := hl.own.nodup
  simp only [List.nodup_append, List.nodup_cons, List.mem_append, List.mem_cons, List.mem_nil_iff,
    or_false] at hnodup
  have hsp : s ≠ p := by grind
  have hp : p ∉ us ∧ p ∉ xs ∧ p ∉ ys := by grind
  have hs : s ∉ us ∧ s ∉ xs ∧ s ∉ ys := by grind
  have hmap : (us ++ (xs ++ ys)).map (splitBlocks blk p s n) = (us ++ (xs ++ ys)).map blk := by
    apply map_splitBlocks <;> simp [hp, hs]
  have hblk_p := splitBlocks_self blk p s n
  have hblk_s : splitBlocks blk p s n s = ⟨(blk p).size - n, (blk p).data + n⟩ := by
    rw [splitBlocks, Function.update_of_ne hsp, Function.update_self]
  refine ⟨?_, (hsorted.update hs.1).update hp.1, ?_, ?_⟩
  -- the block is the two parts together
  · have hwhole : Region arena (⟨n + ((blk p).size - n), (blk p).data⟩ ::
        (us ++ (xs ++ ys)).map blk) := by
      rw [Nat.add_sub_cancel' hsize]
      exact hregion
    have hperm : (p :: s :: (us ++ (xs ++ ys))).Perm (p :: us ++ (xs ++ s :: ys)) := by
      refine List.perm_iff_count.mpr fun q => ?_
      simp only [List.count_append, List.count_cons]
      omega
    refine Region.perm ?_ (hperm.map _)
    rw [List.map_cons, List.map_cons, hmap, hblk_p, hblk_s]
    exact hwhole.split hn
  · rw [bytesOf, map_splitBlocks hp.1 hs.1, bytesOf]
  · have hxs : bytesOf (splitBlocks blk p s n) xs = bytesOf blk xs := by
      rw [bytesOf, map_splitBlocks hp.2.1 hs.2.1, bytesOf]
    have hys : bytesOf (splitBlocks blk p s n) ys = bytesOf blk ys := by
      rw [bytesOf, map_splitBlocks hp.2.2 hs.2.2, bytesOf]
    simp only [bytesOf_cons, bytesOf_append, hblk_p, hblk_s, hxs, hys]
    omega

/-! ## Allocating -/

/-- A block that was taken from the free list is put on the used list. -/
theorem useBlock (hl : HeapLists h us fs ss [p] blk) (hused : Sorted blk us)
    (hfree : Sorted blk fs) (hregion : Region arena ((p :: us ++ fs).map blk))
    (hbytesUsed : h.bytesUsed = bytesOf blk us) (hbytesFree : h.bytesFree = bytesOf blk (p :: fs))
    (hraw : h.raw ≠ 0) (halign : h.align = arena.align) (hpolicy : h.coalescePolicy = true) :
    ∃ m l us₁ us₂, listInsert h.nodes h.used p (blockComparePtr h.blocks) true =
        .ok (m, l, some p) ∧ us = us₁ ++ us₂ ∧
      HeapInv arena
        { h with
          nodes := m
          used := l
          bytesFree := a.sub h.bytesFree (blk p).size
          bytesUsed := a.add h.bytesUsed (blk p).size } (us₁ ++ p :: us₂) fs ss blk := by
  obtain ⟨m, l, xs, ys, hinsert, ⟨rfl, -⟩, hl', hsorted, -⟩ := hl.insertUsed hused
  have htotal : bytesOf blk (p :: (xs ++ ys) ++ fs) = arena.total := hregion.bytes
  have hlt := arena.total_lt
  simp only [bytesOf_cons, bytesOf_append] at htotal hbytesUsed hbytesFree
  refine ⟨m, l, xs, ys, hinsert, rfl,
    ⟨hl'.used, hl'.free, hl'.spare, hl'.own⟩, hsorted, hfree, ?_, ?_, ?_, hraw, halign, hpolicy⟩
  · refine hregion.perm (List.Perm.map _ (List.Perm.append_right _ ?_))
    exact List.perm_middle.symm
  · dsimp only
    rw [Arch.add_of_lt (by omega), hbytesUsed]
    simp only [bytesOf_cons, bytesOf_append]
    omega
  · dsimp only
    rw [Arch.sub_of_le (by omega) (by omega), hbytesFree]
    omega

section Calls

variable {h₁ h₂ : Heap} {i : Nat} {b : Block} {node : Option Ptr}

/-- A call that finds a block and no spare node for the rest of it. -/
theorem heapAlloc_dry (hraw : h.raw ≠ 0) (hn : n ≠ 0) (hfew : ¬h.bytesFree < blockSize a h.align n)
    (hbest : blockBestfitAndRemove a h (blockSize a h.align n) = .ok (h₁, some (p, some i)))
    (hfracture : heapFracture a h₁ p i (blockSize a h.align n) = .ok (h₂, false)) :
    heapAlloc a h n = .ok (h₂, .null .notEnoughSpareNodes) := by
  simp [heapAlloc, hraw, hn, hfew, hbest, hfracture]

/-- A call that finds a block. -/
theorem heapAlloc_use {m : HeapNodes} {l : LinkedList} (hraw : h.raw ≠ 0) (hn : n ≠ 0)
    (hfew : ¬h.bytesFree < blockSize a h.align n)
    (hbest : blockBestfitAndRemove a h (blockSize a h.align n) = .ok (h₁, some (p, some i)))
    (hfracture : heapFracture a h₁ p i (blockSize a h.align n) = .ok (h₂, true))
    (hinsert : listInsert h₂.nodes h₂.used p (blockComparePtr h₂.blocks) true = .ok (m, l, node))
    (hread : readBlock h₂.blocks (some i) = .ok b) :
    heapAlloc a h n =
      .ok ({ h₂ with
             nodes := m
             used := l
             bytesFree := a.sub h₂.bytesFree (blockSize a h.align n)
             bytesUsed := a.add h₂.bytesUsed (blockSize a h.align n) }, .ptr b.data) := by
  simp [heapAlloc, hraw, hn, hfew, hbest, hfracture, hinsert, hread]

end Calls

/-- A call that finds no block leaves the heap as it is. -/
theorem heapAlloc_keeps {h' : Heap} {why : AllocFailure} (halloc : heapAlloc a h n = .ok (h', .null why))
    (hblock : why ≠ .noBlock) (hspare : why ≠ .notEnoughSpareNodes) : h' = h := by
  unfold heapAlloc at halloc
  dsimp only at halloc
  split_ifs at halloc
  · cases halloc
    rfl
  · cases halloc
    rfl
  · cases halloc
    rfl
  -- the search takes a block out, or leaves the list as it is
  obtain ⟨⟨h₁, found⟩, hbest, halloc⟩ := bind_eq_ok halloc
  cases found with
  | none =>
    cases halloc
    unfold blockBestfitAndRemove at hbest
    obtain ⟨best, -, hbest⟩ := bind_eq_ok hbest
    cases best with
    | none =>
      cases hbest
      rfl
    | some p =>
      obtain ⟨⟨m, l, node⟩, -, hbest⟩ := bind_eq_ok hbest
      obtain ⟨d, hread, hbest⟩ := bind_eq_ok hbest
      cases node with
      | none => cases hread
      | some node => cases hbest
  | some found =>
    obtain ⟨node, block⟩ := found
    cases block with
    | none =>
      cases halloc
      exact absurd rfl hblock
    | some i =>
      obtain ⟨⟨h₂, enough⟩, -, halloc⟩ := bind_eq_ok halloc
      cases enough with
      | false =>
        cases halloc
        exact absurd rfl hspare
      | true =>
        obtain ⟨r, -, halloc⟩ := bind_eq_ok halloc
        obtain ⟨b, -, halloc⟩ := bind_eq_ok halloc
        cases halloc

/-- What a call for `n` bytes, rounded to `N`, answers and does to the nodes of the lists and to their
blocks. -/
inductive AllocStep (a : Arch) (n N : Nat) (us fs ss : List Ptr) (blk : Ptr → Block) :
    AllocResult → List Ptr → List Ptr → List Ptr → (Ptr → Block) → Prop
  /-- The request is empty, or there is no block that is large enough. -/
  | refused (why : AllocFailure) (hwhy : why ≠ .noBlock ∧ why ≠ .notEnoughSpareNodes)
      (hfit : n ≠ 0 → ∀ p ∈ fs, (blk p).size < N) :
      AllocStep a n N us fs ss blk (.null why) us fs ss blk
  /-- There is no spare node for the rest of the block, which goes back to the free list. -/
  | dry (xs : List Ptr) (p : Ptr) (ys xs' ys' : List Ptr) (hn : n ≠ 0)
      (hfs : fs = xs ++ p :: ys) (hbest : bestOf (ratingOf a blk N) fs = some p)
      (hsize : N < (blk p).size) (hspare : ss = []) (hplace : xs ++ ys = xs' ++ ys') :
      AllocStep a n N us fs ss blk (.null .notEnoughSpareNodes) us (xs' ++ p :: ys') ss blk
  /-- The block has just the size of the request. -/
  | whole (xs : List Ptr) (p : Ptr) (ys us₁ us₂ : List Ptr) (hn : n ≠ 0)
      (hfs : fs = xs ++ p :: ys) (hbest : bestOf (ratingOf a blk N) fs = some p)
      (hsize : (blk p).size = N) (hus : us = us₁ ++ us₂) :
      AllocStep a n N us fs ss blk (.ptr (blk p).data) (us₁ ++ p :: us₂) (xs ++ ys) ss blk
  /-- The rest of the block goes to the free list with a spare node. -/
  | part (xs : List Ptr) (p : Ptr) (ys us₁ us₂ : List Ptr) (s : Ptr)
      (ss' xs' ys' : List Ptr) (hn : n ≠ 0)
      (hfs : fs = xs ++ p :: ys) (hbest : bestOf (ratingOf a blk N) fs = some p)
      (hsize : N < (blk p).size) (hus : us = us₁ ++ us₂) (hspare : ss = s :: ss')
      (hplace : xs ++ ys = xs' ++ ys') :
      AllocStep a n N us fs ss blk (.ptr (blk p).data) (us₁ ++ p :: us₂) (xs' ++ s :: ys') ss'
        (splitBlocks blk p s N)

/-- A call loses no node. -/
theorem AllocStep.length_eq {N : Nat} {r : AllocResult} {us' fs' ss' : List Ptr}
    {blk' : Ptr → Block} (hstep : AllocStep a n N us fs ss blk r us' fs' ss' blk') :
    us'.length + fs'.length + ss'.length = us.length + fs.length + ss.length := by
  cases hstep with
  | refused => rfl
  | dry xs p ys xs' ys' hn hfs hbest hsize hspare hplace =>
    have hlength := congrArg List.length hplace
    subst hfs
    simp only [List.length_append, List.length_cons] at hlength ⊢
    omega
  | whole xs p ys us₁ us₂ hn hfs hbest hsize hus =>
    subst hfs hus
    simp only [List.length_append, List.length_cons]
    omega
  | part xs p ys us₁ us₂ s ss' xs' ys' hn hfs hbest hsize hus hspare hplace =>
    have hlength := congrArg List.length hplace
    subst hfs hus hspare
    simp only [List.length_append, List.length_cons] at hlength ⊢
    omega

/-- A call keeps the invariant. -/
theorem heapAlloc_spec (hinv : HeapInv arena h us fs ss blk) (n : Nat) :
    ∃ h' r us' fs' ss' blk', heapAlloc a h n = .ok (h', r) ∧ HeapInv arena h' us' fs' ss' blk' ∧
      AllocStep a n (blockSize a arena.align n) us fs ss blk r us' fs' ss' blk' := by
  have hraw := hinv.raw
  have halign := hinv.align
  by_cases hn : n = 0
  · exact ⟨h, _, us, fs, ss, blk, by simp [heapAlloc, hraw, hn], hinv,
      .refused .noBytes (by simp) fun hne => absurd hn hne⟩
  rw [← halign]
  have hdvd : arena.align ∣ blockSize a h.align n := by
    rw [halign]
    exact dvd_blockSize arena n
  by_cases hfew : h.bytesFree < blockSize a h.align n
  · refine ⟨h, _, us, fs, ss, blk, by simp [heapAlloc, hraw, hn, hfew], hinv,
      .refused .fewBytesFree (by simp) fun _ p hp => ?_⟩
    -- no block has more bytes than all blocks together
    obtain ⟨xs, ys, rfl⟩ := List.append_of_mem hp
    have hbytes := hinv.bytesFree
    simp only [bytesOf_append, bytesOf_cons] at hbytes
    omega
  rcases blockBestfitAndRemove_cases hinv hdvd with ⟨hnofit, hnone⟩ | hfound
  · exact ⟨h, _, us, fs, ss, blk, by simp [heapAlloc, hraw, hn, hfew, hnofit], hinv,
      .refused .noFit (by simp) fun _ => hnone⟩
  obtain ⟨xs, p, ys, m, l, i, rfl, hbest, hfit, hremove, hi, hl⟩ := hfound
  have hend := hinv.region.end_lt (List.mem_map_of_mem (f := blk) (a := p) (by simp))
  have hfree : Sorted blk (xs ++ ys) :=
    hinv.freeSorted.sublist (List.Sublist.append_left (List.sublist_cons_self p ys) xs)
  have hregion : Region arena ((p :: us ++ (xs ++ ys)).map blk) := by
    refine hinv.region.perm (List.Perm.map _ (List.perm_iff_count.mpr fun q => ?_))
    simp only [List.count_append, List.count_cons]
    omega
  have hbytes : h.bytesFree = bytesOf blk (p :: (xs ++ ys)) := by
    rw [hinv.bytesFree]
    simp only [bytesOf_append, bytesOf_cons]
    omega
  by_cases hsize : blockSize a h.align n < (blk p).size
  · cases ss with
    | nil =>
      obtain ⟨m', l', xs', ys', hfracture, hsplit, hl', hsorted⟩ :=
        heapFracture_dry (a := a) hl hfree hi hsize
      have hperm : ∀ q, (us ++ (xs ++ p :: ys)).count q = (us ++ (xs' ++ p :: ys')).count q := by
        intro q
        have hcount := congrArg (List.count q) hsplit
        simp only [List.count_append, List.count_cons] at *
        omega
      refine ⟨_, _, us, xs' ++ p :: ys', [], blk, heapAlloc_dry hraw hn hfew hremove hfracture, ?_,
        .dry xs p ys xs' ys' hn rfl hbest hsize rfl hsplit⟩
      refine ⟨hl', hinv.usedSorted, hsorted,
        hinv.region.perm ((List.perm_iff_count.mpr hperm).map _), hinv.bytesUsed, ?_, hraw, halign,
        hinv.coalescePolicy⟩
      dsimp only
      rw [hbytes, bytesOf_cons, hsplit]
      simp only [bytesOf_append, bytesOf_cons]
      omega
    | cons s ss =>
      obtain ⟨m₁, sp, l₁, bs, xs', ys', hfracture, hsplit, hi₁, hl₁, hfree₁⟩ :=
        heapFracture_split (a := a) hl hfree hi hsize hend
      have hl₀ := hl
      rw [hsplit] at hl₀ hregion hbytes
      obtain ⟨hregion', hused', hbytesUsed', hbytesFree'⟩ :=
        split_region hl₀ hregion hdvd (Nat.le_of_lt hsize) hinv.usedSorted
      have hread := hl₁.own.readBlock_eq (by simp) hi₁
      obtain ⟨m', l', us₁, us₂, hinsert, hus, hinv'⟩ := useBlock hl₁ hused' hfree₁ hregion'
        (hinv.bytesUsed.trans hbytesUsed'.symm) (hbytes.trans hbytesFree'.symm) hraw halign
        hinv.coalescePolicy
      rw [splitBlocks_self] at hread hinv'
      exact ⟨_, _, _, _, ss, _, heapAlloc_use hraw hn hfew hremove hfracture hinsert hread, hinv',
        .part xs p ys us₁ us₂ s ss xs' ys' hn rfl hbest hsize hus rfl hsplit⟩
  · have hexact : (blk p).size = blockSize a h.align n := by omega
    have hfracture := heapFracture_exact (a := a) hl hi (Nat.le_of_not_lt hsize)
    have hread := hl.own.readBlock_eq (by simp) hi
    obtain ⟨m', l', us₁, us₂, hinsert, hus, hinv'⟩ := useBlock hl hinv.usedSorted hfree hregion
      hinv.bytesUsed hbytes hraw halign hinv.coalescePolicy
    rw [hexact] at hinv'
    exact ⟨_, _, _, _, ss, blk, heapAlloc_use hraw hn hfew hremove hfracture hinsert hread, hinv',
      .whole xs p ys us₁ us₂ hn rfl hbest hexact hus⟩

end DVP.Sosal
