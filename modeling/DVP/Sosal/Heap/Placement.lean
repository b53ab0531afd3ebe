import DVP.Sosal.Heap.Init

/-!
# Where `heap_init` places its parts

With the exact quotient for the ratio of `heap_calc_overhead`, its loop makes two rounds at most: the
first takes all blocks there is room for, and where the bytes that are left are too few to align the
data, the second takes one block less.

* `heapCalcLoop_eq` says what one round does, and `heapCalcOverhead_exact` what both do.
* `heapInit_layout_iff` says when `heap_init` returns and its parts lie apart in the buffer.
-/

namespace DVP.Sosal

variable {a : Arch} {h : Heap} {buffer size p2align num : Nat}

/-- `heap->align`, from the argument `p2align` of `heap_init`. -/
def alignOf (p2align : Nat) : Nat :=
  let p2align := if p2align > 12 then 12 else p2align
  let p2align := if p2align < 5 then 5 else p2align
  2 ^ p2align

variable (a) in
/-- `overhead` of `heap_calc_overhead`, as the exact quotient. -/
def exactOverhead (size align : Nat) : Nat := size * bookkeeping a / (align + bookkeeping a)

variable (a) in
/-- The start and the length of the table of blocks, the table of nodes, and the data region. -/
def Heap.parts (h : Heap) : List (Nat × Nat) :=
  [(h.blocksAt, h.maxBlocks * sizeofBlock a), (h.nodesAt, h.maxBlocks * sizeofNode a),
    (h.data, h.bytesFree)]

/-- A heap as it should lie in a buffer. -/
structure LaidOut (a : Arch) (buffer size : Nat) (h : Heap) : Prop where
  maxBlocks : 1 ≤ h.maxBlocks
  apart : (h.parts a).Pairwise fun r s => r.1 + r.2 ≤ s.1 ∨ s.1 + s.2 ≤ r.1
  inside : ∀ r ∈ h.parts a, buffer ≤ r.1 ∧ r.1 + r.2 ≤ buffer + size
  aligned : h.data % h.align = 0

/-- `heap_init` returns, and the heap is as it should be if it returns true. -/
def HeapInitSound (a : Arch) (buffer size p2align : Nat) : Prop :=
  ∃ h ok, heapInit a (exactOverhead a size (alignOf p2align)) buffer size p2align = .ok (h, ok) ∧
    (ok = true → LaidOut a buffer size h)

/-- The bytes that align an address. -/
def alignOffset (align address : Nat) : Nat := (align - address % align) % align

/-- The blocks there is room for, and the bytes that are left. -/
def roomFor (a : Arch) (size align : Nat) : Nat := size / (align + bookkeeping a)

def padFor (a : Arch) (size align : Nat) : Nat := size % (align + bookkeeping a)

/-- The bytes that align the data behind the tables of all these blocks. -/
def offsetFor (a : Arch) (buffer size align : Nat) : Nat :=
  alignOffset align (buffer + roomFor a size align * bookkeeping a)

/-- When `heap_init` is sound: there is no room for a block; or there is room to align the data; or one
block less makes room, is not the only one, and the sum that sends the loop back does not wrap. The
loop over the spare nodes ends with less than `2 ^ 32` blocks only. -/
def Placeable (a : Arch) (buffer size align : Nat) : Prop :=
  roomFor a size align = 0 ∨
    (offsetFor a buffer size align ≤ padFor a size align ∧ roomFor a size align < 2 ^ 32) ∨
    (padFor a size align < offsetFor a buffer size align ∧ 2 ≤ roomFor a size align ∧
      roomFor a size align ≤ 2 ^ 32 ∧
      size + roomFor a size align * (align + bookkeeping a) < a.size)

/-! ## The loop -/

/-- The heap with its parts placed for a number of blocks. -/
def Heap.placed (a : Arch) (h : Heap) (num : Nat) : Heap :=
  { h with
    blocksAt := h.raw
    nodesAt := h.raw + num * sizeofBlock a
    data := h.raw + num * bookkeeping a
    bytesUsed := 0
    bytesFree := num * h.align
    maxBlocks := num }

/-- The heap placed for a number of blocks, with the data aligned. -/
def Heap.alignedAt (a : Arch) (h : Heap) (num : Nat) : Heap :=
  { h.placed a num with
    data := h.raw + num * bookkeeping a + alignOffset h.align (h.raw + num * bookkeeping a) }

theorem bookkeeping_eq : bookkeeping a = sizeofNode a + sizeofBlock a := rfl

theorem sizeofNode_pos : 0 < sizeofNode a := by cases a <;> decide

theorem alignOffset_zero {align address : Nat} (h : address % align = 0) :
    alignOffset align address = 0 := by
  rw [alignOffset, h, Nat.sub_zero, Nat.mod_self]

theorem alignOffset_of_ne {align address : Nat} (hpos : 0 < align) (h : address % align ≠ 0) :
    alignOffset align address = align - address % align := by
  rw [alignOffset, Nat.mod_eq_of_lt (by omega)]

theorem alignOffset_lt {align address : Nat} (hpos : 0 < align) : alignOffset align address < align :=
  Nat.mod_lt _ hpos

theorem alignOffset_aligned {align address : Nat} (hpos : 0 < align) :
    (address + alignOffset align address) % align = 0 := by
  by_cases h : address % align = 0
  · rw [alignOffset_zero h, Nat.add_zero, h]
  · rw [alignOffset_of_ne hpos h]
    have hlt := Nat.mod_lt address hpos
    have hdiv := Nat.div_add_mod address align
    have hsum : address + (align - address % align) = align * (address / align + 1) := by
      rw [Nat.mul_succ]
      omega
    rw [hsum, Nat.mul_mod_right]

/-- One round with a number of blocks there is room for. -/
theorem heapCalcLoop_eq (fuel : Nat) (halign : 0 < h.align) (hnum : 0 < num)
    (hroom : num * (h.align + bookkeeping a) ≤ h.bytesTotal)
    (hspace : h.raw + h.bytesTotal ≤ a.size) (hraw : 0 < h.raw) :
    heapCalcLoop a (fuel + 1) h num =
      if alignOffset h.align (h.raw + num * bookkeeping a) ≤
          h.bytesTotal - num * (h.align + bookkeeping a) then
        .ok (h.alignedAt a num, true)
      else if h.bytesTotal + num * (h.align + bookkeeping a) < a.size then
        heapCalcLoop a fuel (h.placed a num) (num - 1)
      else .ok (h.placed a num, true) := by
  have hsum : num * (h.align + bookkeeping a) = num * h.align + num * bookkeeping a :=
    Nat.mul_add _ _ _
  have hbook : num * bookkeeping a = num * sizeofNode a + num * sizeofBlock a := by
    rw [bookkeeping_eq, Nat.mul_add]
  have hbytes : num ≤ num * h.align := Nat.le_mul_of_pos_right num halign
  -- the numbers of the round are exact, as all of them are in the buffer
  have hoverhead : a.mul num (bookkeeping a) = num * bookkeeping a := Arch.mul_of_lt (by omega)
  have hdata : a.mul num h.align = num * h.align := Arch.mul_of_lt (by omega)
  have hblocks : a.mul num (sizeofBlock a) = num * sizeofBlock a := Arch.mul_of_lt (by omega)
  have hpad : a.sub (a.sub h.bytesTotal (num * h.align)) (num * bookkeeping a) =
      h.bytesTotal - num * (h.align + bookkeeping a) := by
    have hfirst : a.sub h.bytesTotal (num * h.align) = h.bytesTotal - num * h.align :=
      Arch.sub_of_le (by omega) (by omega)
    rw [hfirst, Arch.sub_of_le (by omega) (by omega)]
    omega
  -- the test of the loop compares the size with itself
  have hall : a.add (a.add (h.bytesTotal - num * (h.align + bookkeeping a)) (num * h.align))
      (num * bookkeeping a) = h.bytesTotal := by
    have hfirst : a.add (h.bytesTotal - num * (h.align + bookkeeping a)) (num * h.align) =
        h.bytesTotal - num * bookkeeping a := by
      rw [Arch.add_of_lt (by omega)]
      omega
    rw [hfirst, Arch.add_of_lt (by omega)]
    omega
  have hstart : a.add h.raw (num * bookkeeping a) = h.raw + num * bookkeeping a :=
    Arch.add_of_lt (by omega)
  have hnodes : a.add h.raw (num * sizeofBlock a) = h.raw + num * sizeofBlock a :=
    Arch.add_of_lt (by omega)
  rw [heapCalcLoop]
  simp only [hoverhead, hdata, hblocks, hpad, hall, hstart, hnodes, ge_iff_le, Nat.le_refl, if_true,
    ptrIsAligned, decide_eq_false_iff_not, Nat.lt_irrefl, if_false]
  by_cases haligned : (h.raw + num * bookkeeping a) % h.align = 0
  · -- aligned at once
    rw [if_neg (not_not.mpr haligned), Heap.alignedAt, alignOffset_zero haligned,
      if_pos (Nat.zero_le _)]
    rfl
  · rw [if_pos haligned, ← alignOffset_of_ne halign haligned]
    by_cases hfits : alignOffset h.align (h.raw + num * bookkeeping a) ≤
        h.bytesTotal - num * (h.align + bookkeeping a)
    · rw [if_neg (by omega), if_pos hfits, Arch.add_of_lt (by omega)]
      rfl
    · -- one block less, unless the sum of the condition wraps
      rw [if_pos (by omega), if_neg hfits, Arch.sub_of_le hnum (by omega)]
      by_cases hwraps : h.bytesTotal + num * (h.align + bookkeeping a) < a.size
      · have hcond : a.add (a.add h.bytesTotal (num * h.align)) (num * bookkeeping a) =
            h.bytesTotal + num * (h.align + bookkeeping a) := by
          have hfirst : a.add h.bytesTotal (num * h.align) = h.bytesTotal + num * h.align :=
            Arch.add_of_lt (by omega)
          rw [hfirst, Arch.add_of_lt (by omega)]
          omega
        rw [hcond, if_pos (by omega), if_pos hwraps]
        rfl
      · have hcond : a.add (a.add h.bytesTotal (num * h.align)) (num * bookkeeping a) =
            h.bytesTotal + num * (h.align + bookkeeping a) - a.size := by
          rw [Arch.add, Arch.add, Nat.mod_add_mod, Nat.add_assoc, ← hsum, Nat.mod_eq_sub_mod (by omega),
            Nat.mod_eq_of_lt (by omega)]
        rw [hcond, if_neg (by omega), if_neg hwraps]
        rfl

/-- The round with no block returns. -/
theorem heapCalcLoop_zero {fuel : Nat} (hspace : h.bytesTotal < a.size) :
    ∃ h', heapCalcLoop a (fuel + 1) h 0 = .ok (h', true) ∧ h'.maxBlocks = 0 := by
  have hmul (k : Nat) : a.mul 0 k = 0 := by rw [Arch.mul_of_lt (by omega), Nat.zero_mul]
  have hsub : a.sub (a.sub h.bytesTotal 0) 0 = h.bytesTotal := by
    rw [Arch.sub_of_le (m := h.bytesTotal) (Nat.zero_le _) hspace, Nat.sub_zero,
      Arch.sub_of_le (Nat.zero_le _) hspace, Nat.sub_zero]
  have hadd : a.add (a.add h.bytesTotal 0) 0 = h.bytesTotal := by
    rw [Arch.add_of_lt (m := h.bytesTotal) (by omega), Arch.add_of_lt (by omega)]
    rfl
  rw [heapCalcLoop]
  simp only [hmul, hsub, hadd, ge_iff_le, Nat.le_refl, if_true, Nat.lt_irrefl, if_false]
  split_ifs
  all_goals exact ⟨_, rfl, rfl⟩

/-! ## The whole of `heap_calc_overhead` -/

/-- The blocks of the exact quotient are those there is room for. -/
theorem exactOverhead_div {align : Nat} :
    exactOverhead a size align / bookkeeping a = roomFor a size align := by
  have hpos : 0 < bookkeeping a := Nat.add_pos_left sizeofNode_pos _
  rw [exactOverhead, Nat.div_div_eq_div_mul, Nat.mul_div_mul_right _ _ hpos, roomFor]

/-- Without room for a block, nothing is placed. -/
theorem heapCalcOverhead_none (hnum : roomFor a h.bytesTotal h.align = 0) :
    heapCalcOverhead a (exactOverhead a h.bytesTotal h.align) h = .ok (h, false) := by
  rw [heapCalcOverhead, exactOverhead_div, if_pos hnum]

section

variable (halign : 0 < h.align) (hraw : 0 < h.raw) (hspace : h.raw + h.bytesTotal ≤ a.size)
  (hnum : 0 < roomFor a h.bytesTotal h.align)

include halign hraw hspace hnum

/-- The first round, with all blocks there is room for. -/
theorem heapCalcOverhead_eq :
    heapCalcOverhead a (exactOverhead a h.bytesTotal h.align) h =
      if offsetFor a h.raw h.bytesTotal h.align ≤ padFor a h.bytesTotal h.align then
        .ok (h.alignedAt a (roomFor a h.bytesTotal h.align), true)
      else if h.bytesTotal + roomFor a h.bytesTotal h.align * (h.align + bookkeeping a) < a.size then
        heapCalcLoop a a.size (h.placed a (roomFor a h.bytesTotal h.align))
          (roomFor a h.bytesTotal h.align - 1)
      else .ok (h.placed a (roomFor a h.bytesTotal h.align), true) := by
  have hroom : roomFor a h.bytesTotal h.align * (h.align + bookkeeping a) ≤ h.bytesTotal :=
    Nat.div_mul_le_self _ _
  have hpad : h.bytesTotal - roomFor a h.bytesTotal h.align * (h.align + bookkeeping a) =
      padFor a h.bytesTotal h.align := by
    rw [padFor, Nat.mod_eq_sub_div_mul, roomFor]
  rw [heapCalcOverhead, exactOverhead_div, if_neg (Nat.ne_of_gt hnum),
    heapCalcLoop_eq _ halign hnum hroom hspace hraw, hpad, offsetFor]

/-- The second round, with one block less, has room to align the data. -/
theorem heapCalcOverhead_less
    (hpad : padFor a h.bytesTotal h.align < offsetFor a h.raw h.bytesTotal h.align)
    (hwraps : h.bytesTotal + roomFor a h.bytesTotal h.align * (h.align + bookkeeping a) < a.size)
    (htwo : 2 ≤ roomFor a h.bytesTotal h.align) :
    (roomFor a h.bytesTotal h.align - 1) * (h.align + bookkeeping a) +
        alignOffset h.align (h.raw + (roomFor a h.bytesTotal h.align - 1) * bookkeeping a) ≤
      h.bytesTotal ∧
    heapCalcOverhead a (exactOverhead a h.bytesTotal h.align) h =
      .ok (h.alignedAt a (roomFor a h.bytesTotal h.align - 1), true) := by
  rw [heapCalcOverhead_eq halign hraw hspace hnum, if_neg (Nat.not_le.mpr hpad), if_pos hwraps]
  have hroom : roomFor a h.bytesTotal h.align * (h.align + bookkeeping a) ≤ h.bytesTotal :=
    Nat.div_mul_le_self _ _
  generalize roomFor a h.bytesTotal h.align = num at *
  have hless : (num - 1) * (h.align + bookkeeping a) + (h.align + bookkeeping a) =
      num * (h.align + bookkeeping a) := by
    rw [← Nat.succ_mul, Nat.succ_eq_add_one, Nat.sub_add_cancel hnum]
  -- the bytes of the block that is left out are more than the data may need
  have hoffset : alignOffset h.align (h.raw + (num - 1) * bookkeeping a) < h.align :=
    alignOffset_lt halign
  obtain ⟨fuel, hfuel⟩ : ∃ fuel, a.size = fuel + 1 := ⟨a.size - 1, by have := a.size_pos; omega⟩
  have hround := heapCalcLoop_eq fuel (h := h.placed a num) halign (show 0 < num - 1 by omega)
    (show (num - 1) * (h.align + bookkeeping a) ≤ h.bytesTotal by omega) hspace hraw
  refine ⟨by omega, ?_⟩
  rw [hfuel, hround]
  exact if_pos (show alignOffset h.align (h.raw + (num - 1) * bookkeeping a) ≤
    h.bytesTotal - (num - 1) * (h.align + bookkeeping a) by omega)

/-- The second round, when there was one block only, has no block. -/
theorem heapCalcOverhead_last
    (hpad : padFor a h.bytesTotal h.align < offsetFor a h.raw h.bytesTotal h.align)
    (hwraps : h.bytesTotal + roomFor a h.bytesTotal h.align * (h.align + bookkeeping a) < a.size)
    (hone : roomFor a h.bytesTotal h.align = 1) :
    ∃ h', heapCalcOverhead a (exactOverhead a h.bytesTotal h.align) h = .ok (h', true) ∧
      h'.maxBlocks = 0 := by
  rw [heapCalcOverhead_eq halign hraw hspace hnum, if_neg (Nat.not_le.mpr hpad), if_pos hwraps, hone]
  obtain ⟨fuel, hfuel⟩ : ∃ fuel, a.size = fuel + 1 := ⟨a.size - 1, by have := a.size_pos; omega⟩
  rw [hfuel]
  apply heapCalcLoop_zero
  show h.bytesTotal < a.size
  omega

end

/-! ## The parts -/

/-- A heap whose data are aligned lies in the buffer if there is room for its blocks and the bytes that
align the data. -/
theorem laidOut_alignedAt (halign : 0 < h.align) (hnum : 0 < num)
    (hroom : num * (h.align + bookkeeping a) +
      alignOffset h.align (h.raw + num * bookkeeping a) ≤ h.bytesTotal) :
    LaidOut a h.raw h.bytesTotal (h.alignedAt a num) := by
  have hsum : num * (h.align + bookkeeping a) =
      num * h.align + (num * sizeofNode a + num * sizeofBlock a) := by
    rw [bookkeeping_eq, Nat.mul_add, Nat.mul_add]
  have hbook : num * bookkeeping a = num * sizeofNode a + num * sizeofBlock a := by
    rw [bookkeeping_eq, Nat.mul_add]
  refine ⟨hnum, ?_, ?_, alignOffset_aligned halign⟩
  · simp only [Heap.parts, Heap.alignedAt, Heap.placed, List.pairwise_cons, List.mem_cons,
      List.not_mem_nil, or_false, forall_eq_or_imp, forall_eq, List.Pairwise.nil, and_true,
      IsEmpty.forall_iff, implies_true]
    omega
  · intro r hr
    simp only [Heap.parts, Heap.alignedAt, Heap.placed, List.mem_cons, List.not_mem_nil, or_false]
      at hr
    rcases hr with rfl | rfl | rfl
    all_goals
      dsimp only
      omega

/-- What `heap_init` makes of the heap that `heap_calc_overhead` placed. -/
theorem heapInit_of_calc {estimate : Nat} {h₁ : Heap} (hbuffer : buffer ≠ 0) (h4 : buffer % 4 = 0)
    (hcalc : heapCalcOverhead a estimate (heapRaw buffer size (alignOf p2align)) = .ok (h₁, true))
    (hpos : 0 < h₁.maxBlocks) (hmax : h₁.maxBlocks < 2 ^ 32) :
    ∃ h, heapInit a estimate buffer size p2align = .ok (h, true) ∧ h.parts a = h₁.parts a ∧
      h.maxBlocks = h₁.maxBlocks ∧ h.data = h₁.data ∧ h.align = h₁.align := by
  have hset := heapCalcOverhead_calculated hcalc
  obtain ⟨m, sp, n, m', fr, hpop, hread, hn, hpush, -⟩ :=
    firstBlock_pushed hset.used hset.free hpos ⟨h₁.bytesFree, h₁.data⟩
  have haligned : ptrIsAligned buffer 4 = true := decide_eq_true h4
  unfold heapInit
  rw [if_neg hbuffer, if_neg (by rw [haligned]; decide)]
  rw [alignOf] at hcalc
  simp only [hcalc, ok_bind, Bool.true_eq_false, if_false, ge_iff_le, Nat.not_le.mpr hmax, hpop, hread,
    hn, Heap.setBlock, hpush]
  exact ⟨_, rfl, rfl, rfl, rfl, rfl⟩

/-- Without a block, or with too many, `heap_init` does not return. -/
theorem heapInit_breaks {estimate : Nat} {h₁ : Heap} (hbuffer : buffer ≠ 0) (h4 : buffer % 4 = 0)
    (hcalc : heapCalcOverhead a estimate (heapRaw buffer size (alignOf p2align)) = .ok (h₁, true))
    (hmax : h₁.maxBlocks = 0 ∨ 2 ^ 32 ≤ h₁.maxBlocks) :
    ∃ e, heapInit a estimate buffer size p2align = .error e := by
  have haligned : ptrIsAligned buffer 4 = true := decide_eq_true h4
  unfold heapInit
  rw [if_neg hbuffer, if_neg (by rw [haligned]; decide)]
  rw [alignOf] at hcalc
  rcases hmax with hzero | hmany
  · -- the spare list is empty, and its first node is read
    simp only [hcalc, ok_bind, Bool.true_eq_false, if_false, hzero, ge_iff_le]
    exact ⟨_, rfl⟩
  · simp only [hcalc, ok_bind, Bool.true_eq_false, if_false, ge_iff_le, hmany, if_true]
    exact ⟨_, rfl⟩

theorem LaidOut.congr {h₁ : Heap} (hlaid : LaidOut a buffer size h₁) (hparts : h.parts a = h₁.parts a)
    (hmax : h.maxBlocks = h₁.maxBlocks) (hdata : h.data = h₁.data) (halign : h.align = h₁.align) :
    LaidOut a buffer size h where
  maxBlocks := hmax ▸ hlaid.maxBlocks
  apart := hparts ▸ hlaid.apart
  inside := hparts ▸ hlaid.inside
  aligned := by rw [hdata, halign, hlaid.aligned]

section

variable (hbuffer : buffer ≠ 0) (h4 : buffer % 4 = 0)

include hbuffer h4

theorem heapInit_none (hcalc : heapCalcOverhead a (exactOverhead a size (alignOf p2align))
      (heapRaw buffer size (alignOf p2align)) = .ok (h, false)) : HeapInitSound a buffer size p2align := by
  have haligned : ptrIsAligned buffer 4 = true := decide_eq_true h4
  refine ⟨h, false, ?_, fun h => by cases h⟩
  unfold heapInit
  rw [if_neg hbuffer, if_neg (by rw [haligned]; decide)]
  rw [alignOf] at hcalc ⊢
  simp only [hcalc, ok_bind, if_true]
  rfl

/-- For a heap that `heap_calc_overhead` placed, `heap_init` is sound just when its parts lie in the
buffer and its blocks are less than `2 ^ 32`. -/
theorem heapInit_sound_iff {h₁ : Heap}
    (hcalc : heapCalcOverhead a (exactOverhead a size (alignOf p2align))
      (heapRaw buffer size (alignOf p2align)) = .ok (h₁, true)) :
    HeapInitSound a buffer size p2align ↔ LaidOut a buffer size h₁ ∧ h₁.maxBlocks < 2 ^ 32 := by
  by_cases hmax : 0 < h₁.maxBlocks ∧ h₁.maxBlocks < 2 ^ 32
  · obtain ⟨h, hinit, hparts, hblocks, hdata, halign⟩ :=
      heapInit_of_calc hbuffer h4 hcalc hmax.1 hmax.2
    constructor
    · rintro ⟨h', ok, hinit', hlaid⟩
      rw [hinit] at hinit'
      cases hinit'
      exact ⟨(hlaid rfl).congr hparts.symm hblocks.symm hdata.symm halign.symm, hmax.2⟩
    · rintro ⟨hlaid, -⟩
      exact ⟨h, true, hinit, fun _ => hlaid.congr hparts hblocks hdata halign⟩
  · have hbreaks : h₁.maxBlocks = 0 ∨ 2 ^ 32 ≤ h₁.maxBlocks := by omega
    obtain ⟨e, herror⟩ := heapInit_breaks hbuffer h4 hcalc hbreaks
    constructor
    · rintro ⟨h', ok, hinit', -⟩
      rw [herror] at hinit'
      cases hinit'
    · rintro ⟨hlaid, hless⟩
      exact absurd ⟨hlaid.maxBlocks, hless⟩ hmax

end

theorem alignOf_pos : 0 < alignOf p2align := Nat.two_pow_pos _

/-- `heap_init` returns with its parts apart in the buffer just when they can be placed. -/
theorem heapInit_layout_iff (a : Arch) (buffer size p2align : Nat) (hbuffer : buffer ≠ 0)
    (h4 : buffer % 4 = 0) (hspace : buffer + size ≤ a.size) :
    HeapInitSound a buffer size p2align ↔ Placeable a buffer size (alignOf p2align) := by
  have hraw : 0 < (heapRaw buffer size (alignOf p2align)).raw := Nat.pos_of_ne_zero hbuffer
  have halign : 0 < (heapRaw buffer size (alignOf p2align)).align := alignOf_pos
  rw [Placeable]
  rcases Nat.eq_zero_or_pos (roomFor a size (alignOf p2align)) with hzero | hnum
  · -- no room, and nothing is placed
    have hsound := heapInit_none hbuffer h4
      (heapCalcOverhead_none (h := heapRaw buffer size (alignOf p2align)) hzero)
    exact iff_of_true hsound (.inl hzero)
  have hround := heapCalcOverhead_eq halign hraw hspace hnum
  have hroom : roomFor a size (alignOf p2align) * (alignOf p2align + bookkeeping a) ≤ size :=
    Nat.div_mul_le_self _ _
  have hpadEq : padFor a size (alignOf p2align) =
      size - roomFor a size (alignOf p2align) * (alignOf p2align + bookkeeping a) := by
    rw [padFor, Nat.mod_eq_sub_div_mul, roomFor]
  -- the cases of the first round: its padding is enough, or a block has to go
  rcases Nat.lt_or_ge (padFor a size (alignOf p2align)) (offsetFor a buffer size (alignOf p2align))
    with hpad | hpad
  · by_cases hwraps : size + roomFor a size (alignOf p2align) * (alignOf p2align + bookkeeping a) < a.size
    · rcases Nat.lt_or_ge (roomFor a size (alignOf p2align)) 2 with hone | htwo
      · -- the only block is taken away
        obtain ⟨h₁, hcalc, hmax⟩ := heapCalcOverhead_last halign hraw hspace hnum hpad hwraps
          (show roomFor a size (alignOf p2align) = 1 by omega)
        apply Iff.trans (heapInit_sound_iff hbuffer h4 hcalc)
        refine iff_of_false (fun h => ?_) (by omega)
        have hpos := h.1.maxBlocks
        omega
      · -- one block less
        obtain ⟨hfits, hcalc⟩ := heapCalcOverhead_less halign hraw hspace hnum hpad hwraps htwo
        apply Iff.trans (heapInit_sound_iff hbuffer h4 hcalc)
        have hlaid : LaidOut a buffer size _ :=
          laidOut_alignedAt halign (show 0 < roomFor a size (alignOf p2align) - 1 by omega) hfits
        constructor
        · rintro ⟨-, hmax⟩
          have hless : roomFor a size (alignOf p2align) - 1 < 2 ^ 32 := hmax
          omega
        · intro h
          exact ⟨hlaid, show roomFor a size (alignOf p2align) - 1 < 2 ^ 32 by omega⟩
    · -- the loop ends with the data as they are
      have hcalc := hround.trans ((if_neg (Nat.not_le.mpr hpad)).trans (if_neg hwraps))
      apply Iff.trans (heapInit_sound_iff hbuffer h4 hcalc)
      refine iff_of_false (fun h => ?_) (by omega)
      have haligned : (buffer + roomFor a size (alignOf p2align) * bookkeeping a) %
          alignOf p2align = 0 := h.1.aligned
      rw [offsetFor, alignOffset_zero haligned] at hpad
      exact absurd hpad (Nat.not_lt_zero _)
  · -- all blocks are placed
    have hcalc := hround.trans (if_pos hpad)
    apply Iff.trans (heapInit_sound_iff hbuffer h4 hcalc)
    have hlaid : LaidOut a buffer size _ := laidOut_alignedAt halign hnum
      (show _ + offsetFor a buffer size (alignOf p2align) ≤ size by
        rw [heapRaw]
        dsimp only
        omega)
    constructor
    · rintro ⟨-, hmax⟩
      exact .inr (.inl ⟨hpad, hmax⟩)
    · intro h
      refine ⟨hlaid, show roomFor a size (alignOf p2align) < 2 ^ 32 from ?_⟩
      omega

/-- Without a byte to align the data of 1001 blocks, 1000 are placed. -/
theorem heapInit_layout_iff_thousand : HeapInitSound .arch64 4096 72072 5 :=
  (heapInit_layout_iff .arch64 4096 72072 5 (by decide) (by decide) (by decide)).mpr
    (.inr (.inr (by decide)))

/-- Without a byte to align the data of one block, none is placed, and the first node is read. -/
theorem heapInit_reads_null : ¬HeapInitSound .arch64 4096 72 5 := by
  obtain ⟨h₁, hcalc, hmax⟩ := heapCalcOverhead_last (a := .arch64)
    (h := heapRaw 4096 72 (alignOf 5)) alignOf_pos (by decide) (by decide) (by decide) (by decide)
    (by decide) (by decide)
  intro hsound
  have hpos := ((heapInit_sound_iff (by decide) (by decide) hcalc).mp hsound).1.maxBlocks
  omega

end DVP.Sosal
