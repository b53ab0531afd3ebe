import DVP.Sosal.Allocator.Basic
import Mathlib.Algebra.BigOperators.Group.Finset.Basic
import Mathlib.Tactic.IntervalCases

/-!
# Allocations of virtual memory

What a run of `allocator_calloc` leaves. `Filled` says what the arrays hold after the first pointers
have their blocks, and `virtualLoop_eq` takes it through the loop up to any pointer. The strides are
products modulo `2 ^ 32` that are read as signed numbers, so that they are the products of the
dimensions only where these fit (`DimsFit`); a block that is refused ends the loop, and whether the
blocks before it are freed depends on the build.
-/

namespace DVP.Sosal

variable {a : Arch} {build : AllocatorBuild} {answer : Nat → MemAnswer} {args : CallocArgs}
  {s s' : Calloc} {dims : Nat → BitVec 32} {p k n ndims : Nat}

/-! ## Products -/

/-- `size` after the first `n` dimensions. -/
def virtualSize (dims : Nat → BitVec 32) : Nat → BitVec 32
  | 0 => 1
  | n + 1 => virtualSize dims n * dims n

/-- The product of the first `n` dimensions, as an integer. -/
def exactSize (dims : Nat → BitVec 32) (n : Nat) : Int := ∏ i ∈ Finset.range n, (dims i).toInt

/-- The exact size is a product. -/
theorem exactSize_succ : exactSize dims (n + 1) = exactSize dims n * (dims n).toInt :=
  Finset.prod_range_succ _ _

variable {strides : Nat → BitVec 32}

/-- A round multiplies the size and notes it as a stride. -/
theorem dimensionLoop_succ : dimensionLoop dims (n + 1) strides =
    ((dimensionLoop dims n strides).1 * dims n,
      Function.update (dimensionLoop dims n strides).2 n
        ((dimensionLoop dims n strides).1 * dims n)) := by
  simp [dimensionLoop, List.range_succ]

/-- The loop leaves the size. -/
theorem dimensionLoop_size : (dimensionLoop dims n strides).1 = virtualSize dims n := by
  induction n with
  | zero => rfl
  | succ n ih => rw [dimensionLoop_succ, ih, virtualSize]

/-- The strides are the sizes of fewer dimensions. -/
theorem dimensionLoop_strides {i : Nat} (hi : i < n) :
    (dimensionLoop dims n strides).2 i = virtualSize dims (i + 1) := by
  induction n with
  | zero => exact absurd hi (Nat.not_lt_zero _)
  | succ n ih =>
    rw [dimensionLoop_succ, dimensionLoop_size]
    by_cases hin : i = n
    · subst hin
      exact Function.update_self ..
    · exact (Function.update_of_ne hin ..).trans (ih (by omega))

/-- The size is the product of the dimensions, but modulo `2 ^ 32`. -/
theorem virtualSize_toInt : (virtualSize dims n).toInt = (exactSize dims n).bmod (2 ^ 32) := by
  induction n with
  | zero =>
    simp only [exactSize, Finset.range_zero, Finset.prod_empty]
    rfl
  | succ n ih => rw [virtualSize, BitVec.toInt_mul, ih, exactSize_succ, Int.bmod_mul_bmod]

/-- An `int32_t` can hold the number. -/
def FitsInt32 (i : Int) : Prop := -2 ^ 31 ≤ i ∧ i < 2 ^ 31

instance (i : Int) : Decidable (FitsInt32 i) := inferInstanceAs (Decidable (_ ∧ _))

/-- The size that is computed is exact when 32 bits hold it. -/
theorem virtualSize_exact :
    (virtualSize dims n).toInt = exactSize dims n ↔ FitsInt32 (exactSize dims n) := by
  rw [virtualSize_toInt, FitsInt32]
  constructor
  · intro h
    have hlo := Int.le_bmod (x := exactSize dims n) (m := 2 ^ 32) (by decide)
    have hhi := Int.bmod_lt (x := exactSize dims n) (m := 2 ^ 32) (by decide)
    omega
  · rintro ⟨hlo, hhi⟩
    exact Int.bmod_eq_of_le (by omega) (by omega)

/-! ## Pages -/

/-- The size is rounded up to pages, with 32 bits. -/
theorem allocatorPageAlignSize_eq {size : Nat} :
    allocatorPageAlignSize a size % 2 ^ 32 = (size + 4095) / 4096 * 4096 % 2 ^ 32 := by
  have hand : size &&& (sosalPageSize - 1) = size % 4096 := Nat.and_two_pow_sub_one_eq_mod size 12
  have hdvd : 2 ^ 32 ∣ a.size := by cases a <;> decide
  simp only [allocatorPageAlignSize, hand]
  simp only [sosalPageSize, Arch.add]
  split
  · rw [Nat.mod_mod_of_dvd _ hdvd]
    congr 1
    omega
  · congr 1
    omega

/-- The size that is mapped is rounded up to pages. -/
theorem virtualRsize_toNat (a : Arch) (size : BitVec 32) :
    (virtualRsize a size).toNat = (size.toNat + 4095) / 4096 * 4096 % 2 ^ 32 := by
  rw [virtualRsize, BitVec.toNat_ofNat, allocatorPageAlignSize_eq]

/-- The size in pages is a whole number of them. -/
theorem sosalPageSize_dvd_virtualRsize (a : Arch) (size : BitVec 32) :
    sosalPageSize ∣ (virtualRsize a size).toNat := by
  rw [virtualRsize_toNat, sosalPageSize]
  omega

/-- The size in pages is not below the size, unless it wraps to zero. -/
theorem le_virtualRsize_iff (size : BitVec 32) :
    size.toNat ≤ (virtualRsize a size).toNat ↔ size.toNat ≤ 2 ^ 32 - sosalPageSize := by
  have hlt := size.isLt
  rw [virtualRsize_toNat, sosalPageSize]
  omega

/-! ## The loop -/

/-- The bytes that are asked for. -/
def virtualBytes (a : Arch) (build : AllocatorBuild) (size : BitVec 32) : Nat :=
  if build = .plain then size.toNat else (virtualRsize a size).toNat

/-- `size` for a pointer. -/
def CallocArgs.size (args : CallocArgs) (p : Nat) : BitVec 32 :=
  virtualSize (args.dimsAt p) args.ndims.toNat

/-- The arrays after the first `p` pointers have their blocks. -/
structure Filled (a : Arch) (build : AllocatorBuild) (answer : Nat → MemAnswer) (args : CallocArgs)
    (p : Nat) (s : Calloc) : Prop where
  ptrs : ∀ q < p, s.ptrs q = (answer q).pointer
  strides : ∀ q < p, ∀ n < args.ndims.toNat, s.strides q n = virtualSize (args.dimsAt q) (n + 1)
  granted : ∀ q < p, s.granted q = virtualBytes a build (args.size q)

/-- The arrays after a round that had `ptr` for its pointer. -/
def Calloc.round (s : Calloc) (args : CallocArgs) (p ptr : Nat) (granted : Nat → Nat) : Calloc where
  ptrs := Function.update s.ptrs p ptr
  strides := Function.update s.strides p
    (dimensionLoop (args.dimsAt p) args.ndims.toNat (s.strides p)).2
  freed := s.freed
  granted := granted

/-- A round notes its pointer. -/
theorem Calloc.round_ptrs_self {ptr : Nat} {granted : Nat → Nat} :
    (s.round args p ptr granted).ptrs p = ptr := Function.update_self ..

/-- The arrays after a round where the system gave a block. -/
def Calloc.next (s : Calloc) (a : Arch) (build : AllocatorBuild) (answer : Nat → MemAnswer)
    (args : CallocArgs) (p : Nat) : Calloc :=
  s.round args p (answer p).pointer
    (Function.update s.granted p (virtualBytes a build (args.size p)))

/-- A round that gets memory goes on. -/
theorem virtualRound_ok (a : Arch) (build : AllocatorBuild) (args : CallocArgs) (s : Calloc)
    (h : (answer p).pointer ≠ 0) :
    virtualRound a build answer args s p = .ok (s.next a build answer args p) := by
  unfold virtualRound
  cases hanswer : answer p with
  | address ptr =>
    rw [hanswer] at h
    have hptr : ptr ≠ 0 := h
    cases build <;>
      simp [Calloc.receive, Calloc.next, Calloc.round, hanswer, MemAnswer.pointer, hptr, virtualBytes,
        dimensionLoop_size, CallocArgs.size]
  | enomem =>
    rw [hanswer] at h
    exact absurd rfl h
  | einval =>
    rw [hanswer] at h
    exact absurd rfl h

/-- A block was refused by a `NULL` pointer, or by an error of `posix_memalign`. -/
theorem null_or_error (build : AllocatorBuild) (h : (answer p).pointer = 0) :
    (build = .posix → answer p = .address 0) ∨
      build = .posix ∧ (answer p = .enomem ∨ answer p = .einval) ∧ answer p ≠ .address 0 := by
  cases hanswer : answer p with
  | address ptr =>
    rw [hanswer] at h
    exact .inl fun _ => congrArg MemAnswer.address h
  | enomem =>
    by_cases hbuild : build = .posix
    · exact .inr ⟨hbuild, .inl rfl, by simp⟩
    · exact .inl fun hposix => absurd hposix hbuild
  | einval =>
    by_cases hbuild : build = .posix
    · exact .inr ⟨hbuild, .inr rfl, by simp⟩
    · exact .inl fun hposix => absurd hposix hbuild

/-- Where `posix_memalign` fails, nothing is freed. -/
theorem virtualRound_posix (h : answer p = .enomem ∨ answer p = .einval) :
    virtualRound a .posix answer args s p = .error (s.round args p 0 s.granted) := by
  rcases h with h | h <;> simp only [virtualRound, h, Calloc.round]

/-- Where the pointer is `NULL`, the blocks before it are freed. -/
theorem virtualRound_null (a : Arch) (args : CallocArgs) (s : Calloc)
    (h : (answer p).pointer = 0) (hbuild : build = .posix → answer p = .address 0) :
    ∃ granted, virtualRound a build answer args s p =
      .error ((s.round args p 0 granted).unwind p) := by
  refine ⟨Function.update s.granted p (virtualBytes a build (args.size p)), ?_⟩
  cases build with
  | posix =>
    simp [virtualRound, hbuild rfl, Calloc.receive, MemAnswer.pointer, Calloc.round, virtualBytes,
      dimensionLoop_size, CallocArgs.size]
  | android =>
    simp [virtualRound, h, Calloc.receive, Calloc.round, virtualBytes, dimensionLoop_size,
      CallocArgs.size]
  | plain =>
    simp [virtualRound, h, Calloc.receive, Calloc.round, virtualBytes, dimensionLoop_size,
      CallocArgs.size]

/-- A round fills the next pointer. -/
theorem Filled.next (h : Filled a build answer args p s) :
    Filled a build answer args (p + 1) (s.next a build answer args p) where
  ptrs := by
    intro q hq
    by_cases hqp : q = p
    · subst hqp
      exact Function.update_self ..
    · exact (Function.update_of_ne hqp ..).trans (h.ptrs q (by omega))
  strides := by
    intro q hq n hn
    simp only [Calloc.next, Calloc.round]
    by_cases hqp : q = p
    · subst hqp
      rw [Function.update_self, dimensionLoop_strides hn]
    · rw [Function.update_of_ne hqp, h.strides q (by omega) n hn]
  granted := by
    intro q hq
    by_cases hqp : q = p
    · subst hqp
      exact Function.update_self ..
    · exact (Function.update_of_ne hqp ..).trans (h.granted q (by omega))

/-- The loop goes through the pointers that get their blocks. -/
theorem virtualLoop_eq (left : Nat) {m : Nat} (hfilled : Filled a build answer args p s)
    (h : ∀ q, p ≤ q → q < p + m → (answer q).pointer ≠ 0) :
    ∃ s', Filled a build answer args (p + m) s' ∧ s'.freed = s.freed ∧
      virtualLoop a build answer args (m + left) p s =
        virtualLoop a build answer args left (p + m) s' := by
  -- by induction on the rounds, for the arrays after any number of them
  induction m generalizing p s with
  | zero => exact ⟨s, hfilled, rfl, by rw [Nat.zero_add]; rfl⟩
  | succ m ih =>
    have hround := virtualRound_ok a build args s
      (h p (Nat.le_refl _) (by omega))
    obtain ⟨s', hs', hfreed, hloop⟩ := ih hfilled.next fun q hq hqm => h q (by omega) (by omega)
    refine ⟨s', ?_, hfreed, ?_⟩
    · rw [show p + (m + 1) = p + 1 + m by omega]
      exact hs'
    · rw [show m + 1 + left = m + left + 1 by omega, show p + (m + 1) = p + 1 + m by omega,
        virtualLoop, hround]
      exact hloop

/-- A round that goes on had its block. -/
theorem pointer_ne_of_virtualRound (h : virtualRound a build answer args s p = .ok s') :
    (answer p).pointer ≠ 0 := by
  intro hnull
  -- both ways to refuse a block end the loop
  rcases null_or_error build hnull with hbuild | ⟨rfl, herror, -⟩
  · obtain ⟨granted, hround⟩ := virtualRound_null a args s hnull hbuild
    rw [hround] at h
    cases h
  · rw [virtualRound_posix herror] at h
    cases h

/-- The loop fills all pointers. -/
theorem virtualLoop_filled {left : Nat} (hfilled : Filled a build answer args p s)
    (h : virtualLoop a build answer args left p s = (true, s')) :
    Filled a build answer args (p + left) s' := by
  induction left generalizing p s with
  | zero =>
    cases h
    exact hfilled
  | succ left ih =>
    rw [virtualLoop] at h
    cases hround : virtualRound a build answer args s p with
    | error s'' =>
      rw [hround] at h
      cases h
    | ok s'' =>
      have hnext := virtualRound_ok a build args s
        (pointer_ne_of_virtualRound hround)
      rw [hnext] at h
      rw [show p + (left + 1) = p + 1 + left by omega]
      exact ih hfilled.next h

/-- No pointer is filled at the start. -/
theorem Filled.start : Filled a build answer args 0 s where
  ptrs := fun q hq => absurd hq (Nat.not_lt_zero q)
  strides := fun q hq => absurd hq (Nat.not_lt_zero q)
  granted := fun q hq => absurd hq (Nat.not_lt_zero q)

/-- The arguments `allocator_calloc` does not refuse. -/
structure CallocArgs.Valid (args : CallocArgs) : Prop where
  alloc : args.alloc ≠ 0
  nptrs : 0 < args.nptrs
  ndims : 0 < args.ndims
  dims : args.dims ≠ 0
  ptrs : args.ptrs ≠ 0

/-- With valid arguments the function is its loop. -/
theorem allocatorCalloc_eq (h : args.Valid) : allocatorCalloc a build answer args s =
    virtualLoop a build answer args args.nptrs.toNat 0 s := by
  have hn := h.nptrs
  have hd := h.ndims
  rw [allocatorCalloc, if_neg]
  simp only [h.alloc, h.dims, h.ptrs, false_or, or_false, not_or]
  omega

/-- A call that returned true went through all pointers. -/
theorem allocatorCalloc_filled (h : (allocatorCalloc a build answer args s).1 = true) :
    Filled a build answer args args.nptrs.toNat (allocatorCalloc a build answer args s).2 := by
  unfold allocatorCalloc at h ⊢
  split
  · rename_i hrefused
    rw [if_pos hrefused] at h
    cases h
  · rename_i hrefused
    rw [if_neg hrefused] at h
    have hloop : Filled a build answer args (0 + args.nptrs.toNat)
        (virtualLoop a build answer args args.nptrs.toNat 0 s).2 :=
      virtualLoop_filled .start (Prod.ext h rfl)
    rwa [Nat.zero_add] at hloop

/-! ## Large enough -/

/-- The blocks can hold what their dimensions say: no block is smaller than the product of the
dimensions, the strides are the products of the first dimensions, and the size in pages is a number
of whole pages that is not below the size. -/
structure LargeEnough (a : Arch) (args : CallocArgs) (s : Calloc) : Prop where
  granted : ∀ p < args.nptrs.toNat, exactSize (args.dimsAt p) args.ndims.toNat ≤ s.granted p
  strides : ∀ p < args.nptrs.toNat, ∀ n < args.ndims.toNat,
    (s.strides p n).toInt = exactSize (args.dimsAt p) (n + 1)
  pages : ∀ p < args.nptrs.toNat, sosalPageSize ∣ (virtualRsize a (args.size p)).toNat ∧
    (args.size p).toNat ≤ (virtualRsize a (args.size p)).toNat

/-- The products of the first dimensions fit an `int32_t`, and the last of them is not one of the
negative numbers whose pages wrap to none. -/
structure DimsFit (dims : Nat → BitVec 32) (ndims : Nat) : Prop where
  fits : ∀ n < ndims, FitsInt32 (exactSize dims (n + 1))
  pages : 0 ≤ exactSize dims ndims ∨ exactSize dims ndims ≤ -(sosalPageSize : Int)

/-- The bits of a product that fits. -/
theorem toNat_virtualSize (h : FitsInt32 (exactSize dims n)) : ((virtualSize dims n).toNat : Int) =
    if 0 ≤ exactSize dims n then exactSize dims n else exactSize dims n + 2 ^ 32 := by
  have hexact := virtualSize_exact.mpr h
  have hlt := (virtualSize dims n).isLt
  -- the sign of the product is the highest bit of the size
  rw [← hexact, BitVec.toInt]
  split <;> split <;> omega

/-- For a product that fits, the size in pages is not below the size unless the product is one of the
last negative numbers. -/
theorem le_virtualRsize_exact (a : Arch) (h : FitsInt32 (exactSize dims n)) :
    (virtualSize dims n).toNat ≤ (virtualRsize a (virtualSize dims n)).toNat ↔
      0 ≤ exactSize dims n ∨ exactSize dims n ≤ -(sosalPageSize : Int) := by
  have hsize := toNat_virtualSize h
  rw [FitsInt32] at h
  rw [le_virtualRsize_iff, sosalPageSize]
  split at hsize <;> omega

/-- The bytes that are asked for are not below the size, and the size is not below the product. -/
theorem exactSize_le_virtualBytes (a : Arch) (build : AllocatorBuild)
    (h : FitsInt32 (exactSize dims n))
    (hpages : (virtualSize dims n).toNat ≤ (virtualRsize a (virtualSize dims n)).toNat) :
    exactSize dims n ≤ virtualBytes a build (virtualSize dims n) := by
  have hsize := toNat_virtualSize h
  rw [FitsInt32] at h
  rw [virtualBytes]
  split at hsize <;> split <;> omega

/-- When `allocator_calloc` returns true, the blocks can hold what their dimensions say exactly if
the products of the dimensions of each pointer fit. -/
theorem allocatorCalloc_largeEnough_iff (h : (allocatorCalloc a build answer args s).1 = true) :
    LargeEnough a args (allocatorCalloc a build answer args s).2 ↔
      ∀ p < args.nptrs.toNat, DimsFit (args.dimsAt p) args.ndims.toNat := by
  have hfilled := allocatorCalloc_filled h
  have hndims : 0 < args.ndims.toNat := by
    unfold allocatorCalloc at h
    split at h
    · cases h
    · omega
  obtain ⟨d, hd⟩ : ∃ d, args.ndims.toNat = d + 1 := ⟨args.ndims.toNat - 1, by omega⟩
  -- a stride is exact if its product fits
  have hstrides : ∀ p < args.nptrs.toNat, ∀ n < args.ndims.toNat,
      (((allocatorCalloc a build answer args s).2.strides p n).toInt =
        exactSize (args.dimsAt p) (n + 1) ↔ FitsInt32 (exactSize (args.dimsAt p) (n + 1))) := by
    intro p hp n hn
    rw [hfilled.strides p hp n hn, virtualSize_exact]
  constructor
  · intro hlarge p hp
    have hfits : ∀ n < args.ndims.toNat, FitsInt32 (exactSize (args.dimsAt p) (n + 1)) :=
      fun n hn => (hstrides p hp n hn).mp (hlarge.strides p hp n hn)
    have hlast := hfits d (by omega)
    rw [← hd] at hlast
    exact ⟨hfits, (le_virtualRsize_exact a hlast).mp (hlarge.pages p hp).2⟩
  · intro hfit
    -- the last product is the one the block is for
    have hlast : ∀ p < args.nptrs.toNat,
        FitsInt32 (exactSize (args.dimsAt p) args.ndims.toNat) := by
      intro p hp
      have hlast := (hfit p hp).fits d (by omega)
      rwa [← hd] at hlast
    have hpages : ∀ p < args.nptrs.toNat,
        (args.size p).toNat ≤ (virtualRsize a (args.size p)).toNat :=
      fun p hp => (le_virtualRsize_exact a (hlast p hp)).mpr (hfit p hp).pages
    refine ⟨fun p hp => ?_, fun p hp n hn => (hstrides p hp n hn).mpr ((hfit p hp).fits n hn),
      fun p hp => ⟨sosalPageSize_dvd_virtualRsize a _, hpages p hp⟩⟩
    rw [hfilled.granted p hp]
    exact exactSize_le_virtualBytes a build (hlast p hp) (hpages p hp)

/-- One pointer of two dimensions. -/
def planeArgs (x y : BitVec 32) : CallocArgs :=
  ⟨1, 1, 2, 1, 1, fun _ n => if n = 0 then x else y⟩

/-- Arrays before the call. -/
def emptyCalloc : Calloc := ⟨fun _ => 0, fun _ _ => 0, [], fun _ => 0⟩

/-- An image of 640 by 480 bytes. -/
theorem allocatorCalloc_largeEnough_vga :
    LargeEnough .arch64 (planeArgs 640 480)
      (allocatorCalloc .arch64 .posix (fun _ => .address 4096) (planeArgs 640 480) emptyCalloc).2 := by
  apply (allocatorCalloc_largeEnough_iff (by decide)).mpr
  intro p hp
  refine ⟨?_, .inl ?_⟩
  · show ∀ n < 2, FitsInt32 (exactSize ((planeArgs 640 480).dimsAt p) (n + 1))
    intro n hn
    interval_cases n <;> simp [exactSize, planeArgs, FitsInt32, Finset.prod_range_succ]
  · simp [exactSize, planeArgs, Finset.prod_range_succ]

/-- An image of 65536 lines of 65536 bytes is given a block of no bytes. -/
theorem allocatorCalloc_wraps :
    (allocatorCalloc .arch64 .plain (fun _ => .address 4096) (planeArgs 65536 65536)
        emptyCalloc).1 = true ∧
      ¬ LargeEnough .arch64 (planeArgs 65536 65536)
        (allocatorCalloc .arch64 .plain (fun _ => .address 4096) (planeArgs 65536 65536)
          emptyCalloc).2 := by
  refine ⟨by decide, fun h => ?_⟩
  have hgranted := h.granted 0 (by decide)
  have hexact : exactSize ((planeArgs 65536 65536).dimsAt 0) 2 = 2 ^ 32 := by
    simp [exactSize, planeArgs]
  have hblock : (allocatorCalloc .arch64 .plain (fun _ => .address 4096) (planeArgs 65536 65536)
      emptyCalloc).2.granted 0 = 0 := by decide
  rw [hblock] at hgranted
  exact absurd (hexact.symm.trans_le hgranted) (by decide)

/-! ## All or nothing -/

/-- Unwinding frees the pointers in reverse order. -/
theorem Calloc.unwind_freed : (s.unwind p).freed = s.freed ++ ((List.range p).map s.ptrs).reverse := by
  induction p generalizing s with
  | zero => simp [Calloc.unwind]
  | succ p ih =>
    -- the pointer that is freed first is none of those before it
    have hbefore : (List.range p).map (s.free p).ptrs = (List.range p).map s.ptrs := by
      apply List.map_congr_left
      intro q hq
      have hqp : q < p := List.mem_range.mp hq
      exact Function.update_of_ne (by omega) ..
    rw [Calloc.unwind, ih, hbefore, List.range_succ]
    simp [Calloc.free]

/-- Unwinding sets the pointers to zero. -/
theorem Calloc.unwind_ptrs {q : Nat} : (s.unwind p).ptrs q = if q < p then 0 else s.ptrs q := by
  induction p generalizing s with
  | zero => simp [Calloc.unwind]
  | succ p ih =>
    rw [Calloc.unwind, ih]
    by_cases hqp : q = p
    · subst hqp
      simp [Calloc.free]
    · simp only [Calloc.free, Function.update_of_ne hqp]
      split <;> split <;> first | rfl | omega

/-- Nothing is left of a call whose block `k` was refused: it returns false, each block before `k`
is freed once, and the pointers up to `k` are `NULL`. -/
structure AllOrNothing (answer : Nat → MemAnswer) (k : Nat) (s : Calloc) (r : Bool × Calloc) :
    Prop where
  ret : r.1 = false
  freed : ∃ blocks, blocks.Perm ((List.range k).map fun p => (answer p).pointer) ∧
    r.2.freed = s.freed ++ blocks
  ptrs : ∀ p ≤ k, r.2.ptrs p = 0

/-- The blocks before the one that was refused are freed from the last to the first. -/
theorem Filled.allOrNothing (h : Filled a build answer args k s') (hfreed : s'.freed = s.freed)
    (granted : Nat → Nat) :
    AllOrNothing answer k s (false, (s'.round args k 0 granted).unwind k) := by
  have hblocks : (List.range k).map (s'.round args k 0 granted).ptrs =
      (List.range k).map fun p => (answer p).pointer := by
    apply List.map_congr_left
    intro p hp
    have hpk : p < k := List.mem_range.mp hp
    exact (Function.update_of_ne (by omega) ..).trans (h.ptrs p hpk)
  refine ⟨rfl, ⟨_, List.reverse_perm _, ?_⟩, fun p hp => ?_⟩
  · show ((s'.round args k 0 granted).unwind k).freed = _
    rw [Calloc.unwind_freed, hblocks, Calloc.round, hfreed]
  · show ((s'.round args k 0 granted).unwind k).ptrs p = 0
    rw [Calloc.unwind_ptrs]
    split
    · rfl
    · obtain rfl : p = k := by omega
      exact Calloc.round_ptrs_self

/-- Without freeing, nothing is left only of a call whose first block was refused. -/
theorem allOrNothing_round_iff (hfreed : s'.freed = s.freed) (granted : Nat → Nat) :
    AllOrNothing answer k s (false, s'.round args k 0 granted) ↔ k = 0 := by
  constructor
  · rintro ⟨-, ⟨blocks, hperm, heq⟩, -⟩
    have hlength := hperm.length_eq
    -- no block was freed, so none was given before
    have hnil : blocks = [] := by
      simpa [Calloc.round, hfreed] using heq
    simpa [hnil] using hlength.symm
  · rintro rfl
    refine ⟨rfl, ⟨[], by simp, by simp [Calloc.round, hfreed]⟩, fun p hp => ?_⟩
    obtain rfl : p = 0 := by omega
    exact Calloc.round_ptrs_self

/-- When the block of a pointer is the first that is refused, nothing is left of the call exactly if
the build does not get its memory from `posix_memalign`, or the pointer is the first one, or
`posix_memalign` did not fail but answered `NULL`. -/
theorem allocatorCalloc_allOrNothing_iff (hargs : args.Valid) (hk : k < args.nptrs.toNat)
    (hgiven : ∀ p < k, (answer p).pointer ≠ 0) (hrefused : (answer k).pointer = 0) :
    AllOrNothing answer k s (allocatorCalloc a build answer args s) ↔
      (build = .posix → k = 0 ∨ answer k = .address 0) := by
  obtain ⟨left, hleft⟩ : ∃ left, args.nptrs.toNat = k + (left + 1) :=
    ⟨args.nptrs.toNat - k - 1, by omega⟩
  have hstart : Filled a build answer args 0 s := .start
  obtain ⟨s', hfilled, hfreed, hloop⟩ := virtualLoop_eq (left + 1) (m := k) hstart
    fun p _ hp => hgiven p (by omega)
  rw [Nat.zero_add] at hfilled hloop
  rw [allocatorCalloc_eq hargs, hleft, hloop, virtualLoop]
  rcases null_or_error build hrefused with hbuild | ⟨rfl, herror, hne⟩
  · -- a `NULL` pointer: the blocks before it are freed
    obtain ⟨granted, hround⟩ := virtualRound_null a args s' hrefused hbuild
    rw [hround]
    exact iff_of_true (hfilled.allOrNothing hfreed granted) fun hposix => .inr (hbuild hposix)
  · -- an error of `posix_memalign`: nothing is freed
    rw [virtualRound_posix herror]
    refine (allOrNothing_round_iff hfreed s'.granted).trans ⟨fun hk0 _ => .inl hk0, fun hor => ?_⟩
    exact (hor rfl).resolve_right hne

/-- Three planes. -/
def planesArgs : CallocArgs := ⟨1, 3, 2, 1, 1, fun _ _ => 64⟩

/-- The third block is refused. -/
def refuseThird (p : Nat) : MemAnswer := if p < 2 then .address (4096 * (p + 1)) else .enomem

/-- The third allocation is refused, and the first two are freed. -/
theorem allocatorCalloc_allOrNothing_android :
    AllOrNothing refuseThird 2 emptyCalloc
      (allocatorCalloc .arch32 .android refuseThird planesArgs emptyCalloc) :=
  (allocatorCalloc_allOrNothing_iff ⟨by decide, by decide, by decide, by decide, by decide⟩
    (by decide) (by decide) rfl).mpr (by decide)

/-- Where `posix_memalign` fails for the third plane, the first two are not freed. -/
theorem allocatorCalloc_leaks :
    ¬ AllOrNothing refuseThird 2 emptyCalloc
      (allocatorCalloc .arch64 .posix refuseThird planesArgs emptyCalloc) := by
  rintro ⟨-, -, hptrs⟩
  exact absurd (hptrs 0 (by decide)) (by decide)

end DVP.Sosal
