import DVP.Lib.Bytes
import Mathlib.Tactic.Linarith

/-!
# The tap filter on a frame

The `tap` operation of `libraries/public/imgfilter/imgFilter.c` with one thread, and the arguments
of the bars for several threads. The kernel is any function of a row. It reads from one buffer and
writes into another, both of `size` bytes, a `uint32_t` that the program computes; an access outside
gives `none`.

Rows of one frame may be filtered in any order: `tapRows_eq` has each byte of the result.
-/

namespace DVP.ImgFilter

open Bytes

/-- The bytes from where a pointer points. -/
abbrev Buffer := Nat → UInt8

/-- A filter that computes a row of the output from the row of the input. -/
structure RowKernel where
  run : List UInt8 → List UInt8
  length_run : ∀ row, (run row).length = row.length

/-- `filter_args_t`. The pointers are offsets into the two buffers, and `type`, which the tap filter
does not use, is left out. -/
structure FilterArgs where
  input : Nat
  width : Nat
  height : Nat
  output : Nat
  srcStride : Nat
  dstStride : Nat
  deriving DecidableEq, Repr

/-- The row `y` of a call of the kernel. -/
def tapRow (k : RowKernel) (size : Nat) (input : Buffer) (args : FilterArgs) (y : Nat)
    (output : Buffer) : Option Buffer :=
  let src := args.input + y * args.srcStride
  let dst := args.output + y * args.dstStride
  let n := args.width * 4
  if src + n ≤ size ∧ dst + n ≤ size then
    some (poke output dst (k.run (peek input src n)))
  else none

/-- Rows of calls of the kernel, one after the other. -/
def tapRows (k : RowKernel) (size : Nat) (input : Buffer) (rows : List (FilterArgs × Nat))
    (output : Buffer) : Option Buffer :=
  rows.foldlM (fun output row => tapRow k size input row.1 row.2 output) output

/-- The rows of a call of the kernel, in order. -/
def FilterArgs.rows (args : FilterArgs) : List (FilterArgs × Nat) :=
  (List.range args.height).map fun y => (args, y)

/-- `size` in `main`, for the operation `tap`. -/
def frameSize (width height : Nat) : Nat := width * height % 2 ^ 32 * 4 % 2 ^ 32

/-- `stride` in `main`, for the operation `tap`. -/
def frameStride (width : Nat) : Nat := width * 4 % 2 ^ 32

/-- The arguments with which the kernel is called by one thread. -/
def wholeArgs (width height : Nat) : FilterArgs :=
  { input := 0, width, height, output := 0
    srcStride := frameStride width, dstStride := frameStride width }

/-- `args[i]` for several threads. -/
def barArgs (width height nthreads i : Nat) : FilterArgs :=
  let barHeight := height / nthreads
  let barIndex := i * barHeight % 2 ^ 32
  let offset := barIndex * frameStride width % 2 ^ 32
  { input := offset, width, height := height / nthreads, output := offset
    srcStride := frameStride width, dstStride := frameStride width }

/-- The input buffer after each `fread`, which brings at least one byte and may bring less than a
frame. -/
def inputFrames : Buffer → List (List UInt8) → List Buffer
  | _, [] => []
  | input, bytes :: reads => poke input 0 bytes :: inputFrames (poke input 0 bytes) reads

/-- The frames that one thread writes to the file. -/
def singleFrames (k : RowKernel) (width height : Nat) :
    List Buffer → Buffer → Option (List (List UInt8))
  | [], _ => some []
  | input :: inputs, output => do
    let output ← tapRows k (frameSize width height) input (wholeArgs width height).rows output
    let frames ← singleFrames k width height inputs output
    return peek output 0 (frameSize width height) :: frames

/-! ## Rows of a frame -/

/-- The row `r` of a frame whose rows have `n` bytes is filtered. -/
def frameRow (k : RowKernel) (n : Nat) (input : Buffer) (output : Buffer) (r : Nat) : Buffer :=
  poke output (r * n) (k.run (peek input (r * n) n))

/-- A byte of a row of the filtered frame. -/
def rowByte (k : RowKernel) (n : Nat) (input : Buffer) (r c : Nat) : UInt8 :=
  (k.run (peek input (r * n) n)).getD c 0

section Rows

variable {k : RowKernel} {n size height : Nat} {input output output' : Buffer}
  {rows : List (FilterArgs × Nat)} {args : FilterArgs} {r y c : Nat}

theorem length_run_peek (o : Nat) : (k.run (peek input o n)).length = n := by
  rw [k.length_run, length_peek]

/-- A row leaves the other rows as they are. -/
theorem frameRow_of_ne {r' : Nat} (hc : c < n) (hne : r' ≠ r) :
    frameRow k n input output r' (r * n + c) = output (r * n + c) := by
  -- the rows are apart, whichever comes first
  rcases Nat.lt_or_gt_of_ne hne with hlt | hgt
  · have hle : (r' + 1) * n ≤ r * n := Nat.mul_le_mul_right n hlt
    rw [Nat.succ_mul] at hle
    exact poke_of_ge (by rw [length_run_peek]; omega)
  · have hle : (r + 1) * n ≤ r' * n := Nat.mul_le_mul_right n hgt
    rw [Nat.succ_mul] at hle
    exact poke_of_lt (by omega)

theorem frameRow_self (hc : c < n) :
    frameRow k n input output r (r * n + c) = rowByte k n input r c := by
  have hlength : c < (k.run (peek input (r * n) n)).length := by rwa [length_run_peek]
  rw [frameRow, poke_add hlength, rowByte, List.getD_eq_getElem?_getD,
    List.getElem?_eq_getElem hlength, Option.getD_some]

/-- After rows in any order, those among them are filtered and the others are as before. -/
theorem foldl_frameRow (rs : List Nat) (hc : c < n) :
    rs.foldl (frameRow k n input) output (r * n + c) =
      if r ∈ rs then rowByte k n input r c else output (r * n + c) := by
  induction rs generalizing output with
  | nil => rfl
  | cons r' rs ih =>
    rw [List.foldl_cons, ih]
    by_cases hmem : r ∈ rs
    · rw [if_pos hmem, if_pos (List.mem_cons_of_mem _ hmem)]
    · rw [if_neg hmem]
      by_cases hne : r' = r
      · subst hne
        rw [if_pos List.mem_cons_self, frameRow_self hc]
      · rw [frameRow_of_ne hc hne, if_neg]
        rw [List.mem_cons, not_or]
        exact ⟨fun h => hne h.symm, hmem⟩

/-- The row `y` of a call is the row `r` of the frame. -/
structure IsFrameRow (n height : Nat) (args : FilterArgs) (y r : Nat) : Prop where
  src : args.input + y * args.srcStride = r * n
  dst : args.output + y * args.dstStride = r * n
  width : args.width * 4 = n
  lt : r < height

theorem tapRow_eq (h : IsFrameRow n height args y r) :
    tapRow k (height * n) input args y output = some (frameRow k n input output r) := by
  have hle : (r + 1) * n ≤ height * n := Nat.mul_le_mul_right n h.lt
  rw [Nat.succ_mul] at hle
  simp only [tapRow, h.src, h.dst, h.width]
  rw [if_pos ⟨hle, hle⟩]
  rfl

/-- Rows of a frame, in any order. -/
theorem tapRows_eq {f : FilterArgs × Nat → Nat}
    (h : ∀ row ∈ rows, IsFrameRow n height row.1 row.2 (f row)) :
    tapRows k (height * n) input rows output =
      some ((rows.map f).foldl (frameRow k n input) output) := by
  induction rows generalizing output with
  | nil => rfl
  | cons row rows ih =>
    obtain ⟨hrow, hrows⟩ := List.forall_mem_cons.mp h
    rw [tapRows, List.foldlM_cons, tapRow_eq hrow]
    exact ih hrows

/-- Rows that are filtered lie inside the buffers. -/
theorem tapRows_inside (h : tapRows k size input rows output = some output')
    (hmem : (args, y) ∈ rows) : args.input + y * args.srcStride + args.width * 4 ≤ size := by
  induction rows generalizing output with
  | nil => exact absurd hmem List.not_mem_nil
  | cons row rows ih =>
    rw [tapRows, List.foldlM_cons] at h
    cases hrow : tapRow k size input row.1 row.2 output with
    | none =>
      rw [hrow] at h
      cases h
    | some output₁ =>
      rw [hrow] at h
      rcases List.mem_cons.mp hmem with rfl | hmem
      · rw [tapRow] at hrow
        split at hrow
        case isTrue hin => exact hin.1
        case isFalse => cases hrow
      · exact ih h hmem

end Rows

/-! ## Frames that fit -/

section Frames

variable {k : RowKernel} {width height : Nat} {input output output' : Buffer}

theorem frameSize_eq_mod : frameSize width height = width * 4 * height % 2 ^ 32 := by
  rw [frameSize, Nat.mod_mul_mod, Nat.mul_right_comm]

/-- The bytes of the frame can be counted by a `uint32_t`. -/
theorem frameSize_eq (hfits : width * 4 * height < 2 ^ 32) :
    frameSize width height = height * (width * 4) := by
  rw [frameSize_eq_mod, Nat.mod_eq_of_lt hfits, Nat.mul_comm]

theorem frameStride_eq (hfits : width * 4 * height < 2 ^ 32) (hpos : 0 < height) :
    frameStride width = width * 4 := by
  have hle := Nat.le_mul_of_pos_right (width * 4) hpos
  exact Nat.mod_eq_of_lt (by omega)

/-- One thread filters the rows of the frame. -/
theorem isFrameRow_whole (hfits : width * 4 * height < 2 ^ 32) {y : Nat} (hy : y < height) :
    IsFrameRow (width * 4) height (wholeArgs width height) y y := by
  have hstride := frameStride_eq hfits (Nat.zero_lt_of_lt hy)
  refine ⟨?_, ?_, rfl, hy⟩
  · rw [wholeArgs, hstride, Nat.zero_add]
  · rw [wholeArgs, hstride, Nat.zero_add]

/-- A frame that does not fit makes one thread leave the buffers. -/
theorem fits_of_tapRows (h : tapRows k (frameSize width height) input
    (wholeArgs width height).rows output = some output') : width * 4 * height < 2 ^ 32 := by
  by_contra hbig
  have hsize : frameSize width height < 2 ^ 32 := by
    rw [frameSize_eq_mod]
    exact Nat.mod_lt _ (by decide)
  have hpos : 0 < height := by
    by_contra hzero
    rw [Nat.eq_zero_of_not_pos hzero] at hbig
    omega
  -- the last row ends behind a buffer whose size was taken modulo `2 ^ 32`
  have hmem : (wholeArgs width height, height - 1) ∈ (wholeArgs width height).rows :=
    List.mem_map.mpr ⟨height - 1, List.mem_range.mpr (Nat.sub_lt hpos Nat.one_pos), rfl⟩
  have hinside := tapRows_inside h hmem
  simp only [wholeArgs, frameStride] at hinside
  by_cases hwide : width * 4 < 2 ^ 32
  · rw [Nat.mod_eq_of_lt hwide, Nat.zero_add, ← Nat.succ_mul, Nat.succ_eq_add_one,
      Nat.sub_add_cancel hpos, Nat.mul_comm] at hinside
    omega
  · omega

end Frames

end DVP.ImgFilter
