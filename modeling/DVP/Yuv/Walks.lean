import DVP.Yuv.Colours

/-!
# The routines as walks

Each routine does to every group of an image what `Groups` says, for every width, height and stride,
and returns to its caller.
-/

namespace DVP.Yuv

open Arm Region State

/-! ## `__uyvy_to_rgbp_image_bt601` -/

/-- What `__uyvy_to_rgbp_image_bt601` is called with. -/
structure RgbpArgs where
  width : Word
  height : Word
  pSrc : Word
  srcStride : Word
  pR : Word
  pG : Word
  pB : Word
  dstStride : Word

namespace UyvyToRgbp

/-- The arguments as they are passed. -/
def words (a : RgbpArgs) : List Word :=
  [a.width, a.height, a.pSrc, a.srcStride, a.pR, a.pG, a.pB, a.dstStride]

/-- The walk of the routine through the picture. -/
def walk (a : RgbpArgs) : Walk :=
  let srcStep := a.srcStride - (a.width + a.width)
  let dstStep := a.dstStride - a.width
  let src := place a.pSrc srcStep 32 (rounds a.width 16)
  let dst p := place p dstStep 16 (rounds a.width 16)
  { width := a.width
    height := a.height
    k := 16
    d := 1
    pixelsLeft := pixelsLeft
    linesLeft := linesLeft
    pointers := [⟨pSrc, a.pSrc, srcStep, 32⟩, ⟨pR, a.pR, dstStep, 16⟩, ⟨pG, a.pG, dstStep, 16⟩,
      ⟨pB, a.pB, dstStep, 16⟩]
    constants := [(width, a.width), (UyvyToRgbp.srcStep, srcStep), (UyvyToRgbp.dstStep, dstStep)]
    simd := Constants
    group := fun l j => rgbpGroup (src l j) (dst a.pR l j) (dst a.pG l j) (dst a.pB l j) }

variable {a : RgbpArgs} {rest : List Word} {s : State}

/-- A group is read, converted and written. -/
theorem mem_pixels (hs : Constants s) :
    (exec s pixels).mem =
      rgbpGroup (s.gpr pSrc) (s.gpr pR) (s.gpr pG) (s.gpr pB) s.mem := by
  let t := exec s (preloadL21x256bytes pSrc ++ [.vld4_8 0 1 2 3 pSrc .next])
  have hpixels : exec s pixels =
      exec (exec (exec t ycbcrToRgb) (storeRgb pR pG pB))
        [.subs pixelsLeft pixelsLeft (.imm 16)] := by
    rw [pixels, exec_append, exec_append, exec_append]
  have hsubs : ∀ u, (exec u [.subs pixelsLeft pixelsLeft (.imm 16)]).mem = u.mem := fun _ => rfl
  have hu : Unpacked s.mem (s.gpr pSrc) t := unpacked_vld4 s pSrc .next
  rw [hpixels, hsubs, mem_storeRgb (hs.exec (by decide)) hu]
  rfl

/-- The code of the routine is that of its walk. -/
theorem blocks : (walk a).Blocks start pixels lineEnd where
  hk := (by decide : 0 < 16 ∧ 16 < 2 ^ 31)
  hd := (by decide : 0 < 1 ∧ 1 < 2 ^ 31)
  onStart s hs := by
    obtain ⟨hwidth, -⟩ := List.forall_mem_cons.mp hs.constants
    refine ⟨⟨?_, ?_, fun h => h.exec (by decide), rfl⟩, rfl, rfl, hwidth⟩
    · simp only [walk, List.forall_mem_cons, add_zero]
      exact ⟨rfl, rfl, rfl, rfl, List.forall_mem_nil _⟩
    · simp only [walk, List.forall_mem_cons]
      exact ⟨rfl, rfl, rfl, List.forall_mem_nil _⟩
  onPixels s hs := by
    refine ⟨⟨?_, ?_, fun h => h.exec (by decide), rfl⟩, rfl, rfl, rfl⟩
    · simp only [walk, List.forall_mem_cons]
      exact ⟨rfl, BitVec.add_assoc _ _ _, BitVec.add_assoc _ _ _, BitVec.add_assoc _ _ _,
        List.forall_mem_nil _⟩
    · simp only [walk, List.forall_mem_cons]
      exact ⟨rfl, rfl, rfl, List.forall_mem_nil _⟩
  onGroup s l j hs hp := by
    simp only [walk, List.forall_mem_cons] at hp
    rw [mem_pixels hs.simd, hp.1, hp.2.1, hp.2.2.1, hp.2.2.2.1]
    rfl
  onLineEnd s hs := by
    have hconstants := hs.constants
    simp only [walk, List.forall_mem_cons] at hconstants
    obtain ⟨-, hsrc, hdst, -⟩ := hconstants
    refine ⟨⟨?_, ?_, fun h => h.exec (by decide), rfl⟩, rfl, rfl, rfl⟩
    · simp only [walk, List.forall_mem_cons]
      rw [← hsrc, ← hdst]
      exact ⟨rfl, rfl, rfl, rfl, List.forall_mem_nil _⟩
    · simp only [walk, List.forall_mem_cons]
      exact ⟨rfl, rfl, rfl, List.forall_mem_nil _⟩

/-- The arguments are taken from the registers and the stack. -/
theorem line_entry (hs : passed s = words a ++ rest) :
    (walk a).Line (pushed r0ToR12 s).stack s.mem 0 0 (exec (pushed r0ToR12 s) entry) := by
  simp only [passed, words, List.cons_append, List.nil_append, List.cons.injEq] at hs
  obtain ⟨hwidth, hheight, hsrc, hstride, hstack⟩ := hs
  have harg : ∀ k, s.stack.getD k 0 = ([a.pR, a.pG, a.pB, a.dstStride] ++ rest).getD k 0 := fun k =>
    congrArg (List.getD · k 0) hstack
  have hdst : (exec (pushed r0ToR12 s) entry).gpr dstStep = a.dstStride - a.width := by
    rw [← hwidth]
    exact congrArg (· - s.gpr .r0) (harg 3)
  refine ⟨⟨?_, constants_fill _⟩, ?_, ?_, rfl, rfl⟩
  · simp only [walk, List.forall_mem_cons]
    refine ⟨hwidth, ?_, hdst, List.forall_mem_nil _⟩
    rw [← hwidth, ← hstride]
    rfl
  · simp only [walk, List.forall_mem_cons, Walk.place, place_zero]
    exact ⟨hsrc, harg 0, harg 1, harg 2, List.forall_mem_nil _⟩
  · rw [Nat.mul_zero, BitVec.sub_zero]
    exact hheight

end UyvyToRgbp

/-- `__uyvy_to_rgbp_image_bt601` returns with the colours of the image in the planes. -/
theorem uyvyToRgbpImageBt601_calls {a : RgbpArgs} {m : Memory} :
    Calls uyvyToRgbpImageBt601 (UyvyToRgbp.words a) m ((UyvyToRgbp.walk a).image m) :=
  UyvyToRgbp.blocks.calls (by decide) (by decide) (by decide) fun _ _ => UyvyToRgbp.line_entry

/-! ## `__uyvy_luma_extract` -/

/-- What `__uyvy_luma_extract` is called with. -/
structure LumaArgs where
  width : Word
  height : Word
  pYUV : Word
  srcStride : Word
  pY : Word
  dstStride : Word

namespace LumaExtract

/-- The arguments as they are passed. -/
def words (a : LumaArgs) : List Word :=
  [a.width, a.height, a.pYUV, a.srcStride, a.pY, a.dstStride]

/-- The walk of the routine through the picture. -/
def walk (a : LumaArgs) : Walk :=
  let srcStep := a.srcStride - (a.width + a.width)
  let dstStep := a.dstStride - a.width
  let src := place a.pYUV srcStep 32 (rounds a.width 16)
  let dst := place a.pY dstStep 16 (rounds a.width 16)
  { width := a.width
    height := a.height
    k := 16
    d := 1
    pixelsLeft := pixelsLeft
    linesLeft := linesLeft
    pointers := [⟨pYUV, a.pYUV, srcStep, 32⟩, ⟨pY, a.pY, dstStep, 16⟩]
    constants := [(width, a.width), (LumaExtract.srcStep, srcStep), (LumaExtract.dstStep, dstStep)]
    simd := fun _ => True
    group := fun l j => lumaGroup (src l j) (dst l j) }

variable {a : LumaArgs} {rest : List Word} {s : State}

/-- The luma of a group is read and written. -/
theorem mem_pixels : (exec s pixels).mem = lumaGroup (s.gpr pYUV) (s.gpr pY) s.mem := by
  have hstore : (exec s pixels).mem =
      write s.mem (s.gpr pY)
        (interleave (n := 8) (strided s.mem (s.gpr pYUV) 4 1) (strided s.mem (s.gpr pYUV) 4 3)) := rfl
  rw [hstore, interleave_luma, lumaGroup]

/-- The code of the routine is that of its walk. -/
theorem blocks : (walk a).Blocks start pixels lineEnd where
  hk := (by decide : 0 < 16 ∧ 16 < 2 ^ 31)
  hd := (by decide : 0 < 1 ∧ 1 < 2 ^ 31)
  onStart s hs := by
    obtain ⟨hwidth, -⟩ := List.forall_mem_cons.mp hs.constants
    refine ⟨⟨?_, ?_, id, rfl⟩, rfl, rfl, hwidth⟩
    · simp only [walk, List.forall_mem_cons, add_zero]
      exact ⟨rfl, rfl, List.forall_mem_nil _⟩
    · simp only [walk, List.forall_mem_cons]
      exact ⟨rfl, rfl, rfl, List.forall_mem_nil _⟩
  onPixels s hs := by
    refine ⟨⟨?_, ?_, id, rfl⟩, rfl, rfl, rfl⟩
    · simp only [walk, List.forall_mem_cons]
      exact ⟨rfl, rfl, List.forall_mem_nil _⟩
    · simp only [walk, List.forall_mem_cons]
      exact ⟨rfl, rfl, rfl, List.forall_mem_nil _⟩
  onGroup s l j hs hp := by
    simp only [walk, List.forall_mem_cons] at hp
    rw [mem_pixels, hp.1, hp.2.1]
    rfl
  onLineEnd s hs := by
    have hconstants := hs.constants
    simp only [walk, List.forall_mem_cons] at hconstants
    obtain ⟨-, hsrc, hdst, -⟩ := hconstants
    refine ⟨⟨?_, ?_, id, rfl⟩, rfl, rfl, rfl⟩
    · simp only [walk, List.forall_mem_cons]
      rw [← hsrc, ← hdst]
      exact ⟨rfl, rfl, List.forall_mem_nil _⟩
    · simp only [walk, List.forall_mem_cons]
      exact ⟨rfl, rfl, rfl, List.forall_mem_nil _⟩

/-- The code before the lines leads to the first line. -/
theorem line_entry (hs : passed s = words a ++ rest) :
    (walk a).Line (pushed r0ToR10 s).stack s.mem 0 0 (exec (pushed r0ToR10 s) entry) := by
  simp only [passed, words, List.cons_append, List.nil_append, List.cons.injEq] at hs
  obtain ⟨hwidth, hheight, hsrc, hstride, hstack⟩ := hs
  have harg : ∀ k, s.stack.getD k 0 = ([a.pY, a.dstStride] ++ rest).getD k 0 := fun k =>
    congrArg (List.getD · k 0) hstack
  have hdst : (exec (pushed r0ToR10 s) entry).gpr dstStep = a.dstStride - a.width := by
    rw [← hwidth]
    exact congrArg (· - s.gpr .r0) (harg 1)
  refine ⟨⟨?_, trivial⟩, ?_, ?_, rfl, rfl⟩
  · simp only [walk, List.forall_mem_cons]
    refine ⟨hwidth, ?_, hdst, List.forall_mem_nil _⟩
    rw [← hwidth, ← hstride]
    rfl
  · simp only [walk, List.forall_mem_cons, Walk.place, place_zero]
    exact ⟨hsrc, harg 0, List.forall_mem_nil _⟩
  · rw [Nat.mul_zero, BitVec.sub_zero]
    exact hheight

end LumaExtract

/-- `__uyvy_luma_extract` returns with the luma of the image in the plane. -/
theorem uyvyLumaExtract_calls {a : LumaArgs} {m : Memory} :
    Calls uyvyLumaExtract (LumaExtract.words a) m ((LumaExtract.walk a).image m) :=
  LumaExtract.blocks.calls (by decide) (by decide) (by decide) fun _ _ => LumaExtract.line_entry

/-! ## `__uyvy_to_yuv444p_image` -/

/-- What `__uyvy_to_yuv444p_image` is called with. -/
structure Yuv444pArgs where
  width : Word
  height : Word
  pYUV : Word
  srcStride : Word
  pY : Word
  pU : Word
  pV : Word
  dstStride : Word

namespace UyvyToYuv444p

/-- The arguments as they are passed. -/
def words (a : Yuv444pArgs) : List Word :=
  [a.width, a.height, a.pYUV, a.srcStride, a.pY, a.pU, a.pV, a.dstStride]

/-- The walk of the routine through the picture. -/
def walk (a : Yuv444pArgs) : Walk :=
  let srcStep := a.srcStride - (a.width + a.width)
  let dstStep := a.dstStride - a.width
  let src := place a.pYUV srcStep 32 (rounds a.width 16)
  let dst p := place p dstStep 16 (rounds a.width 16)
  { width := a.width
    height := a.height
    k := 16
    d := 1
    pixelsLeft := pixelsLeft
    linesLeft := linesLeft
    pointers := [⟨pYUV, a.pYUV, srcStep, 32⟩, ⟨pY, a.pY, dstStep, 16⟩, ⟨pU, a.pU, dstStep, 16⟩,
      ⟨pV, a.pV, dstStep, 16⟩]
    constants := [(width, a.width), (UyvyToYuv444p.srcStep, srcStep),
      (UyvyToYuv444p.dstStep, dstStep)]
    simd := fun _ => True
    group := fun l j => yuv444pGroup (src l j) (dst a.pY l j) (dst a.pU l j) (dst a.pV l j) }

variable {a : Yuv444pArgs} {rest : List Word} {s : State}

/-- The luma and the chroma of a group are read and written. -/
theorem mem_pixels :
    (exec s pixels).mem = yuv444pGroup (s.gpr pYUV) (s.gpr pY) (s.gpr pU) (s.gpr pV) s.mem := by
  let part := strided s.mem (s.gpr pYUV) 4
  have hstores : (exec s pixels).mem =
      write (write (write s.mem (s.gpr pY) (interleave (n := 8) (part 1) (part 3)))
        (s.gpr pU) (interleave (n := 8) (part 0) (part 0)))
        (s.gpr pV) (interleave (n := 8) (part 2) (part 2)) := rfl
  rw [hstores, interleave_luma, interleave_cb, interleave_cr, yuv444pGroup]

/-- The code of the routine is that of its walk. -/
theorem blocks : (walk a).Blocks start pixels lineEnd where
  hk := (by decide : 0 < 16 ∧ 16 < 2 ^ 31)
  hd := (by decide : 0 < 1 ∧ 1 < 2 ^ 31)
  onStart s hs := by
    obtain ⟨hwidth, -⟩ := List.forall_mem_cons.mp hs.constants
    refine ⟨⟨?_, ?_, id, rfl⟩, rfl, rfl, hwidth⟩
    · simp only [walk, List.forall_mem_cons, add_zero]
      exact ⟨rfl, rfl, rfl, rfl, List.forall_mem_nil _⟩
    · simp only [walk, List.forall_mem_cons]
      exact ⟨rfl, rfl, rfl, List.forall_mem_nil _⟩
  onPixels s hs := by
    refine ⟨⟨?_, ?_, id, rfl⟩, rfl, rfl, rfl⟩
    · simp only [walk, List.forall_mem_cons]
      exact ⟨rfl, rfl, rfl, rfl, List.forall_mem_nil _⟩
    · simp only [walk, List.forall_mem_cons]
      exact ⟨rfl, rfl, rfl, List.forall_mem_nil _⟩
  onGroup s l j hs hp := by
    simp only [walk, List.forall_mem_cons] at hp
    rw [mem_pixels, hp.1, hp.2.1, hp.2.2.1, hp.2.2.2.1]
    rfl
  onLineEnd s hs := by
    have hconstants := hs.constants
    simp only [walk, List.forall_mem_cons] at hconstants
    obtain ⟨-, hsrc, hdst, -⟩ := hconstants
    refine ⟨⟨?_, ?_, id, rfl⟩, rfl, rfl, rfl⟩
    · simp only [walk, List.forall_mem_cons]
      rw [← hsrc, ← hdst]
      exact ⟨rfl, rfl, rfl, rfl, List.forall_mem_nil _⟩
    · simp only [walk, List.forall_mem_cons]
      exact ⟨rfl, rfl, rfl, List.forall_mem_nil _⟩

/-- The code before the lines leads to the first line. -/
theorem line_entry (hs : passed s = words a ++ rest) :
    (walk a).Line (pushed r0ToR12 s).stack s.mem 0 0 (exec (pushed r0ToR12 s) entry) := by
  simp only [passed, words, List.cons_append, List.nil_append, List.cons.injEq] at hs
  obtain ⟨hwidth, hheight, hsrc, hstride, hstack⟩ := hs
  have harg : ∀ k, s.stack.getD k 0 = ([a.pY, a.pU, a.pV, a.dstStride] ++ rest).getD k 0 := fun k =>
    congrArg (List.getD · k 0) hstack
  have hdst : (exec (pushed r0ToR12 s) entry).gpr dstStep = a.dstStride - a.width := by
    rw [← hwidth]
    exact congrArg (· - s.gpr .r0) (harg 3)
  refine ⟨⟨?_, trivial⟩, ?_, ?_, rfl, rfl⟩
  · simp only [walk, List.forall_mem_cons]
    refine ⟨hwidth, ?_, hdst, List.forall_mem_nil _⟩
    rw [← hwidth, ← hstride]
    rfl
  · simp only [walk, List.forall_mem_cons, Walk.place, place_zero]
    exact ⟨hsrc, harg 0, harg 1, harg 2, List.forall_mem_nil _⟩
  · rw [Nat.mul_zero, BitVec.sub_zero]
    exact hheight

end UyvyToYuv444p

/-- `__uyvy_to_yuv444p_image` returns with the three components of the image in the planes. -/
theorem uyvyToYuv444pImage_calls {a : Yuv444pArgs} {m : Memory} :
    Calls uyvyToYuv444pImage (UyvyToYuv444p.words a) m ((UyvyToYuv444p.walk a).image m) :=
  UyvyToYuv444p.blocks.calls (by decide) (by decide) (by decide) fun _ _ => UyvyToYuv444p.line_entry

/-! ## `__uyvy_to_rgbp_luma_yuv444p_image` -/

/-- What `__uyvy_to_rgbp_luma_yuv444p_image` is called with. -/
structure FusedArgs where
  width : Word
  height : Word
  pUYVY : Word
  srcStride : Word
  pR : Word
  pG : Word
  pB : Word
  pL : Word
  pY : Word
  pU : Word
  pV : Word

namespace UyvyToRgbpLumaYuv444p

/-- The arguments as they are passed. -/
def words (a : FusedArgs) : List Word :=
  [a.width, a.height, a.pUYVY, a.srcStride, a.pR, a.pG, a.pB, a.pL, a.pY, a.pU, a.pV]

/-- The planes have no strides: a line is written where the one before it ends. -/
def walk (a : FusedArgs) : Walk :=
  let srcStep := a.srcStride - (a.width + a.width)
  let src := place a.pUYVY srcStep 32 (rounds a.width 16)
  let dst p := place p 0 16 (rounds a.width 16)
  { width := a.width
    height := a.height
    k := 16
    d := 1
    pixelsLeft := pixelsLeft
    linesLeft := height
    pointers := [⟨pUYVY, a.pUYVY, srcStep, 32⟩, ⟨pR, a.pR, 0, 16⟩, ⟨pG, a.pG, 0, 16⟩,
      ⟨pB, a.pB, 0, 16⟩, ⟨pL, a.pL, 0, 16⟩, ⟨pY, a.pY, 0, 16⟩, ⟨pU, a.pU, 0, 16⟩, ⟨pV, a.pV, 0, 16⟩]
    constants := [(width, a.width), (UyvyToRgbpLumaYuv444p.srcStep, srcStep)]
    simd := Constants
    group := fun l j => fusedGroup (src l j) (dst a.pR l j) (dst a.pG l j) (dst a.pB l j)
      (dst a.pL l j) (dst a.pY l j) (dst a.pU l j) (dst a.pV l j) }

variable {a : FusedArgs} {rest : List Word} {s : State}

/-- The luma and the chroma of a group are written before it is converted. -/
theorem mem_pixels (hs : Constants s) :
    (exec s pixels).mem = fusedGroup (s.gpr pUYVY) (s.gpr pR) (s.gpr pG) (s.gpr pB) (s.gpr pL)
      (s.gpr pY) (s.gpr pU) (s.gpr pV) s.mem := by
  let v := exec s [.vld4_8 0 1 2 3 pUYVY .next]
  let t := exec v [.vst2_8 1 3 pL .next, .vst2_8 1 3 pY .next, .vmov 5 0, .vmov 4 0,
    .vst2_8 4 5 pU .next, .vmov 4 2, .vst2_8 2 4 pV .next]
  let part := strided s.mem (s.gpr pUYVY) 4
  have hpixels : exec s pixels =
      exec (exec (exec t ycbcrToRgb) (storeRgb pR pG pB))
        [.subs pixelsLeft pixelsLeft (.imm 16)] := by
    rw [pixels, exec_append, exec_append, exec_append]
    rfl
  have hsubs : ∀ u, (exec u [.subs pixelsLeft pixelsLeft (.imm 16)]).mem = u.mem := fun _ => rfl
  have hu : Unpacked s.mem (s.gpr pUYVY) v := unpacked_vld4 s pUYVY .next
  have ht : t.mem =
      write (write (write (write s.mem (s.gpr pL) (interleave (n := 8) (part 1) (part 3)))
        (s.gpr pY) (interleave (n := 8) (part 1) (part 3)))
        (s.gpr pU) (interleave (n := 8) (part 0) (part 0)))
        (s.gpr pV) (interleave (n := 8) (part 2) (part 2)) := rfl
  rw [interleave_luma, interleave_cb, interleave_cr] at ht
  rw [hpixels, hsubs, mem_storeRgb ((hs.exec (by decide)).exec (by decide)) (hu.exec (by decide)), ht]
  rfl

/-- The code of the routine is that of its walk. -/
theorem blocks : (walk a).Blocks start pixels lineEnd where
  hk := (by decide : 0 < 16 ∧ 16 < 2 ^ 31)
  hd := (by decide : 0 < 1 ∧ 1 < 2 ^ 31)
  onStart s hs := by
    obtain ⟨hwidth, -⟩ := List.forall_mem_cons.mp hs.constants
    refine ⟨⟨?_, ?_, fun h => h.exec (by decide), rfl⟩, rfl, rfl, hwidth⟩
    · simp only [walk, List.forall_mem_cons, add_zero]
      exact ⟨rfl, rfl, rfl, rfl, rfl, rfl, rfl, rfl, List.forall_mem_nil _⟩
    · simp only [walk, List.forall_mem_cons]
      exact ⟨rfl, rfl, List.forall_mem_nil _⟩
  onPixels s hs := by
    refine ⟨⟨?_, ?_, fun h => h.exec (by decide), rfl⟩, rfl, rfl, rfl⟩
    · simp only [walk, List.forall_mem_cons]
      exact ⟨rfl, BitVec.add_assoc _ _ _, BitVec.add_assoc _ _ _, BitVec.add_assoc _ _ _, rfl, rfl,
        rfl, rfl, List.forall_mem_nil _⟩
    · simp only [walk, List.forall_mem_cons]
      exact ⟨rfl, rfl, List.forall_mem_nil _⟩
  onGroup s l j hs hp := by
    simp only [walk, List.forall_mem_cons] at hp
    obtain ⟨hsrc, hr, hg, hb, hl, hy, hu, hv, -⟩ := hp
    rw [mem_pixels hs.simd, hsrc, hr, hg, hb, hl, hy, hu, hv]
    rfl
  onLineEnd s hs := by
    have hconstants := hs.constants
    simp only [walk, List.forall_mem_cons] at hconstants
    obtain ⟨-, hsrc, -⟩ := hconstants
    refine ⟨⟨?_, ?_, fun h => h.exec (by decide), rfl⟩, rfl, rfl, rfl⟩
    · simp only [walk, List.forall_mem_cons, add_zero]
      rw [← hsrc]
      exact ⟨rfl, rfl, rfl, rfl, rfl, rfl, rfl, rfl, List.forall_mem_nil _⟩
    · simp only [walk, List.forall_mem_cons]
      exact ⟨rfl, rfl, List.forall_mem_nil _⟩

/-- The code before the lines leads to the first line. -/
theorem line_entry (hs : passed s = words a ++ rest) :
    (walk a).Line (pushed r0ToR12 s).stack s.mem 0 0 (exec (pushed r0ToR12 s) entry) := by
  simp only [passed, words, List.cons_append, List.nil_append, List.cons.injEq] at hs
  obtain ⟨hwidth, hheight, hsrc, hstride, hstack⟩ := hs
  have harg : ∀ k, s.stack.getD k 0 =
      ([a.pR, a.pG, a.pB, a.pL, a.pY, a.pU, a.pV] ++ rest).getD k 0 := fun k =>
    congrArg (List.getD · k 0) hstack
  refine ⟨⟨?_, constants_fill _⟩, ?_, ?_, rfl, rfl⟩
  · simp only [walk, List.forall_mem_cons]
    refine ⟨hwidth, ?_, List.forall_mem_nil _⟩
    rw [← hwidth, ← hstride]
    rfl
  · simp only [walk, List.forall_mem_cons, Walk.place, place_zero]
    exact ⟨hsrc, harg 0, harg 1, harg 2, harg 3, harg 4, harg 5, harg 6, List.forall_mem_nil _⟩
  · rw [Nat.mul_zero, BitVec.sub_zero]
    exact hheight

end UyvyToRgbpLumaYuv444p

/-- `__uyvy_to_rgbp_luma_yuv444p_image` returns with the image in all the planes. -/
theorem uyvyToRgbpLumaYuv444pImage_calls {a : FusedArgs} {m : Memory} :
    Calls uyvyToRgbpLumaYuv444pImage (UyvyToRgbpLumaYuv444p.words a) m ((UyvyToRgbpLumaYuv444p.walk a).image m) :=
  UyvyToRgbpLumaYuv444p.blocks.calls (by decide) (by decide) (by decide) fun _ _ => UyvyToRgbpLumaYuv444p.line_entry

/-! ## `__luma_to_uyvy_image` -/

namespace LumaToUyvy

/-- The arguments as they are passed. -/
def words (a : LumaArgs) : List Word :=
  [a.width, a.height, a.pY, a.srcStride, a.pYUV, a.dstStride]

/-- The chroma that is "zero" is in its register. -/
structure NoChroma (s : State) : Prop where
  zero : s.q 2 = ofHalves (n := 8) fun _ => 0x0080

/-- Here the plane with the luma is the source. -/
def walk (a : LumaArgs) : Walk :=
  let srcStep := a.srcStride - a.width
  let dstStep := a.dstStride - (a.width + a.width)
  let src := place a.pY srcStep 16 (rounds a.width 16)
  let dst := place a.pYUV dstStep 32 (rounds a.width 16)
  { width := a.width
    height := a.height
    k := 16
    d := 1
    pixelsLeft := pixelsLeft
    linesLeft := linesLeft
    pointers := [⟨pY, a.pY, srcStep, 16⟩, ⟨pUYVY, a.pYUV, dstStep, 32⟩]
    constants := [(width, a.width), (LumaToUyvy.srcStep, srcStep), (LumaToUyvy.dstStep, dstStep)]
    simd := NoChroma
    group := fun l j => uyvyGroup (src l j) (dst l j) }

variable {a : LumaArgs} {rest : List Word} {s : State}

/-- The registers that are stored. -/
theorem exec_shift (hs : NoChroma s) :
    (exec s [.vshll_u16 1 1 8, .vshll_u16 0 0 8, .vorr 1 1 2, .vorr 0 0 2]).q 0 = shifted (s.d 0) ∧
      (exec s [.vshll_u16 1 1 8, .vshll_u16 0 0 8, .vorr 1 1 2, .vorr 0 0 2]).q 1 =
        shifted (s.d 1) := by
  simp +decide only [exec_cons, exec_nil, Instr.exec, q_setQ_self, q_setQ_of_ne, d_setQ_of_ne,
    hs.zero, ne_eq]
  exact ⟨funext fun k => shll_orr (s.d 0) k, funext fun k => shll_orr (s.d 1) k⟩

/-- The luma of a group is read, widened and written. -/
theorem mem_pixels (hs : NoChroma s) :
    (exec s pixels).mem = uyvyGroup (s.gpr pY) (s.gpr pUYVY) s.mem := by
  let t := exec s [.pld pY (.imm l2LineSize), .add tmp pY (.reg srcStride),
    .pld tmp (.imm l2LineSize), .vld1_8 0 pY .next, .vld1_8 1 pY .next]
  let u := exec t [.vshll_u16 1 1 8, .vshll_u16 0 0 8, .vorr 1 1 2, .vorr 0 0 2]
  obtain ⟨hq0, hq1⟩ := exec_shift (s := t) ⟨hs.zero⟩
  have hstores : (exec s pixels).mem =
      write (write (write (write s.mem (s.gpr pUYVY) (u.d (lo 0))) (s.gpr pUYVY + 8) (u.d (hi 0)))
        (s.gpr pUYVY + 8 + 8) (u.d (lo 1))) (s.gpr pUYVY + 8 + 8 + 8) (u.d (hi 1)) := rfl
  rw [hstores, ← lower_q, ← upper_q, ← lower_q, ← upper_q, hq0, hq1, write_lower_upper,
    write_lower_upper, BitVec.add_assoc]
  refine (write_append (n := 16) (k := 16) (by norm_num)).trans ?_
  refine congrArg (write (n := 32) s.mem (s.gpr pUYVY)) (funext fun k => ?_)
  -- the bytes of the first eight pixels, and of the second
  refine Fin.addCases (m := 16) (n := 16) (fun i => ?_) (fun i => ?_) k
  · rw [Fin.append_left]
    rfl
  · have hsecond : shifted (t.d 1) i =
        pairBytes (s.mem (s.gpr pY + 8 + BitVec.ofNat 32 (2 * (i / 4))))
          (s.mem (s.gpr pY + 8 + BitVec.ofNat 32 (2 * (i / 4) + 1))) (i % 4) := rfl
    have hplace : ∀ x : Nat, s.gpr pY + 8 + BitVec.ofNat 32 x = s.gpr pY + BitVec.ofNat 32 (8 + x) :=
      fun x => by rw [BitVec.ofNat_add, BitVec.add_assoc]; rfl
    have hdiv : 2 * ((Fin.natAdd 16 i).val / 4) = 8 + 2 * (i / 4) := by
      rw [Fin.val_natAdd]
      omega
    have hmod : (Fin.natAdd 16 i).val % 4 = i % 4 := by
      rw [Fin.val_natAdd]
      omega
    rw [Fin.append_right, hsecond, hplace, hplace, hdiv, hmod, Nat.add_assoc]

/-- The code of the routine is that of its walk. -/
theorem blocks : (walk a).Blocks start pixels lineEnd where
  hk := (by decide : 0 < 16 ∧ 16 < 2 ^ 31)
  hd := (by decide : 0 < 1 ∧ 1 < 2 ^ 31)
  onStart s hs := by
    obtain ⟨hwidth, -⟩ := List.forall_mem_cons.mp hs.constants
    refine ⟨⟨?_, ?_, fun h => ⟨h.zero⟩, rfl⟩, rfl, rfl, hwidth⟩
    · simp only [walk, List.forall_mem_cons, add_zero]
      exact ⟨rfl, rfl, List.forall_mem_nil _⟩
    · simp only [walk, List.forall_mem_cons]
      exact ⟨rfl, rfl, rfl, List.forall_mem_nil _⟩
  onPixels s hs := by
    refine ⟨⟨?_, ?_, fun h => ⟨(q_exec (by decide)).trans h.zero⟩, rfl⟩, rfl, rfl, rfl⟩
    · simp only [walk, List.forall_mem_cons]
      refine ⟨BitVec.add_assoc _ _ _, ?_, List.forall_mem_nil _⟩
      have hsum : (exec s pixels).gpr pUYVY = s.gpr pUYVY + 8 + 8 + 8 + 8 := rfl
      rw [hsum, BitVec.add_assoc, BitVec.add_assoc, BitVec.add_assoc]
      rfl
    · simp only [walk, List.forall_mem_cons]
      exact ⟨rfl, rfl, rfl, List.forall_mem_nil _⟩
  onGroup s l j hs hp := by
    simp only [walk, List.forall_mem_cons] at hp
    rw [mem_pixels hs.simd, hp.1, hp.2.1]
    rfl
  onLineEnd s hs := by
    have hconstants := hs.constants
    simp only [walk, List.forall_mem_cons] at hconstants
    obtain ⟨-, hsrc, hdst, -⟩ := hconstants
    refine ⟨⟨?_, ?_, fun h => ⟨h.zero⟩, rfl⟩, rfl, rfl, rfl⟩
    · simp only [walk, List.forall_mem_cons]
      rw [← hsrc, ← hdst]
      exact ⟨rfl, rfl, List.forall_mem_nil _⟩
    · simp only [walk, List.forall_mem_cons]
      exact ⟨rfl, rfl, rfl, List.forall_mem_nil _⟩

/-- The code before the lines leads to the first line. -/
theorem line_entry (hs : passed s = words a ++ rest) :
    (walk a).Line (pushed r0ToR10 s).stack s.mem 0 0 (exec (pushed r0ToR10 s) entry) := by
  simp only [passed, words, List.cons_append, List.nil_append, List.cons.injEq] at hs
  obtain ⟨hwidth, hheight, hsrc, hstride, hstack⟩ := hs
  have harg : ∀ k, s.stack.getD k 0 = ([a.pYUV, a.dstStride] ++ rest).getD k 0 := fun k =>
    congrArg (List.getD · k 0) hstack
  have hdst : (exec (pushed r0ToR10 s) entry).gpr dstStep = a.dstStride - (a.width + a.width) := by
    rw [← hwidth]
    exact congrArg (· - (s.gpr .r0 + s.gpr .r0)) (harg 1)
  refine ⟨⟨?_, ⟨q_setQ_self⟩⟩, ?_, ?_, rfl, rfl⟩
  · simp only [walk, List.forall_mem_cons]
    refine ⟨hwidth, ?_, hdst, List.forall_mem_nil _⟩
    rw [← hwidth, ← hstride]
    rfl
  · simp only [walk, List.forall_mem_cons, Walk.place, place_zero]
    exact ⟨hsrc, harg 0, List.forall_mem_nil _⟩
  · rw [Nat.mul_zero, BitVec.sub_zero]
    exact hheight

end LumaToUyvy

/-- `__luma_to_uyvy_image` returns with the pairs of the image. -/
theorem lumaToUyvyImage_calls {a : LumaArgs} {m : Memory} :
    Calls lumaToUyvyImage (LumaToUyvy.words a) m ((LumaToUyvy.walk a).image m) :=
  LumaToUyvy.blocks.calls (by decide) (by decide) (by decide) fun _ _ => LumaToUyvy.line_entry

end DVP.Yuv
