import DVP.Kgraph.ImageSizes

/-!
# The lines of an allocated image

`dvpImageAlloc_lines_inside`: in an image that was initialised and allocated in virtual memory, the
loops over the lines of a plane stay in the memory of the plane and touch each byte once, whatever
the width and the height are. Every plane has as much memory as `DVP_Image_Dims` says, and its lines
take no more.
-/

namespace DVP.Kgraph

open Sosal

variable {image : DvpImage} {width height fourcc dvpMemType : BitVec 32} {ptrs : Nat → Nat}
  {p : Nat}

/-- The pixels of the subsampled formats are a byte apart. -/
theorem initXStride_of_subsampled (hc : fourcc ∈ subsampled) : (initXStride fourcc).toNat = 1 := by
  simp only [subsampled, List.mem_cons, List.not_mem_nil, or_false] at hc
  rcases hc with rfl | rfl | rfl | rfl | rfl | rfl | rfl | rfl <;> rfl

/-- The lines of a plane after the first one take no more than the product of its dimensions. -/
theorem chroma_lines_le (width height fourcc : BitVec 32) :
    height.toNat / (chroma fourcc).heightDiv.toNat *
        ((initXStride fourcc).toNat * ((chroma fourcc).widthStep.toNat *
          (width.toNat / (chroma fourcc).widthDiv.toNat))) ≤
      chromaBytes width height fourcc := by
  have hone : ∀ xs ⊆ subsampled, fourcc ∈ xs → (initXStride fourcc).toNat = 1 :=
    fun xs hxs hc => initXStride_of_subsampled (hxs hc)
  unfold chroma chromaBytes
  split_ifs with hsemi hquarter hplanar hhalf
  -- semi-planar: the two components of a sample make up for the half of the columns
  · rw [hone _ (by decide) hsemi]
    show height.toNat / 2 * (1 * (2 * (width.toNat / 2))) ≤ _
    rw [Nat.one_mul, Nat.mul_comm]
  · rw [hone _ (by decide) hquarter]
    show height.toNat / 4 * (1 * (1 * (width.toNat / 4))) ≤ _
    rw [Nat.one_mul, Nat.one_mul, Nat.mul_comm]
  · rw [hone _ (by decide) hplanar]
    show height.toNat / 2 * (1 * (1 * (width.toNat / 2))) ≤ _
    rw [Nat.one_mul, Nat.one_mul, Nat.mul_comm]
  · rw [hone _ (by decide) hhalf]
    show height.toNat / 1 * (1 * (1 * (width.toNat / 2))) ≤ _
    rw [Nat.one_mul, Nat.one_mul, Nat.div_one, Nat.mul_comm]
    exact Nat.mul_le_mul_right _ (Nat.le_mul_of_pos_left _ (by decide))
  · show height.toNat / 1 * ((initXStride fourcc).toNat * (1 * (width.toNat / 1))) ≤ _
    rw [Nat.one_mul, Nat.div_one, Nat.div_one, Nat.mul_comm]

namespace DvpImage

/-- An image whose patch is its buffer, with a stride of the pixels of a line. -/
structure Packed (image : DvpImage) : Prop extends OfColor image where
  width_eq : image.width = image.bufWidth
  height_eq : image.height = image.bufHeight
  yStride_eq : image.yStride.toNat = image.xStride.toNat * image.bufWidth.toNat
  stride_lt : image.yStride.toNat < 2 ^ 31

namespace Packed

variable (h : image.Packed)
include h

theorem planes_pos : 0 < image.planes.toNat := by
  rw [h.planes_eq]
  exact initPlanes_pos _

theorem patchLineSize_eq : dvpImagePatchLineSize image p = dvpImageLineSize image p := by
  unfold dvpImagePatchLineSize dvpImageLineSize
  rw [h.width_eq]

/-- No line is longer than the stride. -/
theorem line_le (hp : p < image.planes.toNat) :
    image.sampleBytes p * image.samples p ≤ image.yStride.toNat := by
  refine (h.toOfColor.line_le hp).trans ?_
  unfold sampleBytes samples
  rw [widthStep_zero, Nat.mul_one, h.yStride_eq]
  exact Nat.mul_le_mul_left _ (Nat.div_le_self _ _)

theorem lineSize_toNat (hp : p < image.planes.toNat) :
    (dvpImageLineSize image p).toNat = image.sampleBytes p * image.samples p := by
  have hle := h.line_le hp
  have hlt := h.stride_lt
  exact DvpImage.lineSize_toNat hp (by omega)

/-- The lines of the planes after the first one follow each other without a space. -/
theorem lineRange_pos (hp : p < image.planes.toNat) (hpos : 0 < p) :
    dvpImageLineRange image p = dvpImageLineSize image p := by
  -- the bitmap format has one plane only, so its plane 0 is not the one at hand
  have hbin : image.color ≠ fourccBin1 := by
    intro hc
    rw [h.planes_eq, hc] at hp
    have hone : p < 1 := hp
    omega
  -- a packed stride is the line of the first plane, which the source tests for
  have hstride : image.yStride = dvpImageLineSize image 0 := by
    apply BitVec.eq_of_toNat_eq
    rw [h.lineSize_toNat h.planes_pos, h.yStride_eq]
    unfold sampleBytes samples
    rw [widthStep_zero, widthDiv_zero h.planes_pos, if_neg hbin, Nat.mul_one]
    exact congrArg (_ * ·) (Nat.div_one _).symm
  rw [lineRange_eq hp h.stride_lt, if_pos ⟨hpos, hstride⟩]

/-- The lines of the first plane are a stride apart. -/
theorem lineRange_zero : dvpImageLineRange image 0 = image.yStride := by
  rw [lineRange_eq h.planes_pos h.stride_lt, if_neg fun hneg => Nat.lt_irrefl 0 hneg.1]

theorem patchLineSize_le (hp : p < image.planes.toNat) :
    (dvpImagePatchLineSize image p).toNat ≤ (dvpImageLineRange image p).toNat := by
  rw [h.patchLineSize_eq]
  rcases Nat.eq_zero_or_pos p with rfl | hpos
  · rw [h.lineRange_zero, h.lineSize_toNat hp]
    exact h.line_le hp
  · rw [h.lineRange_pos hp hpos]

theorem lineRange_le (hp : p < image.planes.toNat) :
    (dvpImageLineRange image p).toNat ≤ image.yStride.toNat := by
  rcases Nat.eq_zero_or_pos p with rfl | hpos
  · rw [h.lineRange_zero]
  · rw [h.lineRange_pos hp hpos, h.lineSize_toNat hp]
    exact h.line_le hp

/-- The lines of a plane take no more than the pixels of the image. -/
theorem lines_lt
    (hplane : image.xStride.toNat * image.bufWidth.toNat * image.bufHeight.toNat < 2 ^ 32)
    (hp : p < image.planes.toNat) :
    image.lines p * (dvpImageLineRange image p).toNat < 2 ^ 32 := by
  have hlines : image.lines p ≤ image.bufHeight.toNat := by
    unfold DvpImage.lines
    rw [BitVec.toNat_udiv, h.height_eq]
    exact Nat.div_le_self _ _
  calc image.lines p * (dvpImageLineRange image p).toNat
      ≤ image.bufHeight.toNat * image.yStride.toNat := Nat.mul_le_mul hlines (h.lineRange_le hp)
    _ = image.xStride.toNat * image.bufWidth.toNat * image.bufHeight.toNat := by
        rw [h.yStride_eq, Nat.mul_comm]
    _ < 2 ^ 32 := hplane

/-- The lines of a plane take no more than the product of the dimensions of the plane. -/
theorem lines_le_dims (hw : image.bufWidth.toNat < 2 ^ 31) (hh : image.bufHeight.toNat < 2 ^ 31)
    (hp : p < image.planes.toNat) :
    image.lines p * (dvpImageLineRange image p).toNat ≤
      (dvpImageInit image.bufWidth image.bufHeight image.color).shape.dimsBytes false p := by
  unfold DvpImage.lines
  rw [BitVec.toNat_udiv, h.height_eq]
  rcases Nat.eq_zero_or_pos p with rfl | hpos
  -- the first plane has no divisors: both sides are the pixels of the image
  · rw [h.lineRange_zero, heightDiv_zero, Nat.div_one, h.yStride_eq, h.xStride_eq]
    unfold DvpImage.dimsBytes
    rw [dims_zero, if_neg fun hneg => absurd hneg.1 (by decide)]
    apply le_of_eq
    show _ = (initXStride image.color).toNat * (image.bufWidth.toNat * (image.bufHeight.toNat * 1))
    ring
  · have hp' : p < (initPlanes image.color).toNat := by
      rw [← h.planes_eq]
      exact hp
    -- the other planes: the subsampled formats are a byte apart
    have hchroma := chroma_eq hp hpos
    have hle := chroma_lines_le image.bufWidth image.bufHeight image.color
    rw [dimsBytes_pos hw hh hp' hpos, h.lineRange_pos hp hpos, h.lineSize_toNat hp]
    unfold sampleBytes samples
    rw [hchroma] at hle
    rw [h.xStride_eq, Nat.mul_assoc (initXStride image.color).toNat]
    exact hle

end Packed

end DvpImage

/-- An image just allocated in virtual memory. -/
def virtualImage (width height fourcc dvpMemType : BitVec 32) (ptrs : Nat → Nat) : DvpImageT :=
  dvpImageAllocVirtual (dvpImageInit width height fourcc) dvpMemType ptrs

/-- Its strides are the products of the dimensions of the first plane. -/
theorem virtualImage_packed (hline : (initXStride fourcc).toNat * width.toNat < 2 ^ 31) :
    (virtualImage width height fourcc dvpMemType ptrs).shape.Packed := by
  have hstrides : allocatorStrides 1
      (dvpImageDims false (dvpImageInit width height fourcc).shape 0) =
        [initXStride fourcc, initXStride fourcc * width, initXStride fourcc * width * height] := by
    rw [dims_zero, if_neg fun h => absurd h.1 (by decide)]
    have hone : 1 * initXStride fourcc = initXStride fourcc := BitVec.one_mul _
    show [1 * _, 1 * _ * _, 1 * _ * _ * _] = _
    rw [hone]
  -- `1 * x_stride` is the first stride, and the width multiplies the second
  have hx : (virtualImage width height fourcc dvpMemType ptrs).xStride = initXStride fourcc :=
    congrArg (·.getD 0 0) hstrides
  have hy : (virtualImage width height fourcc dvpMemType ptrs).yStride =
      initXStride fourcc * width :=
    congrArg (·.getD 1 0) hstrides
  have hyNat : (virtualImage width height fourcc dvpMemType ptrs).yStride.toNat =
      (initXStride fourcc).toNat * width.toNat := by
    rw [hy, BitVec.toNat_mul, Nat.mod_eq_of_lt (by omega)]
  refine ⟨⟨rfl, hx⟩, rfl, rfl, ?_, ?_⟩
  · show _ = (virtualImage width height fourcc dvpMemType ptrs).xStride.toNat * width.toNat
    rw [hx]
    exact hyNat
  · exact hyNat.trans_lt hline

/-- The lines of every plane of an image lie in the memory of the plane, and are pairwise apart. -/
theorem dvpImageAlloc_lines_inside (a : Arch) (width height fourcc dvpMemType : BitVec 32)
    (ptrs sizes : Nat → Nat) (hwidth : 0 < width.toNat) (hheight : height.toNat < 2 ^ 31)
    (hline : (initXStride fourcc).toNat * width.toNat < 2 ^ 31)
    (hplane : (initXStride fourcc).toNat * width.toNat * height.toNat < 2 ^ 32)
    (p : Nat) (hp : p < (initPlanes fourcc).toNat)
    (hsize : (dvpImageInit width height fourcc).shape.dimsBytes false p ≤ sizes p)
    (hmem : ptrs p + sizes p < a.size) :
    let image := virtualImage width height fourcc dvpMemType ptrs
    let line y := dvpImagePatchAddressing a image 0
      (BitVec.ofNat 32 y * dvpImageHeightDiv image.shape p) p
    let size := (dvpImagePatchLineSize image.shape p).toNat
    ∀ y < image.shape.lines p,
      (ptrs p ≤ line y ∧ line y + size ≤ ptrs p + sizes p) ∧
        ∀ z < image.shape.lines p, y ≠ z → line y + size ≤ line z ∨ line z + size ≤ line y := by
  intro image line size
  have h : image.shape.Packed := virtualImage_packed hline
  have hplane' : image.shape.xStride.toNat * image.shape.bufWidth.toNat *
      image.shape.bufHeight.toNat < 2 ^ 32 := by
    rw [h.xStride_eq]
    exact hplane
  have hwidth' : image.shape.width ≠ 0 := by
    intro hzero
    have hzero' : width = 0 := hzero
    rw [hzero'] at hwidth
    exact absurd hwidth (by decide)
  have hle : size ≤ (dvpImageLineRange image.shape p).toNat := h.patchLineSize_le hp
  have hx := initXStride_pos fourcc
  have hwidth_lt : width.toNat < 2 ^ 31 :=
    (Nat.le_mul_of_pos_left _ hx).trans_lt hline
  -- the plane has at least the memory that its dimensions ask for
  have hdims : image.shape.lines p * (dvpImageLineRange image.shape p).toNat ≤ sizes p :=
    (h.lines_le_dims hwidth_lt hheight hp).trans hsize
  -- no offset wraps, so a line starts at its multiple of the distance of the lines
  have hinside : ∀ y < image.shape.lines p,
      image.shape.lineOffset p y + size ≤ sizes p ∧
        line y = ptrs p + image.shape.lineOffset p y := by
    intro y hy
    have hoffset := DvpImage.lineOffset_eq hp hy hwidth' (h.lines_lt hplane' hp)
    have hend : image.shape.lineOffset p y + size ≤ sizes p := by
      have hrow := Nat.mul_le_mul_right (dvpImageLineRange image.shape p).toNat
        (Nat.succ_le_of_lt hy)
      rw [Nat.succ_mul] at hrow
      omega
    refine ⟨hend, ?_⟩
    have hp' : p < image.planes.toNat := hp
    have hptr : image.pData p = ptrs p := (if_pos hp).trans (if_pos hp)
    show a.add (if p < image.planes.toNat then image.pData p else 0)
      (image.shape.lineOffset p y) = _
    rw [if_pos hp', hptr, Arch.add_of_lt (by omega)]
  intro y hy
  obtain ⟨hend, hline_y⟩ := hinside y hy
  refine ⟨by omega, fun z hz hne => ?_⟩
  obtain ⟨-, hline_z⟩ := hinside z hz
  -- lines of one plane are apart since none is longer than that distance
  have hapart : image.shape.LinesApart :=
    DvpImage.linesApart_of_lineRange (fun p hp => h.patchLineSize_le hp)
      fun p hp => h.lines_lt hplane' hp
  have hlines := hapart p hp y hy z hz hne
  rw [hline_y, hline_z]
  show _ + (dvpImagePatchLineSize image.shape p).toNat ≤ _ ∨ _
  omega

/-- The second plane of an image of odd width and height. -/
theorem dvpImageAlloc_lines_inside_odd :
    let image := virtualImage 7 5 fourccNv12 0 fun p => 4096 * (p + 1)
    let line y := dvpImagePatchAddressing .arch32 image 0
      (BitVec.ofNat 32 y * dvpImageHeightDiv image.shape 1) 1
    let size := (dvpImagePatchLineSize image.shape 1).toNat
    ∀ y < image.shape.lines 1,
      (4096 * (1 + 1) ≤ line y ∧ line y + size ≤ 4096 * (1 + 1) + 12) ∧
        ∀ z < image.shape.lines 1, y ≠ z → line y + size ≤ line z ∨ line z + size ≤ line y :=
  dvpImageAlloc_lines_inside .arch32 7 5 fourccNv12 0 (fun p => 4096 * (p + 1)) (fun _ => 12)
    (by decide) (by decide) (by decide) (by decide) 1 (by decide) (by decide) (by decide)

end DVP.Kgraph
