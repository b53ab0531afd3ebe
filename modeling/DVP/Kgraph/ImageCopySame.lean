import DVP.Kgraph.ImagePlaced

/-!
# Copies between images of one colour

`DVP_Image_Copy` between placed images of one colour that share no memory.

* `dvpImageCopy_same`: the call answers `DVP_TRUE`, changes only the lines of the target that it
  copies to, and makes patches of equal dimensions equal for `DVP_Image_PatchEqual`.
-/

namespace DVP.Kgraph

open Bytes Sosal Transfer

variable {a : Arch} {image pDst pSrc : DvpImageT} {block dstBlock srcBlock : Nat → BitVec 32}
  {mem : Nat → UInt8} {p y : Nat}

/-- A placed image passes the test for `NULL`. -/
theorem Placed.hasNull_eq (h : Placed a image block) : hasNull image = false := by
  unfold hasNull
  rw [List.any_eq_false]
  intro p hp
  rw [decide_eq_true_eq]
  exact h.pData_ne p (List.mem_range.mp hp)

/-- The test of `DVP_Image_PatchEqual` that the patch lies in the buffer. -/
theorem Placed.start_add_le (h : Placed a image block) :
    ¬image.bufWidth < image.xStart + image.width ∧
      ¬image.bufHeight < image.yStart + image.height := by
  obtain ⟨hx, hy⟩ := h.inside
  have hwidth := image.bufWidth.isLt
  have hheight := image.bufHeight.isLt
  rw [BitVec.not_lt, BitVec.not_lt, BitVec.le_def, BitVec.le_def, BitVec.toNat_add,
    BitVec.toNat_add, Nat.mod_eq_of_lt (by omega), Nat.mod_eq_of_lt (by omega)]
  exact ⟨hx, hy⟩

/-! ## Images of one colour -/

/-- What two placed images of one colour that share no memory have in common. -/
structure SameColor (a : Arch) (pDst pSrc : DvpImageT) (dstBlock srcBlock : Nat → BitVec 32) :
    Prop where
  dst : Placed a pDst dstBlock
  src : Placed a pSrc srcBlock
  color_eq : pDst.color = pSrc.color
  planesApart : PlanesApart pDst dstBlock
  imagesApart : ImagesApart pDst pSrc dstBlock srcBlock
  width_le : pSrc.width ≤ pDst.width
  height_le : pSrc.height ≤ pDst.height

namespace SameColor

variable (h : SameColor a pDst pSrc dstBlock srcBlock)
include h

/-- Both images have as many planes. -/
theorem planes_eq : pDst.planes = pSrc.planes := by
  have hdst : pDst.planes = initPlanes pDst.color := h.dst.ofColor.planes_eq
  have hsrc : pSrc.planes = initPlanes pSrc.color := h.src.ofColor.planes_eq
  rw [hdst, hsrc, h.color_eq]

/-- Both images have one stride. -/
theorem xStride_eq : pDst.xStride = pSrc.xStride := by
  have hdst : pDst.xStride = initXStride pDst.color := h.dst.ofColor.xStride_eq
  have hsrc : pSrc.xStride = initXStride pSrc.color := h.src.ofColor.xStride_eq
  rw [hdst, hsrc, h.color_eq]

/-- Both shapes have one colour. -/
theorem shape_color_eq : pDst.shape.color = pSrc.shape.color := h.color_eq

/-- Both shapes have as many planes. -/
theorem shape_planes_eq : pDst.shape.planes = pSrc.shape.planes := h.planes_eq

/-- Both shapes divide the height alike. -/
theorem heightDiv_eq : dvpImageHeightDiv pDst.shape p = dvpImageHeightDiv pSrc.shape p := by
  unfold dvpImageHeightDiv
  rw [h.shape_color_eq, h.shape_planes_eq]

/-- Both shapes divide the width alike. -/
theorem widthDiv_eq : dvpImageWidthDiv pDst.shape p = dvpImageWidthDiv pSrc.shape p := by
  unfold dvpImageWidthDiv
  rw [h.shape_color_eq, h.shape_planes_eq]

/-- Both shapes have samples of one size. -/
theorem sampleBytes_eq : pDst.shape.sampleBytes p = pSrc.shape.sampleBytes p := by
  have hx : pDst.shape.xStride = pSrc.shape.xStride := h.xStride_eq
  unfold DvpImage.sampleBytes dvpImageWidthStep
  rw [h.shape_color_eq, h.shape_planes_eq, hx]

/-- The lines of the source are lines of the target. -/
theorem lines_le : pSrc.shape.lines p ≤ pDst.shape.lines p := by
  rw [Placed.lines_eq, Placed.lines_eq, h.heightDiv_eq]
  exact Nat.div_le_div_right (BitVec.le_def.mp h.height_le)

/-- The lines of the source are not longer than those of the target. -/
theorem patchLineSize_le (hp : p < pSrc.planes.toNat) :
    (dvpImagePatchLineSize pSrc.shape p).toNat ≤ (dvpImagePatchLineSize pDst.shape p).toNat := by
  have hpd : p < pDst.planes.toNat := by rwa [h.planes_eq]
  rw [h.src.patchLineSize_eq hp, h.dst.patchLineSize_eq hpd, h.sampleBytes_eq]
  apply Nat.mul_le_mul_right
  unfold Placed.cols
  rw [h.widthDiv_eq]
  exact Nat.div_le_div_right (BitVec.le_def.mp h.width_le)

/-! ## The copies -/

/-- The copy has one transfer for each byte of the lines of the patch. -/
theorem mem_copySame {t : Transfer Nat UInt8} :
    t ∈ copySame a pDst pSrc ↔
      ∃ p < pSrc.planes.toNat, ∃ y < pSrc.shape.lines p,
        ∃ k < (dvpImagePatchLineSize pSrc.shape p).toNat,
          copy (patchLine a pDst p y + k) (patchLine a pSrc p y + k) = t := by
  unfold patchLine
  simp only [h.heightDiv_eq]
  simp only [copySame, memcpy, List.mem_flatMap, List.mem_range, mem_copyRun]
  rfl

/-- A byte of a line of the target that is copied to. -/
theorem mem_dstMemory (hp : p < pSrc.planes.toNat) (hy : y < pSrc.shape.lines p) {k : Nat}
    (hk : k < (dvpImagePatchLineSize pSrc.shape p).toNat) :
    patchLine a pDst p y + k ∈ planeMemory pDst dstBlock p :=
  h.dst.mem_planeMemory (by rwa [h.planes_eq]) (hy.trans_le h.lines_le)
    (hk.trans_le (h.patchLineSize_le hp))

/-- The copy reads the memory of the source. -/
theorem reads_copySame {ptr : Nat} (hptr : ptr ∈ reads (copySame a pDst pSrc)) :
    ∃ p < pSrc.planes.toNat, ptr ∈ planeMemory pSrc srcBlock p := by
  obtain ⟨t, ht, hmem⟩ := mem_reads.mp hptr
  obtain ⟨p, hp, y, hy, k, hk, rfl⟩ := h.mem_copySame.mp ht
  rw [List.mem_singleton.mp hmem]
  exact ⟨p, hp, h.src.mem_planeMemory hp hy hk⟩

/-- The copy writes the lines of the patch. -/
theorem writes_copySame {ptr : Nat} (hptr : ptr ∈ writes (copySame a pDst pSrc)) :
    ∃ p < pSrc.planes.toNat, ∃ y < pSrc.shape.lines p,
      ∃ k < (dvpImagePatchLineSize pSrc.shape p).toNat, patchLine a pDst p y + k = ptr := by
  obtain ⟨t, ht, w, hw, rfl⟩ := mem_writes.mp hptr
  obtain ⟨p, hp, y, hy, k, hk, rfl⟩ := h.mem_copySame.mp ht
  rw [List.mem_singleton.mp hw]
  exact ⟨p, hp, y, hy, k, hk, rfl⟩

/-- Nothing of the source is written. -/
theorem notMem_writes {ptr : Nat} (hp : p < pSrc.planes.toNat)
    (hptr : ptr ∈ planeMemory pSrc srcBlock p) : ptr ∉ writes (copySame a pDst pSrc) := by
  intro hmem
  -- what is written is in the memory of the target, which is apart
  obtain ⟨q, hq, y, hy, k, hk, rfl⟩ := h.writes_copySame hmem
  have hqd : q < pDst.planes.toNat := by rwa [h.planes_eq]
  exact Set.disjoint_left.mp (h.imagesApart q hqd p hp) (h.mem_dstMemory hq hy hk) hptr

/-- A byte of a line of the source is at its place in the line of the target. -/
theorem run_copySame (hp : p < pSrc.planes.toNat) (hy : y < pSrc.shape.lines p) {k : Nat}
    (hk : k < (dvpImagePatchLineSize pSrc.shape p).toNat) :
    run mem (copySame a pDst pSrc) (patchLine a pDst p y + k) =
      mem (patchLine a pSrc p y + k) := by
  apply run_eq
  · intro ptr hread
    obtain ⟨q, hq, hptr⟩ := h.reads_copySame hread
    exact h.notMem_writes hq hptr
  · -- the bytes of the target are apart, so one transfer alone writes this one
    intro t ht w hw hptr
    obtain ⟨q, hq, z, hz, l, hl, rfl⟩ := h.mem_copySame.mp ht
    rw [List.mem_singleton.mp hw] at hptr ⊢
    obtain ⟨rfl, rfl, rfl⟩ := h.dst.patchAddress_inj h.planesApart (by rwa [h.planes_eq])
      (by rwa [h.planes_eq]) (hz.trans_le h.lines_le) (hy.trans_le h.lines_le)
      (hl.trans_le (h.patchLineSize_le hq)) (hk.trans_le (h.patchLineSize_le hp)) hptr
    rfl
  · refine .inl (mem_writes.mpr ⟨_, h.mem_copySame.mpr ⟨p, hp, y, hy, k, hk, rfl⟩, _,
      List.mem_singleton_self _, rfl⟩)

/-- After the copy a line of the target is the line of the source. -/
theorem peek_run_copySame (hp : p < pSrc.planes.toNat) (hy : y < pSrc.shape.lines p) :
    peek (run mem (copySame a pDst pSrc)) (patchLine a pDst p y)
        (dvpImagePatchLineSize pSrc.shape p).toNat =
      peek (run mem (copySame a pDst pSrc)) (patchLine a pSrc p y)
        (dvpImagePatchLineSize pSrc.shape p).toNat := by
  apply List.map_congr_left
  intro k hk
  rw [List.mem_range] at hk
  -- the byte of the source is as it was before the copy
  rw [h.run_copySame hp hy hk,
    run_of_notMem (h.notMem_writes hp (h.src.mem_planeMemory hp hy hk))]

/-- For images of one colour and size the code makes this copy. -/
theorem dvpImageCopy_eq : dvpImageCopy a pDst pSrc = some (copySame a pDst pSrc) := by
  have hfits : ¬(pDst.width < pSrc.width ∨ pDst.height < pSrc.height) := by
    rw [not_or, BitVec.not_lt, BitVec.not_lt]
    exact ⟨h.width_le, h.height_le⟩
  unfold dvpImageCopy
  rw [h.src.hasNull_eq, h.dst.hasNull_eq, if_neg Bool.false_ne_true, if_neg Bool.false_ne_true,
    if_neg hfits, if_pos h.color_eq]

/-- Patches of equal dimensions whose lines are equal are equal for `DVP_Image_PatchEqual`. -/
theorem patchEqual (hwidth : pSrc.width = pDst.width) (hheight : pSrc.height = pDst.height)
    (hlines : ∀ p < pSrc.planes.toNat, ∀ y < pSrc.shape.lines p,
      peek mem (patchLine a pDst p y) (dvpImagePatchLineSize pSrc.shape p).toNat =
        peek mem (patchLine a pSrc p y) (dvpImagePatchLineSize pSrc.shape p).toNat) :
    dvpImagePatchEqual a pDst pSrc mem = true := by
  have hdims : ¬(pSrc.width ≠ pDst.width ∨ pSrc.height ≠ pDst.height) := by
    rw [hwidth, hheight]
    simp
  have hinside : ¬(pSrc.bufWidth < pSrc.xStart + pSrc.width ∨
      pDst.bufWidth < pDst.xStart + pDst.width ∨ pSrc.bufHeight < pSrc.yStart + pSrc.height ∨
      pDst.bufHeight < pDst.yStart + pDst.height) := by
    simp only [not_or]
    exact ⟨h.src.start_add_le.1, h.dst.start_add_le.1, h.src.start_add_le.2,
      h.dst.start_add_le.2⟩
  unfold dvpImagePatchEqual
  rw [h.src.hasNull_eq, h.dst.hasNull_eq, if_neg Bool.false_ne_true, if_neg Bool.false_ne_true,
    if_neg hdims, if_neg hinside, if_pos h.color_eq, List.all_eq_true]
  -- no test fails, so that the lines decide
  intro p hp
  rw [List.all_eq_true]
  intro y hy
  rw [decide_eq_true_eq]
  have hline := hlines p (List.mem_range.mp hp) y (List.mem_range.mp hy)
  unfold patchLine at hline
  rwa [h.heightDiv_eq] at hline

end SameColor

/-- The transfers change only bytes in the lines of the target that the source has too, and make
patches of equal dimensions equal. -/
structure CopyExact (a : Arch) (pDst pSrc : DvpImageT) (ts : List (Transfer Nat UInt8)) : Prop where
  keeps : ∀ (mem : Nat → UInt8) (ptr : Nat),
    (∀ p < pDst.planes.toNat, ∀ y < (pSrc.height / dvpImageHeightDiv pDst.shape p).toNat,
      ptr ∉ lineAddresses a pDst (p, y)) → run mem ts ptr = mem ptr
  equal : pSrc.width = pDst.width → pSrc.height = pDst.height →
    ∀ mem : Nat → UInt8, dvpImagePatchEqual a pDst pSrc (run mem ts) = true

/-- A copy between placed images of one colour is exact, if they share no memory and the patch of
the source fits that of the target. -/
theorem dvpImageCopy_same (a : Arch) (pDst pSrc : DvpImageT) (dstBlock srcBlock : Nat → BitVec 32)
    (hdst : Placed a pDst dstBlock) (hsrc : Placed a pSrc srcBlock)
    (hcolor : pDst.color = pSrc.color) (hplanes : PlanesApart pDst dstBlock)
    (hapart : ImagesApart pDst pSrc dstBlock srcBlock) (hwidth : pSrc.width ≤ pDst.width)
    (hheight : pSrc.height ≤ pDst.height) :
    ∃ ts, dvpImageCopy a pDst pSrc = some ts ∧ CopyExact a pDst pSrc ts := by
  have h : SameColor a pDst pSrc dstBlock srcBlock :=
    ⟨hdst, hsrc, hcolor, hplanes, hapart, hwidth, hheight⟩
  refine ⟨_, h.dvpImageCopy_eq, fun mem ptr hout => ?_, fun hw hh mem => ?_⟩
  · apply run_of_notMem
    intro hmem
    obtain ⟨p, hp, y, hy, k, hk, rfl⟩ := h.writes_copySame hmem
    refine hout p (by rwa [h.planes_eq]) y ?_ (mem_lineAddresses.mpr ⟨k, ?_, rfl⟩)
    · rw [h.heightDiv_eq]
      exact hy
    · exact hk.trans_le (h.patchLineSize_le hp)
  · exact h.patchEqual hw hh fun p hp y hy => h.peek_run_copySame hp hy

/-- A semi-planar image of odd dimensions, with a padded stride. -/
def oddNv12 : DvpImageT :=
  dvpImageAlloc (dvpImageInit 3 3 fourccNv12) 0 (fun p => 4096 * (p + 1)) [1, 4]

/-- A patch of the same dimensions inside a larger image. -/
def oddPatchNv12 : DvpImageT :=
  (dvpImageAlloc (dvpImageInit 5 5 fourccNv12) 0 (fun p => 4096 * (p + 3)) [1, 8]).withPatch
    .arch32 1 1 3 3

/-- The image is placed in its memory. -/
theorem placed_oddNv12 : Placed .arch32 oddNv12 fun _ => 4096 :=
  ⟨⟨by decide, by decide⟩, by decide, ⟨by decide, by decide⟩, by decide, by decide, by decide,
    by decide⟩

/-- The image with a patch is placed in its memory. -/
theorem placed_oddPatchNv12 : Placed .arch32 oddPatchNv12 fun _ => 4096 :=
  ⟨⟨by decide, by decide⟩, by decide, ⟨by decide, by decide⟩, by decide, by decide, by decide,
    by decide⟩

/-- A copy of an NV12 image of odd size into a patch. -/
theorem dvpImageCopy_same_nv12 :
    ∃ ts, dvpImageCopy .arch32 oddPatchNv12 oddNv12 = some ts ∧
      CopyExact .arch32 oddPatchNv12 oddNv12 ts :=
  dvpImageCopy_same .arch32 oddPatchNv12 oddNv12 (fun _ => 4096) (fun _ => 4096)
    placed_oddPatchNv12 placed_oddNv12 (by decide) (by decide) (by decide) (by decide) (by decide)

end DVP.Kgraph
