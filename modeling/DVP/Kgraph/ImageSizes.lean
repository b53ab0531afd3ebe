import DVP.Kgraph.ImageLayout
import Mathlib.Algebra.Order.BigOperators.Group.List
import Mathlib.Tactic.Ring

/-!
# The sizes of an image

`DVP_Image_Init`, `DVP_Image_Size`, `DVP_Image_Dims` and `DVP_Image_Range` each have their own
account of what the planes of a format take.

* `dvpImage_sizes_agree_iff`: the first three agree exactly for the formats that are not in the
  list `differently`. `chroma` is what they have to agree on, the subsampling of the planes after
  the first one, and there is one lemma `initSizes_*` for each kind of it.
* `dvpImageRange_covers_iff`: the range of an image covers the space between its lines exactly when
  there is none, because it adds up `DVP_Image_PlaneSize` and not `DVP_Image_PlaneRange`.
-/

namespace DVP.Kgraph

open Sosal

attribute [local instance] lawfulBEq_fourcc

variable {image : DvpImage} {p : Nat} {tiler : Bool} {width height fourcc : BitVec 32}

/-! ## Colours -/

/-- How the planes after the first one are subsampled. -/
structure Chroma where
  widthStep : BitVec 32
  widthDiv : BitVec 32
  heightDiv : BitVec 32
  deriving DecidableEq

/-- The subsampling of a colour. -/
def chroma (color : BitVec 32) : Chroma :=
  if color ∈ [fourccNv12, fourccNv21] then ⟨2, 2, 2⟩
  else if color ∈ [fourccYuv9, fourccYvu9] then ⟨1, 4, 4⟩
  else if color ∈ [fourccYv12, fourccIyuv] then ⟨1, 2, 2⟩
  else if color ∈ [fourccYu16, fourccYv16] then ⟨1, 2, 1⟩
  else ⟨1, 1, 1⟩

/-- The colours with a subsampling. -/
def subsampled : List (BitVec 32) :=
  [fourccNv12, fourccNv21, fourccYuv9, fourccYvu9, fourccYv12, fourccIyuv, fourccYu16, fourccYv16]

/-- The planes after the first one have the steps and divisors of chroma. -/
theorem chroma_eq (hp : p < image.planes.toNat) (hpos : 0 < p) :
    chroma image.color =
      ⟨dvpImageWidthStep image p, dvpImageWidthDiv image p, dvpImageHeightDiv image p⟩ := by
  unfold dvpImageWidthStep dvpImageWidthDiv dvpImageHeightDiv chroma
  simp only [hp, hpos, true_and, if_true]
  by_cases hc : image.color ∈ subsampled
  · simp only [subsampled, List.mem_cons, List.not_mem_nil, or_false] at hc
    rcases hc with hc | hc | hc | hc | hc | hc | hc | hc <;> rw [hc] <;> decide
  · simp only [subsampled, List.mem_cons, List.not_mem_nil, or_false, not_or] at hc
    simp [hc]

/-- The first plane has one sample after another. -/
@[simp]
theorem widthStep_zero : (dvpImageWidthStep image 0).toNat = 1 := by
  unfold dvpImageWidthStep
  simp

/-- The first plane has all lines. -/
@[simp]
theorem heightDiv_zero : (dvpImageHeightDiv image 0).toNat = 1 := by
  unfold dvpImageHeightDiv
  simp

/-- The first plane has all columns, except for bits. -/
theorem widthDiv_zero (hp : 0 < image.planes.toNat) :
    dvpImageWidthDiv image 0 = if image.color = fourccBin1 then 8 else 1 := by
  unfold dvpImageWidthDiv
  rw [if_pos hp, if_neg (Nat.lt_irrefl 0)]

/-- A sample is not more than the pixels it stands for. -/
theorem chroma_step_le (color : BitVec 32) :
    (chroma color).widthStep.toNat ≤ (chroma color).widthDiv.toNat := by
  unfold chroma
  split_ifs <;> decide

/-- The samples of a line are not more than its pixels. -/
theorem chroma_samples_le (color width : BitVec 32) :
    (chroma color).widthStep.toNat * (width.toNat / (chroma color).widthDiv.toNat) ≤ width.toNat :=
  (Nat.mul_le_mul_right _ (chroma_step_le color)).trans (Nat.mul_div_le _ _)

/-! ## Sums over planes -/

/-- A sum of 32-bit numbers that fits 32 bits. -/
theorem foldl_add_toNat {f : Nat → BitVec 32} {n : Nat}
    (h : ((List.range n).map fun p => (f p).toNat).sum < 2 ^ 32) :
    ((List.range n).foldl (fun size p => size + f p) 0).toNat =
      ((List.range n).map fun p => (f p).toNat).sum := by
  induction n with
  | zero => rfl
  | succ n ih =>
    rw [List.range_succ, List.map_append, List.sum_append, List.map_singleton,
      List.sum_singleton] at h ⊢
    rw [List.foldl_append, List.foldl_cons, List.foldl_nil, BitVec.toNat_add, ih (by omega),
      Nat.mod_eq_of_lt h]

/-- A sum over planes that are alike after the first one. -/
theorem sum_range_of_alike {f : Nat → Nat} {n y : Nat} (hn : 0 < n)
    (h : ∀ p, 0 < p → p < n → f p = y) : ((List.range n).map f).sum = f 0 + (n - 1) * y := by
  induction n with
  | zero => omega
  | succ n ih =>
    rw [List.range_succ, List.map_append, List.sum_append, List.map_singleton, List.sum_singleton]
    match n with
    | 0 => simp
    | n + 1 =>
      rw [ih (by omega) fun p hp hlt => h p hp (by omega), h (n + 1) (by omega) (by omega),
        Nat.add_sub_cancel, Nat.add_sub_cancel, Nat.succ_mul, Nat.add_assoc]

/-! ## The size of a plane -/

/-- `DVP_Image_PlaneSize`, when the plane is not larger than what 32 bits count. -/
theorem DvpImage.planeSize_toNat (hp : p < image.planes.toNat)
    (h : image.sampleBytes p * image.samples p * image.bufHeight.toNat < 2 ^ 32) :
    (dvpImagePlaneSize image p).toNat =
      image.sampleBytes p * image.samples p * image.bufHeight.toNat /
        (dvpImageHeightDiv image p).toNat := by
  unfold DvpImage.sampleBytes DvpImage.samples at h ⊢
  unfold dvpImagePlaneSize dvpImageLineSize
  rw [if_pos hp, if_pos hp, BitVec.toNat_udiv, BitVec.toNat_mul, BitVec.toNat_mul,
    BitVec.toNat_mul, BitVec.toNat_udiv, Nat.mod_mul_mod, Nat.mul_assoc (_ % _), Nat.mod_mul_mod,
    ← Nat.mul_assoc, Nat.mod_eq_of_lt h]

/-- No computation of the sizes of a new image leaves 32 bits. -/
structure InitFits (width height fourcc : BitVec 32) : Prop where
  width_lt : width.toNat < 2 ^ 31
  height_lt : height.toNat < 2 ^ 31
  bytes_lt : height.toNat * width.toNat * (initXStride fourcc).toNat *
    (initPlanes fourcc).toNat < 2 ^ 32
  bytes_lt_420 : fourcc ∈ [fourccNv12, fourccNv21, fourccIyuv, fourccYv12] →
    height.toNat * width.toNat * 3 < 2 ^ 32

/-- Every image has a plane. -/
theorem initPlanes_pos (fourcc : BitVec 32) : 0 < (initPlanes fourcc).toNat := by
  unfold initPlanes
  split_ifs <;> decide

/-- The columns of pixels that a sample of the first plane stands for. -/
def firstWidthDiv (fourcc : BitVec 32) : Nat := if fourcc = fourccBin1 then 8 else 1

namespace InitFits

variable (h : InitFits width height fourcc)
include h

/-- The plane of an image that fits 32 bits fits them. -/
theorem plane_lt : (initXStride fourcc).toNat * width.toNat * height.toNat < 2 ^ 32 := by
  have hle := Nat.le_mul_of_pos_right
    (height.toNat * width.toNat * (initXStride fourcc).toNat) (initPlanes_pos fourcc)
  have hbytes := h.bytes_lt
  calc (initXStride fourcc).toNat * width.toNat * height.toNat
      = height.toNat * width.toNat * (initXStride fourcc).toNat := by ring
    _ < 2 ^ 32 := by omega

/-- A part of the bytes of a plane. -/
theorem part_lt {n : Nat} (hn : n ≤ width.toNat) :
    (initXStride fourcc).toNat * n * height.toNat < 2 ^ 32 :=
  (Nat.mul_le_mul_right _ (Nat.mul_le_mul_left _ hn)).trans_lt h.plane_lt

/-- The first plane. -/
theorem planeSize_zero :
    (dvpImagePlaneSize (dvpImageInit width height fourcc).shape 0).toNat =
      (initXStride fourcc).toNat * (width.toNat / firstWidthDiv fourcc) * height.toNat := by
  have hp : 0 < (dvpImageInit width height fourcc).shape.planes.toNat := initPlanes_pos fourcc
  have hdiv : (dvpImageWidthDiv (dvpImageInit width height fourcc).shape 0).toNat =
      firstWidthDiv fourcc := by
    rw [widthDiv_zero hp]
    show (if fourcc = fourccBin1 then 8#32 else 1#32).toNat = _
    unfold firstWidthDiv
    split <;> rfl
  have hline : (dvpImageInit width height fourcc).shape.sampleBytes 0 *
      (dvpImageInit width height fourcc).shape.samples 0 =
        (initXStride fourcc).toNat * (width.toNat / firstWidthDiv fourcc) := by
    unfold DvpImage.samples DvpImage.sampleBytes
    rw [hdiv, widthStep_zero, Nat.mul_one]
    rfl
  rw [DvpImage.planeSize_toNat hp, hline, heightDiv_zero, Nat.div_one]
  · rfl
  · rw [hline]
    exact h.part_lt (Nat.div_le_self _ _)

/-- The planes after the first one. -/
theorem planeSize_pos (hp : p < (initPlanes fourcc).toNat) (hpos : 0 < p) :
    (dvpImagePlaneSize (dvpImageInit width height fourcc).shape p).toNat =
      (initXStride fourcc).toNat * ((chroma fourcc).widthStep.toNat *
        (width.toNat / (chroma fourcc).widthDiv.toNat)) * height.toNat /
          (chroma fourcc).heightDiv.toNat := by
  have hchroma : chroma (dvpImageInit width height fourcc).shape.color = _ := chroma_eq hp hpos
  change chroma fourcc = _ at hchroma
  have hlt := h.part_lt (chroma_samples_le fourcc width)
  rw [← Nat.mul_assoc (initXStride fourcc).toNat] at hlt ⊢
  rw [hchroma] at hlt ⊢
  exact DvpImage.planeSize_toNat hp hlt

/-- `DVP_Image_Size`. -/
theorem size_eq :
    (dvpImageSize (dvpImageInit width height fourcc).shape).toNat =
      (initXStride fourcc).toNat * (width.toNat / firstWidthDiv fourcc) * height.toNat +
        ((initPlanes fourcc).toNat - 1) *
          ((initXStride fourcc).toNat * ((chroma fourcc).widthStep.toNat *
            (width.toNat / (chroma fourcc).widthDiv.toNat)) * height.toNat /
              (chroma fourcc).heightDiv.toNat) := by
  have hsum := sum_range_of_alike (f := fun p =>
    (dvpImagePlaneSize (dvpImageInit width height fourcc).shape p).toNat)
    (initPlanes_pos fourcc) fun p hpos hp => h.planeSize_pos hp hpos
  rw [h.planeSize_zero] at hsum
  unfold dvpImageSize
  rw [foldl_add_toNat]
  · exact hsum
  · -- no plane is larger than the pixels of the image
    refine hsum.trans_lt ?_
    have hfirst := Nat.mul_le_mul_right height.toNat (Nat.mul_le_mul_left (initXStride fourcc).toNat
      (Nat.div_le_self width.toNat (firstWidthDiv fourcc)))
    have hrest := (Nat.div_le_self ((initXStride fourcc).toNat *
      ((chroma fourcc).widthStep.toNat * (width.toNat / (chroma fourcc).widthDiv.toNat)) *
        height.toNat) (chroma fourcc).heightDiv.toNat).trans
      (Nat.mul_le_mul_right height.toNat (Nat.mul_le_mul_left _ (chroma_samples_le fourcc width)))
    have hplanes := Nat.mul_le_mul_left ((initPlanes fourcc).toNat - 1) hrest
    have hbytes := h.bytes_lt
    have htotal : height.toNat * width.toNat * (initXStride fourcc).toNat *
        (initPlanes fourcc).toNat = (initXStride fourcc).toNat * width.toNat * height.toNat +
          ((initPlanes fourcc).toNat - 1) *
            ((initXStride fourcc).toNat * width.toNat * height.toNat) := by
      obtain ⟨n, hn⟩ := Nat.exists_eq_succ_of_ne_zero (initPlanes_pos fourcc).ne'
      rw [hn, Nat.succ_sub_one, Nat.succ_eq_add_one]
      ring
    omega

end InitFits

/-! ## The dimensions of a plane -/

/-- A division of small numbers is that of naturals. -/
theorem sdiv_toNat {x : BitVec 32} (hx : x.toNat < 2 ^ 31) {n : BitVec 32}
    (hn : n.toNat < 2 ^ 31) : (x.sdiv n).toNat = x.toNat / n.toNat := by
  rw [BitVec.sdiv_eq]
  have hmsb : ∀ {z : BitVec 32}, z.toNat < 2 ^ 31 → z.msb = false := by
    intro z hz
    rw [BitVec.msb_eq_decide]
    simpa using hz
  rw [hmsb hx, hmsb hn]
  exact BitVec.toNat_udiv

/-- The product of the dimensions of the planes after the first one. -/
def chromaBytes (width height fourcc : BitVec 32) : Nat :=
  if fourcc ∈ [fourccNv12, fourccNv21] then 2 * (width.toNat / 2) * (height.toNat / 2)
  else if fourcc ∈ [fourccYuv9, fourccYvu9] then (width.toNat / 4) * (height.toNat / 4)
  else if fourcc ∈ [fourccYv12, fourccIyuv] then (width.toNat / 2) * (height.toNat / 2)
  else if fourcc ∈ [fourccYu16, fourccYv16] then 2 * (width.toNat / 2) * height.toNat
  else (initXStride fourcc).toNat * width.toNat * height.toNat

/-- The dimensions of the first plane. With `DVP_USE_TILER` they are in pairs of pixels for the
4:2:2 formats. -/
theorem dims_zero :
    dvpImageDims tiler (dvpImageInit width height fourcc).shape 0 =
      if tiler ∧ fourcc ∈ [fourccUyvy, fourccYuy2, fourccVyuy, fourccYvyu] then
        [4, width / 2, height]
      else [initXStride fourcc, width, height] := by
  by_cases hc : fourcc ∈ subsampled
  · simp only [subsampled, List.mem_cons, List.not_mem_nil, or_false] at hc
    rcases hc with rfl | rfl | rfl | rfl | rfl | rfl | rfl | rfl
    all_goals
      rw [if_neg fun h => absurd h.2 (by decide)]
      rfl
  · simp only [subsampled, List.mem_cons, List.not_mem_nil, or_false, not_or] at hc
    unfold dvpImageDims
    have hp := initPlanes_pos fourcc
    simp [DvpImageT.shape, dvpImageInit, hc, hp]

/-- The first plane has the bytes of its lines. -/
theorem dimsBytes_zero (heven : 2 ∣ width.toNat) :
    (dvpImageInit width height fourcc).shape.dimsBytes tiler 0 =
      (initXStride fourcc).toNat * width.toNat * height.toNat := by
  unfold DvpImage.dimsBytes
  rw [dims_zero]
  split_ifs with hpacked
  -- with the tiler: half the columns of twice the bytes, which is the same for even widths
  · have hstride : initXStride fourcc = 2 := by
      unfold initXStride
      rw [if_pos hpacked.2]
    rw [hstride]
    show 4 * ((width / 2).toNat * (height.toNat * 1)) = 2 * width.toNat * height.toNat
    rw [BitVec.toNat_udiv]
    obtain ⟨n, hn⟩ := heven
    rw [hn, show (2 : BitVec 32).toNat = 2 from rfl, Nat.mul_div_cancel_left n (by decide)]
    ring
  · show (initXStride fourcc).toNat * (width.toNat * (height.toNat * 1)) = _
    ring

/-- The dimensions of the planes after the first one. -/
theorem dims_pos (hp : p < (initPlanes fourcc).toNat) (hpos : 0 < p) :
    dvpImageDims tiler (dvpImageInit width height fourcc).shape p =
      if fourcc ∈ [fourccNv12, fourccNv21] then [2, width.sdiv 2, height.sdiv 2]
      else if fourcc ∈ [fourccYuv9, fourccYvu9] then [1, width.sdiv 4, height.sdiv 4]
      else if fourcc ∈ [fourccYv12, fourccIyuv] then [1, width.sdiv 2, height.sdiv 2]
      else if fourcc ∈ [fourccYu16, fourccYv16] then [2, width.sdiv 2, height]
      else [initXStride fourcc, width, height] := by
  have hle := initPlanes_le fourcc
  -- no format has more than three planes
  have hlast : p = 1 ∨ p = 2 := by omega
  by_cases hc : fourcc ∈ subsampled
  · simp only [subsampled, List.mem_cons, List.not_mem_nil, or_false] at hc
    rcases hlast with rfl | rfl
    · rcases hc with rfl | rfl | rfl | rfl | rfl | rfl | rfl | rfl <;> rfl
    · -- the semi-planar formats have two planes
      rcases hc with rfl | rfl | hc
      · exact absurd hp (by decide)
      · exact absurd hp (by decide)
      · rcases hc with rfl | rfl | rfl | rfl | rfl | rfl <;> rfl
  · have hpacked : ¬(tiler = true ∧ fourcc ∈ [fourccUyvy, fourccYuy2, fourccVyuy, fourccYvyu]) := by
      rintro ⟨-, hmem⟩
      have hone : (initPlanes fourcc).toNat = 1 := by
        simp only [List.mem_cons, List.not_mem_nil, or_false] at hmem
        rcases hmem with rfl | rfl | rfl | rfl <;> rfl
      omega
    simp only [subsampled, List.mem_cons, List.not_mem_nil, or_false, not_or] at hc hpacked
    unfold dvpImageDims
    simp only [DvpImageT.shape, dvpImageInit, if_neg hpacked, hp, hc, List.mem_cons,
      List.not_mem_nil, or_false, if_false, if_true]

/-- The other planes have the bytes of chroma. -/
theorem dimsBytes_pos (hw : width.toNat < 2 ^ 31) (hh : height.toNat < 2 ^ 31)
    (hp : p < (initPlanes fourcc).toNat) (hpos : 0 < p) :
    (dvpImageInit width height fourcc).shape.dimsBytes tiler p =
      chromaBytes width height fourcc := by
  have hw2 : (width.sdiv 2).toNat = width.toNat / 2 := sdiv_toNat hw (by decide)
  have hh2 : (height.sdiv 2).toNat = height.toNat / 2 := sdiv_toNat hh (by decide)
  have hw4 : (width.sdiv 4).toNat = width.toNat / 4 := sdiv_toNat hw (by decide)
  have hh4 : (height.sdiv 4).toNat = height.toNat / 4 := sdiv_toNat hh (by decide)
  have hprod : ∀ x y z : BitVec 32,
      ([x, y, z].map BitVec.toNat).prod = x.toNat * y.toNat * z.toNat := by
    intro x y z
    simp [Nat.mul_assoc]
  unfold DvpImage.dimsBytes chromaBytes
  rw [dims_pos hp hpos]
  split_ifs
  · rw [hprod, hw2, hh2]
    rfl
  · rw [hprod, hw4, hh4]
    exact congrArg (· * _) (Nat.one_mul _)
  · rw [hprod, hw2, hh2]
    exact congrArg (· * _) (Nat.one_mul _)
  · rw [hprod, hw2]
    rfl
  · rw [hprod]

/-- The dimensions of all planes. -/
theorem InitFits.dims_eq (h : InitFits width height fourcc) (heven : 2 ∣ width.toNat) :
    ((List.range (initPlanes fourcc).toNat).map
        ((dvpImageInit width height fourcc).shape.dimsBytes tiler)).sum =
      (initXStride fourcc).toNat * width.toNat * height.toNat +
        ((initPlanes fourcc).toNat - 1) * chromaBytes width height fourcc := by
  rw [sum_range_of_alike (initPlanes_pos fourcc) fun p hpos hp =>
    dimsBytes_pos h.width_lt h.height_lt hp hpos, dimsBytes_zero heven]

/-! ## The three sizes -/

namespace InitFits

variable (h : InitFits width height fourcc)
include h

/-- `numBytes` of the 4:2:0 formats. -/
theorem numBytes_420 (hc : fourcc ∈ [fourccNv12, fourccNv21, fourccIyuv, fourccYv12]) :
    (dvpImageInit width height fourcc).numBytes.toNat = height.toNat * width.toNat * 3 / 2 := by
  have hlt := h.bytes_lt_420 hc
  have hnum : (dvpImageInit width height fourcc).numBytes = height * width * 3 / 2 := by
    simp only [List.mem_cons, List.not_mem_nil, or_false] at hc
    rcases hc with rfl | rfl | rfl | rfl <;> rfl
  rw [hnum, BitVec.toNat_udiv, BitVec.toNat_mul, BitVec.toNat_mul, Nat.mod_mul_mod]
  exact congrArg (· / 2) (Nat.mod_eq_of_lt hlt)

/-- `numBytes` of the 4:2:2 formats in planes. -/
theorem numBytes_422 (hc : fourcc ∈ [fourccYv16, fourccYu16]) :
    (dvpImageInit width height fourcc).numBytes.toNat =
      height.toNat * width.toNat + 2 * (height.toNat * width.toNat / 2) := by
  have hnum : (dvpImageInit width height fourcc).numBytes =
      height * width + 2 * (height * width / 2) ∧
        (initXStride fourcc).toNat = 1 ∧ (initPlanes fourcc).toNat = 3 := by
    simp only [List.mem_cons, List.not_mem_nil, or_false] at hc
    rcases hc with rfl | rfl <;> exact ⟨rfl, rfl, rfl⟩
  have hlt := h.bytes_lt
  rw [hnum.2.1, hnum.2.2, Nat.mul_one] at hlt
  -- the rounding comes before the doubling, and is kept so here
  have hhalf : (2 * (height * width / 2)).toNat = 2 * (height.toNat * width.toNat / 2) := by
    rw [BitVec.toNat_mul, BitVec.toNat_udiv, BitVec.toNat_mul,
      Nat.mod_eq_of_lt (a := height.toNat * width.toNat) (by omega)]
    show 2 * (height.toNat * width.toNat / 2) % 2 ^ 32 = _
    omega
  rw [hnum.1, BitVec.toNat_add, hhalf, BitVec.toNat_mul,
    Nat.mod_eq_of_lt (a := height.toNat * width.toNat) (by omega), Nat.mod_eq_of_lt (by omega)]

/-- `numBytes` of the formats of which `DVP_Image_Init` does not say that they are different. -/
theorem numBytes_alike (hc : fourcc ∉ [fourccBin1, fourccYv16, fourccYu16, fourccNv12, fourccNv21,
    fourccIyuv, fourccYv12]) :
    (dvpImageInit width height fourcc).numBytes.toNat =
      height.toNat * width.toNat * (initXStride fourcc).toNat * (initPlanes fourcc).toNat := by
  have hnum : (dvpImageInit width height fourcc).numBytes =
      height * width * initXStride fourcc * initPlanes fourcc := by
    simp only [List.mem_cons, List.not_mem_nil, or_false, not_or] at hc
    show initNumBytes width height fourcc = _
    unfold initNumBytes
    simp [hc]
  rw [hnum, BitVec.toNat_mul, BitVec.toNat_mul, BitVec.toNat_mul, Nat.mod_mul_mod,
    Nat.mul_assoc (_ % _), Nat.mod_mul_mod, ← Nat.mul_assoc, Nat.mod_eq_of_lt h.bytes_lt]

end InitFits

/-- `numBytes`, `DVP_Image_Size` and the sum of the products of the dimensions of a new image. -/
structure InitSizes (tiler : Bool) (width height fourcc : BitVec 32)
    (numBytes size dims : Nat) : Prop where
  numBytes_eq : (dvpImageInit width height fourcc).numBytes.toNat = numBytes
  size_eq : (dvpImageSize (dvpImageInit width height fourcc).shape).toNat = size
  dims_eq : ((List.range (initPlanes fourcc).toNat).map
    ((dvpImageInit width height fourcc).shape.dimsBytes tiler)).sum = dims

/-- A format with a byte for each sample and `bytes` of dimensions in the planes after the first
one. -/
structure ByteFormat (width height fourcc : BitVec 32) (planes : Nat) (c : Chroma) (bytes : Nat) :
    Prop where
  xStride_eq : (initXStride fourcc).toNat = 1
  planes_eq : (initPlanes fourcc).toNat = planes
  chroma_eq : chroma fourcc = c
  firstWidthDiv_eq : firstWidthDiv fourcc = 1
  bytes_eq : chromaBytes width height fourcc = bytes

namespace InitFits

variable {planes bytes : Nat} {c : Chroma} (h : InitFits width height fourcc)
  (hformat : ByteFormat width height fourcc planes c bytes)
include h hformat

/-- The size is the sum of the planes. -/
theorem size_of_format :
    (dvpImageSize (dvpImageInit width height fourcc).shape).toNat =
      width.toNat * height.toNat + (planes - 1) *
        (c.widthStep.toNat * (width.toNat / c.widthDiv.toNat) * height.toNat /
          c.heightDiv.toNat) := by
  rw [h.size_eq, hformat.xStride_eq, hformat.planes_eq, hformat.chroma_eq,
    hformat.firstWidthDiv_eq, Nat.div_one, Nat.one_mul, Nat.one_mul]

/-- The dimensions have as many bytes as the planes. -/
theorem dims_of_format (heven : 2 ∣ width.toNat) :
    ((List.range (initPlanes fourcc).toNat).map
        ((dvpImageInit width height fourcc).shape.dimsBytes tiler)).sum =
      width.toNat * height.toNat + (planes - 1) * bytes := by
  rw [h.dims_eq heven, hformat.xStride_eq, hformat.planes_eq, hformat.bytes_eq, Nat.one_mul]

end InitFits

section Classes

variable {a b : Nat} (h : InitFits width height fourcc) (hw : width.toNat = 8 * a)
  (hh : height.toNat = 8 * b)
include h hw hh

/-- The semi-planar formats: the second plane has half the lines of the first one. -/
theorem initSizes_semiPlanar (hc : fourcc ∈ [fourccNv12, fourccNv21]) :
    InitSizes tiler width height fourcc (96 * (a * b)) (96 * (a * b)) (96 * (a * b)) := by
  simp only [List.mem_cons, List.not_mem_nil, or_false] at hc
  have hformat : ByteFormat width height fourcc 2 ⟨2, 2, 2⟩
      (2 * (width.toNat / 2) * (height.toNat / 2)) := by
    rcases hc with rfl | rfl <;> exact ⟨rfl, rfl, rfl, rfl, rfl⟩
  have hw2 : 8 * a / 2 = 4 * a := by omega
  have hh2 : 8 * b / 2 = 4 * b := by omega
  refine ⟨?_, ?_, ?_⟩
  · rw [h.numBytes_420 (by rcases hc with rfl | rfl <;> decide), hw, hh,
      show 8 * b * (8 * a) * 3 = 2 * (96 * (a * b)) by ring, Nat.mul_div_cancel_left _ (by decide)]
  · rw [h.size_of_format hformat, hw, hh]
    show 8 * a * (8 * b) + 1 * (2 * (8 * a / 2) * (8 * b) / 2) = _
    rw [hw2, show 2 * (4 * a) * (8 * b) = 2 * (32 * (a * b)) by ring,
      Nat.mul_div_cancel_left _ (by decide)]
    ring
  · rw [h.dims_of_format hformat (by omega), hw, hh, hw2, hh2]
    ring

/-- The planar formats with half the columns and half the lines. -/
theorem initSizes_planar (hc : fourcc ∈ [fourccYv12, fourccIyuv]) :
    InitSizes tiler width height fourcc (96 * (a * b)) (96 * (a * b)) (96 * (a * b)) := by
  simp only [List.mem_cons, List.not_mem_nil, or_false] at hc
  have hformat : ByteFormat width height fourcc 3 ⟨1, 2, 2⟩
      ((width.toNat / 2) * (height.toNat / 2)) := by
    rcases hc with rfl | rfl <;> exact ⟨rfl, rfl, rfl, rfl, rfl⟩
  have hw2 : 8 * a / 2 = 4 * a := by omega
  have hh2 : 8 * b / 2 = 4 * b := by omega
  refine ⟨?_, ?_, ?_⟩
  · rw [h.numBytes_420 (by rcases hc with rfl | rfl <;> decide), hw, hh,
      show 8 * b * (8 * a) * 3 = 2 * (96 * (a * b)) by ring, Nat.mul_div_cancel_left _ (by decide)]
  · rw [h.size_of_format hformat, hw, hh]
    show 8 * a * (8 * b) + 2 * (1 * (8 * a / 2) * (8 * b) / 2) = _
    rw [hw2, show 1 * (4 * a) * (8 * b) = 2 * (16 * (a * b)) by ring,
      Nat.mul_div_cancel_left _ (by decide)]
    ring
  · rw [h.dims_of_format hformat (by omega), hw, hh, hw2, hh2]
    ring

/-- The planar formats with a quarter of the columns and a quarter of the lines. `DVP_Image_Init`
counts whole planes for them. -/
theorem initSizes_quarter (hc : fourcc ∈ [fourccYuv9, fourccYvu9]) :
    InitSizes tiler width height fourcc (192 * (a * b)) (72 * (a * b)) (72 * (a * b)) := by
  simp only [List.mem_cons, List.not_mem_nil, or_false] at hc
  have hformat : ByteFormat width height fourcc 3 ⟨1, 4, 4⟩
      ((width.toNat / 4) * (height.toNat / 4)) := by
    rcases hc with rfl | rfl <;> exact ⟨rfl, rfl, rfl, rfl, rfl⟩
  have hw4 : 8 * a / 4 = 2 * a := by omega
  have hh4 : 8 * b / 4 = 2 * b := by omega
  refine ⟨?_, ?_, ?_⟩
  · -- `DVP_Image_Init` has no case for these formats
    rw [h.numBytes_alike (by rcases hc with rfl | rfl <;> decide), hformat.xStride_eq,
      hformat.planes_eq, hw, hh]
    ring
  · rw [h.size_of_format hformat, hw, hh]
    show 8 * a * (8 * b) + 2 * (1 * (8 * a / 4) * (8 * b) / 4) = _
    rw [hw4, show 1 * (2 * a) * (8 * b) = 4 * (4 * (a * b)) by ring,
      Nat.mul_div_cancel_left _ (by decide)]
    ring
  · rw [h.dims_of_format hformat (by omega), hw, hh, hw4, hh4]
    ring

/-- The planar formats with half the columns and all lines. `DVP_Image_Dims` has two bytes for
each of their samples. -/
theorem initSizes_half (hc : fourcc ∈ [fourccYu16, fourccYv16]) :
    InitSizes tiler width height fourcc (128 * (a * b)) (128 * (a * b)) (192 * (a * b)) := by
  simp only [List.mem_cons, List.not_mem_nil, or_false] at hc
  have hformat : ByteFormat width height fourcc 3 ⟨1, 2, 1⟩
      (2 * (width.toNat / 2) * height.toNat) := by
    rcases hc with rfl | rfl <;> exact ⟨rfl, rfl, rfl, rfl, rfl⟩
  have hw2 : 8 * a / 2 = 4 * a := by omega
  refine ⟨?_, ?_, ?_⟩
  · rw [h.numBytes_422 (by rcases hc with rfl | rfl <;> decide), hw, hh,
      show 8 * b * (8 * a) = 2 * (32 * (a * b)) by ring, Nat.mul_div_cancel_left _ (by decide)]
    ring
  · rw [h.size_of_format hformat, hw, hh]
    show 8 * a * (8 * b) + 2 * (1 * (8 * a / 2) * (8 * b) / 1) = _
    rw [hw2, Nat.div_one]
    ring
  · -- two bytes for a sample, of which there are half as many as pixels
    rw [h.dims_of_format hformat (by omega), hw, hh, hw2]
    ring

/-- The bitmap. `DVP_Image_Dims` has a byte for each of its pixels. -/
theorem initSizes_bitmap (hc : fourcc = fourccBin1) :
    InitSizes tiler width height fourcc (8 * (a * b)) (8 * (a * b)) (64 * (a * b)) := by
  subst hc
  have hlt : height.toNat * width.toNat * 1 * 1 < 2 ^ 32 := h.bytes_lt
  have hw8 : 8 * a / 8 = a := by omega
  refine ⟨?_, ?_, ?_⟩
  · show (height * width / 8).toNat = _
    rw [BitVec.toNat_udiv, BitVec.toNat_mul, Nat.mod_eq_of_lt (by omega), hw, hh]
    show 8 * b * (8 * a) / 8 = _
    rw [show 8 * b * (8 * a) = 8 * (8 * (a * b)) by ring, Nat.mul_div_cancel_left _ (by decide)]
  · rw [h.size_eq, hw, hh]
    show 1 * (8 * a / 8) * (8 * b) + 0 * _ = _
    rw [hw8, Nat.zero_mul]
    ring
  · rw [h.dims_eq (by omega), hw, hh]
    show 1 * (8 * a) * (8 * b) + 0 * _ = _
    rw [Nat.zero_mul]
    ring

/-- The other formats, whose planes are alike. -/
theorem initSizes_alike (hc : fourcc ∉ subsampled) (hbin : fourcc ≠ fourccBin1) :
    InitSizes tiler width height fourcc
      (64 * ((initXStride fourcc).toNat * (initPlanes fourcc).toNat * (a * b)))
      (64 * ((initXStride fourcc).toNat * (initPlanes fourcc).toNat * (a * b)))
      (64 * ((initXStride fourcc).toNat * (initPlanes fourcc).toNat * (a * b))) := by
  simp only [subsampled, List.mem_cons, List.not_mem_nil, or_false, not_or] at hc
  have hchroma : chroma fourcc = ⟨1, 1, 1⟩ := by simp [chroma, hc]
  have hfirst : firstWidthDiv fourcc = 1 := by simp [firstWidthDiv, hbin]
  have hbytes : chromaBytes width height fourcc =
      (initXStride fourcc).toNat * width.toNat * height.toNat := by simp [chromaBytes, hc]
  obtain ⟨n, hn⟩ := Nat.exists_eq_succ_of_ne_zero (initPlanes_pos fourcc).ne'
  refine ⟨?_, ?_, ?_⟩
  · rw [h.numBytes_alike (by simp [hc, hbin]), hw, hh]
    ring
  · rw [h.size_eq, hchroma, hfirst, hw, hh, hn]
    show (initXStride fourcc).toNat * (8 * a / 1) * (8 * b) +
      n * ((initXStride fourcc).toNat * (1 * (8 * a / 1)) * (8 * b) / 1) = _
    rw [Nat.div_one, Nat.div_one, Nat.succ_eq_add_one]
    ring
  · rw [h.dims_eq (by omega), hbytes, hw, hh, hn, Nat.succ_sub_one, Nat.succ_eq_add_one]
    ring

end Classes

/-- The three computations of the size of a new image agree. -/
def SizesAgree (tiler : Bool) (width height fourcc : BitVec 32) : Prop :=
  let image := dvpImageInit width height fourcc
  image.numBytes = dvpImageSize image.shape ∧
    (dvpImageSize image.shape).toNat =
      ((List.range image.planes.toNat).map (image.shape.dimsBytes tiler)).sum

instance : Decidable (SizesAgree tiler width height fourcc) :=
  inferInstanceAs (Decidable (_ ∧ _))

/-- The three sizes agree when the numbers do. -/
theorem InitSizes.agree_iff {numBytes size dims : Nat}
    (h : InitSizes tiler width height fourcc numBytes size dims) :
    SizesAgree tiler width height fourcc ↔ numBytes = size ∧ size = dims := by
  have hdims := h.dims_eq
  show (dvpImageInit width height fourcc).numBytes = _ ∧ _ = ((List.range _).map _).sum ↔ _
  rw [← BitVec.toNat_inj, h.numBytes_eq, h.size_eq, ← hdims]
  rfl

/-- The formats of which the three computations differ. -/
def differently : List (BitVec 32) :=
  [fourccYuv9, fourccYvu9, fourccYu16, fourccYv16, fourccBin1]

/-- The three sizes agree exactly for the formats outside `differently`, and for images without
pixels. -/
theorem dvpImage_sizes_agree_iff (tiler : Bool) (width height fourcc : BitVec 32)
    (hwidth : 8 ∣ width.toNat) (hheight : 8 ∣ height.toNat) (h : InitFits width height fourcc) :
    SizesAgree tiler width height fourcc ↔
      fourcc ∉ differently ∨ width = 0 ∨ height = 0 := by
  obtain ⟨a, hw⟩ := hwidth
  obtain ⟨b, hh⟩ := hheight
  -- without pixels all sizes are zero, whatever the format is
  have hempty : width = 0 ∨ height = 0 ↔ a * b = 0 := by
    rw [← BitVec.toNat_inj, ← BitVec.toNat_inj, hw, hh, Nat.mul_eq_zero]
    show 8 * a = 0 ∨ 8 * b = 0 ↔ _
    omega
  rw [hempty]
  -- in a format that is counted differently the sizes agree for an empty image only
  have hdiffer : ∀ {numBytes size dims : Nat}, fourcc ∈ differently →
      InitSizes tiler width height fourcc numBytes size dims →
      (numBytes = size ∧ size = dims ↔ a * b = 0) →
      (SizesAgree tiler width height fourcc ↔ fourcc ∉ differently ∨ a * b = 0) := by
    intro numBytes size dims hmem hsizes hiff
    rw [hsizes.agree_iff, hiff]
    exact ⟨.inr, fun hor => hor.resolve_left fun hnot => hnot hmem⟩
  by_cases hbin : fourcc = fourccBin1
  · refine hdiffer (by rw [hbin]; decide) (initSizes_bitmap h hw hh hbin) ?_
    omega
  by_cases hc : fourcc ∈ subsampled
  · have hclass : fourcc ∈ [fourccNv12, fourccNv21] ∨ fourcc ∈ [fourccYv12, fourccIyuv] ∨
        fourcc ∈ [fourccYuv9, fourccYvu9] ∨ fourcc ∈ [fourccYu16, fourccYv16] := by
      simp only [subsampled, List.mem_cons, List.not_mem_nil, or_false] at hc ⊢
      tauto
    rcases hclass with hc | hc | hc | hc
    · rw [(initSizes_semiPlanar h hw hh hc).agree_iff]
      refine iff_of_true ⟨rfl, rfl⟩ (.inl ?_)
      simp only [List.mem_cons, List.not_mem_nil, or_false] at hc
      rcases hc with rfl | rfl <;> decide
    · rw [(initSizes_planar h hw hh hc).agree_iff]
      refine iff_of_true ⟨rfl, rfl⟩ (.inl ?_)
      simp only [List.mem_cons, List.not_mem_nil, or_false] at hc
      rcases hc with rfl | rfl <;> decide
    · refine hdiffer ?_ (initSizes_quarter h hw hh hc) (by omega)
      simp only [List.mem_cons, List.not_mem_nil, or_false] at hc
      rcases hc with rfl | rfl <;> decide
    · refine hdiffer ?_ (initSizes_half h hw hh hc) (by omega)
      simp only [List.mem_cons, List.not_mem_nil, or_false] at hc
      rcases hc with rfl | rfl <;> decide
  · have hmem : fourcc ∉ differently := by
      simp only [subsampled, differently, List.mem_cons, List.not_mem_nil, or_false, not_or]
        at hc ⊢
      tauto
    rw [(initSizes_alike h hw hh hc hbin).agree_iff]
    exact iff_of_true ⟨rfl, rfl⟩ (.inl hmem)

/-- An NV12 image in tiled memory. -/
theorem dvpImage_sizes_agree_iff_nv12 :
    SizesAgree true 16 8 fourccNv12 ↔
      fourccNv12 ∉ differently ∨ (16 : BitVec 32) = 0 ∨ (8 : BitVec 32) = 0 :=
  dvpImage_sizes_agree_iff true 16 8 fourccNv12 (by decide) (by decide)
    ⟨by decide, by decide, by decide, fun _ => by decide⟩

/-- `DVP_Image_Init` counts 192 bytes for an image whose planes have 72, `DVP_Image_Dims` 192 for
one of 128 and 64 for one of 8. -/
theorem dvpImage_sizes_differ :
    (dvpImageInit 8 8 fourccYuv9).numBytes = 192 ∧
      dvpImageSize (dvpImageInit 8 8 fourccYuv9).shape = 72 ∧
      ¬SizesAgree false 8 8 fourccYuv9 ∧ ¬SizesAgree false 8 8 fourccYu16 ∧
      ¬SizesAgree false 8 8 fourccBin1 := by
  decide

/-! ## The range of a strided image -/

namespace DvpImage

/-- The planes and the distance of the pixels are those `DVP_Image_Init` sets for the colour. -/
structure OfColor (image : DvpImage) : Prop where
  planes_eq : image.planes = initPlanes image.color
  xStride_eq : image.xStride = initXStride image.color

/-- The bytes from the start of the first line of a plane to the end of the last one. -/
def spannedBytes (image : DvpImage) (p : Nat) : Nat :=
  match image.bufLines p with
  | 0 => 0
  | n + 1 => n * (dvpImageLineRange image p).toNat + (dvpImageLineSize image p).toNat

/-- No line of another plane is longer than those of the first one. -/
theorem OfColor.line_le (h : image.OfColor) (hp : p < image.planes.toNat) :
    image.sampleBytes p * image.samples p ≤ image.sampleBytes 0 * image.samples 0 := by
  rcases Nat.eq_zero_or_pos p with rfl | hpos
  · exact le_rfl
  · have hchroma := chroma_eq hp hpos
    have hle := chroma_samples_le image.color image.bufWidth
    rw [hchroma] at hle
    -- the bitmap has no plane after the first one
    have hbin : image.color ≠ fourccBin1 := by
      intro hc
      rw [h.planes_eq, hc] at hp
      have hone : p < 1 := hp
      omega
    unfold sampleBytes samples
    rw [widthStep_zero, widthDiv_zero (by omega), if_neg hbin, Nat.mul_assoc, Nat.mul_assoc]
    show _ ≤ image.xStride.toNat * (1 * (image.bufWidth.toNat / 1))
    rw [Nat.one_mul, Nat.div_one]
    exact Nat.mul_le_mul_left _ hle

namespace Strided

/-- `DVP_Image_PlaneSize` counts the bytes in the lines of a plane, without those between them. -/
theorem planeSize_eq (h : image.Strided) (hp : p < image.planes.toNat)
    (hheight : 8 ∣ image.bufHeight.toNat) :
    (dvpImagePlaneSize image p).toNat = image.bufLines p * (dvpImageLineSize image p).toNat := by
  have hlt : image.sampleBytes p * image.samples p * image.bufHeight.toNat < 2 ^ 32 :=
    (Nat.mul_le_mul_right _ (h.line_le p hp)).trans_lt h.range_lt
  rw [planeSize_toNat hp hlt, h.lineSize_eq hp, Nat.mul_div_assoc _ (heightDiv_dvd.trans hheight),
    Nat.mul_comm]
  rfl

/-- A line is as long as its range at most. -/
theorem lineSize_le (h : image.Strided) (hp : p < image.planes.toNat) :
    (dvpImageLineSize image p).toNat ≤ (dvpImageLineRange image p).toNat := by
  rw [h.lineSize_eq hp]
  exact (h.lineRange_bounds hp).1

/-- A plane is as long as its range at most. -/
theorem planeSize_le (h : image.Strided) (hp : p < image.planes.toNat)
    (hheight : 8 ∣ image.bufHeight.toNat) :
    (dvpImagePlaneSize image p).toNat ≤ (dvpImagePlaneRange image p).toNat := by
  rw [h.planeSize_eq hp hheight, h.planeRange_eq hp hheight]
  exact Nat.mul_le_mul_left _ (h.lineSize_le hp)

/-- What a plane spans is as long as its range at most. -/
theorem spannedBytes_le (h : image.Strided) (hp : p < image.planes.toNat)
    (hheight : 8 ∣ image.bufHeight.toNat) :
    image.spannedBytes p ≤ (dvpImagePlaneRange image p).toNat := by
  have hle := h.lineSize_le hp
  rw [h.planeRange_eq hp hheight]
  unfold spannedBytes
  split
  · exact Nat.zero_le _
  · next n hn =>
    rw [hn, Nat.succ_mul]
    exact Nat.add_le_add_left hle _

end Strided

end DvpImage

/-- The planes of an image take as many bytes as their lines are apart. -/
def planeRanges (image : DvpImage) : Nat :=
  ((List.range image.planes.toNat).map fun p => (dvpImagePlaneRange image p).toNat).sum

/-- `DVP_Image_Range` covers the planes with the space between their lines, and the `numBytes`
that `DVP_Image_Alloc` sets covers all bytes from their first to their last line. -/
def RangeCovers (image : DvpImage) : Prop :=
  (dvpImageRange image).toNat = planeRanges image ∧
    ((List.range image.planes.toNat).map image.spannedBytes).sum ≤ image.numBytes.toNat

/-- `DVP_Image_Range` covers a strided image exactly when its lines are packed, or it has none. -/
theorem dvpImageRange_covers_iff (image : DvpImage) (hcolor : image.OfColor)
    (hheight : 8 ∣ image.bufHeight.toNat) (halloc : image.numBytes = dvpImageRange image)
    (hline : image.sampleBytes 0 * image.samples 0 ≤ image.yStride.toNat)
    (hstride : image.yStride.toNat < 2 ^ 31)
    (hplane : image.yStride.toNat * image.bufHeight.toNat < 2 ^ 32)
    (hranges : planeRanges image < 2 ^ 32) :
    RangeCovers image ↔ image.yStride = dvpImageLineSize image 0 ∨ image.bufHeight = 0 := by
  have h : image.Strided := ⟨hstride, fun p hp => (hcolor.line_le hp).trans hline, hplane⟩
  have hpos : 0 < image.planes.toNat := by
    rw [hcolor.planes_eq]
    exact initPlanes_pos _
  -- the sizes add up to no more than the ranges, so neither sum wraps
  have hle : ((List.range image.planes.toNat).map fun p => (dvpImagePlaneSize image p).toNat).sum ≤
      planeRanges image :=
    List.sum_le_sum fun p hp => h.planeSize_le (List.mem_range.mp hp) hheight
  have hrange : (dvpImageRange image).toNat =
      ((List.range image.planes.toNat).map fun p => (dvpImagePlaneSize image p).toNat).sum :=
    foldl_add_toNat (hle.trans_lt hranges)
  constructor
  · rintro ⟨hcovers, -⟩
    by_contra hpadded
    push Not at hpadded
    -- the lines of the first plane are further apart than they are long
    have hshort : (dvpImageLineSize image 0).toNat < image.yStride.toNat := by
      rw [← h.lineSize_eq hpos] at hline
      exact lt_of_le_of_ne hline fun heq => hpadded.1 (BitVec.eq_of_toNat_eq heq.symm)
    have hlines : 0 < image.bufLines 0 := by
      unfold DvpImage.bufLines
      rw [heightDiv_zero, Nat.div_one]
      exact Nat.pos_of_ne_zero fun hzero => hpadded.2 (BitVec.eq_of_toNat_eq hzero)
    have hfirst : (dvpImagePlaneSize image 0).toNat < (dvpImagePlaneRange image 0).toNat := by
      rw [h.planeSize_eq hpos hheight, h.planeRange_eq hpos hheight,
        DvpImage.lineRange_eq hpos hstride, if_neg fun hneg => Nat.lt_irrefl 0 hneg.1]
      exact Nat.mul_lt_mul_of_pos_left hshort hlines
    have hlt : _ < planeRanges image :=
      List.sum_lt_sum _ _ (fun p hp => h.planeSize_le (List.mem_range.mp hp) hheight)
        ⟨0, List.mem_range.mpr hpos, hfirst⟩
    rw [hrange] at hcovers
    omega
  · intro hpacked
    -- packed: every plane has the distance of its own lines
    have hsame : ∀ p < image.planes.toNat,
        (dvpImagePlaneSize image p).toNat = (dvpImagePlaneRange image p).toNat := by
      intro p hp
      rw [h.planeSize_eq hp hheight, h.planeRange_eq hp hheight]
      rcases hpacked with hstride_eq | hzero
      · rw [DvpImage.lineRange_eq hp hstride]
        split_ifs with hrest
        · rfl
        · have hp0 : p = 0 := by
            by_contra hne
            exact hrest ⟨Nat.pos_of_ne_zero hne, hstride_eq⟩
          rw [hp0, hstride_eq]
      · unfold DvpImage.bufLines
        rw [hzero]
        simp
    have hcovers : (dvpImageRange image).toNat = planeRanges image := by
      rw [hrange]
      exact congrArg List.sum (List.map_congr_left fun p hp => hsame p (List.mem_range.mp hp))
    refine ⟨hcovers, ?_⟩
    rw [halloc, hcovers]
    exact List.sum_le_sum fun p hp => h.spannedBytes_le (List.mem_range.mp hp) hheight

/-- A new image of 8 lines of 8 pixels, of which the allocator gives lines of 16 bytes. -/
def allocPadded (fourcc : BitVec 32) : DvpImage :=
  (dvpImageAlloc (dvpImageInit 8 8 fourcc) 0 (fun p => 4096 * (p + 1)) [1, 16]).shape

/-- An NV12 image with padded lines. -/
theorem dvpImageRange_covers_iff_padded :
    RangeCovers (allocPadded fourccNv12) ↔
      (allocPadded fourccNv12).yStride = dvpImageLineSize (allocPadded fourccNv12) 0 ∨
        (allocPadded fourccNv12).bufHeight = 0 :=
  dvpImageRange_covers_iff (allocPadded fourccNv12) ⟨by decide, by decide⟩ (by decide) (by decide)
    (by decide) (by decide) (by decide) (by decide)

/-- `DVP_Image_Range` counts 64 bytes for a padded plane of 8 lines of 16 bytes. -/
theorem dvpImageRange_short :
    dvpImageRange (allocPadded fourccY800) = 64 ∧
      dvpImagePlaneRange (allocPadded fourccY800) 0 = 128 ∧
      (allocPadded fourccY800).spannedBytes 0 = 120 ∧ ¬RangeCovers (allocPadded fourccY800) := by
  refine ⟨by decide, by decide, by decide, ?_⟩
  rintro ⟨hrange, -⟩
  exact absurd hrange (by decide)

end DVP.Kgraph
