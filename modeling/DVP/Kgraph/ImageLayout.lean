import DVP.Kgraph.ImageBuffer
import DVP.Kgraph.ImageRoundTrip
import DVP.Lib.Grid

/-!
# The layout of the planes of an image

A plane of an image is a `Grid` of samples, whose rows are `DVP_Image_LineRange` apart.

* `Strided` says that the stride of an image fits the lines of all its planes.
* `dvpImageOffset_inside`: the samples of a strided image lie in the range of their plane, and those
  of different columns or lines are apart.
-/

namespace DVP.Kgraph

open Sosal

variable {image : DvpImage} {p : Nat}

namespace DvpImage

/-! ## Samples and lines -/

/-- The bytes of a sample of a plane. -/
def sampleBytes (image : DvpImage) (p : Nat) : Nat :=
  image.xStride.toNat * (dvpImageWidthStep image p).toNat

/-- The samples of a line of a plane. -/
def samples (image : DvpImage) (p : Nat) : Nat :=
  image.bufWidth.toNat / (dvpImageWidthDiv image p).toNat

/-- The lines of the buffer of a plane. -/
def bufLines (image : DvpImage) (p : Nat) : Nat :=
  image.bufHeight.toNat / (dvpImageHeightDiv image p).toNat

theorem widthDiv_dvd : (dvpImageWidthDiv image p).toNat ∣ 8 := by
  unfold dvpImageWidthDiv
  split_ifs <;> decide

theorem heightDiv_dvd : (dvpImageHeightDiv image p).toNat ∣ 8 := by
  unfold dvpImageHeightDiv
  split_ifs <;> decide

theorem widthDiv_pos : 0 < (dvpImageWidthDiv image p).toNat :=
  Nat.pos_of_dvd_of_pos widthDiv_dvd (by decide)

theorem heightDiv_pos : 0 < (dvpImageHeightDiv image p).toNat :=
  Nat.pos_of_dvd_of_pos heightDiv_dvd (by decide)

/-- The formula of the line sizes, when the line is not larger than what 32 bits count. -/
theorem lineBytes_toNat {x s n d : BitVec 32}
    (h : x.toNat * s.toNat * (n.toNat / d.toNat) < 2 ^ 32) :
    (x * s * (n / d)).toNat = x.toNat * s.toNat * (n.toNat / d.toNat) := by
  rw [BitVec.toNat_mul, BitVec.toNat_mul, BitVec.toNat_udiv, Nat.mod_mul_mod, Nat.mod_eq_of_lt h]

theorem lineSize_toNat (hp : p < image.planes.toNat)
    (h : image.sampleBytes p * image.samples p < 2 ^ 32) :
    (dvpImageLineSize image p).toNat = image.sampleBytes p * image.samples p := by
  unfold dvpImageLineSize
  rw [if_pos hp]
  exact lineBytes_toNat h

/-- The distance between the lines of a plane is the stride, or the line itself when the stride is
the line of the first plane. -/
theorem lineRange_eq (hp : p < image.planes.toNat) (hstride : image.yStride.toNat < 2 ^ 31) :
    dvpImageLineRange image p =
      if 0 < p ∧ image.yStride = dvpImageLineSize image 0 then dvpImageLineSize image p
      else image.yStride := by
  -- `abs` is there for flipped images, whose stride is negative
  have habs : image.yStride.abs = image.yStride := by
    rw [BitVec.abs_eq, if_neg]
    rw [BitVec.msb_eq_decide]
    simpa using hstride
  unfold dvpImageLineRange dvpImageLineSize
  rw [if_pos hp, if_pos hp, if_pos (show 0 < image.planes.toNat by omega), habs]

/-! ## Planes with a stride -/

/-- The lines of all planes fit the stride of the image, and the buffer of the first one is not
larger than what 32 bits count. -/
structure Strided (image : DvpImage) : Prop where
  stride_lt : image.yStride.toNat < 2 ^ 31
  line_le : ∀ p < image.planes.toNat,
    image.sampleBytes p * image.samples p ≤ image.yStride.toNat
  range_lt : image.yStride.toNat * image.bufHeight.toNat < 2 ^ 32

namespace Strided

theorem lineSize_eq (h : image.Strided) (hp : p < image.planes.toNat) :
    (dvpImageLineSize image p).toNat = image.sampleBytes p * image.samples p := by
  have hle := h.line_le p hp
  have hlt := h.stride_lt
  exact lineSize_toNat hp (by omega)

/-- The lines of a plane are as far apart as they are long, and not more than the stride. -/
theorem lineRange_bounds (h : image.Strided) (hp : p < image.planes.toNat) :
    image.sampleBytes p * image.samples p ≤ (dvpImageLineRange image p).toNat ∧
      (dvpImageLineRange image p).toNat ≤ image.yStride.toNat := by
  have hle := h.line_le p hp
  rw [lineRange_eq hp h.stride_lt]
  split_ifs
  · rw [h.lineSize_eq hp]
    exact ⟨le_rfl, hle⟩
  · exact ⟨hle, le_rfl⟩

/-- The samples of a plane. -/
def grid (h : image.Strided) (hp : p < image.planes.toNat) : Grid where
  cols := image.samples p
  cell := image.sampleBytes p
  stride := (dvpImageLineRange image p).toNat
  fits := by
    rw [Nat.mul_comm]
    exact (h.lineRange_bounds hp).1

/-- The lines of a plane take as much as `DVP_Image_PlaneRange` says. -/
theorem planeRange_eq (h : image.Strided) (hp : p < image.planes.toNat)
    (hheight : 8 ∣ image.bufHeight.toNat) :
    (dvpImagePlaneRange image p).toNat =
      image.bufLines p * (dvpImageLineRange image p).toNat := by
  have hrange := (h.lineRange_bounds hp).2
  have hlt : (dvpImageLineRange image p).toNat * image.bufHeight.toNat < 2 ^ 32 :=
    (Nat.mul_le_mul_right _ hrange).trans_lt h.range_lt
  unfold dvpImagePlaneRange
  rw [if_pos hp, BitVec.toNat_udiv, BitVec.toNat_mul, Nat.mod_eq_of_lt hlt,
    Nat.mul_div_assoc _ (heightDiv_dvd.trans hheight), Nat.mul_comm]
  rfl

/-- A coordinate is in the grid of the samples of a plane. -/
theorem div_lt {n d x : Nat} (hd : d ∣ 8) (hn : 8 ∣ n) (hx : x < n) : x / d < n / d :=
  Nat.div_lt_div_of_lt_of_dvd (hd.trans hn) hx

/-- `DVP_Image_Offset` is the offset in the grid of the samples. -/
theorem offset_eq (h : image.Strided) (hp : p < image.planes.toNat)
    (hwidth : 8 ∣ image.bufWidth.toNat) (hheight : 8 ∣ image.bufHeight.toNat) {x y : BitVec 32}
    (hx : x < image.bufWidth) (hy : y < image.bufHeight) :
    (dvpImageOffset image x y p).toNat =
      (h.grid hp).offset (y.toNat / (dvpImageHeightDiv image p).toNat)
        (x.toNat / (dvpImageWidthDiv image p).toNat) := by
  have hcol : x.toNat / (dvpImageWidthDiv image p).toNat < (h.grid hp).cols :=
    div_lt widthDiv_dvd hwidth (BitVec.lt_def.mp hx)
  have hrow : y.toNat / (dvpImageHeightDiv image p).toNat < image.bufLines p :=
    div_lt heightDiv_dvd hheight (BitVec.lt_def.mp hy)
  -- the offset is in the range of the plane, and so below `2 ^ 32`: no product wraps
  have hend := (h.grid hp).offset_add_cell_le hrow hcol
  have hrange := h.planeRange_eq hp hheight
  have hlt : (h.grid hp).offset (y.toNat / (dvpImageHeightDiv image p).toNat)
      (x.toNat / (dvpImageWidthDiv image p).toNat) < 2 ^ 32 := by
    have hbound := (dvpImagePlaneRange image p).isLt
    rw [hrange] at hbound
    exact ((Nat.le_add_right _ _).trans hend).trans_lt hbound
  unfold dvpImageOffset
  rw [if_pos ⟨hp, hx, hy⟩, BitVec.toNat_add, BitVec.toNat_mul, BitVec.toNat_mul, BitVec.toNat_mul,
    BitVec.toNat_udiv, BitVec.toNat_udiv, Nat.mul_mod_mod, ← Nat.add_mod, Nat.mod_eq_of_lt]
  · rfl
  · exact hlt

end Strided

end DvpImage

/-- In a buffer whose sides are multiples of 8 and whose stride fits the lines of all planes, every
sample lies in the range of its plane, and the samples of different columns or lines of the plane
have no byte in common. -/
theorem dvpImageOffset_inside (image : DvpImage) (hwidth : 8 ∣ image.bufWidth.toNat)
    (hheight : 8 ∣ image.bufHeight.toNat) (h : image.Strided) (p : Nat)
    (hp : p < image.planes.toNat) (x y : BitVec 32) (hx : x < image.bufWidth)
    (hy : y < image.bufHeight) :
    (dvpImageOffset image x y p).toNat + image.sampleBytes p ≤ (dvpImagePlaneRange image p).toNat ∧
      ∀ x' < image.bufWidth, ∀ y' < image.bufHeight,
        (x / dvpImageWidthDiv image p, y / dvpImageHeightDiv image p) ≠
            (x' / dvpImageWidthDiv image p, y' / dvpImageHeightDiv image p) →
          (dvpImageOffset image x y p).toNat + image.sampleBytes p ≤
              (dvpImageOffset image x' y' p).toNat ∨
            (dvpImageOffset image x' y' p).toNat + image.sampleBytes p ≤
              (dvpImageOffset image x y p).toNat := by
  have hcol : ∀ x < image.bufWidth, x.toNat / (dvpImageWidthDiv image p).toNat <
      (h.grid hp).cols :=
    fun x hx => DvpImage.Strided.div_lt DvpImage.widthDiv_dvd hwidth (BitVec.lt_def.mp hx)
  have hrow : y.toNat / (dvpImageHeightDiv image p).toNat < image.bufLines p :=
    DvpImage.Strided.div_lt DvpImage.heightDiv_dvd hheight (BitVec.lt_def.mp hy)
  rw [h.offset_eq hp hwidth hheight hx hy, h.planeRange_eq hp hheight]
  refine ⟨(h.grid hp).offset_add_cell_le hrow (hcol x hx), fun x' hx' y' hy' hne => ?_⟩
  rw [h.offset_eq hp hwidth hheight hx' hy']
  apply (h.grid hp).apart (hcol x hx) (hcol x' hx')
  -- columns and lines of two samples that are both the same are the same sample
  by_contra hsame
  push Not at hsame
  apply hne
  ext1
  · exact BitVec.eq_of_toNat_eq hsame.2
  · exact BitVec.eq_of_toNat_eq hsame.1

/-- An image of 8 lines of 8 pixels in a semi-planar format, with a padded stride. -/
def paddedNv12 : DvpImage := { (dvpImageInit 8 8 fourccNv12).shape with yStride := 16 }

theorem dvpImageOffset_inside_nv12 :
    (dvpImageOffset paddedNv12 7 6 1).toNat + paddedNv12.sampleBytes 1 ≤
        (dvpImagePlaneRange paddedNv12 1).toNat ∧
      ∀ x' < paddedNv12.bufWidth, ∀ y' < paddedNv12.bufHeight,
        (7 / dvpImageWidthDiv paddedNv12 1, 6 / dvpImageHeightDiv paddedNv12 1) ≠
            (x' / dvpImageWidthDiv paddedNv12 1, y' / dvpImageHeightDiv paddedNv12 1) →
          (dvpImageOffset paddedNv12 7 6 1).toNat + paddedNv12.sampleBytes 1 ≤
              (dvpImageOffset paddedNv12 x' y' 1).toNat ∨
            (dvpImageOffset paddedNv12 x' y' 1).toNat + paddedNv12.sampleBytes 1 ≤
              (dvpImageOffset paddedNv12 7 6 1).toNat :=
  dvpImageOffset_inside paddedNv12 (by decide) (by decide) ⟨by decide, by decide, by decide⟩ 1
    (by decide) 7 6 (by decide) (by decide)

end DVP.Kgraph
