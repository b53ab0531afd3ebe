import DVP.Kgraph.ImageCopy
import DVP.Kgraph.ImagePatch
import DVP.Kgraph.ImageSizes
import Mathlib.Order.CompletePartialOrder
import Mathlib.Order.Interval.Set.Disjoint

/-!
# Images placed in memory

An image whose planes are backed by memory, with a patch in its buffer. The samples of a plane of
the patch are a part of the grid of the samples of its buffer.

* `Placed.patchAddressing_eq`: the address of a sample of the patch, in the grid of its plane.
* `Placed.mem_planeMemory`: the lines of the patch lie in the memory of their plane.
* `Placed.patchAddress_inj`: no two bytes of the patch share an address.
-/

namespace DVP.Kgraph

open Sosal

variable {a : Arch} {image : DvpImageT} {block : Nat → BitVec 32} {p : Nat}

/-! ## Lines -/

/-- A sample takes a place in its line. -/
theorem widthStep_pos {image : DvpImage} : 0 < (dvpImageWidthStep image p).toNat := by
  unfold dvpImageWidthStep
  split_ifs <;> decide

namespace DvpImage

variable {image : DvpImage}

/-- A sample has bytes. -/
theorem OfColor.sampleBytes_pos (h : image.OfColor) : 0 < image.sampleBytes p := by
  unfold sampleBytes
  rw [h.xStride_eq]
  exact Nat.mul_pos (initXStride_pos _) widthStep_pos

/-- The lines of a plane are as far apart as they are long, when the stride fits the first plane. It
may be negative. -/
theorem OfColor.line_le_lineRange (h : image.OfColor) (hp : p < image.planes.toNat)
    (hline : image.sampleBytes 0 * image.samples 0 ≤ image.yStride.abs.toNat) :
    image.samples p * image.sampleBytes p ≤ (dvpImageLineRange image p).toNat := by
  rw [Nat.mul_comm]
  have hle := (h.line_le hp).trans hline
  have hlt := image.yStride.abs.isLt
  unfold dvpImageLineRange
  rw [if_pos hp]
  dsimp only
  -- with a negative stride the lines are as far apart as they are long
  split_ifs
  · rw [lineBytes_toNat]
    · exact le_rfl
    · exact hle.trans_lt hlt
  · exact hle

/-- The formula of the offsets, when it does not wrap. -/
theorem pixelOffset_toNat {x y : BitVec 32}
    (h : y.toNat / (dvpImageHeightDiv image p).toNat * (dvpImageLineRange image p).toNat +
      x.toNat / (dvpImageWidthDiv image p).toNat * image.sampleBytes p < 2 ^ 32) :
    (image.pixelOffset x y p).toNat =
      y.toNat / (dvpImageHeightDiv image p).toNat * (dvpImageLineRange image p).toNat +
        x.toNat / (dvpImageWidthDiv image p).toNat * image.sampleBytes p := by
  unfold pixelOffset
  rw [BitVec.toNat_add, BitVec.toNat_mul, BitVec.toNat_mul, BitVec.toNat_mul, BitVec.toNat_udiv,
    BitVec.toNat_udiv, Nat.mul_mod_mod, ← Nat.add_mod, Nat.mod_eq_of_lt]
  · rfl
  · exact h

end DvpImage

/-! ## Placed images -/

/-- The memory of a plane. -/
def planeMemory (image : DvpImageT) (block : Nat → BitVec 32) (p : Nat) : Set Nat :=
  Set.Ico (image.pBuffer p) (image.pBuffer p + (block p).toNat)

/-- The image is one of its colour, its stride is not smaller than its lines, its patch lies in its
buffer, and each plane has a block of memory with its lines. -/
structure Placed (a : Arch) (image : DvpImageT) (block : Nat → BitVec 32) : Prop where
  ofColor : image.shape.OfColor
  line_le : image.shape.sampleBytes 0 * image.shape.samples 0 ≤ image.yStride.abs.toNat
  inside : image.Inside image.xStart image.yStart image.width image.height
  pData_eq : ∀ p < image.planes.toNat,
    image.pData p = dvpImageAddressing a image image.xStart image.yStart p
  pData_ne : ∀ p < image.planes.toNat, image.pData p ≠ 0
  lines_le : ∀ p < image.planes.toNat, ∀ y < image.shape.bufLines p,
    y * (dvpImageLineRange image.shape p).toNat +
      image.shape.samples p * image.shape.sampleBytes p ≤ (block p).toNat
  block_le : ∀ p < image.planes.toNat, image.pBuffer p + (block p).toNat ≤ a.size

namespace Placed

/-- The grid of the samples of the buffer of a plane. -/
def grid (h : Placed a image block) (hp : p < image.planes.toNat) : Grid where
  cols := image.shape.samples p
  cell := image.shape.sampleBytes p
  stride := (dvpImageLineRange image.shape p).toNat
  fits := h.ofColor.line_le_lineRange hp h.line_le

/-- The row of the buffer in which the line of a row of the patch lies. -/
def row (image : DvpImageT) (p y : Nat) : Nat :=
  image.yStart.toNat / (dvpImageHeightDiv image.shape p).toNat + y

/-- The column of the buffer in which a sample of the patch lies. -/
def col (image : DvpImageT) (p x : Nat) : Nat :=
  image.xStart.toNat / (dvpImageWidthDiv image.shape p).toNat + x

/-- The samples of a line of the patch. -/
def cols (image : DvpImageT) (p : Nat) : Nat :=
  image.width.toNat / (dvpImageWidthDiv image.shape p).toNat

/-- The lines of a plane are the height divided by that of the plane. -/
theorem lines_eq : image.shape.lines p =
    image.height.toNat / (dvpImageHeightDiv image.shape p).toNat := BitVec.toNat_udiv

/-- The first plane has all lines. -/
theorem lines_zero : image.shape.lines 0 = image.height.toNat := by
  rw [lines_eq, heightDiv_zero, Nat.div_one]

/-- The pixel with which a line of the patch starts. -/
theorem lineStart_div {y : Nat} (hy : y < image.shape.lines p) :
    (BitVec.ofNat 32 y * dvpImageHeightDiv image.shape p).toNat /
      (dvpImageHeightDiv image.shape p).toNat = y := by
  have hdiv : 0 < (dvpImageHeightDiv image.shape p).toNat := DvpImage.heightDiv_pos
  have hheight := image.height.isLt
  rw [lines_eq] at hy
  -- the start of the line is in the image, so it does not wrap
  have hle : y * (dvpImageHeightDiv image.shape p).toNat ≤ image.height.toNat :=
    (Nat.mul_le_mul_right _ hy.le).trans (Nat.div_mul_le_self _ _)
  rw [BitVec.toNat_mul, BitVec.toNat_ofNat, Nat.mod_mul_mod, Nat.mod_eq_of_lt (by omega),
    Nat.mul_div_cancel _ hdiv]

variable (h : Placed a image block)
include h

/-- The lines of the patch are lines of the buffer. -/
theorem row_lt {y : Nat} (hy : y < image.shape.lines p) :
    row image p y < image.shape.bufLines p := by
  rw [lines_eq] at hy
  -- two quotients are together not above the quotient of the sum
  have hsum := Nat.div_add_div_le_add_div (x := image.yStart.toNat) (y := image.height.toNat)
    (z := (dvpImageHeightDiv image.shape p).toNat)
  have hle : (image.yStart.toNat + image.height.toNat) / (dvpImageHeightDiv image.shape p).toNat ≤
      image.shape.bufLines p := Nat.div_le_div_right h.inside.2
  unfold row
  omega

/-- A line of the patch is a part of a line of the buffer. -/
theorem col_add_cols_le : col image p 0 + cols image p ≤ image.shape.samples p := by
  have hsum := Nat.div_add_div_le_add_div (x := image.xStart.toNat) (y := image.width.toNat)
    (z := (dvpImageWidthDiv image.shape p).toNat)
  have hle : (image.xStart.toNat + image.width.toNat) / (dvpImageWidthDiv image.shape p).toNat ≤
      image.shape.samples p := Nat.div_le_div_right h.inside.1
  unfold col cols
  omega

/-- A line of the patch has the bytes of its samples. -/
theorem patchLineSize_eq (hp : p < image.planes.toNat) :
    (dvpImagePatchLineSize image.shape p).toNat = cols image p * image.shape.sampleBytes p := by
  -- a line of the patch is not longer than one of the buffer, whose size does not wrap
  have hle : image.shape.sampleBytes p * cols image p ≤ (dvpImageLineRange image.shape p).toNat := by
    rw [Nat.mul_comm]
    refine le_trans (Nat.mul_le_mul_right _ ?_) (h.grid hp).fits
    exact (Nat.le_add_left _ _).trans h.col_add_cols_le
  have hsize : dvpImagePatchLineSize image.shape p =
      image.shape.xStride * dvpImageWidthStep image.shape p *
        (image.shape.width / dvpImageWidthDiv image.shape p) := if_pos hp
  rw [hsize, DvpImage.lineBytes_toNat, Nat.mul_comm]
  · rfl
  · exact hle.trans_lt (BitVec.isLt _)

/-- A run of samples of the patch lies in the block of its plane. -/
theorem offset_add_run_le (hp : p < image.planes.toNat) {x y n : Nat}
    (hx : x + n ≤ cols image p) (hy : y < image.shape.lines p) :
    (h.grid hp).offset (row image p y) (col image p x) + n * image.shape.sampleBytes p ≤
      (block p).toNat := by
  have hcol : col image p x + n ≤ image.shape.samples p := by
    have hcols := h.col_add_cols_le (p := p)
    unfold col at hcols ⊢
    omega
  exact ((h.grid hp).offset_add_run_le hcol).trans (h.lines_le p hp _ (h.row_lt hy))

/-- The address of a sample of the patch. -/
theorem patchAddressing_eq (hp : p < image.planes.toNat) {x y : BitVec 32}
    (hx : x.toNat / (dvpImageWidthDiv image.shape p).toNat < cols image p)
    (hy : y.toNat / (dvpImageHeightDiv image.shape p).toNat < image.shape.lines p) :
    dvpImagePatchAddressing a image x y p =
      image.pBuffer p + (h.grid hp).offset
        (row image p (y.toNat / (dvpImageHeightDiv image.shape p).toNat))
        (col image p (x.toNat / (dvpImageWidthDiv image.shape p).toNat)) := by
  -- the sample ends in the block of the plane, so no offset wraps
  have hend := h.offset_add_run_le hp (n := 1) hx hy
  have hcell := h.ofColor.sampleBytes_pos (p := p)
  have hblock := h.block_le p hp
  have hlt := (block p).isLt
  unfold Grid.offset row col at hend ⊢
  rw [Nat.add_mul, Nat.add_mul] at hend ⊢
  change _ * (dvpImageLineRange image.shape p).toNat + _ * (dvpImageLineRange image.shape p).toNat +
    (_ * image.shape.sampleBytes p + _ * image.shape.sampleBytes p) + _ ≤ _ at hend
  change _ = _ + (_ * (dvpImageLineRange image.shape p).toNat +
    _ * (dvpImageLineRange image.shape p).toNat +
    (_ * image.shape.sampleBytes p + _ * image.shape.sampleBytes p))
  -- the pixel lies in the patch, and the start of the patch in the buffer
  have hxlt : x.toNat < image.width.toNat := by
    by_contra hle
    exact absurd hx (Nat.not_lt.mpr (Nat.div_le_div_right (Nat.not_lt.mp hle)))
  have hylt : y.toNat < image.height.toNat := by
    rw [lines_eq] at hy
    by_contra hle
    exact absurd hy (Nat.not_lt.mpr (Nat.div_le_div_right (Nat.not_lt.mp hle)))
  obtain ⟨hxin, hyin⟩ := h.inside
  have hstart : dvpImageOffset image.shape image.xStart image.yStart p =
      image.shape.pixelOffset image.xStart image.yStart p := by
    refine if_pos ⟨hp, BitVec.lt_def.mpr ?_, BitVec.lt_def.mpr ?_⟩
    · show image.xStart.toNat < image.bufWidth.toNat
      omega
    · show image.yStart.toNat < image.bufHeight.toNat
      omega
  have hpixel : dvpImagePatchOffset image.shape x y p = image.shape.pixelOffset x y p :=
    if_pos ⟨hp, BitVec.lt_def.mpr hxlt, BitVec.lt_def.mpr hylt⟩
  -- the start of the patch, from that of the plane
  have hdata : image.pData p =
      image.pBuffer p + (image.shape.pixelOffset image.xStart image.yStart p).toNat := by
    rw [h.pData_eq p hp, dvpImageAddressing, hstart, if_pos hp, Arch.add_of_lt]
    rw [DvpImage.pixelOffset_toNat (by omega)]
    omega
  unfold dvpImagePatchAddressing
  dsimp only
  rw [hpixel, if_pos hp, hdata, DvpImage.pixelOffset_toNat (by omega),
    DvpImage.pixelOffset_toNat (by omega), Arch.add_of_lt (by omega)]
  omega

end Placed

/-! ## The bytes of the patch -/

/-- The addresses of a line of a plane of the patch. -/
def lineAddresses (a : Arch) (image : DvpImageT) (l : Nat × Nat) : List Nat :=
  (List.range (dvpImagePatchLineSize image.shape l.1).toNat).map (patchLine a image l.1 l.2 + ·)

/-- The addresses of the patch, plane by plane and line by line. -/
def patchAddresses (a : Arch) (image : DvpImageT) : List Nat :=
  image.shape.allLines.flatMap (lineAddresses a image)

/-- A line has as many addresses as bytes. -/
@[simp]
theorem length_lineAddresses {l : Nat × Nat} :
    (lineAddresses a image l).length = (dvpImagePatchLineSize image.shape l.1).toNat := by
  rw [lineAddresses, List.length_map, List.length_range]

/-- A patch has as many addresses as bytes. -/
theorem length_patchAddresses : (patchAddresses a image).length = image.shape.patchSize := by
  unfold patchAddresses DvpImage.allLines DvpImage.patchSize
  rw [List.flatMap_assoc, List.length_flatMap]
  congr 1
  apply List.map_congr_left
  intro p _
  simp [List.length_flatMap, Function.comp_def]

/-- The addresses of a line are those of its bytes. -/
theorem mem_lineAddresses {l : Nat × Nat} {ptr : Nat} :
    ptr ∈ lineAddresses a image l ↔
      ∃ k < (dvpImagePatchLineSize image.shape l.1).toNat, patchLine a image l.1 l.2 + k = ptr := by
  simp only [lineAddresses, List.mem_map, List.mem_range]

/-- The addresses of a patch are those of its lines. -/
theorem mem_patchAddresses {ptr : Nat} :
    ptr ∈ patchAddresses a image ↔
      ∃ p < image.planes.toNat, ∃ y < image.shape.lines p, ptr ∈ lineAddresses a image (p, y) := by
  simp only [patchAddresses, List.mem_flatMap, DvpImage.mem_allLines, Prod.exists]
  constructor
  · rintro ⟨p, y, ⟨hp, hy⟩, hptr⟩
    exact ⟨p, hp, y, hy, hptr⟩
  · rintro ⟨p, hp, y, hy, hptr⟩
    exact ⟨p, y, ⟨hp, hy⟩, hptr⟩

/-- The planes of an image have no memory in common. -/
def PlanesApart (image : DvpImageT) (block : Nat → BitVec 32) : Prop :=
  ∀ p < image.planes.toNat, ∀ q < image.planes.toNat, p ≠ q →
    Disjoint (planeMemory image block p) (planeMemory image block q)

/-- Two images have no memory in common. -/
def ImagesApart (image image' : DvpImageT) (block block' : Nat → BitVec 32) : Prop :=
  ∀ p < image.planes.toNat, ∀ q < image'.planes.toNat,
    Disjoint (planeMemory image block p) (planeMemory image' block' q)

instance : Decidable (PlanesApart image block) :=
  decidable_of_iff
    (∀ p < image.planes.toNat, ∀ q < image.planes.toNat, p ≠ q →
      min (image.pBuffer p + (block p).toNat) (image.pBuffer q + (block q).toNat) ≤
        max (image.pBuffer p) (image.pBuffer q))
    (by simp only [PlanesApart, planeMemory, Set.Ico_disjoint_Ico])

instance {image' : DvpImageT} {block' : Nat → BitVec 32} :
    Decidable (ImagesApart image image' block block') :=
  decidable_of_iff
    (∀ p < image.planes.toNat, ∀ q < image'.planes.toNat,
      min (image.pBuffer p + (block p).toNat) (image'.pBuffer q + (block' q).toNat) ≤
        max (image.pBuffer p) (image'.pBuffer q))
    (by simp only [ImagesApart, planeMemory, Set.Ico_disjoint_Ico])

namespace Placed

variable (h : Placed a image block)
include h

/-- A line of the patch that has samples. -/
theorem patchLine_eq (hp : p < image.planes.toNat) {y : Nat} (hcols : 0 < cols image p)
    (hy : y < image.shape.lines p) :
    patchLine a image p y =
      image.pBuffer p + (h.grid hp).offset (row image p y) (col image p 0) := by
  have hdiv := lineStart_div hy
  have hzero : (0 : BitVec 32).toNat / (dvpImageWidthDiv image.shape p).toNat = 0 := Nat.zero_div _
  unfold patchLine
  rw [h.patchAddressing_eq hp (by rwa [hzero]) (by rwa [hdiv]), hdiv, hzero]

/-- The lines of a plane come one after the other. -/
theorem patchLine_mono (hp : p < image.planes.toNat) {y z : Nat} (hcols : 0 < cols image p)
    (hyz : y ≤ z) (hz : z < image.shape.lines p) :
    patchLine a image p y ≤ patchLine a image p z := by
  rw [h.patchLine_eq hp hcols (hyz.trans_lt hz), h.patchLine_eq hp hcols hz]
  apply Nat.add_le_add_left
  unfold Grid.offset row
  exact Nat.add_le_add_right (Nat.mul_le_mul_right _ (Nat.add_le_add_left hyz _)) _

/-- A line that has bytes has samples. -/
theorem cols_pos (hp : p < image.planes.toNat) {k : Nat}
    (hk : k < (dvpImagePatchLineSize image.shape p).toNat) : 0 < cols image p := by
  rw [h.patchLineSize_eq hp] at hk
  exact Nat.pos_of_mul_pos_right (Nat.zero_lt_of_lt hk)

/-- The lines of the patch lie in the memory of their plane. -/
theorem mem_planeMemory (hp : p < image.planes.toNat) {y k : Nat} (hy : y < image.shape.lines p)
    (hk : k < (dvpImagePatchLineSize image.shape p).toNat) :
    patchLine a image p y + k ∈ planeMemory image block p := by
  have hcols := h.cols_pos hp hk
  rw [h.patchLineSize_eq hp] at hk
  -- the whole line is a run of samples
  have hend := h.offset_add_run_le hp (x := 0) (n := cols image p) (Nat.zero_add _).le hy
  rw [h.patchLine_eq hp hcols hy]
  exact ⟨by omega, by omega⟩

/-- No two bytes of the lines of a plane share an address. -/
theorem lineAddress_inj (hp : p < image.planes.toNat) {y z k l : Nat}
    (hy : y < image.shape.lines p) (hz : z < image.shape.lines p)
    (hk : k < (dvpImagePatchLineSize image.shape p).toNat)
    (hl : l < (dvpImagePatchLineSize image.shape p).toNat)
    (heq : patchLine a image p y + k = patchLine a image p z + l) : y = z ∧ k = l := by
  have hcols := h.cols_pos hp hk
  rw [h.patchLineSize_eq hp] at hk hl
  rw [h.patchLine_eq hp hcols hy, h.patchLine_eq hp hcols hz, Nat.add_assoc, Nat.add_assoc,
    Nat.add_left_cancel_iff] at heq
  -- rows of a grid share no byte
  have hyz : y = z := by
    by_contra hne
    refine (h.grid hp).run_ne_run ?_ h.col_add_cols_le h.col_add_cols_le hk hl heq
    exact fun hrow => hne (Nat.add_left_cancel hrow)
  subst hyz
  exact ⟨rfl, Nat.add_left_cancel heq⟩

/-- No two bytes of the patch share an address, when the planes have no memory in common. -/
theorem patchAddress_inj (hapart : PlanesApart image block) {p q y z k l : Nat}
    (hp : p < image.planes.toNat) (hq : q < image.planes.toNat) (hy : y < image.shape.lines p)
    (hz : z < image.shape.lines q) (hk : k < (dvpImagePatchLineSize image.shape p).toNat)
    (hl : l < (dvpImagePatchLineSize image.shape q).toNat)
    (heq : patchLine a image p y + k = patchLine a image q z + l) : p = q ∧ y = z ∧ k = l := by
  -- a byte of two planes would be in the memory of both
  have hpq : p = q := by
    by_contra hne
    have hmem := h.mem_planeMemory hq hz hl
    rw [← heq] at hmem
    exact Set.disjoint_left.mp (hapart p hp q hq hne) (h.mem_planeMemory hp hy hk) hmem
  subst hpq
  exact ⟨rfl, h.lineAddress_inj hp hy hz hk hl heq⟩

/-- A patch has each address once when its planes are apart. -/
theorem nodup_patchAddresses (hapart : PlanesApart image block) :
    (patchAddresses a image).Nodup := by
  unfold patchAddresses
  rw [List.nodup_flatMap]
  constructor
  · intro l _
    exact List.nodup_range.map fun _ _ => Nat.add_left_cancel
  · -- a byte of two lines would make them the same line
    refine DvpImage.nodup_allLines.imp_of_mem fun {x z} hx hz hne ptr hptr hptr' => hne ?_
    rw [DvpImage.mem_allLines] at hx hz
    obtain ⟨k, hk, rfl⟩ := mem_lineAddresses.mp hptr
    obtain ⟨l, hl, heq⟩ := mem_lineAddresses.mp hptr'
    have hsame := h.patchAddress_inj hapart hz.1 hx.1 hz.2 hx.2 hl hk heq
    exact Prod.ext hsame.1.symm hsame.2.1.symm

/-! ### The first plane -/

/-- The image has a plane. -/
theorem planes_pos : 0 < image.planes.toNat := by
  have hplanes : image.planes = initPlanes image.color := h.ofColor.planes_eq
  rw [hplanes]
  exact initPlanes_pos _

/-- The first plane has all columns unless the image is of bits. -/
theorem widthDiv_zero_eq (hbin : image.color ≠ fourccBin1) :
    (dvpImageWidthDiv image.shape 0).toNat = 1 := by
  rw [widthDiv_zero h.planes_pos, if_neg]
  · rfl
  · exact hbin

/-- A line of the first plane has the width times the stride in bytes. -/
theorem patchLineSize_zero (hbin : image.color ≠ fourccBin1) :
    (dvpImagePatchLineSize image.shape 0).toNat = image.width.toNat * image.xStride.toNat := by
  rw [h.patchLineSize_eq h.planes_pos, cols, h.widthDiv_zero_eq hbin, Nat.div_one,
    DvpImage.sampleBytes, widthStep_zero, Nat.mul_one]
  rfl

/-- The address of a pixel, from the start of its line. -/
theorem pixelAddress (hbin : image.color ≠ fourccBin1) {x y : BitVec 32} (hx : x < image.width)
    (hy : y < image.height) :
    dvpImagePatchAddressing a image x y 0 =
      patchLine a image 0 y.toNat + x.toNat * image.xStride.toNat := by
  have hdiv := h.widthDiv_zero_eq hbin
  have hxlt : x.toNat < cols image 0 := by
    rw [cols, hdiv, Nat.div_one]
    exact BitVec.lt_def.mp hx
  have hylt : y.toNat < image.shape.lines 0 := by
    rw [lines_zero]
    exact BitVec.lt_def.mp hy
  have hcell : image.shape.sampleBytes 0 = image.xStride.toNat := by
    rw [DvpImage.sampleBytes, widthStep_zero, Nat.mul_one]
    rfl
  rw [h.patchAddressing_eq h.planes_pos (by rwa [hdiv, Nat.div_one])
      (by rwa [heightDiv_zero, Nat.div_one]),
    h.patchLine_eq h.planes_pos (Nat.zero_lt_of_lt hxlt) hylt, hdiv, heightDiv_zero, Nat.div_one,
    Nat.div_one, Nat.add_assoc, ← hcell]
  congr 1
  -- a pixel is as many samples behind the start of its line as its column says
  show _ * _ + (_ + x.toNat) * _ = _ * _ + (_ + 0) * _ + _
  rw [Nat.add_mul, Nat.add_zero, Nat.add_assoc]
  rfl

end Placed

end DVP.Kgraph
