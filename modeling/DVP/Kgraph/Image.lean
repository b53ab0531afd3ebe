import DVP.Lib.Serial

/-!
# Images

The image functions of `source/dvp/dvp_kgraph/dvp_mem.c` that the serialization of an image uses.
The numbers of an image are 32 bits wide, as in C. The bytes a plane points to are a memory of their
own. Offsets into a flat buffer are numbers: the buffer and a line that is copied are in memory at
the same time, so their sizes together are not more than `size_t` counts.
-/

namespace DVP.Kgraph

open Bytes Serial

/-- `FOURCC_YUV9`: planar YUV 4:1:1, and the first of the codes that the image functions tell apart. -/
def fourccYuv9 : BitVec 32 := 0x39565559

/-- `FOURCC_YVU9`: planar YVU 4:1:1. -/
def fourccYvu9 : BitVec 32 := 0x39555659

/-- `FOURCC_YV12`: planar YVU 4:2:0. -/
def fourccYv12 : BitVec 32 := 0x32315659

/-- `FOURCC_IYUV`: planar YUV 4:2:0. -/
def fourccIyuv : BitVec 32 := 0x56555949

/-- `FOURCC_YV16`: planar YVU 4:2:2. -/
def fourccYv16 : BitVec 32 := 0x36315659

/-- `FOURCC_YU16`: planar YUV 4:2:2. -/
def fourccYu16 : BitVec 32 := 0x36315559

/-- `FOURCC_NV12`: a plane of Y and one of UV. -/
def fourccNv12 : BitVec 32 := 0x3231564E

/-- `FOURCC_NV21`: a plane of Y and one of VU. -/
def fourccNv21 : BitVec 32 := 0x3132564E

/-- `FOURCC_BIN1`: one bit for each pixel. -/
def fourccBin1 : BitVec 32 := 0x314E4942

/-- `FOURCC_Y800`: luma of 8 bits. -/
def fourccY800 : BitVec 32 := 0x30303859

/-- Codes that are the same number are equal. -/
theorem lawfulBEq_fourcc : LawfulBEq (BitVec 32) := inferInstance

attribute [local instance] lawfulBEq_fourcc

/-- The fields of `DVP_Image_t` the functions use, with the bytes at `pData`. -/
structure DvpImage where
  pData : Nat → Nat → UInt8
  planes : BitVec 32
  width : BitVec 32
  height : BitVec 32
  bufWidth : BitVec 32
  bufHeight : BitVec 32
  xStart : BitVec 32
  yStart : BitVec 32
  xStride : BitVec 32
  yStride : BitVec 32
  color : BitVec 32
  numBytes : BitVec 32

variable (pImage : DvpImage)

/-- `DVP_Image_WidthStep`. -/
def dvpImageWidthStep (plane : Nat) : BitVec 32 :=
  if plane < pImage.planes.toNat ∧ 0 < plane ∧ pImage.color ∈ [fourccNv12, fourccNv21] then 2
  else 1

/-- `DVP_Image_HeightDiv`. -/
def dvpImageHeightDiv (plane : Nat) : BitVec 32 :=
  if plane < pImage.planes.toNat ∧ 0 < plane then
    if pImage.color ∈ [fourccIyuv, fourccYv12, fourccNv12, fourccNv21] then 2
    else if pImage.color ∈ [fourccYuv9, fourccYvu9] then 4
    else 1
  else 1

/-- `DVP_Image_WidthDiv`. -/
def dvpImageWidthDiv (plane : Nat) : BitVec 32 :=
  if plane < pImage.planes.toNat then
    if 0 < plane then
      if pImage.color ∈
          [fourccIyuv, fourccYv12, fourccNv12, fourccNv21, fourccYu16, fourccYv16] then 2
      else if pImage.color ∈ [fourccYuv9, fourccYvu9] then 4
      else 1
    else if pImage.color = fourccBin1 then 8
    else 1
  else 1

/-- `DVP_Image_LineRange`. -/
def dvpImageLineRange (plane : Nat) : BitVec 32 :=
  if plane < pImage.planes.toNat then
    let lineRange := pImage.yStride.abs
    let priLineSize := pImage.xStride * dvpImageWidthStep pImage 0 *
      (pImage.bufWidth / dvpImageWidthDiv pImage 0)
    let secLineSize := pImage.xStride * dvpImageWidthStep pImage plane *
      (pImage.bufWidth / dvpImageWidthDiv pImage plane)
    if 0 < plane ∧ lineRange = priLineSize then secLineSize else lineRange
  else 0

/-- `DVP_Image_LineSize`. -/
def dvpImageLineSize (plane : Nat) : BitVec 32 :=
  if plane < pImage.planes.toNat then
    pImage.xStride * dvpImageWidthStep pImage plane *
      (pImage.bufWidth / dvpImageWidthDiv pImage plane)
  else 0

/-- `DVP_Image_PlaneSize`. -/
def dvpImagePlaneSize (plane : Nat) : BitVec 32 :=
  if plane < pImage.planes.toNat then
    dvpImageLineSize pImage plane * pImage.bufHeight / dvpImageHeightDiv pImage plane
  else 0

/-- `DVP_Image_Size`. -/
def dvpImageSize : BitVec 32 :=
  (List.range pImage.planes.toNat).foldl (fun size p => size + dvpImagePlaneSize pImage p) 0

/-- `DVP_Image_PatchLineSize`. -/
def dvpImagePatchLineSize (plane : Nat) : BitVec 32 :=
  if plane < pImage.planes.toNat then
    pImage.xStride * dvpImageWidthStep pImage plane *
      (pImage.width / dvpImageWidthDiv pImage plane)
  else 0

/-- `DVP_Image_PatchOffset`, from the pointer to the data of the plane. -/
def dvpImagePatchOffset (x y : BitVec 32) (p : Nat) : BitVec 32 :=
  if p < pImage.planes.toNat ∧ x < pImage.width ∧ y < pImage.height then
    y / dvpImageHeightDiv pImage p * dvpImageLineRange pImage p +
      x / dvpImageWidthDiv pImage p * (pImage.xStride * dvpImageWidthStep pImage p)
  else 0

/-- The number of lines the loops over a plane go through. -/
def DvpImage.lines (p : Nat) : Nat := (pImage.height / dvpImageHeightDiv pImage p).toNat

/-- Where the line `y` of a plane starts, by `DVP_Image_PatchAddressing`. -/
def DvpImage.lineOffset (p y : Nat) : Nat :=
  (dvpImagePatchOffset pImage 0 (BitVec.ofNat 32 y * dvpImageHeightDiv pImage p) p).toNat

/-- The bytes of the line `y` of a plane. -/
def DvpImage.line (p y : Nat) : List UInt8 :=
  peek (pImage.pData p) (pImage.lineOffset p y) (dvpImagePatchLineSize pImage p).toNat

/-- `DVP_Image_Serialize`, to the `len` bytes at the address `base`. -/
def dvpImageSerialize (buffer : Nat → UInt8) (base len : Nat) : (Nat → UInt8) × Nat :=
  let st := putAll (· < len) base (buffer, 0)
    [unitBytes pImage.planes, unitBytes pImage.width, unitBytes pImage.height,
      unitBytes pImage.bufWidth, unitBytes pImage.bufHeight, unitBytes pImage.xStart,
      unitBytes pImage.yStart, unitBytes pImage.color, unitBytes pImage.numBytes]
  (List.range pImage.planes.toNat).foldl (fun st p =>
    (List.range (pImage.lines p)).foldl (fun st y =>
      put (· < len) base st (pImage.line p y)) st) st

namespace DvpImage

/-- What is written of an image: the fields first, -/
def units : List (List UInt8) :=
  [unitBytes pImage.planes, unitBytes pImage.width, unitBytes pImage.height,
    unitBytes pImage.bufWidth, unitBytes pImage.bufHeight, unitBytes pImage.xStart,
    unitBytes pImage.yStart, unitBytes pImage.color, unitBytes pImage.numBytes]

/-- then the lines of a plane after those of the plane before. -/
def patch : List (List UInt8) :=
  (List.range pImage.planes.toNat).flatMap fun p =>
    (List.range (pImage.lines p)).map (pImage.line p)

/-- The number of bytes in the lines of all planes. -/
def patchSize : Nat :=
  ((List.range pImage.planes.toNat).map fun p =>
    pImage.lines p * (dvpImagePatchLineSize pImage p).toNat).sum

@[simp]
theorem length_line {p y : Nat} :
    (pImage.line p y).length = (dvpImagePatchLineSize pImage p).toNat :=
  length_peek

theorem length_units : pImage.units.flatten.length = 36 := by
  simp [units, unitBytes]

theorem length_patch : pImage.patch.flatten.length = pImage.patchSize := by
  rw [patch, patchSize, List.flatMap_def, List.flatten_flatten, List.map_map, List.length_flatten,
    List.map_map]
  congr 1
  apply List.map_congr_left
  intro p _
  simp [List.length_flatten, Function.comp_def]

end DvpImage

theorem dvpImageSerialize_eq {buffer : Nat → UInt8} {base len : Nat} :
    dvpImageSerialize pImage buffer base len =
      putAll (· < len) base (buffer, 0) (pImage.units ++ pImage.patch) := by
  rw [putAll_append, putAll, DvpImage.patch, List.foldl_flatMap]
  simp only [List.foldl_map]
  rfl

/-- `UNSERIALIZE_UNIT` for a number of `w` bits. -/
def getUnit {S : Type} (w : Nat) (len base : Nat) (buffer : Nat → UInt8) (set : BitVec w → S → S) :
    S × Nat → S × Nat :=
  get (· < len) base buffer (w / 8) fun bs s => set (unitOf w bs) s

/-- Writes the line `y` of a plane. -/
def DvpImage.setLine (p y : Nat) (bs : List UInt8) : DvpImage :=
  { pImage with
    pData := Function.update pImage.pData p (poke (pImage.pData p) (pImage.lineOffset p y) bs) }

/-- The round of the loops of `DVP_Image_Unserialize` for a line. Without `copy` it is skipped. -/
def unserializeLine (copy : Bool) (buffer : Nat → UInt8) (base len p y : Nat)
    (st : DvpImage × Nat) : DvpImage × Nat :=
  let l := (dvpImagePatchLineSize st.1 p).toNat
  if copy then get (· < len) base buffer l (fun bs image => image.setLine p y bs) st
  else (st.1, st.2 + l)

/-- The part of `DVP_Image_Unserialize` that reads the fields of `image`. -/
def unserializeHeader (image : DvpImage) (buffer : Nat → UInt8) (base len : Nat) :
    DvpImage × Nat :=
  runAll
    [getUnit 32 len base buffer fun x image => { image with planes := x },
      getUnit 32 len base buffer fun x image => { image with width := x },
      getUnit 32 len base buffer fun x image => { image with height := x },
      getUnit 32 len base buffer fun x image => { image with bufWidth := x },
      getUnit 32 len base buffer fun x image => { image with bufHeight := x },
      getUnit 32 len base buffer fun x image => { image with xStart := x },
      getUnit 32 len base buffer fun x image => { image with yStart := x },
      getUnit 32 len base buffer fun x image => { image with color := x },
      getUnit 32 len base buffer fun x image => { image with numBytes := x }]
    (image, 0)

/-- `DVP_Image_Unserialize`, from the `len` bytes at the address `base`. The local variable `image`
is not initialized. -/
def dvpImageUnserialize (image : DvpImage) (buffer : Nat → UInt8) (base len : Nat) :
    DvpImage × Nat :=
  let (image, offset) := unserializeHeader image buffer base len
  let copy := decide (image.color = pImage.color ∧ image.bufWidth = pImage.bufWidth ∧
    image.bufHeight = pImage.bufHeight)
  (List.range image.planes.toNat).foldl (fun st p =>
    (List.range (st.1.lines p)).foldl (fun st y =>
      unserializeLine copy buffer base len p y st) st) (pImage, offset)

end DVP.Kgraph
