import DVP.Kgraph.Image
import DVP.Sosal.Types

/-!
# Images in memory

The functions of `source/dvp/dvp_kgraph/dvp_mem.c` that make an image, place its planes in memory
and address its samples. An image is `DVP_Image_t` as a whole; its numbers are also those of a
`DvpImage`, on which the size functions are defined. Pointers are numbers, `size_t` wide.
-/

namespace DVP.Kgraph

open Sosal

attribute [local instance] lawfulBEq_fourcc

/-- `FOURCC_UYVY`: packed in the order U, Y, V, Y, and the first of the other codes that `DVP_Image_Init` and
`DVP_Image_Dims` tell apart. -/
def fourccUyvy : BitVec 32 := 0x59565955

/-- `FOURCC_YUY2`: packed in the order Y, U, Y, V. -/
def fourccYuy2 : BitVec 32 := 0x32595559

/-- `FOURCC_YVYU`: packed in the order Y, V, Y, U. -/
def fourccYvyu : BitVec 32 := 0x55595659

/-- `FOURCC_VYUY`: packed in the order V, Y, U, Y. -/
def fourccVyuy : BitVec 32 := 0x59555956

/-- `FOURCC_YV24`: planar YVU 4:4:4. -/
def fourccYv24 : BitVec 32 := 0x34325659

/-- `FOURCC_YU24`: planar YUV 4:4:4. -/
def fourccYu24 : BitVec 32 := 0x34325559

/-- `FOURCC_Y16`: luma of 16 bits. -/
def fourccY16 : BitVec 32 := 0x20363159

/-- `FOURCC_Y32`: luma of 32 bits. -/
def fourccY32 : BitVec 32 := 0x20323359

/-- `FOURCC_Y64`: luma of 64 bits. -/
def fourccY64 : BitVec 32 := 0x20343659

/-- `FOURCC_RGB565`: RGB in 16 bits. -/
def fourccRgb565 : BitVec 32 := 0x35424752

/-- `FOURCC_BGR565`: BGR in 16 bits. -/
def fourccBgr565 : BitVec 32 := 0x35524742

/-- `FOURCC_BGR`: BGR in 24 bits. -/
def fourccBgr : BitVec 32 := 0x33524742

/-- `FOURCC_RGB`: RGB in 24 bits. -/
def fourccRgb : BitVec 32 := 0x33424752

/-- `FOURCC_RGBA`: RGBA in 32 bits. -/
def fourccRgba : BitVec 32 := 0x41424752

/-- `FOURCC_BGRA`: BGRA in 32 bits. -/
def fourccBgra : BitVec 32 := 0x41524742

/-- `FOURCC_ARGB`: ARGB in 32 bits. -/
def fourccArgb : BitVec 32 := 0x42475241

/-- `FOURCC_RGBP`: planar RGB. -/
def fourccRgbp : BitVec 32 := 0x50424752

/-- `FOURCC_HSLP`: planar HSL. -/
def fourccHslp : BitVec 32 := 0x504C5348

/-- `DVP_MAX_PLANES`. -/
def dvpMaxPlanes : Nat := 4

/-- `DVP_Image_t`. Its arrays of pointers have an entry for each of its planes. -/
structure DvpImageT where
  pData : Nat → Nat
  pBuffer : Nat → Nat
  planes : BitVec 32
  width : BitVec 32
  height : BitVec 32
  bufWidth : BitVec 32
  bufHeight : BitVec 32
  xStart : BitVec 32
  yStart : BitVec 32
  xStride : BitVec 32
  yStride : BitVec 32
  color : BitVec 32
  numBytes : BitVec 32
  memType : BitVec 32
  reserved : Nat
  skipCacheOpInval : BitVec 32
  skipCacheOpFlush : BitVec 32
  planes_le : planes.toNat ≤ dvpMaxPlanes

/-- The numbers of an image, without its bytes. -/
def DvpImageT.shape (image : DvpImageT) : DvpImage where
  pData _ _ := 0
  planes := image.planes
  width := image.width
  height := image.height
  bufWidth := image.bufWidth
  bufHeight := image.bufHeight
  xStart := image.xStart
  yStart := image.yStart
  xStride := image.xStride
  yStride := image.yStride
  color := image.color
  numBytes := image.numBytes

/-! ## A new image -/

/-- The number of planes `DVP_Image_Init` sets for a colour. -/
def initPlanes (fourcc : BitVec 32) : BitVec 32 :=
  if fourcc ∈ [fourccNv12, fourccNv21] then 2
  else if fourcc ∈ [fourccYuv9, fourccYvu9, fourccYv12, fourccIyuv, fourccYu16, fourccYv16,
    fourccYu24, fourccYv24, fourccRgbp, fourccHslp] then 3
  else 1

/-- The `x_stride` it sets. -/
def initXStride (fourcc : BitVec 32) : BitVec 32 :=
  if fourcc ∈ [fourccUyvy, fourccYuy2, fourccVyuy, fourccYvyu] then 2
  else if fourcc ∈ [fourccBgr, fourccRgb] then 3
  else if fourcc ∈ [fourccRgba, fourccBgra, fourccArgb] then 4
  else if fourcc = fourccY16 then 2
  else if fourcc = fourccY32 then 4
  else if fourcc = fourccY64 then 8
  else if fourcc ∈ [fourccRgb565, fourccBgr565] then 2
  else 1

/-- The `numBytes` it sets. -/
def initNumBytes (width height fourcc : BitVec 32) : BitVec 32 :=
  if fourcc = fourccBin1 then height * width / 8
  else if fourcc ∈ [fourccYv16, fourccYu16] then height * width + 2 * (height * width / 2)
  else if fourcc ∈ [fourccNv12, fourccNv21, fourccIyuv, fourccYv12] then height * width * 3 / 2
  else height * width * initXStride fourcc * initPlanes fourcc

/-- No image has more than three planes. -/
theorem initPlanes_le (fourcc : BitVec 32) : (initPlanes fourcc).toNat ≤ 3 := by
  unfold initPlanes
  split_ifs <;> decide

/-- A sample of every colour has bytes. -/
theorem initXStride_pos (fourcc : BitVec 32) : 0 < (initXStride fourcc).toNat := by
  unfold initXStride
  split_ifs <;> decide

/-- `DVP_Image_Init`. -/
def dvpImageInit (width height fourcc : BitVec 32) : DvpImageT where
  pData _ := 0
  pBuffer _ := 0
  planes := initPlanes fourcc
  width := width
  height := height
  bufWidth := width
  bufHeight := height
  xStart := 0
  yStart := 0
  xStride := initXStride fourcc
  yStride := 0
  color := fourcc
  numBytes := initNumBytes width height fourcc
  memType := 0
  reserved := 0
  skipCacheOpInval := 0
  skipCacheOpFlush := 0
  planes_le := (initPlanes_le fourcc).trans (by decide)

/-! ## Sizes -/

section Sizes

variable (tiler : Bool) (pImage : DvpImage)

/-- `DVP_Image_PlaneRange`. -/
def dvpImagePlaneRange (plane : Nat) : BitVec 32 :=
  if plane < pImage.planes.toNat then
    dvpImageLineRange pImage plane * pImage.bufHeight / dvpImageHeightDiv pImage plane
  else 0

/-- `DVP_Image_Range`. -/
def dvpImageRange : BitVec 32 :=
  (List.range pImage.planes.toNat).foldl (fun range p => range + dvpImagePlaneSize pImage p) 0

/-- `DVP_Image_Dims`, for the plane `p`: `bpp`, `width` and `height`, which are signed. Whether
`DVP_USE_TILER` is defined is the first argument. -/
def dvpImageDims (p : Nat) : List (BitVec 32) :=
  let width := pImage.bufWidth
  let height := pImage.bufHeight
  if pImage.color ∈ [fourccNv12, fourccNv21] then
    match p with
    | 0 => [1, width, height]
    | 1 => [1 * 2, width.sdiv 2, height.sdiv 2]
    | _ => [0, 0, 0]
  else if pImage.color ∈ [fourccYuv9, fourccYvu9] then
    match p with
    | 0 => [1, width, height]
    | 1 | 2 => [1, width.sdiv 4, height.sdiv 4]
    | _ => [0, 0, 0]
  else if pImage.color ∈ [fourccYv12, fourccIyuv] then
    match p with
    | 0 => [1, width, height]
    | 1 | 2 => [1, width.sdiv 2, height.sdiv 2]
    | _ => [0, 0, 0]
  else if pImage.color ∈ [fourccYu16, fourccYv16] then
    match p with
    | 0 => [1, width, height]
    | 1 | 2 => [1 * 2, width.sdiv 2, height]
    | _ => [0, 0, 0]
  else if tiler ∧ pImage.color ∈ [fourccUyvy, fourccYuy2, fourccVyuy, fourccYvyu] then
    match p with
    | 0 => [4, width / 2, height]
    | _ => [0, 0, 0]
  else if p < pImage.planes.toNat then [pImage.xStride, width, height]
  else [0, 0, 0]

/-- The product of the dimensions of a plane. -/
def DvpImage.dimsBytes (p : Nat) : Nat := ((dvpImageDims tiler pImage p).map BitVec.toNat).prod

/-- `strides[p]`, as `allocator_calloc` computes it for virtual memory: the products of the first
dimensions, from a size. -/
def allocatorStrides (size : BitVec 32) : List (BitVec 32) → List (BitVec 32)
  | [] => []
  | dim :: dims => size * dim :: allocatorStrides (size * dim) dims

end Sizes

/-- `DVP_Image_Alloc`, without `DVP_USE_TILER`, when `dvp_mem_calloc` places the planes at `ptrs`
and gives the first of them the `strides`. -/
def dvpImageAlloc (image : DvpImageT) (dvpMemType : BitVec 32) (ptrs : Nat → Nat)
    (strides : List (BitVec 32)) : DvpImageT :=
  let pBuffer p := if p < image.planes.toNat then ptrs p else image.pBuffer p
  let pData p := if p < image.planes.toNat then pBuffer p else image.pData p
  let image := { image with
    pBuffer := pBuffer
    pData := pData
    memType := dvpMemType
    -- just the first plane's strides, since the image does not track each plane
    xStride := strides.getD 0 0
    yStride := strides.getD 1 0 }
  { image with numBytes := dvpImageRange image.shape }

/-- `DVP_Image_Alloc` of virtual memory. -/
def dvpImageAllocVirtual (image : DvpImageT) (dvpMemType : BitVec 32) (ptrs : Nat → Nat) :
    DvpImageT :=
  dvpImageAlloc image dvpMemType ptrs (allocatorStrides 1 (dvpImageDims false image.shape 0))

/-! ## Addresses -/

/-- `DVP_Image_Offset`. -/
def dvpImageOffset (pImage : DvpImage) (x y : BitVec 32) (p : Nat) : BitVec 32 :=
  if p < pImage.planes.toNat ∧ x < pImage.bufWidth ∧ y < pImage.bufHeight then
    y / dvpImageHeightDiv pImage p * dvpImageLineRange pImage p +
      x / dvpImageWidthDiv pImage p * (pImage.xStride * dvpImageWidthStep pImage p)
  else 0

variable (a : Arch) (image : DvpImageT)

/-- `DVP_Image_Addressing`. -/
def dvpImageAddressing (x y : BitVec 32) (p : Nat) : Nat :=
  let ptr := if p < image.planes.toNat then image.pBuffer p else 0
  a.add ptr (dvpImageOffset image.shape x y p).toNat

/-- `DVP_Image_PatchAddressing`. -/
def dvpImagePatchAddressing (x y : BitVec 32) (p : Nat) : Nat :=
  let ptr := if p < image.planes.toNat then image.pData p else 0
  a.add ptr (dvpImagePatchOffset image.shape x y p).toNat

/-- `DVP_Image_SetPatch`. -/
def dvpImageSetPatch (xStart yStart width height : BitVec 32) : Bool × DvpImageT :=
  -- the source has a variable for the answer, and nothing sets it
  let set := false
  if xStart + width < image.bufWidth ∧ yStart + height < image.bufHeight then
    let image := (List.range image.planes.toNat).foldl (fun image p =>
      { image with
        pData := Function.update image.pData p (dvpImageAddressing a image xStart yStart p)
        xStart := xStart
        yStart := yStart
        width := width
        height := height }) image
    (set, image)
  else (set, image)

end DVP.Kgraph
