import DVP.Kgraph.ImageBuffer
import DVP.Kgraph.ImageRoundTrip
import DVP.Lib.Transfer

/-!
# Filling, copying and comparing images

The functions of `source/dvp/dvp_kgraph/dvp_mem.c` that check an image and move its data. The memory
is a function from addresses to bytes. What is moved where depends on the numbers of the images
alone, so that a function that moves data is the list of its transfers; `none` stands for
`DVP_FALSE`. The pointers to the images themselves are not `NULL`.
-/

namespace DVP.Kgraph

open Bytes Sosal Transfer

attribute [local instance] lawfulBEq_fourcc

/-! ## Sizes of the patch -/

section Sizes

variable (pImage : DvpImage)

/-- `DVP_Image_PatchPlaneSize`. -/
def dvpImagePatchPlaneSize (plane : Nat) : BitVec 32 :=
  if plane < pImage.planes.toNat then
    dvpImagePatchLineSize pImage plane * pImage.height / dvpImageHeightDiv pImage plane
  else 0

/-- `DVP_Image_PatchSize`. -/
def dvpImagePatchSize : BitVec 32 :=
  (List.range pImage.planes.toNat).foldl (fun size p => size + dvpImagePatchPlaneSize pImage p) 0

end Sizes

/-! ## Validation -/

section Validate

variable (a : Arch) (image : DvpImageT)

/-- `(size_t)abs(pImage->y_stride)`. -/
def absStride : Nat := (image.yStride.abs.signExtend a.bits).toNat

/-- A round of the loop over the planes of `DVP_Image_Validate`: whether it goes on. -/
def validatePlane (bufAlign : BitVec 32) (p : Nat) : Bool :=
  let range := (dvpImagePlaneRange image.shape p).toNat
  let line := (dvpImageLineSize image.shape p).toNat
  let pLo := image.pBuffer p
  let pHi := a.add (image.pBuffer p) range
  -- is the pointer NULL for either?
  if image.pBuffer p = 0 ∨ image.pData p = 0 then false
  -- if the pointer not aligned?
  else if image.pData p % bufAlign.toNat ≠ 0 then false
  -- check to make sure the pointer is within the image somewhere
  else if ¬ (pLo ≤ image.pData p ∧ image.pData p < pHi) then false
  -- if the image is strided, check to make sure it's not in the badlands.
  else if line < absStride a image ∧ image.bufWidth = image.width then
    decide (a.sub (image.pData p) (image.pBuffer p) % absStride a image ≤ line)
  else true

/-- `DVP_Image_Validate`. The largest memory type is that of the build. -/
def dvpImageValidate (mtypeMax bufAlign strideMultiple widthMultiple heightMultiple : BitVec 32)
    (colors : Option (Nat → BitVec 32)) (numColors : BitVec 32) : Bool :=
  if bufAlign = 0 ∨ strideMultiple = 0 ∨ widthMultiple = 0 ∨ heightMultiple = 0 then false
  else if image.planes = 0 ∨ image.width = 0 ∨ image.height = 0 ∨ image.bufHeight = 0 ∨
      image.bufWidth = 0 ∨ image.color = 0 ∨ mtypeMax < image.memType ∨ image.numBytes = 0 ∨
      image.xStride = 0 ∨ image.yStride = 0 then false
  else if image.yStride % strideMultiple ≠ 0 ∨ image.width % widthMultiple ≠ 0 ∨
      image.height % heightMultiple ≠ 0 then false
  else if ¬ (List.range image.planes.toNat).all (validatePlane a image bufAlign) then false
  else match colors with
    | some colors =>
      if 0 < numColors then (List.range numColors.toNat).any fun c => colors c = image.color
      else true
    | none => true

end Validate

/-! ## Filling -/

section Fill

variable (a : Arch) (image : DvpImageT)

/-- Where the line `y` of a plane of the patch starts. -/
def patchLine (p y : Nat) : Nat :=
  dvpImagePatchAddressing a image 0 (BitVec.ofNat 32 y * dvpImageHeightDiv image.shape p) p

/-- A round of the loops of `DVP_Image_Fill`. The left places are memory, the right ones those of
`buf`. -/
def fillLine (st : List (Transfer (Nat ⊕ Nat) UInt8) × BitVec 32) (l : Nat × Nat) :
    List (Transfer (Nat ⊕ Nat) UInt8) × BitVec 32 :=
  let len := dvpImagePatchLineSize image.shape l.1
  let ptr := patchLine a image l.1 l.2
  (st.1 ++ copyRun (fun i => .inl (ptr + i)) (fun i => .inr (st.2.toNat + i)) len.toNat,
    st.2 + len)

/-- `DVP_Image_Fill`. -/
def dvpImageFill (size : BitVec 32) : List (Transfer (Nat ⊕ Nat) UInt8) :=
  if size ≤ dvpImagePatchSize image.shape then
    (image.shape.allLines.foldl (fillLine a image) ([], 0)).1
  else []

end Fill

/-! ## Copying -/

/-- `memcpy`. -/
def memcpy (d s n : Nat) : List (Transfer Nat UInt8) := copyRun (d + ·) (s + ·) n

/-- `*d = value`. -/
def setByte (d : Nat) (value : UInt8) : Transfer Nat UInt8 := ⟨[], [(d, fun _ => value)]⟩

/-- The loops over macro pixels of two columns. -/
def macroPixels (image : DvpImageT) (body : BitVec 32 → BitVec 32 → List (Transfer Nat UInt8)) :
    List (Transfer Nat UInt8) :=
  (List.range image.height.toNat).flatMap fun y =>
    (List.range ((image.width.toNat + 1) / 2)).flatMap fun i =>
      body (BitVec.ofNat 32 (2 * i)) (BitVec.ofNat 32 y)

/-- The luma of two pixels, behind zero chroma. -/
def lumaToXyxy (luma xyxy : Nat) : List (Transfer Nat UInt8) :=
  [setByte xyxy 128, copy (xyxy + 1) luma, setByte (xyxy + 2) 128, copy (xyxy + 3) (luma + 1)]

/-- The luma of two pixels, in front of zero chroma. -/
def lumaToYxyx (luma yxyx : Nat) : List (Transfer Nat UInt8) :=
  [copy yxyx luma, setByte (yxyx + 1) 128, copy (yxyx + 2) (luma + 1), setByte (yxyx + 3) 128]

/-- The bytes of a macro pixel, the chroma of which are bytes `u` and `v` of the source. -/
def reswizzle (yxyx xyxy u v : Nat) : List (Transfer Nat UInt8) :=
  [copy xyxy (yxyx + u), copy (xyxy + 1) yxyx, copy (xyxy + 2) (yxyx + v),
    copy (xyxy + 3) (yxyx + 2)]

section Copy

variable (a : Arch) (pDst pSrc : DvpImageT)

/-- A plane of the image has no data. -/
def hasNull (image : DvpImageT) : Bool :=
  (List.range image.planes.toNat).any fun p => image.pData p = 0

/-- The copy of an image of the same colour. -/
def copySame : List (Transfer Nat UInt8) :=
  (List.range pSrc.planes.toNat).flatMap fun p =>
    let ydiv := dvpImageHeightDiv pSrc.shape p
    (List.range (pSrc.height / ydiv).toNat).flatMap fun y =>
      memcpy (dvpImagePatchAddressing a pDst 0 (BitVec.ofNat 32 y * ydiv) p)
        (dvpImagePatchAddressing a pSrc 0 (BitVec.ofNat 32 y * ydiv) p)
        (dvpImagePatchLineSize pSrc.shape p).toNat

/-- The copy of a plane of luma. -/
def copyLuma : List (Transfer Nat UInt8) :=
  (List.range pSrc.height.toNat).flatMap fun y =>
    memcpy (dvpImagePatchAddressing a pDst 0 (BitVec.ofNat 32 y) 0)
      (dvpImagePatchAddressing a pSrc 0 (BitVec.ofNat 32 y) 0)
      (dvpImagePatchLineSize pSrc.shape 0).toNat

/-- The colours whose first plane is the luma. -/
def lumaColors : List (BitVec 32) :=
  [fourccNv12, fourccYu24, fourccYv24, fourccYu16, fourccYv16, fourccIyuv, fourccYv12, fourccYuv9,
    fourccYvu9]

/-- `DVP_Image_Copy`. -/
def dvpImageCopy : Option (List (Transfer Nat UInt8)) :=
  if hasNull pSrc then none
  else if hasNull pDst then none
  else if pDst.width < pSrc.width ∨ pDst.height < pSrc.height then none
  else if pDst.color = pSrc.color then some (copySame a pDst pSrc)
  -- convert the colors
  else if pSrc.color = fourccY800 ∧ pDst.color ∈ [fourccUyvy, fourccVyuy] then
    some (macroPixels pSrc fun x y =>
      lumaToXyxy (dvpImagePatchAddressing a pSrc x y 0) (dvpImagePatchAddressing a pDst x y 0))
  else if pSrc.color = fourccY800 ∧ pDst.color ∈ [fourccYuy2, fourccYvyu] then
    some (macroPixels pSrc fun x y =>
      lumaToYxyx (dvpImagePatchAddressing a pSrc x y 0) (dvpImagePatchAddressing a pDst x y 0))
  else if pDst.color ∈ [fourccUyvy, fourccVyuy] ∧ pSrc.color ∈ [fourccYvyu, fourccYuy2] then
    -- reswizzle
    some (macroPixels pSrc fun x y =>
      let yxyx := dvpImagePatchAddressing a pSrc x y 0
      let xyxy := dvpImagePatchAddressing a pDst x y 0
      if pSrc.color = fourccYuy2 then
        if pDst.color = fourccUyvy then reswizzle yxyx xyxy 1 3
        else reswizzle yxyx xyxy 3 1
      else
        if pDst.color = fourccUyvy then reswizzle yxyx xyxy 3 1
        else reswizzle yxyx xyxy 1 3)
  else if pSrc.color ∈ lumaColors ∧ pDst.color = fourccY800 then some (copyLuma a pDst pSrc)
  else none

/-- `DVP_Image_PatchEqual`. -/
def dvpImagePatchEqual (mem : Nat → UInt8) : Bool :=
  if hasNull pSrc then false
  else if hasNull pDst then false
  else if pSrc.width ≠ pDst.width ∨ pSrc.height ≠ pDst.height then false
  else if pSrc.bufWidth < pSrc.xStart + pSrc.width ∨ pDst.bufWidth < pDst.xStart + pDst.width ∨
      pSrc.bufHeight < pSrc.yStart + pSrc.height ∨
      pDst.bufHeight < pDst.yStart + pDst.height then false
  else if pDst.color = pSrc.color then
    (List.range pSrc.planes.toNat).all fun p =>
      let ydiv := dvpImageHeightDiv pSrc.shape p
      let l := (dvpImagePatchLineSize pSrc.shape p).toNat
      (List.range (pSrc.height / ydiv).toNat).all fun y =>
        peek mem (dvpImagePatchAddressing a pDst 0 (BitVec.ofNat 32 y * ydiv) p) l =
          peek mem (dvpImagePatchAddressing a pSrc 0 (BitVec.ofNat 32 y * ydiv) p) l
  else false

end Copy

end DVP.Kgraph
