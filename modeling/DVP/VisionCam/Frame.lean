import DVP.Kgraph.Image
import DVP.Sosal.Types

/-!
# Camera frames

The frame of `source/dvp/VisionCam/VisionCamFrame.cpp` and its serialization to a flat buffer. The
fields that are not serialized are left out. A block of metadata is its bytes, and `none` where the
pointer of the frame is `NULL`; the sizes are those of an ABI that aligns 64-bit numbers to 8 bytes.
-/

namespace DVP.VisionCam

open DVP.Sosal DVP.Kgraph Bytes Serial

/-- The bytes of an object of a size. -/
abbrev Object (size : Nat) := { bs : List UInt8 // bs.length = size }

/-- The blocks of `VisionCamMetadata`. -/
inductive MetaBlock where
  | autoWBGains
  | manualWBGains
  | ancillary
  | histogram2D
  | histogramL
  | histogramR
  | gamma2D
  | gammaL
  | gammaR
  | unsaturatedRegions
  | focusRegionData
  | mtisData
  deriving DecidableEq, Repr

/-- `sizeof` of the type of a block. -/
def MetaBlock.size : MetaBlock → Nat
  | autoWBGains | manualWBGains => 8
  | ancillary => 80
  | histogram2D | histogramL | histogramR => 12
  | gamma2D | gammaL | gammaR => 8
  | unsaturatedRegions => 6
  | focusRegionData => 16
  | mtisData => 116

/-- The position of the bit `VCAM_META_*` of a block. -/
def MetaBlock.bit : MetaBlock → Nat
  | autoWBGains => 0
  | manualWBGains => 1
  | ancillary => 2
  | histogram2D => 3
  | histogramL => 4
  | histogramR => 5
  | unsaturatedRegions => 8
  | focusRegionData => 9
  | mtisData => 10
  | gamma2D => 11
  | gammaL => 12
  | gammaR => 13

/-- The positions of `VCAM_META_FACES` and `VCAM_META_FACES_RAW`. -/
def facesBit : Nat := 6
def facesRawBit : Nat := 7

/-- `sizeof(mFaces)`: 35 faces of 36 bytes. -/
def sizeofFaces : Nat := 35 * 36

theorem length_noFaces : (List.replicate sizeofFaces (0 : UInt8)).length = sizeofFaces :=
  List.length_replicate

/-- The fields of `VisionCamFrame` that are serialized, and the image `mFrameBuff` points to. -/
structure VisionCamFrame where
  mFrameBuff : DvpImage
  mFrameSource : BitVec 32
  mTimestamp : BitVec 64
  mWidth : BitVec 32
  mHeight : BitVec 32
  mOffsetX : BitVec 32
  mOffsetY : BitVec 32
  mStartX : BitVec 32
  mStartY : BitVec 32
  mLength : BitVec 32
  mExtraDataLength : BitVec 32
  mMetadata : (blk : MetaBlock) → Option (Object blk.size)
  mDetectedFacesNum : BitVec 32
  mFaces : Object sizeofFaces
  mDetectedFacesNumRaw : BitVec 32
  mFacesRaw : Object sizeofFaces

/-- The blocks `serialize` writes, in its order, and `unserialize` reads. The histograms are among
them if `VCAM_SUPPORT_HISTO_SERIALIZE` is defined. -/
def metaBlocks (histo : Bool) : List MetaBlock :=
  [.autoWBGains, .manualWBGains, .ancillary] ++
    (if histo then [.histogram2D, .histogramL, .histogramR] else []) ++
    [.gamma2D, .gammaL, .gammaR, .unsaturatedRegions, .focusRegionData, .mtisData]

namespace VisionCamFrame

variable (f : VisionCamFrame)

/-- `maxSerialLength`. -/
def maxSerialLength (a : Arch) (histo : Bool) : Nat :=
  a.wrap
    (4 + 8 + 4 + 4 + 4 + 4 + 4 + 4 + 4 + 4 + MetaBlock.autoWBGains.size +
      MetaBlock.manualWBGains.size + MetaBlock.ancillary.size +
      (if histo then MetaBlock.histogram2D.size + MetaBlock.histogramL.size else 0) +
      4 + sizeofFaces + 4 + sizeofFaces + (dvpImageSize f.mFrameBuff).toNat)

/-- The conditions under which `serialize` sets the bits of `metadata`, in its order. -/
def metadataBits : List (Bool × Nat) :=
  [((f.mMetadata .autoWBGains).isSome, MetaBlock.autoWBGains.bit),
    ((f.mMetadata .manualWBGains).isSome, MetaBlock.manualWBGains.bit),
    ((f.mMetadata .ancillary).isSome, MetaBlock.ancillary.bit),
    ((f.mMetadata .histogram2D).isSome, MetaBlock.histogram2D.bit),
    ((f.mMetadata .histogramL).isSome, MetaBlock.histogramL.bit),
    ((f.mMetadata .histogramR).isSome, MetaBlock.histogramR.bit),
    ((f.mMetadata .gamma2D).isSome, MetaBlock.gamma2D.bit),
    ((f.mMetadata .gammaL).isSome, MetaBlock.gammaL.bit),
    ((f.mMetadata .gammaR).isSome, MetaBlock.gammaR.bit),
    ((f.mMetadata .unsaturatedRegions).isSome, MetaBlock.unsaturatedRegions.bit),
    ((f.mMetadata .focusRegionData).isSome, MetaBlock.focusRegionData.bit),
    ((f.mMetadata .mtisData).isSome, MetaBlock.mtisData.bit),
    (decide (0 < f.mDetectedFacesNum), facesBit),
    (decide (0 < f.mDetectedFacesNumRaw), facesRawBit)]

/-- The local variable `metadata` of `serialize`. -/
def metadata : BitVec 32 :=
  f.metadataBits.foldl (fun metadata c =>
    if c.1 then metadata ||| BitVec.twoPow 32 c.2 else metadata) 0

/-- `serialize`, to the first `len` bytes of `buffer`. -/
def serialize (histo : Bool) (buffer : Nat → UInt8) (len : Nat) : (Nat → UInt8) × Nat :=
  let st := putAll (· < len) 0 (buffer, 0)
    [unitBytes f.mFrameSource, unitBytes f.mTimestamp, unitBytes f.mWidth, unitBytes f.mHeight,
      unitBytes f.mOffsetX, unitBytes f.mOffsetY, unitBytes f.mStartX, unitBytes f.mStartY,
      unitBytes f.mLength, unitBytes f.mExtraDataLength]
  let st := put (· < len) 0 st (unitBytes f.metadata)
  let st := (metaBlocks histo).foldl (fun st blk =>
    match f.mMetadata blk with
    | none => st
    | some data => put (· < len) 0 st data.val) st
  let (buffer, offset) := putAll (· < len) 0 st
    [unitBytes f.mDetectedFacesNum, f.mFaces.val, unitBytes f.mDetectedFacesNumRaw,
      f.mFacesRaw.val]
  let (buffer, n) := dvpImageSerialize f.mFrameBuff buffer offset (len - offset)
  (buffer, offset + n)

end VisionCamFrame

/-- The bytes copied to an object, which has their number. -/
def objectOf (size : Nat) (bs : List UInt8) : Object size :=
  ⟨(List.range size).map fun i => bs.getD i 0, by rw [List.length_map, List.length_range]⟩

/-- `UNSERIALIZE_ARRAY` for an object. -/
def getObject {S : Type} (size len base : Nat) (buffer : Nat → UInt8)
    (set : Object size → S → S) : S × Nat → S × Nat :=
  get (· < len) base buffer size fun bs s => set (objectOf size bs) s

namespace VisionCamFrame

/-- Sets a pointer of the metadata. -/
def setMetadata (f : VisionCamFrame) (blk : MetaBlock) (data : Object blk.size) :
    VisionCamFrame :=
  { f with mMetadata := Function.update f.mMetadata blk (some data) }

/-- What `unserialize` does for a block: if its bit is set, it allocates the block and copies the
bytes to it. -/
def unserializeBlock (buffer : Nat → UInt8) (len : Nat) (metadata : BitVec 32)
    (blk : MetaBlock) (st : VisionCamFrame × Nat) : VisionCamFrame × Nat :=
  if metadata &&& BitVec.twoPow 32 blk.bit ≠ 0 then
    getObject blk.size len 0 buffer (fun data f => f.setMetadata blk data)
      (st.1.setMetadata blk (objectOf blk.size []), st.2)
  else st

/-- The part of `unserialize` before the metadata, with its local variable `metadata`. -/
def unserializeUnits (buffer : Nat → UInt8) (len : Nat) :
    (VisionCamFrame × BitVec 32) × Nat → (VisionCamFrame × BitVec 32) × Nat :=
  runAll
    [getUnit 32 len 0 buffer fun x s => ({ s.1 with mFrameSource := x }, s.2),
      getUnit 64 len 0 buffer fun x s => ({ s.1 with mTimestamp := x }, s.2),
      getUnit 32 len 0 buffer fun x s => ({ s.1 with mWidth := x }, s.2),
      getUnit 32 len 0 buffer fun x s => ({ s.1 with mHeight := x }, s.2),
      getUnit 32 len 0 buffer fun x s => ({ s.1 with mOffsetX := x }, s.2),
      getUnit 32 len 0 buffer fun x s => ({ s.1 with mOffsetY := x }, s.2),
      getUnit 32 len 0 buffer fun x s => ({ s.1 with mStartX := x }, s.2),
      getUnit 32 len 0 buffer fun x s => ({ s.1 with mStartY := x }, s.2),
      getUnit 32 len 0 buffer fun x s => ({ s.1 with mLength := x }, s.2),
      getUnit 32 len 0 buffer fun x s => ({ s.1 with mExtraDataLength := x }, s.2),
      getUnit 32 len 0 buffer fun x s => (s.1, x)]

/-- The part of `unserialize` between the metadata and the image. -/
def unserializeFaces (buffer : Nat → UInt8) (len : Nat) :
    VisionCamFrame × Nat → VisionCamFrame × Nat :=
  runAll
    [getUnit 32 len 0 buffer fun x f => { f with mDetectedFacesNum := x },
      getObject sizeofFaces len 0 buffer fun data f => { f with mFaces := data },
      getUnit 32 len 0 buffer fun x f => { f with mDetectedFacesNumRaw := x },
      getObject sizeofFaces len 0 buffer fun data f => { f with mFacesRaw := data }]

/-- `unserialize`, from the first `len` bytes of `buffer`, when its allocations succeed. The variable
`image` is that of `DVP_Image_Unserialize`. -/
def unserialize (f : VisionCamFrame) (histo : Bool) (image : DvpImage) (buffer : Nat → UInt8)
    (len : Nat) : VisionCamFrame × Nat :=
  let ((f, metadata), offset) := unserializeUnits buffer len ((f, 0), 0)
  let st := (metaBlocks histo).foldl (fun st blk => unserializeBlock buffer len metadata blk st)
    (f, offset)
  let (f, offset) := unserializeFaces buffer len st
  let (pImage, n) := dvpImageUnserialize f.mFrameBuff image buffer offset (len - offset)
  ({ f with mFrameBuff := pImage }, offset + n)

end VisionCamFrame

end DVP.VisionCam
