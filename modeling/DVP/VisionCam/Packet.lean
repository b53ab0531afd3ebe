import DVP.VisionCam.Frame

/-!
# The packet of a frame

`serialize` writes the runs of bytes of a frame one after the other, as long as the position after
the run is less than the length it is given. What it writes to a buffer that is long enough is the
`packet` of the frame.

* `Complete` says that the whole packet is written, and nothing beyond the buffer. The length of the
  packet decides it (`complete_iff_lt`).
* `maxSerialLength` does not count the word `metadata`, the fields of the image and six of the
  blocks. `complete_maxSerialLength_iff` says when it is enough.
-/

namespace DVP.VisionCam.VisionCamFrame

open DVP.Sosal DVP.Kgraph Bytes Serial

variable (f : VisionCamFrame) (histo : Bool)

/-- The runs of bytes of a frame: the fields before the metadata, -/
def units : List (List UInt8) :=
  [unitBytes f.mFrameSource, unitBytes f.mTimestamp, unitBytes f.mWidth, unitBytes f.mHeight,
    unitBytes f.mOffsetX, unitBytes f.mOffsetY, unitBytes f.mStartX, unitBytes f.mStartY,
    unitBytes f.mLength, unitBytes f.mExtraDataLength]

/-- the blocks that are present, -/
def blocks : List (List UInt8) :=
  (metaBlocks histo).filterMap fun blk => (f.mMetadata blk).map Subtype.val

/-- and the faces. -/
def faces : List (List UInt8) :=
  [unitBytes f.mDetectedFacesNum, f.mFaces.val, unitBytes f.mDetectedFacesNumRaw, f.mFacesRaw.val]

/-- The bytes of a frame before those of its image. -/
def header : List (List UInt8) :=
  f.units ++ unitBytes f.metadata :: (f.blocks histo ++ f.faces)

/-- The runs of bytes of a frame. -/
def chunks : List (List UInt8) :=
  f.header histo ++ (f.mFrameBuff.units ++ f.mFrameBuff.patch)

/-- The bytes of a frame. -/
def packet : List UInt8 := (f.chunks histo).flatten

/-- The number of bytes in the blocks that are present. -/
def blocksSize : Nat :=
  ((metaBlocks histo).map fun blk => if (f.mMetadata blk).isSome then blk.size else 0).sum

variable {f histo}

/-- The loop over the blocks writes those that are present. -/
theorem foldl_blocks (f : VisionCamFrame) (len : Nat) {st : (Nat → UInt8) × Nat}
    {step : (Nat → UInt8) × Nat → MetaBlock → (Nat → UInt8) × Nat}
    (hstep : ∀ st blk, step st blk =
      ((f.mMetadata blk).map Subtype.val).elim st (put (· < len) 0 st)) :
    (metaBlocks histo).foldl step st = putAll (· < len) 0 st (f.blocks histo) := by
  rw [putAll, blocks, List.foldl_filterMap]
  congr 1
  funext st blk
  rw [hstep]
  cases f.mMetadata blk with
  | none => rfl
  | some data => rfl

theorem serialize_eq {buffer : Nat → UInt8} {len : Nat} :
    f.serialize histo buffer len = putAll (· < len) 0 (buffer, 0) (f.chunks histo) := by
  have himage (st : (Nat → UInt8) × Nat) :
      ((dvpImageSerialize f.mFrameBuff st.1 st.2 (len - st.2)).1,
        st.2 + (dvpImageSerialize f.mFrameBuff st.1 st.2 (len - st.2)).2) =
      putAll (· < len) 0 st (f.mFrameBuff.units ++ f.mFrameBuff.patch) := by
    -- The image is written to the rest of the buffer, which starts where the frame has got to.
    have hfits (n : Nat) : n < len - st.2 ↔ st.2 + n < len := Nat.lt_sub_iff_add_lt'
    rw [dvpImageSerialize_eq, putAll_congr hfits]
    change _ = putAll (· < len) 0 (st.1, st.2 + 0) _
    rw [putAll_shift, Nat.zero_add]
  rw [chunks, putAll_append, ← himage, header, putAll_append, putAll_cons, putAll_append, serialize,
    foldl_blocks f len]
  · rfl
  · intro st blk
    cases f.mMetadata blk with
    | none => rfl
    | some data => rfl

theorem length_blocks : (f.blocks histo).flatten.length = f.blocksSize histo := by
  rw [blocks, blocksSize]
  induction metaBlocks histo with
  | nil => rfl
  | cons blk blks ih =>
    rw [List.filterMap_cons, List.map_cons, List.sum_cons, ← ih]
    cases f.mMetadata blk with
    | none => simp
    | some data => simp [data.2]

theorem length_header : (f.header histo).flatten.length = 2576 + f.blocksSize histo := by
  have hunits : f.units.flatten.length = 44 := by simp [units, unitBytes]
  have hfaces : f.faces.flatten.length = 2528 := by
    simp [faces, unitBytes, f.mFaces.2, f.mFacesRaw.2, sizeofFaces]
  rw [header, List.flatten_append, List.flatten_cons, List.flatten_append]
  simp only [List.length_append, hunits, hfaces, length_blocks, unitBytes, length_toLE]
  omega

theorem length_packet :
    (f.packet histo).length = 2612 + f.blocksSize histo + f.mFrameBuff.patchSize := by
  rw [packet, chunks, List.flatten_append, List.length_append, List.flatten_append, List.length_append,
    length_header, DvpImage.length_units, DvpImage.length_patch]
  omega

/-! ## What is written -/

/-- All of the frame is written, and nothing beyond the length of the buffer. -/
structure Complete (f : VisionCamFrame) (histo : Bool) (buffer : Nat → UInt8) (len : Nat) :
    Prop where
  size : (f.serialize histo buffer len).2 = (f.packet histo).length
  bytes : peek (f.serialize histo buffer len).1 0 (f.packet histo).length = f.packet histo
  within : ∀ i, len ≤ i → (f.serialize histo buffer len).1 i = buffer i

variable {buffer : Nat → UInt8} {len : Nat}

/-- Nothing is ever written beyond the length of the buffer. -/
theorem serialize_within {i : Nat} (hi : len ≤ i) :
    (f.serialize histo buffer len).1 i = buffer i := by
  rw [serialize_eq]
  exact putAll_beyond (fun n hn => Nat.le_of_lt hn) (by rw [Nat.zero_add]; exact hi)

theorem serialize_of_lt (h : (f.packet histo).length < len) :
    f.serialize histo buffer len =
      (poke buffer 0 (f.packet histo), (f.packet histo).length) := by
  have hdown : Downward (· < len) := fun m n hmn hn => Nat.lt_of_le_of_lt hmn hn
  rw [serialize_eq, putAll_of_fits hdown (by rw [Nat.zero_add]; exact h), Nat.add_zero,
    Nat.zero_add]
  rfl

/-- The whole frame is written exactly when the buffer is longer than the packet. -/
theorem complete_iff_lt : f.Complete histo buffer len ↔ (f.packet histo).length < len := by
  constructor
  · intro hcomplete
    by_contra hshort
    have hne : f.packet histo ≠ [] := by
      intro hnil
      have hlength : (f.packet histo).length = _ := length_packet
      rw [hnil, List.length_nil] at hlength
      omega
    have hsize : (putAll (· < len) 0 (buffer, 0) (f.chunks histo)).2 = 0 + (f.packet histo).length := by
      rw [← serialize_eq, Nat.zero_add]
      exact hcomplete.size
    exact putAll_short hne (by rw [Nat.zero_add]; exact hshort) hsize
  · intro h
    refine ⟨?_, ?_, fun i => serialize_within⟩
    · rw [serialize_of_lt h]
    · rw [serialize_of_lt h]
      dsimp only
      rw [peek_poke_self]

theorem maxSerialLength_eq {a : Arch} :
    f.maxSerialLength a histo =
      a.wrap (2668 + (if histo then 24 else 0) + (dvpImageSize f.mFrameBuff).toNat) := by
  rw [maxSerialLength]
  congr 1
  cases histo <;> simp [MetaBlock.size, sizeofFaces]

/-- `maxSerialLength` is enough exactly when it is more than the sizes of the parts of the frame. -/
theorem complete_maxSerialLength_iff (f : VisionCamFrame) (a : Arch) (histo : Bool)
    (buffer : Nat → UInt8) :
    f.Complete histo buffer (f.maxSerialLength a histo) ↔
      2612 + f.blocksSize histo + f.mFrameBuff.patchSize <
        a.wrap (2668 + (if histo then 24 else 0) + (dvpImageSize f.mFrameBuff).toNat) := by
  rw [complete_iff_lt, length_packet, maxSerialLength_eq]

/-- A frame with an image of 640 by 480 bytes and the block `mAncillary`. -/
def lumaFrame : VisionCamFrame where
  mFrameBuff :=
    { pData := fun _ _ => 0, planes := 1, width := 640, height := 480, bufWidth := 640,
      bufHeight := 480, xStart := 0, yStart := 0, xStride := 1, yStride := 640,
      color := fourccY800, numBytes := 307200 }
  mFrameSource := 0
  mTimestamp := 0
  mWidth := 640
  mHeight := 480
  mOffsetX := 0
  mOffsetY := 0
  mStartX := 0
  mStartY := 0
  mLength := 0
  mExtraDataLength := 0
  mMetadata
    | .ancillary => some ⟨List.replicate 80 0, List.length_replicate⟩
    | _ => none
  mDetectedFacesNum := 0
  mFaces := ⟨List.replicate sizeofFaces 0, length_noFaces⟩
  mDetectedFacesNumRaw := 0
  mFacesRaw := ⟨List.replicate sizeofFaces 0, length_noFaces⟩

/-- The packet has 309892 bytes, and `maxSerialLength` is 309868. -/
theorem lumaFrame_not_complete :
    ¬lumaFrame.Complete false (fun _ => 0) (lumaFrame.maxSerialLength .arch32 false) := by
  have hmax : lumaFrame.maxSerialLength .arch32 false = 309868 := by decide +kernel
  have hblocks : lumaFrame.blocksSize false = 80 := by decide +kernel
  have hpatch : lumaFrame.mFrameBuff.patchSize = 307200 := by decide +kernel
  rw [complete_iff_lt, length_packet, hmax, hblocks, hpatch]
  decide

end DVP.VisionCam.VisionCamFrame
