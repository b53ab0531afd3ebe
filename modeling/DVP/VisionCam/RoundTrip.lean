import DVP.Kgraph.ImageRoundTrip
import DVP.VisionCam.Packet

/-!
# Reading frames back

`unserialize` of the packet of a frame, into a frame whose image has the same shape. The checks of
the reader are those of the writer: a run of bytes is read if the position after it is less than the
length.

* `unserialize_eq`: from more bytes than the packet has, the whole packet is read, and
  `roundTrips_of_lt` says that the frame is restored.
* From exactly the bytes of the packet, the last run is never read (`unserialize_lt`), so no frame
  makes the round trip (`not_roundTrips`).
-/

namespace DVP.VisionCam.VisionCamFrame

open DVP.Kgraph Bytes Serial

variable {f f' : VisionCamFrame} {histo : Bool} {buffer : Nat → UInt8} {len : Nat}

/-! ## The marks of the blocks -/

/-- A bit of `metadata` is set if one of the conditions for it holds. -/
theorem getLsbD_foldl_bits {cs : List (Bool × Nat)} {x : BitVec 32} {i : Nat} (hi : i < 32) :
    (cs.foldl (fun x c => if c.1 then x ||| BitVec.twoPow 32 c.2 else x) x).getLsbD i =
      (x.getLsbD i || cs.any fun c => c.1 && c.2 == i) := by
  induction cs generalizing x with
  | nil => simp
  | cons c cs ih =>
    obtain ⟨present, bit⟩ := c
    rw [List.foldl_cons, ih, List.any_cons]
    cases present with
    | false => simp
    | true =>
      by_cases hbit : bit = i
      · simp [hbit, hi]
      · have hne : (bit == i) = false := beq_false_of_ne hbit
        simp [hbit, hne]

/-- The bit of a block is set exactly when the block is present. -/
theorem metadata_bit {blk : MetaBlock} :
    f.metadata &&& BitVec.twoPow 32 blk.bit ≠ 0 ↔ (f.mMetadata blk).isSome := by
  have hbit : f.metadata.getLsbD blk.bit = (f.mMetadata blk).isSome := by
    rw [metadata, getLsbD_foldl_bits (by cases blk <;> decide)]
    cases blk <;> simp [metadataBits, MetaBlock.bit, facesBit, facesRawBit]
  rw [BitVec.and_twoPow, hbit]
  cases (f.mMetadata blk).isSome with
  | true => cases blk <;> simp [MetaBlock.bit] <;> decide
  | false => simp

/-! ## The parts of the packet -/

theorem reads_getObject {S : Type} {size base : Nat} {set : Object size → S → S}
    {data : Object size} {s : S} :
    Reads (· < len) base buffer (getObject size len base buffer set) data.val s (set data s) := by
  have hobject : objectOf size data.val = data := by
    obtain ⟨bs, rfl⟩ := data
    apply Subtype.ext
    apply List.ext_getElem (by simp [objectOf])
    intro i hi hi'
    simp [objectOf, hi']
  have hread : Reads (· < len) base buffer (getObject size len base buffer set) data.val s
      (set (objectOf size data.val) s) := Reads.get data.2
  rwa [hobject] at hread

theorem reads_units {x : BitVec 32} :
    Reads (· < len) 0 buffer (unserializeUnits buffer len)
      (f.units.flatten ++ unitBytes f.metadata) (f', x)
      ({ f with
          mFrameBuff := f'.mFrameBuff
          mMetadata := f'.mMetadata
          mDetectedFacesNum := f'.mDetectedFacesNum
          mFaces := f'.mFaces
          mDetectedFacesNumRaw := f'.mDetectedFacesNumRaw
          mFacesRaw := f'.mFacesRaw }, f.metadata) := by
  have h32 : 8 ∣ 32 := by decide
  have h64 : 8 ∣ 64 := by decide
  have hbytes : f.units.flatten ++ unitBytes f.metadata =
      (f.units ++ [unitBytes f.metadata]).flatten := by simp
  rw [hbytes, unserializeUnits]
  apply Reads.cons downward_lt (reads_getUnit h32)
  apply Reads.cons downward_lt (reads_getUnit h64)
  iterate 9 apply Reads.cons downward_lt (reads_getUnit h32)
  exact Reads.nil

theorem reads_faces :
    Reads (· < len) 0 buffer (unserializeFaces buffer len) f.faces.flatten f'
      { f' with
        mDetectedFacesNum := f.mDetectedFacesNum
        mFaces := f.mFaces
        mDetectedFacesNumRaw := f.mDetectedFacesNumRaw
        mFacesRaw := f.mFacesRaw } := by
  have h32 : 8 ∣ 32 := by decide
  rw [unserializeFaces, faces]
  apply Reads.cons downward_lt (reads_getUnit h32)
  apply Reads.cons downward_lt reads_getObject
  apply Reads.cons downward_lt (reads_getUnit h32)
  apply Reads.cons downward_lt reads_getObject
  exact Reads.nil

/-- The bytes of a block that is present. -/
def blockBytes (f : VisionCamFrame) (blk : MetaBlock) : List UInt8 :=
  ((f.mMetadata blk).map Subtype.val).getD []

/-- `f'` with a block of `f`, if it is present. -/
def copyBlock (f : VisionCamFrame) (blk : MetaBlock) (f' : VisionCamFrame) : VisionCamFrame :=
  match f.mMetadata blk with
  | none => f'
  | some data => f'.setMetadata blk data

theorem reads_block {blk : MetaBlock} :
    Reads (· < len) 0 buffer (unserializeBlock buffer len f.metadata blk) (f.blockBytes blk) f'
      (f.copyBlock blk f') := by
  have hbit : f.metadata &&& BitVec.twoPow 32 blk.bit ≠ 0 ↔ (f.mMetadata blk).isSome :=
    metadata_bit
  cases hdata : f.mMetadata blk with
  | none =>
    rw [hdata] at hbit
    intro o _ _
    have hskip : ¬(f.metadata &&& BitVec.twoPow 32 blk.bit ≠ 0) := fun h => by
      cases hbit.mp h
    rw [unserializeBlock, if_neg hskip, copyBlock, blockBytes, hdata]
    rfl
  | some data =>
    rw [hdata] at hbit
    intro o hpeek hfits
    have htwice : (f'.setMetadata blk (objectOf blk.size [])).setMetadata blk data =
        f'.setMetadata blk data := by
      simp [setMetadata]
    have hread : Reads (· < len) 0 buffer
        (getObject blk.size len 0 buffer fun data f' => f'.setMetadata blk data) data.val
        (f'.setMetadata blk (objectOf blk.size []))
        ((f'.setMetadata blk (objectOf blk.size [])).setMetadata blk data) := reads_getObject
    rw [blockBytes, hdata] at hpeek hfits ⊢
    rw [unserializeBlock, if_pos (hbit.mpr rfl), copyBlock, hdata]
    dsimp only
    rw [← htwice]
    exact hread o hpeek hfits

/-- Some metadata after the blocks of `f` that are present are copied to it. -/
def mergeBlocks (f : VisionCamFrame) (blks : List MetaBlock)
    (mMetadata : (blk : MetaBlock) → Option (Object blk.size)) (blk : MetaBlock) :
    Option (Object blk.size) :=
  if blk ∈ blks then (f.mMetadata blk).or (mMetadata blk) else mMetadata blk

theorem copyBlock_eq {blk : MetaBlock} :
    f.copyBlock blk f' = { f' with mMetadata := f.mergeBlocks [blk] f'.mMetadata } := by
  have hmerge : f.mergeBlocks [blk] f'.mMetadata =
      Function.update f'.mMetadata blk ((f.mMetadata blk).or (f'.mMetadata blk)) := by
    funext blk'
    by_cases hblk : blk' = blk
    · subst hblk
      simp [mergeBlocks]
    · simp [mergeBlocks, hblk]
  rw [copyBlock, hmerge]
  cases f.mMetadata blk with
  | none => simp
  | some data => rfl

theorem foldl_copyBlock {blks : List MetaBlock} :
    blks.foldl (fun f' blk => f.copyBlock blk f') f' =
      { f' with mMetadata := f.mergeBlocks blks f'.mMetadata } := by
  induction blks generalizing f' with
  | nil => rfl
  | cons blk blks ih =>
    rw [List.foldl_cons, ih, copyBlock_eq]
    congr 1
    funext blk'
    simp only [mergeBlocks, List.mem_cons, List.not_mem_nil, or_false]
    by_cases hblk : blk' = blk
    · simp [hblk, ← Option.or_assoc]
    · simp [hblk]

theorem reads_blocks :
    Reads (· < len) 0 buffer
      (fun st => (metaBlocks histo).foldl
        (fun st blk => unserializeBlock buffer len f.metadata blk st) st)
      (f.blocks histo).flatten f'
      { f' with mMetadata := f.mergeBlocks (metaBlocks histo) f'.mMetadata } := by
  have hbytes : (f.blocks histo).flatten = (metaBlocks histo).flatMap f.blockBytes := by
    rw [blocks]
    induction metaBlocks histo with
    | nil => rfl
    | cons blk blks ih =>
      rw [List.filterMap_cons, List.flatMap_cons, ← ih, blockBytes]
      cases f.mMetadata blk with
      | none => rfl
      | some data => rfl
  rw [hbytes, ← foldl_copyBlock]
  apply Reads.foldl (I := fun _ => True) downward_lt
  · intro blk _ f' _
    exact ⟨reads_block, trivial⟩
  · trivial

/-- Everything before the image is read as it was written. -/
theorem unserialize_header {image : DvpImage}
    (hpeek : peek buffer 0 (f.header histo).flatten.length = (f.header histo).flatten)
    (hlen : (f.header histo).flatten.length < len) :
    f'.unserialize histo image buffer len =
      let n := (f.header histo).flatten.length
      let st := dvpImageUnserialize f'.mFrameBuff image buffer n (len - n)
      ({ f with mMetadata := f.mergeBlocks (metaBlocks histo) f'.mMetadata, mFrameBuff := st.1 },
        n + st.2) := by
  have hsplit : (f.header histo).flatten =
      (f.units.flatten ++ unitBytes f.metadata) ++ ((f.blocks histo).flatten ++
        f.faces.flatten) := by
    simp [header]
  rw [hsplit] at hpeek hlen ⊢
  have hpeek₀ : peek buffer (0 + 0) _ = _ := hpeek
  obtain ⟨hunits, hrest⟩ := peek_eq_append.mp hpeek₀
  obtain ⟨hblocks, hfaces⟩ := peek_eq_append.mp hrest
  have hlenFaces : 0 + (f.units.flatten ++ unitBytes f.metadata).length +
      (f.blocks histo).flatten.length + f.faces.flatten.length < len := by
    simp only [List.length_append] at hlen ⊢
    omega
  have hlenBlocks := downward_lt (Nat.le_add_right _ _) hlenFaces
  have hlenUnits := downward_lt (Nat.le_add_right _ _) hlenBlocks
  have hreadUnits : unserializeUnits buffer len ((f', 0), 0) = _ :=
    reads_units 0 hunits hlenUnits
  rw [Nat.zero_add] at hlenBlocks hlenFaces hreadUnits
  rw [Nat.add_assoc] at hfaces
  have hreadBlocks (f' : VisionCamFrame) : (metaBlocks histo).foldl
      (fun st blk => unserializeBlock buffer len f.metadata blk st)
      (f', (f.units.flatten ++ unitBytes f.metadata).length) = _ :=
    reads_blocks _ hblocks hlenBlocks
  rw [unserialize, hreadUnits]
  dsimp only
  rw [hreadBlocks, reads_faces _ hfaces hlenFaces]
  simp only [List.length_append, Nat.add_assoc]

/-! ## The round trip -/

section Packet

variable {image : DvpImage} (hpeek : peek buffer 0 (f.packet histo).length = f.packet histo)

include hpeek

/-- The bytes of the header and those of the image. -/
theorem peek_packet :
    peek buffer 0 (f.header histo).flatten.length = (f.header histo).flatten ∧
      peek buffer (f.header histo).flatten.length (36 + f.mFrameBuff.patchSize) =
        f.mFrameBuff.units.flatten ++ f.mFrameBuff.patch.flatten := by
  rw [packet, chunks, List.flatten_append, List.flatten_append] at hpeek
  obtain ⟨hheader, himage⟩ := peek_eq_append.mp hpeek
  rw [Nat.zero_add, List.length_append, DvpImage.length_units, DvpImage.length_patch] at himage
  exact ⟨hheader, himage⟩

/-- From more bytes than the packet has, the whole packet is read. -/
theorem unserialize_packet (hshape : SameShape f.mFrameBuff f'.mFrameBuff)
    (hlen : (f.packet histo).length < len) :
    f'.unserialize histo image buffer len =
      ({ f with
          mMetadata := f.mergeBlocks (metaBlocks histo) f'.mMetadata
          mFrameBuff := DvpImage.restore f.mFrameBuff f'.mFrameBuff },
        (f.packet histo).length) := by
  obtain ⟨hheader, himage⟩ := peek_packet hpeek
  rw [length_packet] at hlen ⊢
  have hlength : (f.header histo).flatten.length = _ := length_header
  rw [unserialize_header hheader (by omega)]
  dsimp only
  rw [dvpImageUnserialize_eq hshape himage (by omega), hlength]
  dsimp only
  rw [Nat.add_right_comm, show 2576 + (36 + f.mFrameBuff.patchSize) + f.blocksSize histo =
    2612 + f.blocksSize histo + f.mFrameBuff.patchSize by omega]

/-- From exactly the bytes of the packet, fewer are read. -/
theorem unserialize_lt (hshape : SameShape f.mFrameBuff f'.mFrameBuff) :
    (f'.unserialize histo image buffer (f.packet histo).length).2 < (f.packet histo).length := by
  obtain ⟨hheader, himage⟩ := peek_packet hpeek
  rw [peek_add] at himage
  have hunits := List.append_inj_left himage (by rw [length_peek, DvpImage.length_units])
  have hlength : (f.header histo).flatten.length = _ := length_header
  have hpacket : (f.packet histo).length = _ := length_packet
  rw [unserialize_header hheader (by omega)]
  have hlt : (dvpImageUnserialize f'.mFrameBuff image buffer (f.header histo).flatten.length
      ((f.packet histo).length - (f.header histo).flatten.length)).2 < _ :=
    dvpImageUnserialize_lt hshape hunits (by omega)
  dsimp only
  omega

end Packet

/-- `r` is the frame `f` read from `n` bytes, as far as the bytes of a packet can tell. -/
structure Restored (f : VisionCamFrame) (histo : Bool) (n : Nat) (r : VisionCamFrame × Nat) :
    Prop where
  consumed : r.2 = n
  fields : { r.1 with mMetadata := f.mMetadata, mFrameBuff := f.mFrameBuff } = f
  blocks : ∀ blk ∈ metaBlocks histo, (f.mMetadata blk).isSome →
    r.1.mMetadata blk = f.mMetadata blk
  lines : ∀ p < f.mFrameBuff.planes.toNat, ∀ y < f.mFrameBuff.lines p,
    r.1.mFrameBuff.line p y = f.mFrameBuff.line p y

/-- What `serialize` writes is read back by `unserialize` if it is given a greater length. -/
theorem restored_of_lt {image : DvpImage} {n : Nat} (hcomplete : f.Complete histo buffer n)
    (hshape : SameShape f.mFrameBuff f'.mFrameBuff) (hapart : f'.mFrameBuff.LinesApart)
    (hlen : (f.serialize histo buffer n).2 < len) :
    f.Restored histo (f.serialize histo buffer n).2
      (f'.unserialize histo image (f.serialize histo buffer n).1 len) := by
  rw [hcomplete.size] at hlen ⊢
  rw [unserialize_packet hcomplete.bytes hshape hlen]
  refine ⟨rfl, rfl, ?_, fun p hp y hy => line_restore hshape hapart hp hy⟩
  intro blk hblk hsome
  obtain ⟨data, hdata⟩ := Option.isSome_iff_exists.mp hsome
  simp [mergeBlocks, hblk, hdata]

/-- Given the number of bytes `serialize` has written, `unserialize` never reads all of them. -/
theorem not_restored (f f' : VisionCamFrame) (histo : Bool) (image : DvpImage)
    (buffer : Nat → UInt8) (len : Nat) (hcomplete : f.Complete histo buffer len)
    (hshape : SameShape f.mFrameBuff f'.mFrameBuff) :
    ¬f.Restored histo (f.serialize histo buffer len).2
      (f'.unserialize histo image (f.serialize histo buffer len).1
        (f.serialize histo buffer len).2) := by
  intro hrestored
  have hlt : (f'.unserialize histo image (f.serialize histo buffer len).1 _).2 < _ :=
    unserialize_lt hcomplete.bytes hshape
  rw [← hcomplete.size] at hlt
  exact Nat.ne_of_lt hlt hrestored.consumed

/-- A frame of 309892 bytes, serialized to a buffer with one byte more. -/
theorem lumaFrame_complete : lumaFrame.Complete false (fun _ => 0) 309893 := by
  have hblocks : lumaFrame.blocksSize false = 80 := by decide +kernel
  have hpatch : lumaFrame.mFrameBuff.patchSize = 307200 := by decide +kernel
  rw [complete_iff_lt, length_packet, hblocks, hpatch]
  decide

theorem lumaFrame_shape : SameShape lumaFrame.mFrameBuff lumaFrame.mFrameBuff :=
  ⟨rfl, rfl, rfl, rfl, rfl, rfl, rfl, rfl, rfl⟩

theorem lumaFrame_not_restored :
    ¬lumaFrame.Restored false (lumaFrame.serialize false (fun _ => 0) 309893).2
      (lumaFrame.unserialize false lumaFrame.mFrameBuff
        (lumaFrame.serialize false (fun _ => 0) 309893).1
        (lumaFrame.serialize false (fun _ => 0) 309893).2) :=
  not_restored _ _ _ _ _ _ lumaFrame_complete lumaFrame_shape

/-- The last line of the image of `lumaFrame` is not read. -/
theorem not_forall_restored :
    ¬∀ (f f' : VisionCamFrame) (histo : Bool) (image : DvpImage) (buffer : Nat → UInt8)
      (len : Nat), f.Complete histo buffer len → SameShape f.mFrameBuff f'.mFrameBuff →
        f.Restored histo (f.serialize histo buffer len).2
          (f'.unserialize histo image (f.serialize histo buffer len).1
            (f.serialize histo buffer len).2) := by
  intro hall
  have hrestored := hall lumaFrame lumaFrame false lumaFrame.mFrameBuff (fun _ => 0) 309893
    lumaFrame_complete lumaFrame_shape
  rw [lumaFrame_complete.size] at hrestored
  exact Nat.ne_of_lt (unserialize_lt lumaFrame_complete.bytes lumaFrame_shape)
    hrestored.consumed

end DVP.VisionCam.VisionCamFrame
