import DVP.VisionCam.RoundTrip
import Mathlib.Data.List.Induction

/-!
# Frames as they are received

`SocketVisionCam::RunThread` of `source/dvp/VisionCam/SocketVisionCam.cpp` receives every frame into
one `VisionCamFrame`: what `ServerVisionCam::FrameCallback` sends is unserialized into it, the
callback sees it, and three blocks of its metadata are cleared. The sockets deliver what is sent.

* `seenMetadata_eq`: `unserialize` sets the blocks that are sent and leaves the others.
* `leftover_isSome`: so a block that is not cleared is seen with all later frames.
* `received_metadata_iff` says when the frames before make no difference.
-/

namespace DVP.VisionCam

open DVP.Sosal (Arch)
open DVP.Kgraph Bytes Serial

variable {histo : Bool} {n len : Nat} {f f' : VisionCamFrame} {blk : MetaBlock}

/-- `VisionCamFrame::clear`. The image is `NULL` until one is set; the model has some image there. -/
def VisionCamFrame.clear (mFrameBuff : DvpImage) : VisionCamFrame where
  mFrameBuff := mFrameBuff
  -- `VCAM_PORT_PREVIEW`
  mFrameSource := 1
  mTimestamp := 0
  mWidth := 0
  mHeight := 0
  mOffsetX := 0
  mOffsetY := 0
  mStartX := 0
  mStartY := 0
  mLength := 0
  mExtraDataLength := 0
  mMetadata := fun _ => none
  mDetectedFacesNum := 0
  mFaces := ⟨List.replicate sizeofFaces 0, length_noFaces⟩
  mDetectedFacesNumRaw := 0
  mFacesRaw := ⟨List.replicate sizeofFaces 0, length_noFaces⟩

/-- A frame on its way: what the camera of the server passes to the callback, the `m_frameData` of the
server before, the image of the pool it is received into, and the variable `image` of
`DVP_Image_Unserialize`. -/
structure Delivery where
  frame : VisionCamFrame
  frameData : Nat → UInt8
  pImage : DvpImage
  image : DvpImage

/-- What `ServerVisionCam::FrameCallback` sends, with a `m_frameData` of `n` bytes. -/
def Delivery.sent (histo : Bool) (n : Nat) (d : Delivery) : List UInt8 :=
  let st := d.frame.serialize histo d.frameData n
  -- the variable `offset` there is a `uint32_t`
  peek st.1 0 (st.2 % 2 ^ 32)

/-- The variable `frame` of `RunThread`, and the `m_frameData` of the camera. -/
structure Receiver where
  frame : VisionCamFrame
  frameData : Nat → UInt8

/-- The variables of `RunThread` before its loop. -/
def Receiver.start (mFrameBuff : DvpImage) (frameData : Nat → UInt8) : Receiver :=
  ⟨.clear mFrameBuff, frameData⟩

/-- The metadata that is freed after the callback. -/
def VisionCamFrame.freeMetadata (f : VisionCamFrame) : VisionCamFrame :=
  { f with
    mMetadata := fun
      | .autoWBGains => none
      | .manualWBGains => none
      | .ancillary => none
      | blk => f.mMetadata blk }

/-- A round of `RunThread`: the frame the callback sees, and the variables after the round. -/
def runThreadRound (histo : Bool) (n : Nat) (s : Receiver) (d : Delivery) :
    VisionCamFrame × Receiver :=
  let packet := d.sent histo n
  let frameData := poke s.frameData 0 packet
  let frame := { s.frame with mFrameBuff := d.pImage }
  let frame := (frame.unserialize histo d.image frameData packet.length).1
  (frame, ⟨frame.freeMetadata, frameData⟩)

/-- The variables after frames were received. -/
def Receiver.after (histo : Bool) (n : Nat) (s : Receiver) (ds : List Delivery) : Receiver :=
  ds.foldl (fun s d => (runThreadRound histo n s d).2) s

/-- The metadata in the variable `frame` after frames were received. -/
def leftover (histo : Bool) (n : Nat) (s : Receiver) (ds : List Delivery) :
    (blk : MetaBlock) → Option (Object blk.size) :=
  (s.after histo n ds).frame.mMetadata

/-- The metadata the callback sees with a frame that follows others. -/
def seenMetadata (histo : Bool) (n : Nat) (s : Receiver) (ds : List Delivery) (d : Delivery) :
    (blk : MetaBlock) → Option (Object blk.size) :=
  (runThreadRound histo n (s.after histo n ds) d).1.mMetadata

/-- The blocks `RunThread` clears. -/
def freedBlocks : List MetaBlock := [.autoWBGains, .manualWBGains, .ancillary]

/-- The frames before make no difference to what the callback sees with a frame: the metadata is the
same after either sequence, and a block that is serialized is there just when the sender had it. -/
def SameMetadata (histo : Bool) (n : Nat) (s s' : Receiver) (ds ds' : List Delivery)
    (d d' : Delivery) : Prop :=
  seenMetadata histo n s ds d = seenMetadata histo n s' ds' d' ∧
    ∀ blk ∈ metaBlocks histo,
      ((seenMetadata histo n s ds d blk).isSome ↔ (d.frame.mMetadata blk).isSome) ∧
      ((seenMetadata histo n s' ds' d' blk).isSome ↔ (d'.frame.mMetadata blk).isSome)

/-! ## What is sent -/

namespace VisionCamFrame

/-- The bytes of a frame up to its metadata. -/
def front (f : VisionCamFrame) (histo : Bool) : List UInt8 :=
  (f.units.flatten ++ unitBytes f.metadata) ++ (f.blocks histo).flatten

/-- The blocks of the metadata have no more than 294 bytes. -/
theorem blocksSize_le : f.blocksSize histo ≤ 294 := by
  have hle : f.blocksSize histo ≤ ((metaBlocks histo).map MetaBlock.size).sum := by
    rw [blocksSize]
    induction metaBlocks histo with
    | nil => exact Nat.le_refl _
    | cons blk blks ih =>
      simp only [List.map_cons, List.sum_cons]
      split_ifs <;> omega
  apply Nat.le_trans hle
  cases histo <;> decide

theorem length_front : (f.front histo).length = 48 + f.blocksSize histo := by
  have hunits : f.units.flatten.length = 44 := by simp [units, unitBytes]
  rw [front, List.length_append, List.length_append, hunits, length_blocks, unitBytes, length_toLE]

/-- A buffer of 2668 bytes, and `maxSerialLength` is not less, has room for the metadata and more. -/
theorem serialize_front (f : VisionCamFrame) (histo : Bool) (buffer : Nat → UInt8)
    (hroom : 2668 ≤ n) :
    ∃ rest, rest ≠ [] ∧
      peek (f.serialize histo buffer n).1 0 (f.serialize histo buffer n).2 =
        f.front histo ++ rest := by
  have hdown : Downward (· < n) := fun m k hmk hk => Nat.lt_of_le_of_lt hmk hk
  have hblocks : f.blocksSize histo ≤ 294 := blocksSize_le
  obtain ⟨rest, hchunks⟩ : ∃ rest, f.chunks histo =
      (f.units ++ unitBytes f.metadata :: f.blocks histo) ++ unitBytes f.mDetectedFacesNum :: rest :=
    ⟨[f.mFaces.val, unitBytes f.mDetectedFacesNumRaw, f.mFacesRaw.val] ++
      (f.mFrameBuff.units ++ f.mFrameBuff.patch), by simp [chunks, header, faces]⟩
  have hfront : (f.units ++ unitBytes f.metadata :: f.blocks histo).flatten = f.front histo := by
    simp [front]
  have hlength : (f.front histo).length = 48 + f.blocksSize histo := length_front
  have hnum : (unitBytes f.mDetectedFacesNum).length = 4 := by simp [unitBytes]
  -- the front is written as a whole, and one more number after it
  have hput : putAll (· < n) 0 (buffer, 0) (f.units ++ unitBytes f.metadata :: f.blocks histo) =
      (poke buffer 0 (f.front histo), (f.front histo).length) := by
    rw [putAll_of_fits hdown (by rw [hfront, hlength]; omega), hfront, Nat.zero_add, Nat.zero_add]
  rw [serialize_eq, hchunks, putAll_append, hput, putAll_cons, put,
    if_pos (by simp only [hlength, hnum]; omega), Nat.zero_add]
  have hle : (f.front histo).length + (unitBytes f.mDetectedFacesNum).length ≤
      (putAll (· < n) 0 (poke (poke buffer 0 (f.front histo)) (f.front histo).length
        (unitBytes f.mDetectedFacesNum), (f.front histo).length +
        (unitBytes f.mDetectedFacesNum).length) rest).2 := putAll_le
  obtain ⟨k, hk⟩ := Nat.exists_eq_add_of_le hle
  rw [hk, Nat.add_assoc, peek_add, Nat.zero_add]
  refine ⟨_, ?_, congrArg₂ _ ?_ rfl⟩
  · apply List.ne_nil_of_length_pos
    rw [length_peek, hnum]
    omega
  · -- nothing after it is written to the front
    have hsame : peek (putAll (· < n) 0 (poke (poke buffer 0 (f.front histo)) (f.front histo).length
        (unitBytes f.mDetectedFacesNum), (f.front histo).length +
        (unitBytes f.mDetectedFacesNum).length) rest).1 0 (f.front histo).length =
        peek (poke buffer 0 (f.front histo)) 0 (f.front histo).length := by
      apply peek_congr
      intro i _ hi
      rw [putAll_below (by omega), poke_of_lt (by omega)]
    rw [hsame, peek_poke_self]

theorem serialize_size_le {buffer : Nat → UInt8} : (f.serialize histo buffer n).2 ≤ n := by
  rw [serialize_eq]
  have hmoved : (putAll (· < n) 0 (buffer, 0) (f.chunks histo)).2 = 0 ∨
      (putAll (· < n) 0 (buffer, 0) (f.chunks histo)).2 < n := putAll_moved
  omega

/-! ## What is received -/

/-- A reader that sets another member keeps the metadata. -/
theorem get_mMetadata {buffer : Nat → UInt8} {k : Nat}
    {set : List UInt8 → VisionCamFrame → VisionCamFrame} {st : VisionCamFrame × Nat}
    (hset : ∀ bs f, (set bs f).mMetadata = f.mMetadata) :
    (Serial.get (· < len) 0 buffer k set st).1.mMetadata = st.1.mMetadata := by
  unfold Serial.get
  split
  · exact hset _ _
  · rfl

theorem unserializeFaces_mMetadata {buffer : Nat → UInt8} {st : VisionCamFrame × Nat} :
    (unserializeFaces buffer len st).1.mMetadata = st.1.mMetadata := by
  simp only [unserializeFaces, runAll, List.foldl_cons, List.foldl_nil, getUnit, getObject]
  -- the faces, raw and not, and their numbers
  rw [get_mMetadata (by intro _ _; rfl), get_mMetadata (by intro _ _; rfl),
    get_mMetadata (by intro _ _; rfl), get_mMetadata (by intro _ _; rfl)]

/-- The metadata depends on the front of the packet alone. -/
theorem unserialize_front {image : DvpImage} {buffer : Nat → UInt8}
    (hpeek : peek buffer 0 (f.front histo).length = f.front histo)
    (hlen : (f.front histo).length < len) :
    (f'.unserialize histo image buffer len).1.mMetadata =
      f.mergeBlocks (metaBlocks histo) f'.mMetadata := by
  have hsplit := hpeek
  rw [front] at hsplit
  obtain ⟨hunits, hblocks⟩ := peek_eq_append.mp hsplit
  have hlenBlocks : 0 + (f.units.flatten ++ unitBytes f.metadata).length +
      (f.blocks histo).flatten.length < len := by
    rw [front, List.length_append] at hlen
    omega
  have hlenUnits := downward_lt (Nat.le_add_right _ _) hlenBlocks
  have hreadUnits : unserializeUnits buffer len ((f', 0), 0) = _ :=
    reads_units 0 (by rw [Nat.zero_add]; exact hunits) hlenUnits
  rw [Nat.zero_add] at hblocks hlenBlocks hreadUnits
  have hreadBlocks (f' : VisionCamFrame) : (metaBlocks histo).foldl
      (fun st blk => unserializeBlock buffer len f.metadata blk st)
      (f', (f.units.flatten ++ unitBytes f.metadata).length) = _ :=
    reads_blocks _ (by rw [Nat.zero_add]; exact hblocks) hlenBlocks
  rw [unserialize, hreadUnits]
  dsimp only
  rw [hreadBlocks, unserializeFaces_mMetadata]

end VisionCamFrame

/-- The callback sees the blocks of the frame, and for the others what was there before. -/
theorem runThreadRound_mMetadata {s : Receiver} {d : Delivery} (hroom : 2668 ≤ n)
    (hn : n < 2 ^ 32) :
    (runThreadRound histo n s d).1.mMetadata =
      d.frame.mergeBlocks (metaBlocks histo) s.frame.mMetadata := by
  obtain ⟨rest, hrest, hsent⟩ :=
    d.frame.serialize_front histo d.frameData hroom
  have hpos := List.length_pos_of_ne_nil hrest
  have hpacket : d.sent histo n = d.frame.front histo ++ rest := by
    have hsize : (d.frame.serialize histo d.frameData n).2 ≤ n := VisionCamFrame.serialize_size_le
    rw [← hsent, Delivery.sent, Nat.mod_eq_of_lt (Nat.lt_of_le_of_lt hsize hn)]
  have hwhole : peek (poke s.frameData 0 (d.sent histo n)) 0 (d.frame.front histo ++ rest).length =
      d.frame.front histo ++ rest := by
    rw [hpacket]
    exact peek_poke_self
  have hfront : peek (poke s.frameData 0 (d.sent histo n)) 0 (d.frame.front histo).length =
      d.frame.front histo :=
    (peek_eq_append.mp hwhole).1
  have hlen : (d.frame.front histo).length < (d.sent histo n).length := by
    rw [hpacket, List.length_append]
    omega
  unfold runThreadRound
  dsimp only
  rw [VisionCamFrame.unserialize_front hfront hlen]

/-! ## What is left of the frames before -/

theorem freeMetadata_mMetadata :
    f.freeMetadata.mMetadata blk = if blk ∈ freedBlocks then none else f.mMetadata blk := by
  cases blk <;> rfl

theorem leftover_snoc {s : Receiver} {ds : List Delivery} {d : Delivery} (hroom : 2668 ≤ n)
    (hn : n < 2 ^ 32) :
    leftover histo n s (ds ++ [d]) blk =
      if blk ∈ freedBlocks then none
      else d.frame.mergeBlocks (metaBlocks histo) (leftover histo n s ds) blk := by
  have hfree : (runThreadRound histo n (s.after histo n ds) d).2.frame =
      (runThreadRound histo n (s.after histo n ds) d).1.freeMetadata := by
    dsimp only [runThreadRound]
  have hafter : s.after histo n (ds ++ [d]) = (runThreadRound histo n (s.after histo n ds) d).2 := by
    rw [Receiver.after, List.foldl_append, List.foldl_cons, List.foldl_nil, Receiver.after]
  rw [leftover, hafter, hfree, freeMetadata_mMetadata, runThreadRound_mMetadata hroom hn, leftover]

/-- A block that is left was sent with some frame, and is not cleared. -/
theorem leftover_isSome {mFrameBuff : DvpImage} {frameData : Nat → UInt8} {ds : List Delivery}
    (hroom : 2668 ≤ n) (hn : n < 2 ^ 32) :
    (leftover histo n (.start mFrameBuff frameData) ds blk).isSome ↔
      (blk ∈ metaBlocks histo ∧ blk ∉ freedBlocks) ∧ ∃ e ∈ ds, (e.frame.mMetadata blk).isSome := by
  induction ds using List.reverseRecOn with
  | nil =>
    -- `clear` leaves no block
    simp [leftover, Receiver.after, Receiver.start, VisionCamFrame.clear]
  | append_singleton ds d ih =>
    rw [leftover_snoc hroom hn, VisionCamFrame.mergeBlocks]
    by_cases hfreed : blk ∈ freedBlocks
    · simp [hfreed]
    by_cases hblk : blk ∈ metaBlocks histo
    · simp only [hfreed, hblk, if_true, if_false, Option.isSome_or, Bool.or_eq_true, ih,
        not_false_eq_true, and_self, true_and, List.mem_append, List.mem_singleton]
      constructor
      · rintro (hlast | ⟨e, he, hsome⟩)
        · exact ⟨d, .inr rfl, hlast⟩
        · exact ⟨e, .inl he, hsome⟩
      · rintro ⟨e, he | rfl, hsome⟩
        · exact .inr ⟨e, he, hsome⟩
        · exact .inl hsome
    · simp [hfreed, hblk, ih]

/-- With a frame, a block that is not in it is seen just when it is left of the frames before. -/
theorem seenMetadata_eq {s : Receiver} {ds : List Delivery} {d : Delivery} (hroom : 2668 ≤ n)
    (hn : n < 2 ^ 32) :
    seenMetadata histo n s ds d =
      d.frame.mergeBlocks (metaBlocks histo) (leftover histo n s ds) := by
  unfold seenMetadata
  exact runThreadRound_mMetadata hroom hn

/-- Nothing that is serialized is left of the frames before but what the last frame has too. -/
def Covered (histo : Bool) (ds : List Delivery) (d : Delivery) (blk : MetaBlock) : Prop :=
  blk ∈ metaBlocks histo → blk ∉ freedBlocks →
    (d.frame.mMetadata blk).isSome ∨ ∀ e ∈ ds, e.frame.mMetadata blk = none

theorem covered_append {ds ds' : List Delivery} {d : Delivery} :
    Covered histo (ds ++ ds') d blk ↔ Covered histo ds d blk ∧ Covered histo ds' d blk := by
  unfold Covered
  simp only [List.forall_mem_append, or_and_left, forall_and]

/-- After any frames, a block is seen as the sender had it when it is covered, -/
theorem seenMetadata_of_covered {mFrameBuff : DvpImage} {frameData : Nat → UInt8}
    {ds : List Delivery} {d : Delivery} (hroom : 2668 ≤ n) (hn : n < 2 ^ 32)
    (hcovered : Covered histo ds d blk) :
    seenMetadata histo n (.start mFrameBuff frameData) ds d blk =
      if blk ∈ metaBlocks histo then d.frame.mMetadata blk else none := by
  rw [seenMetadata_eq hroom hn, VisionCamFrame.mergeBlocks]
  cases hleft : leftover histo n (.start mFrameBuff frameData) ds blk with
  | none => rw [Option.or_none]
  | some data =>
    have hsome : (leftover histo n (.start mFrameBuff frameData) ds blk).isSome := by
      rw [hleft, Option.isSome_some]
    obtain ⟨⟨hblk, hfreed⟩, e, he, hsent⟩ := (leftover_isSome hroom hn).mp hsome
    rcases hcovered hblk hfreed with hlast | hnone
    · rw [if_pos hblk, if_pos hblk, Option.or_of_isSome hlast]
    · rw [hnone e he, Option.isSome_none] at hsent
      cases hsent

/-- and is there when the sender had it just when it is covered. -/
theorem seenMetadata_isSome_iff {mFrameBuff : DvpImage} {frameData : Nat → UInt8}
    {ds : List Delivery} {d : Delivery} (hroom : 2668 ≤ n) (hn : n < 2 ^ 32)
    (hblk : blk ∈ metaBlocks histo) :
    ((seenMetadata histo n (.start mFrameBuff frameData) ds d blk).isSome ↔
      (d.frame.mMetadata blk).isSome) ↔ Covered histo ds d blk := by
  constructor
  · intro hsame _ hfreed
    by_cases hlast : (d.frame.mMetadata blk).isSome
    · exact .inl hlast
    · refine .inr fun e he => ?_
      -- a frame with the block would have left it
      by_contra hsent
      have hleft : (leftover histo n (.start mFrameBuff frameData) ds blk).isSome :=
        (leftover_isSome hroom hn).mpr ⟨⟨hblk, hfreed⟩, e, he, Option.isSome_iff_ne_none.mpr hsent⟩
      rw [seenMetadata_eq hroom hn, VisionCamFrame.mergeBlocks, if_pos hblk, Option.isSome_or,
        hleft, Bool.or_true] at hsame
      exact hlast (hsame.mp rfl)
  · intro hcovered
    rw [seenMetadata_of_covered hroom hn hcovered, if_pos hblk]

/-- The bytes of `m_frameData` are enough for the metadata, and their number is a `uint32_t`. -/
theorem numDataBytes_range (a : Arch) (histo : Bool) {cFrame : VisionCamFrame}
    (himage : (dvpImageSize cFrame.mFrameBuff).toNat + 4096 ≤ 2 ^ 32) :
    2668 ≤ cFrame.maxSerialLength a histo ∧ cFrame.maxSerialLength a histo < 2 ^ 32 := by
  have hsize : 2 ^ 32 ≤ a.size := a.size_ge
  have hhisto : (if histo then 24 else 0) ≤ 24 := by split_ifs <;> omega
  rw [VisionCamFrame.maxSerialLength_eq, Arch.wrap, Nat.mod_eq_of_lt (by omega)]
  omega

/-- The frames before make no difference just when each block that is serialized and not cleared is in
the last frame, or in none of the frames before. -/
theorem received_metadata_iff (a : Arch) (histo : Bool) (cFrame : VisionCamFrame)
    (himage : (dvpImageSize cFrame.mFrameBuff).toNat + 4096 ≤ 2 ^ 32)
    (mFrameBuff mFrameBuff' : DvpImage) (frameData frameData' : Nat → UInt8)
    (ds ds' : List Delivery) (d d' : Delivery) (hlast : d.frame = d'.frame) :
    SameMetadata histo (cFrame.maxSerialLength a histo) (.start mFrameBuff frameData)
        (.start mFrameBuff' frameData') ds ds' d d' ↔
      ∀ blk ∈ metaBlocks histo, blk ∉ freedBlocks →
        (d.frame.mMetadata blk).isSome ∨ ∀ e ∈ ds ++ ds', e.frame.mMetadata blk = none := by
  obtain ⟨hroom, hn⟩ := numDataBytes_range a histo himage
  show _ ↔ ∀ blk, Covered histo (ds ++ ds') d blk
  constructor
  · rintro ⟨-, hpresent⟩ blk
    by_cases hblk : blk ∈ metaBlocks histo
    · obtain ⟨hsome, hsome'⟩ := hpresent blk hblk
      have hcovered' := (seenMetadata_isSome_iff hroom hn hblk).mp hsome'
      rw [Covered, ← hlast] at hcovered'
      exact covered_append.mpr ⟨(seenMetadata_isSome_iff hroom hn hblk).mp hsome, hcovered'⟩
    · exact fun h => (hblk h).elim
  · intro hcovered
    have hds (blk : MetaBlock) : Covered histo ds d blk := (covered_append.mp (hcovered blk)).1
    have hds' (blk : MetaBlock) : Covered histo ds' d' blk := by
      have h := (covered_append.mp (hcovered blk)).2
      rwa [Covered, hlast] at h
    refine ⟨?_, fun blk hblk => ⟨?_, ?_⟩⟩
    · funext blk
      rw [seenMetadata_of_covered hroom hn (hds blk), seenMetadata_of_covered hroom hn (hds' blk),
        hlast]
    · exact (seenMetadata_isSome_iff hroom hn hblk).mpr (hds blk)
    · exact (seenMetadata_isSome_iff hroom hn hblk).mpr (hds' blk)

open VisionCamFrame (lumaFrame)

/-- The frame `lumaFrame` as it is sent, without and with a tone curve. -/
def lumaDelivery : Delivery :=
  ⟨lumaFrame, fun _ => 0, lumaFrame.mFrameBuff, lumaFrame.mFrameBuff⟩

def gammaDelivery : Delivery :=
  { lumaDelivery with frame := lumaFrame.setMetadata .gamma2D (objectOf _ []) }

theorem lumaFrame_imageSize : (dvpImageSize lumaFrame.mFrameBuff).toNat = 307200 := by
  decide +kernel

/-- A tone curve that is sent each time makes no difference. -/
theorem received_metadata_iff_gamma :
    SameMetadata false (lumaFrame.maxSerialLength .arch32 false)
      (.start lumaFrame.mFrameBuff fun _ => 0) (.start lumaFrame.mFrameBuff fun _ => 0)
      [gammaDelivery, lumaDelivery] [] gammaDelivery gammaDelivery := by
  apply (received_metadata_iff .arch32 false lumaFrame (by rw [lumaFrame_imageSize]; decide)
    _ _ _ _ _ _ _ _ rfl).mpr
  intro blk _ hfreed
  by_cases hgamma : blk = .gamma2D
  · subst hgamma
    exact .inl rfl
  · refine .inr fun e he => ?_
    have hancillary : blk ≠ .ancillary := fun h => hfreed (by simp [h, freedBlocks])
    have hluma : lumaFrame.mMetadata blk = none := by
      cases blk <;> simp_all [lumaFrame]
    simp only [List.append_nil, List.mem_cons, List.not_mem_nil, or_false] at he
    rcases he with rfl | rfl
    · exact (Function.update_of_ne hgamma _ _).trans hluma
    · exact hluma

/-- The tone curve of one frame is seen with the next, which has none. -/
theorem metadata_leaks :
    ¬SameMetadata false (lumaFrame.maxSerialLength .arch32 false)
      (.start lumaFrame.mFrameBuff fun _ => 0) (.start lumaFrame.mFrameBuff fun _ => 0)
      [gammaDelivery] [] lumaDelivery lumaDelivery := by
  have himage : (dvpImageSize lumaFrame.mFrameBuff).toNat + 4096 ≤ 2 ^ 32 := by
    rw [lumaFrame_imageSize]
    decide
  obtain ⟨hroom, hn⟩ := numDataBytes_range .arch32 false himage
  have hblk : MetaBlock.gamma2D ∈ metaBlocks false := by decide
  rintro ⟨-, hpresent⟩
  rcases (seenMetadata_isSome_iff hroom hn hblk).mp (hpresent _ hblk).1 hblk (by decide) with h | h
  · cases h
  · cases h gammaDelivery (List.mem_singleton_self _)

end DVP.VisionCam
