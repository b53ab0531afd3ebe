import DVP.VisionCam.FileCam
import Mathlib.Algebra.Group.Fin.Basic

/-!
# The file camera and frames that are returned too late

All deliveries of the file camera share one frame, and `returnFrame` frees the buffer that the frame has at the
time.

* `file_pool_sound_iff`: in all states of a run the client has the buffers that are in use, with the pictures that
  were delivered to it, exactly when it returns each frame before the next one is filled in, and there is a
  client.
* `file_buffers_lost`: each time that it does not, one buffer is lost for the rest of the run, until one is left; the
  pictures arrive in the order of the file all the same, and after its end those that the images hold come again.
-/

namespace DVP.VisionCam

open DVP.Sosal

variable {F P : Type}

/-! ## What is expected -/

/-- What is expected of the buffers. -/
structure FilePoolSound (s : FileCam F P) : Prop where
  /-- The frame leads to the picture that was delivered. -/
  shown : ∀ d ∈ s.outstanding, s.delivery = d
  /-- The camera does not fill a buffer that the client has. -/
  held : ∀ d ∈ s.outstanding, ∃ i, s.data i = d.mFrameBuff ∧ s.used i = true
  /-- A buffer that is in use is with the client, or on its way. -/
  owned : ∀ i, s.used i = true →
    (∃ d ∈ s.outstanding, d.mFrameBuff = s.data i) ∨ s.runThread = .calling i

/-- The step names a buffer in the frame when the client has returned the frame, and there is a client to call. -/
def InTime (s : FileCam F P) : FileAct → Prop
  | .run =>
    match s.runThread with
    | .naming _ => s.outstanding = []
    | .calling _ => s.callback = true
    | _ => True
  | .returnFrame _ => True

/-- The buffers that are in use and that the frame does not lead to: nobody can return them. -/
def FileCam.lost (s : FileCam F P) : Finset BufferIdx :=
  Finset.univ.filter fun i => s.used i = true ∧ s.data i ≠ s.mFrameBuff

/-! ## The buffers of the emulator -/

namespace CameraEmulator

variable {c c' : CameraEmulator} {i j : BufferIdx} {pImage : Nat}

/-- No image is in two buffers. -/
def Distinct (c : CameraEmulator) : Prop :=
  ∀ i j, (c.buffers i).data ≠ 0 → (c.buffers i).data = (c.buffers j).data → i = j

/-- A buffer that is set. -/
@[simp]
theorem setBuffer_self {buffer : VcamBuffer} : (c.setBuffer i buffer).buffers i = buffer :=
  Function.update_self ..

/-- The other buffers stay as they are. -/
theorem setBuffer_of_ne {buffer : VcamBuffer} (h : j ≠ i) :
    (c.setBuffer i buffer).buffers j = c.buffers j := Function.update_of_ne h ..

/-- A mark does not change what the buffers have. -/
@[simp]
theorem data_setUsed {used : Bool} : ((c.setUsed i used).buffers j).data = (c.buffers j).data := by
  by_cases hji : j = i
  · subst hji
    rw [setUsed, setBuffer_self]
  · rw [setUsed, setBuffer_of_ne hji]

/-- A buffer keeps its image when a frame is returned. -/
theorem data_returnFrame {mFrameBuff : Nat} :
    ((c.returnFrame mFrameBuff).buffers j).data = (c.buffers j).data := by
  rw [returnFrame]
  split
  · rfl
  · exact data_setUsed

/-- A buffer that is marked. -/
@[simp]
theorem used_setUsed_self {used : Bool} : ((c.setUsed i used).buffers i).used = used := by
  rw [setUsed, setBuffer_self]

/-- The other buffers keep their marks. -/
theorem used_setUsed_of_ne {used : Bool} (h : j ≠ i) :
    ((c.setUsed i used).buffers j).used = (c.buffers j).used := by
  rw [setUsed, setBuffer_of_ne h]

/-- `getNextFreeBuffer` finds a free buffer and remembers it. -/
theorem getNextFreeBuffer_eq_some (h : c.getNextFreeBuffer = some (i, c')) :
    c.Free i ∧ c'.buffers = c.buffers := by
  obtain ⟨j, hj, heq⟩ := Option.map_eq_some_iff.mp h
  cases heq
  have hfree := List.find?_some hj
  exact ⟨of_decide_eq_true hfree, rfl⟩

/-- The buffer with an image is the one that `returnFrame` frees. -/
theorem returnFrame_eq (hdistinct : c.Distinct) (hdata : (c.buffers i).data ≠ 0) :
    c.returnFrame (c.buffers i).data = c.setUsed i false := by
  rw [returnFrame]
  cases hfind : (List.finRange vcamNumBuffers).find?
      fun j => (c.buffers j).data = (c.buffers i).data with
  | none => exact absurd (decide_eq_true rfl) (List.find?_eq_none.mp hfind i (List.mem_finRange i))
  | some j =>
    have hj := List.find?_some hfind
    obtain rfl := hdistinct i j hdata (of_decide_eq_true hj).symm
    rfl

/-- What `useBuffers` keeps: the images of the buffers are among those that were registered, and nobody uses them. -/
structure Holds (c : CameraEmulator) (images : List Nat) : Prop where
  distinct : c.Distinct
  registered : ∀ i, (c.buffers i).data ≠ 0 → (c.buffers i).data ∈ images
  unused : ∀ i, (c.buffers i).used = false

/-- A new camera has no images. -/
theorem holds_new : Holds new [] where
  distinct _ _ h := absurd rfl h
  registered _ h := absurd rfl h
  unused _ := rfl

/-- One more image, which no buffer has. -/
theorem Holds.register {images : List Nat} (h : c.Holds images) (hnew : pImage ∉ images) :
    (c.register pImage).Holds (pImage :: images) := by
  rw [CameraEmulator.register]
  split
  · exact ⟨h.distinct, fun i hi => List.mem_cons_of_mem _ (h.registered i hi), h.unused⟩
  · next i _ =>
    -- The image is in no other buffer.
    have hother : ∀ j ≠ i, (c.buffers j).data ≠ 0 → (c.buffers j).data ≠ pImage := fun j _ hj heq =>
      hnew (heq ▸ h.registered j hj)
    refine ⟨fun j k hj hjk => ?_, fun j hj => ?_, fun j => ?_⟩
    · by_cases hji : j = i
      · subst hji
        by_contra hne
        rw [setBuffer_self] at hj hjk
        rw [setBuffer_of_ne (Ne.symm hne)] at hjk
        exact hother k (Ne.symm hne) (hjk ▸ hj) hjk.symm
      · rw [setBuffer_of_ne hji] at hj hjk
        by_cases hki : k = i
        · subst hki
          rw [setBuffer_self] at hjk
          exact absurd hjk (hother j hji hj)
        · rw [setBuffer_of_ne hki] at hjk
          exact h.distinct j k hj hjk
    · by_cases hji : j = i
      · subst hji
        rw [setBuffer_self]
        exact List.mem_cons_self
      · rw [setBuffer_of_ne hji] at hj ⊢
        exact List.mem_cons_of_mem _ (h.registered j hj)
    · by_cases hji : j = i
      · subst hji
        rw [setBuffer_self]
      · rw [setBuffer_of_ne hji]
        exact h.unused j

/-- The buffers after `useBuffers` with images that are all different. -/
theorem holds_useBuffers {images prvBufArr : List Nat} (h : c.Holds images)
    (hnodup : (prvBufArr.reverse ++ images).Nodup) :
    (c.useBuffers prvBufArr).Holds (prvBufArr.reverse ++ images) := by
  induction prvBufArr generalizing c images with
  | nil => exact h
  | cons pImage prvBufArr ih =>
    rw [List.reverse_cons, List.append_assoc, List.singleton_append] at hnodup ⊢
    have hnew : pImage ∉ images := (List.nodup_cons.mp hnodup.of_append_right).1
    exact ih (h.register hnew) hnodup

end CameraEmulator

/-! ## What holds in all runs -/

variable {read : F → P → P × F} {s s' : FileCam F P} {i j : BufferIdx} {n : Nat} {act : FileAct}

/-- What `RunThread` knows where it is: the buffer that it has is free until it is marked, and the frame leads to its
image once it was named. -/
def FileLocation.Knows (s : FileCam F P) : FileLocation → Prop
  | .sleeping => True
  | .filling i | .naming i => s.data i ≠ 0 ∧ s.used i = false
  | .marking i => (s.data i ≠ 0 ∧ s.used i = false) ∧ s.data i = s.mFrameBuff
  | .calling i => s.data i ≠ 0 ∧ s.data i = s.mFrameBuff

/-- What holds in all states. -/
structure FileInv (s : FileCam F P) : Prop where
  distinct : ∀ i j, s.data i ≠ 0 → s.data i = s.data j → i = j
  registered : ∀ i, s.used i = true → s.data i ≠ 0
  knows : s.runThread.Knows s
  /-- The frame leads to a buffer, unless it is new. -/
  named : (∃ i, s.data i ≠ 0 ∧ s.data i = s.mFrameBuff) ∨
    (∀ i, s.used i = false) ∧ s.outstanding = []

/-- The buffers of a camera that was just started. -/
theorem CameraEmulator.holds_started {prvBufArr : List Nat} (hnodup : prvBufArr.Nodup) :
    (CameraEmulator.new.useBuffers prvBufArr).Holds (prvBufArr.reverse ++ []) :=
  holds_useBuffers holds_new (by rwa [List.append_nil, List.nodup_reverse])

/-- It holds of a camera that was just started. -/
theorem fileInv_started {file : F} {images : Nat → P} {prvBufArr : List Nat} {callback : Bool}
    (hnodup : prvBufArr.Nodup) : FileInv (.started file images prvBufArr callback) := by
  have hholds := CameraEmulator.holds_started hnodup
  refine ⟨hholds.distinct, fun i hi => ?_, trivial, .inr ⟨hholds.unused, rfl⟩⟩
  cases (hholds.unused i).symm.trans hi

/-- A frame that the client returns frees the buffer that the frame leads to. -/
theorem FileInv.returnFrame_eq (h : FileInv s) (hn : n < s.outstanding.length) :
    ∃ i, s.data i ≠ 0 ∧ s.data i = s.mFrameBuff ∧
      s.returnFrame n = { s with
        emulator := s.emulator.setUsed i false
        outstanding := s.outstanding.eraseIdx n } := by
  rcases h.named with ⟨i, hi, hname⟩ | ⟨-, hempty⟩
  · have hreturn : s.emulator.returnFrame s.mFrameBuff = s.emulator.setUsed i false := by
      rw [← hname]
      exact CameraEmulator.returnFrame_eq h.distinct hi
    refine ⟨i, hi, hname, ?_⟩
    rw [FileCam.returnFrame, if_pos hn, hreturn]
  · rw [hempty] at hn
    exact absurd hn (Nat.not_lt_zero n)

/-- The buffers that are in use after one of them is freed. -/
theorem used_of_freed {outstanding : List (FileDelivery P)}
    (hj : FileCam.used { s with
      emulator := s.emulator.setUsed i false
      outstanding := outstanding } j = true) : j ≠ i ∧ s.used j = true := by
  by_cases hji : j = i
  · subst hji
    cases (CameraEmulator.used_setUsed_self (c := s.emulator) (i := j)).symm.trans hj
  · exact ⟨hji, (CameraEmulator.used_setUsed_of_ne hji).symm.trans hj⟩

/-- A client that returns a frame keeps it, -/
theorem FileInv.step_return (h : FileInv s) : FileInv (s.returnFrame n) := by
  by_cases hn : n < s.outstanding.length
  · obtain ⟨i, hi, hname, heq⟩ := h.returnFrame_eq hn
    let s' : FileCam F P := { s with
      emulator := s.emulator.setUsed i false
      outstanding := s.outstanding.eraseIdx n }
    rw [show s.returnFrame n = s' from heq]
    have hdata : s'.data = s.data := funext fun j => CameraEmulator.data_setUsed
    -- returning a frame marks nothing
    have hfree : ∀ j, s.used j = false → s'.used j = false := by
      intro j hj
      by_contra hnot
      cases hj.symm.trans (used_of_freed (Bool.eq_true_of_not_eq_false hnot)).2
    have hknows := h.knows
    refine ⟨?_, fun j hj => ?_, ?_, .inl ⟨i, ?_⟩⟩
    · rw [hdata]
      exact h.distinct
    · rw [hdata]
      exact h.registered j (used_of_freed hj).2
    · change s.runThread.Knows s'
      cases hrun : s.runThread with
      | sleeping => trivial
      | filling j =>
        rw [hrun] at hknows
        rw [FileLocation.Knows, hdata]
        exact ⟨hknows.1, hfree j hknows.2⟩
      | naming j =>
        rw [hrun] at hknows
        rw [FileLocation.Knows, hdata]
        exact ⟨hknows.1, hfree j hknows.2⟩
      | marking j =>
        rw [hrun] at hknows
        rw [FileLocation.Knows, hdata]
        exact ⟨⟨hknows.1.1, hfree j hknows.1.2⟩, hknows.2⟩
      | calling j =>
        rw [hrun] at hknows
        rw [FileLocation.Knows, hdata]
        exact hknows
    · rw [hdata]
      exact ⟨hi, hname⟩
  · rw [FileCam.returnFrame, if_neg hn]
    exact h

/-- and so does `RunThread`. -/
theorem FileInv.step_run (h : FileInv s) : FileInv (s.runStep read) := by
  have hknows := h.knows
  rw [FileCam.runStep]
  cases hrun : s.runThread with
  | sleeping =>
    dsimp only
    split
    · exact h
    · next i emulator hnext =>
      obtain ⟨hfree, hbuffers⟩ := CameraEmulator.getNextFreeBuffer_eq_some hnext
      let s' : FileCam F P := { s with emulator := emulator }.goto (.filling i)
      have hdata : s'.data = s.data := funext fun j => congrArg (fun b => (b j).data) hbuffers
      have hused : s'.used = s.used := funext fun j => congrArg (fun b => (b j).used) hbuffers
      change FileInv s'
      refine ⟨hdata ▸ h.distinct, ?_, ?_, ?_⟩
      · rw [hdata, hused]
        exact h.registered
      · change s'.data i ≠ 0 ∧ s'.used i = false
        rw [hdata, hused]
        exact hfree
      · rw [hdata, hused]
        exact h.named
  | filling i =>
    rw [hrun] at hknows
    exact ⟨h.distinct, h.registered, hknows, h.named⟩
  | naming i =>
    rw [hrun] at hknows
    exact ⟨h.distinct, h.registered, ⟨hknows, rfl⟩, .inl ⟨i, hknows.1, rfl⟩⟩
  | marking i =>
    rw [hrun] at hknows
    let s' : FileCam F P := { s with emulator := s.emulator.setUsed i true }.goto (.calling i)
    have hdata : s'.data = s.data := funext fun j => CameraEmulator.data_setUsed
    change FileInv s'
    refine ⟨hdata ▸ h.distinct, fun j hj => ?_, ?_, .inl ⟨i, ?_⟩⟩
    · rw [hdata]
      by_cases hji : j = i
      · rw [hji]
        exact hknows.1.1
      · exact h.registered j ((CameraEmulator.used_setUsed_of_ne hji).symm.trans hj)
    · change s'.data i ≠ 0 ∧ s'.data i = s.mFrameBuff
      rw [hdata]
      exact ⟨hknows.1.1, hknows.2⟩
    · rw [hdata]
      exact ⟨hknows.1.1, hknows.2⟩
  | calling i =>
    rw [hrun] at hknows
    dsimp only
    split
    · exact ⟨h.distinct, h.registered, trivial, .inl ⟨i, hknows⟩⟩
    · exact ⟨h.distinct, h.registered, trivial, h.named⟩

/-- Every step keeps the invariant. -/
theorem FileInv.step (h : FileInv s) : FileInv (s.step read act) := by
  cases act with
  | run => exact h.step_run
  | returnFrame n => exact h.step_return

/-! ## The pictures -/

/-- The image that `RunThread` has filled and not delivered yet. -/
def FileCam.filled (s : FileCam F P) : List Nat :=
  match s.runThread with
  | .naming i | .marking i | .calling i => [s.data i]
  | _ => []

/-- The images that were delivered, the first one first. -/
def FileCam.shownIn (s : FileCam F P) : List Nat := s.delivered.reverse.map FileDelivery.mFrameBuff

/-- The pictures that were delivered, the first one first. -/
def FileCam.shown (s : FileCam F P) : List P := s.delivered.reverse.map FileDelivery.picture

/-- A client gets what the readings leave in the images that it gets, and nothing else was read. -/
structure Plays (read : F → P → P × F) (start : F × (Nat → P)) (s : FileCam F P) : Prop where
  count : s.delivered.length + s.filled.length = s.position
  consumed : (s.file, s.images) = readings read start (s.shownIn ++ s.filled)
  shown : s.shown = playback read start s.shownIn

/-- More images are filled after the first ones. -/
theorem readings_append (start : F × (Nat → P)) (images more : List Nat) :
    readings read start (images ++ more) = readings read (readings read start images) more :=
  List.foldl_append

/-- One more picture. -/
theorem playback_concat (start : F × (Nat → P)) (images : List Nat) (image : Nat) :
    playback read start (images ++ [image]) =
      playback read start images ++ [(readings read start (images ++ [image])).2 image] := by
  induction images generalizing start with
  | nil =>
    refine congrArg (fun p => [p]) (Eq.symm ?_)
    exact Function.update_self image _ start.2
  | cons first images ih =>
    rw [List.cons_append, playback, ih, playback, List.cons_append]
    rfl

/-- The pictures of a file come in order. -/
theorem take_playback {pictures : List P} {start : F × (Nat → P)} (images : List Nat)
    (h : HoldsPictures read start.1 pictures) :
    (playback read start images).take pictures.length = pictures.take images.length := by
  induction images generalizing start pictures with
  | nil => rw [playback, List.take_nil, List.length_nil, List.take_zero]
  | cons image images ih =>
    cases pictures with
    | nil => rw [List.length_nil, List.take_zero, List.take_nil]
    | cons picture pictures =>
      obtain ⟨rest, hpicture, hrest⟩ := h
      have hfile : (readings read start [image]).1 = rest := congrArg Prod.snd (hpicture _)
      rw [playback, hpicture, List.length_cons, List.take_succ_cons, List.length_cons,
        List.take_succ_cons, ih (hfile ▸ hrest)]

/-- Nothing was read before the camera is started. -/
theorem plays_started {file : F} {images : Nat → P} {prvBufArr : List Nat} {callback : Bool} :
    Plays read (file, images) (.started file images prvBufArr callback) := ⟨rfl, rfl, rfl⟩

/-- A step that neither reads nor delivers. -/
theorem Plays.congr {start : F × (Nat → P)} (h : Plays read start s)
    (hdelivered : s'.delivered = s.delivered) (hposition : s'.position = s.position)
    (hfile : s'.file = s.file) (himages : s'.images = s.images) (hfilled : s'.filled = s.filled) :
    Plays read start s' := by
  have hshownIn : s'.shownIn = s.shownIn := by rw [FileCam.shownIn, FileCam.shownIn, hdelivered]
  have hshown : s'.shown = s.shown := by rw [FileCam.shown, FileCam.shown, hdelivered]
  refine ⟨?_, ?_, ?_⟩
  · rw [hdelivered, hfilled, hposition]
    exact h.count
  · rw [hfile, himages, hshownIn, hfilled]
    exact h.consumed
  · rw [hshown, hshownIn]
    exact h.shown

/-- A frame that is returned has been read before. -/
theorem Plays.step_return {start : F × (Nat → P)} (h : Plays read start s) :
    Plays read start (s.returnFrame n) := by
  rw [FileCam.returnFrame]
  split
  · refine h.congr rfl rfl rfl rfl ?_
    rw [FileCam.filled, FileCam.filled]
    cases s.runThread with
    | sleeping => rfl
    | filling i => rfl
    | _ i => exact congrArg (fun image => [image]) CameraEmulator.data_returnFrame
  · exact h

/-- `RunThread` delivers each picture that it reads. -/
theorem Plays.step_run {start : F × (Nat → P)} (h : Plays read start s) (hinv : FileInv s)
    (hcallback : s.callback = true) : Plays read start (s.runStep read) := by
  obtain ⟨hcount, hread, hshown⟩ := h
  have hknows := hinv.knows
  have hplays : Plays read start s := ⟨hcount, hread, hshown⟩
  rw [FileCam.runStep]
  cases hrun : s.runThread with
  | sleeping =>
    dsimp only
    split
    · exact hplays
    · refine hplays.congr rfl rfl rfl rfl ?_
      rw [FileCam.filled, FileCam.filled, hrun]
      rfl
  | filling i =>
    rw [FileCam.filled, hrun, List.append_nil] at hread
    rw [FileCam.filled, hrun] at hcount
    refine ⟨congrArg (· + 1) hcount, ?_, hshown⟩
    · change _ = readings read start (s.shownIn ++ [s.data i])
      rw [readings_append, ← hread]
      rfl
  | naming i =>
    refine hplays.congr rfl rfl rfl rfl ?_
    rw [FileCam.filled, FileCam.filled, hrun]
    rfl
  | marking i =>
    refine hplays.congr rfl rfl rfl rfl ?_
    · rw [FileCam.filled, FileCam.filled, hrun]
      exact congrArg (fun image => [image]) CameraEmulator.data_setUsed
  | calling i =>
    rw [hrun] at hknows
    rw [FileCam.filled, hrun] at hread hcount
    dsimp only at hread hcount ⊢
    -- the frame leads to the image that was filled
    rw [hknows.2] at hread
    rw [if_pos hcallback]
    let s' : FileCam F P := { s with
      delivered := s.delivery :: s.delivered
      outstanding := s.delivery :: s.outstanding }.goto .sleeping
    have hshownIn : s'.shownIn = s.shownIn ++ [s.mFrameBuff] := by
      change (s.delivery :: s.delivered).reverse.map FileDelivery.mFrameBuff = _
      rw [List.reverse_cons, List.map_append]
      rfl
    change Plays read start s'
    refine ⟨hcount, ?_, ?_⟩
    · rw [hshownIn]
      change _ = readings read start (s.shownIn ++ [s.mFrameBuff] ++ [])
      rw [List.append_nil]
      exact hread
    · rw [hshownIn, playback_concat, ← hread, ← hshown]
      change (s.delivery :: s.delivered).reverse.map FileDelivery.picture = _
      rw [List.reverse_cons, List.map_append]
      rfl

/-! ## Buffers that are lost -/

/-- The buffers that are lost. -/
theorem mem_lost : i ∈ s.lost ↔ s.used i = true ∧ s.data i ≠ s.mFrameBuff := by
  rw [FileCam.lost, Finset.mem_filter]
  exact and_iff_right (Finset.mem_univ i)

/-- Only the buffers that the frame leads to have changed. -/
theorem lost_congr (hdata : s'.data = s.data) (hname : s'.mFrameBuff = s.mFrameBuff)
    (hused : ∀ j, s.data j ≠ s.mFrameBuff → s'.used j = s.used j) : s'.lost = s.lost := by
  ext j
  rw [mem_lost, mem_lost, hdata, hname]
  exact and_congr_left fun hj => by rw [hused j hj]

/-- A frame that is returned neither loses a buffer nor brings one back. -/
theorem lost_return (h : FileInv s) : (s.returnFrame n).lost = s.lost := by
  by_cases hn : n < s.outstanding.length
  · obtain ⟨i, -, hname, heq⟩ := h.returnFrame_eq hn
    rw [heq]
    refine lost_congr (funext fun _ => CameraEmulator.data_setUsed) rfl fun j hj => ?_
    have hji : j ≠ i := fun hji => hj (hji ▸ hname)
    exact CameraEmulator.used_setUsed_of_ne hji
  · rw [FileCam.returnFrame, if_neg hn]

/-- A frame that is named anew loses the buffer that it had, if that is in use. -/
theorem lost_naming (h : FileInv s) (hrun : s.runThread = .naming i) :
    s.lost ⊆ (s.runStep read).lost ∧
      (s.runStep read).lost.card = s.lost.card + if s.Overlaps .run then 1 else 0 := by
  have hknows := h.knows
  rw [hrun] at hknows
  -- No buffer in use has the image that the frame gets.
  have hother : ∀ j, s.used j = true → s.data j ≠ s.data i := fun j hj heq => by
    obtain rfl := h.distinct i j hknows.1 heq.symm
    cases hknows.2.symm.trans hj
  have hafter : ∀ j, j ∈ (s.runStep read).lost ↔ s.used j = true := fun j => by
    rw [FileCam.runStep, hrun, mem_lost]
    exact ⟨And.left, fun hj => ⟨hj, hother j hj⟩⟩
  have hoverlaps : s.Overlaps .run ↔ ∃ j, s.data j = s.mFrameBuff ∧ s.used j = true := by
    rw [FileCam.Overlaps, hrun]
  refine ⟨fun j hj => (hafter j).mpr (mem_lost.mp hj).1, ?_⟩
  by_cases hover : s.Overlaps .run
  · obtain ⟨b, hb, hused⟩ := hoverlaps.mp hover
    have hnew : b ∉ s.lost := fun hmem => (mem_lost.mp hmem).2 hb
    have hinsert : (s.runStep read).lost = insert b s.lost := by
      ext j
      rw [hafter, Finset.mem_insert, mem_lost]
      constructor
      · intro hj
        by_cases hname : s.data j = s.mFrameBuff
        · exact .inl (h.distinct j b (h.registered j hj) (hname.trans hb.symm))
        · exact .inr ⟨hj, hname⟩
      · rintro (rfl | hj)
        · exact hused
        · exact hj.1
    rw [if_pos hover, hinsert, Finset.card_insert_of_notMem hnew]
  · have hsame : (s.runStep read).lost = s.lost := by
      ext j
      rw [hafter, mem_lost]
      exact ⟨fun hj => ⟨hj, fun hname => hover (hoverlaps.mpr ⟨j, hname, hj⟩)⟩, And.left⟩
    rw [if_neg hover, hsame, Nat.add_zero]

/-- A step that does not name the frame loses nothing. -/
theorem lost_same (h : (s.runStep read).lost = s.lost) (hnot : ¬s.Overlaps .run) :
    s.lost ⊆ (s.runStep read).lost ∧
      (s.runStep read).lost.card = s.lost.card + if s.Overlaps .run then 1 else 0 := by
  rw [h, if_neg hnot]
  exact ⟨subset_rfl, rfl⟩

/-- A step loses a buffer when it overlaps, and gets none back. -/
theorem lost_step (act : FileAct) (h : FileInv s) :
    s.lost ⊆ (s.step read act).lost ∧
      (s.step read act).lost.card = s.lost.card + if s.Overlaps act then 1 else 0 := by
  cases act with
  | returnFrame n =>
    rw [FileCam.step, lost_return h]
    exact ⟨subset_rfl, rfl⟩
  | run =>
    rw [FileCam.step]
    cases hrun : s.runThread with
    | naming i => exact lost_naming h hrun
    | sleeping =>
      refine lost_same ?_ (by rw [FileCam.Overlaps, hrun]; exact id)
      rw [FileCam.runStep, hrun]
      dsimp only
      split
      · rfl
      · next i emulator hnext =>
        obtain ⟨-, hbuffers⟩ := CameraEmulator.getNextFreeBuffer_eq_some hnext
        exact lost_congr (funext fun j => congrArg (fun b => (b j).data) hbuffers) rfl
          fun j _ => congrArg (fun b => (b j).used) hbuffers
    | filling i =>
      refine lost_same ?_ (by rw [FileCam.Overlaps, hrun]; exact id)
      rw [FileCam.runStep, hrun]
      rfl
    | marking i =>
      have hknows := h.knows
      rw [hrun] at hknows
      refine lost_same ?_ (by rw [FileCam.Overlaps, hrun]; exact id)
      rw [FileCam.runStep, hrun]
      refine lost_congr (funext fun _ => CameraEmulator.data_setUsed) rfl fun j hj => ?_
      have hji : j ≠ i := fun hji => hj (hji ▸ hknows.2)
      exact CameraEmulator.used_setUsed_of_ne hji
    | calling i =>
      refine lost_same ?_ (by rw [FileCam.Overlaps, hrun]; exact id)
      rw [FileCam.runStep, hrun]
      dsimp only
      split
      · rfl
      · rfl

/-- In a run as many buffers are lost as steps overlap. -/
theorem lost_run {acts : List FileAct} {rs : List Bool} (h : FileInv s)
    (hrun : Machine.run (fileStep read) s acts = .ok (s', rs)) :
    FileInv s' ∧ s.lost ⊆ s'.lost ∧ s'.lost.card = s.lost.card + rs.count true := by
  induction acts generalizing s rs with
  | nil =>
    cases hrun
    exact ⟨h, subset_rfl, rfl⟩
  | cons act acts ih =>
    obtain ⟨s₁, r, rs', hstep, hrest, rfl⟩ := Machine.run_cons_eq_ok hrun
    cases hstep
    obtain ⟨hsub, hcard⟩ := lost_step act h
    obtain ⟨hinv, hsub', hcard'⟩ := ih h.step hrest
    refine ⟨hinv, hsub.trans hsub', ?_⟩
    rw [hcard', hcard, List.count_cons]
    by_cases hover : s.Overlaps act
    · rw [if_pos hover, decide_eq_true hover]
      simp only [BEq.rfl, if_true]
      omega
    · rw [if_neg hover, decide_eq_false hover]
      simp

/-- The buffers that have an image. -/
def FileCam.registered (s : FileCam F P) : Finset BufferIdx := Finset.univ.filter fun i => s.data i ≠ 0

/-- The buffer that the frame leads to is not lost. -/
theorem card_lost_le (h : FileInv s) : s.lost.card ≤ s.registered.card - 1 := by
  rcases h.named with ⟨i, hi, hname⟩ | ⟨hunused, -⟩
  · have hmem : i ∈ s.registered := Finset.mem_filter.mpr ⟨Finset.mem_univ i, hi⟩
    rw [← Finset.card_erase_of_mem hmem]
    refine Finset.card_le_card fun j hj => ?_
    obtain ⟨hused, hother⟩ := mem_lost.mp hj
    refine Finset.mem_erase.mpr ⟨fun hji => hother (hji ▸ hname), ?_⟩
    exact Finset.mem_filter.mpr ⟨Finset.mem_univ j, h.registered j hused⟩
  · have hempty : s.lost = ∅ := by
      refine Finset.eq_empty_of_forall_notMem fun j hj => ?_
      cases (hunused j).symm.trans (mem_lost.mp hj).1
    rw [hempty]
    exact Nat.zero_le _

/-- The buffers keep their images, in a step, -/
theorem data_step : (s.step read act).data = s.data := by
  cases act with
  | returnFrame n =>
    rw [FileCam.step, FileCam.returnFrame]
    split
    · exact funext fun _ => CameraEmulator.data_returnFrame
    · rfl
  | run =>
    rw [FileCam.step, FileCam.runStep]
    split
    · split
      · rfl
      · next hnext =>
        obtain ⟨-, hbuffers⟩ := CameraEmulator.getNextFreeBuffer_eq_some hnext
        exact funext fun j => congrArg (fun b => (b j).data) hbuffers
    · rfl
    · rfl
    · exact funext fun _ => CameraEmulator.data_setUsed
    · dsimp only
      split
      · rfl
      · rfl

/-- and in a run. -/
theorem data_run {acts : List FileAct} {rs : List Bool}
    (hrun : Machine.run (fileStep read) s acts = .ok (s', rs)) : s'.data = s.data := by
  induction acts generalizing s rs with
  | nil =>
    cases hrun
    rfl
  | cons act acts ih =>
    obtain ⟨s₁, r, rs', hstep, hrest, rfl⟩ := Machine.run_cons_eq_ok hrun
    cases hstep
    rw [ih hrest, data_step]

/-- Nobody takes the client away. -/
theorem callback_step (act : FileAct) : (s.step read act).callback = s.callback := by
  cases act with
  | returnFrame n =>
    rw [FileCam.step, FileCam.returnFrame]
    split
    · rfl
    · rfl
  | run =>
    rw [FileCam.step, FileCam.runStep]
    split
    · split
      · rfl
      · rfl
    · rfl
    · rfl
    · rfl
    · dsimp only
      split
      · rfl
      · rfl

/-- No more buffers have an image than images were registered. -/
theorem card_registered_le {file : F} {images : Nat → P} {prvBufArr : List Nat} {callback : Bool}
    (hnodup : prvBufArr.Nodup) :
    (FileCam.started file images prvBufArr callback).registered.card ≤ prvBufArr.length := by
  have hholds := CameraEmulator.holds_started hnodup
  rw [← List.toFinset_card_of_nodup hnodup]
  refine Finset.card_le_card_of_injOn (FileCam.started file images prvBufArr callback).data
    (fun i hi => ?_) fun i hi j _ hij => hholds.distinct i j (Finset.mem_filter.mp hi).2 hij
  have hmem := hholds.registered i (Finset.mem_filter.mp hi).2
  rw [List.append_nil, List.mem_reverse] at hmem
  exact List.mem_toFinset.mpr hmem

/-- What a client gets in a run. -/
theorem plays_run {start : F × (Nat → P)} {acts : List FileAct} {rs : List Bool} (hinv : FileInv s)
    (h : Plays read start s) (hcallback : s.callback = true)
    (hrun : Machine.run (fileStep read) s acts = .ok (s', rs)) : Plays read start s' := by
  refine (Machine.run_invariant_of_ok (C := fun _ _ => True)
    (I := fun s => FileInv s ∧ Plays read start s ∧ s.callback = true) ?_ ⟨hinv, h, hcallback⟩
    (Machine.meets_of_forall fun _ _ _ => trivial) hrun).2.1
  rintro s act s' r ⟨hinv, h, hcallback⟩ - hstep
  cases hstep
  refine ⟨hinv.step, ?_, (callback_step act).trans hcallback⟩
  cases act with
  | run => exact h.step_run hinv hcallback
  | returnFrame n => exact h.step_return

/-- The client has the one buffer that is in use, or `RunThread` has just marked it. -/
structure FileOwned (s : FileCam F P) : Prop extends FileInv s where
  shown : ∀ d ∈ s.outstanding, s.delivery = d
  one : s.outstanding.length ≤ 1
  held : s.outstanding ≠ [] → ∃ i, s.data i = s.mFrameBuff ∧ s.used i = true
  owned : ∀ i, s.used i = true →
    (s.outstanding ≠ [] ∧ s.data i = s.mFrameBuff) ∨ s.runThread = .calling i
  late : ∀ i, s.runThread = .marking i ∨ s.runThread = .calling i → s.outstanding = []
  marked : ∀ i, s.runThread = .calling i → s.used i = true

/-- While the client has nothing, no buffer is in use but the one that `RunThread` has marked. -/
theorem FileOwned.of_empty (hinv : FileInv s) (hempty : s.outstanding = [])
    (howned : ∀ i, s.used i = true → s.runThread = .calling i)
    (hmarked : ∀ i, s.runThread = .calling i → s.used i = true) : FileOwned s := by
  refine ⟨hinv, fun d hd => ?_, ?_, fun hne => absurd hempty hne, fun i hi => .inr (howned i hi),
    fun _ _ => hempty, hmarked⟩
  · rw [hempty] at hd
    exact absurd hd List.not_mem_nil
  · rw [hempty]
    exact Nat.zero_le 1

/-- Until `RunThread` gets to the frame, the client has all buffers that are in use. -/
theorem FileOwned.of_early (hinv : FileInv s)
    (hearly : ∀ i, s.runThread ≠ .marking i ∧ s.runThread ≠ .calling i)
    (hshown : ∀ d ∈ s.outstanding, s.delivery = d) (hone : s.outstanding.length ≤ 1)
    (hheld : s.outstanding ≠ [] → ∃ i, s.data i = s.mFrameBuff ∧ s.used i = true)
    (howned : ∀ i, s.used i = true → s.outstanding ≠ [] ∧ s.data i = s.mFrameBuff) : FileOwned s := by
  refine ⟨hinv, hshown, hone, hheld, fun i hi => .inl (howned i hi), fun i hi => ?_,
    fun i hi => absurd hi (hearly i).2⟩
  rcases hi with hmarking | hcalling
  · exact absurd hmarking (hearly i).1
  · exact absurd hcalling (hearly i).2

/-- A camera that was just started has delivered nothing. -/
theorem fileOwned_started {file : F} {images : Nat → P} {prvBufArr : List Nat} {callback : Bool}
    (hnodup : prvBufArr.Nodup) : FileOwned (.started file images prvBufArr callback) := by
  have hholds := CameraEmulator.holds_started hnodup
  refine .of_empty (fileInv_started hnodup) rfl (fun i hi => ?_) nofun
  cases (hholds.unused i).symm.trans hi

/-- The invariant has what is expected. -/
theorem FileOwned.sound (h : FileOwned s) : FilePoolSound s where
  shown := h.shown
  held d hd := by
    rw [← h.shown d hd]
    exact h.held (List.ne_nil_of_mem hd)
  owned i hi := by
    refine (h.owned i hi).imp_left fun ⟨hne, hname⟩ => ?_
    obtain ⟨d, hd⟩ := List.exists_mem_of_ne_nil _ hne
    refine ⟨d, hd, ?_⟩
    rw [← h.shown d hd]
    exact hname.symm

/-- No buffer is in use while nothing is delivered and `RunThread` has not marked one. -/
theorem FileOwned.unused (h : FileOwned s) (hempty : s.outstanding = []) (hrun : ∀ i, s.runThread ≠ .calling i) :
    ∀ i, s.used i = false := by
  intro i
  by_contra hused
  rcases h.owned i (Bool.eq_true_of_not_eq_false hused) with ⟨hne, -⟩ | hcalling
  · exact hne hempty
  · exact hrun i hcalling

/-- A client that returns the frame has nothing left. -/
theorem FileOwned.step_return (h : FileOwned s) : FileOwned (s.returnFrame n) := by
  by_cases hn : n < s.outstanding.length
  · obtain ⟨i, hi, hname, heq⟩ := h.returnFrame_eq hn
    have hinv := h.toFileInv.step_return (n := n)
    -- It was the only one.
    have hempty : s.outstanding.eraseIdx n = [] := by
      refine List.length_eq_zero_iff.mp ?_
      have hone := h.one
      rw [List.length_eraseIdx_of_lt hn]
      omega
    have hne : s.outstanding ≠ [] := List.ne_nil_of_length_pos (Nat.zero_lt_of_lt hn)
    have hlate : ∀ j, s.runThread ≠ .marking j ∧ s.runThread ≠ .calling j := fun j =>
      ⟨fun hrun => hne (h.late j (.inl hrun)), fun hrun => hne (h.late j (.inr hrun))⟩
    rw [heq, hempty] at hinv ⊢
    refine .of_empty hinv rfl (fun j hj => ?_) fun j hj => absurd hj (hlate j).2
    obtain ⟨hji, hused⟩ := used_of_freed hj
    rcases h.owned j hused with ⟨-, hj⟩ | hcalling
    · exact absurd (h.distinct i j hi (hname.trans hj.symm)) (Ne.symm hji)
    · exact absurd hcalling (hlate j).2
  · rw [FileCam.returnFrame, if_neg hn]
    exact h

/-- `RunThread` goes on in time. -/
theorem FileOwned.step_run (h : FileOwned s) (htime : InTime s .run) :
    FileOwned (s.runStep read) := by
  have hinv : FileInv (s.runStep read) := h.toFileInv.step_run
  have hknows := h.knows
  rw [FileCam.runStep] at hinv ⊢
  rw [InTime] at htime
  cases hrun : s.runThread with
  | sleeping =>
    rw [hrun] at hinv
    dsimp only at hinv ⊢
    split at hinv
    · exact h
    · next i emulator hnext =>
      obtain ⟨-, hbuffers⟩ := CameraEmulator.getNextFreeBuffer_eq_some hnext
      let s' : FileCam F P := { s with emulator := emulator }.goto (.filling i)
      have hdata : s'.data = s.data := funext fun j => congrArg (fun b => (b j).data) hbuffers
      have hused : s'.used = s.used := funext fun j => congrArg (fun b => (b j).used) hbuffers
      change FileOwned s'
      refine .of_early hinv (fun _ => ⟨nofun, nofun⟩) h.shown h.one ?_ fun j hj => ?_
      · rw [hdata, hused]
        exact h.held
      · rw [hdata]
        refine (h.owned j (hused ▸ hj)).resolve_right fun hcalling => ?_
        cases hrun.symm.trans hcalling
  | filling i =>
    rw [hrun] at hinv hknows
    refine .of_early hinv (fun _ => ⟨nofun, nofun⟩) (fun d hd => ?_) h.one h.held fun j hj => ?_
    · -- The picture is not read into the image that the client has.
      have hother : s.mFrameBuff ≠ s.data i := fun heq => by
        obtain ⟨j, hj, hused⟩ := h.held (List.ne_nil_of_mem hd)
        obtain rfl := h.distinct i j hknows.1 (heq.symm.trans hj.symm)
        cases hknows.2.symm.trans hused
      rw [← h.shown d hd]
      change (⟨s.mFrameBuff, Function.update s.images (s.data i) _ s.mFrameBuff⟩ : FileDelivery P) = _
      rw [Function.update_of_ne hother]
      rfl
    · refine (h.owned j hj).resolve_right fun hcalling => ?_
      cases hrun.symm.trans hcalling
  | naming i =>
    rw [hrun] at hinv hknows htime
    -- in time means that the client has returned the frame
    have hempty : s.outstanding = [] := htime
    have hunused := h.unused hempty fun j hcalling => by cases hrun.symm.trans hcalling
    refine .of_empty hinv hempty (fun j hj => ?_) nofun
    cases (hunused j).symm.trans hj
  | marking i =>
    rw [hrun] at hinv hknows
    have hempty : s.outstanding = [] := h.late i (.inl hrun)
    have hunused := h.unused hempty fun j hcalling => by cases hrun.symm.trans hcalling
    refine .of_empty hinv hempty (fun j hj => ?_) fun j hj => ?_
    · by_cases hji : j = i
      · rw [hji]
        rfl
      · cases (hunused j).symm.trans ((CameraEmulator.used_setUsed_of_ne hji).symm.trans hj)
    · cases hj
      exact CameraEmulator.used_setUsed_self
  | calling i =>
    rw [hrun] at hinv hknows htime
    have hempty : s.outstanding = [] := h.late i (.inr hrun)
    have hcallback : s.callback = true := htime
    dsimp only at hinv ⊢
    rw [if_pos hcallback] at hinv ⊢
    refine .of_early hinv (fun _ => ⟨nofun, nofun⟩) (fun d hd => ?_) ?_
      (fun _ => ⟨i, hknows.2, h.marked i hrun⟩) fun j hj => ⟨?_, ?_⟩
    · have hmem : d ∈ s.delivery :: s.outstanding := hd
      rw [hempty, List.mem_singleton] at hmem
      exact hmem.symm
    · change (s.delivery :: s.outstanding).length ≤ 1
      rw [hempty]
      exact Nat.le_refl 1
    · exact List.cons_ne_nil _ _
    · rcases h.owned j hj with ⟨hne, -⟩ | hcalling
      · exact absurd hempty hne
      · cases hrun.symm.trans hcalling
        exact hknows.2

/-- A step that is not in time leaves the client with another buffer than it was given, or a buffer with nobody. -/
theorem FileOwned.broken (h : FileOwned s) (hlate : ¬InTime s .run) :
    ¬FilePoolSound (s.runStep read) := by
  rw [InTime] at hlate
  have hknows := h.knows
  rw [FileCam.runStep]
  cases hrun : s.runThread with
  | naming i =>
    rw [hrun] at hknows hlate
    obtain ⟨d, hd⟩ := List.exists_mem_of_ne_nil _ hlate
    intro hsound
    have hname : s.data i = d.mFrameBuff := congrArg FileDelivery.mFrameBuff (hsound.shown d hd)
    obtain ⟨j, hj, hused⟩ := hsound.held d hd
    obtain rfl := h.distinct i j hknows.1 (hname.trans hj.symm)
    cases hknows.2.symm.trans hused
  | calling i =>
    rw [hrun] at hlate
    have hempty : s.outstanding = [] := h.late i (.inr hrun)
    have hcallback : ¬s.callback = true := hlate
    dsimp only
    rw [if_neg hcallback]
    intro hsound
    rcases hsound.owned i (h.marked i hrun) with ⟨d, hd, -⟩ | hcalling
    · have hmem : d ∈ s.outstanding := hd
      rw [hempty] at hmem
      exact absurd hmem List.not_mem_nil
    · cases hcalling
  | _ =>
    rw [hrun] at hlate
    exact absurd trivial hlate

/-- In all states of a run the client has the buffers that are in use, with the pictures that were delivered to it, exactly
when it returns each frame before the next one is filled in, and there is a client. -/
theorem file_pool_sound_iff (read : F → P → P × F) (file : F) (images : Nat → P) {prvBufArr : List Nat}
    (callback : Bool) (hnodup : prvBufArr.Nodup) (acts : List FileAct) :
    Machine.Always (fileStep read) FilePoolSound (.started file images prvBufArr callback) acts ↔
      Machine.Meets (fileStep read) InTime (.started file images prvBufArr callback) acts := by
  refine Machine.always_iff_meets (I := FileOwned) (fun _ h => h.sound) ?_ ?_ (fileOwned_started hnodup)
  · intro s act s' r h htime hstep
    cases hstep
    cases act with
    | run => exact h.step_run htime
    | returnFrame n => exact h.step_return
  · intro s act h hlate
    refine ⟨_, _, rfl, ?_⟩
    cases act with
    | run => exact h.broken hlate
    | returnFrame n => exact absurd trivial hlate

/-! ## A client that is too late -/

/-- A reading of a file of numbers. At the end of the file the image stays as it is. -/
def readNumber : List Nat → Nat → Nat × List Nat
  | [], p => (p, [])
  | picture :: file, _ => (picture, file)

/-- A file of numbers has these as its pictures. -/
theorem holdsPictures_readNumber (file : List Nat) : HoldsPictures readNumber file file := by
  induction file with
  | nil => exact fun _ => rfl
  | cons picture file ih => exact ⟨file, fun _ => rfl, ih⟩

/-- Two buffers, of which the second is delivered before the first is returned; then both are returned, and the
second buffer is filled again. -/
def twoPictures : List FileAct :=
  List.replicate 10 .run ++ [.returnFrame 1, .returnFrame 0] ++ List.replicate 5 .run

instance (s : FileCam F P) : ∀ act, Decidable (InTime s act)
  | .run =>
    show Decidable (match s.runThread with
      | .naming _ => s.outstanding = []
      | .calling _ => s.callback = true
      | _ => True) from
    match s.runThread with
    | .sleeping => isTrue trivial
    | .filling _ => isTrue trivial
    | .naming _ => decidable_of_iff (s.outstanding.isEmpty = true) List.isEmpty_iff
    | .marking _ => isTrue trivial
    | .calling _ => inferInstanceAs (Decidable (s.callback = true))
  | .returnFrame _ => isTrue trivial

theorem file_pool_sound_iff_two :
    [64, 96].Nodup ∧ ¬Machine.Always (fileStep readNumber) FilePoolSound
      (.started [7, 8] (fun _ => 0) [64, 96] true) twoPictures := by
  have hnodup : [64, 96].Nodup := by decide
  refine ⟨hnodup, fun halways => ?_⟩
  have hmeets := (file_pool_sound_iff readNumber [7, 8] (fun _ => 0) true hnodup twoPictures).mp halways
  have hcheck := Machine.check_eq_true_iff.mpr hmeets
  exact absurd hcheck (by decide)

end DVP.VisionCam
