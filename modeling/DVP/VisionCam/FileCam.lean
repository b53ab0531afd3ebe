import DVP.Lib.Run
import DVP.Sosal.Types
import DVP.VisionCam.SocketCam
import Mathlib.Data.Fintype.Card
import Mathlib.Logic.Function.Basic

/-!
# The buffers of the file camera

`CameraEmulator::useBuffers`, `CameraEmulator::getNextFreeBuffer` and `CameraEmulator::returnFrame` of
`source/dvp/VisionCam/CameraEmulator.cpp`, and `FileVisionCam::RunThread` of
`source/dvp/VisionCam/FileVisionCam.cpp` with its one `VisionCamFrame`, which all deliveries share. `RunThread` has a
thread of its own, and the client returns what was delivered to it whenever it likes.

What a reading leaves of the file and in the image is a parameter: at the end of the file `fread` gives nothing,
and an image keeps what it held. The other fields of the frame are left out, and so are `m_running`, after which
`RunThread` takes no more buffers, and the sleep between two readings.
-/

namespace DVP.VisionCam

open DVP.Sosal

instance : NeZero vcamNumBuffers := ⟨by decide⟩

/-- An index of `m_buffers`. -/
abbrev BufferIdx := Fin vcamNumBuffers

/-- `VCAM_Buffer_t`, without its size. -/
structure VcamBuffer where
  /-- The address of an image. It is 0 for `NULL`. -/
  data : Nat
  used : Bool
  deriving DecidableEq

/-- `m_buffers` and `m_lastIdx`. -/
structure CameraEmulator where
  buffers : BufferIdx → VcamBuffer
  lastIdx : BufferIdx

namespace CameraEmulator

variable (c : CameraEmulator)

/-- The constructor. -/
def new : CameraEmulator := ⟨fun _ => ⟨0, false⟩, ⟨vcamNumBuffers - 1, by decide⟩⟩

def setBuffer (i : BufferIdx) (buffer : VcamBuffer) : CameraEmulator :=
  { c with buffers := Function.update c.buffers i buffer }

def setUsed (i : BufferIdx) (used : Bool) : CameraEmulator :=
  c.setBuffer i { c.buffers i with used := used }

/-- The inner loop of `useBuffers`. -/
def register (pImage : Nat) : CameraEmulator :=
  match (List.finRange vcamNumBuffers).find? fun i => (c.buffers i).data = 0 with
  | none => c
  | some i => c.setBuffer i ⟨pImage, false⟩

/-- `useBuffers`. -/
def useBuffers (prvBufArr : List Nat) : CameraEmulator := prvBufArr.foldl register c

/-- The buffer has an image that nobody uses. -/
def Free (i : BufferIdx) : Prop := (c.buffers i).data ≠ 0 ∧ (c.buffers i).used = false

instance (i : BufferIdx) : Decidable (c.Free i) := inferInstanceAs (Decidable (_ ∧ _))

/-- The indices that `getNextFreeBuffer` goes through. The one that was used last is the last one. -/
def nextIdxs : List BufferIdx := (List.finRange vcamNumBuffers).map (c.lastIdx + 1 + ·)

/-- `getNextFreeBuffer`, with the state after it. -/
def getNextFreeBuffer : Option (BufferIdx × CameraEmulator) :=
  (c.nextIdxs.find? fun i => c.Free i).map fun i => (i, { c with lastIdx := i })

/-- `returnFrame`, for the image in `mFrameBuff`. -/
def returnFrame (mFrameBuff : Nat) : CameraEmulator :=
  match (List.finRange vcamNumBuffers).find? fun i => (c.buffers i).data = mFrameBuff with
  | none => c
  | some i => c.setUsed i false

end CameraEmulator

/-- Where `RunThread` is. -/
inductive FileLocation where
  /-- At `thread_msleep`. -/
  | sleeping
  /-- At the reading of the file. -/
  | filling (i : BufferIdx)
  /-- At the fields of the frame. -/
  | naming (i : BufferIdx)
  /-- At `m_buffers[i].used = 1`. -/
  | marking (i : BufferIdx)
  /-- At the callback. -/
  | calling (i : BufferIdx)

/-- What the client was given: the image that the frame had then, and what was in it. -/
structure FileDelivery (P : Type) where
  mFrameBuff : Nat
  picture : P

/-- The camera and its client. `P` is what an image can hold, and `F` what can be left of the file. -/
structure FileCam (F P : Type) where
  emulator : CameraEmulator
  /-- `pFrame->mFrameBuff`. -/
  mFrameBuff : Nat
  /-- What the images hold. -/
  images : Nat → P
  file : F
  /-- How many pictures were read from the file. -/
  position : Nat
  runThread : FileLocation
  /-- `m_callback` is not `NULL`. -/
  callback : Bool
  /-- What was delivered, the last one first. -/
  delivered : List (FileDelivery P)
  /-- What was delivered and is not returned yet, the last one first. -/
  outstanding : List (FileDelivery P)

namespace FileCam

variable {F P : Type} (s : FileCam F P)

/-- The camera when `VCAM_CMD_PREVIEW_START` has made its thread, for a client that has registered its images. -/
def started (file : F) (images : Nat → P) (prvBufArr : List Nat) (callback : Bool) : FileCam F P where
  emulator := CameraEmulator.new.useBuffers prvBufArr
  mFrameBuff := 0
  images := images
  file := file
  position := 0
  runThread := .sleeping
  callback := callback
  delivered := []
  outstanding := []

/-- `RunThread` goes on elsewhere. -/
def goto (location : FileLocation) : FileCam F P := { s with runThread := location }

/-- The image of a buffer. -/
def data (i : BufferIdx) : Nat := (s.emulator.buffers i).data

/-- The mark of a buffer. -/
def used (i : BufferIdx) : Bool := (s.emulator.buffers i).used

/-- What the client gets: the frame leads to its image. -/
def delivery : FileDelivery P := ⟨s.mFrameBuff, s.images s.mFrameBuff⟩

/-- A step of `RunThread`. What a reading does with what is left of the file and with what the image holds is
`read`. -/
def runStep (read : F → P → P × F) : FileCam F P :=
  match s.runThread with
  | .sleeping =>
    match s.emulator.getNextFreeBuffer with
    -- No picture is skipped in the file.
    | none => s
    | some (i, emulator) => { s with emulator := emulator }.goto (.filling i)
  | .filling i =>
    let (picture, file) := read s.file (s.images (s.data i))
    { s with
      images := Function.update s.images (s.data i) picture
      file := file
      position := s.position + 1 }.goto (.naming i)
  | .naming i => { s with mFrameBuff := s.data i }.goto (.marking i)
  | .marking i =>
    { s with emulator := s.emulator.setUsed i true }.goto (.calling i)
  | .calling _ =>
    let s := if s.callback then
        { s with
          delivered := s.delivery :: s.delivered
          outstanding := s.delivery :: s.outstanding }
      else s
    s.goto .sleeping

/-- The client returns the frame that it got with the `n`-th of the deliveries that are outstanding. They are all
the same frame. -/
def returnFrame (n : Nat) : FileCam F P :=
  if n < s.outstanding.length then
    { s with
      emulator := s.emulator.returnFrame s.mFrameBuff
      outstanding := s.outstanding.eraseIdx n }
  else s

end FileCam

/-- The atomic steps. -/
inductive FileAct where
  | run
  | returnFrame (n : Nat)

section Step

variable {F P : Type}

/-- The state after a step. -/
def FileCam.step (read : F → P → P × F) (s : FileCam F P) : FileAct → FileCam F P
  | .run => s.runStep read
  | .returnFrame n => s.returnFrame n

/-- The step gives the frame another image while a buffer with the one it has is in use. -/
def FileCam.Overlaps (s : FileCam F P) : FileAct → Prop
  | .run =>
    match s.runThread with
    | .naming _ => ∃ i, s.data i = s.mFrameBuff ∧ s.used i = true
    | _ => False
  | .returnFrame _ => False

instance (s : FileCam F P) : ∀ act, Decidable (s.Overlaps act)
  | .run => by
    unfold FileCam.Overlaps
    dsimp only
    split <;> infer_instance
  | .returnFrame _ => isFalse id

/-- A step of `RunThread` or of the client, and if it overlaps. -/
def fileStep (read : F → P → P × F) (s : FileCam F P) (act : FileAct) :
    Except Fault (FileCam F P × Bool) :=
  .ok (s.step read act, decide (s.Overlaps act))

/-! ## The pictures of a file -/

variable (read : F → P → P × F)

/-- What is left of the file and what the images hold after images were filled one after the other. -/
def readings (start : F × (Nat → P)) (images : List Nat) : F × (Nat → P) :=
  images.foldl (fun st image =>
    let (picture, file) := read st.1 (st.2 image)
    (file, Function.update st.2 image picture)) start

/-- The pictures that the images get when they are filled one after the other. -/
def playback : F × (Nat → P) → List Nat → List P
  | _, [] => []
  | start, image :: images =>
    (read start.1 (start.2 image)).1 :: playback (readings read start [image]) images

/-- The file has these pictures, and then nothing: what is read after them leaves every image as it is. -/
def HoldsPictures : F → List P → Prop
  | file, [] => ∀ p, read file p = (p, file)
  | file, picture :: pictures =>
    ∃ rest, (∀ p, read file p = (picture, rest)) ∧ HoldsPictures rest pictures

end Step

end DVP.VisionCam
