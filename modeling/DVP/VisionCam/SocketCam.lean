import DVP.Kgraph.Image
import DVP.Lib.Fifo
import DVP.Lib.Run
import DVP.Sosal.Types

/-!
# The socket camera

`SocketVisionCam::useBuffers`, `SocketVisionCam::returnFrame` and `SocketVisionCam::RunThread` of
`source/dvp/VisionCam/SocketVisionCam.cpp`, with the pool of images `m_imgs` between them. `RunThread` has a thread
of its own, the client calls the other two, and `StopThread` may come from anywhere. A queue operation is one
step.

The queue holds pointers, and the code that reads one takes it to point to a `DVP_Image_t`; the model
remembers what it points to. What goes over the sockets is left out, except whether it is received and the length
that is. `unserialize` stays inside `m_frameData`.
-/

namespace DVP.VisionCam

open DVP.Sosal DVP.Kgraph

attribute [local instance] lawfulBEq_fourcc

/-- `FOURCC_UYVY`: packed in the order U, Y, V, Y. -/
def fourccUyvy : BitVec 32 := 0x59565955

/-- `FOURCC_YUY2`: packed in the order Y, U, Y, V. -/
def fourccYuy2 : BitVec 32 := 0x32595559

/-- `FOURCC_BGR`: BGR in 24 bits. -/
def fourccBgr : BitVec 32 := 0x33524742

/-- `validColors` of `useBuffers`. -/
def validColors : List (BitVec 32) := [fourccUyvy, fourccYuy2, fourccBgr, fourccNv12]

/-- `VCAM_NUM_BUFFERS`. -/
def vcamNumBuffers : Nat := 8

/-- `VCAM_PORT_MAX`. -/
def vcamPortMax : Nat := 3

/-- A pointer in `m_imgs`. -/
inductive PoolPtr where
  /-- The address of a `DVP_Image_t`. -/
  | image (addr : Nat)
  /-- The address of the `VisionCamFrame` of `RunThread`. -/
  | frame
  deriving DecidableEq

/-- Where `useBuffers` is: at the `queue_write` of the first image that is left. -/
inductive UseLocation where
  | idle
  | writing (pImages : List Nat)

/-- Where `RunThread` is, with `pImage`. -/
inductive RunLocation where
  /-- At `socket_init` and `socket_connect`. -/
  | connecting
  | loop
  /-- At `queue_read`. -/
  | reading
  /-- At the test of `m_running` and `m_frameData`. -/
  | testing (pImage : PoolPtr)
  /-- At the `socket_recv` of the length. -/
  | length (pImage : PoolPtr)
  /-- At the `socket_recv` of the data. -/
  | data (pImage : PoolPtr)
  /-- At `unserialize` and the callback. -/
  | delivering (pImage : PoolPtr)
  | exited

/-- The camera, its client and its thread. -/
structure SocketCam where
  /-- `m_running`. -/
  running : Bool
  /-- `m_imgs`. -/
  imgs : Fifo PoolPtr
  /-- `m_imgs->popped`. -/
  popped : Bool
  /-- `m_frameData` is not `NULL`. -/
  frameData : Bool
  /-- `m_callback` is not `NULL`. -/
  callback : Bool
  useBuffers : UseLocation
  runThread : RunLocation
  /-- The images that `useBuffers` was given, as far as it got. -/
  given : List Nat
  /-- What the frames have in `mFrameBuff` that were delivered and are not returned yet. -/
  outstanding : List PoolPtr

/-- What the sockets and `calloc` answer. -/
structure SocketAnswer where
  ok : Bool
  /-- The length that is received. -/
  len : Nat

namespace SocketCam

variable (s : SocketCam)

/-- The camera when `init` has just made its thread. -/
def started (callback : Bool) : SocketCam where
  running := true
  imgs := Fifo.empty (vcamNumBuffers * vcamPortMax)
  popped := false
  frameData := false
  callback := callback
  useBuffers := .idle
  runThread := .connecting
  given := []
  outstanding := []

/-- `RunThread` is at another place. -/
def goto (location : RunLocation) : SocketCam := { s with runThread := location }

/-- The image that is given to `useBuffers` for the first time. -/
def give (addr : Nat) : SocketCam :=
  if addr ∈ s.given then s else { s with given := addr :: s.given }

/-- A blocking `queue_write`: nothing while it waits. A queue that was popped refuses the pointer. -/
def queueWrite (ptr : PoolPtr) : Option SocketCam :=
  if s.popped then some s
  else
    match s.imgs.push ptr with
    | none => none
    | some imgs => some { s with imgs := imgs }

/-- `useBuffers` up to its loop, for images whose first one has the colour `color`. -/
def useBuffersStart (color : BitVec 32) (pImages : List Nat) (calloc : Bool) : SocketCam :=
  if color ∈ validColors ∧ pImages.length < vcamNumBuffers then
    let s := { s with frameData := calloc }
    if calloc then { s with useBuffers := .writing pImages } else s
  else s

/-- A step of the loop of `useBuffers`. -/
def useBuffersStep : SocketCam :=
  match s.useBuffers with
  | .idle => s
  | .writing [] => { s with useBuffers := .idle }
  | .writing (pImage :: pImages) =>
    match s.queueWrite (.image pImage) with
    | none => s
    | some s => { s.give pImage with useBuffers := .writing pImages }

/-- `returnFrame`, for the frame that was delivered with `buff`. It writes the address of the frame. -/
def returnFrame (buff : PoolPtr) : SocketCam :=
  if buff ∈ s.outstanding then
    -- `queue_write` copies the pointer to the frame and not the one in its `mFrameBuff`.
    match s.queueWrite .frame with
    | none => s
    | some s => { s with outstanding := s.outstanding.erase buff }
  else s

/-- A step of `RunThread`. -/
def runStep (answer : SocketAnswer) : Except Fault SocketCam :=
  match s.runThread with
  | .connecting => .ok (s.goto (if answer.ok then .loop else .exited))
  | .loop => .ok (s.goto (if s.running then .reading else .exited))
  | .reading =>
    if s.popped then .ok (s.goto .exited)
    else
      match s.imgs.pop with
      | none => .ok s
      | some (pImage, imgs) => .ok ({ s with imgs := imgs }.goto (.testing pImage))
  | .testing pImage =>
    .ok (s.goto (if s.running ∧ s.frameData then .length pImage else .exited))
  | .length pImage =>
    .ok (s.goto (if answer.ok ∧ answer.len ≠ 0 then .data pImage else .exited))
  | .data pImage =>
    -- Data that is not received ends the loop only when the camera is stopped.
    .ok (s.goto (if answer.ok ∨ (s.running ∧ s.frameData) then .delivering pImage else .exited))
  | .delivering pImage =>
    match pImage with
    -- `unserialize` writes to the planes of a frame as if it was an image.
    | .frame => .error .badPointer
    | .image _ =>
      let s := if s.callback then { s with outstanding := pImage :: s.outstanding } else s
      .ok (s.goto .loop)
  | .exited => .ok s

end SocketCam

/-- What happens next: a call of the client, or a step of `RunThread`. -/
inductive SocketAct where
  | useBuffers (color : BitVec 32) (pImages : List Nat) (calloc : Bool)
  /-- The next step of `useBuffers`. -/
  | write
  | returnFrame (buff : PoolPtr)
  | run (answer : SocketAnswer)
  /-- `StopThread` clears `m_running`. -/
  | clear
  /-- `Shutdown`. -/
  | pop

/-- A step of the client, of `RunThread` or of `StopThread`. -/
def socketStep (s : SocketCam) : SocketAct → Except Fault (SocketCam × Unit)
  | .useBuffers color pImages calloc =>
    match s.useBuffers with
    | .idle => .ok (s.useBuffersStart color pImages calloc, ())
    | .writing _ => .ok (s, ())
  | .write => .ok (s.useBuffersStep, ())
  | .returnFrame buff => .ok (s.returnFrame buff, ())
  | .run answer => do
    let s ← s.runStep answer
    return (s, ())
  | .clear => .ok ({ s with running := false }, ())
  | .pop => .ok ({ s with popped := true }, ())

end DVP.VisionCam
