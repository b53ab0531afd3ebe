import DVP.Lib.Fifo
import DVP.Lib.Run
import DVP.Sosal.Types
import Mathlib.Logic.Function.Basic

/-!
# The frames of the vision engine

`VisionEngine::ReceiveImage`, `VisionEngine::DequeueImage` and `VisionEngine::Engine` of
`source/dvp/VisionEngine/VisionEngine.cpp`, each as the locations between its steps. The calls of
`ReceiveImage` come from the threads of the camera, the engine has a thread of its own, and one more thread
shuts it down. A queue operation, a region under the lock of the engine and an access to `m_running` are one step
each.

What the graphs do is not modelled: `GraphSetup` and `ProcessImage` answer a status, and `GraphSetup` whether it
has made a camera. The counters that nothing tests and the measured times are left out.
-/

namespace DVP.VisionEngine

open DVP.Sosal

/-- The fields of `VisionCamFrame` that the engine reads. -/
structure VisionCamFrame where
  mFrameBuff : Nat
  mFrameSource : Nat
  mLength : Nat
  deriving DecidableEq

/-- `VCAM_PORT_PREVIEW`. -/
def vcamPortPreview : Nat := 1

/-- `STATUS_SUCCESS`. -/
def statusSuccess : Int := 1

/-- `STATUS_NO_RESOURCES`. -/
def statusNoResources : Int := -594

/-- `STATUS_END_OF_FILE`. -/
def statusEndOfFile : Int := -590

/-- A frame that a call of `ReceiveImage` took from the camera. -/
structure Delivery where
  call : Nat
  frame : VisionCamFrame
  deriving DecidableEq

/-- Where a call of `ReceiveImage` is. -/
inductive ReceiveLocation where
  | idle
  /-- At the test of its argument and of `m_running`. -/
  | testing (cameraFrame : Option VisionCamFrame)
  /-- At `queue_write`. -/
  | writing (d : Delivery)
  /-- At the region that returns the frame that the queue refused. -/
  | dropping (d : Delivery)
  /-- At the two statements of `Shutdown`. -/
  | clearing
  | popping
  | done

/-- Where the thread of the engine is. -/
inductive EngineLocation where
  /-- At the region with `GraphSetup`. -/
  | setup
  /-- At the test of the loop of `Engine`. -/
  | loop (status : Int)
  /-- At the test of the loop of `DequeueImage`, with its local variable. -/
  | backlog (cameraFrame : Option Delivery)
  /-- At the `queue_read` of that loop. -/
  | reading (cameraFrame : Option Delivery)
  /-- At the access to `cameraFrame->mFrameBuff`, with what `queue_read` returned. -/
  | inspecting (ret : Bool) (cameraFrame : Option Delivery)
  /-- At the `returnFrame` of that loop. -/
  | discarding (d : Delivery)
  /-- At the test of `m_running` after that loop. -/
  | stopped
  /-- At the last `queue_read`. -/
  | waiting
  /-- Back in `Engine` with a frame or `NULL`. -/
  | dequeued (cameraFrame : Option Delivery)
  | processing (d : Delivery)
  /-- At the region that counts the frame. -/
  | counting (d : Delivery) (status : Int)
  /-- At `ReturnCameraFrame`. -/
  | returning (d : Delivery) (status : Int)
  | teardown (status : Int)
  | exited (status : Int)

/-- Where the thread is that shuts the engine down. -/
inductive StopLocation where
  | clearing
  | popping
  | done

/-- The engine and what goes on in it. -/
structure EngineSystem where
  /-- `m_running`. -/
  running : Bool
  /-- `m_framequeue`. -/
  framequeue : Fifo Delivery
  /-- `m_framequeue->popped`. -/
  popped : Bool
  /-- `m_pCam` is not `NULL`. -/
  hasCam : Bool
  /-- `m_numFrames`. -/
  numFrames : Nat
  engine : EngineLocation
  /-- The calls of `ReceiveImage`. -/
  calls : Nat → ReceiveLocation
  stop : StopLocation
  /-- The frames that came while `m_running` was true. -/
  delivered : List Delivery
  /-- The frames that the engine took off the queue. -/
  taken : List Delivery
  /-- The frames that the camera got back. -/
  returned : List Delivery

namespace EngineSystem

variable (s : EngineSystem)

/-- The engine when `StartThread` has just made its thread. The queue is new and has room for 8 frames. -/
def started (numFrames : Nat) : EngineSystem where
  running := true
  framequeue := Fifo.empty 8
  popped := false
  hasCam := false
  numFrames := numFrames
  engine := .setup
  calls := fun _ => .idle
  stop := .clearing
  delivered := []
  taken := []
  returned := []

/-- `Engine` is at another place. -/
def goto (location : EngineLocation) : EngineSystem := { s with engine := location }

/-- A call of `ReceiveImage` is at another place. -/
def setCall (t : Nat) (location : ReceiveLocation) : EngineSystem :=
  { s with calls := Function.update s.calls t location }

/-- `if (m_pCam) m_pCam->returnFrame(cameraFrame)`. -/
def returnFrame (d : Delivery) : EngineSystem :=
  if s.hasCam then { s with returned := d :: s.returned } else s

/-- `Shutdown`, in a region under the lock. -/
def shutdown : EngineSystem := { s with running := false, popped := true }

/-- A blocking `queue_read`: nothing while it waits, or else the engine after it and the frame, if it delivered
one. -/
def queueRead : Option (EngineSystem × Option Delivery) :=
  if s.popped then some (s, none)
  else
    match s.framequeue.pop with
    | none => none
    | some (d, framequeue) =>
      some ({ s with
        framequeue := framequeue
        taken := d :: s.taken }, some d)

/-- The region of `ReceiveImage` for a frame that the queue refused. -/
def dropFrame (d : Delivery) : EngineSystem :=
  let s := s.returnFrame d
  if 0 < s.numFrames then
    let s := { s with numFrames := s.numFrames - 1 }
    if s.numFrames = 0 then s.shutdown else s
  else s

/-- The region of `Engine` that counts a frame after it was processed. -/
def countFrame (d : Delivery) : EngineSystem :=
  if d.frame.mFrameSource = vcamPortPreview ∧ 0 < s.numFrames then
    let s := { s with numFrames := s.numFrames - 1 }
    if s.numFrames = 0 then { s with running := false } else s
  else s

/-- A step of a call of `ReceiveImage`. -/
def receiveStep (t : Nat) : EngineSystem :=
  match s.calls t with
  | .idle | .done => s
  | .testing cameraFrame =>
    match cameraFrame, s.running with
    | some frame, true =>
      { s with delivered := ⟨t, frame⟩ :: s.delivered }.setCall t (.writing ⟨t, frame⟩)
    | _, _ => s.setCall t .clearing
  | .writing d =>
    -- `queue_write` does not wait: a queue that is full or popped refuses the frame.
    match if s.popped then none else s.framequeue.push d with
    | some framequeue => { s with framequeue := framequeue }.setCall t .done
    | none => s.setCall t (.dropping d)
  | .dropping d => (s.dropFrame d).setCall t .done
  | .clearing => { s with running := false }.setCall t .popping
  | .popping => { s with popped := true }.setCall t .done

end EngineSystem

/-- What `GraphSetup` and `ProcessImage` answer. -/
structure EngineAnswer where
  status : Int
  /-- `GraphSetup` has made a camera. -/
  hasCam : Bool

/-- A step of the thread of the engine, whose camera reads a file or not. -/
def engineStep (fileCam : Bool) (s : EngineSystem) (answer : EngineAnswer) :
    Except Fault EngineSystem :=
  match s.engine with
  | .setup =>
    let s := { s with hasCam := answer.hasCam }
    .ok (s.goto (if answer.status = statusSuccess then .loop answer.status else .teardown answer.status))
  | .loop status =>
    .ok (s.goto (if s.running ∧ status = statusSuccess then .backlog none else .teardown status))
  | .backlog cameraFrame =>
    -- `queue_length` and the `queue_read` that follows are two calls.
    .ok (s.goto (if 1 < s.framequeue.items.length then .reading cameraFrame else .stopped))
  | .reading cameraFrame =>
    match s.queueRead with
    | none => .ok s
    -- The variable keeps the frame it had.
    | some (s, none) => .ok (s.goto (.inspecting false cameraFrame))
    | some (s, some d) => .ok (s.goto (.inspecting true (some d)))
  | .inspecting ret cameraFrame =>
    match cameraFrame with
    | none => .error .nullPointer
    | some d =>
      if ret ∧ d.frame.mFrameBuff ≠ 0 then .ok (s.goto (.discarding d))
      -- The `break` does not return the frame, and `DequeueImage` overwrites its variable later.
      else .ok ({ s with running := false }.goto .stopped)
  | .discarding d => .ok ((s.returnFrame d).goto (.backlog (some d)))
  | .stopped => .ok (s.goto (if s.running then .waiting else .dequeued none))
  | .waiting =>
    match s.queueRead with
    | none => .ok s
    | some (s, cameraFrame) => .ok (s.goto (.dequeued cameraFrame))
  | .dequeued cameraFrame =>
    match cameraFrame with
    | none => .ok ({ s with running := false }.goto (.teardown statusNoResources))
    | some d =>
      if d.frame.mLength ≠ 0 then .ok (s.goto (.processing d))
      -- A frame without data is taken for the end of the file, and is not returned.
      else
        let status := if fileCam then statusEndOfFile else statusNoResources
        .ok ({ s with running := false }.goto (.teardown status))
  | .processing d => .ok (s.goto (.counting d answer.status))
  | .counting d status => .ok ((s.countFrame d).goto (.returning d status))
  | .returning d status => .ok ((s.returnFrame d).goto (.loop status))
  | .teardown status => .ok ({ s with hasCam := false }.goto (.exited status))
  | .exited _ => .ok s

/-- A step of the thread that shuts the engine down. -/
def stopStep (s : EngineSystem) : EngineSystem :=
  match s.stop with
  | .clearing => { s with
      running := false
      stop := .popping }
  | .popping => { s with
      popped := true
      stop := .done }
  | .done => s

/-- What happens next. -/
inductive EngineAct where
  /-- A thread of the camera calls `ReceiveImage`. -/
  | receive (t : Nat) (cameraFrame : Option VisionCamFrame)
  | call (t : Nat)
  | engine (answer : EngineAnswer)
  | stop

/-- A step of one of the threads. -/
def engineSystemStep (fileCam : Bool) (s : EngineSystem) :
    EngineAct → Except Fault (EngineSystem × Unit)
  | .receive t cameraFrame =>
    match s.calls t with
    | .idle => .ok (s.setCall t (.testing cameraFrame), ())
    | _ => .ok (s, ())
  | .call t => .ok (s.receiveStep t, ())
  | .engine answer => do
    let s ← engineStep fileCam s answer
    return (s, ())
  | .stop => .ok (stopStep s, ())

end DVP.VisionEngine
