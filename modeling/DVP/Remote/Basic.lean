import DVP.Sosal.RpcSocket.Protocol
import DVP.VisionCam.SocketCam

/-!
# The camera of another machine

`SocketVisionCam` of `source/dvp/VisionCam/SocketVisionCam.cpp` has the functions of a `VisionCam` and calls those
of a camera at the other end of a socket. There `ServerVisionCam` of `source/dvp/VisionCam/ServerVisionCam.cpp` takes
the parameters out of the packets, calls its `VisionCam` and gives back what it answers. The packets are those
of `DVP.Sosal.RpcSocket`.

The camera of the server is any camera: its states and functions are parameters. The functions of the client do
not send their port, except `useBuffers`, and the server uses the default one. The client has one thread that calls.

How the frames travel is left out: the data socket, the display, the memory of the images, and the pool of the
client (`DVP.VisionCam.SocketCam`). Where a call waits for that part, an argument says whether it goes on. `m_wait`
is left out too: when it is set the main thread closes the sockets, and what a call finds then is up to `connects`
and `Delivery`, as for a connection that fails.

`m_status` and `m_param` hold what a function returns until it is sent; here they are what it returns.
-/

namespace DVP.Remote

open Bytes DVP.Sosal DVP.VisionCam

attribute [local instance] DVP.Kgraph.lawfulBEq_fourcc

/-! ## Cameras -/

/-- `STATUS_SUCCESS`. -/
def statusSuccess : BitVec 32 := 1

/-- `STATUS_NOT_ENOUGH_MEMORY`. -/
def statusNotEnoughMemory : BitVec 32 := -598

/-- `STATUS_INVALID_PARAMETER`. -/
def statusInvalidParameter : BitVec 32 := -597

/-- `STATUS_NO_RESOURCES`. -/
def statusNoResources : BitVec 32 := -594

/-- `VCAM_PORT_PREVIEW`, the default port. -/
def vcamPortPreview : BitVec 32 := 1

/-- `VCAM_PARAM_2DBUFFER_DIM`. -/
def vcamParam2DBufferDim : BitVec 32 := 0x7F000022

/-- `SOCKETVCAM_PARAM_HOSTNAME`. -/
def socketVcamParamHostname : BitVec 32 := 0x7F00002B

/-- `sizeof(VisionCamResType)`, whose last two words are `mWidth` and `mHeight`. -/
def visionCamResTypeSize : Nat := 12

/-- `MAX_PATH`. -/
def maxPath : Nat := 255

/-- An image as `useBuffers` gets it. -/
structure CamImage where
  width : BitVec 32
  height : BitVec 32
  bufWidth : BitVec 32
  bufHeight : BitVec 32
  color : BitVec 32

/-- The functions of the class `VisionCam`, for a camera with states of type `γ`. Each answers a status, and those
with a parameter get the bytes from `param`, their number and the port. `getParameter` writes to the bytes. The
callbacks are those of the server, and `setFocusCallBack` may get `NULL` instead. -/
structure VisionCam (γ : Type) where
  init : γ → γ × BitVec 32
  deinit : γ → γ × BitVec 32
  useBuffers : γ → List CamImage → BitVec 32 → γ × BitVec 32
  releaseBuffers : γ → BitVec 32 → γ × BitVec 32
  flushBuffers : γ → BitVec 32 → γ × BitVec 32
  sendCommand : γ → BitVec 32 → List UInt8 → BitVec 32 → γ × BitVec 32
  setParameter : γ → BitVec 32 → List UInt8 → BitVec 32 → γ × BitVec 32
  getParameter : γ → BitVec 32 → List UInt8 → BitVec 32 → γ × BitVec 32 × List UInt8
  enablePreviewCbk : γ → γ × BitVec 32
  disablePreviewCbk : γ → γ × BitVec 32
  setFocusCallBack : γ → (callback : Bool) → γ × BitVec 32
  length_getParameter : ∀ c paramId param port,
    (getParameter c paramId param port).2.2.length = param.length

/-! ## Items -/

/-- The `n` bytes that an item points to, or none if its pointer is `NULL`. -/
def bytesAt (item : RpcSocketItem (Option Memory)) (n : Nat) : List UInt8 :=
  match item.item with
  | none => []
  | some memory => peek memory 0 n

/-- The number that an item points to. -/
def word (item : RpcSocketItem (Option Memory)) : BitVec 32 := unitOf 32 (bytesAt item 4)

/-- An `RPC_SOCKET_TYPE_INT32` with some bytes. -/
def int32Item (sizeElement : BitVec 32) (bytes : List UInt8) : RpcSocketItem Memory :=
  ⟨0, 4, sizeElement, 1, streamMemory bytes⟩

/-- One number. -/
def wordItem (n : BitVec 32) : RpcSocketItem Memory := int32Item 4 (unitBytes n)

/-- `VisionCamImages_t`. -/
structure VisionCamImages where
  width : BitVec 32
  height : BitVec 32
  color : BitVec 32
  count : BitVec 32
  port : BitVec 32
  deriving DecidableEq

/-- The object representation of the structure. -/
def VisionCamImages.bytes (img : VisionCamImages) : List UInt8 :=
  unitBytes img.width ++ unitBytes img.height ++ unitBytes img.color ++ unitBytes img.count ++
    unitBytes img.port

/-- The structure that an item points to. -/
def VisionCamImages.ofItem (item : RpcSocketItem (Option Memory)) : VisionCamImages where
  width := unitOf 32 (bytesAt item 4)
  height := unitOf 32 ((bytesAt item 8).drop 4)
  color := unitOf 32 ((bytesAt item 12).drop 8)
  count := unitOf 32 ((bytesAt item 16).drop 12)
  port := unitOf 32 ((bytesAt item 20).drop 16)

/-! ## The server -/

/-- The server and the state of its camera. -/
structure ServerVisionCam (γ : Type) where
  /-- `m_pCam`. -/
  pCam : Option γ
  img : VisionCamImages
  allocWidth : BitVec 32
  allocHeight : BitVec 32
  /-- There was an access outside `m_param` or `m_pImages`, or to what `NULL` points to. -/
  outside : Bool

section Server

variable {γ : Type} (cam : VisionCam γ)

/-- A function that does not accept its parameters. -/
def refuse (s : ServerVisionCam γ) : ServerVisionCam γ × Bool × Returns :=
  (s, false, ⟨[], Nat.zero_le _⟩)

/-- A function that returns a status. -/
def acceptStatus (s : ServerVisionCam γ) (r : γ × BitVec 32) : ServerVisionCam γ × Bool × Returns :=
  ({ s with pCam := some r.1 }, true, ⟨[wordItem r.2], show 1 ≤ 10 by decide⟩)

/-- The functions without parameters, each with the calls that it makes. -/
def serverPlain (calls : γ → γ × BitVec 32) : RpcServerFunction (ServerVisionCam γ) := fun s params =>
  match s.pCam, params with
  | some c, [] => acceptStatus s (calls c)
  | _, _ => refuse s

/-- The functions with a number and some bytes. -/
def serverWrite (f : γ → BitVec 32 → List UInt8 → γ × BitVec 32) :
    RpcServerFunction (ServerVisionCam γ) := fun s params =>
  match s.pCam, params with
  | some c, [id, param] =>
    if id.numElements = 1 ∧ id.sizeElement = 4 then acceptStatus s (f c (word id) param.contents)
    else refuse s
  | _, _ => refuse s

/-- What `ServerVisionCam::init` calls: it registers its callbacks with a camera that has started. -/
def initCalls (c : γ) : γ × BitVec 32 :=
  let (c, status) := cam.init c
  if status = statusSuccess then
    let (c, _) := cam.enablePreviewCbk c
    let (c, _) := cam.setFocusCallBack c true
    (c, status)
  else (c, status)

/-- What `ServerVisionCam::deinit` calls. -/
def deinitCalls (c : γ) : γ × BitVec 32 :=
  let (c, _) := cam.setFocusCallBack c false
  cam.deinit c

/-- What `ServerVisionCam::releaseBuffers` calls. -/
def releaseBuffersCalls (c : γ) : γ × BitVec 32 :=
  let (c, _) := cam.disablePreviewCbk c
  cam.releaseBuffers c vcamPortPreview

/-- `ServerVisionCam::init`. -/
def serverInit : RpcServerFunction (ServerVisionCam γ) := serverPlain (initCalls cam)

/-- `ServerVisionCam::deinit`. -/
def serverDeinit : RpcServerFunction (ServerVisionCam γ) := serverPlain (deinitCalls cam)

/-- `ServerVisionCam::releaseBuffers`. -/
def serverReleaseBuffers : RpcServerFunction (ServerVisionCam γ) := serverPlain (releaseBuffersCalls cam)

/-- `ServerVisionCam::flushBuffers`. -/
def serverFlushBuffers : RpcServerFunction (ServerVisionCam γ) :=
  serverPlain (cam.flushBuffers · vcamPortPreview)

/-- `ServerVisionCam::setParameter`. -/
def serverSetParameter : RpcServerFunction (ServerVisionCam γ) :=
  serverWrite fun c paramId param => cam.setParameter c paramId param vcamPortPreview

/-- `ServerVisionCam::sendCommand`. -/
def serverSendCommand : RpcServerFunction (ServerVisionCam γ) :=
  serverWrite fun c cmdId param => cam.sendCommand c cmdId param vcamPortPreview

/-- The dimensions that `getParameter` remembers from what the camera answers. -/
def ServerVisionCam.remember (s : ServerVisionCam γ) (paramId : BitVec 32) (param : List UInt8) :
    ServerVisionCam γ :=
  if paramId = vcamParam2DBufferDim then
    { s with
      allocWidth := unitOf 32 ((param.drop 4).take 4)
      allocHeight := unitOf 32 ((param.drop 8).take 4)
      outside := s.outside || decide (param.length < visionCamResTypeSize) }
  else s

/-- `ServerVisionCam::getParameter`. The camera gets a new `m_param`, which is full of zeros. -/
def serverGetParameter : RpcServerFunction (ServerVisionCam γ) := fun s params =>
  match s.pCam, params with
  | some c, [id, n] =>
    -- The size of the elements of the first parameter is tested twice, and that of the second one never.
    if id.numElements = 1 ∧ id.sizeElement = 4 ∧ n.numElements = 1 ∧ id.sizeElement = 4 then
      let size := word n
      let (c, status, param) :=
        cam.getParameter c (word id) (List.replicate size.toNat 0) vcamPortPreview
      let s := { s with outside := s.outside || n.item.isNone }.remember (word id) param
      ({ s with pCam := some c }, true,
        ⟨[wordItem status, ⟨0, 0, 1, size, streamMemory param⟩], show 2 ≤ 10 by decide⟩)
    else refuse s
  | _, _ => refuse s

/-- The images of the server that `useBuffers` prepares: the sizes of the client in buffers of the dimensions that
`getParameter` remembers. -/
def ServerVisionCam.images (s : ServerVisionCam γ) : List CamImage :=
  List.replicate s.img.count.toNat ⟨s.img.width, s.img.height, s.allocWidth, s.allocHeight, s.img.color⟩

/-- `ServerVisionCam::useBuffers`. `m_pImages` has room for `VCAM_NUM_BUFFERS` images. -/
def serverUseBuffers : RpcServerFunction (ServerVisionCam γ) := fun s params =>
  match s.pCam, params with
  | some c, [img] =>
    if img.numElements = 1 ∧ img.sizeElement = 20 then
      let s := { s with img := .ofItem img }
      let s := { s with outside := s.outside || decide (vcamNumBuffers < s.img.count.toNat) }
      acceptStatus s (cam.useBuffers c s.images s.img.port)
    else refuse s
  | _, _ => refuse s

/-- `VisionCamFunction_e`. -/
inductive VisionCamFunction where
  | init
  | deinit
  | setParams
  | getParams
  | sendCmd
  | useBufs
  | rlsBufs
  | flushBufs
  deriving DecidableEq

/-- The number of the function in a request. -/
def VisionCamFunction.code : VisionCamFunction → BitVec 32
  | init => 0
  | deinit => 1
  | setParams => 2
  | getParams => 3
  | sendCmd => 4
  | useBufs => 5
  | rlsBufs => 6
  | flushBufs => 7

/-- The array `functions` of `instantiate`. -/
def serverFunctions : List (Option (RpcServerFunction (ServerVisionCam γ))) :=
  [some (serverInit cam), some (serverDeinit cam), some (serverSetParameter cam),
    some (serverGetParameter cam), some (serverSendCommand cam), some (serverUseBuffers cam),
    some (serverReleaseBuffers cam), some (serverFlushBuffers cam)]

end Server

/-! ## The client -/

/-- The connection for the calls. -/
inductive Connection where
  /-- `m_client` is `NULL`. -/
  | none
  | open
  /-- It has failed, and `m_client` is still there. -/
  | closed
  deriving DecidableEq

/-- What becomes of the packets of a call. -/
inductive Delivery where
  /-- Both arrive. -/
  | complete
  /-- `socket_send` returns `false_e`. -/
  | unsent
  /-- The server answers, and `socket_recv` of the client returns `false_e`. -/
  | lost
  /-- `socket_recv` of the client goes on for ever, as it does at the end of the stream while `errno` is 0. -/
  | silent
  deriving DecidableEq

/-- The client, and the server that it talks to. -/
structure RemoteCam (γ : Type) where
  /-- The bytes of `m_hostname`. -/
  hostname : List UInt8
  client : Connection
  server : ServerVisionCam γ

/-- What a call can do other than return. -/
inductive CallFault where
  /-- It uses a client that is `NULL`. -/
  | noClient
  /-- It waits for an answer that does not come. -/
  | unanswered
  /-- It asks for a second connection, and the server has one. -/
  | connected
  /-- It uses a connection that has failed, and may get an error or a signal or wait for ever. -/
  | disconnected
  /-- It waits for a place in `m_imgs` or for the end of `RunThread`. -/
  | blocked

/-- The bytes from `param`. No caller has so many that the length of a packet wraps. -/
abbrev Param := { bytes : List UInt8 // bytes.length + 52 < 2 ^ 32 }

/-- A call of a function of `SocketVisionCam`. -/
inductive CamCall where
  /-- The server may accept the connection or not. -/
  | init (connects : Bool)
  | deinit
  /-- The images are like the first one. `calloc` may fail, and `m_imgs` may have no place for all of them. -/
  | useBuffers (image : CamImage) (numImages port : BitVec 32) (calloc room : Bool)
  /-- `RunThread` may stop or not. -/
  | releaseBuffers (stops : Bool)
  | flushBuffers
  | sendCommand (cmdId : BitVec 32) (param : Param)
  | setParameter (paramId : BitVec 32) (param : Param)
  | getParameter (paramId : BitVec 32) (param : Param)

/-- What a caller has after a call: the status, and the bytes from `param` if there are any. -/
structure CamAnswer where
  status : BitVec 32
  param : List UInt8
  deriving DecidableEq

/-- `strncpy` of at most `n` bytes: what is left after the end of the string is filled with zeros. -/
def strncpy (dst src : List UInt8) (n : Nat) : List UInt8 :=
  let chars := (src.take n).takeWhile (· ≠ 0)
  chars ++ List.replicate (n - chars.length) 0 ++ dst.drop n

/-- An item with the bytes from `param`. -/
def paramItem (param : List UInt8) : RpcSocketItem Memory :=
  ⟨0, 1, 1, BitVec.ofNat 32 param.length, streamMemory param⟩

/-- An item of `returns`, with a pointer to memory of the caller. -/
def toReturn (item : RpcSocketItem Memory) : RpcSocketItem (Option Memory) :=
  ⟨item.length, item.type, item.sizeElement, item.numElements, some item.item⟩

/-- The array `returns` of a client. -/
def returnsOf (items : List (RpcSocketItem Memory)) : Nat → RpcSocketItem (Option Memory) :=
  fun i => (items[i]?.map toReturn).getD zeroItem

namespace RemoteCam

variable {γ : Type} (cam : VisionCam γ) (packet : Memory) (delivery : Delivery) (s : RemoteCam γ)

/-- The `rpc_socket_client_call` of a function: whether it returns `true_e`, and `returns` after it. -/
def call (f : VisionCamFunction) (items rets : List (RpcSocketItem Memory)) :
    Except CallFault (RemoteCam γ × Bool × (Nat → RpcSocketItem (Option Memory))) :=
  let c : Call := ⟨packet, f.code, items, returnsOf rets, rets.length⟩
  match s.client, c.sent with
  | .none, _ => .error .noClient
  | _, none => .ok (s, false, returnsOf rets)
  | .closed, some _ => .error .disconnected
  | .open, some bytes =>
    match delivery, c.result (serverFunctions cam) s.server,
      (serverRound (serverFunctions cam) s.server bytes).next with
    | .complete, some (result, rets'), some (server, _) => .ok ({ s with server := server }, result, rets')
    | .unsent, _, _ => .ok ({ s with client := .closed }, false, returnsOf rets)
    | .lost, _, some (server, _) => .ok ({ s with
        client := .closed
        server := server }, false, returnsOf rets)
    | _, _, _ => .error .unanswered

/-- The status after a call: that of the server, or `STATUS_NO_RESOURCES`. -/
def status (r : RemoteCam γ × Bool × (Nat → RpcSocketItem (Option Memory))) : BitVec 32 :=
  if r.2.1 then word (r.2.2 0) else statusNoResources

/-- The functions that return a status alone. -/
def statusCall (f : VisionCamFunction) (items : List (RpcSocketItem Memory)) (param : List UInt8) :
    Except CallFault (RemoteCam γ × CamAnswer) := do
  let r ← s.call cam packet delivery f items [wordItem statusSuccess]
  return (r.1, ⟨status r, param⟩)

/-- `SocketVisionCam::init`. -/
def init (connects : Bool) : Except CallFault (RemoteCam γ × CamAnswer) :=
  if s.client = .open then .error .connected
  else if connects then { s with client := .open }.statusCall cam packet delivery .init [] []
  else .ok ({ s with client := .none }, ⟨statusNoResources, []⟩)

/-- `SocketVisionCam::deinit`. -/
def deinit : Except CallFault (RemoteCam γ × CamAnswer) := do
  let r ← s.call cam packet delivery .deinit [] [wordItem statusSuccess]
  return (if r.2.1 then { r.1 with client := .none } else r.1, ⟨status r, []⟩)

/-- `SocketVisionCam::useBuffers`. It puts the images into `m_imgs` before it calls. -/
def useBuffers (image : CamImage) (numImages port : BitVec 32) (calloc room : Bool) :
    Except CallFault (RemoteCam γ × CamAnswer) :=
  if image.color ∈ validColors ∧ numImages.toNat < vcamNumBuffers then
    if calloc then
      if numImages = 0 ∨ room then
        let img : VisionCamImages := ⟨image.width, image.height, image.color, numImages, port⟩
        s.statusCall cam packet delivery .useBufs [int32Item 20 img.bytes] []
      else .error .blocked
    else .ok (s, ⟨statusNotEnoughMemory, []⟩)
  else .ok (s, ⟨statusInvalidParameter, []⟩)

/-- `SocketVisionCam::releaseBuffers`. It calls `StopThread` when the server has answered. -/
def releaseBuffers (stops : Bool) : Except CallFault (RemoteCam γ × CamAnswer) := do
  let r ← s.call cam packet delivery .rlsBufs [] [wordItem statusSuccess]
  if r.2.1 ∧ stops = false then .error .blocked else return (r.1, ⟨status r, []⟩)

/-- `SocketVisionCam::setParameter`. -/
def setParameter (paramId : BitVec 32) (param : List UInt8) :
    Except CallFault (RemoteCam γ × CamAnswer) :=
  if paramId = socketVcamParamHostname then
    .ok ({ s with hostname := strncpy s.hostname param (min param.length maxPath) },
      ⟨statusSuccess, param⟩)
  else s.statusCall cam packet delivery .setParams [wordItem paramId, paramItem param] param

/-- `SocketVisionCam::getParameter`. -/
def getParameter (paramId : BitVec 32) (param : List UInt8) :
    Except CallFault (RemoteCam γ × CamAnswer) :=
  if paramId = socketVcamParamHostname then
    .ok (s, ⟨statusSuccess, strncpy param s.hostname (min param.length maxPath)⟩)
  else do
    let size : RpcSocketItem Memory :=
      { wordItem (BitVec.ofNat 32 param.length) with type := 5 }
    let r ← s.call cam packet delivery .getParams [wordItem paramId, size] [wordItem statusSuccess, paramItem param]
    return (r.1, ⟨status r, bytesAt (r.2.2 1) param.length⟩)

/-- A call of the client, with what becomes of its packets. -/
def step (s : RemoteCam γ) : CamCall × Delivery → Except CallFault (RemoteCam γ × CamAnswer)
  | (.init connects, delivery) => s.init cam packet delivery connects
  | (.deinit, delivery) => s.deinit cam packet delivery
  | (.useBuffers image numImages port calloc room, delivery) =>
    s.useBuffers cam packet delivery image numImages port calloc room
  | (.releaseBuffers stops, delivery) => s.releaseBuffers cam packet delivery stops
  | (.flushBuffers, delivery) => s.statusCall cam packet delivery .flushBufs [] []
  | (.sendCommand cmdId param, delivery) =>
    s.statusCall cam packet delivery .sendCmd [wordItem cmdId, paramItem param.val] param.val
  | (.setParameter paramId param, delivery) => s.setParameter cam packet delivery paramId param.val
  | (.getParameter paramId param, delivery) => s.getParameter cam packet delivery paramId param.val

end RemoteCam

end DVP.Remote
