import DVP.Lib.Run
import DVP.Remote.Calls

/-!
# The remote camera is the camera of the server

`RemoteCam.direct` says what a call does without packets: it makes the calls of the server on its camera.

* `remote_direct_iff`: every call of a run returns what the camera of the server answers to these calls, leaves the camera
  as they do and the connection whole, and the server accesses nothing outside its buffers, exactly when the
  server has a camera, the connection carries each call that uses it, nothing blocks, no call asks for a second
  connection or reads more than a packet holds, and none asks for the dimensions in too few bytes.
-/

namespace DVP.Remote

open Bytes DVP.Sosal DVP.VisionCam

attribute [local instance] DVP.Kgraph.lawfulBEq_fourcc

/-! ## What is expected -/

/-- How many bytes from `param` a packet holds, next to a number. -/
def maxParam : Nat := rpcSocketMaxPacket - 52

section Direct

variable {γ : Type} (cam : VisionCam γ) (s : RemoteCam γ)

/-- A call that the camera answers with `r` while the server is in the state `t`. -/
def RemoteCam.reach (t : ServerVisionCam γ) (r : γ × BitVec 32) (param : List UInt8) :
    RemoteCam γ × CamAnswer :=
  ({ s with server := { t with pCam := some r.1 } }, ⟨r.2, param⟩)

/-- A call that hands the bytes from `param` to the camera. It does not when they are too many. -/
def RemoteCam.hand (r : γ × BitVec 32) (param : List UInt8) : RemoteCam γ × CamAnswer :=
  if param.length ≤ maxParam then s.reach s.server r param else (s, ⟨statusNoResources, param⟩)

/-- A call, with the state of the camera: `init`, `deinit` and `releaseBuffers` are the calls of `initCalls`,
`deinitCalls` and `releaseBuffersCalls`, `useBuffers` passes the images of the server, and the others call the function
of the camera. -/
def RemoteCam.direct (c : γ) : CamCall → RemoteCam γ × CamAnswer
  | .init connects =>
    if connects then { s with client := .open }.reach s.server (initCalls cam c) []
    else ({ s with client := .none }, ⟨statusNoResources, []⟩)
  | .deinit => { s with client := .none }.reach s.server (deinitCalls cam c) []
  | .useBuffers image numImages port calloc _ =>
    if image.color ∈ validColors ∧ numImages.toNat < vcamNumBuffers then
      if calloc then
        let t := { s.server with img := ⟨image.width, image.height, image.color, numImages, port⟩ }
        s.reach t (cam.useBuffers c t.images port) []
      else (s, ⟨statusNotEnoughMemory, []⟩)
    else (s, ⟨statusInvalidParameter, []⟩)
  | .releaseBuffers _ => s.reach s.server (releaseBuffersCalls cam c) []
  | .flushBuffers => s.reach s.server (cam.flushBuffers c vcamPortPreview) []
  | .sendCommand cmdId param => s.hand (cam.sendCommand c cmdId param.val vcamPortPreview) param.val
  | .setParameter paramId param =>
    if paramId = socketVcamParamHostname then
      ({ s with hostname := strncpy s.hostname param.val (min param.val.length maxPath) },
        ⟨statusSuccess, param.val⟩)
    else s.hand (cam.setParameter c paramId param.val vcamPortPreview) param.val
  | .getParameter paramId param =>
    if paramId = socketVcamParamHostname then
      (s, ⟨statusSuccess, strncpy param.val s.hostname (min param.val.length maxPath)⟩)
    else
      let (c, status, bytes) :=
        cam.getParameter c paramId (List.replicate param.val.length 0) vcamPortPreview
      s.reach (s.server.remember paramId bytes) (c, status) bytes

/-- What is expected of a call, whatever becomes of its packets: it is the calls of the server on its camera. -/
def Direct (s : RemoteCam γ) (o : CamCall × Delivery) (r : CamAnswer) (s' : RemoteCam γ) : Prop :=
  ∃ c, s.server.pCam = some c ∧ (s', r) = s.direct cam c o.1 ∧ s'.server.outside = false

end Direct

variable {γ : Type} {cam : VisionCam γ} {packet : Memory} {delivery : Delivery} {s s' : RemoteCam γ} {o : CamCall}

/-- The call returns with what the server has answered, if it uses the connection at all. -/
def Answered (s : RemoteCam γ) (delivery : Delivery) : CamCall → Prop
  | .init connects => s.client ≠ .open ∧ (connects = true → delivery = .complete)
  | .useBuffers image numImages _ calloc room =>
    (image.color ∈ validColors ∧ numImages.toNat < vcamNumBuffers) ∧ calloc = true →
      (numImages = 0 ∨ room = true) ∧ Works s delivery
  | .releaseBuffers stops => Works s delivery ∧ stops = true
  | .sendCommand _ param => s.client ≠ .none ∧ (param.val.length ≤ maxParam → Works s delivery)
  | .setParameter paramId param =>
    paramId ≠ socketVcamParamHostname →
      s.client ≠ .none ∧ (param.val.length ≤ maxParam → Works s delivery)
  | .getParameter paramId param =>
    paramId ≠ socketVcamParamHostname → Works s delivery ∧ param.val.length ≤ maxParam
  | .deinit | .flushBuffers => Works s delivery

/-- The server finds the dimensions in the bytes that it asks for. -/
def Inside : CamCall → Prop
  | .getParameter paramId param => paramId = vcamParam2DBufferDim → visionCamResTypeSize ≤ param.val.length
  | _ => True

/-- The call reaches a camera and returns. -/
def Carried (s : RemoteCam γ) (o : CamCall × Delivery) : Prop :=
  s.server.pCam.isSome ∧ Answered s o.2 o.1 ∧ Inside o.1

/-! ## The functions of the server -/

section Server

variable {t : ServerVisionCam γ} {c : γ} {params : List (RpcSocketItem (Option Memory))}
  {id : BitVec 32} {param : List UInt8}

/-- A function without parameters makes its calls. -/
theorem serverPlain_eq (g : γ → γ × BitVec 32) (hcam : t.pCam = some c) (h : List.Forall₂ ItemMatches [] params) :
    serverPlain g t params = acceptStatus t (g c) := by
  cases h
  unfold serverPlain
  rw [hcam]

/-- A function with a number and some bytes passes them on. -/
theorem serverWrite_eq (g : γ → BitVec 32 → List UInt8 → γ × BitVec 32) (hcam : t.pCam = some c)
    (hparam : param.length < 2 ^ 32)
    (h : List.Forall₂ ItemMatches [wordItem id, paramItem param] params) :
    serverWrite g t params = acceptStatus t (g c id param) := by
  obtain _ | @⟨_, p, _, _, hp, _ | @⟨_, q, _, _, hq, _ | _⟩⟩ := h
  unfold serverWrite
  rw [hcam]
  dsimp only
  rw [if_pos ⟨hp.numElements, hp.sizeElement⟩, word_of_matches hp, hq.data, data_paramItem hparam]

/-- `useBuffers` passes the images of the server. -/
theorem serverUseBuffers_eq {img : VisionCamImages} (hcam : t.pCam = some c)
    (hcount : img.count.toNat < vcamNumBuffers)
    (h : List.Forall₂ ItemMatches [int32Item 20 img.bytes] params) :
    serverUseBuffers cam t params =
      acceptStatus { t with img := img } (cam.useBuffers c { t with img := img }.images img.port) := by
  obtain _ | @⟨_, p, _, _, hp, _ | _⟩ := h
  have hroom : decide (vcamNumBuffers < img.count.toNat) = false :=
    decide_eq_false (Nat.not_lt_of_lt hcount)
  unfold serverUseBuffers
  rw [hcam]
  dsimp only
  rw [if_pos ⟨hp.numElements, hp.sizeElement⟩, ofItem_of_matches hp, hroom, Bool.or_false]

/-- The number of bytes that `getParameter` asks for. -/
def sizeItem (n : Nat) : RpcSocketItem Memory := { wordItem (BitVec.ofNat 32 n) with type := 5 }

/-- `getParameter` returns the bytes that the camera has written, and remembers dimensions. -/
theorem serverGetParameter_eq {n : Nat} (hcam : t.pCam = some c) (hn : n < 2 ^ 32)
    (h : List.Forall₂ ItemMatches [wordItem id, sizeItem n] params) :
    serverGetParameter cam t params =
      let r := cam.getParameter c id (List.replicate n 0) vcamPortPreview
      ({ t.remember id r.2.2 with pCam := some r.1 }, true,
        ⟨[wordItem r.2.1, ⟨0, 0, 1, BitVec.ofNat 32 n, streamMemory r.2.2⟩], show 2 ≤ 10 by decide⟩) := by
  obtain _ | @⟨_, p, _, _, hp, _ | @⟨_, q, _, _, hq, _ | _⟩⟩ := h
  have hsize : (BitVec.ofNat 32 n).toNat = n := by rw [BitVec.toNat_ofNat, Nat.mod_eq_of_lt hn]
  have hpointer : q.item.isNone = false := isNone_of_matches hq (show 4 * 1 ≠ 0 by decide)
  obtain ⟨pCam, img, allocWidth, allocHeight, outside⟩ := t
  obtain rfl : pCam = some c := hcam
  unfold serverGetParameter
  dsimp only
  rw [if_pos ⟨hp.numElements, hp.sizeElement, hq.numElements, hp.sizeElement⟩, word_of_matches hp,
    word_of_matches_type hq, hsize, hpointer, Bool.or_false]

end Server

/-! ## Sizes -/

section Sizes

variable {a b : RpcSocketItem Memory} {n : Nat}

/-- A number and few bytes fit a packet. -/
theorem fits_of_le (ha : a.size = 4) (hb : b.size = n) (h : n ≤ maxParam) : Fits [a, b] := by
  have hmax : n ≤ 1404 := h
  change 16 + (16 + a.size + (16 + b.size + 0)) ≤ 1456
  omega

/-- A number and more bytes do not. -/
theorem rejects_of_lt (ha : a.dataSize.toNat = 4) (hb : b.dataSize.toNat = n) (h : maxParam < n)
    (hn : n + 52 < 2 ^ 32) : RejectsFrom 16 [a, b] := by
  have hmax : 1404 < n := h
  have hroom : 16 + 16 + a.dataSize.toNat ≤ rpcSocketMaxPacket := by
    rw [ha]
    decide
  have hbeyond : ¬16 + 16 + a.dataSize.toNat + 16 + b.dataSize.toNat ≤ rpcSocketMaxPacket := by
    change ¬_ ≤ 1456
    omega
  rw [RejectsFrom, if_pos hroom, RejectsFrom, if_neg hbeyond, ha, hb]
  change 1456 < _
  omega

/-- The request of `getParameter` fits a packet. -/
theorem fits_getParameter (id : BitVec 32) (n : Nat) : Fits [wordItem id, sizeItem n] := by
  change 16 + (16 + 4 * 1 + (16 + 4 * 1 + 0)) ≤ 1456
  decide

/-- The request of `useBuffers` fits a packet. -/
theorem fits_images {img : VisionCamImages} : Fits [int32Item 20 img.bytes] := by
  change 16 + (16 + 20 * 1 + 0) ≤ 1456
  decide

/-- The size of some bytes is their number. -/
theorem size_bytes {type : BitVec 32} {m : Memory} (hn : n < 2 ^ 32) :
    (⟨0, type, 1, BitVec.ofNat 32 n, m⟩ : RpcSocketItem Memory).size = n := by
  change 1 * (BitVec.ofNat 32 n).toNat = n
  rw [Nat.one_mul, BitVec.toNat_ofNat, Nat.mod_eq_of_lt hn]

/-- The number does not wrap. -/
theorem dataSize_bytes {type : BitVec 32} {m : Memory} (hn : n < 2 ^ 32) :
    (⟨0, type, 1, BitVec.ofNat 32 n, m⟩ : RpcSocketItem Memory).dataSize.toNat = n := by
  rw [dataSize_toNat, size_bytes hn, Nat.mod_eq_of_lt hn]

end Sizes

/-! ## Calls that are answered -/

section Answered

variable {t : ServerVisionCam γ} {c : γ} {f : VisionCamFunction} {items : List (RpcSocketItem Memory)}
  {r : γ × BitVec 32} {param : List UInt8}

/-- A status fits a packet. -/
theorem fits_wordItem {n : BitVec 32} : Fits [wordItem n] := by
  change 16 + (16 + 4 * 1 + 0) ≤ 1456
  decide

/-- A request without items fits a packet. -/
theorem fits_nil : Fits ([] : List (RpcSocketItem Memory)) := by decide

/-- A function that returns a status reaches the camera, and the caller gets the status. -/
theorem call_status (packet : Memory) (hworks : Works s delivery) (hfits : Fits items)
    (hcount : items.length ≤ rpcSocketMaxArgs)
    (hf : ∀ params, List.Forall₂ ItemMatches items params → f.server cam s.server params = acceptStatus t r) :
    ∃ rets', word (rets' 0) = r.2 ∧
      s.call cam packet delivery f items [wordItem statusSuccess] =
        .ok ({ s with server := { t with pCam := some r.1 } }, true, rets') := by
  obtain ⟨hopen, rfl⟩ := hworks
  obtain ⟨rets', hrets, hcall⟩ :=
    call_of_accepts packet [wordItem statusSuccess] hopen hfits hcount hf fits_wordItem
  exact ⟨rets', word_of_matches (hrets 0 Nat.one_pos), hcall⟩

/-- The functions that return a status alone. -/
theorem statusCall_eq (hworks : Works s delivery) (hfits : Fits items) (hcount : items.length ≤ rpcSocketMaxArgs)
    (hf : ∀ params, List.Forall₂ ItemMatches items params → f.server cam s.server params = acceptStatus t r) :
    s.statusCall cam packet delivery f items param = .ok (s.reach t r param) := by
  obtain ⟨rets', hstatus, hcall⟩ := call_status packet hworks hfits hcount hf
  rw [RemoteCam.statusCall, RemoteCam.reach, hcall, ← hstatus]
  rfl

/-- Bytes from `param` reach the camera, unless they are too many. -/
theorem statusCall_write (hclient : s.client ≠ .none) (hworks : param.length ≤ maxParam → Works s delivery)
    {id : BitVec 32} (hparam : param.length + 52 < 2 ^ 32)
    (hf : ∀ params, List.Forall₂ ItemMatches [wordItem id, paramItem param] params →
      f.server cam s.server params = acceptStatus s.server r) :
    s.statusCall cam packet delivery f [wordItem id, paramItem param] param = .ok (s.hand r param) := by
  have hlt : param.length < 2 ^ 32 := by omega
  rw [RemoteCam.hand]
  split
  · next hle =>
    exact statusCall_eq (hworks hle) (fits_of_le rfl (size_bytes hlt) hle) (show 2 ≤ 10 by decide) hf
  · next hlong =>
    have hrejects : RejectsFrom 16 [wordItem id, paramItem param] :=
      rejects_of_lt rfl (dataSize_paramItem hlt) (Nat.lt_of_not_le hlong) hparam
    rw [RemoteCam.statusCall, call_of_rejects hclient hrejects]
    rfl

section GetParameter

/-- Other parameters than the name of the host are asked for at the server. -/
theorem getParameter_of_ne {id : BitVec 32} (hid : id ≠ socketVcamParamHostname) :
    s.getParameter cam packet delivery id param =
      (s.call cam packet delivery .getParams [wordItem id, sizeItem param.length]
          [wordItem statusSuccess, paramItem param] >>=
        fun r => pure (r.1, ⟨RemoteCam.status r, bytesAt (r.2.2 1) param.length⟩)) :=
  if_neg hid

variable {id : BitVec 32} (hcam : s.server.pCam = some c) (hid : id ≠ socketVcamParamHostname)
  (hparam : param.length + 52 < 2 ^ 32)

include hcam hparam

/-- The function of the server for `getParameter` returns the bytes that the camera has written. -/
theorem accepts_getParameter {params : List (RpcSocketItem (Option Memory))}
    (h : List.Forall₂ ItemMatches [wordItem id, sizeItem param.length] params) :
    VisionCamFunction.getParams.server cam s.server params =
      let r := cam.getParameter c id (List.replicate param.length 0) vcamPortPreview
      ({ s.server.remember id r.2.2 with pCam := some r.1 }, true,
        ⟨[wordItem r.2.1, ⟨0, 0, 1, BitVec.ofNat 32 param.length, streamMemory r.2.2⟩],
          show 2 ≤ 10 by decide⟩) :=
  serverGetParameter_eq hcam (by omega) h

include hid

/-- The bytes that the camera has written reach the caller. -/
theorem getParameter_eq (hworks : Works s delivery) (hle : param.length ≤ maxParam) :
    s.getParameter cam packet delivery id param =
      let r := cam.getParameter c id (List.replicate param.length 0) vcamPortPreview
      .ok (s.reach (s.server.remember id r.2.2) (r.1, r.2.1) r.2.2) := by
  obtain ⟨hopen, rfl⟩ := hworks
  have hlt : param.length < 2 ^ 32 := by omega
  obtain ⟨rets', hrets, hcall⟩ := call_of_accepts packet [wordItem statusSuccess, paramItem param] hopen
    (fits_getParameter id param.length) (show 2 ≤ 10 by decide) (fun params h => accepts_getParameter hcam hparam h)
    (fits_of_le rfl (size_bytes hlt) hle)
  -- The camera has written as many bytes as there are.
  have hlength := cam.length_getParameter c id (List.replicate param.length 0) vcamPortPreview
  rw [List.length_replicate] at hlength
  rw [getParameter_of_ne hid]
  dsimp only
  generalize cam.getParameter c id (List.replicate param.length 0) vcamPortPreview = r at hlength hrets hcall ⊢
  have hstatus : word (rets' 0) = r.2.1 := word_of_matches (hrets 0 (show 0 < 2 by decide))
  have hbytes : bytesAt (rets' 1) param.length = r.2.2 := by
    let item : RpcSocketItem Memory := ⟨0, 0, 1, BitVec.ofNat 32 param.length, streamMemory r.2.2⟩
    have hsize : item.dataSize.toNat = param.length := dataSize_bytes hlt
    have hdata : item.data = r.2.2 := data_eq rfl (hsize.trans hlength.symm)
    have hall : bytesAt (rets' 1) item.dataSize.toNat = item.data :=
      bytesAt_all (hrets 1 (show 1 < 2 by decide))
    rwa [hsize, hdata] at hall
  rw [hcall, RemoteCam.reach, ← hstatus, ← hbytes]
  rfl

/-- Bytes that are too many for a packet do not come back. -/
theorem getParameter_unanswered (hworks : Works s delivery) (hlong : maxParam < param.length) :
    s.getParameter cam packet delivery id param = .error .unanswered := by
  obtain ⟨hopen, rfl⟩ := hworks
  have hreply : RejectsFrom 16 [wordItem
      (cam.getParameter c id (List.replicate param.length 0) vcamPortPreview).2.1,
      ⟨0, 0, 1, BitVec.ofNat 32 param.length,
        streamMemory (cam.getParameter c id (List.replicate param.length 0) vcamPortPreview).2.2⟩] :=
    rejects_of_lt rfl (dataSize_bytes (by omega)) hlong hparam
  have hcall := call_of_reply_rejected packet [wordItem statusSuccess, paramItem param] hopen
    (fits_getParameter id param.length) (show 2 ≤ 10 by decide)
    (fun params h => accepts_getParameter hcam hparam h) hreply
  rw [getParameter_of_ne hid, hcall]
  rfl

end GetParameter

/-- `deinit` reaches the camera, and closes the connection. -/
theorem deinit_eq (hcam : s.server.pCam = some c) (hworks : Works s delivery) :
    s.deinit cam packet delivery = .ok (s.direct cam c .deinit) := by
  obtain ⟨rets', hstatus, hcall⟩ := call_status (f := .deinit) packet hworks fits_nil (Nat.zero_le _)
    fun params h => serverPlain_eq (deinitCalls cam) hcam h
  rw [RemoteCam.deinit, RemoteCam.direct, RemoteCam.reach, hcall, ← hstatus]
  rfl

/-- `releaseBuffers` reaches the camera, and returns when `RunThread` has stopped. -/
theorem releaseBuffers_eq (hcam : s.server.pCam = some c) (hworks : Works s delivery) :
    s.releaseBuffers cam packet delivery true = .ok (s.direct cam c (.releaseBuffers true)) := by
  obtain ⟨rets', hstatus, hcall⟩ := call_status (f := .rlsBufs) packet hworks fits_nil (Nat.zero_le _)
    fun params h => serverPlain_eq (releaseBuffersCalls cam) hcam h
  rw [RemoteCam.releaseBuffers, RemoteCam.direct, RemoteCam.reach, hcall, ← hstatus]
  rfl

/-- A call that is answered is the calls of the server on its camera. -/
theorem step_eq (hcam : s.server.pCam = some c) (ho : Answered s delivery o) :
    s.step cam packet (o, delivery) = .ok (s.direct cam c o) := by
  cases o with
  | init connects =>
    rw [RemoteCam.step, RemoteCam.init, if_neg ho.1, RemoteCam.direct]
    split
    · next hconnects =>
      exact statusCall_eq (s := { s with client := .open }) ⟨rfl, ho.2 hconnects⟩ fits_nil (Nat.zero_le _)
        fun params h => serverPlain_eq (initCalls cam) hcam h
    · rfl
  | deinit => exact deinit_eq hcam ho
  | useBuffers image numImages port calloc room =>
    rw [RemoteCam.step, RemoteCam.useBuffers, RemoteCam.direct]
    split
    · next hvalid =>
      split
      · next hcalloc =>
        obtain ⟨hroom, hworks⟩ := ho ⟨hvalid, hcalloc⟩
        rw [if_pos hroom]
        exact statusCall_eq hworks fits_images (show 1 ≤ 10 by decide)
          fun params h => serverUseBuffers_eq hcam hvalid.2 h
      · rfl
    · rfl
  | releaseBuffers stops =>
    obtain ⟨hworks, rfl⟩ := ho
    exact releaseBuffers_eq hcam hworks
  | flushBuffers =>
    exact statusCall_eq ho fits_nil (Nat.zero_le _)
      fun params h => serverPlain_eq (cam.flushBuffers · vcamPortPreview) hcam h
  | sendCommand cmdId param =>
    obtain ⟨param, hparam⟩ := param
    have hlt : param.length < 2 ^ 32 := by omega
    exact statusCall_write ho.1 ho.2 hparam
      fun params h => serverWrite_eq (fun c id param => cam.sendCommand c id param vcamPortPreview) hcam hlt h
  | setParameter paramId param =>
    obtain ⟨param, hparam⟩ := param
    rw [RemoteCam.step, RemoteCam.setParameter, RemoteCam.direct]
    split
    · rfl
    · next hid =>
      have hlt : param.length < 2 ^ 32 := by omega
      exact statusCall_write (ho hid).1 (ho hid).2 hparam
        fun params h => serverWrite_eq (fun c id param => cam.setParameter c id param vcamPortPreview) hcam hlt h
  | getParameter paramId param =>
    obtain ⟨param, hparam⟩ := param
    rw [RemoteCam.step, RemoteCam.direct]
    split
    · next hid => rw [RemoteCam.getParameter, if_pos hid]
    · next hid => exact getParameter_eq hcam hid hparam (ho hid).1 (ho hid).2

end Answered

/-! ## Calls that are not answered -/

section Broken

variable {c : γ} {f : VisionCamFunction} {items : List (RpcSocketItem Memory)} {param : List UInt8}
  {t : RemoteCam γ} {a : CamAnswer}

/-- The connection that a call is not carried on fails. -/
theorem statusCall_broken (hfits : Fits items) (hbroken : ¬Works s delivery)
    (h : s.statusCall cam packet delivery f items param = .ok (t, a)) : s.client = .open ∧ t.client = .closed := by
  obtain ⟨s', rets', hopen, hclosed, hk⟩ := bind_call_of_broken hfits hbroken h
  cases hk
  exact ⟨hopen, hclosed⟩

/-- Bytes that fit a packet go over the connection. -/
theorem statusCall_write_broken {id : BitVec 32} (hparam : param.length + 52 < 2 ^ 32)
    (hnot : ¬(s.client ≠ .none ∧ (param.length ≤ maxParam → Works s delivery)))
    (h : s.statusCall cam packet delivery f [wordItem id, paramItem param] param = .ok (t, a)) :
    s.client = .open ∧ t.client = .closed := by
  have hlt : param.length < 2 ^ 32 := by omega
  by_cases hclient : s.client = .none
  · rw [RemoteCam.statusCall, call_of_noClient hclient] at h
    cases h
  · obtain ⟨hle, hbroken⟩ := Classical.not_imp.mp fun himp => hnot ⟨hclient, himp⟩
    exact statusCall_broken (fits_of_le rfl (size_bytes hlt) hle) hbroken h

/-- A call that is not answered does not return, or has used a connection that fails. -/
theorem step_broken (hcam : s.server.pCam = some c) (ho : ¬Answered s delivery o)
    (h : s.step cam packet (o, delivery) = .ok (t, a)) :
    t.client = .closed ∧ (s.client = .open ∨ ∃ connects, o = .init connects) := by
  cases o with
  | init connects =>
    refine ⟨?_, .inr ⟨connects, rfl⟩⟩
    rw [RemoteCam.step, RemoteCam.init] at h
    split at h
    · cases h
    · next hclient =>
      obtain ⟨hconnects, hdelivery⟩ := Classical.not_imp.mp fun himp => ho ⟨hclient, himp⟩
      rw [if_pos hconnects] at h
      exact (statusCall_broken fits_nil (fun hworks => hdelivery hworks.2) h).2
  | deinit =>
    obtain ⟨s', rets', hopen, hclosed, hk⟩ := bind_call_of_broken fits_nil ho h
    -- The call returned `false_e`, so that `m_client` is still there.
    cases hk
    exact ⟨hclosed, .inl hopen⟩
  | useBuffers image numImages port calloc room =>
    obtain ⟨⟨hvalid, hcalloc⟩, hnot⟩ := Classical.not_imp.mp ho
    rw [RemoteCam.step, RemoteCam.useBuffers, if_pos hvalid, if_pos hcalloc] at h
    split at h
    · next hroom =>
      obtain ⟨hopen, hclosed⟩ := statusCall_broken fits_images (fun hworks => hnot ⟨hroom, hworks⟩) h
      exact ⟨hclosed, .inl hopen⟩
    · cases h
  | releaseBuffers stops =>
    rw [RemoteCam.step, RemoteCam.releaseBuffers] at h
    by_cases hworks : Works s delivery
    · -- The server has answered, and `RunThread` does not stop.
      have hstops : stops = false := Bool.eq_false_of_not_eq_true fun hstops => ho ⟨hworks, hstops⟩
      obtain ⟨rets', -, hcall⟩ := call_status (f := .rlsBufs) packet hworks fits_nil (Nat.zero_le _)
        fun params h => serverPlain_eq (releaseBuffersCalls cam) hcam h
      rw [hcall] at h
      subst hstops
      cases h
    · obtain ⟨s', rets', hopen, hclosed, hk⟩ := bind_call_of_broken fits_nil hworks h
      cases hk
      exact ⟨hclosed, .inl hopen⟩
  | flushBuffers =>
    obtain ⟨hopen, hclosed⟩ := statusCall_broken fits_nil ho h
    exact ⟨hclosed, .inl hopen⟩
  | sendCommand cmdId param =>
    obtain ⟨hopen, hclosed⟩ := statusCall_write_broken param.property ho h
    exact ⟨hclosed, .inl hopen⟩
  | setParameter paramId param =>
    obtain ⟨hid, hnot⟩ := Classical.not_imp.mp ho
    rw [RemoteCam.step, RemoteCam.setParameter, if_neg hid] at h
    obtain ⟨hopen, hclosed⟩ := statusCall_write_broken param.property hnot h
    exact ⟨hclosed, .inl hopen⟩
  | getParameter paramId param =>
    obtain ⟨hid, hnot⟩ := Classical.not_imp.mp ho
    rw [RemoteCam.step] at h
    by_cases hworks : Works s delivery
    · -- The camera answers, and the answer does not fit.
      have hlong : maxParam < param.val.length := Nat.lt_of_not_le fun hle => hnot ⟨hworks, hle⟩
      rw [getParameter_unanswered hcam hid param.property hworks hlong] at h
      cases h
    · rw [getParameter_of_ne hid] at h
      obtain ⟨s', rets', hopen, hclosed, hk⟩ :=
        bind_call_of_broken (fits_getParameter paramId _) hworks h
      cases hk
      exact ⟨hclosed, .inl hopen⟩

/-- The calls of the server leave the connection whole. -/
theorem client_direct (hclient : s.client = .open ∨ ∃ connects, o = .init connects) :
    (s.direct cam c o).1.client ≠ .closed := by
  -- all calls but `init` have found the connection open
  have hopen : (∀ connects, o ≠ .init connects) → s.client ≠ .closed := fun hinit hclosed => by
    obtain h | ⟨connects, h⟩ := hclient
    · rw [hclosed] at h
      cases h
    · exact hinit connects h
  cases o with
  | init connects =>
    rw [RemoteCam.direct]
    split
    · exact fun h => by cases h
    · exact fun h => by cases h
  | deinit => exact fun h => by cases h
  | useBuffers image numImages port calloc room =>
    rw [RemoteCam.direct]
    split
    · split
      · exact hopen nofun
      · exact hopen nofun
    · exact hopen nofun
  | releaseBuffers stops => exact hopen nofun
  | flushBuffers => exact hopen nofun
  | sendCommand cmdId param =>
    rw [RemoteCam.direct, RemoteCam.hand]
    split
    · exact hopen nofun
    · exact hopen nofun
  | setParameter paramId param =>
    rw [RemoteCam.direct, RemoteCam.hand]
    split
    · exact hopen nofun
    · split
      · exact hopen nofun
      · exact hopen nofun
  | getParameter paramId param =>
    rw [RemoteCam.direct]
    split
    · exact hopen nofun
    · exact hopen nofun

/-- A call that is not answered is not the calls of the server. -/
theorem step_ne_direct (packet : Memory) (hcam : s.server.pCam = some c) (ho : ¬Answered s delivery o) :
    s.step cam packet (o, delivery) ≠ .ok (s.direct cam c o) := fun h => by
  obtain ⟨hclosed, hclient⟩ := step_broken hcam ho h
  exact client_direct hclient hclosed

end Broken

/-! ## The main result -/

/-- Bytes that are handed to the camera do not make the server leave its buffers. -/
theorem outside_hand {r : γ × BitVec 32} {param : List UInt8} :
    (s.hand r param).1.server.outside = s.server.outside := by
  rw [RemoteCam.hand]
  split
  · rfl
  · rfl

/-- The server stays inside of its buffers when it finds the dimensions. -/
theorem outside_remember {t : ServerVisionCam γ} {id : BitVec 32} {bytes : List UInt8}
    (h : id = vcamParam2DBufferDim → visionCamResTypeSize ≤ bytes.length) :
    (t.remember id bytes).outside = t.outside := by
  rw [ServerVisionCam.remember]
  split
  · next hid =>
    change (t.outside || decide (bytes.length < visionCamResTypeSize)) = t.outside
    rw [decide_eq_false (Nat.not_lt_of_le (h hid)), Bool.or_false]
  · rfl

/-- No call makes the server leave its buffers when there is room for the dimensions. -/
theorem outside_direct {c : γ} (ho : Inside o) : (s.direct cam c o).1.server.outside = s.server.outside := by
  cases o with
  | init connects =>
    rw [RemoteCam.direct]
    split
    · rfl
    · rfl
  | deinit => rfl
  | useBuffers image numImages port calloc room =>
    rw [RemoteCam.direct]
    split
    · split
      · rfl
      · rfl
    · rfl
  | releaseBuffers stops => rfl
  | flushBuffers => rfl
  | sendCommand cmdId param => exact outside_hand
  | setParameter paramId param =>
    rw [RemoteCam.direct]
    split
    · rfl
    · exact outside_hand
  | getParameter paramId param =>
    rw [RemoteCam.direct]
    split
    · rfl
    · refine outside_remember fun hid => ?_
      rw [cam.length_getParameter, List.length_replicate]
      exact ho hid

/-- Without room for the dimensions the server reads beyond `m_param`. -/
theorem outside_of_not_inside {c : γ} (ho : ¬Inside o) : (s.direct cam c o).1.server.outside = true := by
  cases o with
  | getParameter paramId param =>
    obtain ⟨hid, hshort⟩ := Classical.not_imp.mp ho
    have hhost : paramId ≠ socketVcamParamHostname := by
      rw [hid]
      decide
    have hlt : param.val.length < visionCamResTypeSize := Nat.lt_of_not_le hshort
    rw [RemoteCam.direct, if_neg hhost]
    dsimp only
    rw [RemoteCam.reach]
    dsimp only
    rw [ServerVisionCam.remember, if_pos hid]
    dsimp only
    rw [cam.length_getParameter, List.length_replicate, decide_eq_true hlt, Bool.or_true]
  | _ => exact absurd trivial ho

/-- A client that was just made, and a server that has a camera or could not make one. -/
def RemoteCam.started (pCam : Option γ) (hostname : List UInt8) : RemoteCam γ where
  hostname := hostname
  client := .none
  server := ⟨pCam, ⟨0, 0, 0, 0, 0⟩, 0, 0, false⟩

/-- Every call of a run is the calls of the server on its camera, and the server stays inside of its buffers, exactly
when every call is carried. -/
theorem remote_direct_iff (cam : VisionCam γ) (packet : Memory) (pCam : Option γ) (hostname : List UInt8)
    (calls : List (CamCall × Delivery)) :
    Machine.EachStep (RemoteCam.step cam packet) (Direct cam) (.started pCam hostname) calls ↔
      Machine.Meets (RemoteCam.step cam packet) Carried (.started pCam hostname) calls := by
  refine Machine.eachStep_iff_meets (I := fun s => s.server.outside = false) ?_ ?_ rfl
  · rintro s ⟨o, delivery⟩ hinside ⟨hsome, hanswered, ho⟩
    obtain ⟨c, hcam⟩ := Option.isSome_iff_exists.mp hsome
    have hafter : (s.direct cam c o).1.server.outside = false := (outside_direct ho).trans hinside
    exact ⟨_, _, step_eq hcam hanswered, ⟨c, hcam, rfl, hafter⟩, hafter⟩
  · rintro s ⟨o, delivery⟩ s' r - hnot hstep ⟨c, hcam, heq, hafter⟩
    rw [heq] at hstep
    by_cases hanswered : Answered s delivery o
    · have ho : ¬Inside o := fun ho => hnot ⟨Option.isSome_iff_exists.mpr ⟨c, hcam⟩, hanswered, ho⟩
      have hs' : s' = (s.direct cam c o).1 := congrArg Prod.fst heq
      rw [hs', outside_of_not_inside ho] at hafter
      cases hafter
    · exact step_ne_direct packet hcam hanswered hstep

end DVP.Remote
