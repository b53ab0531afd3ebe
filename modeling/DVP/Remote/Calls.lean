import DVP.Remote.Basic
import Mathlib.Data.List.Forall2

/-!
# Calls of the functions of the server

* `call_of_accepts`: a function that accepts its parameters gets what was sent, and the caller gets what it
  returns.
* `call_of_rejects`, `call_of_reply_rejected`: items that do not fit a packet are not sent, and when those of the reply
  do not fit the call does not return.
* `call_of_broken`: a call on a connection that does not carry it returns `false_e`, or not at all.
-/

namespace DVP.Remote

open Bytes DVP.Sosal DVP.VisionCam

/-! ## Items -/

section Items

variable {item : RpcSocketItem Memory} {received : RpcSocketItem (Option Memory)} {bytes : List UInt8}
  {n : BitVec 32} {k : Nat}

theorem data_eq (hitem : item.item = streamMemory bytes) (hsize : item.dataSize.toNat = bytes.length) :
    item.data = bytes := by
  rw [RpcSocketItem.data, hitem, hsize]
  exact peek_streamMemory

theorem data_wordItem : (wordItem n).data = unitBytes n := data_eq rfl rfl

theorem dataSize_paramItem (h : bytes.length < 2 ^ 32) : (paramItem bytes).dataSize.toNat = bytes.length := by
  have hone : (paramItem bytes).dataSize = BitVec.ofNat 32 bytes.length := BitVec.one_mul _
  rw [hone, BitVec.toNat_ofNat, Nat.mod_eq_of_lt h]

theorem data_paramItem (h : bytes.length < 2 ^ 32) : (paramItem bytes).data = bytes :=
  data_eq rfl (dataSize_paramItem h)

theorem peek_take {m : Memory} {o n : Nat} (h : k ≤ n) : (peek m o n).take k = peek m o k := by
  rw [← Nat.add_sub_of_le h, peek_add]
  exact List.take_left' length_peek

theorem length_data : item.data.length = item.dataSize.toNat := length_peek

/-- What an item that was received points to is what was sent. -/
theorem bytesAt_of_matches (h : ItemMatches item received) (hk : k ≤ item.dataSize.toNat) :
    bytesAt received k = item.data.take k := by
  have hsize : received.dataSize = item.dataSize := by
    rw [RpcSocketItem.dataSize, h.sizeElement, h.numElements]
    rfl
  rw [← h.data, RpcSocketItem.contents, hsize, bytesAt]
  cases hpointer : received.item with
  | none =>
    -- There are no data to read.
    exact List.take_nil.symm
  | some memory => exact (peek_take hk).symm

theorem bytesAt_all (h : ItemMatches item received) : bytesAt received item.dataSize.toNat = item.data := by
  rw [bytesAt_of_matches h (Nat.le_refl _), ← length_data, List.take_length]

theorem word_of_matches (h : ItemMatches (wordItem n) received) : word received = n := by
  have hall : bytesAt received 4 = (wordItem n).data := bytesAt_all h
  rw [word, hall, data_wordItem]
  exact unitOf_unitBytes (by decide) n

/-- The number is what counts, and not its type. -/
theorem word_of_matches_type {type : BitVec 32}
    (h : ItemMatches { wordItem n with type := type } received) : word received = n := by
  have hitem : ItemMatches (wordItem n) { received with type := 4 } :=
    ⟨rfl, h.sizeElement, h.numElements, h.data⟩
  have hword : word { received with type := 4 } = n := word_of_matches hitem
  exact hword

/-- The pointer to a number is not `NULL`. -/
theorem isNone_of_matches (h : ItemMatches item received) (hsize : item.dataSize.toNat ≠ 0) :
    received.item.isNone = false := by
  cases hpointer : received.item with
  | none =>
    have hdata := congrArg List.length h.data
    rw [RpcSocketItem.contents, hpointer, length_data] at hdata
    exact absurd hdata.symm hsize
  | some memory => rfl

/-- The structure is received as it was sent. -/
theorem ofItem_of_matches {img : VisionCamImages} (h : ItemMatches (int32Item 20 img.bytes) received) :
    VisionCamImages.ofItem received = img := by
  have hdata : (int32Item 20 img.bytes).data = img.bytes := data_eq rfl rfl
  have h8 : 8 ∣ 32 := by decide
  have hread : ∀ k ≤ 20, bytesAt received k = img.bytes.take k := fun k hk => by
    rw [bytesAt_of_matches h hk, hdata]
  obtain ⟨width, height, color, count, port⟩ := img
  rw [VisionCamImages.ofItem, hread 4 (by decide), hread 8 (by decide), hread 12 (by decide),
    hread 16 (by decide), hread 20 (by decide)]
  simp only [VisionCamImages.mk.injEq]
  exact ⟨unitOf_unitBytes h8 width, unitOf_unitBytes h8 height, unitOf_unitBytes h8 color,
    unitOf_unitBytes h8 count, unitOf_unitBytes h8 port⟩

end Items

/-! ## Requests -/

variable {γ : Type} {cam : VisionCam γ} {packet : Memory} {s : RemoteCam γ} {f : VisionCamFunction}
  {items rets : List (RpcSocketItem Memory)} {delivery : Delivery} {server' : ServerVisionCam γ}

/-- The function of the server that a client means. -/
def VisionCamFunction.server (cam : VisionCam γ) :
    VisionCamFunction → RpcServerFunction (ServerVisionCam γ)
  | init => serverInit cam
  | deinit => serverDeinit cam
  | setParams => serverSetParameter cam
  | getParams => serverGetParameter cam
  | sendCmd => serverSendCommand cam
  | useBufs => serverUseBuffers cam
  | rlsBufs => serverReleaseBuffers cam
  | flushBufs => serverFlushBuffers cam

/-- The functions of the server have the order of `VisionCamFunction_e`. -/
theorem serverFunctions_code (f : VisionCamFunction) :
    (serverFunctions cam)[f.code.toNat]? = some (some (f.server cam)) := by
  cases f with
  | init => rfl
  | deinit => rfl
  | setParams => rfl
  | getParams => rfl
  | sendCmd => rfl
  | useBufs => rfl
  | rlsBufs => rfl
  | flushBufs => rfl

/-- The parameters are the items that were received. -/
theorem params_matches {request : Received} (hnumItems : request.header.numItems.toNat = items.length)
    (hitems : ∀ (i : Nat) (hi : i < items.length), ItemMatches items[i] (request.items i)) :
    List.Forall₂ ItemMatches items request.params := by
  rw [Received.params, hnumItems]
  refine List.forall₂_of_length_eq_of_get (by simp) fun i hi hi' => ?_
  simp only [List.get_eq_getElem, List.getElem_map, List.getElem_range]
  exact hitems i hi

/-- The function that is meant gets the items that were sent. -/
theorem outcome_received (cam : VisionCam γ) (server' : ServerVisionCam γ) {c : Call} (hfits : Fits c.items)
    (hcount : c.items.length ≤ rpcSocketMaxArgs)
    (hcode : c.function = f.code) :
    ∃ params, List.Forall₂ ItemMatches c.items params ∧
      outcome (serverFunctions cam) server' c.received = some (f.server cam server' params) := by
  obtain ⟨hheader, hitems⟩ := Call.matches_received hfits hcount
  have hnumItems : c.received.header.numItems.toNat = c.items.length := by
    rw [hheader]
    exact packetHeader_numItems hfits
  have hfunction : c.received.header.function = f.code := by
    rw [hheader, ← hcode]
    rfl
  refine ⟨c.received.params, params_matches hnumItems hitems, ?_⟩
  rw [outcome, hfunction, serverFunctions_code]

/-- The items of a request are sent. -/
theorem sent_of_fits (hfits : Fits items) :
    (⟨packet, f.code, items, returnsOf rets, rets.length⟩ : Call).sent =
      some (packetBytes f.code rpcSocketCalling items) :=
  (rpcSocketSend_of_fits f.code rpcSocketCalling hfits packet 16).1

/-- The client of a connection that is open gets what the function returns. -/
theorem call_of_accepts (packet : Memory) (rets : List (RpcSocketItem Memory)) (hopen : s.client = .open)
    (hfits : Fits items) (hcount : items.length ≤ rpcSocketMaxArgs) {returns : Returns}
    (hf : ∀ params, List.Forall₂ ItemMatches items params →
      f.server cam s.server params = (server', true, returns))
    (hreturns : Fits returns.val) :
    ∃ rets', (∀ (i : Nat) (hi : i < returns.val.length), ItemMatches returns.val[i] (rets' i)) ∧
      s.call cam packet .complete f items rets = .ok ({ s with server := server' }, true, rets') := by
  let c : Call := ⟨packet, f.code, items, returnsOf rets, rets.length⟩
  obtain ⟨params, hparams, houtcome⟩ := outcome_received cam s.server (c := c) hfits hcount rfl
  rw [hf params hparams] at houtcome
  have hreply : Fits (replyItems (server', true, returns)) := hreturns
  obtain ⟨bytes, reply, rets', hsent, hrequest, -, hresult, hitems⟩ :=
    Call.answered hfits hcount houtcome hreply
  obtain rfl := Option.some.inj (hsent.symm.trans (sent_of_fits (f := f) hfits))
  have hrecv := recv_request (request_packetBytes hfits hcount f.code rpcSocketCalling) []
  rw [List.append_nil] at hrecv
  obtain ⟨-, -, hnext⟩ := serverRound_of_outcome hrecv houtcome hreply
  refine ⟨rets', hitems, ?_⟩
  rw [RemoteCam.call, hopen]
  rw [hsent]
  dsimp only
  rw [hresult, hnext]

/-- Items that do not fit a packet are not sent. -/
theorem call_of_rejects (hclient : s.client ≠ .none) (hrejects : RejectsFrom 16 items) :
    s.call cam packet delivery f items rets = .ok (s, false, returnsOf rets) := by
  let c : Call := ⟨packet, f.code, items, returnsOf rets, rets.length⟩
  have hsent : c.sent = none := (rpcSocketSend_rejects_iff.mp hrejects).1
  rw [RemoteCam.call]
  rw [hsent]
  cases hconnection : s.client with
  | none => exact absurd hconnection hclient
  | «open» => rfl
  | closed => rfl

/-- Without a client nothing can be called. -/
theorem call_of_noClient (hclient : s.client = .none) :
    s.call cam packet delivery f items rets = .error .noClient := by
  rw [RemoteCam.call, hclient]

/-- The server does not reply when what the function returns does not fit. -/
theorem serverRound_of_reply_rejected {σ : Type} {functions : List (Option (RpcServerFunction σ))} {t : σ}
    {stream : List UInt8} {request : Received} {r : σ × Bool × Returns}
    (hrecv : (rpcSocketRecv stream (fun _ => 0) rpcSocketMaxPacket fun _ => zeroItem).2 = some request)
    (houtcome : outcome functions t request = some r) (hrejects : RejectsFrom 16 (replyItems r)) :
    (serverRound functions t stream).reply = none := by
  rw [outcome] at houtcome
  split at houtcome
  · next function hfunction =>
    cases houtcome
    cases hpair : rpcSocketRecv stream (fun _ => 0) rpcSocketMaxPacket fun _ => zeroItem with
    | mk accesses received =>
      rw [hpair] at hrecv
      subst hrecv
      rw [serverRound, hpair]
      dsimp only
      rw [hfunction]
      exact (rpcSocketSend_rejects_iff.mp hrejects).1
  · cases houtcome

/-- The client waits for a reply that was not sent. -/
theorem call_of_reply_rejected (packet : Memory) (rets : List (RpcSocketItem Memory)) (hopen : s.client = .open)
    (hfits : Fits items) (hcount : items.length ≤ rpcSocketMaxArgs) {returns : Returns}
    (hf : ∀ params, List.Forall₂ ItemMatches items params →
      f.server cam s.server params = (server', true, returns))
    (hrejects : RejectsFrom 16 returns.val) :
    s.call cam packet .complete f items rets = .error .unanswered := by
  let c : Call := ⟨packet, f.code, items, returnsOf rets, rets.length⟩
  obtain ⟨params, hparams, houtcome⟩ := outcome_received cam s.server (c := c) hfits hcount rfl
  rw [hf params hparams] at houtcome
  have hsent : c.sent = some (packetBytes f.code rpcSocketCalling items) := sent_of_fits hfits
  have hrecv := recv_request (request_packetBytes hfits hcount f.code rpcSocketCalling) []
  rw [List.append_nil] at hrecv
  have hreply := serverRound_of_reply_rejected hrecv houtcome hrejects
  obtain ⟨packet', hresult⟩ := c.result_of_some (serverFunctions cam) s.server hsent
  rw [hreply] at hresult
  rw [RemoteCam.call, hopen]
  rw [hsent]
  dsimp only
  rw [hresult]

/-- The connection carries the packets of a call and of its reply. -/
def Works (s : RemoteCam γ) (delivery : Delivery) : Prop := s.client = .open ∧ delivery = .complete

/-- A call that is not carried does not return, or returns `false_e` on a connection that has failed by then. -/
theorem call_of_broken {result : Bool} {s' : RemoteCam γ} {rets' : Nat → RpcSocketItem (Option Memory)}
    (hfits : Fits items) (hbroken : ¬Works s delivery)
    (hcall : s.call cam packet delivery f items rets = .ok (s', result, rets')) :
    s.client = .open ∧ s'.client = .closed ∧ result = false := by
  rw [RemoteCam.call] at hcall
  rw [sent_of_fits hfits] at hcall
  cases hclient : s.client with
  | none =>
    rw [hclient] at hcall
    cases hcall
  | closed =>
    rw [hclient] at hcall
    cases hcall
  | «open» =>
    rw [hclient] at hcall
    dsimp only at hcall
    split at hcall
    · exact absurd ⟨hclient, rfl⟩ hbroken
    · cases hcall
      exact ⟨rfl, rfl, rfl⟩
    · cases hcall
      exact ⟨rfl, rfl, rfl⟩
    · cases hcall

/-- What goes on after a call that is not carried does so on a connection that has failed, with `false_e`. -/
theorem bind_call_of_broken {α : Type}
    {k : RemoteCam γ × Bool × (Nat → RpcSocketItem (Option Memory)) → Except CallFault α} {y : α}
    (hfits : Fits items) (hbroken : ¬Works s delivery)
    (h : (s.call cam packet delivery f items rets >>= k) = .ok y) :
    ∃ s' rets', s.client = .open ∧ s'.client = .closed ∧ k (s', false, rets') = .ok y := by
  cases hcall : s.call cam packet delivery f items rets with
  | error e =>
    rw [hcall] at h
    cases h
  | ok r =>
    obtain ⟨s', result, rets'⟩ := r
    obtain ⟨hopen, hclosed, rfl⟩ := call_of_broken hfits hbroken hcall
    rw [hcall] at h
    exact ⟨s', rets', hopen, hclosed, h⟩

end DVP.Remote
