import DVP.Lib.Run
import DVP.Sosal.RpcSocket.Safety

/-!
# Requests and replies

Runs of the server over the requests on a connection, and of a client that makes calls.

* `Answerable`: the function a request names is there, and what it returns fits a packet.
* `rpcSocketServer_answers`: requests that are answerable are answered, each before the next one.
* `rpcSocketClient_calls`: a call that returns `true_e` was accepted and has its return values, if the
  function is there, accepts it and returns enough.
-/

namespace DVP.Sosal

open Bytes

variable {σ : Type}

/-! ## What the server does with a request -/

/-- The parameters the function of a request gets. -/
def Received.params (request : Received) : List (RpcSocketItem (Option Memory)) :=
  (List.range request.header.numItems.toNat).map request.items

/-- What the function that a request names does with it, if there is one. -/
def outcome (functions : List (Option (RpcServerFunction σ))) (s : σ) (request : Received) :
    Option (σ × Bool × Returns) :=
  match functions[request.header.function.toNat]? with
  | some (some function) => some (function s request.params)
  | _ => none

/-- The items of the reply. -/
def replyItems (r : σ × Bool × Returns) : List (RpcSocketItem Memory) :=
  if r.2.1 then r.2.2.val else []

/-- The function a request names is there, and its returns fit a packet if it accepts the request. -/
def Answerable (functions : List (Option (RpcServerFunction σ))) (s : σ) (request : Received) :
    Prop :=
  ∃ r, outcome functions s request = some r ∧ Fits (replyItems r)

variable {functions : List (Option (RpcServerFunction σ))} {s : σ} {stream : List UInt8}
  {accesses : List Access} {request : Received}

/-- The server replies to a request that is answerable. -/
theorem serverRound_of_outcome {r : σ × Bool × Returns}
    (hrecv : (rpcSocketRecv stream (fun _ => 0) rpcSocketMaxPacket fun _ => zeroItem).2 =
      some request)
    (houtcome : outcome functions s request = some r) (hfits : Fits (replyItems r)) :
    (serverRound functions s stream).request = some request ∧
    (serverRound functions s stream).reply =
      some (packetBytes request.header.function rpcSocketReturn (replyItems r)) ∧
    (serverRound functions s stream).next = some (r.1, request.rest) := by
  rw [outcome] at houtcome
  split at houtcome
  · next function hfunction =>
    cases houtcome
    cases hpair : rpcSocketRecv stream (fun _ => 0) rpcSocketMaxPacket fun _ => zeroItem with
    | mk accesses received =>
      rw [hpair] at hrecv
      subst hrecv
      have hsent := (rpcSocketSend_of_fits request.header.function rpcSocketReturn hfits
        request.packet request.header.length).1
      rw [serverRound, hpair]
      dsimp only
      rw [hfunction]
      exact ⟨rfl, hsent, congrArg (Option.map _) hsent⟩
  · cases houtcome

/-- The server does not reply to a request whose function is not there. -/
theorem serverRound_of_no_function
    (hrecv : (rpcSocketRecv stream (fun _ => 0) rpcSocketMaxPacket fun _ => zeroItem).2 =
      some request)
    (houtcome : outcome functions s request = none) :
    (serverRound functions s stream).request = some request ∧
    (serverRound functions s stream).reply = none ∧
    (serverRound functions s stream).next = some (s, request.rest) := by
  cases hpair : rpcSocketRecv stream (fun _ => 0) rpcSocketMaxPacket fun _ => zeroItem with
  | mk accesses received =>
    rw [hpair] at hrecv
    subst hrecv
    rw [serverRound, hpair]
    dsimp only
    cases hfunction : functions[request.header.function.toNat]? with
    | none => exact ⟨rfl, rfl, rfl⟩
    | some function =>
      cases function with
      | none => exact ⟨rfl, rfl, rfl⟩
      | some function =>
        rw [outcome, hfunction] at houtcome
        cases houtcome

/-! ## Runs of the server -/

/-- The bytes are a well formed request. -/
structure Request (bytes : List UInt8) : Prop where
  length : streamLength bytes = bytes.length
  wellFormed : WellFormed (streamMemory bytes) bytes.length

/-- What the server receives of a request, with the bytes after it. -/
def requestOf (bytes rest : List UInt8) : Received :=
  (parsePacket (poke (fun _ => 0) 0 bytes) (unitOf 32 (bytes.take 4)) (fun _ => zeroItem) rest).2

theorem recv_request {bytes : List UInt8} (h : Request bytes) (rest : List UInt8) :
    (rpcSocketRecv (bytes ++ rest) (fun _ => 0) rpcSocketMaxPacket fun _ => zeroItem).2 =
      some (requestOf bytes rest) := by
  have h4 : 4 < bytes.length := Nat.lt_of_lt_of_le (by decide) h.wellFormed.header
  have hfirst : bytes.take 4 = unitBytes (unitOf 32 (bytes.take 4)) :=
    (unitBytes_unitOf (by decide) (by rw [List.length_take]; omega)).symm
  rw [rpcSocketRecv_eq h.length hfirst h4 h.wellFormed.room]
  rfl

/-- The bytes after the request make no difference to what is done with it. -/
theorem outcome_requestOf (bytes rest : List UInt8) :
    outcome functions s (requestOf bytes rest) = outcome functions s (requestOf bytes []) := by
  have hrest : requestOf bytes rest = { requestOf bytes [] with rest := rest } := by
    unfold requestOf parsePacket
    rfl
  rw [hrest]
  generalize requestOf bytes [] = request
  rfl

/-- What is seen of the server. -/
inductive ServerEvent where
  | received (request : Received)
  | replied (bytes : List UInt8)

/-- The events of a round. -/
def Round.events (round : Round σ) : List ServerEvent :=
  (round.request.map .received).toList ++ (round.reply.map .replied).toList

/-- The events of the first `n` rounds of the server. -/
def serverTrace (functions : List (Option (RpcServerFunction σ))) :
    Nat → σ → List UInt8 → List ServerEvent
  | 0, _, _ => []
  | n + 1, s, stream =>
    let round := serverRound functions s stream
    round.events ++
      match round.next with
      | none => []
      | some (s, rest) => serverTrace functions n s rest

/-- Every request is followed by exactly one reply, before the next one. -/
def Answered : List ServerEvent → Prop
  | [] => True
  | .received _ :: .replied _ :: events => Answered events
  | _ => False

/-- The number of requests that were received. -/
def numReceived (events : List ServerEvent) : Nat :=
  events.countP fun
    | .received _ => true
    | .replied _ => false

/-- The server gets a request, and nothing after it yet. -/
def serverStep (functions : List (Option (RpcServerFunction σ))) (s : σ) (bytes : List UInt8) :
    Except Unit (σ × Unit) :=
  match (serverRound functions s bytes).next with
  | none => .error ()
  | some (s, _) => .ok (s, ())

/-- Requests that are answerable are all received, and each is answered before the next one. -/
theorem rpcSocketServer_answers {requests : List (List UInt8)}
    (hrequests : ∀ bytes ∈ requests, Request bytes)
    (h : Machine.Meets (serverStep functions)
      (fun s bytes => Answerable functions s (requestOf bytes [])) s requests) :
    Answered (serverTrace functions requests.length s requests.flatten) ∧
      numReceived (serverTrace functions requests.length s requests.flatten) =
        requests.length := by
  induction requests generalizing s with
  | nil => exact ⟨trivial, rfl⟩
  | cons bytes requests ih =>
    obtain ⟨⟨r, houtcome, hfits⟩, hrest⟩ := h
    have hbytes := hrequests bytes List.mem_cons_self
    have houtcome' : outcome functions s (requestOf bytes requests.flatten) = some r :=
      (outcome_requestOf bytes requests.flatten).trans houtcome
    obtain ⟨hrequest, hreply, hnext⟩ :=
      serverRound_of_outcome (recv_request hbytes requests.flatten) houtcome' hfits
    have hrecv := recv_request hbytes []
    rw [List.append_nil] at hrecv
    have hstep : serverStep functions s bytes = .ok (r.1, ()) := by
      rw [serverStep, (serverRound_of_outcome hrecv houtcome hfits).2.2]
    obtain ⟨hanswered, hcount⟩ := ih (fun bytes h => hrequests bytes (List.mem_cons_of_mem _ h))
      (hrest r.1 () hstep)
    rw [List.flatten_cons, List.length_cons, serverTrace, Round.events, hrequest, hreply, hnext]
    refine ⟨hanswered, ?_⟩
    rw [Nat.add_comm]
    exact List.countP_append.trans (congrArg (1 + ·) hcount)

/-- A request for a function that is not there is received and not answered. -/
theorem not_answered_of_no_function {bytes : List UInt8} (h : Request bytes)
    (houtcome : outcome functions s (requestOf bytes []) = none) :
    ¬Answered (serverTrace functions 1 s bytes) := by
  have hrecv := recv_request h []
  rw [List.append_nil] at hrecv
  obtain ⟨hrequest, hreply, hnext⟩ := serverRound_of_no_function hrecv houtcome
  rw [serverTrace, Round.events, hrequest, hreply, hnext]
  exact id

/-! ## Calls of a client -/

/-- The arguments of `rpc_socket_client_call`, and what is in its packet before. -/
structure Call where
  packet : Memory
  function : BitVec 32
  items : List (RpcSocketItem Memory)
  rets : Nat → RpcSocketItem (Option Memory)
  numRets : Nat

/-- The request of a call, if it is sent. -/
def Call.sent (call : Call) : Option (List UInt8) :=
  (rpcSocketSend call.packet rpcSocketMaxPacket
    ⟨16, call.function, rpcSocketCalling, BitVec.ofNat 32 call.items.length⟩ call.items).sent

/-- The call, when the server is in the state `s`. -/
def Call.result (call : Call) (functions : List (Option (RpcServerFunction σ))) (s : σ) :
    Option (Bool × (Nat → RpcSocketItem (Option Memory))) :=
  rpcSocketClientCall call.packet call.function call.items call.rets
    fun bytes => (serverRound functions s bytes).reply

theorem Call.result_of_none (call : Call) (functions : List (Option (RpcServerFunction σ))) (s : σ)
    (h : call.sent = none) : call.result functions s = some (false, call.rets) := by
  simp only [Call.result, rpcSocketClientCall]
  rw [Call.sent] at h
  rw [h]

theorem Call.result_of_some (call : Call) (functions : List (Option (RpcServerFunction σ))) (s : σ)
    {bytes : List UInt8} (h : call.sent = some bytes) :
    ∃ packet, call.result functions s =
      match (serverRound functions s bytes).reply with
      | none => none
      | some reply =>
        match (rpcSocketRecv reply packet rpcSocketMaxPacket call.rets).2 with
        | none => some (false, call.rets)
        | some received => some (true, received.items) := by
  refine ⟨(rpcSocketSend call.packet rpcSocketMaxPacket
    ⟨16, call.function, rpcSocketCalling, BitVec.ofNat 32 call.items.length⟩ call.items).packet, ?_⟩
  simp only [Call.result, rpcSocketClientCall]
  split
  · next hnone => exact absurd (hnone.symm.trans h) (by rintro ⟨⟩)
  · next bytes' hsome =>
    obtain rfl := Option.some.inj (hsome.symm.trans h)
    rfl

/-- A client makes a call, and the server answers it. Without an answer the run ends. -/
def callStep (functions : List (Option (RpcServerFunction σ))) (s : σ) (call : Call) :
    Except Unit (σ × Bool) :=
  match call.sent with
  | none => .ok (s, false)
  | some bytes =>
    match call.result functions s, (serverRound functions s bytes).next with
    | some (result, _), some (s, _) => .ok (s, result)
    | _, _ => .error ()

/-- If the request of the call is received it is answered, and if the call returns `true_e` then the
function has accepted it, with returns for all elements of `rets`, which are there. -/
structure CallOk (functions : List (Option (RpcServerFunction σ))) (s : σ) (call : Call) : Prop where
  answered : ∀ bytes request, call.sent = some bytes →
    (serverRound functions s bytes).request = some request →
      ∃ reply, (serverRound functions s bytes).reply = some reply
  accepted : ∀ rets, call.result functions s = some (true, rets) →
    ∃ bytes request s' returns, call.sent = some bytes ∧
      (serverRound functions s bytes).request = some request ∧
      outcome functions s request = some (s', true, returns) ∧
      call.numRets ≤ returns.val.length ∧
      ∀ (i : Nat) (hi : i < returns.val.length), i < call.numRets →
        ItemMatches returns.val[i] (rets i)

/-- The request of a call as the server receives it. -/
def Call.received (call : Call) : Received :=
  requestOf (packetBytes call.function rpcSocketCalling call.items) []

/-- The request is rejected before it is sent, or it fits a packet and the array of the server, and
the function it names accepts it and returns enough, in a reply that fits a packet. -/
def CallMeets (functions : List (Option (RpcServerFunction σ))) (s : σ) (call : Call) : Prop :=
  RejectsFrom 16 call.items ∨
    Fits call.items ∧ call.items.length ≤ rpcSocketMaxArgs ∧
      ∃ s' returns,
        outcome functions s call.received = some (s', true, returns) ∧ Fits returns.val ∧ call.numRets ≤ returns.val.length

theorem peek_streamMemory {bytes : List UInt8} :
    peek (streamMemory bytes) 0 bytes.length = bytes := by
  apply List.ext_getElem length_peek
  intro i _ hi
  simp [peek, streamMemory, hi]

/-- The items in a packet are where they should be. -/
theorem itemsOk_of_peek {packet : Memory} {items : List (RpcSocketItem Memory)} {length i o : Nat}
    (hpeek : peek packet o (items.flatMap itemBytes).length = items.flatMap itemBytes)
    (hlength : o + (items.flatMap itemBytes).length ≤ length) :
    ItemsOk packet length (fun _ => False) items.length i o := by
  induction items generalizing i o with
  | nil => exact hlength
  | cons item items ih =>
    rw [List.flatMap_cons] at hpeek hlength
    obtain ⟨hitem, hrest⟩ := peek_eq_append.mp hpeek
    rw [itemBytes] at hitem
    obtain ⟨hheader, -⟩ := peek_eq_append.mp hitem
    rw [length_bytes] at hheader
    rw [List.length_append, length_itemBytes] at hlength
    rw [length_itemBytes, ← Nat.add_assoc] at hrest
    rw [List.length_cons, ItemsOk, ofPacket_eq hheader]
    have hnext : o + 16 + item.dataSize.toNat + (items.flatMap itemBytes).length ≤ length := by
      omega
    exact ⟨by omega, fun h => h.elim, ih hrest hnext⟩

/-- What is sent for items that fit, and are not too many, is a well formed request. -/
theorem request_packetBytes {items : List (RpcSocketItem Memory)} (hfits : Fits items)
    (hcount : items.length ≤ rpcSocketMaxArgs) (function direction : BitVec 32) :
    Request (packetBytes function direction items) := by
  have hlength : (packetBytes function direction items).length = packetSize items :=
    length_packetBytes hfits
  have hmemory : peek (streamMemory (packetBytes function direction items)) 0
      (packetBytes function direction items).length = packetBytes function direction items :=
    peek_streamMemory
  obtain ⟨hheader, hitems⟩ := peek_eq_append.mp hmemory
  rw [length_headerBytes] at hheader hitems
  have hnumItems : (packetHeader function direction items).numItems.toNat = items.length :=
    packetHeader_numItems hfits
  refine ⟨?_, ?_, ?_, ?_, ?_⟩
  · have hfirst : streamLength (packetBytes function direction items) =
        (unitOf 32 (unitBytes (packetHeader function direction items).length)).toNat := rfl
    rw [hfirst, unitOf_unitBytes (by decide), packetHeader_length hfits, hlength]
  · rw [hlength]
    exact Nat.le_add_right _ _
  · rw [hlength]
    exact hfits
  · rw [ofPacket_header hheader, hnumItems]
    exact hcount
  · rw [ofPacket_header hheader, hnumItems]
    apply itemsOk_of_peek hitems
    exact Nat.le_of_eq (by rw [hlength, Nat.zero_add, length_flatMap_itemBytes hfits])

/-- The function gets the parameters of the call. -/
theorem Call.matches_received {call : Call} (hfits : Fits call.items)
    (hcount : call.items.length ≤ rpcSocketMaxArgs) :
    call.received.header = packetHeader call.function rpcSocketCalling call.items ∧
      ∀ (i : Nat) (hi : i < call.items.length), ItemMatches call.items[i] (call.received.items i) := by
  have hrecv := recv_request (request_packetBytes hfits hcount call.function rpcSocketCalling) []
  obtain ⟨received, hreceived, hheader, -, hitems⟩ :=
    rpcSocketRecv_packetBytes call.function rpcSocketCalling hfits [] (fun _ => 0) fun _ => zeroItem
  have heq : call.received = received := Option.some.inj (hrecv.symm.trans hreceived)
  rw [heq]
  exact ⟨hheader, hitems⟩

/-- A call for a function that is there is answered. It returns `true_e`, whether it was accepted or
not. -/
theorem Call.answered {call : Call} {r : σ × Bool × Returns} (hfits : Fits call.items)
    (hcount : call.items.length ≤ rpcSocketMaxArgs)
    (houtcome : outcome functions s call.received = some r) (hreply : Fits (replyItems r)) :
    ∃ bytes reply rets, call.sent = some bytes ∧
      (serverRound functions s bytes).request = some call.received ∧
      (serverRound functions s bytes).reply = some reply ∧
      call.result functions s = some (true, rets) ∧
      ∀ (i : Nat) (hi : i < (replyItems r).length), ItemMatches (replyItems r)[i] (rets i) := by
  have hsent : call.sent = some (packetBytes call.function rpcSocketCalling call.items) :=
    (rpcSocketSend_of_fits _ _ hfits _ _).1
  have hrecv := recv_request (request_packetBytes hfits hcount call.function rpcSocketCalling) []
  rw [List.append_nil] at hrecv
  obtain ⟨hrequest, hround, -⟩ := serverRound_of_outcome hrecv houtcome hreply
  -- The client reads the reply as the server has written it.
  obtain ⟨packet, hresult⟩ := call.result_of_some functions s hsent
  obtain ⟨received, hreceived, -, -, hitems⟩ :=
    rpcSocketRecv_packetBytes call.received.header.function rpcSocketReturn hreply [] packet
      call.rets
  rw [List.append_nil] at hreceived
  refine ⟨_, _, received.items, hsent, hrequest, hround, ?_, hitems⟩
  rw [hresult, hround]
  dsimp only
  rw [Call.received] at hreceived
  rw [hreceived]

theorem callOk_of_meets {call : Call} (h : CallMeets functions s call) :
    CallOk functions s call := by
  rcases h with hrejects | ⟨hfits, hcount, s', returns, houtcome, hreturns, hnumRets⟩
  · -- Nothing is sent, and the call returns `false_e`.
    have hsent : call.sent = none := (rpcSocketSend_rejects_iff.mp hrejects).1
    have hresult := call.result_of_none functions s hsent
    constructor
    · intro bytes request hbytes
      rw [hsent] at hbytes
      cases hbytes
    · intro rets hrets
      rw [hresult] at hrets
      cases hrets
  obtain ⟨bytes, reply, rets, hsent, hrequest, hreply, hresult, hitems⟩ :=
    Call.answered hfits hcount houtcome hreturns
  constructor
  · intro bytes' request hbytes _
    rw [hsent] at hbytes
    cases hbytes
    exact ⟨reply, hreply⟩
  · intro rets' hrets
    rw [hresult] at hrets
    cases hrets
    exact ⟨bytes, call.received, s', returns, hsent, hrequest, houtcome, hnumRets,
      fun i hi _ => hitems i hi⟩

/-- A call that the function does not accept returns `true_e` all the same. -/
theorem not_callOk_of_not_accepted {call : Call} {s' : σ} {returns : Returns}
    (hfits : Fits call.items) (hcount : call.items.length ≤ rpcSocketMaxArgs)
    (houtcome : outcome functions s call.received = some (s', false, returns)) :
    ¬CallOk functions s call := by
  intro hok
  have hreply : Fits (replyItems (s', false, returns)) := by
    change 16 + 0 ≤ 1456
    decide
  obtain ⟨bytes, reply, rets, hsent, hrequest, -, hresult, -⟩ :=
    Call.answered hfits hcount houtcome hreply
  obtain ⟨bytes', request, s'', returns', hsent', hrequest', houtcome', -⟩ :=
    hok.accepted rets hresult
  rw [hsent] at hsent'
  cases hsent'
  rw [hrequest] at hrequest'
  rw [← Option.some.inj hrequest', houtcome] at houtcome'
  cases houtcome'

/-- In every run of the server over well formed requests that are answerable, each is answered by one
reply before the next. In every run of a client whose calls meet the condition, those that return
`true_e` were accepted and have their return values. -/
theorem rpcSocket_runs (functions : List (Option (RpcServerFunction σ))) (s : σ) :
    (∀ requests : List (List UInt8), (∀ bytes ∈ requests, Request bytes) →
      Machine.Meets (serverStep functions)
        (fun s bytes => Answerable functions s (requestOf bytes [])) s requests →
      Answered (serverTrace functions requests.length s requests.flatten) ∧
        numReceived (serverTrace functions requests.length s requests.flatten) =
          requests.length) ∧
    ∀ calls : List Call,
      Machine.Meets (callStep functions) (CallMeets functions) s calls →
        Machine.Meets (callStep functions) (CallOk functions) s calls :=
  ⟨fun _ hrequests h => rpcSocketServer_answers hrequests h,
    fun _ h => h.mono fun _ _ => callOk_of_meets⟩

/-- A server with a function that returns a number, and one that accepts nothing. -/
def testFunctions : List (Option (RpcServerFunction Unit)) :=
  [some fun s _ => (s, true, ⟨[⟨0, 4, 4, 1, fun _ => 7⟩], by decide⟩),
    some fun s _ => (s, false, ⟨[], by decide⟩)]

/-- A call without parameters that expects one return value. -/
def testCall (function : BitVec 32) : Call := ⟨fun _ => 0, function, [], fun _ => zeroItem, 1⟩

theorem outcome_testCall {f : RpcServerFunction Unit} {function : BitVec 32}
    (h : testFunctions[function.toNat]? = some (some f)) :
    outcome testFunctions () (testCall function).received =
      some (f () (testCall function).received.params) := by
  have hfits : Fits (testCall function).items := by
    change 16 + 0 ≤ 1456
    decide
  have hheader := (Call.matches_received hfits (Nat.zero_le _)).1
  have hfunction : (testCall function).received.header.function = function := by
    rw [hheader]
    rfl
  rw [outcome, hfunction, h]

theorem rpcSocket_runs_test :
    (Answered (serverTrace testFunctions 1 () [packetBytes 0 rpcSocketCalling []].flatten) ∧
      numReceived (serverTrace testFunctions 1 () [packetBytes 0 rpcSocketCalling []].flatten) =
        1) ∧
    Machine.Meets (callStep testFunctions) (CallOk testFunctions) () [testCall 0] := by
  have hreturns : Fits [(⟨0, 4, 4, 1, fun _ => 7⟩ : RpcSocketItem Memory)] := by decide
  have hempty : Fits ([] : List (RpcSocketItem Memory)) := by decide
  have haccepts : outcome testFunctions () (testCall 0).received =
      some ((), true, ⟨[⟨0, 4, 4, 1, fun _ => 7⟩], by decide⟩) :=
    outcome_testCall (f := fun s _ => (s, true, ⟨[⟨0, 4, 4, 1, fun _ => 7⟩], by decide⟩)) rfl
  constructor
  · apply (rpcSocket_runs testFunctions ()).1 [packetBytes 0 rpcSocketCalling []]
    · intro bytes hbytes
      rw [List.mem_singleton.mp hbytes]
      exact request_packetBytes hempty (by decide) 0 rpcSocketCalling
    · exact ⟨⟨_, haccepts, hreturns⟩, fun _ _ _ => trivial⟩
  · apply (rpcSocket_runs testFunctions ()).2 [testCall 0]
    refine ⟨.inr ⟨hempty, by decide, _, _, haccepts, hreturns, Nat.le_refl 1⟩, ?_⟩
    exact fun _ _ _ => trivial

/-- A request for a function that is not there is not answered, and a call that is not accepted
returns `true_e` without a return value. -/
theorem rpcSocket_unanswered :
    (Request (packetBytes 2 rpcSocketCalling []) ∧
      ¬Answered (serverTrace testFunctions 1 () (packetBytes 2 rpcSocketCalling []))) ∧
    ¬CallOk testFunctions () (testCall 1) := by
  have hempty : Fits ([] : List (RpcSocketItem Memory)) := by decide
  have hrequest := request_packetBytes hempty (by decide) 2 rpcSocketCalling
  refine ⟨⟨hrequest, not_answered_of_no_function hrequest ?_⟩, ?_⟩
  · have hheader : (testCall 2).received.header = _ :=
      (Call.matches_received hempty (by decide)).1
    change outcome testFunctions () (testCall 2).received = none
    rw [outcome, hheader]
    rfl
  · have hrefuses : outcome testFunctions () (testCall 1).received =
        some ((), false, ⟨[], by decide⟩) :=
      outcome_testCall (f := fun s _ => (s, false, ⟨[], by decide⟩)) rfl
    exact not_callOk_of_not_accepted hempty (by decide) hrefuses

end DVP.Sosal
