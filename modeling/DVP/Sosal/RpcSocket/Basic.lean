import DVP.Lib.Bytes

/-!
# Remote procedure calls over a socket

`source/sosal/rpc_socket.c`: packets of items, the server thread and the call of a client. Offsets and
sizes of data are 32 bits wide, as in C. An array of items is a function of the index, and a packet a
memory, so an index or an offset is never out of range by itself: the functions return the accesses
they make along with their results.

A socket is the list of the bytes its peer sends; the peer sends no more after them. Sending
succeeds, as it does on an open connection.
-/

namespace DVP.Sosal

open Bytes

/-- `RPC_SOCKET_ITEM_HEADER_SIZE`. -/
def rpcSocketItemHeaderSize : Nat := 16

/-- `RPC_SOCKET_MAX_ARGS`. -/
def rpcSocketMaxArgs : Nat := 10

/-- `RPC_SOCKET_MAX_DATA`. -/
def rpcSocketMaxData : Nat := 128

/-- `RPC_SOCKET_MAX_PACKET`. -/
def rpcSocketMaxPacket : Nat := 16 + rpcSocketMaxArgs * (rpcSocketItemHeaderSize + rpcSocketMaxData)

/-- The directions of a packet. -/
def rpcSocketCalling : BitVec 32 := 0
def rpcSocketReturn : BitVec 32 := 1

/-- The bytes from where a pointer points. -/
abbrev Memory := Nat → UInt8

/-- `rpc_socket_header_t`. -/
structure RpcSocketHeader where
  length : BitVec 32
  function : BitVec 32
  direction : BitVec 32
  numItems : BitVec 32

/-- `rpc_socket_item_t`. The pointer `item` is what it points to: a `Memory` where it is not `NULL`,
and an `Option Memory` where it can be. -/
structure RpcSocketItem (P : Type) where
  length : BitVec 32
  type : BitVec 32
  sizeElement : BitVec 32
  numElements : BitVec 32
  item : P

/-- The accesses whose bounds matter. -/
inductive Access where
  /-- An element of an array of items. -/
  | slot (i : Nat)
  /-- `n` bytes of a packet that was received, from `o` on. -/
  | read (o n : Nat)
  /-- `n` bytes of a packet that is being written, from `o` on. -/
  | write (o n : Nat)
  /-- Bytes received into a packet, from `o` on. -/
  | recv (o n : Nat)
  /-- An element of the array of functions. -/
  | function (i : Nat)
  deriving DecidableEq, Repr

variable {P : Type}

/-- The size the code computes for the data of an item. -/
def RpcSocketItem.dataSize (item : RpcSocketItem P) : BitVec 32 :=
  item.sizeElement * item.numElements

/-- `rpc_socket_item_length`. -/
def rpcSocketItemLength (item : RpcSocketItem P) : RpcSocketItem P :=
  { item with length := 16 + item.numElements * item.sizeElement }

/-- The object representation of a header. -/
def RpcSocketHeader.bytes (header : RpcSocketHeader) : List UInt8 :=
  unitBytes header.length ++ unitBytes header.function ++ unitBytes header.direction ++
    unitBytes header.numItems

/-- The object representation of an item, without the pointer. -/
def RpcSocketItem.bytes (item : RpcSocketItem P) : List UInt8 :=
  unitBytes item.length ++ unitBytes item.type ++ unitBytes item.sizeElement ++
    unitBytes item.numElements

/-- The header in a packet. -/
def RpcSocketHeader.ofPacket (packet : Memory) : RpcSocketHeader where
  length := unitOf 32 (peek packet 0 4)
  function := unitOf 32 (peek packet 4 4)
  direction := unitOf 32 (peek packet 8 4)
  numItems := unitOf 32 (peek packet 12 4)

/-- The item at an offset of a packet, with a pointer of its own. -/
def RpcSocketItem.ofPacket (packet : Memory) (offset : Nat) (item : P) : RpcSocketItem P where
  length := unitOf 32 (peek packet offset 4)
  type := unitOf 32 (peek packet (offset + 4) 4)
  sizeElement := unitOf 32 (peek packet (offset + 8) 4)
  numElements := unitOf 32 (peek packet (offset + 12) 4)
  item := item

/-- The number of bytes `rpc_socket_item_print` reads for a type. -/
def typeWidth (type : BitVec 32) : Nat :=
  if type = 0 ∨ type = 1 then 1
  else if type = 2 ∨ type = 3 then 2
  else if type = 4 ∨ type = 5 then 4
  else if type = 6 ∨ type = 7 then 8
  else 0

/-! ## Sending -/

/-- The loop of `rpc_socket_send` that copies the items to the packet. Without room for an item it
ends without an offset. -/
def sendItems (len : Nat) (packet : Memory) (offset : BitVec 32) :
    List (RpcSocketItem Memory) → List Access × Memory × Option (BitVec 32)
  | [] => ([], packet, some offset)
  | item :: items =>
    if (offset + item.length).toNat ≤ len then
      let packet := poke packet offset.toNat item.bytes
      let data := peek item.item 0 item.dataSize.toNat
      let packet := poke packet (offset + 16).toNat data
      let (accesses, result) := sendItems len packet (offset + 16 + item.dataSize) items
      (.write offset.toNat 16 :: .write (offset + 16).toNat item.dataSize.toNat :: accesses, result)
    else ([], packet, none)

/-- What `rpc_socket_send` does: its accesses to the packet, the packet and, if it gets to
`socket_send`, the bytes it sends. -/
structure Sending where
  accesses : List Access
  packet : Memory
  sent : Option (List UInt8)

/-- `rpc_socket_send`, for a packet of `len` bytes and the first `numItems` elements of the array. -/
def rpcSocketSend (packet : Memory) (len : Nat) (header : RpcSocketHeader)
    (items : List (RpcSocketItem Memory)) : Sending :=
  let items := items.map rpcSocketItemLength
  let length := items.foldl (fun (length : BitVec 32) item => length + item.length) 16
  let header := { header with length := length }
  let packet := poke packet 0 header.bytes
  let (accesses, packet, offset) := sendItems len packet 16 items
  { accesses := .write 0 16 :: accesses
    packet := packet
    sent := offset.map fun offset => peek packet 0 offset.toNat }

/-! ## Receiving -/

/-- `socket_recv` for a length that is `n` as a signed number: the bytes it copies and, if it returns
`true_e`, those that are left. If `n` is negative it returns as soon as it has some; they are all
there. -/
def socketRecv (stream : List UInt8) (n : Int) : List UInt8 × Option (List UInt8) :=
  if n = 0 then ([], none)
  else if n < 0 then (stream, if stream = [] then none else some [])
  else if n ≤ stream.length then (stream.take n.toNat, some (stream.drop n.toNat))
  else (stream, none)

/-- The data of an item that starts at `start` in the packet. A pointer that is `NULL` is set to them,
and they are read to print the item; other data are copied. -/
def recvPointer (packet : Memory) (start : Nat) (item : RpcSocketItem (Option Memory)) :
    List Access × Option Memory :=
  let len := item.dataSize.toNat
  match item.item with
  | none =>
    if 0 < len then ([.read start (typeWidth item.type)], some fun j => packet (start + j))
    else ([], none)
  | some memory => ([.read start len], some (poke memory 0 (peek packet start len)))

/-- The loop of `rpc_socket_recv` over the items, from the index `i` on. -/
def recvItems (packet : Memory) : Nat → Nat → BitVec 32 → (Nat → RpcSocketItem (Option Memory)) →
    List Access × (Nat → RpcSocketItem (Option Memory)) × BitVec 32
  | 0, _, offset, items => ([], items, offset)
  | n + 1, i, offset, items =>
    let item := RpcSocketItem.ofPacket packet offset.toNat (items i).item
    let (reads, pointer) := recvPointer packet (offset + 16).toNat item
    let (accesses, result) := recvItems packet n (i + 1) (offset + 16 + item.dataSize)
      (Function.update items i { item with item := pointer })
    (.slot i :: .read offset.toNat 16 :: (reads ++ accesses), result)

/-- What `rpc_socket_recv` leaves when it returns `true_e`. -/
structure Received where
  header : RpcSocketHeader
  items : Nat → RpcSocketItem (Option Memory)
  packet : Memory
  rest : List UInt8

/-- The part of `rpc_socket_recv` after the bytes of a packet are received. -/
def parsePacket (packet : Memory) (length : BitVec 32)
    (items : Nat → RpcSocketItem (Option Memory)) (rest : List UInt8) : List Access × Received :=
  let header := { RpcSocketHeader.ofPacket packet with length := length }
  let (accesses, items, offset) := recvItems packet header.numItems.toNat 0 16 items
  (.read 0 16 :: (accesses ++ [.read 0 offset.toNat]),
    { header := header, items := items, packet := packet, rest := rest })

/-- `rpc_socket_recv`, for a packet of `len` bytes. -/
def rpcSocketRecv (stream : List UInt8) (packet : Memory) (len : Nat)
    (items : Nat → RpcSocketItem (Option Memory)) : List Access × Option Received :=
  match socketRecv stream 4 with
  | (_, none) => ([], none)
  | (first, some stream) =>
    let offset := unitOf 32 first
    if len < offset.toNat then ([], none)
    else
      let packet := poke packet 0 (unitBytes offset)
      match socketRecv stream (offset.toNat - 4 : Int) with
      | (bytes, none) => ([.recv 4 bytes.length], none)
      | (bytes, some rest) =>
        let (accesses, received) := parsePacket (poke packet 4 bytes) offset items rest
        (.recv 4 bytes.length :: accesses, some received)

/-! ## The server -/

/-- What a function of the server puts in the array `returns`, which has `RPC_SOCKET_MAX_ARGS`
elements. -/
abbrev Returns := { items : List (RpcSocketItem Memory) // items.length ≤ rpcSocketMaxArgs }

/-- `rpc_server_function_f`. What it works on is a state of type `σ`. It says if it accepts the
parameters. -/
abbrev RpcServerFunction (σ : Type) :=
  σ → List (RpcSocketItem (Option Memory)) → σ × Bool × Returns

/-- The element of an array of items that is filled with zeros. -/
def zeroItem : RpcSocketItem (Option Memory) := ⟨0, 0, 0, 0, none⟩

/-- What a round of the inner loop of `rpc_socket_server_thread` does: the request it receives, the
reply it sends, and the state and the bytes left for the next round, if there is one. -/
structure Round (σ : Type) where
  accesses : List Access
  request : Option Received
  reply : Option (List UInt8)
  next : Option (σ × List UInt8)

/-- A round of the inner loop of `rpc_socket_server_thread`. -/
def serverRound {σ : Type} (functions : List (Option (RpcServerFunction σ))) (s : σ)
    (stream : List UInt8) : Round σ :=
  match rpcSocketRecv stream (fun _ => 0) rpcSocketMaxPacket (fun _ => zeroItem) with
  | (accesses, none) => ⟨accesses, none, none, none⟩
  | (accesses, some request) =>
    let i := request.header.function.toNat
    match functions[i]? with
    | none => ⟨accesses, request, none, some (s, request.rest)⟩
    | some none => ⟨accesses ++ [.function i], request, none, some (s, request.rest)⟩
    | some (some function) =>
      let params := (List.range request.header.numItems.toNat).map request.items
      let (s, accepted, returns) := function s params
      let returns := if accepted then returns.val else []
      let reply := rpcSocketSend request.packet rpcSocketMaxPacket
        { request.header with
          direction := rpcSocketReturn
          numItems := BitVec.ofNat 32 returns.length } returns
      { accesses := accesses ++ [.function i] ++
          (List.range request.header.numItems.toNat).map .slot ++
          (List.range returns.length).map .slot
        request := request
        reply := reply.sent
        next := reply.sent.map fun _ => (s, request.rest) }

/-! ## The client -/

/-- `rpc_socket_client_call`, with the bytes the other end of the connection answers a request with,
if any. If there is no answer it does not return. -/
def rpcSocketClientCall (packet : Memory) (function : BitVec 32)
    (items : List (RpcSocketItem Memory)) (rets : Nat → RpcSocketItem (Option Memory))
    (answer : List UInt8 → Option (List UInt8)) :
    Option (Bool × (Nat → RpcSocketItem (Option Memory))) :=
  let sending := rpcSocketSend packet rpcSocketMaxPacket
    ⟨16, function, rpcSocketCalling, BitVec.ofNat 32 items.length⟩ items
  match sending.sent with
  | none => some (false, rets)
  | some request =>
    match answer request with
    | none => none
    | some reply =>
      match (rpcSocketRecv reply sending.packet rpcSocketMaxPacket rets).2 with
      | none => some (false, rets)
      | some received => some (true, received.items)

end DVP.Sosal
