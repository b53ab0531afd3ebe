import DVP.Sosal.RpcSocket.RoundTrip
import Mathlib.Logic.Relation

/-!
# Packets from a peer

What `rpc_socket_recv` and the server do with any bytes. The length of a packet is compared with the
size of the buffer, and nothing else that comes from the peer is checked.

* `Refused`: the packets that are not accepted.
* `PacketOk`: the packets that are taken apart inside their length, with no more items than there are
  elements in the array.
* `rpcSocketRecv_safe_iff`, `rpcSocketServer_safe_iff`: these are exactly the packets that do no harm.
-/

namespace DVP.Sosal

open Bytes

/-! ## What packets should be -/

/-- The access is inside the array or the bytes it is about. -/
def Access.InBounds (length numFunctions : Nat) : Access → Prop
  | .slot i => i < rpcSocketMaxArgs
  | .read o n => n = 0 ∨ o + n ≤ length
  | .write _ _ => True
  | .recv o n => o + n ≤ rpcSocketMaxPacket
  | .function i => i < numFunctions

/-- The next `n` items are inside the first `length` bytes. Where the pointer of an item is `NULL` so
is the number that is printed for it. -/
def ItemsOk (packet : Memory) (length : Nat) (null : Nat → Prop) : Nat → Nat → Nat → Prop
  | 0, _, o => o ≤ length
  | n + 1, i, o =>
    let item := RpcSocketItem.ofPacket packet o ()
    o + 16 ≤ length ∧
    (null i → 0 < item.dataSize.toNat →
      typeWidth item.type = 0 ∨ o + 16 + typeWidth item.type ≤ length) ∧
    ItemsOk packet length null n (i + 1) (o + 16 + item.dataSize.toNat)

/-- The first `length` bytes are a packet with a header and items that are not too many. -/
structure PacketOk (packet : Memory) (length : Nat) (null : Nat → Prop) : Prop where
  header : 16 ≤ length
  room : length ≤ rpcSocketMaxPacket
  count : (RpcSocketHeader.ofPacket packet).numItems.toNat ≤ rpcSocketMaxArgs
  items : ItemsOk packet length null (RpcSocketHeader.ofPacket packet).numItems.toNat 0 16

/-- The packet is well formed. -/
def WellFormed (packet : Memory) (length : Nat) : Prop := PacketOk packet length fun _ => False

/-- The bytes of a stream as a memory. -/
def streamMemory (stream : List UInt8) : Memory := fun i => stream.getD i 0

/-- The length at the start of a stream. -/
def streamLength (stream : List UInt8) : Nat := (unitOf 32 (stream.take 4)).toNat

/-- There is no packet at the start of the stream, or it has no bytes after its length, or it is too
long. -/
def Refused (stream : List UInt8) : Prop :=
  stream.length ≤ 4 ∨ streamLength stream = 4 ∨ rpcSocketMaxPacket < streamLength stream ∨
    stream.length < streamLength stream

instance (stream : List UInt8) : Decidable (Refused stream) :=
  inferInstanceAs (Decidable (_ ∨ _ ∨ _ ∨ _))

variable {packet packet' : Memory} {length numFunctions n i o : Nat} {null null' : Nat → Prop}
  {offset : BitVec 32} {slots : Nat → RpcSocketItem (Option Memory)}

/-! ## Items in a packet -/

theorem ItemsOk.le (h : ItemsOk packet length null n i o) : o ≤ length := by
  induction n generalizing i o with
  | zero => exact h
  | succ n ih =>
    obtain ⟨-, -, hrest⟩ := h
    have hle := ih hrest
    omega

theorem ItemsOk.mono (h : ItemsOk packet length null n i o) (hnull : ∀ k, i ≤ k → null' k → null k) :
    ItemsOk packet length null' n i o := by
  induction n generalizing i o with
  | zero => exact h
  | succ n ih =>
    obtain ⟨hheader, hvalue, hrest⟩ := h
    refine ⟨hheader, fun hk => hvalue (hnull i (Nat.le_refl i) hk), ih hrest ?_⟩
    exact fun k hk => hnull k (Nat.le_of_succ_le hk)

/-- The items are those of any packet with the same bytes. -/
theorem ItemsOk.congr (h : ItemsOk packet length null n i o)
    (hbytes : ∀ k < length, packet' k = packet k) : ItemsOk packet' length null n i o := by
  induction n generalizing i o with
  | zero => exact h
  | succ n ih =>
    obtain ⟨hheader, hvalue, hrest⟩ := h
    have hunit (k : Nat) (hk : k + 4 ≤ length) : peek packet' k 4 = peek packet k 4 :=
      peek_congr fun j _ hj => hbytes j (by omega)
    have hitem : RpcSocketItem.ofPacket packet' o () = RpcSocketItem.ofPacket packet o () := by
      simp only [RpcSocketItem.ofPacket]
      rw [hunit o (by omega), hunit (o + 4) (by omega), hunit (o + 8) (by omega),
        hunit (o + 12) (by omega)]
    rw [ItemsOk, hitem]
    exact ⟨hheader, hvalue, ih hrest⟩

/-- The data of an item inside the packet are handled inside it exactly when the number that is
printed is inside it too. -/
theorem recvPointer_inBounds_iff {start : Nat} {received : RpcSocketItem (Option Memory)}
    (hdata : start + received.dataSize.toNat ≤ length) :
    (∀ a ∈ (recvPointer packet start received).1, a.InBounds length numFunctions) ↔
      (received.item = none → 0 < received.dataSize.toNat →
        typeWidth received.type = 0 ∨ start + typeWidth received.type ≤ length) := by
  rw [recvPointer]
  cases received.item with
  | none =>
    dsimp only
    split_ifs with hlen
    · simp [Access.InBounds, hlen]
    · simp [hlen]
  | some memory =>
    simp only [List.mem_singleton, forall_eq, reduceCtorEq, false_imp_iff, iff_true]
    exact .inr hdata

/-- Items inside the packet are taken apart inside it exactly when the numbers printed for them are
inside it too. -/
theorem recvItems_inBounds_iff (hlength : length ≤ rpcSocketMaxPacket)
    (hitems : ItemsOk packet length (fun _ => False) n i offset.toNat)
    (hcount : i + n ≤ rpcSocketMaxArgs) (hnull : ∀ k, i ≤ k → (null k ↔ (slots k).item = none)) :
    ((∀ a ∈ (recvItems packet n i offset slots).1, a.InBounds length numFunctions) ↔
      ItemsOk packet length null n i offset.toNat) ∧
    (recvItems packet n i offset slots).2.2.toNat ≤ length := by
  have hmax : rpcSocketMaxPacket = 1456 := rfl
  induction n generalizing i offset slots with
  | zero =>
    refine ⟨iff_of_true ?_ hitems, hitems⟩
    intro a ha
    exact absurd ha List.not_mem_nil
  | succ n ih =>
    obtain ⟨hheader, -, hrest⟩ := hitems
    -- The offset of the code has not wrapped, because the next item starts inside the packet.
    have hnext := hrest.le
    have hoffset : offset.toNat + 16 +
        (RpcSocketItem.ofPacket packet offset.toNat (slots i).item).dataSize.toNat < 2 ^ 32 :=
      Nat.lt_of_le_of_lt (Nat.le_trans hnext hlength) (by decide)
    obtain ⟨h16, hend⟩ := toNat_add_item hoffset
    have hdata : (offset + 16).toNat +
        (RpcSocketItem.ofPacket packet offset.toNat (slots i).item).dataSize.toNat ≤ length := by
      rw [h16]
      exact hnext
    have hslot : Access.InBounds length numFunctions (.slot i) := by
      change i < rpcSocketMaxArgs
      omega
    have hread : Access.InBounds length numFunctions (.read offset.toNat 16) := .inr hheader
    rw [recvItems_succ]
    generalize hitem : RpcSocketItem.ofPacket packet offset.toNat (slots i).item = item at *
    dsimp only
    have hupdate (pointer : Option Memory) : ∀ k, i + 1 ≤ k →
        (null k ↔ (Function.update slots i { item with item := pointer } k).item = none) := by
      intro k hk
      rw [Function.update_of_ne (by omega)]
      exact hnull k (by omega)
    have hitems : ItemsOk packet length (fun _ => False) n (i + 1)
        (offset + 16 + item.dataSize).toNat := by
      rw [hend, ← hitem]
      exact hrest
    obtain ⟨hiff, hfinal⟩ := ih hitems (by omega)
      (hupdate (recvPointer packet (offset + 16).toNat item).2)
    refine ⟨?_, hfinal⟩
    simp only [List.forall_mem_cons, List.forall_mem_append, hslot, hread, true_and]
    rw [recvPointer_inBounds_iff hdata, hiff, hend, h16, ItemsOk]
    subst hitem
    simp only [hheader, true_and, hnull i (Nat.le_refl i)]
    exact Iff.rfl

/-! ## Packets -/

theorem PacketOk.mono (h : PacketOk packet length null) (hnull : ∀ k, null' k → null k) :
    PacketOk packet length null' :=
  ⟨h.header, h.room, h.count, h.items.mono fun k _ => hnull k⟩

/-- A packet is judged by its bytes. -/
theorem PacketOk.congr (h : PacketOk packet length null)
    (hbytes : ∀ k < length, packet' k = packet k) : PacketOk packet' length null := by
  have hheader : RpcSocketHeader.ofPacket packet' = RpcSocketHeader.ofPacket packet := by
    have hunit (k : Nat) (hk : k + 4 ≤ 16) : peek packet' k 4 = peek packet k 4 :=
      peek_congr fun j _ hj => hbytes j (by have := h.header; omega)
    simp only [RpcSocketHeader.ofPacket]
    rw [hunit 0 (by decide), hunit 4 (by decide), hunit 8 (by decide), hunit 12 (by decide)]
  refine ⟨h.header, h.room, ?_, ?_⟩
  · rw [hheader]
    exact h.count
  · rw [hheader]
    exact h.items.congr hbytes

theorem parsePacket_eq {length : BitVec 32} {rest : List UInt8} :
    (parsePacket packet length slots rest).1 =
      let r := recvItems packet (RpcSocketHeader.ofPacket packet).numItems.toNat 0 16 slots
      .read 0 16 :: (r.1 ++ [.read 0 r.2.2.toNat]) := rfl

/-- A well formed packet is taken apart inside its length exactly when the numbers printed for its
items are inside it. -/
theorem parsePacket_inBounds_iff {length : BitVec 32} {rest : List UInt8}
    (hwf : WellFormed packet length.toNat) :
    (∀ a ∈ (parsePacket packet length slots rest).1, a.InBounds length.toNat numFunctions) ↔
      PacketOk packet length.toNat fun k => (slots k).item = none := by
  have hcount : 0 + (RpcSocketHeader.ofPacket packet).numItems.toNat ≤ rpcSocketMaxArgs := by
    rw [Nat.zero_add]
    exact hwf.count
  have hnull : ∀ k, 0 ≤ k → ((slots k).item = none ↔ (slots k).item = none) :=
    fun _ _ => Iff.rfl
  have hitems : ItemsOk packet length.toNat (fun _ => False)
      (RpcSocketHeader.ofPacket packet).numItems.toNat 0 (16 : BitVec 32).toNat := hwf.items
  obtain ⟨hiff, hfinal⟩ := recvItems_inBounds_iff hwf.room hitems hcount hnull
  have hheader : Access.InBounds length.toNat numFunctions (.read 0 16) := .inr hwf.header
  have hprint : Access.InBounds length.toNat numFunctions (.read 0
      (recvItems packet (RpcSocketHeader.ofPacket packet).numItems.toNat 0 16 slots).2.2.toNat) := by
    refine .inr ?_
    rw [Nat.zero_add]
    exact hfinal
  rw [parsePacket_eq]
  simp only [List.forall_mem_cons, List.forall_mem_append, hheader, true_and, hprint,
    List.not_mem_nil, false_imp_iff, implies_true, and_true]
  rw [hiff]
  exact ⟨fun h => ⟨hwf.header, hwf.room, hwf.count, h⟩, fun h => h.items⟩

/-! ## Receiving -/

/-- `rpc_socket_recv` keeps inside its bounds, and what it accepts is well formed. -/
structure RecvSafe (numFunctions : Nat) (stream : List UInt8) (packet : Memory)
    (slots : Nat → RpcSocketItem (Option Memory)) : Prop where
  accesses : ∀ a ∈ (rpcSocketRecv stream packet rpcSocketMaxPacket slots).1,
    a.InBounds (streamLength stream) numFunctions
  accepted : ∀ received,
    (rpcSocketRecv stream packet rpcSocketMaxPacket slots).2 = some received →
      WellFormed received.packet (streamLength stream)

variable {stream : List UInt8}

theorem socketRecv_of_le {n : Nat} (hn : 0 < n) (h : n ≤ stream.length) :
    socketRecv stream n = (stream.take n, some (stream.drop n)) := by
  rw [socketRecv, if_neg (by omega), if_neg (by omega), if_pos (by omega), Int.toNat_natCast]

theorem socketRecv_of_lt {n : Nat} (h : stream.length < n) :
    socketRecv stream n = (stream, none) := by
  rw [socketRecv, if_neg (by omega), if_neg (by omega), if_neg (by omega)]

theorem socketRecv_nil {n : Int} : socketRecv [] n = ([], none) := by
  rw [socketRecv, if_pos rfl]
  split_ifs with hzero hneg hle
  · rfl
  · rfl
  · rw [List.length_nil] at hle
    omega
  · rfl

/-- `rpc_socket_recv` when the length of the packet has arrived. -/
theorem rpcSocketRecv_eq_of_le (h : 4 ≤ stream.length) (packet : Memory)
    (slots : Nat → RpcSocketItem (Option Memory)) :
    rpcSocketRecv stream packet rpcSocketMaxPacket slots =
      if rpcSocketMaxPacket < streamLength stream then ([], none)
      else
        match socketRecv (stream.drop 4) ((streamLength stream : Int) - 4) with
        | (bytes, none) => ([.recv 4 bytes.length], none)
        | (bytes, some rest) =>
          let r := parsePacket (poke (poke packet 0 (stream.take 4)) 4 bytes)
            (unitOf 32 (stream.take 4)) slots rest
          (.recv 4 bytes.length :: r.1, some r.2) := by
  have hfirst : socketRecv stream 4 = (stream.take 4, some (stream.drop 4)) :=
    socketRecv_of_le (by decide) h
  have hunit : unitBytes (unitOf 32 (stream.take 4)) = stream.take 4 :=
    unitBytes_unitOf (by decide) (by rw [List.length_take]; omega)
  rw [rpcSocketRecv, hfirst]
  dsimp only
  rw [hunit]
  rfl

theorem rpcSocketRecv_of_refused (h : Refused stream) (packet : Memory)
    (slots : Nat → RpcSocketItem (Option Memory)) (numFunctions : Nat) :
    (rpcSocketRecv stream packet rpcSocketMaxPacket slots).2 = none ∧
      ∀ a ∈ (rpcSocketRecv stream packet rpcSocketMaxPacket slots).1,
        a.InBounds (streamLength stream) numFunctions := by
  by_cases hshort : stream.length < 4
  · have hfirst : socketRecv stream 4 = (stream, none) := socketRecv_of_lt hshort
    rw [rpcSocketRecv, hfirst]
    exact ⟨rfl, fun a ha => absurd ha List.not_mem_nil⟩
  · rw [rpcSocketRecv_eq_of_le (Nat.not_lt.mp hshort)]
    split_ifs with hlong
    · exact ⟨rfl, fun a ha => absurd ha List.not_mem_nil⟩
    · -- The rest of the packet does not arrive, and what arrives of it is shorter.
      have hrest : ∃ bytes, socketRecv (stream.drop 4) ((streamLength stream : Int) - 4) =
          (bytes, none) ∧ 4 + bytes.length ≤ rpcSocketMaxPacket := by
        have h4 : 4 ≤ stream.length := Nat.not_lt.mp hshort
        rcases h with hnothing | hempty | hlength | hmissing
        · have hnil : stream.drop 4 = [] := List.drop_eq_nil_of_le hnothing
          rw [hnil]
          exact ⟨[], socketRecv_nil, by decide⟩
        · have hzero : (streamLength stream : Int) - 4 = 0 := by omega
          rw [hzero]
          exact ⟨[], rfl, by decide⟩
        · exact absurd hlength hlong
        · have hn : (streamLength stream : Int) - 4 = ((streamLength stream - 4 : Nat) : Int) := by
            omega
          rw [hn, socketRecv_of_lt (by rw [List.length_drop]; omega)]
          refine ⟨_, rfl, ?_⟩
          rw [List.length_drop]
          omega
      obtain ⟨bytes, hbytes, hlength⟩ := hrest
      rw [hbytes]
      refine ⟨rfl, ?_⟩
      intro a ha
      rw [List.mem_singleton.mp ha]
      exact hlength

theorem rpcSocketRecv_of_not_refused (h : ¬Refused stream) (packet : Memory)
    (slots : Nat → RpcSocketItem (Option Memory)) :
    ∃ packet' rest k,
      rpcSocketRecv stream packet rpcSocketMaxPacket slots =
        (.recv 4 k :: (parsePacket packet' (unitOf 32 (stream.take 4)) slots rest).1,
          some (parsePacket packet' (unitOf 32 (stream.take 4)) slots rest).2) ∧
      (∀ i < streamLength stream, packet' i = streamMemory stream i) ∧
      (4 < streamLength stream → 4 + k = streamLength stream) := by
  simp only [Refused, not_or, Nat.not_le, Nat.not_lt] at h
  obtain ⟨hlong, hne, hroom, harrived⟩ := h
  have hfirst : (stream.take 4).length = 4 := by
    rw [List.length_take]
    omega
  -- What is put in the packet are the first bytes of the stream.
  have hbytes (k : Nat) (hk : 4 + k ≤ stream.length) (i : Nat) (hi : i < 4 + k) :
      poke (poke packet 0 (stream.take 4)) 4 ((stream.drop 4).take k) i = streamMemory stream i := by
    have hjoin : poke packet 0 (stream.take 4 ++ (stream.drop 4).take k) = _ := poke_append
    have hi' : i < (stream.take (4 + k)).length := by
      rw [List.length_take]
      omega
    have hget : poke packet 0 (stream.take (4 + k)) (0 + i) = _ := poke_add hi'
    rw [hfirst, ← List.take_add] at hjoin
    rw [Nat.zero_add, List.getElem_take] at hget
    rw [← hjoin, hget, streamMemory, List.getD_eq_getElem?_getD,
      List.getElem?_eq_getElem (by omega), Option.getD_some]
  rw [rpcSocketRecv_eq_of_le (Nat.le_of_lt hlong), if_neg (Nat.not_lt.mpr hroom)]
  rcases Nat.lt_or_gt_of_ne hne with hlt | hgt
  · -- The length is less than that of the header: all bytes there are are received.
    have hneg : socketRecv (stream.drop 4) ((streamLength stream : Int) - 4) =
        (stream.drop 4, some []) := by
      rw [socketRecv, if_neg (by omega), if_pos (by omega), if_neg]
      intro hnil
      have hlength := congrArg List.length hnil
      rw [List.length_drop, List.length_nil] at hlength
      omega
    rw [hneg]
    refine ⟨_, _, _, rfl, ?_, fun h4 => by omega⟩
    intro i hi
    have hall := hbytes (stream.length - 4) (by omega) i (by omega)
    have htake : (stream.drop 4).take (stream.length - 4) = stream.drop 4 :=
      List.take_of_length_le (Nat.le_of_eq List.length_drop)
    rwa [htake] at hall
  · have hn : (streamLength stream : Int) - 4 = ((streamLength stream - 4 : Nat) : Int) := by omega
    rw [hn, socketRecv_of_le (by omega) (by rw [List.length_drop]; omega)]
    refine ⟨_, _, _, rfl, ?_, ?_⟩
    · intro i hi
      exact hbytes (streamLength stream - 4) (by omega) i (by omega)
    · intro _
      rw [List.length_take, List.length_drop]
      omega

/-- `rpc_socket_recv` is safe exactly on the bytes it refuses and on those that are a packet. -/
theorem rpcSocketRecv_safe_iff :
    RecvSafe numFunctions stream packet slots ↔
      Refused stream ∨
        PacketOk (streamMemory stream) (streamLength stream) fun k => (slots k).item = none := by
  by_cases hrefused : Refused stream
  · obtain ⟨hnone, haccesses⟩ := rpcSocketRecv_of_refused hrefused packet slots numFunctions
    refine iff_of_true ⟨haccesses, fun received hreceived => ?_⟩ (.inl hrefused)
    rw [hnone] at hreceived
    cases hreceived
  obtain ⟨packet', rest, k, heq, hbytes, hk⟩ := rpcSocketRecv_of_not_refused hrefused packet slots
  constructor
  · intro hsafe
    have hwf : WellFormed packet' (streamLength stream) :=
      hsafe.accepted _ (congrArg Prod.snd heq)
    have haccesses := hsafe.accesses
    rw [heq, List.forall_mem_cons] at haccesses
    have hok := (parsePacket_inBounds_iff hwf).mp haccesses.2
    exact .inr (hok.congr fun k hk => (hbytes k hk).symm)
  · rintro (h | hok)
    · exact absurd h hrefused
    have hok' := hok.congr hbytes
    have hwf : WellFormed packet' (streamLength stream) := hok'.mono fun _ h => h.elim
    constructor
    · rw [heq, List.forall_mem_cons]
      refine ⟨?_, (parsePacket_inBounds_iff hwf).mpr hok'⟩
      change 4 + k ≤ rpcSocketMaxPacket
      rw [hk (Nat.lt_of_lt_of_le (by decide) hok.header)]
      exact hok.room
    · intro received hreceived
      rw [heq] at hreceived
      cases hreceived
      exact hwf

/-! ## The server -/

/-- What is received has the header of its packet. -/
theorem numItems_of_recv {len : Nat} {received : Received}
    (h : (rpcSocketRecv stream packet len slots).2 = some received) :
    received.header.numItems = (RpcSocketHeader.ofPacket received.packet).numItems := by
  rw [rpcSocketRecv] at h
  split at h
  · cases h
  · dsimp only at h
    split_ifs at h with hlen
    split at h
    · cases h
    · cases h
      rfl

variable {σ : Type} {functions : List (Option (RpcServerFunction σ))} {s : σ}

/-- A round of the server keeps inside its bounds, and the request it accepts is well formed. -/
structure RoundSafe (functions : List (Option (RpcServerFunction σ))) (s : σ)
    (stream : List UInt8) : Prop where
  accesses : ∀ a ∈ (serverRound functions s stream).accesses,
    a.InBounds (streamLength stream) functions.length
  accepted : ∀ request, (serverRound functions s stream).request = some request →
    WellFormed request.packet (streamLength stream)

/-- What a round does after it has received a request is inside its bounds if the request has not
too many items. -/
theorem serverRound_accesses (functions : List (Option (RpcServerFunction σ))) (s : σ)
    (length : Nat) {accesses : List Access} {request : Received}
    (hrecv : rpcSocketRecv stream (fun _ => 0) rpcSocketMaxPacket (fun _ => zeroItem) =
      (accesses, some request)) :
    (serverRound functions s stream).request = some request ∧
    ∃ others, (serverRound functions s stream).accesses = accesses ++ others ∧
      (request.header.numItems.toNat ≤ rpcSocketMaxArgs →
        ∀ a ∈ others, a.InBounds length functions.length) := by
  have hlt {i : Nat} {function : Option (RpcServerFunction σ)}
      (hfunction : functions[i]? = some function) : i < functions.length :=
    (List.getElem?_eq_some_iff.mp hfunction).1
  rw [serverRound, hrecv]
  dsimp only
  cases hfunction : functions[request.header.function.toNat]? with
  | none => exact ⟨rfl, [], (List.append_nil _).symm, fun _ a ha => absurd ha List.not_mem_nil⟩
  | some function =>
    cases function with
    | none =>
      refine ⟨rfl, _, rfl, fun _ a ha => ?_⟩
      rw [List.mem_singleton.mp ha]
      exact hlt hfunction
    | some function =>
      dsimp only
      rw [List.append_assoc accesses, List.append_assoc accesses]
      refine ⟨rfl, _, rfl, fun hcount => ?_⟩
      simp only [List.forall_mem_append, List.forall_mem_map, List.mem_range, List.mem_singleton,
        forall_eq]
      refine ⟨⟨hlt hfunction, fun k hk => Nat.lt_of_lt_of_le hk hcount⟩, fun k hk => ?_⟩
      -- The array of returns has as many elements as that of items.
      split_ifs at hk
      · exact Nat.lt_of_lt_of_le hk (function s _).2.2.property
      · exact absurd hk (Nat.not_lt_zero k)

/-- A round of the server is safe exactly if its call of `rpc_socket_recv` is. -/
theorem serverRound_safe_iff :
    RoundSafe functions s stream ↔
      RecvSafe functions.length stream (fun _ => 0) fun _ => zeroItem := by
  cases hrecv : rpcSocketRecv stream (fun _ => 0) rpcSocketMaxPacket (fun _ => zeroItem) with
  | mk accesses received =>
    cases received with
    | none =>
      have haccesses : (serverRound functions s stream).accesses = accesses := by
        rw [serverRound, hrecv]
      have hrequest : (serverRound functions s stream).request = none := by
        rw [serverRound, hrecv]
      constructor
      · intro h
        refine ⟨?_, fun received hreceived => ?_⟩
        · rw [hrecv, ← haccesses]
          exact h.accesses
        · rw [hrecv] at hreceived
          cases hreceived
      · intro h
        refine ⟨?_, fun request hsome => ?_⟩
        · rw [haccesses]
          have hsafe := h.accesses
          rwa [hrecv] at hsafe
        · rw [hrequest] at hsome
          cases hsome
    | some request =>
      -- the accesses after the receive stay inside for a request of at most ten items
      obtain ⟨hrequest, others, haccesses, hothers⟩ :=
        serverRound_accesses functions s (streamLength stream) hrecv
      constructor
      · intro h
        refine ⟨?_, fun received hreceived => ?_⟩
        · have hsafe := h.accesses
          rw [haccesses, List.forall_mem_append] at hsafe
          rw [hrecv]
          exact hsafe.1
        · rw [hrecv] at hreceived
          exact h.accepted received (hrequest.trans hreceived)
      · intro h
        have haccepted : ∀ received, some request = some received →
            WellFormed received.packet (streamLength stream) := by
          intro received hreceived
          exact h.accepted received ((congrArg Prod.snd hrecv).trans hreceived)
        refine ⟨?_, fun received hreceived => haccepted received (hrequest.symm.trans hreceived)⟩
        have hcount := (haccepted request rfl).count
        rw [← numItems_of_recv (congrArg Prod.snd hrecv)] at hcount
        have hsafe := h.accesses
        rw [hrecv] at hsafe
        rw [haccesses, List.forall_mem_append]
        exact ⟨hsafe, hothers hcount⟩

/-- The server goes on to another round. -/
def ServerNext (functions : List (Option (RpcServerFunction σ))) (st st' : σ × List UInt8) : Prop :=
  (serverRound functions st.1 st.2).next = some st'

/-- `rpc_socket_recv` and all rounds of the server keep inside their bounds and accept well formed
packets only, exactly when the bytes they find are refused or a packet. -/
theorem rpcSocketServer_safe_iff (functions : List (Option (RpcServerFunction σ))) :
    (∀ stream packet slots, RecvSafe functions.length stream packet slots ↔
      Refused stream ∨
        PacketOk (streamMemory stream) (streamLength stream) fun k => (slots k).item = none) ∧
    ∀ s stream,
      (∀ st, Relation.ReflTransGen (ServerNext functions) (s, stream) st →
        RoundSafe functions st.1 st.2) ↔
      ∀ st, Relation.ReflTransGen (ServerNext functions) (s, stream) st →
        Refused st.2 ∨ PacketOk (streamMemory st.2) (streamLength st.2) fun _ => True := by
  refine ⟨fun _ _ _ => rpcSocketRecv_safe_iff, fun s stream => ?_⟩
  have hround (st : σ × List UInt8) : RoundSafe functions st.1 st.2 ↔
      Refused st.2 ∨ PacketOk (streamMemory st.2) (streamLength st.2) fun _ => True := by
    rw [serverRound_safe_iff, rpcSocketRecv_safe_iff]
    simp only [zeroItem]
  simp only [hround]

/-- A packet of 16 bytes that says it has 11 items. -/
def elevenItems : List UInt8 := [16, 0, 0, 0, 0, 0, 0, 0, 0, 0, 0, 0, 11, 0, 0, 0]

theorem elevenItems_not_safe :
    ¬RoundSafe ([] : List (Option (RpcServerFunction Unit))) () elevenItems := by
  rw [serverRound_safe_iff, rpcSocketRecv_safe_iff]
  rintro (hrefused | hok)
  · exact absurd hrefused (by decide)
  · exact absurd hok.count (by decide)

end DVP.Sosal
