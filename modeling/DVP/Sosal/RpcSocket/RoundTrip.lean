import DVP.Sosal.RpcSocket.Send

/-!
# Packets make the round trip

What `rpc_socket_send` sends for items that fit is read back by `rpc_socket_recv`. Each item is found
where the sizes of the items before it end, on both sides (`recvItems_of_peek`).

* `rpcSocketRecv_packetBytes`: the items received are those sent.
* `rpcSocket_packets_iff` says for which items the packets keep their promises.
-/

namespace DVP.Sosal

open Bytes

/-- The data of an item that was received. -/
def RpcSocketItem.contents (item : RpcSocketItem (Option Memory)) : List UInt8 :=
  match item.item with
  | none => []
  | some memory => peek memory 0 item.dataSize.toNat

/-- The item received is the one sent. -/
structure ItemMatches (item : RpcSocketItem Memory) (received : RpcSocketItem (Option Memory)) :
    Prop where
  type : received.type = item.type
  sizeElement : received.sizeElement = item.sizeElement
  numElements : received.numElements = item.numElements
  data : received.contents = item.data

variable {packet : Memory} {offset : BitVec 32} {item : RpcSocketItem Memory}
  {items : List (RpcSocketItem Memory)} {slots : Nat → RpcSocketItem (Option Memory)}

/-! ## Items -/

theorem ofPacket_eq {P : Type} {o : Nat} (h : peek packet o 16 = item.bytes) (pointer : P) :
    RpcSocketItem.ofPacket packet o pointer =
      ⟨item.length, item.type, item.sizeElement, item.numElements, pointer⟩ := by
  have h8 : 8 ∣ 32 := by decide
  have hbytes : peek packet o item.bytes.length = item.bytes := by rwa [length_bytes]
  obtain ⟨h, hnumElements⟩ := peek_eq_append.mp hbytes
  obtain ⟨h, hsizeElement⟩ := peek_eq_append.mp h
  obtain ⟨hlength, htype⟩ := peek_eq_append.mp h
  simp only [List.length_append, length_unitBytes] at hlength htype hsizeElement hnumElements
  rw [RpcSocketItem.ofPacket, hlength, htype, hsizeElement, hnumElements]
  simp only [unitOf_unitBytes h8]

theorem ofPacket_header {header : RpcSocketHeader} (h : peek packet 0 16 = header.bytes) :
    RpcSocketHeader.ofPacket packet = header := by
  have h8 : 8 ∣ 32 := by decide
  have hbytes : peek packet 0 header.bytes.length = header.bytes := by rwa [length_headerBytes]
  obtain ⟨h, hnumItems⟩ := peek_eq_append.mp hbytes
  obtain ⟨h, hdirection⟩ := peek_eq_append.mp h
  obtain ⟨hlength, hfunction⟩ := peek_eq_append.mp h
  simp only [List.length_append, length_unitBytes, Nat.zero_add] at hfunction hdirection hnumItems
  rw [length_unitBytes] at hlength
  rw [RpcSocketHeader.ofPacket, hlength, hfunction, hdirection, hnumItems]
  simp only [unitOf_unitBytes h8]

/-- The pointer of an item leads to its data. -/
theorem contents_recvPointer {start : Nat} {received : RpcSocketItem (Option Memory)}
    {data : List UInt8} (hdata : peek packet start received.dataSize.toNat = data) :
    { received with item := (recvPointer packet start received).2 }.contents = data := by
  obtain ⟨length, type, sizeElement, numElements, pointer⟩ := received
  cases pointer with
  | none =>
    rw [recvPointer]
    dsimp only
    split_ifs with hlen
    · rw [← hdata, RpcSocketItem.contents]
      simp only [peek, Nat.zero_add]
      rfl
    · -- There are no data, and the pointer stays `NULL`.
      rw [Nat.eq_zero_of_not_pos hlen] at hdata
      exact hdata
  | some memory =>
    have hlength : data.length = (RpcSocketItem.dataSize
        ⟨length, type, sizeElement, numElements, some memory⟩).toNat := by
      rw [← hdata, length_peek]
    have hself : peek (poke memory 0 data) 0 data.length = data := peek_poke_self
    rw [hlength] at hself
    rw [recvPointer]
    dsimp only
    rw [hdata]
    exact hself

theorem recvItems_succ {n i : Nat} :
    recvItems packet (n + 1) i offset slots =
      let item := RpcSocketItem.ofPacket packet offset.toNat (slots i).item
      let p := recvPointer packet (offset + 16).toNat item
      let r := recvItems packet n (i + 1) (offset + 16 + item.dataSize)
        (Function.update slots i { item with item := p.2 })
      (.slot i :: .read offset.toNat 16 :: (p.1 ++ r.1), r.2) := rfl

/-- The items before `i` are left as they are. -/
theorem recvItems_of_lt {n i k : Nat} (hk : k < i) :
    (recvItems packet n i offset slots).2.1 k = slots k := by
  induction n generalizing i offset slots with
  | zero => rfl
  | succ n ih =>
    rw [recvItems_succ]
    dsimp only
    rw [ih (Nat.lt_succ_of_lt hk), Function.update_of_ne (Nat.ne_of_lt hk)]

/-- The offset after an item. -/
theorem toNat_add_item {dataSize : BitVec 32} (h : offset.toNat + 16 + dataSize.toNat < 2 ^ 32) :
    (offset + 16).toNat = offset.toNat + 16 ∧
      (offset + 16 + dataSize).toNat = offset.toNat + 16 + dataSize.toNat := by
  have hheader : (offset + 16).toNat = offset.toNat + 16 := by
    rw [BitVec.toNat_add, Nat.mod_eq_of_lt (by simp; omega)]
    rfl
  refine ⟨hheader, ?_⟩
  rw [BitVec.toNat_add, hheader, Nat.mod_eq_of_lt (by omega)]

/-- The items in a packet are received in order. -/
theorem recvItems_of_peek {i : Nat}
    (hpeek : peek packet offset.toNat (items.flatMap itemBytes).length = items.flatMap itemBytes)
    (hlt : offset.toNat + (items.flatMap itemBytes).length < 2 ^ 32) {k : Nat}
    (hk : k < items.length) :
    ItemMatches items[k] ((recvItems packet items.length i offset slots).2.1 (i + k)) := by
  induction items generalizing i offset slots k with
  | nil => exact absurd hk (Nat.not_lt_zero k)
  | cons item items ih =>
    rw [List.flatMap_cons] at hpeek hlt
    obtain ⟨hitem, hrest⟩ := peek_eq_append.mp hpeek
    rw [itemBytes] at hitem
    obtain ⟨hheader, hdata⟩ := peek_eq_append.mp hitem
    rw [List.length_append, length_itemBytes] at hlt
    have hoffset : offset.toNat + 16 + item.dataSize.toNat < 2 ^ 32 := by omega
    obtain ⟨h16, hnext⟩ := toNat_add_item hoffset
    rw [length_bytes] at hheader hdata
    rw [length_itemBytes, ← Nat.add_assoc, ← hnext] at hrest
    rw [← h16, RpcSocketItem.data, length_peek] at hdata
    rw [List.length_cons, recvItems_succ, ofPacket_eq hheader]
    dsimp only
    cases k with
    | zero =>
      rw [Nat.add_zero i, recvItems_of_lt (Nat.lt_add_one i), Function.update_self]
      exact ⟨rfl, rfl, rfl, contents_recvPointer hdata⟩
    | succ k =>
      have hk' : k < items.length := Nat.lt_of_succ_lt_succ hk
      have hmatch (slots : Nat → RpcSocketItem (Option Memory)) :
          ItemMatches items[k] ((recvItems packet items.length (i + 1) (offset + 16 + item.dataSize)
            slots).2.1 (i + 1 + k)) :=
        ih hrest (by rw [hnext]; omega) hk'
      rw [Nat.add_assoc, Nat.add_comm 1 k] at hmatch
      exact hmatch _

/-! ## Packets -/

theorem socketRecv_append {bytes rest : List UInt8} (h : bytes ≠ []) :
    socketRecv (bytes ++ rest) bytes.length = (bytes, some rest) := by
  have hpos := List.length_pos_iff.mpr h
  rw [socketRecv, if_neg (by omega), if_neg (by omega), if_pos (by rw [List.length_append]; omega),
    Int.toNat_natCast, List.take_left, List.drop_left]

/-- A packet that the sum of its sizes describes is received as a whole. -/
theorem rpcSocketRecv_eq {bytes rest : List UInt8} {len : Nat} {length : BitVec 32}
    (hlength : length.toNat = bytes.length) (hfirst : bytes.take 4 = unitBytes length)
    (h4 : 4 < bytes.length) (hlen : bytes.length ≤ len) (packet : Memory)
    (slots : Nat → RpcSocketItem (Option Memory)) :
    rpcSocketRecv (bytes ++ rest) packet len slots =
      let r := parsePacket (poke packet 0 bytes) length slots rest
      (.recv 4 (bytes.length - 4) :: r.1, some r.2) := by
  have hsplit : bytes ++ rest = unitBytes length ++ (bytes.drop 4 ++ rest) := by
    rw [← hfirst, ← List.append_assoc, List.take_append_drop]
  have hprefix : socketRecv (bytes ++ rest) 4 = (unitBytes length, some (bytes.drop 4 ++ rest)) := by
    rw [hsplit]
    exact socketRecv_append (List.ne_nil_of_length_pos (by rw [length_unitBytes]; decide))
  have hremaining : socketRecv (bytes.drop 4 ++ rest) ((length.toNat : Int) - 4) =
      (bytes.drop 4, some rest) := by
    have hn : (length.toNat : Int) - 4 = ((bytes.drop 4).length : Nat) := by
      rw [hlength, List.length_drop]
      omega
    rw [hn]
    exact socketRecv_append (List.ne_nil_of_length_pos (by rw [List.length_drop]; omega))
  have hpacket : poke (poke packet 0 (unitBytes length)) 4 (bytes.drop 4) = poke packet 0 bytes := by
    have hjoin : poke packet 0 (unitBytes length ++ bytes.drop 4) = _ := poke_append
    rw [← hfirst, List.take_append_drop, hfirst] at hjoin
    exact hjoin.symm
  rw [rpcSocketRecv, hprefix]
  dsimp only
  rw [unitOf_unitBytes (by decide), if_neg (by omega), hremaining]
  dsimp only
  rw [hpacket, List.length_drop]

variable {function direction : BitVec 32}

theorem packetHeader_numItems (h : Fits items) :
    (packetHeader function direction items).numItems.toNat = items.length := by
  have hle := length_le_packetSize items
  have hmax : packetSize items ≤ 1456 := h
  rw [packetHeader, BitVec.toNat_ofNat, Nat.mod_eq_of_lt (by omega)]

/-- The items received are those sent. -/
theorem rpcSocketRecv_packetBytes (function direction : BitVec 32) (h : Fits items) (rest : List UInt8) (packet : Memory)
    (slots : Nat → RpcSocketItem (Option Memory)) :
    ∃ received,
      (rpcSocketRecv (packetBytes function direction items ++ rest) packet rpcSocketMaxPacket
        slots).2 = some received ∧
      received.header = packetHeader function direction items ∧
      received.rest = rest ∧
      ∀ (i : Nat) (hi : i < items.length), ItemMatches items[i] (received.items i) := by
  have hmax : packetSize items ≤ rpcSocketMaxPacket := h
  have hbytes : (packetBytes function direction items).length = packetSize items :=
    length_packetBytes h
  have hlength : (packetHeader function direction items).length.toNat =
      (packetBytes function direction items).length := by
    rw [packetHeader_length h, hbytes]
  have hsize : 16 ≤ packetSize items := Nat.le_add_right _ _
  rw [rpcSocketRecv_eq hlength rfl (by omega) (by omega)]
  -- The packet holds the header and then the items.
  have hpeek : peek (poke packet 0 (packetBytes function direction items)) 0
      (packetBytes function direction items).length = packetBytes function direction items :=
    peek_poke_self
  generalize poke packet 0 (packetBytes function direction items) = packet' at hpeek
  obtain ⟨hheader, hitems⟩ := peek_eq_append.mp hpeek
  rw [length_headerBytes] at hheader hitems
  have hnumItems : (packetHeader function direction items).numItems.toNat = items.length :=
    packetHeader_numItems h
  have hfits : (16 : BitVec 32).toNat + (items.flatMap itemBytes).length < 2 ^ 32 := by
    have h16 : (16 : BitVec 32).toNat = 16 := rfl
    have h1456 : packetSize items ≤ 1456 := h
    rw [h16, length_flatMap_itemBytes h]
    omega
  refine ⟨_, rfl, ?_, rfl, ?_⟩
  · rw [parsePacket]
    dsimp only
    rw [ofPacket_header hheader]
  · intro i hi
    have hmatch : ItemMatches items[i] ((recvItems packet' items.length 0 16 slots).2.1 (0 + i)) :=
      recvItems_of_peek hitems hfits hi
    rw [Nat.zero_add] at hmatch
    rw [parsePacket]
    dsimp only
    rw [ofPacket_header hheader, hnumItems]
    exact hmatch

/-! ## Items that can be sent -/

/-- What is sent for the items is received as it was sent. -/
def RoundTrips (function direction : BitVec 32) (items : List (RpcSocketItem Memory))
    (packet : Memory) (length : BitVec 32) : Prop :=
  ∃ bytes,
    (rpcSocketSend packet rpcSocketMaxPacket
      ⟨length, function, direction, BitVec.ofNat 32 items.length⟩ items).sent = some bytes ∧
    bytes.length ≤ rpcSocketMaxPacket ∧
    (∀ a ∈ (rpcSocketSend packet rpcSocketMaxPacket
      ⟨length, function, direction, BitVec.ofNat 32 items.length⟩ items).accesses,
        a.Within rpcSocketMaxPacket) ∧
    ∀ (rest : List UInt8) (packet' : Memory) (slots : Nat → RpcSocketItem (Option Memory)),
      ∃ received,
        (rpcSocketRecv (bytes ++ rest) packet' rpcSocketMaxPacket slots).2 = some received ∧
        received.header.function = function ∧
        received.header.numItems.toNat = items.length ∧
        received.header.length.toNat = bytes.length ∧
        received.rest = rest ∧
        ∀ (i : Nat) (hi : i < items.length), ItemMatches items[i] (received.items i)

/-- The items are few and small. -/
def Small (items : List (RpcSocketItem Memory)) : Prop :=
  items.length ≤ rpcSocketMaxArgs ∧ ∀ item ∈ items, item.size ≤ rpcSocketMaxData

/-- Nothing is sent for the items, and nothing is written outside the packet. -/
def Rejected (function direction : BitVec 32) (items : List (RpcSocketItem Memory))
    (packet : Memory) (length : BitVec 32) : Prop :=
  (rpcSocketSend packet rpcSocketMaxPacket
    ⟨length, function, direction, BitVec.ofNat 32 items.length⟩ items).sent = none ∧
  ∀ a ∈ (rpcSocketSend packet rpcSocketMaxPacket
    ⟨length, function, direction, BitVec.ofNat 32 items.length⟩ items).accesses,
      a.Within rpcSocketMaxPacket

theorem Small.fits (h : Small items) : Fits items := by
  obtain ⟨hlength, hsize⟩ := h
  have hsum : (items.map fun item => 16 + item.size).sum ≤ items.length * 144 := by
    clear hlength
    induction items with
    | nil => exact Nat.zero_le _
    | cons item items ih =>
      have hitem : item.size ≤ 128 := hsize item List.mem_cons_self
      have hrest := ih fun item hitem => hsize item (List.mem_cons_of_mem _ hitem)
      rw [List.map_cons, List.sum_cons, List.length_cons]
      omega
  have h10 : items.length ≤ 10 := hlength
  change 16 + _ ≤ 1456
  omega

theorem roundTrips_of_fits (h : Fits items) (packet : Memory) (length : BitVec 32) :
    RoundTrips function direction items packet length := by
  obtain ⟨hsent, hwithin⟩ := rpcSocketSend_of_fits function direction h packet length
  have hbytes : (packetBytes function direction items).length = packetSize items :=
    length_packetBytes h
  refine ⟨packetBytes function direction items, hsent, Nat.le_trans (Nat.le_of_eq hbytes) h, hwithin, ?_⟩
  intro rest packet' slots
  obtain ⟨received, hreceived, hheader, hrest, hitems⟩ :=
    rpcSocketRecv_packetBytes function direction h rest packet' slots
  refine ⟨received, hreceived, by rw [hheader]; rfl, ?_, ?_, hrest, hitems⟩
  · rw [hheader]
    exact packetHeader_numItems h
  · rw [hheader, packetHeader_length h, hbytes]

/-- Few and small items make the round trip, and items that do not fit are rejected, exactly when the
items fit or the sum of the code does not wrap at the first of them that ends beyond the packet. -/
theorem rpcSocket_packets_iff (function direction : BitVec 32)
    (items : List (RpcSocketItem Memory)) (packet : Memory) (length : BitVec 32) :
    ((Small items → RoundTrips function direction items packet length) ∧
      (¬Fits items → Rejected function direction items packet length)) ↔
      Fits items ∨ RejectsFrom 16 items := by
  constructor
  · rintro ⟨-, hrejected⟩
    by_cases hfits : Fits items
    · exact .inl hfits
    · exact .inr (rpcSocketSend_rejects_iff.mpr (hrejected hfits))
  · intro h
    refine ⟨fun hsmall => roundTrips_of_fits hsmall.fits packet length, fun hfits => ?_⟩
    exact rpcSocketSend_rejects_iff.mp (h.resolve_left hfits)

/-- An item of 65536 elements of 65536 bytes: the code computes that it has no data. -/
def wideItem : RpcSocketItem Memory := ⟨0, 8, 65536, 65536, fun _ => 0⟩

theorem wideItem_sent :
    ¬((Small [wideItem] → RoundTrips 0 rpcSocketCalling [wideItem] (fun _ => 0) 16) ∧
      (¬Fits [wideItem] → Rejected 0 rpcSocketCalling [wideItem] (fun _ => 0) 16)) := by
  rintro ⟨-, hrejected⟩
  have hrejects := rpcSocketSend_rejects_iff.mpr (hrejected (by decide))
  exact absurd hrejects (by decide)

end DVP.Sosal
