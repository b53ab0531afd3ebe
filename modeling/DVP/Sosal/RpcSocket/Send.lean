import DVP.Sosal.RpcSocket.Basic

/-!
# Sending packets

`rpc_socket_send` adds up the sizes of the items in 32 bits and compares the sum with the length of
the packet.

* `rpcSocketSend_of_fits`: items that fit are sent, one after the other.
* `rpcSocketSend_rejects_iff`: other items are rejected, without an access outside the packet, unless
  the sum of the code wraps at the first item that does not fit.
-/

namespace DVP.Sosal

open Bytes

/-! ## Sizes -/

section Sizes

variable {P : Type}

/-- The number of bytes in the data of an item. -/
def RpcSocketItem.size (item : RpcSocketItem P) : Nat :=
  item.sizeElement.toNat * item.numElements.toNat

/-- The bytes of a packet with some items. -/
def packetSize (items : List (RpcSocketItem P)) : Nat :=
  16 + (items.map fun item => 16 + item.size).sum

/-- The items fit a packet. -/
def Fits (items : List (RpcSocketItem P)) : Prop := packetSize items ≤ rpcSocketMaxPacket

instance (items : List (RpcSocketItem P)) : Decidable (Fits items) :=
  inferInstanceAs (Decidable (_ ≤ _))

theorem length_le_packetSize (items : List (RpcSocketItem P)) :
    16 * items.length ≤ packetSize items := by
  rw [packetSize]
  induction items with
  | nil => exact Nat.zero_le _
  | cons item items ih =>
    rw [List.length_cons, List.map_cons, List.sum_cons]
    omega

theorem dataSize_toNat {item : RpcSocketItem P} : item.dataSize.toNat = item.size % 2 ^ 32 :=
  BitVec.toNat_mul _ _

/-- The sum the code compares with the length of the packet. -/
theorem toNat_add_itemLength {offset : BitVec 32} {item : RpcSocketItem P} :
    (offset + (rpcSocketItemLength item).length).toNat =
      (offset.toNat + 16 + item.dataSize.toNat) % 2 ^ 32 := by
  have h16 : (16 : BitVec 32).toNat = 16 := rfl
  rw [rpcSocketItemLength, RpcSocketItem.dataSize, BitVec.mul_comm item.sizeElement,
    BitVec.toNat_add, BitVec.toNat_add, h16]
  omega

end Sizes

variable {packet : Memory} {len : Nat} {offset : BitVec 32} {item : RpcSocketItem Memory}
  {items : List (RpcSocketItem Memory)}

/-- The data of an item. -/
def RpcSocketItem.data (item : RpcSocketItem Memory) : List UInt8 :=
  peek item.item 0 item.dataSize.toNat

/-- The bytes of an item in a packet. -/
def itemBytes (item : RpcSocketItem Memory) : List UInt8 :=
  (rpcSocketItemLength item).bytes ++ item.data

/-- The write is inside the packet. -/
def Access.Within (len : Nat) : Access → Prop
  | .write o n => o + n ≤ len
  | _ => True

@[simp]
theorem length_bytes {P : Type} {item : RpcSocketItem P} : item.bytes.length = 16 := by
  simp [RpcSocketItem.bytes]

@[simp]
theorem length_headerBytes {header : RpcSocketHeader} : header.bytes.length = 16 := by
  simp [RpcSocketHeader.bytes]

@[simp]
theorem length_itemBytes : (itemBytes item).length = 16 + item.dataSize.toNat := by
  simp [itemBytes, RpcSocketItem.data]

/-! ## The loop over the items -/

/-- The round of the loop for an item. -/
theorem sendItems_cons :
    sendItems len packet offset ((item :: items).map rpcSocketItemLength) =
      if (offset.toNat + 16 + item.dataSize.toNat) % 2 ^ 32 ≤ len then
        let packet := poke packet offset.toNat (rpcSocketItemLength item).bytes
        let packet := poke packet (offset + 16).toNat item.data
        let r := sendItems len packet (offset + 16 + item.dataSize) (items.map rpcSocketItemLength)
        (.write offset.toNat 16 :: .write (offset + 16).toNat item.dataSize.toNat :: r.1, r.2)
      else ([], packet, none) := by
  rw [List.map_cons, sendItems, toNat_add_itemLength]
  rfl

/-- Items that fit are written one after the other. -/
theorem sendItems_of_fits (packet : Memory) (hlen : len < 2 ^ 32)
    (h : offset.toNat + (items.flatMap itemBytes).length ≤ len) :
    (sendItems len packet offset (items.map rpcSocketItemLength)).2 =
      (poke packet offset.toNat (items.flatMap itemBytes),
        some (offset + BitVec.ofNat 32 (items.flatMap itemBytes).length)) ∧
    ∀ a ∈ (sendItems len packet offset (items.map rpcSocketItemLength)).1, a.Within len := by
  induction items generalizing packet offset with
  | nil => simp [sendItems]
  | cons item items ih =>
    rw [List.flatMap_cons, List.length_append, length_itemBytes] at h
    -- nothing wraps, as all of it fits
    have hheader : (offset + 16).toNat = offset.toNat + 16 := by
      rw [BitVec.toNat_add, Nat.mod_eq_of_lt (by simp; omega)]
      rfl
    have hnext : (offset + 16 + item.dataSize).toNat =
        offset.toNat + 16 + item.dataSize.toNat := by
      rw [BitVec.toNat_add, hheader, Nat.mod_eq_of_lt (by omega)]
    have hroom : (offset.toNat + 16 + item.dataSize.toNat) % 2 ^ 32 ≤ len := by
      rw [Nat.mod_eq_of_lt (by omega)]
      omega
    rw [sendItems_cons, if_pos hroom]
    dsimp only
    have hfits : (offset + 16 + item.dataSize).toNat + (items.flatMap itemBytes).length ≤ len := by
      rw [hnext]
      omega
    constructor
    · rw [(ih _ hfits).1, hnext, hheader]
      simp only [List.flatMap_cons, itemBytes, poke_append, List.length_append, length_bytes,
        RpcSocketItem.data, length_peek, BitVec.ofNat_add, BitVec.ofNat_toNat,
        BitVec.setWidth_eq, ← BitVec.add_assoc, ← Nat.add_assoc]
      rfl
    · intro a ha
      rcases List.mem_cons.mp ha with rfl | ha
      · change offset.toNat + 16 ≤ len
        omega
      · rcases List.mem_cons.mp ha with rfl | ha
        · change (offset + 16).toNat + item.dataSize.toNat ≤ len
          omega
        · exact (ih _ hfits).2 a ha

/-! ## Items that do not fit -/

/-- The sum the code computes for the first item that ends beyond the packet is beyond it too. -/
def RejectsFrom (total : Nat) : List (RpcSocketItem Memory) → Prop
  | [] => False
  | item :: items =>
    if total + 16 + item.dataSize.toNat ≤ rpcSocketMaxPacket then
      RejectsFrom (total + 16 + item.dataSize.toNat) items
    else rpcSocketMaxPacket < (total + 16 + item.dataSize.toNat) % 2 ^ 32

instance decidableRejectsFrom : (total : Nat) → (items : List (RpcSocketItem Memory)) →
    Decidable (RejectsFrom total items)
  | _, [] => isFalse id
  | total, item :: items =>
    let _ := decidableRejectsFrom (total + 16 + item.dataSize.toNat) items
    inferInstanceAs (Decidable (if _ ≤ _ then _ else _ < _))

/-- Items are rejected, with no write outside the packet, exactly when the sum of the code does not
wrap at the first of them that ends beyond the packet. -/
theorem sendItems_rejects_iff (packet : Memory) (hoffset : offset.toNat ≤ rpcSocketMaxPacket) :
    RejectsFrom offset.toNat items ↔
      (sendItems rpcSocketMaxPacket packet offset (items.map rpcSocketItemLength)).2.2 = none ∧
      ∀ a ∈ (sendItems rpcSocketMaxPacket packet offset (items.map rpcSocketItemLength)).1,
        a.Within rpcSocketMaxPacket := by
  have hmax : rpcSocketMaxPacket = 1456 := rfl
  induction items generalizing packet offset with
  | nil => simp [RejectsFrom, sendItems]
  | cons item items ih =>
    rw [RejectsFrom, sendItems_cons]
    by_cases hroom : offset.toNat + 16 + item.dataSize.toNat ≤ rpcSocketMaxPacket
    · -- The item ends inside the packet, and so do the writes.
      have hheader : (offset + 16).toNat = offset.toNat + 16 := by
        rw [BitVec.toNat_add, Nat.mod_eq_of_lt (by simp; omega)]
        rfl
      have hnext : (offset + 16 + item.dataSize).toNat =
          offset.toNat + 16 + item.dataSize.toNat := by
        rw [BitVec.toNat_add, hheader, Nat.mod_eq_of_lt (by omega)]
      have hmod : (offset.toNat + 16 + item.dataSize.toNat) % 2 ^ 32 ≤ rpcSocketMaxPacket := by
        rw [Nat.mod_eq_of_lt (by omega)]
        exact hroom
      have hrest := ih (poke (poke packet offset.toNat (rpcSocketItemLength item).bytes)
        (offset + 16).toNat item.data) (Nat.le_trans (Nat.le_of_eq hnext) hroom)
      rw [if_pos hroom, if_pos hmod, ← hnext]
      refine hrest.trans ?_
      dsimp only
      simp only [List.forall_mem_cons]
      have hfirst : Access.Within rpcSocketMaxPacket (.write offset.toNat 16) := by
        change offset.toNat + 16 ≤ _
        omega
      have hsecond : Access.Within rpcSocketMaxPacket
          (.write (offset + 16).toNat item.dataSize.toNat) := by
        change (offset + 16).toNat + _ ≤ _
        omega
      simp only [hfirst, hsecond, true_and]
    · rw [if_neg hroom]
      by_cases hmod : (offset.toNat + 16 + item.dataSize.toNat) % 2 ^ 32 ≤ rpcSocketMaxPacket
      · -- The sum has wrapped: the data are written although they end beyond the packet.
        rw [if_pos hmod]
        have hheader : (offset + 16).toNat = offset.toNat + 16 := by
          rw [BitVec.toNat_add, Nat.mod_eq_of_lt (by simp; omega)]
          rfl
        constructor
        · intro hlt
          exact absurd hmod (Nat.not_le.mpr hlt)
        · rintro ⟨-, hwithin⟩
          have hdata : (offset + 16).toNat + item.dataSize.toNat ≤ rpcSocketMaxPacket :=
            hwithin (.write _ _) (List.mem_cons_of_mem _ List.mem_cons_self)
          omega
      · rw [if_neg hmod]
        simp only [List.not_mem_nil, false_imp_iff, implies_true, and_true, iff_true]
        exact Nat.lt_of_not_le hmod

/-! ## The packet -/

/-- The header of a packet with some items. -/
def packetHeader (function direction : BitVec 32) (items : List (RpcSocketItem Memory)) :
    RpcSocketHeader where
  length := (items.map rpcSocketItemLength).foldl
    (fun (length : BitVec 32) item => length + item.length) 16
  function := function
  direction := direction
  numItems := BitVec.ofNat 32 items.length

/-- The bytes of a packet with some items. -/
def packetBytes (function direction : BitVec 32) (items : List (RpcSocketItem Memory)) :
    List UInt8 :=
  (packetHeader function direction items).bytes ++ items.flatMap itemBytes

variable {function direction : BitVec 32} {header : RpcSocketHeader}

theorem size_lt_of_fits (h : Fits items) (hitem : item ∈ items) : item.size < 2 ^ 32 := by
  obtain ⟨before, after, rfl⟩ := List.append_of_mem hitem
  have hmax : packetSize (before ++ item :: after) ≤ 1456 := h
  rw [packetSize, List.map_append, List.sum_append, List.map_cons, List.sum_cons] at hmax
  omega

/-- The bytes of items that fit. -/
theorem length_flatMap_itemBytes (h : Fits items) :
    16 + (items.flatMap itemBytes).length = packetSize items := by
  have hmap : items.map (fun item => (itemBytes item).length) =
      items.map fun item => 16 + item.size := by
    apply List.map_congr_left
    intro item hitem
    rw [length_itemBytes, dataSize_toNat, Nat.mod_eq_of_lt (size_lt_of_fits h hitem)]
  rw [List.length_flatMap, hmap, packetSize]

theorem length_packetBytes (h : Fits items) :
    (packetBytes function direction items).length = packetSize items := by
  rw [packetBytes, List.length_append, length_headerBytes, length_flatMap_itemBytes h]

/-- The length in the header is the number of bytes. -/
theorem packetHeader_length (h : Fits items) :
    (packetHeader function direction items).length.toNat = packetSize items := by
  have hsum (length : BitVec 32) : (items.map rpcSocketItemLength).foldl
      (fun (length : BitVec 32) item => length + item.length) length =
        length + BitVec.ofNat 32 (items.flatMap itemBytes).length := by
    clear h
    induction items generalizing length with
    | nil => simp
    | cons item items ih =>
      rw [List.map_cons, List.foldl_cons, ih, List.flatMap_cons, List.length_append,
        length_itemBytes, BitVec.ofNat_add, BitVec.ofNat_add, BitVec.ofNat_toNat,
        BitVec.setWidth_eq, BitVec.add_assoc]
      rw [rpcSocketItemLength, RpcSocketItem.dataSize, BitVec.mul_comm item.sizeElement]
      rfl
  have hmax : packetSize items ≤ 1456 := h
  have h16 : (16 : BitVec 32).toNat = 16 := rfl
  rw [packetHeader, hsum, BitVec.toNat_add, BitVec.toNat_ofNat, h16]
  rw [← length_flatMap_itemBytes h] at hmax ⊢
  omega

theorem rpcSocketSend_eq (length : BitVec 32) :
    rpcSocketSend packet len ⟨length, function, direction, BitVec.ofNat 32 items.length⟩ items =
      let r := sendItems len (poke packet 0 (packetHeader function direction items).bytes) 16
        (items.map rpcSocketItemLength)
      ⟨.write 0 16 :: r.1, r.2.1, r.2.2.map fun offset => peek r.2.1 0 offset.toNat⟩ := rfl

/-- Items that fit are sent. -/
theorem rpcSocketSend_of_fits (function direction : BitVec 32) (h : Fits items) (packet : Memory) (length : BitVec 32) :
    (rpcSocketSend packet rpcSocketMaxPacket
      ⟨length, function, direction, BitVec.ofNat 32 items.length⟩ items).sent =
        some (packetBytes function direction items) ∧
    ∀ a ∈ (rpcSocketSend packet rpcSocketMaxPacket
      ⟨length, function, direction, BitVec.ofNat 32 items.length⟩ items).accesses,
        a.Within rpcSocketMaxPacket := by
  have hmax : packetSize items ≤ 1456 := h
  have h16 : (16 : BitVec 32).toNat = 16 := rfl
  have hlength := length_flatMap_itemBytes h
  have hroom : (16 : BitVec 32).toNat + (items.flatMap itemBytes).length ≤ rpcSocketMaxPacket := by
    rw [h16, hlength]
    exact hmax
  have hend : ((16 : BitVec 32) + BitVec.ofNat 32 (items.flatMap itemBytes).length).toNat =
      (packetBytes function direction items).length := by
    rw [length_packetBytes h, BitVec.toNat_add, BitVec.toNat_ofNat, h16]
    omega
  have hlen : rpcSocketMaxPacket < 2 ^ 32 := by decide
  have hloop (packet : Memory) := sendItems_of_fits packet hlen hroom
  constructor
  · -- The header and the items after it are one run of bytes.
    have hjoin : poke (poke packet 0 (packetHeader function direction items).bytes) 16
        (items.flatMap itemBytes) = poke packet 0 (packetBytes function direction items) := by
      rw [packetBytes, poke_append, length_headerBytes]
    rw [rpcSocketSend_eq]
    dsimp only
    rw [(hloop _).1]
    dsimp only
    rw [Option.map_some, hend, h16, hjoin, peek_poke_self]
  · rw [rpcSocketSend_eq]
    dsimp only
    rw [List.forall_mem_cons]
    exact ⟨show 0 + 16 ≤ 1456 by decide, (hloop _).2⟩

theorem rpcSocketSend_rejects_iff :
    RejectsFrom 16 items ↔
      (rpcSocketSend packet rpcSocketMaxPacket header items).sent = none ∧
      ∀ a ∈ (rpcSocketSend packet rpcSocketMaxPacket header items).accesses,
        a.Within rpcSocketMaxPacket := by
  have hfirst : Access.Within rpcSocketMaxPacket (.write 0 16) := by
    change 0 + 16 ≤ 1456
    decide
  have h16 : (16 : BitVec 32).toNat ≤ rpcSocketMaxPacket := by decide
  rw [rpcSocketSend]
  dsimp only
  simp only [Option.map_eq_none_iff, List.forall_mem_cons, hfirst, true_and]
  exact sendItems_rejects_iff _ h16

end DVP.Sosal
