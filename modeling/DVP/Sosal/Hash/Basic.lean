import DVP.Sosal.List.Basic

/-!
# The hash table

The table of lists of `source/sosal/hash.c`. A record is allocated, freed and leaked together with
the node that holds it, so it is the data of that node. The memory of list headers is a function of
its own; a bucket points to a header, and a header that was destroyed cannot be accessed. A call
that allocates is told which addresses `calloc` returns.
-/

namespace DVP.Sosal

/-- `record_t`. -/
structure Record where
  key : Nat
  value : Nat
  deriving DecidableEq, Repr

/-- The nodes of a table. -/
abbrev HashNodes := NodeMem Record

/-- `hash_t`, with the memory its pointers lead to. -/
structure Hash where
  size : Nat
  numTotalElem : Nat
  numActiveSlots : Nat
  numSlots : Nat
  keyFunc : Nat → Nat → Nat
  bucket : Nat → Option Ptr
  lists : Ptr → Option LinkedList
  nodes : HashNodes

/-- `hash_size_e`. -/
def hashSizes : List Nat := [8, 12, 16]

/-- `hash_compare_record`. -/
def hashCompareRecord : NodeCompare Record
  | _, _, none => .ok 0
  | m, a, some b => do
    let ra := (← m.read (some a)).data
    let rb := (← m.read (some b)).data
    return if ra.key > rb.key then 1 else if ra.key = rb.key then 0 else -1

/-- `hash_compare_record` with the node searched for. -/
def hashMatchRecord : NodeMatch Record Ptr := fun m a node => hashCompareRecord m a (some node)

/-- `hash_is_valid_index`. -/
def hashIsValidIndex (h : Hash) (hKey : Nat) : Bool :=
  decide (h.size ∈ hashSizes) && decide (hKey < h.numSlots)

/-- `hash_key_to_index`, to a `uint32_t`. -/
def hashKeyToIndex (h : Hash) (hKey : Nat) : Nat :=
  if h.size ∈ hashSizes then hKey % 2 ^ 32 else 0

/-- The list a pointer leads to. -/
def Hash.readList (h : Hash) (b : Ptr) : Except Fault LinkedList :=
  match h.lists b with
  | none => .error .badPointer
  | some l => .ok l

/-- The table with a list written. -/
def Hash.writeList (h : Hash) (b : Ptr) (l : LinkedList) : Hash :=
  { h with lists := Function.update h.lists b (some l) }

variable (a : Arch)

/-- `hash_key`. -/
def hashKey (numElem keyin : Nat) : Nat :=
  let key := keyin
  let key := a.add key (a.wrap (key <<< 10))
  let key := key ^^^ (key >>> 6)
  let key := a.add key (a.wrap (key <<< 3))
  let key := key ^^^ (key >>> 11)
  let key := a.add key (a.wrap (key <<< 15))
  let mask := (1 <<< numElem) - 1
  key &&& mask

/-- `hash_create`. No node and no list is allocated yet. -/
def hashCreate (size : Nat) (keyFunc : Option (Nat → Nat → Nat)) : Hash where
  size := size
  numTotalElem := 0
  numActiveSlots := 0
  numSlots := 1 <<< size
  keyFunc := keyFunc.getD (hashKey a)
  bucket := fun _ => none
  lists := fun _ => none
  nodes := ⟨a.size, fun _ => none⟩

/-- The branch of `hash_set` for a bucket without a list. -/
def hashSetFirst (h : Hash) (index node list : Ptr) : Except Fault Hash := do
  let h := h.writeList list LinkedList.empty
  let h := { h with bucket := Function.update h.bucket index (some list) }
  let l ← h.readList list
  let (nodes, l) ← listPush h.nodes l node
  let h := { h with nodes := nodes }.writeList list l
  return { h with
    numActiveSlots := a.add h.numActiveSlots 1
    numTotalElem := a.add h.numTotalElem 1 }

/-- The loop of `hash_set` that removes the records with the key of `node`. The first number bounds
its rounds. `list_remove_match` of no list finds nothing. -/
def hashRemoveLoop : Nat → Hash → Nat → Ptr → Except Fault Hash
  | 0, _, _, _ => .error .noReturn
  | fuel + 1, h, index, node =>
    match h.bucket index with
    | none => .ok h
    | some b => do
      let l ← h.readList b
      match ← listRemoveMatch h.nodes l node hashMatchRecord with
      | (nodes, l, none) => return { h with nodes := nodes }.writeList b l
      | (nodes, l, some removed) => do
        let h := { h with nodes := nodes }.writeList b l
        let h := { h with numTotalElem := a.sub h.numTotalElem 1 }
        let len ← listLength h.nodes l
        let h ←
          if len = 0 then do
            let nodes ← listDestroy h.nodes l
            pure
              { h with
                nodes := nodes
                lists := Function.update h.lists b none
                numActiveSlots := a.sub h.numActiveSlots 1
                bucket := Function.update h.bucket index none }
          else pure h
        let (nodes, _) ← nodeDestroy h.nodes removed
        hashRemoveLoop fuel { h with nodes := nodes } index node

/-- The branch of `hash_set` that replaces the record with the key of `node`, or adds it. -/
def hashSetCollision (h : Hash) (b node : Ptr) : Except Fault Hash := do
  let l ← h.readList b
  let (nodes, l, removed) ← listRemoveMatch h.nodes l node hashMatchRecord
  let h := { h with nodes := nodes }.writeList b l
  let h ←
    match removed with
    | none => pure h
    | some removed => do
      let (nodes, _) ← nodeDestroy h.nodes removed
      pure { h with nodes := nodes, numTotalElem := a.sub h.numTotalElem 1 }
  let l ← h.readList b
  let (nodes, l, node) ← listInsert h.nodes l node hashCompareRecord true
  let h := { h with nodes := nodes }.writeList b l
  match node with
  | none => return h
  | some _ => return { h with numTotalElem := a.add h.numTotalElem 1 }

/-- `hash_set`, when `calloc` returns `node` for a node and `list` for a list. -/
def hashSet (h : Hash) (key value : Nat) (node list : Ptr) : Except Fault Hash :=
  let hKey := h.keyFunc h.size key
  if hashIsValidIndex h hKey = false then .ok h
  else
    let index := hashKeyToIndex h hKey
    let h := { h with nodes := nodeCreate h.nodes node ⟨key, value⟩ }
    match h.bucket index with
    | none =>
      if value ≠ 0 then hashSetFirst a h index node list
      else do
        let (nodes, _) ← nodeDestroy h.nodes node
        return { h with nodes := nodes }
    | some b =>
      if value = 0 then hashRemoveLoop a (h.nodes.size + 1) h index node
      else hashSetCollision a h b node

/-- `hash_get`, when `calloc` returns `node` for a node. -/
def hashGet (h : Hash) (key : Nat) (node : Ptr) : Except Fault (Hash × Option Nat) :=
  if h.numActiveSlots > 0 then
    let hKey := h.keyFunc h.size key
    if hashIsValidIndex h hKey = false then .ok (h, none)
    else
      let index := hashKeyToIndex h hKey
      match h.bucket index with
      | none => .ok (h, none)
      | some b => do
        let h := { h with nodes := nodeCreate h.nodes node ⟨key, 0⟩ }
        let l ← h.readList b
        let desired ← listSearch h.nodes l node hashMatchRecord
        let found ←
          match desired with
          | none => pure none
          | some desired => do
            let n ← h.nodes.read (some desired)
            pure (some n.data.value)
        let (nodes, _) ← nodeDestroy h.nodes node
        return ({ h with nodes := nodes }, found)
  else .ok (h, none)

/-- The calls of a run, with the addresses `calloc` returns in them. -/
inductive HashOp where
  | set (key value : Nat) (node list : Ptr)
  | get (key : Nat) (node : Ptr)
  deriving DecidableEq, Repr

/-- What a call returned. -/
inductive HashAnswer where
  | set
  | get (value : Option Nat)
  deriving DecidableEq, Repr

/-- One call. -/
def hashStep (h : Hash) : HashOp → Except Fault (Hash × HashAnswer)
  | .set key value node list => do
    let h ← hashSet a h key value node list
    return (h, .set)
  | .get key node => do
    let (h, value) ← hashGet h key node
    return (h, .get value)

end DVP.Sosal
