import DVP.Sosal.List.Basic

/-!
# The list with a search tree

The list of `source/sosal/btreelist.c`, whose nodes are in a doubly linked list and in a binary
search tree. A node is embedded in the object whose value it stands for, so the value is part of
its data; the compare and the sort function read it there. The array of the list is `none` or has
the entries `calloc` gave it. A call is told whether `calloc` has the memory it asks for.
-/

namespace DVP.Sosal

/-- The conversion to `int32_t`. -/
def int32 (n : Int) : Int := (n + 2 ^ 31) % 2 ^ 32 - 2 ^ 31

/-- The conversion to `uint32_t`. -/
def uint32 (n : Int) : Int := n % 2 ^ 32

/-- What a `btreelistnode_t` has next to its links in the list, and the value of its object. -/
structure BtreeData (V : Type) where
  left : Option Ptr
  right : Option Ptr
  value : V
  deriving DecidableEq, Repr

/-- The memory of nodes. -/
abbrev BtreeMem (V : Type) := NodeMem (BtreeData V)

/-- `btreelist_t`. -/
structure Btreelist (V K : Type) where
  root : Option Ptr
  head : Option Ptr
  tail : Option Ptr
  array : Option (List (Option Ptr))
  compare : V → K → Int
  sort : V → V → Int
  count : Int

variable {V K : Type}

namespace BtreeMem

/-- `p->left = q`. -/
def setLeft (m : BtreeMem V) (p : Ptr) (q : Option Ptr) : Except Fault (BtreeMem V) :=
  m.write p fun n => { n with data := { n.data with left := q } }

/-- `p->right = q`. -/
def setRight (m : BtreeMem V) (p : Ptr) (q : Option Ptr) : Except Fault (BtreeMem V) :=
  m.write p fun n => { n with data := { n.data with right := q } }

/-- `memset(p, 0, sizeof(btreelistnode_t))`. -/
def clear (m : BtreeMem V) (p : Ptr) : Except Fault (BtreeMem V) :=
  m.write p fun n => ⟨none, none, { n.data with left := none, right := none }⟩

end BtreeMem

/-- `btreelist_create`. -/
def btreelistCreate (compare : V → K → Int) (sort : V → V → Int) : Btreelist V K :=
  ⟨none, none, none, none, compare, sort, 0⟩

/-- The loop of `btreelist_rebtree` that writes the nodes from `node` on to the array. The first
number bounds its rounds. -/
def rebtreeFill (m : BtreeMem V) :
    Nat → Option Ptr → Nat → List (Option Ptr) → Except Fault (List (Option Ptr))
  | _, none, _, array => .ok array
  | 0, some _, _, _ => .error .noReturn
  | fuel + 1, some node, i, array => do
    let next := (← m.read (some node)).next
    if i < array.length then rebtreeFill m fuel next (i + 1) (array.set i (some node))
    else .error .outOfBounds

/-- The new array of `btreelist_rebtree`. There is no array of a negative length. -/
def rebtreeArray (alloc : Bool) (m : BtreeMem V) (btl : Btreelist V K) (count : Int) :
    Except Fault (Btreelist V K) :=
  if alloc = true ∧ 0 ≤ count then do
    let array ← rebtreeFill m (m.size + 1) btl.head 0 (List.replicate count.toNat none)
    return { btl with array := some array }
  else .ok { btl with array := none }

/-- `btl->array[center]`, when that is not negative. -/
def Btreelist.nodeAt (btl : Btreelist V K) (center : Int) : Except Fault Ptr :=
  match btl.array with
  | none => .error .nullPointer
  | some array =>
    match array[center.toNat]? with
    | none => .error .outOfBounds
    | some none => .error .nullPointer
    | some (some node) => .ok node

/-- The type of `btreelist_rebtree`, once it knows whether `calloc` has memory. -/
abbrev Rebtree (V K : Type) :=
  BtreeMem V → Btreelist V K → Int → Int → Except Fault (BtreeMem V × Btreelist V K × Option Ptr)

/-- The `switch` of `btreelist_rebtree`, with the function it calls for the two sides. -/
def rebtreeSwitch (rebtree : Rebtree V K) (m : BtreeMem V) (btl : Btreelist V K) (node : Ptr)
    (center count : Int) : Except Fault (BtreeMem V × Btreelist V K × Option Ptr) :=
  if count = 1 then do
    let m ← m.setLeft node none
    let m ← m.setRight node none
    return (m, btl, some node)
  else if count = 2 then do
    let (m, btl, left) ← rebtree m btl (center - 1) 1
    let m ← m.setLeft node left
    let m ← m.setRight node none
    return (m, btl, some node)
  else if count = 3 then do
    let (m, btl, left) ← rebtree m btl (center - 1) 1
    let m ← m.setLeft node left
    let (m, btl, right) ← rebtree m btl (center + 1) 1
    let m ← m.setRight node right
    return (m, btl, some node)
  else if count = 4 then do
    let (m, btl, left) ← rebtree m btl (center - 1) 2
    let m ← m.setLeft node left
    let (m, btl, right) ← rebtree m btl (center + 1) 1
    let m ← m.setRight node right
    return (m, btl, some node)
  else do
    let ll := uint32 (count / 2)
    let rl := if count % 2 ≠ 0 then ll else uint32 (ll - 1)
    let lc := uint32 (center - ll / 2)
    let lc := if ll % 2 ≠ 0 then uint32 (lc - 1) else lc
    let rc := uint32 (center + rl / 2 + 1)
    let (m, btl, left) ← rebtree m btl (int32 lc) (int32 ll)
    let m ← m.setLeft node left
    let (m, btl, right) ← rebtree m btl (int32 rc) (int32 rl)
    let m ← m.setRight node right
    return (m, btl, some node)

/-- `btreelist_rebtree`. The first number bounds the depth of the recursion. -/
def btreelistRebtree (alloc : Bool) : Nat → Rebtree V K
  | 0, _, _, _, _ => .error .noReturn
  | fuel + 1, m, btl, center, count => do
    let btl ← if count = btl.count then rebtreeArray alloc m btl count else pure btl
    if center < 0 then return (m, btl, none)
    else if count > 0 then do
      let node ← btl.nodeAt center
      rebtreeSwitch (btreelistRebtree alloc fuel) m btl node center count
    else return (m, btl, none)

/-- The call of `btreelist_rebtree` for the whole list. -/
def btreelistRebuild (alloc : Bool) (m : BtreeMem V) (btl : Btreelist V K) :
    Except Fault (BtreeMem V × Btreelist V K) := do
  let (m, btl, root) ←
    btreelistRebtree alloc (btl.count.toNat + 1) m btl (btl.count.tdiv 2) btl.count
  return (m, { btl with root := root })

/-- The branch of `btreelist_insert` that puts `obj` after `node`. -/
def btreelistInsertNext (m : BtreeMem V) (btl : Btreelist V K) (node obj : Ptr) :
    Except Fault (BtreeMem V × Btreelist V K) := do
  let next := (← m.read (some node)).next
  let m ← m.setNext obj next
  let (m, btl) ←
    match next with
    | none => pure (m, { btl with tail := some obj })
    | some next => do
      let m ← m.setPrev next (some obj)
      pure (m, btl)
  let m ← m.setNext node (some obj)
  let m ← m.setPrev obj (some node)
  return (m, { btl with count := int32 (btl.count + 1) })

/-- The branch of `btreelist_insert` that puts `obj` before `node`. -/
def btreelistInsertPrev (m : BtreeMem V) (btl : Btreelist V K) (node obj : Ptr) :
    Except Fault (BtreeMem V × Btreelist V K) := do
  let prev := (← m.read (some node)).prev
  let m ← m.setPrev obj prev
  let (m, btl) ←
    match prev with
    | none => pure (m, { btl with head := some obj })
    | some prev => do
      let m ← m.setNext prev (some obj)
      pure (m, btl)
  let m ← m.setPrev node (some obj)
  let m ← m.setNext obj (some node)
  return (m, { btl with count := int32 (btl.count + 1) })

/-- The branch of `btreelist_insert` for an empty list. -/
def btreelistInsertFirst (m : BtreeMem V) (btl : Btreelist V K) :
    Option Ptr → Except Fault (BtreeMem V × Btreelist V K)
  | none => .error .nullPointer
  | some obj => do
    let m ← m.clear obj
    return (m, { btl with root := some obj, head := some obj, tail := some obj, count := 1 })

/-- `btreelist_insert`. The first number bounds the depth of the recursion. -/
def btreelistInsert (m : BtreeMem V) (btl : Btreelist V K) (obj : Option Ptr) :
    Nat → Option Ptr → Except Fault (BtreeMem V × Btreelist V K)
  | 0, _ => .error .noReturn
  | fuel + 1, node =>
    if btl.root = none ∧ btl.head = none ∧ btl.tail = none then btreelistInsertFirst m btl obj
    else
      match node with
      | none => .ok (m, btl)
      | some node => do
        let n ← m.read (some node)
        let o ← m.read obj
        let ret := btl.sort n.data.value o.data.value
        match obj with
        | none => .error .nullPointer
        | some p =>
          if ret = 0 then return (m, btl)
          else if ret = 1 then
            if n.data.right ≠ none then btreelistInsert m btl obj fuel n.data.right
            else btreelistInsertNext m btl node p
          else if ret = -1 then
            if n.data.left ≠ none then btreelistInsert m btl obj fuel n.data.left
            else btreelistInsertPrev m btl node p
          else return (m, btl)

/-- `btreelist_add`. -/
def btreelistAdd (alloc : Bool) (m : BtreeMem V) (btl : Btreelist V K) (btln : Option Ptr) :
    Except Fault (BtreeMem V × Btreelist V K) := do
  let (m, btl) ← btreelistInsert m btl btln (m.size + 1) btl.root
  btreelistRebuild alloc m btl

/-- `btree_find`. The first number bounds the depth of the recursion. -/
def btreeFind (m : BtreeMem V) (btl : Btreelist V K) (value : K) :
    Nat → Option Ptr → Except Fault (Option Ptr)
  | _, none => .ok none
  | 0, some _ => .error .noReturn
  | fuel + 1, some btln => do
    let n ← m.read (some btln)
    let ret := btl.compare n.data.value value
    if ret = 0 then return some btln
    else if ret = 1 then btreeFind m btl value fuel n.data.right
    else btreeFind m btl value fuel n.data.left

/-- `btreelist_find`. -/
def btreelistFind (m : BtreeMem V) (btl : Btreelist V K) (value : K) :
    Except Fault (Option Ptr) :=
  btreeFind m btl value (m.size + 1) btl.root

/-- The part of `btreelist_remove` that takes `node` out of the list. -/
def btreelistUnlink (m : BtreeMem V) (btl : Btreelist V K) (node : Ptr) :
    Except Fault (BtreeMem V × Btreelist V K) := do
  let n ← m.read (some node)
  let (m, btl) ←
    match n.prev with
    | none => pure (m, { btl with head := n.next })
    | some prev => do
      let m ← m.setNext prev n.next
      pure (m, btl)
  let (m, btl) ←
    match n.next with
    | none => pure (m, { btl with tail := n.prev })
    | some next => do
      let m ← m.setPrev next n.prev
      pure (m, btl)
  let m ← m.clear node
  return (m, { btl with count := int32 (btl.count - 1) })

/-- `btreelist_remove`. -/
def btreelistRemove (alloc : Bool) (m : BtreeMem V) (btl : Btreelist V K) (value : K) :
    Except Fault (BtreeMem V × Btreelist V K × Option Ptr) := do
  match ← btreelistFind m btl value with
  | none => return (m, btl, none)
  | some node => do
    let (m, btl) ← btreelistUnlink m btl node
    let (m, btl) ← btreelistRebuild alloc m btl
    return (m, btl, some node)

/-- A call to change the list, and whether `calloc` has memory in it. -/
inductive BtreeOp (K : Type) where
  | add (node : Ptr) (alloc : Bool)
  | remove (value : K) (alloc : Bool)
  deriving DecidableEq, Repr

/-- One call: the node removed is its answer. -/
def btreelistStep (s : BtreeMem V × Btreelist V K) :
    BtreeOp K → Except Fault ((BtreeMem V × Btreelist V K) × Option Ptr)
  | .add node alloc => do
    let (m, btl) ← btreelistAdd alloc s.1 s.2 (some node)
    return ((m, btl), none)
  | .remove value alloc => do
    let (m, btl, node) ← btreelistRemove alloc s.1 s.2 value
    return ((m, btl), node)

end DVP.Sosal
