import Mathlib.Logic.Function.Basic
import DVP.Sosal.Types

/-!
# The doubly linked list

The list of `source/sosal/list.c` over a memory of nodes. A pointer is a number and `NULL` is
`none`; a node that was freed, or never made, cannot be accessed. The list a function is given
is not `NULL`. Loops end with the list, or never when it has a cycle: no walk over more nodes
than the memory has room for ends.
-/

namespace DVP.Sosal

abbrev Ptr := Nat

/-- `node_t`, with data of any type. -/
structure Node (D : Type) where
  next : Option Ptr
  prev : Option Ptr
  data : D
  deriving DecidableEq, Repr

/-- `list_t`. -/
structure LinkedList where
  head : Option Ptr
  tail : Option Ptr
  deriving DecidableEq, Repr

/-- The list `calloc` makes. -/
def LinkedList.empty : LinkedList := ⟨none, none⟩

/-- A memory with room for `size` nodes. -/
structure NodeMem (D : Type) where
  size : Nat
  node : Ptr → Option (Node D)

variable {D K : Type}

namespace NodeMem

/-- Reads `*p`. -/
def read (m : NodeMem D) : Option Ptr → Except Fault (Node D)
  | none => .error .nullPointer
  | some p =>
    match m.node p with
    | none => .error .badPointer
    | some n => .ok n

/-- The memory with a node replaced by its image, if it is there. -/
def modify (m : NodeMem D) (p : Ptr) (f : Node D → Node D) : NodeMem D :=
  { m with node := Function.update m.node p ((m.node p).map f) }

/-- Writes to `*p`. -/
def write (m : NodeMem D) (p : Ptr) (f : Node D → Node D) : Except Fault (NodeMem D) :=
  match m.node p with
  | none => .error .badPointer
  | some _ => .ok (m.modify p f)

/-- `p->next = q`. -/
def setNext (m : NodeMem D) (p : Ptr) (q : Option Ptr) : Except Fault (NodeMem D) :=
  m.write p fun n => { n with next := q }

/-- `p->prev = q`. -/
def setPrev (m : NodeMem D) (p : Ptr) (q : Option Ptr) : Except Fault (NodeMem D) :=
  m.write p fun n => { n with prev := q }

/-- `p->data = d`. -/
def setData (m : NodeMem D) (p : Ptr) (d : D) : Except Fault (NodeMem D) :=
  m.write p fun n => { n with data := d }

end NodeMem

variable (m : NodeMem D) (l : LinkedList)

/-- `node_create`, when `calloc` returns `p`. -/
def nodeCreate (p : Ptr) (data : D) : NodeMem D :=
  { m with node := Function.update m.node p (some ⟨none, none, data⟩) }

/-- `node_destroy`. -/
def nodeDestroy (node : Ptr) : Except Fault (NodeMem D × D) := do
  let n ← m.read (some node)
  return ({ m with node := Function.update m.node node none }, n.data)

/-- `list_append`. -/
def listAppend : Option Ptr → Except Fault (NodeMem D × LinkedList)
  | none => .ok (m, l)
  | some node =>
    match l.tail with
    | some tail =>
      if tail = node then .error .assertion
      else do
        let m ← m.setNext tail (some node)
        let m ← m.setPrev node (some tail)
        let m ← m.setNext node none
        return (m, { l with tail := some node })
    | none => do
      let m ← m.setPrev node none
      let m ← m.setNext node none
      return (m, ⟨some node, some node⟩)

/-- `list_trim`. -/
def listTrim : Except Fault (NodeMem D × LinkedList × Option Ptr) :=
  match l.tail with
  | none => .ok (m, l, none)
  | some node => do
    let n ← m.read (some node)
    if n.prev = some node then .error .assertion
    else do
      let (m, l) ←
        match n.prev with
        | some tail => do
          let m ← m.setNext tail none
          pure (m, { l with tail := some tail })
        | none => pure (m, (⟨none, none⟩ : LinkedList))
      if l.head = none ∧ l.tail ≠ none then .error .assertion
      else do
        let m ← m.setPrev node none
        let m ← m.setNext node none
        return (m, l, some node)

/-- `list_push`. -/
def listPush (node : Ptr) : Except Fault (NodeMem D × LinkedList) :=
  match l.head with
  | some head =>
    if head = node then .error .assertion
    else do
      let m ← m.setPrev head (some node)
      let m ← m.setNext node (some head)
      let m ← m.setPrev node none
      return (m, { l with head := some node })
  | none => do
    let m ← m.setNext node none
    let m ← m.setPrev node none
    return (m, ⟨some node, some node⟩)

/-- `list_pop`. -/
def listPop : Except Fault (NodeMem D × LinkedList × Option Ptr) :=
  match l.head with
  | none => .ok (m, l, none)
  | some node => do
    let n ← m.read (some node)
    if n.next = some node then .error .assertion
    else do
      let (m, l) ←
        match n.next with
        | some head => do
          let m ← m.setPrev head none
          pure (m, { l with head := some head })
        | none => pure (m, (⟨none, none⟩ : LinkedList))
      if l.tail = none ∧ l.head ≠ none then .error .assertion
      else do
        let m ← m.setNext node none
        let m ← m.setPrev node none
        return (m, l, some node)

/-- The loop of `list_destroy`. The first number bounds its rounds. -/
def listDestroyLoop : Nat → NodeMem D → LinkedList → Except Fault (NodeMem D)
  | 0, _, _ => .error .noReturn
  | fuel + 1, m, l => do
    match ← listPop m l with
    | (m, _, none) => return m
    | (m, l, some _) => listDestroyLoop fuel m l

/-- `list_destroy`, but for freeing the list itself. -/
def listDestroy : Except Fault (NodeMem D) := listDestroyLoop (m.size + 1) m l

/-- The branch of `list_insert` that puts the node before `n`. -/
def listInsertBefore (node n : Ptr) : Except Fault (NodeMem D × LinkedList) := do
  let prev := (← m.read (some n)).prev
  let m ← m.setNext node (some n)
  let m ← m.setPrev node prev
  let m ←
    match prev with
    | some prev => m.setNext prev (some node)
    | none => pure m
  let m ← m.setPrev n (some node)
  return (m, if l.head = some n then { l with head := some node } else l)

/-- The branch of `list_insert` that puts the node after `n`. -/
def listInsertAfter (node n : Ptr) : Except Fault (NodeMem D × LinkedList) := do
  let next := (← m.read (some n)).next
  let m ← m.setNext node next
  let m ← m.setPrev node (some n)
  let m ←
    match next with
    | some next => m.setPrev next (some node)
    | none => pure m
  let m ← m.setNext n (some node)
  return (m, if l.tail = some n then { l with tail := some node } else l)

/-- The tests of `list_insert`: `sortAscending` tells whether the result of a comparison is to be
negative or positive. -/
def isBefore (sortAscending : Bool) (c : Int) : Bool :=
  if sortAscending then decide (c < 0) else decide (c > 0)

def isBeforeEq (sortAscending : Bool) (c : Int) : Bool :=
  if sortAscending then decide (c ≤ 0) else decide (c ≥ 0)

/-- A comparison of a node with another one, or with `NULL`. -/
abbrev NodeCompare (D : Type) := NodeMem D → Ptr → Option Ptr → Except Fault Int

/-- The loop of `list_insert` from the node `n` on. The first number bounds its rounds. -/
def listInsertLoop (node : Ptr) (compare : NodeCompare D) (sortAscending : Bool) :
    Nat → Option Ptr → Except Fault (NodeMem D × LinkedList × Option Ptr)
  | _, none => .ok (m, l, none)
  | 0, some _ => .error .noReturn
  | fuel + 1, some n => do
    let c ← compare m node (some n)
    if isBefore sortAscending c then do
      let (m, l) ← listInsertBefore m l node n
      return (m, l, some node)
    else do
      let c ← compare m n (some node)
      let next := (← m.read (some n)).next
      if isBeforeEq sortAscending c then do
        let c ← compare m node next
        if isBeforeEq sortAscending c then do
          let (m, l) ← listInsertAfter m l node n
          return (m, l, some node)
        else listInsertLoop node compare sortAscending fuel next
      else listInsertLoop node compare sortAscending fuel next

/-- `list_insert`. -/
def listInsert (node : Ptr) (compare : NodeCompare D) (sortAscending : Bool) :
    Except Fault (NodeMem D × LinkedList × Option Ptr) :=
  match l.head with
  | some head => listInsertLoop m l node compare sortAscending (m.size + 1) (some head)
  | none => do
    let m ← m.setPrev node none
    let m ← m.setNext node none
    return (m, ⟨some node, some node⟩, some node)

/-- `list_extract`. -/
def listExtract : Option Ptr → Except Fault (NodeMem D × LinkedList × Option Ptr)
  | none => .ok (m, l, none)
  | some node =>
    if l.head = none ∨ l.tail = none then .ok (m, l, none)
    else do
      let n ← m.read (some node)
      let (m, l, node) ←
        match n.next, n.prev with
        | none, none => listPop m l
        | some _, none => listPop m l
        | none, some _ => listTrim m l
        | some next, some prev => do
          let m ← m.setPrev next (some prev)
          let m ← m.setNext prev (some next)
          pure (m, l, some node)
      match node with
      | none => .error .nullPointer
      | some node => do
        let m ← m.setNext node none
        let m ← m.setPrev node none
        return (m, l, some node)

/-- A comparison of a node with what is searched for. -/
abbrev NodeMatch (D K : Type) := NodeMem D → Ptr → K → Except Fault Int

/-- The loop of `list_search` from the node `temp` on. The first number bounds its rounds. -/
def listSearchLoop (node : K) (compare : NodeMatch D K) :
    Nat → Option Ptr → Except Fault (Option Ptr)
  | _, none => .ok none
  | 0, some _ => .error .noReturn
  | fuel + 1, some temp => do
    let c ← compare m temp node
    if c = 0 then return some temp
    else
      let next := (← m.read (some temp)).next
      listSearchLoop node compare fuel next

/-- `list_search`. -/
def listSearch (node : K) (compare : NodeMatch D K) : Except Fault (Option Ptr) :=
  listSearchLoop m node compare (m.size + 1) l.head

/-- `list_remove_match`. -/
def listRemoveMatch (node : K) (compare : NodeMatch D K) :
    Except Fault (NodeMem D × LinkedList × Option Ptr) := do
  match ← listSearch m l node compare with
  | none => return (m, l, none)
  | some temp => listExtract m l (some temp)

/-- The loop of `list_score` from the node `temp` on, with the best node so far and its rating.
The first number bounds its rounds. -/
def listScoreLoop (rate : NodeMem D → Ptr → Except Fault Nat) :
    Nat → Option Ptr → Option Ptr → Nat → Except Fault (Option Ptr)
  | _, none, best, _ => .ok best
  | 0, some _, _, _ => .error .noReturn
  | fuel + 1, some temp, best, rating => do
    let score ← rate m temp
    let (best, rating) := if rating < score then (some temp, score) else (best, rating)
    let next := (← m.read (some temp)).next
    if next = some temp then return none
    else listScoreLoop rate fuel next best rating

/-- `list_score`, with the rating of a node against the one given. -/
def listScore (rate : NodeMem D → Ptr → Except Fault Nat) : Except Fault (Option Ptr) :=
  listScoreLoop m rate (m.size + 1) l.head none 0

/-- The loop of `list_length`. The first number bounds its rounds. -/
def listLengthLoop : Nat → Option Ptr → Nat → Except Fault Nat
  | _, none, len => .ok len
  | 0, some _, _ => .error .noReturn
  | fuel + 1, some temp, len => do
    let next := (← m.read (some temp)).next
    listLengthLoop fuel next (len + 1)

/-- `list_length`. -/
def listLength : Except Fault Nat := listLengthLoop m (m.size + 1) l.head 0

end DVP.Sosal
