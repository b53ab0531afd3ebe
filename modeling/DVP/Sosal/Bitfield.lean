import DVP.Lib.Run
import DVP.Lib.Search
import DVP.Sosal.Fph.Basic
import Mathlib.Order.Bounds.Basic

/-!
# The bitfield

The bitfield of `source/sosal/bitfield.c`: an array of 32-bit words whose bits are ids that are
handed out by `bitfield_get` and taken back by `bitfield_rls`.

A bitfield that has its words is an allocator of the ids below `max` over every sequence of calls.
`bitfield_init` may fail to allocate them and does not say so; the bitfield it leaves hands out
nothing.
-/

namespace DVP.Sosal

/-- `bitfield_t`. -/
structure Bitfield where
  fields : Option (List (BitVec 32))
  max : Nat
  count : Nat
  deriving DecidableEq, Repr

/-- `BIT_TST`. -/
def bitTst (field : BitVec 32) (bit : Nat) : BitVec 32 := (field >>> bit) &&& 1

/-- `BIT_CLR`. -/
def bitClr (field : BitVec 32) (bit : Nat) : BitVec 32 :=
  field &&& ~~~((1 : BitVec 32) <<< bit)

/-- `BIT_SET`. -/
def bitSet (field : BitVec 32) (bit : Nat) : BitVec 32 :=
  field ||| ((1 : BitVec 32) <<< bit)

/-- `bitfield_length`, in bytes. -/
def bitfieldLength (b : Bitfield) : Nat :=
  wrap32 ((b.max / 32 + if b.max % 32 = 0 then 0 else 1) * 4)

/-- `bitfield_init` of a bitfield. Words that it has already are set to `0` and kept, others are
asked for with `calloc`, which may fail. -/
def bitfieldInit (calloc : Bool) (b : Bitfield) (max : Nat) : Except Fault Bitfield :=
  let b := { b with count := 0, max := max }
  let l := bitfieldLength b / 4
  match b.fields with
  | some fields =>
    if l ≤ fields.length then
      .ok { b with fields := some (List.replicate l 0 ++ fields.drop l) }
    else .error .outOfBounds
  | none => .ok { b with fields := if calloc then some (List.replicate l 0) else none }

/-- The two loops of `bitfield_rls` and `bitfield_get`: `round i d` for each bit `d` of each word
`i`, up to the first that returns. -/
def bitfieldScan {α : Type} (b : Bitfield) (round : Nat → Nat → Except Fault (Option α)) :
    Except Fault (Option α) :=
  (List.range (bitfieldLength b / 4)).findSomeM? fun i => (List.range 32).findSomeM? (round i)

/-- `fields[i]`. -/
def bitfieldWord (fields : List (BitVec 32)) (i : Nat) : Except Fault (BitVec 32) :=
  match fields[i]? with
  | none => .error .outOfBounds
  | some field => .ok field

/-- `bitfield_rls`. -/
def bitfieldRls (b : Bitfield) (bit : Nat) : Except Fault (Bitfield × Bool) :=
  match b.fields with
  | none => .ok (b, false)
  | some fields => do
    let found ← bitfieldScan b fun i d => do
      let c := wrap32 (d + i * 32)
      if c = bit then
        let field ← bitfieldWord fields i
        if bitTst field d ≠ 0 then
          return some ({ b with fields := some (fields.set i (bitClr field d)) }, true)
        else return none
      else return none
    return found.getD (b, false)

/-- `bitfield_get`: its answer and the number stored to `*bit`. -/
def bitfieldGet (b : Bitfield) : Except Fault (Bitfield × (Bool × Nat)) :=
  match b.fields with
  | none => .ok (b, (false, 0xFFFFFFFF))
  | some fields => do
    let found ← bitfieldScan b fun i d => do
      let c := wrap32 (d + i * 32)
      -- the bit is higher than is allowed: the call returns, and no later round is made
      if c ≥ b.max then return some (b, (false, 0xFFFFFFFF))
      else
        let field ← bitfieldWord fields i
        if bitTst field d = 0 then
          return some ({ b with fields := some (fields.set i (bitSet field d)) }, (true, c))
        else return none
    return found.getD (b, (false, 0xFFFFFFFF))

section Words

variable {field : BitVec 32} {d e : Nat}

/-- The test of a bit that is raised is not zero. -/
theorem bitTst_ne_zero_iff : bitTst field d ≠ 0 ↔ field.getLsbD d = true := by
  unfold bitTst
  rw [show (1 : BitVec 32) = BitVec.twoPow 32 0 from rfl, BitVec.and_twoPow,
    BitVec.getLsbD_ushiftRight, Nat.add_zero]
  cases field.getLsbD d <;> decide

/-- The test of a bit that is not raised is zero. -/
theorem bitTst_eq_zero_iff : bitTst field d = 0 ↔ field.getLsbD d = false := by
  rw [← not_iff_not, Bool.not_eq_false]
  exact bitTst_ne_zero_iff

/-- Setting a bit raises it alone. -/
theorem getLsbD_bitSet (hd : d < 32) :
    (bitSet field d).getLsbD e = (field.getLsbD e || decide (e = d)) := by
  show (field ||| BitVec.twoPow 32 d).getLsbD e = _
  rw [BitVec.getLsbD_or, BitVec.getLsbD_twoPow]
  grind

/-- Clearing a bit lowers it alone. -/
theorem getLsbD_bitClr (hd : d < 32) :
    (bitClr field d).getLsbD e = (field.getLsbD e && !decide (e = d)) := by
  show (field &&& ~~~BitVec.twoPow 32 d).getLsbD e = _
  rw [BitVec.getLsbD_and, BitVec.getLsbD_not, BitVec.getLsbD_twoPow]
  grind

end Words

/-- The bit of an id. -/
def bitAt (fields : List (BitVec 32)) (id : Nat) : Bool :=
  (fields.getD (id / 32) 0).getLsbD (id % 32)

/-- The words with the bit of an id raised. -/
def bitRaise (fields : List (BitVec 32)) (id : Nat) : List (BitVec 32) :=
  fields.set (id / 32) (bitSet (fields.getD (id / 32) 0) (id % 32))

/-- The words with the bit of an id lowered. -/
def bitLower (fields : List (BitVec 32)) (id : Nat) : List (BitVec 32) :=
  fields.set (id / 32) (bitClr (fields.getD (id / 32) 0) (id % 32))

/-- The number of words that hold the ids below `max`. -/
def bitWords (max : Nat) : Nat := (max + 31) / 32

section Bits

variable {fields : List (BitVec 32)} {id j : Nat}

/-- There are as many words when a bit is raised. -/
@[simp]
theorem length_bitRaise : (bitRaise fields id).length = fields.length := List.length_set

/-- There are as many words when a bit is lowered. -/
@[simp]
theorem length_bitLower : (bitLower fields id).length = fields.length := List.length_set

/-- Two ids of one word are one if their bit in it is. -/
theorem mod_eq_iff (hword : j / 32 = id / 32) : j % 32 = id % 32 ↔ j = id := by
  omega

/-- A word of the words with one of them replaced. -/
theorem getD_set {i k : Nat} {field : BitVec 32} (hi : i < fields.length) :
    (fields.set i field).getD k 0 = if k = i then field else fields.getD k 0 := by
  grind

/-- Raising an id raises its bit alone. -/
theorem bitAt_raise (hid : id / 32 < fields.length) :
    bitAt (bitRaise fields id) j = (bitAt fields j || decide (j = id)) := by
  unfold bitAt bitRaise
  rw [getD_set hid]
  by_cases hword : j / 32 = id / 32
  · rw [if_pos hword, getLsbD_bitSet (Nat.mod_lt id (by decide)), hword]
    simp only [mod_eq_iff hword]
  · have hne : j ≠ id := fun h => hword (by rw [h])
    simp [hword, hne]

/-- Lowering an id lowers its bit alone. -/
theorem bitAt_lower (hid : id / 32 < fields.length) :
    bitAt (bitLower fields id) j = (bitAt fields j && !decide (j = id)) := by
  unfold bitAt bitLower
  rw [getD_set hid]
  by_cases hword : j / 32 = id / 32
  · rw [if_pos hword, getLsbD_bitClr (Nat.mod_lt id (by decide)), hword]
    simp only [mod_eq_iff hword]
  · have hne : j ≠ id := fun h => hword (by rw [h])
    simp [hword, hne]

end Bits

section Scan

variable {b : Bitfield} {fields : List (BitVec 32)} {bit : Nat}

/-- The words that `bitfield_length` counts hold the ids below `max`, and no more than a last
word does. -/
theorem bitfieldLength_div (hmax : b.max < 2 ^ 32) : bitfieldLength b / 4 = bitWords b.max := by
  unfold bitfieldLength bitWords
  have hlen : (b.max / 32 + if b.max % 32 = 0 then 0 else 1) = (b.max + 31) / 32 := by
    split <;> omega
  rw [hlen, wrap32, Nat.mod_eq_of_lt (by omega), Nat.mul_div_cancel _ (by decide)]

/-- The loops are one loop over the ids of the words, in order. -/
theorem bitfieldScan_eq {α : Type} (hmax : b.max < 2 ^ 32)
    {round : Nat → Nat → Except Fault (Option α)} {g : Nat → Option α}
    (hround : ∀ c < bitWords b.max * 32, round (c / 32) (c % 32) = .ok (g c)) :
    bitfieldScan b round = .ok ((List.range (bitWords b.max * 32)).findSome? g) := by
  have hinner : ∀ i ∈ List.range (bitWords b.max),
      (List.range 32).findSomeM? (round i) =
        .ok ((List.range 32).findSome? fun d => g (i * 32 + d)) := by
    intro i hi
    refine List.findSomeM?_ok fun d hd => ?_
    have hi := List.mem_range.mp hi
    have hd := List.mem_range.mp hd
    have hc := hround (i * 32 + d) (by omega)
    rwa [show (i * 32 + d) / 32 = i by omega, show (i * 32 + d) % 32 = d by omega] at hc
  unfold bitfieldScan
  rw [bitfieldLength_div hmax, List.findSomeM?_ok hinner, List.findSome?_range_range _ (by decide)]
  congr 2
  funext c
  rw [Nat.div_add_mod']

/-- The id that the loops calculate for a bit does not wrap. -/
theorem wrap32_id {max c : Nat} (hmax : max < 2 ^ 32) (hc : c < bitWords max * 32) :
    wrap32 (c % 32 + c / 32 * 32) = c := by
  unfold bitWords at hc
  rw [Nat.mod_add_div', wrap32, Nat.mod_eq_of_lt (by omega)]

/-- A word that is there can be read. -/
theorem bitfieldWord_ok {i : Nat} (hi : i < fields.length) :
    bitfieldWord fields i = .ok (fields.getD i 0) := by
  unfold bitfieldWord
  rw [List.getD_eq_getElem?_getD, List.getElem?_eq_getElem hi]
  rfl

/-- A round of `bitfield_get` for the id `c`, without faults. -/
def getRound (b : Bitfield) (fields : List (BitVec 32)) (c : Nat) :
    Option (Bitfield × (Bool × Nat)) :=
  if c ≥ b.max then some (b, (false, 0xFFFFFFFF))
  else if bitAt fields c = false then
    some ({ b with fields := some (bitRaise fields c) }, (true, c))
  else none

/-- `bitfield_get` takes the first id whose round ends the loops. -/
theorem bitfieldGet_eq (hfields : b.fields = some fields) (hmax : b.max < 2 ^ 32)
    (hwords : bitWords b.max ≤ fields.length) :
    bitfieldGet b = .ok (((List.range (bitWords b.max * 32)).findSome? (getRound b fields)).getD
      (b, (false, 0xFFFFFFFF))) := by
  unfold bitfieldGet
  rw [hfields]
  show (bitfieldScan b _ >>= _) = _
  rw [bitfieldScan_eq hmax (g := getRound b fields), ok_bind, pure_eq_ok]
  intro c hc
  dsimp only
  rw [wrap32_id hmax hc, bitfieldWord_ok (by omega), ok_bind]
  unfold getRound
  by_cases hbound : c ≥ b.max
  · rw [if_pos hbound, if_pos hbound]
    rfl
  · rw [if_neg hbound, if_neg hbound]
    by_cases hbit : bitAt fields c = false
    · rw [if_pos hbit, if_pos (bitTst_eq_zero_iff.mpr hbit)]
      rfl
    · rw [if_neg hbit, if_neg (mt bitTst_eq_zero_iff.mp hbit)]
      rfl

/-- `bitfield_get` of a bitfield with its words: the first id whose bit is not raised, if there is
one below `max`. -/
theorem bitfieldGet_spec (hfields : b.fields = some fields) (hmax : b.max < 2 ^ 32)
    (hwords : bitWords b.max ≤ fields.length) :
    ((∀ id < b.max, bitAt fields id = true) ∧ bitfieldGet b = .ok (b, (false, 0xFFFFFFFF))) ∨
      ∃ id < b.max, bitAt fields id = false ∧ (∀ j < id, bitAt fields j = true) ∧
        bitfieldGet b = .ok ({ b with fields := some (bitRaise fields id) }, (true, id)) := by
  -- the loops go through whole words, so they come to every id below `max`
  have hlast : b.max ≤ bitWords b.max * 32 := by
    unfold bitWords
    omega
  rw [bitfieldGet_eq hfields hmax hwords]
  by_cases hfree : ∃ id, id < b.max ∧ bitAt fields id = false
  · right
    -- the loop stops at the least of the free ids
    obtain ⟨id, ⟨hid, hbit⟩, hleast⟩ :
        ∃ id, (id < b.max ∧ bitAt fields id = false) ∧
          ∀ {j}, j < id → ¬(j < b.max ∧ bitAt fields j = false) :=
      ⟨Nat.find hfree, Nat.find_spec hfree, Nat.find_min hfree⟩
    have hbelow : ∀ j < id, bitAt fields j = true := by
      intro j hj
      by_contra hnot
      exact hleast hj ⟨hj.trans hid, Bool.eq_false_of_not_eq_true hnot⟩
    refine ⟨id, hid, hbit, hbelow, ?_⟩
    have hfound : (List.range (bitWords b.max * 32)).findSome? (getRound b fields) =
        some ({ b with fields := some (bitRaise fields id) }, (true, id)) := by
      refine List.findSome?_range_eq_some.mpr ⟨id, by omega, ?_, fun j hj => ?_⟩
      · unfold getRound
        rw [if_neg (Nat.not_le.mpr hid), if_pos hbit]
      · unfold getRound
        rw [if_neg (Nat.not_le.mpr (hj.trans hid)), hbelow j hj]
        rfl
    rw [hfound, Option.getD_some]
  · left
    push Not at hfree
    have hall : ∀ id < b.max, bitAt fields id = true :=
      fun id hid => Bool.eq_true_of_not_eq_false (hfree id hid)
    refine ⟨hall, ?_⟩
    -- the loop stops at `max`, or at the end of the last word when that is `max`
    match hfound : (List.range (bitWords b.max * 32)).findSome? (getRound b fields) with
    | none => rfl
    | some r =>
      obtain ⟨c, -, hc, -⟩ := List.findSome?_range_eq_some.mp hfound
      unfold getRound at hc
      split at hc
      · obtain rfl := Option.some.inj hc
        rfl
      · next hbound =>
        rw [hall c (Nat.not_le.mp hbound)] at hc
        exact absurd hc (by simp)

/-- A round of `bitfield_rls` for the id `c`, without faults. -/
def rlsRound (b : Bitfield) (fields : List (BitVec 32)) (bit c : Nat) : Option (Bitfield × Bool) :=
  if c = bit ∧ bitAt fields c = true then
    some ({ b with fields := some (bitLower fields c) }, true)
  else none

/-- `bitfield_rls` ends its loops at the round of the bit. -/
theorem bitfieldRls_eq (hfields : b.fields = some fields) (hmax : b.max < 2 ^ 32)
    (hwords : bitWords b.max ≤ fields.length) :
    bitfieldRls b bit =
      .ok (((List.range (bitWords b.max * 32)).findSome? (rlsRound b fields bit)).getD
        (b, false)) := by
  unfold bitfieldRls
  rw [hfields]
  show (bitfieldScan b _ >>= _) = _
  rw [bitfieldScan_eq hmax (g := rlsRound b fields bit), ok_bind, pure_eq_ok]
  intro c hc
  dsimp only
  rw [wrap32_id hmax hc]
  unfold rlsRound
  by_cases hc' : c = bit
  · rw [if_pos hc', bitfieldWord_ok (by omega), ok_bind]
    by_cases hbit : bitAt fields c = true
    · rw [if_pos (bitTst_ne_zero_iff.mpr hbit), if_pos ⟨hc', hbit⟩]
      rfl
    · rw [if_neg (mt bitTst_ne_zero_iff.mp hbit), if_neg fun h => hbit h.2]
      rfl
  · rw [if_neg hc', if_neg fun h => hc' h.1]
    rfl

/-- `bitfield_rls` of a bitfield with its words: the bit of the id, if it is raised. -/
theorem bitfieldRls_spec (hfields : b.fields = some fields) (hmax : b.max < 2 ^ 32)
    (hwords : bitWords b.max ≤ fields.length) :
    bitfieldRls b bit = .ok (if bit < bitWords b.max * 32 ∧ bitAt fields bit = true then
      ({ b with fields := some (bitLower fields bit) }, true) else (b, false)) := by
  rw [bitfieldRls_eq hfields hmax hwords]
  split
  · next hbit =>
    -- the rounds of the other ids do nothing
    have hfound : (List.range (bitWords b.max * 32)).findSome? (rlsRound b fields bit) =
        some ({ b with fields := some (bitLower fields bit) }, true) := by
      refine List.findSome?_range_eq_some.mpr ⟨bit, hbit.1, ?_, fun j hj => ?_⟩
      · unfold rlsRound
        rw [if_pos ⟨rfl, hbit.2⟩]
      · unfold rlsRound
        rw [if_neg fun h => hj.ne h.1]
    rw [hfound, Option.getD_some]
  · next hbit =>
    have hfound : (List.range (bitWords b.max * 32)).findSome? (rlsRound b fields bit) = none := by
      refine List.findSome?_range_eq_none.mpr fun c hc => ?_
      unfold rlsRound
      rw [if_neg]
      rintro ⟨rfl, hraised⟩
      exact hbit ⟨hc, hraised⟩
    rw [hfound, Option.getD_none]

end Scan

/-! ### Runs -/

/-- The calls on a bitfield after `bitfield_init`. -/
inductive BitfieldOp where
  | get
  | rls (bit : Nat)

/-- A bitfield and the ids that were handed out by it and not yet released, as its callers know
from the answers. -/
structure BitfieldUse where
  bits : Bitfield
  ids : List Nat

/-- One call on a bitfield. The answer to `bitfield_rls` has no number. -/
def bitfieldStep (s : BitfieldUse) :
    BitfieldOp → Except Fault (BitfieldUse × (Bool × Nat))
  | .get => do
    let (bits, ok, bit) ← bitfieldGet s.bits
    return (⟨bits, if ok then bit :: s.ids else s.ids⟩, (ok, bit))
  | .rls bit => do
    let (bits, ok) ← bitfieldRls s.bits bit
    return (⟨bits, if ok then s.ids.erase bit else s.ids⟩, (ok, bit))

/-- The ids that are outstanding differ, are below `max`, and are those whose bits are raised. -/
structure OutstandingIds (max : Nat) (s : BitfieldUse) : Prop where
  nodup : s.ids.Nodup
  lt_max : ∀ id ∈ s.ids, id < max
  raised : ∀ id < max, bitAt (s.bits.fields.getD []) id = true ↔ id ∈ s.ids

/-- What an allocator of the ids below `max` does in one call. -/
def AllocatesIds (max : Nat) (s : BitfieldUse) (o : BitfieldOp) (answer : Bool × Nat)
    (s' : BitfieldUse) : Prop :=
  OutstandingIds max s ∧ OutstandingIds max s' ∧
    match o with
    | .get =>
      (answer.1 = true ↔ ∃ id < max, id ∉ s.ids) ∧
        (answer.1 = true → IsLeast {id | id ∉ s.ids} answer.2 ∧ s'.ids = answer.2 :: s.ids) ∧
        (answer.1 = false → s' = s)
    | .rls bit =>
      (answer.1 = true ↔ bit ∈ s.ids) ∧
        ∀ id, id ∈ s'.ids ↔ id ∈ s.ids ∧ id ≠ bit

/-- What a bitfield without its words does in one call. -/
def RefusesIds (s : BitfieldUse) (_ : BitfieldOp) (answer : Bool × Nat) (s' : BitfieldUse) : Prop :=
  answer.1 = false ∧ s' = s

section Runs

variable {max : Nat} {s : BitfieldUse}

/-- A bitfield that has its words, with no bit raised that is not the bit of an id outstanding. -/
structure BitfieldHolds (max : Nat) (s : BitfieldUse) : Prop where
  max_eq : s.bits.max = max
  fields : ∃ fields, s.bits.fields = some fields ∧ bitWords max ≤ fields.length ∧
    ∀ id < bitWords max * 32, bitAt fields id = true ↔ id ∈ s.ids
  nodup : s.ids.Nodup
  lt_max : ∀ id ∈ s.ids, id < max

/-- The words have a bit for each id. -/
theorem le_bitWords : max ≤ bitWords max * 32 := by
  unfold bitWords
  omega

/-- What the words hold are the ids that are outstanding. -/
theorem BitfieldHolds.outstanding (h : BitfieldHolds max s) : OutstandingIds max s := by
  obtain ⟨fields, hfields, -, hraised⟩ := h.fields
  refine ⟨h.nodup, h.lt_max, fun id hid => ?_⟩
  rw [hfields]
  exact hraised id (hid.trans_le le_bitWords)

/-- `bitfield_get` hands out the least id that is not outstanding. -/
theorem BitfieldHolds.get (h : BitfieldHolds max s) (hmax : max < 2 ^ 32) :
    ∃ s' r, bitfieldStep s .get = .ok (s', r) ∧ AllocatesIds max s .get r s' ∧
      BitfieldHolds max s' := by
  obtain ⟨fields, hfields, hwords, hraised⟩ := h.fields
  have hmax_eq := h.max_eq
  have hall := @le_bitWords max
  rcases bitfieldGet_spec hfields (hmax_eq ▸ hmax) (hmax_eq ▸ hwords) with
    ⟨hfull, hget⟩ | ⟨id, hid, hfree, hbelow, hget⟩
  · refine ⟨s, (false, 0xFFFFFFFF), ?_, ?_, h⟩
    · show (bitfieldGet s.bits >>= _) = _
      rw [hget]
      rfl
    · refine ⟨h.outstanding, h.outstanding, ?_, fun hr => ?_, fun _ => rfl⟩
      · refine iff_of_false (by decide) ?_
        rintro ⟨id, hid, hmem⟩
        exact hmem ((hraised id (by omega)).mp (hfull id (by omega)))
      · cases hr
  · have hword : id / 32 < fields.length := by omega
    -- a free bit is no outstanding id, and raising it adds exactly this one
    have hnew : id ∉ s.ids := by
      rw [← hraised id (by omega), hfree]
      decide
    have hkeep : BitfieldHolds max
        ⟨{ s.bits with fields := some (bitRaise fields id) }, id :: s.ids⟩ := by
      refine ⟨hmax_eq, ⟨_, rfl, ?_, fun j hj => ?_⟩, List.nodup_cons.mpr ⟨hnew, h.nodup⟩, ?_⟩
      · rw [length_bitRaise]
        exact hwords
      · rw [bitAt_raise hword, Bool.or_eq_true, decide_eq_true_iff, hraised j hj, List.mem_cons,
          or_comm]
      · exact List.forall_mem_cons.mpr ⟨by omega, h.lt_max⟩
    refine ⟨_, (true, id), ?_, ?_, hkeep⟩
    · show (bitfieldGet s.bits >>= _) = _
      rw [hget]
      rfl
    · refine ⟨h.outstanding, hkeep.outstanding, ?_, fun _ => ⟨⟨hnew, fun j hj => ?_⟩, rfl⟩,
        fun hr => ?_⟩
      · exact iff_of_true rfl ⟨id, by omega, hnew⟩
      · by_contra hlt
        exact hj ((hraised j (by omega)).mp (hbelow j (Nat.not_le.mp hlt)))
      · cases hr

/-- `bitfield_rls` takes an id back that is outstanding. -/
theorem BitfieldHolds.rls (h : BitfieldHolds max s) (hmax : max < 2 ^ 32) (bit : Nat) :
    ∃ s' r, bitfieldStep s (.rls bit) = .ok (s', r) ∧ AllocatesIds max s (.rls bit) r s' ∧
      BitfieldHolds max s' := by
  obtain ⟨fields, hfields, hwords, hraised⟩ := h.fields
  have hmax_eq := h.max_eq
  have hall := @le_bitWords max
  have hrls := @bitfieldRls_spec _ _ bit hfields (hmax_eq ▸ hmax) (hmax_eq ▸ hwords)
  -- no bit of the last word from `max` on is raised
  have hmem : (bit < bitWords s.bits.max * 32 ∧ bitAt fields bit = true) ↔ bit ∈ s.ids := by
    rw [hmax_eq]
    constructor
    · rintro ⟨hlt, hbit⟩
      exact (hraised bit hlt).mp hbit
    · intro hbit
      have hlt := (h.lt_max bit hbit).trans_le hall
      exact ⟨hlt, (hraised bit hlt).mpr hbit⟩
  by_cases hbit : bit ∈ s.ids
  · rw [if_pos (hmem.mpr hbit)] at hrls
    have hlt := (h.lt_max bit hbit).trans_le hall
    have hword : bit / 32 < fields.length := by omega
    -- lowering the bit takes exactly this id away
    have hkeep : BitfieldHolds max
        ⟨{ s.bits with fields := some (bitLower fields bit) }, s.ids.erase bit⟩ := by
      refine ⟨hmax_eq, ⟨_, rfl, ?_, fun j hj => ?_⟩, h.nodup.erase bit, fun id hid => ?_⟩
      · rw [length_bitLower]
        exact hwords
      · rw [bitAt_lower hword, h.nodup.mem_erase_iff, Bool.and_eq_true, Bool.not_eq_true',
          decide_eq_false_iff_not, hraised j hj, and_comm]
      · exact h.lt_max id (List.mem_of_mem_erase hid)
    refine ⟨_, (true, bit), ?_, ?_, hkeep⟩
    · show (bitfieldRls s.bits bit >>= _) = _
      rw [hrls]
      rfl
    · refine ⟨h.outstanding, hkeep.outstanding, iff_of_true rfl hbit, fun id => ?_⟩
      show id ∈ s.ids.erase bit ↔ _
      rw [h.nodup.mem_erase_iff, and_comm]
  · rw [if_neg (mt hmem.mp hbit)] at hrls
    refine ⟨s, (false, bit), ?_, ?_, h⟩
    · show (bitfieldRls s.bits bit >>= _) = _
      rw [hrls]
      rfl
    · refine ⟨h.outstanding, h.outstanding, iff_of_false Bool.false_ne_true hbit, fun id => ?_⟩
      constructor
      · intro hid
        refine ⟨hid, ?_⟩
        rintro rfl
        exact hbit hid
      · exact fun hid => hid.1

/-- `bitfield_init` leaves no bit raised. -/
theorem bitfieldInit_spec {calloc : Bool} {b₀ b : Bitfield} (hmax : max < 2 ^ 32)
    (hinit : bitfieldInit calloc b₀ max = .ok b) :
    b.fields = none ∨ BitfieldHolds max ⟨b, []⟩ := by
  have hlen : bitfieldLength { b₀ with count := 0, max := max } / 4 = bitWords max :=
    bitfieldLength_div hmax
  -- words of a longer array that was there before are not looked at
  have hzero : ∀ rest : List (BitVec 32), ∀ id < bitWords max * 32,
      bitAt (List.replicate (bitWords max) 0 ++ rest) id = true ↔ id ∈ ([] : List Nat) := by
    intro rest id hid
    refine iff_of_false ?_ List.not_mem_nil
    unfold bitAt
    rw [List.getD_eq_getElem?_getD,
      List.getElem?_append_left (by rw [List.length_replicate]; omega),
      List.getElem?_replicate_of_lt (by omega)]
    simp
  unfold bitfieldInit at hinit
  simp only [hlen] at hinit
  split at hinit
  · next fields hfields =>
    split at hinit
    · next hle =>
      cases hinit
      refine .inr ⟨rfl, ⟨_, rfl, ?_, hzero _⟩, List.nodup_nil, fun id hid => ?_⟩
      · rw [List.length_append, List.length_replicate]
        exact Nat.le_add_right _ _
      · cases hid
    · cases hinit
  · cases hinit
    cases calloc with
    | false => exact .inl rfl
    | true =>
      refine .inr ⟨rfl, ⟨_, rfl, ?_, ?_⟩, List.nodup_nil, fun id hid => ?_⟩
      · rw [List.length_replicate]
      · simpa only [List.append_nil] using hzero []
      · cases hid

/-- Over every sequence of calls after `bitfield_init`, a bitfield with its words allocates the ids
below `max`, and one without them refuses every call. -/
theorem bitfield_allocates (max : Nat) (hmax : max < 2 ^ 32) (calloc : Bool) (b₀ b : Bitfield)
    (hinit : bitfieldInit calloc b₀ max = .ok b) (os : List BitfieldOp) :
    (b.fields ≠ none → Machine.EachStep bitfieldStep (AllocatesIds max) ⟨b, []⟩ os) ∧
      (b.fields = none → Machine.EachStep bitfieldStep RefusesIds ⟨b, []⟩ os) := by
  have hall : Machine.Meets bitfieldStep (fun _ _ => True) ⟨b, []⟩ os :=
    Machine.meets_of_forall fun _ _ _ => trivial
  constructor
  · intro hfields
    have hstart := (bitfieldInit_spec hmax hinit).resolve_left hfields
    refine Machine.eachStep_of_invariant (fun s o h _ => ?_) hstart hall
    cases o with
    | get => exact h.get hmax
    | rls bit => exact h.rls hmax bit
  · intro hfields
    refine Machine.eachStep_of_invariant (I := fun s => s.bits.fields = none)
      (fun s o h _ => ?_) hfields hall
    cases o with
    | get =>
      refine ⟨s, (false, 0xFFFFFFFF), ?_, ⟨rfl, rfl⟩, h⟩
      unfold bitfieldStep bitfieldGet
      rw [h]
      rfl
    | rls bit =>
      refine ⟨s, (false, bit), ?_, ⟨rfl, rfl⟩, h⟩
      unfold bitfieldStep bitfieldRls
      rw [h]
      rfl

/-- A bitfield of one word, and one whose allocation fails, over the same calls. -/
theorem bitfield_allocates_one :
    Machine.EachStep bitfieldStep (AllocatesIds 1)
      ⟨⟨some [0], 1, 0⟩, []⟩ [.get, .get, .rls 1, .rls 0] ∧
    Machine.EachStep bitfieldStep RefusesIds ⟨⟨none, 1, 0⟩, []⟩ [.get, .get, .rls 1, .rls 0] :=
  ⟨(bitfield_allocates 1 (by decide) true ⟨none, 0, 0⟩ ⟨some [0], 1, 0⟩ rfl _).1 (by decide),
    (bitfield_allocates 1 (by decide) false ⟨none, 0, 0⟩ ⟨none, 1, 0⟩ rfl _).2 rfl⟩

/-- `bitfield_init` does not say that its allocation failed: the one id of the bitfield is not
outstanding, and `bitfield_get` fails. -/
theorem bitfield_get_refuses :
    ∃ b, bitfieldInit false ⟨none, 0, 0⟩ 1 = .ok b ∧
      ¬Machine.EachStep bitfieldStep (AllocatesIds 1) ⟨b, []⟩ [.get] := by
  refine ⟨⟨none, 1, 0⟩, rfl, ?_⟩
  rintro ⟨s', r, hstep, ⟨-, -, hget, -⟩, -⟩
  cases hstep
  exact absurd (hget.mpr ⟨0, by decide, by decide⟩) (by decide)

end Runs

end DVP.Sosal
