import DVP.Lib.Region
import Mathlib.Tactic.NormNum

/-!
# A machine with SIMD registers

The part of the ARMv7-A instruction set with NEON that straight pixel routines use. Core registers
have 32 bits and wrap. The 32 double registers have eight byte lanes each, and a quad register is a
pair of them; wider lanes are made of bytes, the least significant one first. The memory is a
function of the address. The stack is a memory of its own: a routine saves registers on it and finds
its further arguments there.

A routine is code of blocks and loops. A label with a conditional branch back to it is a loop that is
done once at least, and a loop that does not end within the fuel has no result.
-/

namespace Arm

open Region

/-- A byte lane. -/
abbrev Byte := BitVec 8

/-- A lane of 16 bits. -/
abbrev Half := BitVec 16

/-- A core register or an address. -/
abbrev Word := BitVec 32

/-- The core registers but the stack pointer. -/
inductive Reg
  | r0 | r1 | r2 | r3 | r4 | r5 | r6 | r7 | r8 | r9 | r10 | r11 | r12 | lr | pc
  deriving DecidableEq

/-- The condition flags. -/
structure Flags where
  n : Bool
  z : Bool
  c : Bool
  v : Bool

/-- The flags after `b` is subtracted from `a`. -/
def subFlags (a b : Word) : Flags :=
  { n := (a - b).msb, z := a - b == 0, c := decide (b.toNat ≤ a.toNat), v := a.ssubOverflow b }

/-- The conditions of branches. -/
inductive Cond
  | gt
  deriving DecidableEq

/-- The flags meet the condition. -/
def Cond.holds (f : Flags) : Cond → Bool
  | .gt => !f.z && f.n == f.v

/-- The machine. The words of the stack start with the one at the stack pointer. -/
structure State where
  gpr : Reg → Word
  d : Fin 32 → Fin 8 → Byte
  flags : Flags
  mem : Word → Byte
  stack : List Word

/-- The first double register of a quad register. -/
def lo (q : Fin 16) : Fin 32 := ⟨2 * q, by omega⟩

/-- The second one. -/
def hi (q : Fin 16) : Fin 32 := ⟨2 * q + 1, by omega⟩

/-! ## Lanes -/

section Lanes

variable {n : Nat}

/-- Lanes of 16 bits. -/
def halves (v : Fin (2 * n) → Byte) (i : Fin n) : Half :=
  v ⟨2 * i + 1, by omega⟩ ++ v ⟨2 * i, by omega⟩

/-- The bytes of lanes of 16 bits. -/
def ofHalves (f : Fin n → Half) (k : Fin (2 * n)) : Byte :=
  (f ⟨k / 2, by omega⟩).extractLsb' (8 * (k % 2)) 8

/-- The lanes of the bytes of lanes are those lanes. -/
@[simp]
theorem halves_ofHalves (f : Fin n → Half) : halves (ofHalves f) = f := by
  funext i
  have hodd : (2 * i.val + 1) / 2 = i := by omega
  have heven : (2 * i.val) / 2 = i := by omega
  simp only [halves, ofHalves, hodd, heven, Nat.mul_add_mod, Nat.mul_mod_right]
  apply BitVec.eq_of_getLsbD_eq
  intro j hj
  simp only [BitVec.getLsbD_append, BitVec.getLsbD_extractLsb']
  by_cases hlow : j < 8
  · simp [hlow]
  · have hj8 : 8 * (1 % 2) + (j - 8) = j := by omega
    have hj16 : j - 8 < 8 := by omega
    simp [hlow, hj16, hj8]

/-- The bytes of lanes of 32 bits. -/
def ofWords (f : Fin n → Word) (k : Fin (4 * n)) : Byte :=
  (f ⟨k / 4, by omega⟩).extractLsb' (8 * (k % 4)) 8

/-- Two runs of lanes, one lane of each in turn. -/
def interleave (v w : Fin n → Byte) (k : Fin (2 * n)) : Byte :=
  if k.val % 2 = 0 then v ⟨k / 2, by omega⟩ else w ⟨k / 2, by omega⟩

/-- The first half of a quad register. -/
def lower (v : Fin 16 → Byte) (k : Fin 8) : Byte := v ⟨k, by omega⟩

/-- The second half. -/
def upper (v : Fin 16 → Byte) (k : Fin 8) : Byte := v ⟨k + 8, by omega⟩

/-- Writing the two halves is writing the register. -/
theorem write_lower_upper {m : Word → Byte} {a : Word} {v : Fin 16 → Byte} :
    write (write m a (lower v)) (a + 8) (upper v) = write m a v := by
  refine (write_append (n := 8) (k := 8) (by norm_num)).trans (congrArg (write (n := 16) m a) ?_)
  funext k
  refine Fin.addCases (m := 8) (n := 8) (fun i => ?_) (fun i => ?_) k
  · exact Fin.append_left (m := 8) (n := 8) _ _ i
  · refine (Fin.append_right (m := 8) (n := 8) _ _ i).trans (congrArg v (Fin.ext ?_))
    exact Nat.add_comm _ _

/-- Lanes in turn are the lanes of a register. -/
theorem interleave_eq {v w : Fin n → Byte} {f : Fin (2 * n) → Byte}
    (hv : ∀ i : Fin n, v i = f ⟨2 * i, by omega⟩) (hw : ∀ i : Fin n, w i = f ⟨2 * i + 1, by omega⟩) :
    interleave v w = f := by
  funext k
  unfold interleave
  split
  case isTrue hk =>
    rw [hv]
    exact congrArg f (Fin.ext (by simp only; omega))
  case isFalse hk =>
    rw [hw]
    exact congrArg f (Fin.ext (by simp only; omega))

/-- The byte nearest to a number. -/
def saturate (x : Int) : Byte := BitVec.ofInt 8 (max 0 (min 255 x))

end Lanes

/-! ## Instructions -/

/-- The second operand of a core instruction. -/
inductive Op2
  | imm (k : Word)
  | reg (r : Reg)
  | lsl (r : Reg) (k : Nat)

/-- What a load or store does to the register with its address: nothing, or move it past the bytes that were
accessed. -/
inductive Post
  | keep
  | next

/-- The instructions. `ldrSp rd k` is `ldr rd, [sp, #(k * 4)]`. -/
inductive Instr
  | mov (rd : Reg) (op : Op2)
  | add (rd rn : Reg) (op : Op2)
  | sub (rd rn : Reg) (op : Op2)
  | subs (rd rn : Reg) (op : Op2)
  | pld (rn : Reg) (op : Op2)
  | stmfd (rs : List Reg)
  | ldmfd (rs : List Reg)
  | ldrSp (rd : Reg) (k : Nat)
  | vmov (dd dm : Fin 32)
  | vmov_u8 (dd : Fin 32) (k : Byte)
  | vmov_i16 (qd : Fin 16) (k : Half)
  | vld1_8 (dd : Fin 32) (rn : Reg) (post : Post)
  | vld4_8 (d0 d1 d2 d3 : Fin 32) (rn : Reg) (post : Post)
  | vst1_8 (dd : Fin 32) (rn : Reg) (post : Post)
  | vst2_8 (d0 d1 : Fin 32) (rn : Reg) (post : Post)
  | vsubl_u8 (qd : Fin 16) (dn dm : Fin 32)
  | vmul_s16 (qd qn qm : Fin 16)
  | vmla_s16 (qd qn qm : Fin 16)
  | vmls_s16 (qd qn qm : Fin 16)
  | vqshrun_s16 (dd : Fin 32) (qm : Fin 16) (k : Nat)
  | vshll_u16 (qd : Fin 16) (dm : Fin 32) (k : Nat)
  | vorr (qd qn qm : Fin 16)
  | vzip_8 (dd dm : Fin 32)

namespace State

variable (s : State)

/-- Write a core register. -/
def setReg (r : Reg) (v : Word) : State :=
  { s with gpr := fun r' => if r' = r then v else s.gpr r' }

/-- Write a double register. -/
def setD (n : Fin 32) (v : Fin 8 → Byte) : State :=
  { s with d := fun n' => if n' = n then v else s.d n' }

/-- Write the memory. -/
def setMem (m : Word → Byte) : State := { s with mem := m }

/-- The bytes of a quad register. -/
def q (n : Fin 16) (k : Fin 16) : Byte :=
  if h : k.val < 8 then s.d (lo n) ⟨k, h⟩ else s.d (hi n) ⟨k - 8, by omega⟩

/-- Write a quad register. -/
def setQ (n : Fin 16) (v : Fin 16 → Byte) : State :=
  (s.setD (lo n) (lower v)).setD (hi n) (upper v)

/-- The 16-bit lanes of a quad register. -/
def h (n : Fin 16) : Fin 8 → Half := halves (n := 8) (s.q n)

/-- Write the 16-bit lanes of a quad register. -/
def setH (n : Fin 16) (f : Fin 8 → Half) : State := s.setQ n (ofHalves (n := 8) f)

end State

section Access

variable {s : State} {r r' : Reg} {v : Word} {n n' : Fin 32} {b : Fin 8 → Byte} {q q' : Fin 16}
  {w : Fin 16 → Byte} {f : Fin 8 → Half} {m : Word → Byte}

/-- Writing a core register changes it alone. -/
@[simp]
theorem State.gpr_setReg : (s.setReg r v).gpr r' = if r' = r then v else s.gpr r' := rfl

@[simp]
theorem State.d_setReg : (s.setReg r v).d = s.d := rfl

@[simp]
theorem State.mem_setReg : (s.setReg r v).mem = s.mem := rfl

@[simp]
theorem State.stack_setReg : (s.setReg r v).stack = s.stack := rfl

@[simp]
theorem State.flags_setReg : (s.setReg r v).flags = s.flags := rfl

@[simp]
theorem State.gpr_setD : (s.setD n b).gpr = s.gpr := rfl

/-- Writing a double register changes it alone. -/
@[simp]
theorem State.d_setD : (s.setD n b).d n' = if n' = n then b else s.d n' := rfl

@[simp]
theorem State.mem_setD : (s.setD n b).mem = s.mem := rfl

@[simp]
theorem State.stack_setD : (s.setD n b).stack = s.stack := rfl

@[simp]
theorem State.gpr_setMem : (s.setMem m).gpr = s.gpr := rfl

@[simp]
theorem State.d_setMem : (s.setMem m).d = s.d := rfl

/-- The memory is the one that was written. -/
@[simp]
theorem State.mem_setMem : (s.setMem m).mem = m := rfl

@[simp]
theorem State.stack_setMem : (s.setMem m).stack = s.stack := rfl

@[simp]
theorem State.gpr_setQ : (s.setQ q w).gpr = s.gpr := rfl

@[simp]
theorem State.mem_setQ : (s.setQ q w).mem = s.mem := rfl

@[simp]
theorem State.stack_setQ : (s.setQ q w).stack = s.stack := rfl

/-- The double registers after a quad register is written. -/
theorem State.d_setQ :
    (s.setQ q w).d n =
      if n = hi q then upper w else if n = lo q then lower w else s.d n := rfl

/-- A double register that is no part of a quad register. -/
theorem State.d_setQ_of_ne (hne : n.val / 2 ≠ q) : (s.setQ q w).d n = s.d n := by
  have hhi : n ≠ hi q := fun hn => hne (by rw [hn, hi]; simp only; omega)
  have hlo : n ≠ lo q := fun hn => hne (by rw [hn, lo]; simp only; omega)
  rw [d_setQ, if_neg hhi, if_neg hlo]

/-- No double register is a first half and a second one. -/
theorem lo_ne_hi : lo q ≠ hi q' := by
  intro heq
  have hval := congrArg Fin.val heq
  simp only [lo, hi] at hval
  omega

/-- A quad register has the bytes that were written. -/
@[simp]
theorem State.q_setQ_self : (s.setQ q w).q q = w := by
  funext k
  unfold State.q
  split
  case isTrue hk =>
    rw [d_setQ, if_neg lo_ne_hi, if_pos rfl]
    rfl
  case isFalse hk =>
    rw [d_setQ, if_pos rfl]
    exact congrArg w (Fin.ext (by simp only; omega))

/-- The other quad registers keep theirs. -/
theorem State.q_setQ_of_ne (hne : q' ≠ q) : (s.setQ q w).q q' = s.q q' := by
  have hval : q'.val ≠ q.val := fun hv => hne (Fin.ext hv)
  funext k
  unfold State.q
  rw [d_setQ_of_ne (by simp only [lo]; omega), d_setQ_of_ne (by simp only [hi]; omega)]

/-- A quad register depends on its double registers alone. -/
theorem State.q_setD_of_ne (hne : n.val / 2 ≠ q) : (s.setD n b).q q = s.q q := by
  have hlo : lo q ≠ n := fun hn => hne (by rw [← hn, lo]; simp only; omega)
  have hhi : hi q ≠ n := fun hn => hne (by rw [← hn, hi]; simp only; omega)
  funext k
  unfold State.q
  rw [d_setD, d_setD, if_neg hlo, if_neg hhi]

/-- The first half of a quad register is its first double register. -/
theorem State.lower_q : lower (s.q q) = s.d (lo q) := by
  funext k
  exact dif_pos k.isLt

/-- The second half is the second one. -/
theorem State.upper_q : upper (s.q q) = s.d (hi q) := by
  funext k
  have hk : ¬ k.val + 8 < 8 := Nat.not_lt.mpr (Nat.le_add_left 8 k)
  unfold upper State.q
  rw [dif_neg hk]
  exact congrArg (s.d (hi q)) (Fin.ext (Nat.add_sub_cancel k.val 8))

/-- The lanes are those that were written. -/
@[simp]
theorem State.h_setH_self : (s.setH q f).h q = f := by
  rw [State.h, State.setH, q_setQ_self, halves_ofHalves]

/-- The lanes of the other quad registers are kept. -/
theorem State.h_setH_of_ne (hne : q' ≠ q) : (s.setH q f).h q' = s.h q' := by
  rw [State.h, State.setH, q_setQ_of_ne hne, State.h]

/-- So they are when a double register of another one is written. -/
theorem State.h_setD_of_ne (hne : n.val / 2 ≠ q) : (s.setD n b).h q = s.h q := by
  rw [State.h, q_setD_of_ne hne, State.h]

/-- A double register of another quad register is kept. -/
theorem State.d_setH_of_ne (hne : n.val / 2 ≠ q) : (s.setH q f).d n = s.d n := d_setQ_of_ne hne

@[simp]
theorem State.h_setReg : (s.setReg r v).h = s.h := rfl

@[simp]
theorem State.h_setMem : (s.setMem m).h = s.h := rfl

@[simp]
theorem State.gpr_setH : (s.setH q f).gpr = s.gpr := rfl

@[simp]
theorem State.mem_setH : (s.setH q f).mem = s.mem := rfl

@[simp]
theorem State.stack_setH : (s.setH q f).stack = s.stack := rfl

end Access

/-- Eight bytes of a memory, one of every `n`. -/
def strided (m : Word → Byte) (a : Word) (n o : Nat) (k : Fin 8) : Byte :=
  m (a + BitVec.ofNat 32 (n * k + o))

/-- The value of an operand. -/
def Op2.value (s : State) : Op2 → Word
  | .imm k => k
  | .reg r => s.gpr r
  | .lsl r k => s.gpr r <<< k

/-- The register with the address after an access to `n` bytes. -/
def Post.exec (s : State) (rn : Reg) (n : Nat) : Post → State
  | .keep => s
  | .next => s.setReg rn (s.gpr rn + BitVec.ofNat 32 n)

/-- The register `r` gets the next word of the stack. -/
def pop (s : State) (r : Reg) : State :=
  { s.setReg r (s.stack.headD 0) with stack := s.stack.tail }

/-- An instruction. -/
def Instr.exec (s : State) : Instr → State
  | .mov rd op => s.setReg rd (op.value s)
  | .add rd rn op => s.setReg rd (s.gpr rn + op.value s)
  | .sub rd rn op => s.setReg rd (s.gpr rn - op.value s)
  | .subs rd rn op =>
    { s.setReg rd (s.gpr rn - op.value s) with flags := subFlags (s.gpr rn) (op.value s) }
  | .pld _ _ => s
  | .stmfd rs => { s with stack := rs.map s.gpr ++ s.stack }
  | .ldmfd rs => rs.foldl pop s
  | .ldrSp rd k => s.setReg rd (s.stack.getD k 0)
  | .vmov dd dm => s.setD dd (s.d dm)
  | .vmov_u8 dd k => s.setD dd fun _ => k
  | .vmov_i16 qd k => s.setH qd fun _ => k
  | .vld1_8 dd rn post =>
    post.exec (s.setD dd fun k => s.mem (s.gpr rn + BitVec.ofNat 32 k)) rn 8
  | .vld4_8 d0 d1 d2 d3 rn post =>
    let part := strided s.mem (s.gpr rn) 4
    post.exec ((((s.setD d0 (part 0)).setD d1 (part 1)).setD d2 (part 2)).setD d3 (part 3)) rn 32
  | .vst1_8 dd rn post => post.exec (s.setMem (write s.mem (s.gpr rn) (s.d dd))) rn 8
  | .vst2_8 d0 d1 rn post =>
    post.exec (s.setMem (write s.mem (s.gpr rn) (interleave (n := 8) (s.d d0) (s.d d1)))) rn 16
  | .vsubl_u8 qd dn dm => s.setH qd fun i => (s.d dn i).setWidth 16 - (s.d dm i).setWidth 16
  | .vmul_s16 qd qn qm => s.setH qd fun i => s.h qn i * s.h qm i
  | .vmla_s16 qd qn qm => s.setH qd fun i => s.h qd i + s.h qn i * s.h qm i
  | .vmls_s16 qd qn qm => s.setH qd fun i => s.h qd i - s.h qn i * s.h qm i
  | .vqshrun_s16 dd qm k => s.setD dd fun i => saturate ((s.h qm i).toInt >>> k)
  | .vshll_u16 qd dm k =>
    s.setQ qd (ofWords (n := 4) fun i => (halves (n := 4) (s.d dm) i).setWidth 32 <<< k)
  | .vorr qd qn qm => s.setQ qd fun k => s.q qn k ||| s.q qm k
  | .vzip_8 dd dm =>
    let zip := interleave (n := 8) (s.d dd) (s.d dm)
    (s.setD dd (lower zip)).setD dm (upper zip)

/-- Instructions one after the other. -/
def exec (s : State) (is : List Instr) : State := is.foldl Instr.exec s

/-! ## Code -/

/-- The code of a routine. -/
inductive Code
  | block (is : List Instr)
  | seq (c d : Code)
  | loop (body : Code) (c : Cond)

/-- Do `f`, and do it again as long as the condition holds after it. -/
def repeatWhile (f : State → Option State) (c : Cond) : Nat → State → Option State
  | 0, _ => none
  | fuel + 1, s =>
    match f s with
    | none => none
    | some s' => if c.holds s'.flags then repeatWhile f c fuel s' else some s'

/-- The state after code, if `fuel` rounds of each loop are enough. -/
def Code.run (fuel : Nat) : Code → State → Option State
  | .block is, s => some (exec s is)
  | .seq c d, s => (c.run fuel s).bind (d.run fuel)
  | .loop body c, s => repeatWhile (body.run fuel) c fuel s

/-- The code ends in a state. -/
def Code.Ends (c : Code) (s s' : State) : Prop := ∃ fuel, c.run fuel s = some s'

end Arm
