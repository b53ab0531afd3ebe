import DVP.Lib.Arm.Machine
import Mathlib.Order.Basic

/-!
# Rules for code

What code does is proved with preconditions and postconditions. A triple says that the code ends
from every state with the one in a state with the other, so a triple for a loop bounds its rounds.

* `Triple.block`, `Triple.seq`, `Triple.loop`: the rules of the code;
* `gt_counter`: how often a loop is done that counts a register down and goes on while it is
  greater than zero;
* `Ends.gpr_eq`, `Ends.stack_eq`: registers no instruction names are kept;
* `routine_returns`: a routine that saves the registers it uses returns with the registers it was
  called with.
-/

namespace Arm

variable {s s' : State} {is js : List Instr} {i : Instr} {c d body : Code} {cond : Cond}
  {P Q R : State → Prop} {r : Reg} {n : Nat}

/-- Nothing is done. -/
@[simp]
theorem exec_nil : exec s [] = s := rfl

/-- The first instruction is done first. -/
@[simp]
theorem exec_cons : exec s (i :: is) = exec (i.exec s) is := rfl

/-- Two runs of instructions are done one after the other. -/
theorem exec_append : exec s (is ++ js) = exec (exec s is) js := List.foldl_append

/-! ## Fuel -/

/-- More rounds do not change where a loop ends. -/
theorem repeatWhile_mono {f g : State → Option State} {fuel fuel' : Nat} (hle : fuel ≤ fuel')
    (hfg : ∀ s s', f s = some s' → g s = some s') (h : repeatWhile f cond fuel s = some s') :
    repeatWhile g cond fuel' s = some s' := by
  induction fuel generalizing s fuel' with
  | zero => cases h
  | succ fuel ih =>
    obtain ⟨fuel', rfl⟩ := Nat.exists_eq_add_of_le' (Nat.one_le_of_lt hle)
    rw [repeatWhile] at h ⊢
    cases hf : f s with
    | none =>
      rw [hf] at h
      cases h
    | some t =>
      rw [hf] at h
      rw [hfg s t hf]
      simp only at h ⊢
      split at h
      case isTrue hc =>
        rw [if_pos hc]
        exact ih (Nat.le_of_succ_le_succ hle) h
      case isFalse hc =>
        rw [if_neg hc]
        exact h

/-- More fuel gives the same result. -/
theorem Code.run_mono {fuel fuel' : Nat} (hle : fuel ≤ fuel') (h : c.run fuel s = some s') :
    c.run fuel' s = some s' := by
  induction c generalizing s s' with
  | block is => exact h
  | seq c d ihc ihd =>
    obtain ⟨t, hc, hd⟩ := Option.bind_eq_some_iff.mp h
    exact Option.bind_eq_some_iff.mpr ⟨t, ihc hc, ihd hd⟩
  | loop body cond ih => exact repeatWhile_mono hle (fun _ _ => ih) h

/-! ## Triples -/

/-- From every state with `P` the code ends in a state with `Q`. -/
def Triple (P : State → Prop) (c : Code) (Q : State → Prop) : Prop :=
  ∀ s, P s → ∃ s', c.Ends s s' ∧ Q s'

/-- The rule of a block. -/
theorem Triple.block (h : ∀ s, P s → Q (exec s is)) : Triple P (.block is) Q :=
  fun s hs => ⟨_, ⟨0, rfl⟩, h s hs⟩

/-- The rule of a sequence. -/
theorem Triple.seq (hc : Triple P c R) (hd : Triple R d Q) : Triple P (.seq c d) Q := by
  intro s hs
  obtain ⟨t, ⟨fuel, hrun⟩, ht⟩ := hc s hs
  obtain ⟨u, ⟨fuel', hrun'⟩, hu⟩ := hd t ht
  refine ⟨u, ⟨max fuel fuel', Option.bind_eq_some_iff.mpr ⟨t, ?_, ?_⟩⟩, hu⟩
  · exact Code.run_mono (le_max_left fuel fuel') hrun
  · exact Code.run_mono (le_max_right fuel fuel') hrun'

/-- A loop of `n` rounds, each of which keeps an invariant that counts them, and sets the flags so
that the loop goes on until the last round. -/
theorem Triple.loop {I : Nat → State → Prop} (hn : 0 < n)
    (h : ∀ i < n, Triple (I i) body fun s => cond.holds s.flags = decide (i + 1 < n) ∧ I (i + 1) s) :
    Triple (I 0) (.loop body cond) (I n) := by
  -- the rounds from the round `i` on, by induction on how many there are
  have hfrom : ∀ k i, i + k + 1 = n → Triple (I i) (.loop body cond) (I n) := by
    intro k
    induction k with
    | zero =>
      intro i hi s hs
      obtain ⟨s', ⟨fuel, hrun⟩, hflags, hs'⟩ := h i (by omega) s hs
      refine ⟨s', ⟨fuel + 1, ?_⟩, by rwa [← hi]⟩
      rw [decide_eq_false (by omega)] at hflags
      rw [Code.run, repeatWhile, Code.run_mono (Nat.le_succ fuel) hrun]
      simp only [hflags, Bool.false_eq_true, if_false]
    | succ k ih =>
      intro i hi s hs
      obtain ⟨s', ⟨fuel, hrun⟩, hflags, hs'⟩ := h i (by omega) s hs
      obtain ⟨s'', ⟨fuel', hrun'⟩, hs''⟩ := ih (i + 1) (by omega) s' hs'
      refine ⟨s'', ⟨max fuel fuel' + 1, ?_⟩, hs''⟩
      rw [decide_eq_true (by omega)] at hflags
      rw [Code.run] at hrun' ⊢
      rw [repeatWhile, Code.run_mono (by omega : fuel ≤ max fuel fuel' + 1) hrun]
      simp only [hflags, if_true]
      exact repeatWhile_mono (le_max_right fuel fuel')
        (fun _ _ => Code.run_mono (by omega)) hrun'
  exact hfrom (n - 1) 0 (by omega)

/-- A loop over lines, each of which is a loop over groups. -/
def lines (start group lineEnd : List Instr) (cond : Cond) : Code :=
  .loop (.seq (.block start) (.seq (.loop (.block group) cond) (.block lineEnd))) cond

/-- A loop over `h` lines of `w` groups. -/
theorem Triple.lines {L : Nat → State → Prop} {A : Nat → Nat → State → Prop} {h w : Nat}
    {start group lineEnd : List Instr} (hh : 0 < h) (hw : 0 < w)
    (hstart : ∀ l < h, ∀ s, L l s → A l 0 (exec s start))
    (hgroup : ∀ l < h, ∀ j < w, ∀ s, A l j s →
      cond.holds (exec s group).flags = decide (j + 1 < w) ∧ A l (j + 1) (exec s group))
    (hend : ∀ l < h, ∀ s, A l w s →
      cond.holds (exec s lineEnd).flags = decide (l + 1 < h) ∧ L (l + 1) (exec s lineEnd)) :
    Triple (L 0) (lines start group lineEnd cond) (L h) := by
  refine Triple.loop hh fun l hl => ?_
  refine Triple.seq (R := A l 0) (Triple.block (hstart l hl)) ?_
  refine Triple.seq (R := A l w) ?_ (Triple.block (hend l hl))
  exact Triple.loop hw fun j hj => Triple.block (hgroup l hl j hj)

/-! ## Counters -/

/-- The condition `gt` compares signed numbers. -/
theorem holds_gt_subFlags {a b : Word} :
    Cond.gt.holds (subFlags a b) = decide (b.toInt < a.toInt) := by
  have hz : (a - b == 0) = decide (a.toInt = b.toInt) := by
    rw [Bool.eq_iff_iff, beq_iff_eq, decide_eq_true_iff, BitVec.toInt_inj, sub_eq_zero]
  have hn : (a - b).msb = decide ((a - b).toInt < 0) := BitVec.msb_eq_toInt
  have hv : a.ssubOverflow b =
      decide (2 ^ 31 ≤ a.toInt - b.toInt ∨ a.toInt - b.toInt < -2 ^ 31) := by
    rw [BitVec.ssubOverflow, Bool.decide_or]
  have ha := BitVec.two_mul_toInt_lt (x := a)
  have ha' := BitVec.le_two_mul_toInt (x := a)
  have hb := BitVec.two_mul_toInt_lt (x := b)
  have hb' := BitVec.le_two_mul_toInt (x := b)
  rw [Cond.holds, subFlags]
  simp only [hz, hn, hv, BitVec.toInt_sub, Int.bmod_eq_emod]
  rw [Bool.eq_iff_iff, Bool.and_eq_true, Bool.not_eq_true', decide_eq_false_iff_not, beq_iff_eq,
    decide_eq_decide, decide_eq_true_iff]
  split <;> omega

/-- How often a loop is done that takes `k` from a counter and goes on while it is greater than
zero, as a signed number. -/
def rounds (w : Word) (k : Nat) : Nat := max 1 ((w.toInt + k - 1) / k).toNat

/-- A loop is done once at least. -/
theorem rounds_pos {w : Word} {k : Nat} : 0 < rounds w k := lt_max_of_lt_left Nat.one_pos

/-- The loop goes on after a round while there are rounds left. -/
theorem lt_rounds_iff {w : Word} {k j : Nat} (hk : 0 < k) :
    j + 1 < rounds w k ↔ ((k * (j + 1) : Nat) : Int) < w.toInt := by
  have hk' : (0 : Int) < k := by exact_mod_cast hk
  rw [rounds, lt_max_iff, Int.lt_toNat, Int.lt_iff_add_one_le, Int.le_ediv_iff_mul_le hk']
  push_cast
  rw [add_mul, one_mul, mul_comm]
  omega

/-- The flags after a round tell whether there is another one. -/
theorem gt_counter {w : Word} {k j : Nat} (hk : 0 < k) (hk' : k < 2 ^ 31) (hj : j < rounds w k) :
    Cond.gt.holds (subFlags (w - BitVec.ofNat 32 (k * j)) (BitVec.ofNat 32 k)) =
      decide (j + 1 < rounds w k) := by
  have hkint : (BitVec.ofNat 32 k).toInt = k := by
    rw [BitVec.toInt_ofNat']
    exact Int.bmod_eq_of_le (by omega) (by omega)
  have hleft : (w - BitVec.ofNat 32 (k * j)).toInt = w.toInt - (k * j : Nat) := by
    have hw := BitVec.two_mul_toInt_lt (x := w)
    have hw' := BitVec.le_two_mul_toInt (x := w)
    cases j with
    | zero => rw [Nat.mul_zero, BitVec.sub_zero, Nat.cast_zero, sub_zero]
    | succ j =>
      rw [lt_rounds_iff hk] at hj
      rw [BitVec.toInt_sub, BitVec.toInt_ofNat', Int.sub_bmod_bmod]
      exact Int.bmod_eq_of_le (by omega) (by omega)
  rw [holds_gt_subFlags, hkint, hleft, decide_eq_decide, lt_rounds_iff hk, Nat.mul_succ]
  push_cast
  omega

/-! ## What code keeps -/

/-- The registers an access changes besides those it loads. -/
def Post.gprs (rn : Reg) : Post → List Reg
  | .keep => []
  | .next => [rn]

/-- The core registers an instruction writes. -/
def Instr.gprs : Instr → List Reg
  | .mov rd _ | .add rd _ _ | .sub rd _ _ | .subs rd _ _ | .ldrSp rd _ => [rd]
  | .ldmfd rs => rs
  | .vld1_8 _ rn post | .vst1_8 _ rn post | .vst2_8 _ _ rn post | .vld4_8 _ _ _ _ rn post =>
    post.gprs rn
  | _ => []

/-- The double registers an instruction writes. -/
def Instr.dregs : Instr → List (Fin 32)
  | .vmov dd _ | .vmov_u8 dd _ | .vld1_8 dd _ _ | .vqshrun_s16 dd _ _ => [dd]
  | .vld4_8 d0 d1 d2 d3 _ _ => [d0, d1, d2, d3]
  | .vzip_8 dd dm => [dd, dm]
  | .vmov_i16 qd _ | .vsubl_u8 qd _ _ | .vmul_s16 qd _ _ | .vmla_s16 qd _ _ | .vmls_s16 qd _ _
  | .vshll_u16 qd _ _ | .vorr qd _ _ => [lo qd, hi qd]
  | _ => []

/-- Whether an instruction moves the stack pointer. -/
def Instr.movesStack : Instr → Bool
  | .stmfd _ | .ldmfd _ => true
  | _ => false

/-- Whether an instruction writes the memory. -/
def Instr.stores : Instr → Bool
  | .vst1_8 _ _ _ | .vst2_8 _ _ _ _ => true
  | _ => false

/-- The instructions of code. -/
def Code.instrs : Code → List Instr
  | .block is => is
  | .seq c d => c.instrs ++ d.instrs
  | .loop body _ => body.instrs

/-- An access keeps the other core registers. -/
theorem Post.gpr_exec {post : Post} {rn : Reg} (h : r ∉ post.gprs rn) :
    (post.exec s rn n).gpr r = s.gpr r := by
  cases post with
  | keep => rfl
  | next => exact if_neg (List.ne_of_not_mem_cons h)

/-- What an access does to its address keeps the double registers, -/
@[simp]
theorem Post.d_exec {post : Post} {rn : Reg} : (post.exec s rn n).d = s.d := by
  cases post <;> rfl

/-- and the memory, -/
@[simp]
theorem Post.mem_exec {post : Post} {rn : Reg} : (post.exec s rn n).mem = s.mem := by
  cases post <;> rfl

/-- and the stack. -/
@[simp]
theorem Post.stack_exec {post : Post} {rn : Reg} : (post.exec s rn n).stack = s.stack := by
  cases post <;> rfl

/-- Loading registers from the stack keeps the double registers, -/
@[simp]
theorem d_foldl_pop {rs : List Reg} : (rs.foldl pop s).d = s.d := by
  induction rs generalizing s with
  | nil => rfl
  | cons r rs ih => exact ih

/-- and the memory, -/
@[simp]
theorem mem_foldl_pop {rs : List Reg} : (rs.foldl pop s).mem = s.mem := by
  induction rs generalizing s with
  | nil => rfl
  | cons r rs ih => exact ih

/-- and the other core registers. -/
theorem gpr_foldl_pop {rs : List Reg} (h : r ∉ rs) : (rs.foldl pop s).gpr r = s.gpr r := by
  induction rs generalizing s with
  | nil => rfl
  | cons r' rs ih =>
    rw [List.foldl_cons, ih (List.not_mem_of_not_mem_cons h)]
    exact if_neg (List.ne_of_not_mem_cons h)

/-- A core register that is not written keeps its value. -/
theorem Instr.gpr_exec (h : r ∉ i.gprs) : (i.exec s).gpr r = s.gpr r := by
  cases i with
  | ldmfd rs => exact gpr_foldl_pop h
  | vld1_8 dd rn post | vst1_8 dd rn post | vst2_8 d0 d1 rn post | vld4_8 d0 d1 d2 d3 rn post =>
    exact Post.gpr_exec h
  | mov rd op | add rd rn op | sub rd rn op | subs rd rn op | ldrSp rd k =>
    exact if_neg (List.ne_of_not_mem_cons h)
  | _ => rfl

/-- A double register of no part of a quad register keeps its value. -/
theorem State.d_setQ_of_notMem {q : Fin 16} {w : Fin 16 → Byte} {k : Fin 32}
    (h : k ∉ [lo q, hi q]) : (s.setQ q w).d k = s.d k := by
  rw [List.mem_cons, List.mem_singleton, not_or] at h
  rw [d_setQ, if_neg h.2, if_neg h.1]

/-- A double register that is not written keeps its value. -/
theorem Instr.d_exec {k : Fin 32} (h : k ∉ i.dregs) : (i.exec s).d k = s.d k := by
  cases i with
  | vmov dd dm | vmov_u8 dd x | vqshrun_s16 dd qm x =>
    exact if_neg (List.ne_of_not_mem_cons h)
  | vld1_8 dd rn post =>
    rw [exec, Post.d_exec]
    exact if_neg (List.ne_of_not_mem_cons h)
  | vld4_8 d0 d1 d2 d3 rn post =>
    simp only [dregs, List.mem_cons, List.not_mem_nil, or_false, not_or] at h
    simp only [exec, Post.d_exec, State.d_setD, h, if_false]
  | vst1_8 dd rn post | vst2_8 d0 d1 rn post => exact congrFun Post.d_exec k
  | vzip_8 dd dm =>
    simp only [dregs, List.mem_cons, List.not_mem_nil, or_false, not_or] at h
    simp only [exec, State.d_setD, h, if_false]
  | vmov_i16 qd x | vsubl_u8 qd dn dm | vmul_s16 qd qn qm | vmla_s16 qd qn qm | vmls_s16 qd qn qm
  | vshll_u16 qd dm x | vorr qd qn qm => exact State.d_setQ_of_notMem h
  | ldmfd rs => exact congrFun d_foldl_pop k
  | _ => rfl

/-- An instruction that does not move the stack pointer keeps the stack. -/
theorem Instr.stack_exec (h : i.movesStack = false) : (i.exec s).stack = s.stack := by
  cases i with
  | stmfd rs | ldmfd rs => cases h
  | vld1_8 dd rn post | vst1_8 dd rn post | vst2_8 d0 d1 rn post | vld4_8 d0 d1 d2 d3 rn post =>
    exact Post.stack_exec
  | _ => rfl

/-- An instruction that does not store keeps the memory. -/
theorem Instr.mem_exec (h : i.stores = false) : (i.exec s).mem = s.mem := by
  cases i with
  | vst1_8 dd rn post | vst2_8 d0 d1 rn post => cases h
  | vld1_8 dd rn post | vld4_8 d0 d1 d2 d3 rn post => exact Post.mem_exec
  | ldmfd rs => exact mem_foldl_pop
  | _ => rfl

/-- What every instruction of code keeps is kept. -/
theorem Code.Ends.keeps {α : Type} {f : State → α} (h : c.Ends s s')
    (hkeeps : ∀ i ∈ c.instrs, ∀ s, f (i.exec s) = f s) : f s' = f s := by
  obtain ⟨fuel, h⟩ := h
  induction c generalizing s s' with
  | block is =>
    cases h
    induction is generalizing s with
    | nil => rfl
    | cons i is ih =>
      rw [exec_cons, ih fun j hj => hkeeps j (List.mem_cons_of_mem _ hj)]
      exact hkeeps i List.mem_cons_self s
  | seq c d ihc ihd =>
    obtain ⟨t, hc, hd⟩ := Option.bind_eq_some_iff.mp h
    rw [ihd (fun i hi => hkeeps i (List.mem_append_right _ hi)) hd]
    exact ihc (fun i hi => hkeeps i (List.mem_append_left _ hi)) hc
  | loop body cond ih =>
    -- the rounds, by induction on the fuel
    suffices hrounds : ∀ k s, repeatWhile (body.run fuel) cond k s = some s' → f s' = f s from
      hrounds fuel s h
    intro k
    induction k with
    | zero =>
      intro s hs
      cases hs
    | succ k ihk =>
      intro s hs
      rw [repeatWhile] at hs
      cases hb : body.run fuel s with
      | none =>
        rw [hb] at hs
        cases hs
      | some t =>
        rw [hb] at hs
        simp only at hs
        split at hs
        case isTrue => rw [ihk t hs, ih hkeeps hb]
        case isFalse =>
          cases hs
          exact ih hkeeps hb

/-- A block keeps the core registers that no instruction of it writes, -/
theorem gpr_exec (h : ∀ i ∈ is, r ∉ i.gprs) : (exec s is).gpr r = s.gpr r :=
  Code.Ends.keeps (c := .block is) (f := fun s => s.gpr r) ⟨0, rfl⟩ fun i hi _ =>
    Instr.gpr_exec (h i hi)

/-- and the double registers, -/
theorem d_exec {k : Fin 32} (h : ∀ i ∈ is, k ∉ i.dregs) : (exec s is).d k = s.d k :=
  Code.Ends.keeps (c := .block is) (f := fun s => s.d k) ⟨0, rfl⟩ fun i hi _ =>
    Instr.d_exec (h i hi)

/-- and the quad registers with them, -/
theorem q_exec {k : Fin 16} (h : ∀ i ∈ is, lo k ∉ i.dregs ∧ hi k ∉ i.dregs) :
    (exec s is).q k = s.q k := by
  funext x
  rw [State.q, State.q, d_exec fun i hi => (h i hi).1, d_exec fun i hi => (h i hi).2]

/-- and their lanes, -/
theorem h_exec {k : Fin 16} (h : ∀ i ∈ is, lo k ∉ i.dregs ∧ hi k ∉ i.dregs) :
    (exec s is).h k = s.h k := by
  rw [State.h, q_exec h, State.h]

/-- and the memory, if none stores. -/
theorem mem_exec (h : ∀ i ∈ is, i.stores = false) : (exec s is).mem = s.mem :=
  Code.Ends.keeps (c := .block is) ⟨0, rfl⟩ fun i hi _ => Instr.mem_exec (h i hi)

/-- Code keeps the core registers that no instruction of it writes. -/
theorem Code.Ends.gpr_eq (h : c.Ends s s') (hr : ∀ i ∈ c.instrs, r ∉ i.gprs) :
    s'.gpr r = s.gpr r :=
  h.keeps (f := fun s => s.gpr r) fun i hi _ => Instr.gpr_exec (hr i hi)

/-- Code keeps the stack if no instruction of it moves the stack pointer. -/
theorem Code.Ends.stack_eq (h : c.Ends s s') (hc : ∀ i ∈ c.instrs, i.movesStack = false) :
    s'.stack = s.stack :=
  h.keeps fun i hi _ => Instr.stack_exec (hc i hi)

/-! ## Routines -/

/-- What a routine is called with: the first four arguments are in registers, and the others on the
stack. -/
def passed (s : State) : List Word := [s.gpr .r0, s.gpr .r1, s.gpr .r2, s.gpr .r3] ++ s.stack

/-- A routine that saves registers and the address to return to on the stack, and gets them back at
the end. -/
def routine (saved : List Reg) (body : Code) : Code :=
  .seq (.block [.stmfd (saved ++ [.lr])]) (.seq body (.block [.ldmfd (saved ++ [.pc])]))

/-- The state in which the body starts. -/
def pushed (saved : List Reg) (s : State) : State :=
  { s with stack := (saved ++ [Reg.lr]).map s.gpr ++ s.stack }

/-- The state after a call is that of the caller, but for the memory and the SIMD registers. -/
structure Returned (s s' : State) : Prop where
  gpr : ∀ r, r ≠ .pc → s'.gpr r = s.gpr r
  pc : s'.gpr .pc = s.gpr .lr
  stack : s'.stack = s.stack

/-- A call of a routine with these arguments in the memory `m` returns with the memory `m'`. -/
def Calls (c : Code) (args : List Word) (m m' : Word → Byte) : Prop :=
  ∀ s w, passed s = args ++ w → s.mem = m → ∃ s', c.Ends s s' ∧ Returned s s' ∧ s'.mem = m'

/-- Registers that were saved have their values again. -/
theorem gpr_foldl_pop_of_mem {rs : List Reg} (f : Reg → Word) {w : List Word}
    (hstack : s.stack = rs.map f ++ w) (hr : r ∈ rs) (hnodup : rs.Nodup) :
    (rs.foldl pop s).gpr r = f r := by
  induction rs generalizing s with
  | nil => cases hr
  | cons r' rs ih =>
    rw [List.foldl_cons]
    rw [List.map_cons, List.cons_append] at hstack
    have htail : (pop s r').stack = rs.map f ++ w := congrArg List.tail hstack
    rcases List.mem_cons.mp hr with rfl | hr
    · rw [gpr_foldl_pop (List.nodup_cons.mp hnodup).1]
      exact (if_pos rfl).trans (by rw [hstack]; rfl)
    · exact ih htail hr (List.nodup_cons.mp hnodup).2

/-- The stack is left as it was before the registers were saved. -/
theorem stack_foldl_pop {rs : List Reg} {vs w : List Word} (hstack : s.stack = vs ++ w)
    (hlen : vs.length = rs.length) : (rs.foldl pop s).stack = w := by
  induction rs generalizing s vs with
  | nil =>
    rw [List.length_eq_zero_iff.mp hlen] at hstack
    exact hstack
  | cons r rs ih =>
    cases vs with
    | nil => cases hlen
    | cons v vs => exact ih (congrArg List.tail hstack) (Nat.succ.inj hlen)

/-- A routine whose body leaves the stack alone, and writes the registers that are saved alone,
returns to its caller with the memory its body leaves. -/
theorem routine_returns {saved : List Reg} (hnodup : (saved ++ [Reg.pc]).Nodup)
    (hgpr : ∀ i ∈ body.instrs, ∀ r ∈ i.gprs, r ∈ saved)
    (hstack : ∀ i ∈ body.instrs, i.movesStack = false)
    (h : Triple (· = pushed saved s) body Q) :
    ∃ s' t, (routine saved body).Ends s s' ∧ Returned s s' ∧ Q t ∧ s'.mem = t.mem ∧ s'.d = t.d := by
  obtain ⟨t, hbody, hQ⟩ := h _ rfl
  have hends : (routine saved body).Ends s ((saved ++ [Reg.pc]).foldl pop t) := by
    obtain ⟨fuel, hrun⟩ := hbody
    refine ⟨fuel, Option.bind_eq_some_iff.mpr ⟨_, rfl, ?_⟩⟩
    exact Option.bind_eq_some_iff.mpr ⟨_, hrun, rfl⟩
  -- what the stack holds for each register that is loaded
  let f (r : Reg) : Word := if r = .pc then s.gpr .lr else s.gpr r
  have hpc : Reg.pc ∉ saved := fun hr =>
    List.disjoint_of_nodup_append hnodup hr (List.mem_singleton_self _)
  have hsaved : t.stack = (saved ++ [Reg.pc]).map f ++ s.stack := by
    have hmap : saved.map s.gpr = saved.map f :=
      List.map_congr_left fun r hr => (if_neg (ne_of_mem_of_not_mem hr hpc)).symm
    rw [hbody.stack_eq hstack, pushed, List.map_append, List.map_append, hmap]
    rfl
  refine ⟨_, t, hends, ⟨?_, ?_, ?_⟩, hQ, mem_foldl_pop, d_foldl_pop⟩
  · intro r hr
    by_cases hmem : r ∈ saved
    · rw [gpr_foldl_pop_of_mem f hsaved (List.mem_append_left _ hmem) hnodup]
      exact if_neg hr
    · rw [gpr_foldl_pop (by simp [hmem, hr]), hbody.gpr_eq fun i hi hri => hmem (hgpr i hi r hri)]
      rfl
  · rw [gpr_foldl_pop_of_mem f hsaved (List.mem_append_right _ (List.mem_singleton_self _)) hnodup]
    exact if_pos rfl
  · exact stack_foldl_pop hsaved (List.length_map f)

end Arm
