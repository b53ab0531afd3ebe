import DVP.Lib.Arm.Rules
import Mathlib.Tactic.Ring

/-!
# Walks over images

A routine for images walks over lines of groups of pixels. It has pointers, which move by a number of
bytes after a group and by a step after a line, constants, and counters of the pixels and the lines
that are left. `place` has the address of a group, also when the groups of a line go past the
width of the image, where the lines of the walk drift away from those of the image.

`Blocks.calls`: if the three blocks of the routine move the pointers, and a group does to the memory
what the walk says, a call of the routine returns with that done to every group.
-/

namespace Arm

open Region

/-- Where the group `j` of the line `l` starts: a line has `w` groups of `n` bytes, after which the
pointer moves on by `step`. -/
def place (base step : Word) (n w l j : Nat) : Word :=
  base + BitVec.ofNat 32 l * (BitVec.ofNat 32 (n * w) + step) + BitVec.ofNat 32 (n * j)

section Places

variable {base step v : Word} {n w l j : Nat}

/-- The first group is at the start of the plane. -/
theorem place_zero : place base step n w 0 0 = base := by
  simp only [place, BitVec.zero_mul, BitVec.add_zero, Nat.mul_zero]

/-- The next group is behind a group. -/
theorem place_add : place base step n w l j + BitVec.ofNat 32 n = place base step n w l (j + 1) := by
  rw [place, place, BitVec.add_assoc, ← BitVec.ofNat_add, Nat.mul_succ]

/-- The next line is a step behind a line. -/
theorem place_add_step : place base step n w l w + step = place base step n w (l + 1) 0 := by
  rw [place, place, BitVec.ofNat_add l 1, Nat.mul_zero, BitVec.add_zero, BitVec.add_mul,
    BitVec.one_mul]
  ring

/-- A counter goes down by as much as a group has. -/
theorem sub_counter :
    v - BitVec.ofNat 32 (n * j) - BitVec.ofNat 32 n = v - BitVec.ofNat 32 (n * (j + 1)) := by
  rw [sub_sub, ← BitVec.ofNat_add, Nat.mul_succ]

end Places

/-- A register with the address of the group the walk is at. -/
structure Pointer where
  reg : Reg
  base : Word
  step : Word
  n : Nat

/-- A walk over an image of a width and a height, in groups of `k` pixels and of `d` lines. -/
structure Walk where
  width : Word
  height : Word
  k : Nat
  d : Nat
  pixelsLeft : Reg
  linesLeft : Reg
  pointers : List Pointer
  constants : List (Reg × Word)
  simd : State → Prop
  group : Nat → Nat → (Word → Byte) → Word → Byte

namespace Walk

variable (a : Walk)

/-- How many groups a line has, and how many lines are walked. -/
def groups : Nat := rounds a.width a.k

/-- How many lines the walk visits. -/
def lines : Nat := rounds a.height a.d

/-- The address a pointer has at the group `j` of the line `l`. -/
def place (p : Pointer) (l j : Nat) : Word := Arm.place p.base p.step p.n a.groups l j

/-- The memory after the groups of a line, and of the image. -/
def line (l : Nat) (m : Word → Byte) : Word → Byte := loop (a.group l) a.groups m

/-- What the walk does to the memory. -/
def image (m : Word → Byte) : Word → Byte := loop a.line a.lines m

/-- The constants are in their registers. -/
structure Ready (s : State) : Prop where
  constants : ∀ c ∈ a.constants, s.gpr c.1 = c.2
  simd : a.simd s

/-- The state at the group `j` of the line `l`, but for the counter of the pixels. -/
structure Line (w : List Word) (m : Word → Byte) (l j : Nat) (s : State) : Prop
    extends a.Ready s where
  pointers : ∀ p ∈ a.pointers, s.gpr p.reg = a.place p l j
  linesLeft : s.gpr a.linesLeft = a.height - BitVec.ofNat 32 (a.d * l)
  stack : s.stack = w
  mem : s.mem = loop (a.group l) j (loop a.line l m)

/-- The state at the group `j` of the line `l`. -/
structure Group (w : List Word) (m : Word → Byte) (l j : Nat) (s : State) : Prop
    extends a.Line w m l j s where
  pixelsLeft : s.gpr a.pixelsLeft = a.width - BitVec.ofNat 32 (a.k * j)

/-- What a block does to the pointers, and that it keeps the rest. -/
structure Moves (δ : Pointer → Word) (s s' : State) : Prop where
  pointers : ∀ p ∈ a.pointers, s'.gpr p.reg = s.gpr p.reg + δ p
  constants : ∀ c ∈ a.constants, s'.gpr c.1 = s.gpr c.1
  simd : a.simd s → a.simd s'
  stack : s'.stack = s.stack

/-- The blocks of a routine are those of the walk. -/
structure Blocks (start pixels lineEnd : List Instr) : Prop where
  hk : 0 < a.k ∧ a.k < 2 ^ 31
  hd : 0 < a.d ∧ a.d < 2 ^ 31
  onStart : ∀ s, a.Ready s →
    a.Moves (fun _ => 0) s (exec s start) ∧ (exec s start).mem = s.mem ∧
      (exec s start).gpr a.linesLeft = s.gpr a.linesLeft ∧
      (exec s start).gpr a.pixelsLeft = a.width
  onPixels : ∀ s, a.Ready s →
    a.Moves (fun p => BitVec.ofNat 32 p.n) s (exec s pixels) ∧
      (exec s pixels).gpr a.linesLeft = s.gpr a.linesLeft ∧
      (exec s pixels).gpr a.pixelsLeft = s.gpr a.pixelsLeft - BitVec.ofNat 32 a.k ∧
      (exec s pixels).flags = subFlags (s.gpr a.pixelsLeft) (BitVec.ofNat 32 a.k)
  onGroup : ∀ s l j, a.Ready s → (∀ p ∈ a.pointers, s.gpr p.reg = a.place p l j) →
    (exec s pixels).mem = a.group l j s.mem
  onLineEnd : ∀ s, a.Ready s →
    a.Moves Pointer.step s (exec s lineEnd) ∧ (exec s lineEnd).mem = s.mem ∧
      (exec s lineEnd).gpr a.linesLeft = s.gpr a.linesLeft - BitVec.ofNat 32 a.d ∧
      (exec s lineEnd).flags = subFlags (s.gpr a.linesLeft) (BitVec.ofNat 32 a.d)

variable {a} {w : List Word} {m : Word → Byte} {l j : Nat} {s s' : State} {δ : Pointer → Word}
  {entry start pixels lineEnd : List Instr}

/-- What the code keeps is still there for the next line. -/
theorem Moves.ready (h : a.Moves δ s s') (hs : a.Ready s) : a.Ready s' where
  constants c hc := (h.constants c hc).trans (hs.constants c hc)
  simd := h.simd hs.simd

/-- The code for the start of a line leads to its first group. -/
theorem Blocks.group_start (h : a.Blocks start pixels lineEnd) (hs : a.Line w m l 0 s) :
    a.Group w m l 0 (exec s start) := by
  obtain ⟨hmoves, hmem, hlines, hpixels⟩ := h.onStart s hs.toReady
  refine ⟨⟨hmoves.ready hs.toReady, fun p hp => ?_, hlines.trans hs.linesLeft,
    hmoves.stack.trans hs.stack, hmem.trans hs.mem⟩, ?_⟩
  · rw [hmoves.pointers p hp, add_zero, hs.pointers p hp]
  · rw [hpixels, Nat.mul_zero, BitVec.sub_zero]

/-- The code for a group leads to the next one and counts it. -/
theorem Blocks.group_pixels (h : a.Blocks start pixels lineEnd) (hs : a.Group w m l j s)
    (hj : j < a.groups) :
    Cond.gt.holds (exec s pixels).flags = decide (j + 1 < a.groups) ∧
      a.Group w m l (j + 1) (exec s pixels) := by
  have hready := hs.toReady
  obtain ⟨hmoves, hlines, hpixels, hflags⟩ := h.onPixels s hready
  have hmem := h.onGroup s l j hready hs.pointers
  constructor
  · rw [hflags, hs.pixelsLeft]
    exact gt_counter h.hk.1 h.hk.2 hj
  refine ⟨⟨hmoves.ready hready, fun p hp => ?_, hlines.trans hs.linesLeft,
    hmoves.stack.trans hs.stack, ?_⟩, ?_⟩
  · rw [hmoves.pointers p hp, hs.pointers p hp]
    exact place_add
  · rw [hmem, hs.mem]
    rfl
  · rw [hpixels, hs.pixelsLeft]
    exact sub_counter

/-- The code for the end of a line leads to the next line and counts it. -/
theorem Blocks.line_lineEnd (h : a.Blocks start pixels lineEnd) (hs : a.Group w m l a.groups s)
    (hl : l < a.lines) :
    Cond.gt.holds (exec s lineEnd).flags = decide (l + 1 < a.lines) ∧
      a.Line w m (l + 1) 0 (exec s lineEnd) := by
  have hready := hs.toReady
  obtain ⟨hmoves, hmem, hlines, hflags⟩ := h.onLineEnd s hready
  constructor
  · rw [hflags, hs.linesLeft]
    exact gt_counter h.hd.1 h.hd.2 hl
  refine ⟨hmoves.ready hready, fun p hp => ?_, ?_, hmoves.stack.trans hs.stack, hmem.trans hs.mem⟩
  · rw [hmoves.pointers p hp, hs.pointers p hp]
    exact place_add_step
  · rw [hlines, hs.linesLeft]
    exact sub_counter

/-- A call of the routine returns with the memory after the walk. -/
theorem Blocks.calls {saved : List Reg} {args : List Word} (h : a.Blocks start pixels lineEnd)
    (hnodup : (saved ++ [Reg.pc]).Nodup)
    (hgpr : ∀ i ∈ (Code.seq (.block entry) (Arm.lines start pixels lineEnd .gt)).instrs,
      ∀ r ∈ i.gprs, r ∈ saved)
    (hstack : ∀ i ∈ (Code.seq (.block entry) (Arm.lines start pixels lineEnd .gt)).instrs,
      i.movesStack = false)
    (hentry : ∀ s w, passed s = args ++ w →
      a.Line (pushed saved s).stack s.mem 0 0 (exec (pushed saved s) entry)) :
    Calls (routine saved (.seq (.block entry) (Arm.lines start pixels lineEnd .gt))) args m
      (a.image m) := by
  rintro s w hs rfl
  have htriple : Triple (· = pushed saved s)
      (.seq (.block entry) (Arm.lines start pixels lineEnd .gt))
      (a.Line (pushed saved s).stack s.mem a.lines 0) := by
    let L l := a.Line (pushed saved s).stack s.mem l 0
    refine Triple.seq (R := L 0) (Triple.block ?_) (Triple.lines (L := L) rounds_pos rounds_pos
      (fun l _ t ht => h.group_start ht) (fun l _ j hj t ht => h.group_pixels ht hj)
      (fun l hl t ht => h.line_lineEnd ht hl))
    rintro t rfl
    exact hentry s w hs
  obtain ⟨s', t, hends, hreturned, hline, hmem, -⟩ := routine_returns hnodup hgpr hstack htriple
  exact ⟨s', hends, hreturned, hmem.trans hline.mem⟩

end Walk

end Arm
