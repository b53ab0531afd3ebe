import DVP.Yuv.Groups

/-!
# Colours in the registers

What the instructions that the routines share do to the SIMD registers: `FILL_YCBCR_TO_RGB_BT601`
leaves constants, `vld4.8` unpacks 16 pixels of UYVY data, and `ycbcrToRgb` computes their colours
lane by lane.
-/

namespace DVP.Yuv

open Arm Region State

variable {s : State} {m : Memory} {p : Word}

/-- The constants of the conversion are in their registers. -/
structure Constants (s : State) : Prop where
  yk : s.h 15 = fun _ => 74
  gk2 : s.h 14 = fun _ => 25
  gk1 : s.h 13 = fun _ => 52
  rk : s.h 12 = fun _ => 102
  bk : s.h 11 = fun _ => 129
  coff : s.d 21 = fun _ => 128
  yoff : s.d 20 = fun _ => 16

/-- The registers hold the group at `p`, unpacked. -/
structure Unpacked (m : Memory) (p : Word) (s : State) : Prop where
  u : s.d 0 = strided m p 4 0
  y0 : s.d 1 = strided m p 4 1
  v : s.d 2 = strided m p 4 2
  y1 : s.d 3 = strided m p 4 3

theorem constants_fill (s : State) : Constants (exec s (fillYcbcrToRgbBt601 15 14 13 12 11 21 20)) := by
  constructor <;>
    simp +decide only [fillYcbcrToRgbBt601, exec_cons, exec_nil, Instr.exec, h_setH_self,
      h_setH_of_ne, h_setD_of_ne, d_setD, if_true, if_false, ne_eq]

/-- The constants are kept by instructions that do not write their registers. -/
theorem Constants.exec {is : List Instr} (hs : Constants s)
    (his : ∀ i ∈ is, ∀ k ∈ i.dregs, k.val < 20) : Constants (exec s is) := by
  have hd : ∀ k : Fin 32, 20 ≤ k.val → ∀ i ∈ is, k ∉ i.dregs := fun k hk i hi hki =>
    absurd (his i hi k hki) (Nat.not_lt.mpr hk)
  have hq : ∀ q : Fin 16, 10 ≤ q.val → (Arm.exec s is).h q = s.h q := fun q hq =>
    h_exec fun i hi =>
      ⟨hd (lo q) (by simp only [lo]; omega) i hi, hd (Arm.hi q) (by simp only [Arm.hi]; omega) i hi⟩
  exact
    { yk := (hq 15 (by decide)).trans hs.yk
      gk2 := (hq 14 (by decide)).trans hs.gk2
      gk1 := (hq 13 (by decide)).trans hs.gk1
      rk := (hq 12 (by decide)).trans hs.rk
      bk := (hq 11 (by decide)).trans hs.bk
      coff := (d_exec (hd 21 (by decide))).trans hs.coff
      yoff := (d_exec (hd 20 (by decide))).trans hs.yoff }

theorem unpacked_vld4 (s : State) (rn : Reg) (post : Post) :
    Unpacked s.mem (s.gpr rn) (Instr.exec s (.vld4_8 0 1 2 3 rn post)) := by
  constructor <;> simp +decide only [Instr.exec, Post.d_exec, d_setD, if_true, if_false]

/-- A group stays unpacked as long as its registers are not written. -/
theorem Unpacked.exec {is : List Instr} (hu : Unpacked m p s)
    (his : ∀ i ∈ is, ∀ k ∈ i.dregs, 4 ≤ k.val) : Unpacked m p (exec s is) := by
  have hd : ∀ k : Fin 32, k.val < 4 → (Arm.exec s is).d k = s.d k := fun k hk =>
    d_exec fun i hi hki => absurd (his i hi k hki) (Nat.not_le.mpr hk)
  exact ⟨(hd 0 (by decide)).trans hu.u, (hd 1 (by decide)).trans hu.y0,
    (hd 2 (by decide)).trans hu.v, (hd 3 (by decide)).trans hu.y1⟩

/-! ## Lanes of pixels -/

section Lanes

variable {i : Fin 8}

theorem luma_even : luma m p ⟨2 * i, by omega⟩ = strided m p 4 1 i := by
  unfold strided luma
  congr 3
  simp only
  omega

theorem luma_odd : luma m p ⟨2 * i + 1, by omega⟩ = strided m p 4 3 i := by
  unfold strided luma
  congr 3
  simp only
  omega

theorem cb_even : cb m p ⟨2 * i, by omega⟩ = strided m p 4 0 i := by
  unfold strided cb
  congr 3
  simp only
  omega

theorem cb_odd : cb m p ⟨2 * i + 1, by omega⟩ = strided m p 4 0 i := by
  unfold strided cb
  congr 3
  simp only
  omega

theorem cr_even : cr m p ⟨2 * i, by omega⟩ = strided m p 4 2 i := by
  unfold strided cr
  congr 3
  simp only
  omega

theorem cr_odd : cr m p ⟨2 * i + 1, by omega⟩ = strided m p 4 2 i := by
  unfold strided cr
  congr 3
  simp only
  omega

end Lanes

/-- The luma registers in turn have the luma of the group. -/
theorem interleave_luma :
    interleave (n := 8) (strided m p 4 1) (strided m p 4 3) = luma m p :=
  interleave_eq (fun _ => luma_even.symm) (fun _ => luma_odd.symm)

/-- A chroma register in turn with itself has the chroma of the pixels. -/
theorem interleave_cb : interleave (n := 8) (strided m p 4 0) (strided m p 4 0) = cb m p :=
  interleave_eq (fun _ => cb_even.symm) (fun _ => cb_odd.symm)

theorem interleave_cr : interleave (n := 8) (strided m p 4 2) (strided m p 4 2) = cr m p :=
  interleave_eq (fun _ => cr_even.symm) (fun _ => cr_odd.symm)

/-! ## The conversion -/

/-- The instructions run lane by lane: the even pixels in one register, the odd ones in another. -/
theorem exec_ycbcrToRgb (hs : Constants s) (hu : Unpacked m p s) :
    (exec s ycbcrToRgb).d 0 = lower (blues m p) ∧ (exec s ycbcrToRgb).d 3 = upper (blues m p) ∧
      (exec s ycbcrToRgb).d 1 = lower (greens m p) ∧ (exec s ycbcrToRgb).d 4 = upper (greens m p) ∧
      (exec s ycbcrToRgb).d 2 = lower (reds m p) ∧ (exec s ycbcrToRgb).d 5 = upper (reds m p) := by
  simp +decide only [ycbcrToRgb, exec_cons, exec_nil, Instr.exec, d_setD, d_setH_of_ne, h_setH_self,
    h_setH_of_ne, h_setD_of_ne, hs.yk, hs.gk2, hs.gk1, hs.rk, hs.bk, hs.coff, hs.yoff, hu.u, hu.y0,
    hu.v, hu.y1, if_true, if_false, ne_eq]
  refine ⟨congrArg lower ?_, congrArg upper ?_, congrArg lower ?_, congrArg upper ?_,
    congrArg lower ?_, congrArg upper ?_⟩
  all_goals
    refine interleave_eq (fun i => ?_) (fun i => ?_)
    · simp only [blues, greens, reds, blue, green, red, luma_even, cb_even, cr_even]
      rfl
    · simp only [blues, greens, reds, blue, green, red, luma_odd, cb_odd, cr_odd]
      rfl

/-- The colours of the group at `p` are written where the pointers are. -/
theorem mem_storeRgb (hs : Constants s) (hu : Unpacked m p s) :
    (exec (exec s ycbcrToRgb) (storeRgb .r4 .r5 .r6)).mem =
      write (write (write s.mem (s.gpr .r6) (blues m p)) (s.gpr .r5) (greens m p)) (s.gpr .r4)
        (reds m p) := by
  obtain ⟨hd0, hd3, hd1, hd4, hd2, hd5⟩ := exec_ycbcrToRgb hs hu
  have hmem : (exec s ycbcrToRgb).mem = s.mem := mem_exec (by decide)
  have hgpr : ∀ r, (exec s ycbcrToRgb).gpr r = s.gpr r := fun r => by
    refine gpr_exec fun i hi => ?_
    rw [(by decide : ∀ i ∈ ycbcrToRgb, i.gprs = []) i hi]
    exact List.not_mem_nil
  have hstores : ∀ u : State, (exec u (storeRgb .r4 .r5 .r6)).mem =
      write (write (write (write (write (write u.mem (u.gpr .r6) (u.d 0)) (u.gpr .r6 + 8) (u.d 3))
        (u.gpr .r5) (u.d 1)) (u.gpr .r5 + 8) (u.d 4)) (u.gpr .r4) (u.d 2)) (u.gpr .r4 + 8) (u.d 5) :=
    fun _ => rfl
  rw [hstores, hd0, hd3, hd1, hd4, hd2, hd5, hmem, hgpr, hgpr, hgpr, write_lower_upper,
    write_lower_upper, write_lower_upper]

/-! ## Luma alone -/

/-- The bytes of a 16-bit lane that is shifted by 8 bits in a lane of 32. -/
theorem shifted_byte (x y : Byte) (k : Nat) :
    ((y ++ x : Half).setWidth 32 <<< 8).extractLsb' (8 * k) 8 =
      if k = 1 then x else if k = 2 then y else 0 := by
  have hx := x.isLt
  have hy := y.isLt
  have hhalf : (y ++ x : Half).toNat = 2 ^ 8 * y.toNat + x.toNat := by
    rw [BitVec.toNat_append, Nat.two_pow_add_eq_or_of_lt hx, Nat.shiftLeft_eq, Nat.mul_comm]
  apply BitVec.eq_of_toNat_eq
  rw [BitVec.extractLsb'_toNat, BitVec.toNat_shiftLeft, BitVec.toNat_setWidth, hhalf,
    Nat.shiftLeft_eq, Nat.shiftRight_eq_div_pow]
  by_cases hk : k < 4
  · have hcase : k = 0 ∨ k = 1 ∨ k = 2 ∨ k = 3 := by omega
    rcases hcase with rfl | rfl | rfl | rfl <;> simp <;> omega
  · have h4 : 2 ^ 32 ≤ 2 ^ (8 * k) := Nat.pow_le_pow_right (by norm_num) (by omega)
    rw [if_neg (by omega), if_neg (by omega), Nat.div_eq_of_lt ((Nat.mod_lt _ (by norm_num)).trans_le h4)]
    rfl

/-- The bytes of a quad register after `vshll.u16` and `vorr`. -/
def shifted (y : Fin 8 → Byte) (k : Fin 16) : Byte :=
  pairBytes (y ⟨2 * (k / 4), by omega⟩) (y ⟨2 * (k / 4) + 1, by omega⟩) (k % 4)

theorem shll_orr (y : Fin 8 → Byte) (k : Fin 16) :
    ofWords (n := 4) (fun i => (halves (n := 4) y i).setWidth 32 <<< 8) k |||
      ofHalves (n := 8) (fun _ => 0x0080) k = shifted y k := by
  have hbyte : ofWords (n := 4) (fun i => (halves (n := 4) y i).setWidth 32 <<< 8) k =
      if k.val % 4 = 1 then y ⟨2 * (k / 4), by omega⟩
      else if k.val % 4 = 2 then y ⟨2 * (k / 4) + 1, by omega⟩ else 0 := shifted_byte _ _ _
  have hconst : ofHalves (n := 8) (fun _ => 0x0080) k =
      (0x0080 : Half).extractLsb' (8 * (k % 2)) 8 := rfl
  rw [hbyte, hconst, shifted, pairBytes]
  have hcase : k.val % 4 = 0 ∨ k.val % 4 = 1 ∨ k.val % 4 = 2 ∨ k.val % 4 = 3 := by omega
  rcases hcase with hk | hk | hk | hk
  · rw [hk, (by omega : k.val % 2 = 0)]
    exact BitVec.zero_or
  · rw [hk, (by omega : k.val % 2 = 1)]
    exact BitVec.or_zero
  · rw [hk, (by omega : k.val % 2 = 0)]
    rfl
  · rw [hk, (by omega : k.val % 2 = 1)]
    exact BitVec.zero_or

end DVP.Yuv
