import DVP.Yuv.Pictures

/-!
# What the conversions compute

* one call of `__uyvy_to_rgbp_luma_yuv444p_image` leaves the memory that calls of the three routines
  leave one after the other;
* the colours are those of the equations in `yuv_armv7.h`, but for a blue that does not fit into the
  16 bits of a lane;
* the luma that is taken out of what `__luma_to_uyvy_image` makes is that of the even pixels alone.
-/

namespace DVP.Yuv

open Arm Region State

/-! ## One pass for three -/

section Fused

variable {a : FusedArgs} {m : Memory}

/-- The fused walk is the three walks, -/
theorem FusedArgs.image_eq (h : a.picture.Apart) :
    (UyvyToRgbpLumaYuv444p.walk a).image m =
      (UyvyToYuv444p.walk a.yuv444p).image
        ((LumaExtract.walk a.luma).image ((UyvyToRgbp.walk a.rgbp).image m)) := by
  have hpart : (Picture.sum (o := a.source) a.rgbp.picture a.luma.picture).Apart := h.left
  rw [walk_eq, RgbpArgs.walk_eq, LumaArgs.walk_eq, Yuv444pArgs.walk_eq]
  have hrgbp := hpart.left.drawn (m := m) mem_channels
  have hluma := hpart.right.drawn (m := a.rgbp.picture.walk [.b, .g, .r] m) mem_unit
  have hyuv := h.right.drawn (m := a.luma.picture.walk [()] (a.rgbp.picture.walk [.b, .g, .r] m))
    mem_components
  refine (h.drawn ?_).unique (h.drawn_sum (hpart.drawn_sum hrgbp hluma) hyuv)
  rintro ((i | i) | i)
  · have hi := mem_channels i
    simp_all
  · simp
  · have hi := mem_components i
    simp_all

/-- in the other order as well. -/
theorem FusedArgs.image_eq_reverse (h : a.picture.Apart) :
    (UyvyToRgbpLumaYuv444p.walk a).image m =
      (UyvyToRgbp.walk a.rgbp).image
        ((LumaExtract.walk a.luma).image ((UyvyToYuv444p.walk a.yuv444p).image m)) := by
  have hrl : (Picture.sum (o := a.source) a.rgbp.picture a.luma.picture).Apart := h.left
  have hry : (Picture.sum (o := a.source) a.rgbp.picture a.yuv444p.picture).Apart :=
    h.first_third
  have hly : (Picture.sum (o := a.source) a.luma.picture a.yuv444p.picture).Apart :=
    h.second_third
  rw [image_eq h, RgbpArgs.walk_eq, LumaArgs.walk_eq, Yuv444pArgs.walk_eq]
  exact (hly.walk_comm mem_unit mem_components).trans
    ((congrArg _ (hry.walk_comm mem_channels mem_components)).trans
      (hrl.walk_comm mem_channels mem_unit))

/-- The fused routine does in one pass what the three routines do. -/
theorem uyvyToRgbpLumaYuv444pImage_eq (h : a.picture.Apart) (m : Memory) :
    ∃ m₁ m₂ m', Calls uyvyToRgbpImageBt601 (UyvyToRgbp.words a.rgbp) m m₁ ∧
      Calls uyvyLumaExtract (LumaExtract.words a.luma) m₁ m₂ ∧
      Calls uyvyToYuv444pImage (UyvyToYuv444p.words a.yuv444p) m₂ m' ∧
      Calls uyvyToRgbpLumaYuv444pImage (UyvyToRgbpLumaYuv444p.words a) m m' := by
  refine ⟨_, _, _, uyvyToRgbpImageBt601_calls, uyvyLumaExtract_calls, uyvyToYuv444pImage_calls, ?_⟩
  rw [← FusedArgs.image_eq h]
  exact uyvyToRgbpLumaYuv444pImage_calls

end Fused

/-- An image of 32 pixels. -/
theorem uyvyToRgbpLumaYuv444pImage_eq_small :
    ∃ a : FusedArgs, a.picture.Apart ∧ ∀ m, ∃ m₁ m₂ m',
      Calls uyvyToRgbpImageBt601 (UyvyToRgbp.words a.rgbp) m m₁ ∧
      Calls uyvyLumaExtract (LumaExtract.words a.luma) m₁ m₂ ∧
      Calls uyvyToYuv444pImage (UyvyToYuv444p.words a.yuv444p) m₂ m' ∧
      Calls uyvyToRgbpLumaYuv444pImage (UyvyToRgbpLumaYuv444p.words a) m m' := by
  let a : FusedArgs :=
    { width := 16, height := 2, pUYVY := 0x1000, srcStride := 32, pR := 0x2000, pG := 0x2020
      pB := 0x2040, pL := 0x3000, pY := 0x4000, pU := 0x4020, pV := 0x4040 }
  have hplaced : a.picture.Placed := ⟨by decide, by decide, by decide, by decide, by decide⟩
  exact ⟨a, hplaced.apart_of, fun m => uyvyToRgbpLumaYuv444pImage_eq hplaced.apart_of m⟩

/-! ## The equations -/

section Equations

variable {y cb cr : Byte}

/-- `74 * Y' + 102 * Cr'`, and so on. -/
def redSum (y cr : Byte) : Int := 74 * (y.toNat - 16) + 102 * (cr.toNat - 128)

/-- The sum for green, in 64ths. -/
def greenSum (y cb cr : Byte) : Int :=
  74 * (y.toNat - 16) - 52 * (cr.toNat - 128) - 25 * (cb.toNat - 128)

/-- The sum for blue, in 64ths. -/
def blueSum (y cb : Byte) : Int := 74 * (y.toNat - 16) + 129 * (cb.toNat - 128)

/-- The colours of the equations, in the range from 0 to 255. -/
def equationRed (y cr : Byte) : Byte := saturate (redSum y cr >>> (6 : Nat))

/-- Green by the equations. -/
def equationGreen (y cb cr : Byte) : Byte := saturate (greenSum y cb cr >>> (6 : Nat))

/-- Blue by the equations. -/
def equationBlue (y cb : Byte) : Byte := saturate (blueSum y cb >>> (6 : Nat))

/-- A byte in a lane of 16 bits. -/
theorem lane_byte {x : Byte} : x.setWidth 16 = ((x.toNat : Int) : Half) := by
  rw [Int.cast_natCast, BitVec.natCast_eq_ofNat, BitVec.ofNat_toNat]

/-- The lanes have the sums, as far as 16 bits do. -/
theorem lane_eq {x : Half} {z : Int} (h : x = (z : Half)) (hz : -2 ^ 15 ≤ z) (hz' : z < 2 ^ 15) :
    x.toInt = z := by
  rw [h]
  refine (BitVec.toInt_ofInt z).trans (Int.bmod_eq_of_le ?_ ?_) <;> omega

/-- The lane for red holds its sum. -/
theorem lane_red :
    ((y.setWidth 16 - 16) * 74 + (cr.setWidth 16 - 128) * 102 : Half) = (redSum y cr : Half) := by
  rw [lane_byte, lane_byte, redSum]
  push_cast
  ring

/-- Red is that of the equations. -/
theorem red_eq : red y cr = equationRed y cr := by
  have hy := y.isLt
  have hcr := cr.isLt
  rw [red, lane_eq lane_red, equationRed] <;> unfold redSum <;> omega

/-- The lane for green holds its sum. -/
theorem lane_green :
    ((y.setWidth 16 - 16) * 74 - (cr.setWidth 16 - 128) * 52 - (cb.setWidth 16 - 128) * 25 : Half) =
      (greenSum y cb cr : Half) := by
  rw [lane_byte, lane_byte, lane_byte, greenSum]
  push_cast
  ring

/-- Green is that of the equations. -/
theorem green_eq : green y cb cr = equationGreen y cb cr := by
  have hy := y.isLt
  have hcb := cb.isLt
  have hcr := cr.isLt
  rw [green, lane_eq lane_green, equationGreen] <;> unfold greenSum <;> omega

/-- The lane for blue holds its sum, which may wrap. -/
theorem lane_blue :
    ((y.setWidth 16 - 16) * 74 + (cb.setWidth 16 - 128) * 129 : Half) = (blueSum y cb : Half) := by
  rw [lane_byte, lane_byte, blueSum]
  push_cast
  ring

/-- A blue that does not fit is a negative number in the lane, and no blue at all. -/
theorem blue_eq_iff : blue y cb = equationBlue y cb ↔ blueSum y cb < 2 ^ 15 := by
  have hy := y.isLt
  have hcb := cb.isLt
  have hlow : -2 ^ 15 ≤ blueSum y cb := by unfold blueSum; omega
  have hhigh : blueSum y cb < 2 ^ 16 := by unfold blueSum; omega
  constructor
  · intro h
    by_contra hbig
    have hlane : ((y.setWidth 16 - 16) * 74 + (cb.setWidth 16 - 128) * 129 : Half).toInt =
        blueSum y cb - 2 ^ 16 := by
      rw [lane_blue]
      refine (BitVec.toInt_ofInt _).trans ?_
      rw [Int.bmod_eq_emod]
      split <;> omega
    have hnone : blue y cb = 0 := by
      rw [blue, hlane, saturate, max_eq_left]
      · rfl
      · rw [min_le_iff, Int.shiftRight_eq_div_pow]
        omega
    have hfull : equationBlue y cb = 255 := by
      rw [equationBlue, saturate, min_eq_left]
      · rfl
      · rw [Int.shiftRight_eq_div_pow]
        omega
    rw [hnone, hfull] at h
    cases h
  · intro h
    rw [blue, lane_eq lane_blue hlow h, equationBlue]

end Equations

/-- The planes as the equations have them. -/
def RgbpArgs.equations (a : RgbpArgs) : Picture a.source Channel where
  plane := a.picture.plane
  color
    | .r => fun y _ cr => equationRed y cr
    | .g => fun y cb cr => equationGreen y cb cr
    | .b => fun y cb _ => equationBlue y cb

/-- No blue of the image is too much for a lane. -/
def Source.Fits (o : Source) (m : Memory) : Prop :=
  ∀ l < o.lines, ∀ i < 16 * o.groups,
    blueSum (m (o.addr l (2 * i + 1))) (m (o.addr l (4 * (i / 2)))) < 2 ^ 15

/-- The pixels of the equations are those of the picture. -/
theorem RgbpArgs.addr_equations {a : RgbpArgs} : a.equations.addr = a.picture.addr := by
  funext x
  simp only [Picture.addr, equations]

/-- The picture that is drawn is that of the equations exactly when no blue wraps. -/
theorem RgbpArgs.drawn_equations_iff {a : RgbpArgs} {m m' : Memory}
    (h : a.picture.Drawn m m') : a.equations.Drawn m m' ↔ a.source.Fits m := by
  rw [Picture.Drawn, addr_equations]
  constructor
  · intro heq l hl i hi
    have hpixel : (⟨.b, l, i⟩ : Pixel Channel) ∈ Picture.pixels (o := a.source) := ⟨hl, hi⟩
    have hvalue : a.picture.value m ⟨.b, l, i⟩ = a.equations.value m ⟨.b, l, i⟩ :=
      (h.value _ hpixel).symm.trans (heq.value _ hpixel)
    rw [Picture.value, Picture.value] at hvalue
    exact blue_eq_iff.mp hvalue
  · intro hfits
    refine ⟨fun x hx => (h.value x hx).trans ?_, h.other⟩
    obtain ⟨i, l, k⟩ := x
    cases i with
    | r => exact red_eq
    | g => exact green_eq
    | b => exact blue_eq_iff.mpr (hfits l hx.1 k hx.2)

/-- `__uyvy_to_rgbp_image_bt601` computes the equations, unless a blue does not fit. -/
theorem uyvyToRgbpImageBt601_equations {a : RgbpArgs} (h : a.picture.Apart) (m : Memory) :
    ∃ m', Calls uyvyToRgbpImageBt601 (UyvyToRgbp.words a) m m' ∧
      (a.equations.Drawn m m' ↔ a.source.Fits m) := by
  refine ⟨_, uyvyToRgbpImageBt601_calls, a.drawn_equations_iff ?_⟩
  rw [RgbpArgs.walk_eq]
  exact h.drawn mem_channels

/-- An image of 32 pixels. -/
theorem uyvyToRgbpImageBt601_equations_small :
    ∃ a : RgbpArgs, a.picture.Apart ∧ ∀ m, ∃ m',
      Calls uyvyToRgbpImageBt601 (UyvyToRgbp.words a) m m' ∧
        (a.equations.Drawn m m' ↔ a.source.Fits m) := by
  let a : RgbpArgs :=
    { width := 16, height := 2, pSrc := 0x1000, srcStride := 32, pR := 0x2000, pG := 0x2020
      pB := 0x2040, dstStride := 16 }
  have hplaced : a.picture.Placed := ⟨by decide, by decide, by decide, by decide, by decide⟩
  exact ⟨a, hplaced.apart_of, fun m => uyvyToRgbpImageBt601_equations hplaced.apart_of m⟩

/-! ## Luma and back -/

namespace LumaToUyvy

/-- The UYVY data that is made, and the plane it is made of. -/
def made (a : LumaArgs) : Source := ⟨a.width, a.height, ⟨a.pYUV, a.dstStride⟩⟩

/-- Where the luma of a pixel is. -/
def lumaAddr (a : LumaArgs) (l x : Nat) : Word :=
  Raster.addr ⟨a.pY, a.srcStride⟩ l (l * drift a.width + x)

/-- The bytes of the UYVY data, by their line and their number in it. -/
def bytes (a : LumaArgs) : Set (Nat × Nat) :=
  {c | c.1 < (made a).lines ∧ c.2 < 32 * (made a).groups}

/-- Where a byte of the UYVY image is. -/
def byteAddr (a : LumaArgs) (c : Nat × Nat) : Word := (made a).addr c.1 c.2

/-- What the routine makes of the luma in `m`. -/
def value (a : LumaArgs) (m : Memory) (c : Nat × Nat) : Byte :=
  pairBytes (m (lumaAddr a c.1 (2 * (c.2 / 4)))) (m (lumaAddr a c.1 (2 * (c.2 / 4) + 1))) (c.2 % 4)

/-- The places of the luma. -/
def plane (a : LumaArgs) : Set Word :=
  {p | ∃ l < (made a).lines, ∃ x < 16 * (made a).groups, lumaAddr a l x = p}

/-- The UYVY data has places of its own, and none of them in the plane. -/
structure Apart (a : LumaArgs) : Prop where
  injOn : Set.InjOn (byteAddr a) (bytes a)
  plane : Disjoint (byteAddr a '' bytes a) (plane a)

variable {a : LumaArgs} {l j : Nat} {m : Memory}

/-- A group paints its bytes. -/
theorem paints_group (h : Apart a) (hl : l < (made a).lines) (hj : j < (made a).groups) :
    Paints m (plane a) (fun p b => ∀ c ∈ bytes a, byteAddr a c = p → b = value a m c)
      (∅ ∪ span ((made a).addr l (32 * j)) 32) ((walk a).group l j) := by
  have hbyte : ∀ k < 32, (l, 32 * j + k) ∈ bytes a := fun k hk => ⟨hl, by simp only; omega⟩
  have haddr : ∀ k, (made a).addr l (32 * j) + BitVec.ofNat 32 k = byteAddr a (l, 32 * j + k) :=
    fun k => by rw [Source.addr, Raster.addr_add, byteAddr, Source.addr, Nat.add_assoc]
  have hgroup : (walk a).group l j = fun m => write (id m) ((made a).addr l (32 * j))
      fun k : Fin 32 => value a m (l, 32 * j + k) := by
    funext m
    have hpair : ∀ k : Fin 32, 16 * j + 2 * (k.val / 4) = 2 * ((32 * j + k) / 4) := fun k => by omega
    have hmod : ∀ k : Fin 32, k.val % 4 = (32 * j + k) % 4 := fun k => by omega
    simp only [walk, place_plane, place_source, uyvyGroup, Raster.addr_add, value, lumaAddr, id,
      Nat.add_assoc, ← hpair, ← hmod]
    rfl
  rw [hgroup]
  refine Paints.nothing.write (by norm_num) ?_ fun m' hm' k c hc hcp => ?_
  · refine h.plane.mono_left fun p hp => ?_
    obtain ⟨k, hk, rfl⟩ := (mem_span_iff_exists (by norm_num)).mp hp
    exact ⟨_, hbyte k hk, (haddr k).symm⟩
  · rw [haddr] at hcp
    rw [h.injOn hc (hbyte k k.isLt) hcp]
    have hluma : ∀ x < 16 * (made a).groups, m' (lumaAddr a l x) = m (lumaAddr a l x) := fun x hx =>
      hm' ⟨l, hl, x, hx, rfl⟩
    simp only [value]
    rw [hluma _ (by omega), hluma _ (by omega)]

/-- The groups cover the bytes of the UYVY image. -/
theorem covered_bytes :
    covered (fun l => covered (fun j => ∅ ∪ span ((made a).addr l (32 * j)) 32) (made a).groups)
      (made a).lines = byteAddr a '' bytes a := by
  have haddr : ∀ l j k, (made a).addr l (32 * j) + BitVec.ofNat 32 k =
      byteAddr a (l, 32 * j + k) := fun l j k => by
    rw [Source.addr, Raster.addr_add, byteAddr, Source.addr, Nat.add_assoc]
  ext p
  constructor
  · rintro ⟨l, hl, j, hj, hp | hp⟩
    · exact absurd hp (Set.notMem_empty p)
    obtain ⟨k, hk, rfl⟩ := (mem_span_iff_exists (by norm_num)).mp hp
    exact ⟨_, ⟨hl, by simp only; omega⟩, (haddr l j k).symm⟩
  · rintro ⟨⟨l, k⟩, ⟨hl, hk⟩, rfl⟩
    simp only at hk
    refine ⟨l, hl, k / 32, by omega, Or.inr ?_⟩
    rw [mem_span_iff_exists (by norm_num)]
    refine ⟨k % 32, Nat.mod_lt _ (by norm_num), ?_⟩
    rw [haddr, Nat.div_add_mod]

/-- The width is a multiple of 16, and the plane and the UYVY data are not in each other. -/
theorem apart_of (hwidth : drift a.width = 0)
    (hmade : (made a).raster.Fits (made a).lines (32 * (made a).groups))
    (hplane : Raster.Fits ⟨a.pY, a.srcStride⟩ (made a).lines (16 * (made a).groups))
    (hbefore : Raster.Before ⟨a.pY, a.srcStride⟩ (made a).raster (made a).lines) : Apart a where
  injOn := by
    rintro ⟨l, k⟩ ⟨hl, hk⟩ ⟨l', k'⟩ ⟨hl', hk'⟩ heq
    have hdrift : drift (made a).width = 0 := hwidth
    simp only [byteAddr, Source.addr, hdrift, Nat.mul_zero, Nat.zero_add] at hl hk hl' hk' heq
    obtain ⟨rfl, rfl⟩ := hmade.addr_inj hl hk hl' hk' heq
    rfl
  plane := by
    rw [Set.disjoint_left]
    rintro _ ⟨⟨l, k⟩, ⟨hl, hk⟩, rfl⟩ ⟨l', hl', x, hx, heq⟩
    have hdrift : drift (made a).width = 0 := hwidth
    simp only [byteAddr, lumaAddr, Source.addr, hwidth, hdrift, Nat.mul_zero, Nat.zero_add] at hl hk heq
    exact hplane.addr_ne hmade hbefore hl' hx hl hk heq

end LumaToUyvy

/-- `__luma_to_uyvy_image` makes the UYVY data. -/
theorem lumaToUyvyImage_shows {a : LumaArgs} {m : Memory} (h : LumaToUyvy.Apart a) :
    ∃ m', Calls lumaToUyvyImage (LumaToUyvy.words a) m m' ∧
      Shows (LumaToUyvy.bytes a) (LumaToUyvy.byteAddr a) (LumaToUyvy.value a m) m m' := by
  refine ⟨_, lumaToUyvyImage_calls, Paints.shows (K := LumaToUyvy.plane a) ?_⟩
  rw [← LumaToUyvy.covered_bytes]
  exact Paints.loop fun l hl => Paints.loop fun j hj => LumaToUyvy.paints_group h hl hj

/-- The arguments that take the luma out again. -/
def LumaArgs.back (a : LumaArgs) (pY dstStride : Word) : LumaArgs :=
  { width := a.width, height := a.height, pYUV := a.pYUV, srcStride := a.dstStride, pY, dstStride }

/-- The luma that comes back is that of the even pixels. The odd pixels, whose luma the routine puts
where the chroma is, come back as zero. -/
theorem luma_there_and_back {a : LumaArgs} {pY dstStride : Word} (h : LumaToUyvy.Apart a)
    (hback : (a.back pY dstStride).picture.Apart) (m : Memory) :
    ∃ m₁ m₂, Calls lumaToUyvyImage (LumaToUyvy.words a) m m₁ ∧
      Calls uyvyLumaExtract (LumaExtract.words (a.back pY dstStride)) m₁ m₂ ∧
      ∀ x ∈ Picture.pixels (o := (a.back pY dstStride).source),
        m₂ ((a.back pY dstStride).picture.addr x) =
          if x.number % 2 = 0 then m (LumaToUyvy.lumaAddr a x.line x.number) else 0 := by
  obtain ⟨m₁, hcalls₁, hshows⟩ := lumaToUyvyImage_shows (m := m) h
  have hdrawn := hback.drawn (m := m₁) mem_unit
  rw [← LumaArgs.walk_eq] at hdrawn
  refine ⟨m₁, _, hcalls₁, uyvyLumaExtract_calls, ?_⟩
  rintro ⟨i, l, k⟩ ⟨hl, hk⟩
  have hbyte : (l, 2 * k + 1) ∈ LumaToUyvy.bytes a := by
    refine ⟨hl, ?_⟩
    simp only at hk ⊢
    change k < 16 * (LumaToUyvy.made a).groups at hk
    omega
  have hluma : (a.back pY dstStride).picture.value m₁ ⟨i, l, k⟩ =
      m₁ (LumaToUyvy.byteAddr a (l, 2 * k + 1)) := rfl
  rw [hdrawn.value _ ⟨hl, hk⟩, hluma, hshows.value _ hbyte, LumaToUyvy.value, pairBytes]
  simp only
  rcases Nat.mod_two_eq_zero_or_one k with heven | hodd
  · have hplace : (2 * k + 1) % 4 = 1 := by omega
    have hpair : 2 * ((2 * k + 1) / 4) = k := by omega
    rw [if_neg (by omega), if_pos hplace, if_pos heven, hpair]
  · rw [if_neg (by omega), if_neg (by omega), if_neg (by omega), if_neg (by omega)]

/-- An image of 32 pixels. -/
theorem luma_there_and_back_small :
    ∃ (a : LumaArgs) (pY dstStride : Word), LumaToUyvy.Apart a ∧
      (a.back pY dstStride).picture.Apart ∧ ∀ m, ∃ m₁ m₂,
      Calls lumaToUyvyImage (LumaToUyvy.words a) m m₁ ∧
      Calls uyvyLumaExtract (LumaExtract.words (a.back pY dstStride)) m₁ m₂ ∧
      ∀ x ∈ Picture.pixels (o := (a.back pY dstStride).source),
        m₂ ((a.back pY dstStride).picture.addr x) =
          if x.number % 2 = 0 then m (LumaToUyvy.lumaAddr a x.line x.number) else 0 := by
  let a : LumaArgs :=
    { width := 16, height := 2, pYUV := 0x2000, srcStride := 16, pY := 0x1000, dstStride := 32 }
  have hapart : LumaToUyvy.Apart a :=
    LumaToUyvy.apart_of (by decide) (by decide) (by decide) (by decide)
  have hplaced : (a.back 0x3000 16).picture.Placed :=
    ⟨by decide, by decide, by decide, fun _ _ hne => absurd rfl hne, by decide⟩
  exact ⟨a, 0x3000, 16, hapart, hplaced.apart_of, luma_there_and_back hapart hplaced.apart_of⟩

end DVP.Yuv
