import DVP.Sosal.Image.Bounds

/-!
# The bytes a conversion touches

The loops of `image_convert`, between images of the same width and height. For each of them, a lemma
says when its pixels, with their neighbours, are inside the planes. `imageCall_inside_iff` is about
all operations.
-/

namespace DVP.Sosal

open Transfer

variable {px : Pixels} {dst src : ImageT} {ts : List (Transfer Place UInt8)}
  {w h p st s t x y k : Nat}

/-! ## Statements -/

section Statements

variable {a b c d r : Place} {as : List Place}

/-- A call stays inside when its six places do. -/
theorem staysInside_call {f : UInt8 → UInt8 → UInt8 → UInt8 × UInt8 × UInt8} {e g : Place} :
    StaysInside dst src (call f a b c d e g :: ts) ↔
      (InPlane dst src a ∧ InPlane dst src b ∧ InPlane dst src c) ∧
        (InPlane dst src d ∧ InPlane dst src e ∧ InPlane dst src g) ∧ StaysInside dst src ts := by
  rw [staysInside_cons]
  simp [call, and_assoc]

/-- A copy stays inside when both places do. -/
theorem staysInside_copy :
    StaysInside dst src (copy d a :: ts) ↔
      InPlane dst src a ∧ InPlane dst src d ∧ StaysInside dst src ts := by
  rw [staysInside_cons]
  simp [copy, and_assoc]

/-- A constant stays inside when the place that it goes to does. -/
theorem staysInside_setPlace {value : UInt8} :
    StaysInside dst src (setPlace d value :: ts) ↔ InPlane dst src d ∧ StaysInside dst src ts := by
  rw [staysInside_cons]
  simp [setPlace]

/-- An average stays inside when all its places do. -/
theorem staysInside_average :
    StaysInside dst src (average as d :: ts) ↔
      (∀ a ∈ as, InPlane dst src a) ∧ InPlane dst src d ∧ StaysInside dst src ts := by
  rw [staysInside_cons]
  simp [average, and_assoc]

/-- So does a saturated average. -/
theorem staysInside_averageSaturated :
    StaysInside dst src (averageSaturated as d :: ts) ↔
      (∀ a ∈ as, InPlane dst src a) ∧ InPlane dst src d ∧ StaysInside dst src ts := by
  rw [staysInside_cons]
  simp [averageSaturated, and_assoc]

end Statements

/-! ## Pixels -/

/-- A byte of a pixel of the source is in its plane when its place is below the number of bytes. -/
theorem inPlane_srcPixel_iff (hsrc : src.plane p = allocatePlane w h st s t) :
    InPlane dst src (srcPixel src p x y k) ↔
      imagePixel (allocatePlane w h st s t) x y + k < (allocatePlane w h st s t).numBytes := by
  rw [← hsrc]
  rfl

/-- So is a byte of a pixel of the destination. -/
theorem inPlane_dstPixel_iff (hdst : dst.plane p = allocatePlane w h st s t) :
    InPlane dst src (dstPixel dst p x y k) ↔
      imagePixel (allocatePlane w h st s t) x y + k < (allocatePlane w h st s t).numBytes := by
  rw [← hdst]
  rfl

/-- A pixel of the image is inside of the plane of the source. -/
theorem inPlane_srcPixel (hsrc : src.plane p = allocatePlane w h st s t) (hy : y / s < h)
    (hx : t * (x / s) + k < w * t) : InPlane dst src (srcPixel src p x y k) :=
  (inPlane_srcPixel_iff hsrc).mpr (imagePixel_add_lt hy hx)

/-- A pixel of the image is inside of the plane of the destination. -/
theorem inPlane_dstPixel (hdst : dst.plane p = allocatePlane w h st s t) (hy : y / s < h)
    (hx : t * (x / s) + k < w * t) : InPlane dst src (dstPixel dst p x y k) :=
  (inPlane_dstPixel_iff hdst).mpr (imagePixel_add_lt hy hx)

/-- A byte past the end of the last line is outside of the plane of the source. -/
theorem not_inPlane_srcPixel (hsrc : src.plane p = allocatePlane w h st s t) (hy : h ≤ y / s + 1)
    (hx : w * t ≤ t * (x / s) + k) : ¬InPlane dst src (srcPixel src p x y k) :=
  mt (inPlane_srcPixel_iff hsrc).mp (not_imagePixel_add_lt hy hx)

/-- A byte past the end of the last line is outside of the plane of the destination. -/
theorem not_inPlane_dstPixel (hdst : dst.plane p = allocatePlane w h st s t) (hy : h ≤ y / s + 1)
    (hx : w * t ≤ t * (x / s) + k) : ¬InPlane dst src (dstPixel dst p x y k) :=
  mt (inPlane_dstPixel_iff hdst).mp (not_imagePixel_add_lt hy hx)

/-- Loops over single pixels. -/
theorem staysInside_pixels {body : Nat → Nat → List (Transfer Place UInt8)}
    (hbody : ∀ y < h, ∀ x < w, StaysInside dst src (body x y)) :
    StaysInside dst src (forPixels h 1 w 1 body) := by
  rw [staysInside_forPixels Nat.one_pos Nat.one_pos]
  rintro y ⟨hy, -⟩ x ⟨hx, -⟩
  exact hbody y hy x hx

/-! ## To `BGR` -/

section ToBgr

variable (hdst : dst.plane 0 = allocatePlane w h 1 1 3)

include hdst

/-- The conversions from packed lines read whole pairs of pixels, so that the width must be even. -/
theorem staysInside_bgrFromPacked {y0 y1 u v : Nat} (hw : 0 < w) (hh : 0 < h)
    (hsrc : src.plane 0 = allocatePlane w h 2 1 2) (hbytes : y0 < 4 ∧ y1 < 4 ∧ u < 4 ∧ v < 4) :
    StaysInside dst src (bgrFromPacked px dst src y0 y1 u v) ↔ 2 ∣ w := by
  unfold bgrFromPacked
  rw [hsrc]
  apply staysInside_macro hw hh
  · intro y hy x hx
    simp only [staysInside_call, staysInside_nil, and_true]
    refine ⟨⟨?_, ?_, ?_⟩, ⟨?_, ?_, ?_⟩, ⟨?_, ?_, ?_⟩, ?_, ?_, ?_⟩
    all_goals first
      | exact inPlane_srcPixel hsrc (by omega) (by omega)
      | exact inPlane_dstPixel hdst (by omega) (by omega)
  -- the second pixel of the last macro pixel is behind the target
  · simp only [staysInside_call, staysInside_nil, and_true]
    rintro ⟨-, -, -, hlast, -, -⟩
    exact not_inPlane_dstPixel hdst (by omega) (by omega) hlast

/-- From NV12 to BGR nothing leaves the planes. -/
theorem staysInside_bgrFromNv12 (hluma : src.plane 0 = allocatePlane w h 1 1 1)
    (huv : src.plane 1 = allocatePlane w h 1 2 2) :
    StaysInside dst src (bgrFromNv12 px dst src) := by
  unfold bgrFromNv12
  rw [hluma]
  apply staysInside_pixels (w := w) (h := h)
  intro y hy x hx
  simp only [staysInside_call, staysInside_nil, and_true]
  refine ⟨⟨?_, ?_, ?_⟩, ?_, ?_, ?_⟩
  · exact inPlane_srcPixel hluma (by omega) (by omega)
  · exact inPlane_srcPixel huv (by omega) (by omega)
  · exact inPlane_srcPixel huv (by omega) (by omega)
  all_goals exact inPlane_dstPixel hdst (by omega) (by omega)

/-- From three planes to BGR nothing leaves the planes. -/
theorem staysInside_bgrFromPlanar {p1 p2 : Nat}
    (hsrc : ∀ p ∈ [0, p1, p2], src.plane p = allocatePlane w h 1 1 1) :
    StaysInside dst src (bgrFromPlanar px dst src p1 p2) := by
  have hluma := hsrc 0 (by simp)
  unfold bgrFromPlanar
  rw [hluma]
  apply staysInside_pixels (w := w) (h := h)
  intro y hy x hx
  simp only [staysInside_call, staysInside_nil, and_true]
  refine ⟨⟨?_, ?_, ?_⟩, ?_, ?_, ?_⟩
  · exact inPlane_srcPixel hluma (by omega) (by omega)
  · exact inPlane_srcPixel (hsrc p1 (by simp)) (by omega) (by omega)
  · exact inPlane_srcPixel (hsrc p2 (by simp)) (by omega) (by omega)
  all_goals exact inPlane_dstPixel hdst (by omega) (by omega)

/-- From luma to BGR nothing leaves the planes. -/
theorem staysInside_bgrFromY800 (hsrc : src.plane 0 = allocatePlane w h 1 1 1) :
    StaysInside dst src (bgrFromY800 px dst src) := by
  unfold bgrFromY800
  rw [hsrc]
  apply staysInside_pixels (w := w) (h := h)
  intro y hy x hx
  simp only [staysInside_call, staysInside_nil, and_true, and_self]
  refine ⟨?_, ?_, ?_, ?_⟩
  · exact inPlane_srcPixel hsrc (by omega) (by omega)
  all_goals exact inPlane_dstPixel hdst (by omega) (by omega)

/-- From RGB to BGR nothing leaves the planes. -/
theorem staysInside_bgrFromRgb (hsrc : src.plane 0 = allocatePlane w h 1 1 3) :
    StaysInside dst src (bgrFromRgb dst src) := by
  unfold bgrFromRgb
  rw [hsrc]
  apply staysInside_pixels (w := w) (h := h)
  intro y hy x hx
  simp only [staysInside_copy, staysInside_nil, and_true]
  refine ⟨?_, ?_, ?_, ?_, ?_, ?_⟩
  all_goals first
    | exact inPlane_srcPixel hsrc (by omega) (by omega)
    | exact inPlane_dstPixel hdst (by omega) (by omega)

end ToBgr

/-! ## To `UYVY` -/

section ToUyvy

variable (hw : 0 < w) (hh : 0 < h) (hdst : dst.plane 0 = allocatePlane w h 2 1 2)

include hw hh hdst

/-- A line of UYVY data is written in pairs of pixels, so that from NV12 the width must be even. -/
theorem staysInside_uyvyFromNv12 (hluma : src.plane 0 = allocatePlane w h 1 1 1)
    (huv : src.plane 1 = allocatePlane w h 1 2 2) :
    StaysInside dst src (uyvyFromNv12 dst src) ↔ 2 ∣ w := by
  unfold uyvyFromNv12
  rw [hluma, hdst]
  apply staysInside_macro hw hh
  · intro y hy x hx
    simp only [staysInside_copy, staysInside_nil, and_true]
    refine ⟨?_, ?_, ?_, ?_, ?_, ?_, ?_, ?_⟩
    all_goals first
      | exact inPlane_srcPixel hluma (by omega) (by omega)
      | exact inPlane_srcPixel huv (by omega) (by omega)
      | exact inPlane_dstPixel hdst (by omega) (by omega)
  -- the second luma of the last macro pixel is behind the source
  · simp only [staysInside_copy, staysInside_nil, and_true]
    rintro ⟨-, -, -, -, -, -, hlast, -⟩
    exact not_inPlane_srcPixel hluma (by omega) (by omega) hlast

/-- From three planes to UYVY the width must be even. -/
theorem staysInside_uyvyFromPlanar {p1 p2 : Nat}
    (hsrc : ∀ p ∈ [0, p1, p2], src.plane p = allocatePlane w h 1 1 1) :
    StaysInside dst src (uyvyFromPlanar dst src p1 p2) ↔ 2 ∣ w := by
  have hluma := hsrc 0 (by simp)
  have hcb := hsrc p1 (by simp)
  have hcr := hsrc p2 (by simp)
  unfold uyvyFromPlanar
  rw [hluma, hdst]
  apply staysInside_macro hw hh
  · intro y hy x hx
    simp only [staysInside_copy, staysInside_average, staysInside_nil, List.forall_mem_cons,
      List.not_mem_nil, false_imp_iff, implies_true, and_true]
    refine ⟨⟨?_, ?_⟩, ?_, ?_, ?_, ⟨?_, ?_⟩, ?_, ?_, ?_⟩
    all_goals first
      | exact inPlane_srcPixel hluma (by omega) (by omega)
      | exact inPlane_srcPixel hcb (by omega) (by omega)
      | exact inPlane_srcPixel hcr (by omega) (by omega)
      | exact inPlane_dstPixel hdst (by omega) (by omega)
  · simp only [staysInside_copy, staysInside_average, staysInside_nil, and_true]
    rintro ⟨-, -, -, -, -, -, hlast, -⟩
    exact not_inPlane_srcPixel hluma (by omega) (by omega) hlast

/-- From RGB to UYVY the width must be even. -/
theorem staysInside_uyvyFromRgb {r g b : Nat} (hsrc : src.plane 0 = allocatePlane w h 1 1 3)
    (hbytes : r < 3 ∧ g < 3 ∧ b < 3) :
    StaysInside dst src (uyvyFromRgb px dst src r g b) ↔ 2 ∣ w := by
  unfold uyvyFromRgb
  rw [hsrc]
  apply staysInside_macro hw hh
  · intro y hy x hx
    simp only [staysInside_call, staysInside_averageSaturated, staysInside_nil,
      List.forall_mem_cons, List.not_mem_nil, false_imp_iff, implies_true, and_true]
    refine ⟨⟨?_, ?_, ?_⟩, ⟨?_, ?_, ?_⟩, ⟨?_, ?_, ?_⟩, ⟨?_, ?_, ?_⟩, ⟨?_, ?_⟩, ?_, ⟨?_, ?_⟩, ?_⟩
    all_goals first
      -- the local variables are in no plane
      | exact trivial
      | exact inPlane_srcPixel hsrc (by omega) (by omega)
      | exact inPlane_dstPixel hdst (by omega) (by omega)
  · simp only [staysInside_call, staysInside_averageSaturated, staysInside_nil, and_true]
    rintro ⟨-, -, -, ⟨hlast, -⟩, -⟩
    exact not_inPlane_dstPixel hdst (by omega) (by omega) hlast

/-- From luma to UYVY the width must be even. -/
theorem staysInside_uyvyFromY800 (hsrc : src.plane 0 = allocatePlane w h 1 1 1) :
    StaysInside dst src (uyvyFromY800 dst src) ↔ 2 ∣ w := by
  unfold uyvyFromY800
  rw [hdst]
  apply staysInside_macro hw hh
  · intro y hy x hx
    simp only [staysInside_copy, staysInside_setPlace, staysInside_nil, and_true]
    refine ⟨?_, ?_, ?_, ?_, ?_, ?_⟩
    all_goals first
      | exact inPlane_srcPixel hsrc (by omega) (by omega)
      | exact inPlane_dstPixel hdst (by omega) (by omega)
  · simp only [staysInside_copy, staysInside_setPlace, staysInside_nil, and_true]
    rintro ⟨-, -, -, -, hlast, -⟩
    exact not_inPlane_srcPixel hsrc (by omega) (by omega) hlast

end ToUyvy

/-! ## To planes -/

/-- From RGB to NV12 nothing leaves the planes. -/
theorem staysInside_nv12FromRgb (hsrc : src.plane 0 = allocatePlane w h 1 1 3)
    (hluma : dst.plane 0 = allocatePlane w h 1 1 1)
    (huv : dst.plane 1 = allocatePlane w h 1 2 2) :
    StaysInside dst src (nv12FromRgb px dst src) := by
  unfold nv12FromRgb
  rw [hsrc]
  apply staysInside_pixels (w := w) (h := h)
  intro y hy x hx
  simp only [staysInside_call, staysInside_nil, and_true]
  refine ⟨⟨?_, ?_, ?_⟩, ?_, ?_, ?_⟩
  all_goals first
    | exact inPlane_srcPixel hsrc (by omega) (by omega)
    | exact inPlane_dstPixel hluma (by omega) (by omega)
    | exact inPlane_dstPixel huv (by omega) (by omega)

/-- From three planes to three others nothing leaves the planes. -/
theorem staysInside_rgbpFromPlanar {p1 p2 : Nat}
    (hdst : ∀ p ∈ [0, 1, 2], dst.plane p = allocatePlane w h 1 1 1)
    (hsrc : ∀ p ∈ [0, p1, p2], src.plane p = allocatePlane w h 1 1 1) :
    StaysInside dst src (rgbpFromPlanar px dst src p1 p2) := by
  have hluma := hsrc 0 (by simp)
  unfold rgbpFromPlanar
  rw [hluma]
  apply staysInside_pixels (w := w) (h := h)
  intro y hy x hx
  simp only [staysInside_call, staysInside_nil, and_true]
  refine ⟨⟨?_, ?_, ?_⟩, ?_, ?_, ?_⟩
  · exact inPlane_srcPixel hluma (by omega) (by omega)
  · exact inPlane_srcPixel (hsrc p1 (by simp)) (by omega) (by omega)
  · exact inPlane_srcPixel (hsrc p2 (by simp)) (by omega) (by omega)
  · exact inPlane_dstPixel (hdst 0 (by simp)) (by omega) (by omega)
  · exact inPlane_dstPixel (hdst 1 (by simp)) (by omega) (by omega)
  · exact inPlane_dstPixel (hdst 2 (by simp)) (by omega) (by omega)

/-- From NV12 to three planes the code writes blocks of two by two pixels. -/
theorem staysInside_planarFromNv12 {pu pv : Nat} (hw : 0 < w) (hh : 0 < h)
    (hdst : ∀ p ∈ [0, pu, pv], dst.plane p = allocatePlane w h 1 1 1)
    (hluma : src.plane 0 = allocatePlane w h 1 1 1)
    (huv : src.plane 1 = allocatePlane w h 1 2 2) :
    StaysInside dst src (planarFromNv12 dst src pu pv) ↔ 2 ∣ w ∧ 2 ∣ h := by
  unfold planarFromNv12
  rw [hluma]
  refine (staysInside_forPixels (w := w) (h := h) Nat.two_pos Nat.two_pos).trans ?_
  simp only [staysInside_copy, staysInside_average, staysInside_nil, List.forall_mem_cons,
    List.not_mem_nil, false_imp_iff, implies_true, and_true]
  show (∀ y, _ → ∀ x, _ → (_ ∧ _ ∧ _ ∧ InPlane dst src (srcPixel src 0 x y (w * 1 + 1))) ∧ _) ↔ _
  constructor
  · intro hall
    -- the luma on the right of the last pixel and below
    obtain ⟨⟨-, -, -, hlast⟩, -⟩ :=
      hall (2 * ((h - 1) / 2)) (by omega) (2 * ((w - 1) / 2)) (by omega)
    by_contra hodd
    -- in an even height the row below is the last one, and its byte is behind its end
    by_cases hheven : 2 ∣ h
    · exact mt (inPlane_srcPixel_iff hluma).mp
        (not_imagePixel_add_lt_rows 2 (by omega) (by omega)) hlast
    · exact not_inPlane_srcPixel hluma (by omega) (by omega) hlast
  · rintro ⟨hweven, hheven⟩ y ⟨hy, hyeven⟩ x ⟨hx, hxeven⟩
    refine ⟨⟨?_, ?_, ?_, ?_⟩, ?_, ?_, ?_, ?_, ?_⟩
    · exact inPlane_srcPixel hluma (by omega) (by omega)
    · exact inPlane_srcPixel hluma (by omega) (by omega)
    -- the row below is reached by the stride of the row
    · show InPlane dst src (srcPixel src 0 x y (w * 1))
      exact (inPlane_srcPixel_iff hluma).mpr (imagePixel_add_lt_rows 2 (by omega) (by omega))
    · exact (inPlane_srcPixel_iff hluma).mpr (imagePixel_add_lt_rows 2 (by omega) (by omega))
    · exact inPlane_dstPixel (hdst 0 (by simp)) (by omega) (by omega)
    · exact inPlane_srcPixel huv (by omega) (by omega)
    · exact inPlane_dstPixel (hdst pu (by simp)) (by omega) (by omega)
    · exact inPlane_srcPixel huv (by omega) (by omega)
    · exact inPlane_dstPixel (hdst pv (by simp)) (by omega) (by omega)

/-! ## From `BGR` to planes of luma and chroma -/

/-- The pixels of the target are read as if they had three bytes. -/
theorem not_staysInside_nv12FromBgr (hw : 0 < w) (hh : 0 < h)
    (hsrc : src.plane 0 = allocatePlane w h 1 1 3)
    (hdst : dst.plane 0 = allocatePlane w h 1 1 1) :
    ¬StaysInside dst src (nv12FromBgr px dst src) := by
  unfold nv12FromBgr
  rw [hsrc]
  intro hinside
  have hlast := (staysInside_forPixels (w := w) (h := h) Nat.two_pos Nat.two_pos).mp hinside
    (2 * ((h - 1) / 2)) (by omega) (2 * ((w - 1) / 2)) (by omega)
  rw [nv12RoundFromBgr, staysInside_append] at hlast
  unfold lumaFromBgr at hlast
  simp only [staysInside_call, staysInside_nil, and_true] at hlast
  -- the third byte of the pixel on the right of the last one
  obtain ⟨⟨-, -, -, -, ⟨hlast, -⟩, -⟩, -⟩ := hlast
  exact not_inPlane_dstPixel hdst (by omega) (by omega) hlast

/-- A block of two by two pixels stays inside when its first pixel does in the source and all do in the
destination. -/
theorem staysInside_lumaFromBgr (hsrc : ∀ k < 3, InPlane dst src (srcPixel src 0 x y k))
    (hdst : ∀ i < 2, ∀ j < 2, ∀ k < 3, InPlane dst src (dstPixel dst 0 (x + i) (y + j) k)) :
    StaysInside dst src (lumaFromBgr px dst src x y) := by
  unfold lumaFromBgr
  simp only [staysInside_call, staysInside_nil, and_true]
  and_intros
  all_goals first
    | exact trivial
    | exact hsrc _ (by decide)
    | exact hdst 0 (by decide) 0 (by decide) _ (by decide)
    | exact hdst 1 (by decide) 0 (by decide) _ (by decide)
    | exact hdst 0 (by decide) 1 (by decide) _ (by decide)
    | exact hdst 1 (by decide) 1 (by decide) _ (by decide)

/-- The rounds go over the source, while the planes of the target are squares, which have rows to
spare for low images alone. -/
theorem staysInside_planarFromBgr {pu pv : Nat} (hw : 0 < w) (hh : 0 < h)
    (hsrc : src.plane 0 = allocatePlane w h 1 1 3)
    (hluma : dst.plane 0 = allocatePlane w w 1 1 1)
    (hchroma : ∀ p ∈ [pu, pv], dst.plane p = allocatePlane (w / 2) (w / 2) 1 2 1) :
    StaysInside dst src (planarFromBgr px dst src pu pv) ↔ (h + 1) / 2 < w / 2 := by
  unfold planarFromBgr
  rw [hsrc]
  refine (staysInside_forPixels (w := w) (h := h) Nat.two_pos Nat.two_pos).trans ?_
  simp only [staysInside_append, staysInside_average, staysInside_nil, List.forall_mem_cons,
    List.not_mem_nil, false_imp_iff, implies_true, and_true]
  constructor
  · intro hall
    -- the byte of `v` after that of the last pixel
    obtain ⟨-, -, -, -, hlast⟩ :=
      hall (2 * ((h - 1) / 2)) (by omega) (2 * ((w - 1) / 2)) (by omega)
    by_contra hlow
    exact not_inPlane_dstPixel (hchroma pv (by simp)) (by omega) (by omega) hlast
  · rintro hlow y ⟨hy, hyeven⟩ x ⟨hx, hxeven⟩
    -- what is not in the row of the pixel is in the next one
    have huv : ∀ p ∈ [pu, pv], ∀ k < 2, InPlane dst src (dstPixel dst p x y k) :=
      fun p hp k hk => (inPlane_dstPixel_iff (hchroma p hp)).mpr
        (imagePixel_add_lt_rows 2 (by omega) (by omega))
    refine ⟨staysInside_lumaFromBgr ?_ ?_, ⟨trivial, trivial, trivial, trivial⟩,
      huv pu (by simp) 0 (by decide), ⟨trivial, trivial, trivial, trivial⟩,
      huv pv (by simp) 1 (by decide)⟩
    · intro k hk
      exact inPlane_srcPixel hsrc (by omega) (by omega)
    · intro i hi j hj k hk
      exact (inPlane_dstPixel_iff hluma).mpr (imagePixel_add_lt_rows 2 (by omega) (by omega))

/-! ## All operations -/

/-- When `image_convert` stays inside the planes of two images of the same width and height. -/
def convertFits (dst src : Fourcc) (w h : Nat) : Prop :=
  match dst, src with
  | .bgr, .uyvy | .bgr, .yuy2 => 2 ∣ w
  | .uyvy, .nv12 | .uyvy, .yu24 | .uyvy, .yv24 | .uyvy, .rgb | .uyvy, .bgr | .uyvy, .y800 => 2 ∣ w
  | .yu24, .nv12 | .yv24, .nv12 => 2 ∣ w ∧ 2 ∣ h
  | .nv12, .bgr => False
  | .iyuv, .bgr | .yv12, .bgr => (h + 1) / 2 < w / 2
  | _, _ => True

/-- The planes of the planar colours have the dimensions of the image. -/
theorem plane_planar_imageAllocate {color : Fourcc} {ps : List Nat}
    (hcolor : color ∈ [.rgbp, .yu24, .yv24]) (hps : ∀ p ∈ ps, p < 3) :
    ∀ p ∈ ps, (imageAllocate w h color).plane p = allocatePlane w h 1 1 1 := by
  intro p hp
  have hthree : p < 3 := hps p hp
  simp only [List.mem_cons, List.not_mem_nil, or_false] at hcolor
  rcases hcolor with rfl | rfl | rfl <;> interval_cases p <;> rfl

/-- A conversion stays inside of the images exactly when the size suits the two colours. -/
theorem staysInside_imageConvert {c c' : Fourcc} (hw : 0 < w) (hh : 0 < h) :
    (∀ ts, imageConvert px (imageAllocate w h c) (imageAllocate w h c') = some ts →
      StaysInside (imageAllocate w h c) (imageAllocate w h c') ts) ↔ convertFits c c' w h := by
  have hsome : ∀ {us : List (Transfer Place UInt8)},
      (∀ ts, some us = some ts → StaysInside (imageAllocate w h c) (imageAllocate w h c') ts) ↔
        StaysInside (imageAllocate w h c) (imageAllocate w h c') us := by
    intro us
    simp only [Option.some.injEq, forall_eq']
  have hchroma : ∀ {color : Fourcc} {ps : List Nat}, color ∈ [.iyuv, .yv12] →
      (∀ p ∈ ps, p = 1 ∨ p = 2) →
        ∀ p ∈ ps, (imageAllocate w h color).plane p = allocatePlane (w / 2) (w / 2) 1 2 1 :=
    fun hcolor hps p hp => plane_chroma_imageAllocate hcolor (hps p hp)
  unfold imageConvert
  simp only [show ∀ c, (imageAllocate w h c).color = c from fun _ => rfl]
  split_ifs with hc
  · subst hc
    refine iff_of_true (hsome.mpr ((staysInside_imageCopy hw hh hw).mpr fun _ => ?_)) ?_
    · unfold copyFits
      split_ifs
      · rfl
      · exact ⟨le_rfl, le_rfl⟩
    · cases c <;> exact trivial
  -- one case for each pair that is converted
  · split
    · exact hsome.trans (staysInside_bgrFromPacked rfl hw hh rfl (by decide))
    · exact hsome.trans (staysInside_bgrFromPacked rfl hw hh rfl (by decide))
    · exact iff_of_true (hsome.mpr (staysInside_bgrFromNv12 rfl rfl rfl)) trivial
    · exact hsome.trans (staysInside_uyvyFromNv12 hw hh rfl rfl rfl)
    · exact iff_of_true (hsome.mpr (staysInside_bgrFromPlanar rfl
        (plane_planar_imageAllocate (by decide) (by decide)))) trivial
    · exact iff_of_true (hsome.mpr (staysInside_bgrFromPlanar rfl
        (plane_planar_imageAllocate (by decide) (by decide)))) trivial
    · exact hsome.trans (staysInside_uyvyFromPlanar hw hh rfl
        (plane_planar_imageAllocate (by decide) (by decide)))
    · exact hsome.trans (staysInside_uyvyFromPlanar hw hh rfl
        (plane_planar_imageAllocate (by decide) (by decide)))
    · exact iff_of_true (hsome.mpr (staysInside_bgrFromY800 rfl rfl)) trivial
    · exact iff_of_true (hsome.mpr (staysInside_bgrFromRgb rfl rfl)) trivial
    · exact hsome.trans (staysInside_uyvyFromRgb hw hh rfl rfl (by decide))
    · exact iff_of_true (hsome.mpr (staysInside_nv12FromRgb rfl rfl rfl)) trivial
    · exact hsome.trans (staysInside_uyvyFromRgb hw hh rfl rfl (by decide))
    · exact iff_of_false (mt hsome.mp (not_staysInside_nv12FromBgr hw hh rfl rfl)) not_false
    · exact hsome.trans
        (staysInside_planarFromBgr hw hh rfl rfl (hchroma (by decide) (by decide)))
    · exact hsome.trans
        (staysInside_planarFromBgr hw hh rfl rfl (hchroma (by decide) (by decide)))
    · exact hsome.trans (staysInside_planarFromNv12 hw hh
        (plane_planar_imageAllocate (by decide) (by decide)) rfl rfl)
    · exact hsome.trans (staysInside_planarFromNv12 hw hh
        (plane_planar_imageAllocate (by decide) (by decide)) rfl rfl)
    · exact iff_of_true (hsome.mpr (staysInside_rgbpFromPlanar
        (plane_planar_imageAllocate (by decide) (by decide))
        (plane_planar_imageAllocate (by decide) (by decide)))) trivial
    · exact iff_of_true (hsome.mpr (staysInside_rgbpFromPlanar
        (plane_planar_imageAllocate (by decide) (by decide))
        (plane_planar_imageAllocate (by decide) (by decide)))) trivial
    · exact hsome.trans (staysInside_uyvyFromY800 hw hh rfl rfl)
    -- what is not converted moves no byte
    · refine iff_of_true (fun ts hts => nomatch hts) ?_
      unfold convertFits
      split <;> trivial

/-- A call of an operation on images that `image_allocate` and `image_back` made. -/
inductive ImageCall where
  | fill (w h : Nat) (color : Fourcc) (a b c : UInt8)
  | copy (w h : Nat) (color : Fourcc) (w' h' : Nat) (color' : Fourcc)
  | convert (w h : Nat) (color color' : Fourcc)
  deriving DecidableEq, Repr

/-- Every width and height is at least 1. -/
def ImageCall.Sized : ImageCall → Prop
  | .fill w h .. => 0 < w ∧ 0 < h
  | .copy w h _ w' h' _ => (0 < w ∧ 0 < h) ∧ 0 < w' ∧ 0 < h'
  | .convert w h .. => 0 < w ∧ 0 < h

/-- The call reads and writes only bytes with an index below the size of their plane. -/
def ImageCall.Inside (px : Pixels) : ImageCall → Prop
  | .fill w h color a b c =>
    let img := imageAllocate w h color
    StaysInside img img (imageFill img a b c)
  | .copy w h color w' h' color' =>
    let dst := imageAllocate w h color
    let src := imageAllocate w' h' color'
    StaysInside dst src (imageCopy dst src).1
  | .convert w h color color' =>
    let dst := imageAllocate w h color
    let src := imageAllocate w h color'
    ∀ ts, imageConvert px dst src = some ts → StaysInside dst src ts

/-- The condition on the sizes under which the call stays inside. -/
def ImageCall.Fits : ImageCall → Prop
  | .fill w _ color .. => color ∈ [.uyvy, .yuy2] → 2 ∣ w
  | .copy w h color w' h' color' => color = color' → copyFits color w h w' h'
  | .convert w h color color' => convertFits color color' w h

theorem imageCall_inside_iff (px : Pixels) (call : ImageCall) (hsized : call.Sized) :
    call.Inside px ↔ call.Fits := by
  cases call with
  | fill w h color a b c => exact staysInside_imageFill hsized.1 hsized.2
  | copy w h color w' h' color' =>
    exact staysInside_imageCopy hsized.1.1 hsized.1.2 hsized.2.1
  | convert w h color color' => exact staysInside_imageConvert hsized.1 hsized.2

/-- `YV12` from `BGR` stays inside for an image of six by three pixels. -/
theorem imageCall_inside_iff_yv12 :
    ImageCall.Inside .exact (.convert 6 3 .yv12 .bgr) :=
  (imageCall_inside_iff _ (.convert 6 3 .yv12 .bgr) ⟨by decide, by decide⟩).mpr
    (show (3 + 1) / 2 < 6 / 2 by decide)

/-- `NV12` from `BGR` does not stay inside for an image of two by two pixels. -/
theorem imageCall_outside :
    ¬∀ (px : Pixels) (call : ImageCall), call.Sized → call.Inside px := by
  intro hinside
  have hconvert := hinside .exact (.convert 2 2 .nv12 .bgr) ⟨by decide, by decide⟩ _ rfl
  exact not_staysInside_nv12FromBgr (w := 2) (h := 2) (by decide) (by decide) rfl rfl hconvert

end DVP.Sosal
