import DVP.Sosal.Image.Basic
import Mathlib.Algebra.Order.Ring.Nat
import Mathlib.Tactic.IntervalCases
import Mathlib.Tactic.Linarith

/-!
# The bytes an image operation touches

Which of the operations of `source/sosal/image.c` stay inside the planes they address.
-/

namespace DVP.Sosal

open Transfer

variable {dst src : ImageT} {ts us : List (Transfer Place UInt8)} {n s x y k w h : Nat}

/-! ## Loops -/

theorem mem_steps (hs : 0 < s) : x ∈ steps n s ↔ x < n ∧ s ∣ x := by
  have hround : ∀ i, i < (n + s - 1) / s ↔ i * s < n := by
    intro i
    rw [Nat.lt_iff_add_one_le, Nat.le_div_iff_mul_le hs, Nat.succ_mul]
    omega
  simp only [steps, List.mem_map, List.mem_range, hround]
  constructor
  · rintro ⟨i, hi, rfl⟩
    exact ⟨hi, Nat.dvd_mul_left s i⟩
  · rintro ⟨hx, i, rfl⟩
    exact ⟨i, by rwa [Nat.mul_comm], Nat.mul_comm i s⟩

/-! ## Places inside -/

/-- A byte of an image has an index below the size of its plane. -/
def InPlane (dst src : ImageT) : Place → Prop
  | .byte .dst p i => i < (dst.plane p).numBytes
  | .byte .src p i => i < (src.plane p).numBytes
  | .u _ => True
  | .v _ => True

/-- The transfers read and write only bytes inside the planes. -/
structure StaysInside (dst src : ImageT) (ts : List (Transfer Place UInt8)) : Prop where
  reads_in : ∀ a ∈ reads ts, InPlane dst src a
  writes_in : ∀ a ∈ writes ts, InPlane dst src a

theorem staysInside_iff :
    StaysInside dst src ts ↔
      ∀ t ∈ ts, (∀ a ∈ t.sources, InPlane dst src a) ∧
        ∀ a ∈ t.targets.map Prod.fst, InPlane dst src a := by
  constructor
  · rintro ⟨hreads, hwrites⟩ t ht
    exact ⟨fun a ha => hreads a (mem_reads.mpr ⟨t, ht, ha⟩),
      fun a ha => hwrites a (List.mem_flatMap.mpr ⟨t, ht, ha⟩)⟩
  · intro h
    constructor
    · intro a ha
      obtain ⟨t, ht, ha⟩ := mem_reads.mp ha
      exact (h t ht).1 a ha
    · intro a ha
      obtain ⟨t, ht, ha⟩ := List.mem_flatMap.mp ha
      exact (h t ht).2 a ha

theorem staysInside_nil : StaysInside dst src [] :=
  staysInside_iff.mpr fun _ h => absurd h List.not_mem_nil

theorem staysInside_cons {t : Transfer Place UInt8} :
    StaysInside dst src (t :: ts) ↔
      ((∀ a ∈ t.sources, InPlane dst src a) ∧ ∀ a ∈ t.targets.map Prod.fst, InPlane dst src a) ∧
        StaysInside dst src ts := by
  rw [staysInside_iff, staysInside_iff, List.forall_mem_cons]

theorem staysInside_append :
    StaysInside dst src (ts ++ us) ↔ StaysInside dst src ts ∧ StaysInside dst src us := by
  rw [staysInside_iff, staysInside_iff, staysInside_iff, List.forall_mem_append]

theorem staysInside_flatMap {ι : Type} {is : List ι} {f : ι → List (Transfer Place UInt8)} :
    StaysInside dst src (is.flatMap f) ↔ ∀ i ∈ is, StaysInside dst src (f i) := by
  simp only [staysInside_iff, List.mem_flatMap]
  exact ⟨fun h i hi t ht => h t ⟨i, hi, ht⟩, fun h t ⟨i, hi, ht⟩ => h i hi t ht⟩

/-- The rounds of the loops. -/
theorem staysInside_forPixels {ystep xstep : Nat} (hy : 0 < ystep) (hx : 0 < xstep)
    {body : Nat → Nat → List (Transfer Place UInt8)} :
    StaysInside dst src (forPixels h ystep w xstep body) ↔
      ∀ y, y < h ∧ ystep ∣ y → ∀ x, x < w ∧ xstep ∣ x → StaysInside dst src (body x y) := by
  simp only [forPixels, staysInside_flatMap, mem_steps hy, mem_steps hx]

/-! ## Pixels inside -/

/-- A byte is inside when some rows of the plane that follow hold it. -/
theorem imagePixel_add_lt_rows {st t : Nat} (j : Nat) (hy : y / s + j ≤ h)
    (hx : t * (x / s) + k < j * (w * t)) :
    imagePixel (allocatePlane w h st s t) x y + k < (allocatePlane w h st s t).numBytes := by
  have hrows : (y / s + j) * (w * t) ≤ h * (w * t) := Nat.mul_le_mul_right _ hy
  rw [Nat.add_mul, Nat.mul_comm (y / s)] at hrows
  show w * t * (y / s) + t * (x / s) + k < h * (w * t)
  omega

/-- A byte is outside when the rows that follow do not hold it. -/
theorem not_imagePixel_add_lt_rows {st t : Nat} (j : Nat) (hy : h ≤ y / s + j)
    (hx : j * (w * t) ≤ t * (x / s) + k) :
    ¬imagePixel (allocatePlane w h st s t) x y + k < (allocatePlane w h st s t).numBytes := by
  have hrows : h * (w * t) ≤ (y / s + j) * (w * t) := Nat.mul_le_mul_right _ hy
  rw [Nat.add_mul, Nat.mul_comm (y / s)] at hrows
  show ¬w * t * (y / s) + t * (x / s) + k < h * (w * t)
  omega

theorem imagePixel_add_lt {st t : Nat} (hy : y / s < h) (hx : t * (x / s) + k < w * t) :
    imagePixel (allocatePlane w h st s t) x y + k < (allocatePlane w h st s t).numBytes :=
  imagePixel_add_lt_rows 1 hy (by rwa [Nat.one_mul])

theorem not_imagePixel_add_lt {st t : Nat} (hy : h ≤ y / s + 1) (hx : w * t ≤ t * (x / s) + k) :
    ¬imagePixel (allocatePlane w h st s t) x y + k < (allocatePlane w h st s t).numBytes :=
  not_imagePixel_add_lt_rows 1 hy (by rwa [Nat.one_mul])

/-- Loops over macro pixels of two columns stay inside exactly for even widths, if a macro pixel
that has both columns stays inside and the last column has none. -/
theorem staysInside_macro {body : Nat → Nat → List (Transfer Place UInt8)} (hw : 0 < w)
    (hh : 0 < h) (hbody : ∀ y < h, ∀ x, x + 2 ≤ w → StaysInside dst src (body x y))
    (hlast : ¬StaysInside dst src (body (w - 1) (h - 1))) :
    StaysInside dst src (forPixels h 1 w 2 body) ↔ 2 ∣ w := by
  rw [staysInside_forPixels Nat.one_pos Nat.two_pos]
  constructor
  · intro hall
    -- for an odd width there is a round at the last column
    by_contra hodd
    exact hlast (hall (h - 1) ⟨by omega, one_dvd _⟩ (w - 1) ⟨by omega, by omega⟩)
  · rintro heven y ⟨hy, -⟩ x ⟨hx, hxeven⟩
    exact hbody y hy x (by omega)

/-! ## Filling -/

theorem staysInside_fillPlane {img : ImageT} {bytes : List UInt8} {p : Nat}
    (hstep : 0 < (img.plane p).xstep) :
    StaysInside img img (fillPlane img bytes p) ↔
      ∀ y < (img.plane p).ydim, ∀ x, x < (img.plane p).xdim ∧ (img.plane p).xstep ∣ x →
        ∀ k < bytes.length, imagePixel (img.plane p) x y + k < (img.plane p).numBytes := by
  unfold fillPlane
  rw [staysInside_forPixels Nat.one_pos hstep]
  simp only [isUnit_one, IsUnit.dvd, and_true, staysInside_iff, List.mem_mapIdx]
  constructor
  · intro h y hy x hx k hk
    exact (h y hy x hx _ ⟨k, hk, rfl⟩).2 _ (List.mem_singleton_self _)
  · rintro h y hy x hx t ⟨k, hk, rfl⟩
    refine ⟨fun a ha => absurd ha List.not_mem_nil, fun a ha => ?_⟩
    rw [List.mem_singleton.mp ha]
    exact h y hy x hx k hk

/-- A plane is filled inside when its pixels are as long as what is stored. -/
theorem staysInside_fillPlane_of_length {img : ImageT} {s t : Nat} {bytes : List UInt8} {p : Nat}
    (hp : img.plane p = allocatePlane w h 1 s t) (hbytes : bytes.length = t) :
    StaysInside img img (fillPlane img bytes p) := by
  rw [staysInside_fillPlane (by rw [hp]; exact Nat.one_pos), hp]
  rintro y hy x ⟨hx, -⟩ k hk
  have hys : y / s ≤ y := Nat.div_le_self _ _
  have hxs : x / s ≤ x := Nat.div_le_self _ _
  apply imagePixel_add_lt
  · exact hys.trans_lt hy
  -- a scaled column is not above the column, and its bytes end where the next one starts
  · have hrow : (x / s + 1) * t ≤ w * t := Nat.mul_le_mul_right _ (hxs.trans_lt hx)
    rw [Nat.succ_mul, Nat.mul_comm (x / s)] at hrow
    omega

/-- A packed plane is filled inside exactly when its width is even. -/
theorem staysInside_fillPlane_packed {img : ImageT} {bytes : List UInt8} (hw : 0 < w) (hh : 0 < h)
    (hp : img.plane 0 = allocatePlane w h 2 1 2) (hbytes : bytes.length = 4) :
    StaysInside img img (fillPlane img bytes 0) ↔ 2 ∣ w := by
  rw [staysInside_fillPlane (by rw [hp]; exact Nat.two_pos), hp, hbytes]
  constructor
  · intro hall
    -- the last macro pixel of an odd width has one column, but four bytes
    by_contra hodd
    have hlast := hall (h - 1) (Nat.sub_lt hh Nat.one_pos) (w - 1)
      ⟨Nat.sub_lt hw Nat.one_pos, show 2 ∣ w - 1 by omega⟩ 3 (by decide)
    exact not_imagePixel_add_lt (by omega) (by omega) hlast
  · rintro heven y hy x ⟨hx, hxeven⟩ k hk
    have hx' : x < w := hx
    have hxeven' : 2 ∣ x := hxeven
    have hy' : y < h := hy
    exact imagePixel_add_lt (by omega) (by omega)

theorem staysInside_imageFill {color : Fourcc} {a b c : UInt8} (hw : 0 < w) (hh : 0 < h) :
    StaysInside (imageAllocate w h color) (imageAllocate w h color)
        (imageFill (imageAllocate w h color) a b c) ↔
      (color ∈ [.uyvy, .yuy2] → 2 ∣ w) := by
  -- the loop over the one plane of the packed and interleaved colours
  have hone : ∀ {img : ImageT} {bytes : List UInt8}, img.numPlanes = 1 →
      (List.range img.numPlanes).flatMap (fillPlane img bytes) = fillPlane img bytes 0 := by
    intro img bytes hplanes
    rw [hplanes, List.range_one, List.flatMap_singleton]
  cases color with
  | rgbp => exact iff_of_true staysInside_nil (by simp)
  | yu24 => exact iff_of_true staysInside_nil (by simp)
  | yv24 => exact iff_of_true staysInside_nil (by simp)
  | iyuv => exact iff_of_true staysInside_nil (by simp)
  | yv12 => exact iff_of_true staysInside_nil (by simp)
  | bgr =>
    refine iff_of_true ?_ (by simp)
    show StaysInside _ _ ((List.range _).flatMap _)
    rw [hone rfl]
    exact staysInside_fillPlane_of_length rfl rfl
  | rgb =>
    refine iff_of_true ?_ (by simp)
    show StaysInside _ _ ((List.range _).flatMap _)
    rw [hone rfl]
    exact staysInside_fillPlane_of_length rfl rfl
  | uyvy =>
    show StaysInside _ _ ((List.range _).flatMap _) ↔ _
    rw [hone rfl, staysInside_fillPlane_packed hw hh rfl rfl]
    simp
  | yuy2 =>
    show StaysInside _ _ ((List.range _).flatMap _) ↔ _
    rw [hone rfl, staysInside_fillPlane_packed hw hh rfl rfl]
    simp
  | y800 =>
    exact iff_of_true (staysInside_fillPlane_of_length rfl rfl) (by simp)
  | nv12 =>
    refine iff_of_true (staysInside_append.mpr ⟨?_, ?_⟩) (by simp)
    · exact staysInside_fillPlane_of_length rfl rfl
    · exact staysInside_fillPlane_of_length rfl rfl

/-! ## Copying -/

/-- The bytes of the rows that are copied, by their offset in both planes. -/
theorem staysInside_copyPlane_rows {p w' h' st s t : Nat}
    (hdst : dst.plane p = allocatePlane w h st s t)
    (hsrc : src.plane p = allocatePlane w' h' st s t) :
    StaysInside dst src (copyPlane dst src p) ↔
      ∀ y < h, ∀ k < t * w', y * (w' * t) + k < h' * (w' * t) ∧ y * (w' * t) + k < h * (w * t) := by
  unfold copyPlane
  rw [staysInside_flatMap, hdst, hsrc]
  simp only [List.mem_range, staysInside_iff, mem_copyRun]
  constructor
  · intro hall y hy k hk
    obtain ⟨hread, hwrite⟩ := hall y hy _ ⟨k, hk, rfl⟩
    have hsrcIn : y * (w' * t) + k < (src.plane p).numBytes :=
      hread _ (List.mem_singleton_self _)
    have hdstIn : y * (w' * t) + k < (dst.plane p).numBytes :=
      hwrite _ (List.mem_singleton_self _)
    rw [hsrc] at hsrcIn
    rw [hdst] at hdstIn
    exact ⟨hsrcIn, hdstIn⟩
  · rintro hall y hy _ ⟨k, hk, rfl⟩
    obtain ⟨hsrcIn, hdstIn⟩ := hall y hy k hk
    refine ⟨fun a ha => ?_, fun a ha => ?_⟩
    · rw [List.mem_singleton.mp ha]
      show _ < (src.plane p).numBytes
      rw [hsrc]
      exact hsrcIn
    · rw [List.mem_singleton.mp ha]
      show _ < (dst.plane p).numBytes
      rw [hdst]
      exact hdstIn

/-- The rows of a plane are copied inside when there are none, or the target has no more of them
than the source, and they are not longer than those of the target. -/
theorem staysInside_copyPlane {p w' h' st s t : Nat} (ht : 0 < t)
    (hdst : dst.plane p = allocatePlane w h st s t)
    (hsrc : src.plane p = allocatePlane w' h' st s t) :
    StaysInside dst src (copyPlane dst src p) ↔ h = 0 ∨ w' = 0 ∨ h ≤ h' ∧ w' ≤ w := by
  rw [staysInside_copyPlane_rows hdst hsrc]
  constructor
  · intro hall
    by_contra hnot
    rw [not_or, not_or] at hnot
    obtain ⟨hh, hw', hlarger⟩ := hnot
    have hrow : 0 < t * w' := Nat.mul_pos ht (Nat.pos_of_ne_zero hw')
    -- the last byte of the last row
    obtain ⟨hread, hwrite⟩ := hall (h - 1) (by omega) (t * w' - 1) (by omega)
    have hlast : (h - 1) * (w' * t) + (t * w' - 1) + 1 = h * (w' * t) := by
      obtain ⟨n, rfl⟩ := Nat.exists_eq_succ_of_ne_zero hh
      rw [Nat.succ_sub_one, Nat.succ_mul, Nat.mul_comm w' t]
      omega
    refine hlarger ⟨?_, ?_⟩
    · refine Nat.le_of_mul_le_mul_right (c := w' * t) ?_ (by rwa [Nat.mul_comm])
      omega
    · refine Nat.le_of_mul_le_mul_right (c := t) ?_ ht
      refine Nat.le_of_mul_le_mul_left (c := h) ?_ (Nat.pos_of_ne_zero hh)
      omega
  · rintro hfits y hy k hk
    obtain ⟨hhle, hwle⟩ : h ≤ h' ∧ w' ≤ w := by
      rcases hfits with hzero | hzero | hle
      · omega
      · rw [hzero] at hk
        omega
      · exact hle
    -- a byte of a row is before the end of the last one, in both planes
    have hrow : (y + 1) * (w' * t) ≤ h * (w' * t) := Nat.mul_le_mul_right _ hy
    have hread : h * (w' * t) ≤ h' * (w' * t) := Nat.mul_le_mul_right _ hhle
    have hwrite : h * (w' * t) ≤ h * (w * t) :=
      Nat.mul_le_mul_left _ (Nat.mul_le_mul_right _ hwle)
    rw [Nat.succ_mul] at hrow
    rw [Nat.mul_comm] at hk
    constructor <;> omega

/-- When the bytes of an image fit those of another one. -/
def copyFits (color : Fourcc) (w h w' h' : Nat) : Prop :=
  if color ∈ [.iyuv, .yv12] then w' = w else h ≤ h' ∧ w' ≤ w

theorem numPlanes_imageAllocate {color : Fourcc} :
    (imageAllocate w h color).numPlanes = (imageAllocate 0 0 color).numPlanes := by
  cases color <;> rfl

/-- The planes of most colours have the dimensions of the image. -/
theorem plane_imageAllocate {color : Fourcc} {p : Nat} (hcolor : color ∉ [.iyuv, .yv12])
    (hp : p < (imageAllocate 0 0 color).numPlanes) :
    ∃ st s t, 0 < t ∧ ∀ w h, (imageAllocate w h color).plane p = allocatePlane w h st s t := by
  -- no colour has more than three planes
  have hthree : (imageAllocate 0 0 color).numPlanes ≤ 3 := by cases color <;> decide
  have hsmall : p < 3 := hp.trans_le hthree
  interval_cases p <;> cases color <;>
    first
    | exact absurd hp (by decide)
    | exact absurd hcolor (by decide)
    | exact ⟨_, _, _, by decide, fun _ _ => rfl⟩

/-- The first plane of `IYUV` and `YV12` is a square. -/
theorem plane_zero_imageAllocate {color : Fourcc} (hcolor : color ∈ [.iyuv, .yv12]) :
    (imageAllocate w h color).plane 0 = allocatePlane w w 1 1 1 := by
  simp only [List.mem_cons, List.not_mem_nil, or_false] at hcolor
  rcases hcolor with rfl | rfl <;> rfl

/-- The others are squares of half its width. -/
theorem plane_chroma_imageAllocate {color : Fourcc} {p : Nat} (hcolor : color ∈ [.iyuv, .yv12])
    (hp : p = 1 ∨ p = 2) :
    (imageAllocate w h color).plane p = allocatePlane (w / 2) (w / 2) 1 2 1 := by
  simp only [List.mem_cons, List.not_mem_nil, or_false] at hcolor
  rcases hcolor with rfl | rfl <;> rcases hp with rfl | rfl <;> rfl

theorem staysInside_imageCopy {c c' : Fourcc} {w' h' : Nat} (hw : 0 < w) (hh : 0 < h)
    (hw' : 0 < w') :
    StaysInside (imageAllocate w h c) (imageAllocate w' h' c')
        (imageCopy (imageAllocate w h c) (imageAllocate w' h' c')).1 ↔
      (c = c' → copyFits c w h w' h') := by
  unfold imageCopy
  show StaysInside _ _ (if c = c' then _ else _ : List _ × Nat).1 ↔ _
  split_ifs with hc
  · subst hc
    rw [imp_iff_right rfl, staysInside_flatMap, copyFits]
    simp only [List.mem_range, numPlanes_imageAllocate, Nat.min_self]
    -- the planes of `IYUV` and `YV12` are squares, where the width alone decides
    split_ifs with hcolor
    · have hluma : StaysInside (imageAllocate w h c) (imageAllocate w' h' c)
          (copyPlane (imageAllocate w h c) (imageAllocate w' h' c) 0) ↔ w' = w := by
        rw [staysInside_copyPlane Nat.one_pos (plane_zero_imageAllocate hcolor)
          (plane_zero_imageAllocate hcolor)]
        omega
      have hthree : (imageAllocate 0 0 c).numPlanes = 3 := by
        simp only [List.mem_cons, List.not_mem_nil, or_false] at hcolor
        rcases hcolor with rfl | rfl <;> rfl
      rw [hthree]
      constructor
      · intro hall
        exact hluma.mp (hall 0 (by decide))
      · rintro hwidth p hp
        -- the planes of equal squares have the same sizes
        obtain rfl | hchroma : p = 0 ∨ p = 1 ∨ p = 2 := by omega
        · exact hluma.mpr hwidth
        · rw [staysInside_copyPlane Nat.one_pos (plane_chroma_imageAllocate hcolor hchroma)
            (plane_chroma_imageAllocate hcolor hchroma), hwidth]
          exact .inr (.inr ⟨le_rfl, le_rfl⟩)
    · constructor
      · intro hall
        have hpos : 0 < (imageAllocate 0 0 c).numPlanes := by cases c <;> decide
        obtain ⟨st, s, t, ht, hplane⟩ := plane_imageAllocate hcolor hpos
        have hzero := (staysInside_copyPlane ht (hplane w h) (hplane w' h')).mp (hall 0 hpos)
        omega
      · intro hfits p hp
        obtain ⟨st, s, t, ht, hplane⟩ := plane_imageAllocate hcolor hp
        exact (staysInside_copyPlane ht (hplane w h) (hplane w' h')).mpr (.inr (.inr hfits))
  · exact iff_of_true staysInside_nil fun h => absurd h hc

end DVP.Sosal
