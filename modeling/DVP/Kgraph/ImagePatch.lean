import DVP.Kgraph.ImageLayout

/-!
# The patch of an image

What `DVP_Image_SetPatch` stores, and which addresses `DVP_Image_PatchAddressing` computes from it.

* `dvpImageSetPatch_exact_iff`: the call never answers `DVP_TRUE`, so it is exact only where it is
  to answer `DVP_FALSE` and stores nothing.
* `dvpImagePatchAddressing_translates_iff`: the address of a pixel of the patch is the address of
  the pixel of the buffer exactly when no coordinate of the patch crosses a sample of the plane
  that the start of the patch lies in, and the offsets do not wrap.
-/

namespace DVP.Kgraph

open Sosal

variable {a : Arch} {image : DvpImageT} {xStart yStart width height : BitVec 32} {p : Nat}

/-- The image with a patch: what the loop of `DVP_Image_SetPatch` stores. -/
def DvpImageT.withPatch (a : Arch) (image : DvpImageT) (xStart yStart width height : BitVec 32) :
    DvpImageT :=
  { image with
    pData := fun p =>
      if p < image.planes.toNat then dvpImageAddressing a image xStart yStart p else image.pData p
    xStart := xStart
    yStart := yStart
    width := width
    height := height }

/-- The test that `DVP_Image_SetPatch` makes, in 32 bits. -/
def DvpImageT.Stores (image : DvpImageT) (xStart yStart width height : BitVec 32) : Prop :=
  xStart + width < image.bufWidth ∧ yStart + height < image.bufHeight

instance : Decidable (image.Stores xStart yStart width height) :=
  inferInstanceAs (Decidable (_ ∧ _))

/-- The rectangle lies in the buffer of the image. -/
def DvpImageT.Inside (image : DvpImageT) (xStart yStart width height : BitVec 32) : Prop :=
  xStart.toNat + width.toNat ≤ image.bufWidth.toNat ∧
    yStart.toNat + height.toNat ≤ image.bufHeight.toNat

/-- The image after `n` rounds of the loop, of which there is one at least. -/
def DvpImageT.withPatchOf (a : Arch) (image : DvpImageT) (xStart yStart width height : BitVec 32)
    (n : Nat) : DvpImageT :=
  { image with
    pData := fun p =>
      if p < n then dvpImageAddressing a image xStart yStart p else image.pData p
    xStart := xStart
    yStart := yStart
    width := width
    height := height }

theorem setPatch_loop (n : Nat) :
    (List.range (n + 1)).foldl (fun image p =>
      { image with
        pData := Function.update image.pData p (dvpImageAddressing a image xStart yStart p)
        xStart := xStart
        yStart := yStart
        width := width
        height := height }) image =
      image.withPatchOf a xStart yStart width height (n + 1) := by
  -- a round adds the pointer of its plane, which does not depend on what the rounds before stored
  have hround : ∀ (pData : Nat → Nat) (n : Nat), (∀ p, pData p =
      if p < n then dvpImageAddressing a image xStart yStart p else image.pData p) → ∀ p,
      Function.update pData n (dvpImageAddressing a image xStart yStart n) p =
        if p < n + 1 then dvpImageAddressing a image xStart yStart p else image.pData p := by
    intro pData n hpData p
    by_cases hp : p = n
    · rw [hp, Function.update_self, if_pos (Nat.lt_succ_self n)]
    · rw [Function.update_of_ne hp, hpData]
      have hlt : p < n + 1 ↔ p < n := by omega
      simp only [hlt]
  induction n with
  | zero =>
    rw [Nat.zero_add, List.range_one, List.foldl_cons, List.foldl_nil]
    unfold DvpImageT.withPatchOf
    congr 1
    funext p
    exact hround image.pData 0 (fun p => (if_neg (Nat.not_lt_zero p)).symm) p
  | succ n ih =>
    rw [List.range_succ, List.foldl_append, ih, List.foldl_cons, List.foldl_nil]
    unfold DvpImageT.withPatchOf
    congr 1
    funext p
    exact hround _ (n + 1) (fun _ => rfl) p

/-- `DVP_Image_SetPatch` always answers `DVP_FALSE`, also when it stores the patch. -/
theorem dvpImageSetPatch_eq :
    dvpImageSetPatch a image xStart yStart width height =
      (false, if image.Stores xStart yStart width height ∧ image.planes.toNat ≠ 0 then
        image.withPatch a xStart yStart width height else image) := by
  unfold dvpImageSetPatch
  by_cases hstores : image.Stores xStart yStart width height
  · rw [if_pos (show _ ∧ _ from hstores)]
    dsimp only
    congr 1
    match hplanes : image.planes.toNat with
    | 0 =>
      rw [if_neg fun h => h.2 rfl]
      rfl
    | n + 1 =>
      rw [if_pos ⟨hstores, Nat.succ_ne_zero n⟩, setPatch_loop]
      unfold DvpImageT.withPatchOf DvpImageT.withPatch
      rw [hplanes]
  · rw [if_neg (show ¬(_ ∧ _) from hstores), if_neg fun h => hstores h.1]

/-! ## The answer -/

/-- The call answers `DVP_TRUE` and sets the patch exactly when it lies in the buffer, and an image
for which it answers `DVP_FALSE` is unchanged. -/
structure SetPatchExact (a : Arch) (image : DvpImageT) (xStart yStart width height : BitVec 32) :
    Prop where
  sets : (dvpImageSetPatch a image xStart yStart width height).1 = true ∧
      (dvpImageSetPatch a image xStart yStart width height).2 =
        image.withPatch a xStart yStart width height ↔
    image.Inside xStart yStart width height
  keeps : (dvpImageSetPatch a image xStart yStart width height).1 = false →
    (dvpImageSetPatch a image xStart yStart width height).2 = image

/-- The image has this patch already. -/
structure DvpImageT.HasPatch (a : Arch) (image : DvpImageT)
    (xStart yStart width height : BitVec 32) : Prop where
  xStart_eq : image.xStart = xStart
  yStart_eq : image.yStart = yStart
  width_eq : image.width = width
  height_eq : image.height = height
  pData_eq : ∀ p < image.planes.toNat, image.pData p = dvpImageAddressing a image xStart yStart p

theorem withPatch_eq_iff :
    image.withPatch a xStart yStart width height = image ↔
      image.HasPatch a xStart yStart width height := by
  constructor
  · intro h
    refine ⟨?_, ?_, ?_, ?_, fun p hp => ?_⟩
    · rw [← h]
      rfl
    · rw [← h]
      rfl
    · rw [← h]
      rfl
    · rw [← h]
      rfl
    -- a plane below `planes` has the pointer that the rounds store
    · have hp' := congrFun (congrArg DvpImageT.pData h) p
      rw [← hp']
      exact if_pos hp
  · rintro ⟨rfl, rfl, rfl, rfl, hpData⟩
    unfold DvpImageT.withPatch
    have hsame : (fun p => if p < image.planes.toNat then
        dvpImageAddressing a image image.xStart image.yStart p else image.pData p) =
          image.pData := by
      funext p
      split_ifs with hp
      · exact (hpData p hp).symm
      · rfl
    rw [hsame]

/-- `DVP_Image_SetPatch` is exact exactly for the rectangles that do not lie in the buffer and that
it does not store, because its test fails, there are no planes, or the image has the patch
already. -/
theorem dvpImageSetPatch_exact_iff (a : Arch) (image : DvpImageT)
    (xStart yStart width height : BitVec 32) :
    SetPatchExact a image xStart yStart width height ↔
      ¬image.Inside xStart yStart width height ∧
        (¬image.Stores xStart yStart width height ∨ image.planes.toNat = 0 ∨
          image.HasPatch a xStart yStart width height) := by
  -- the answer is a constant, so only what the call stores is left to compare
  have hfalse : (dvpImageSetPatch a image xStart yStart width height).1 = false := by
    rw [dvpImageSetPatch_eq]
  -- a stored patch leaves the image unchanged only when the image has it already
  have hkept : (dvpImageSetPatch a image xStart yStart width height).2 = image ↔
      ¬image.Stores xStart yStart width height ∨ image.planes.toNat = 0 ∨
        image.HasPatch a xStart yStart width height := by
    rw [dvpImageSetPatch_eq, ← withPatch_eq_iff]
    dsimp only
    split_ifs with h
    · constructor
      · exact fun heq => .inr (.inr heq)
      · rintro (hnot | hnone | heq)
        · exact absurd h.1 hnot
        · exact absurd hnone h.2
        · exact heq
    · refine iff_of_true rfl ?_
      by_cases hstores : image.Stores xStart yStart width height
      · exact .inr (.inl (by_contra fun hne => h ⟨hstores, hne⟩))
      · exact .inl hstores
  constructor
  · rintro ⟨hsets, hkeeps⟩
    refine ⟨fun hinside => ?_, hkept.mp (hkeeps hfalse)⟩
    have htrue := (hsets.mpr hinside).1
    rw [hfalse] at htrue
    exact absurd htrue (by decide)
  · rintro ⟨hout, hkeeps⟩
    refine ⟨iff_of_false (fun h => ?_) hout, fun _ => hkept.mpr hkeeps⟩
    rw [hfalse] at h
    exact absurd h.1 (by decide)

/-- A patch inside the buffer is stored and answered with `DVP_FALSE`; one of the size of the buffer
is not stored; and one whose end wraps is. -/
theorem dvpImageSetPatch_answers_false :
    (dvpImageSetPatch .arch32 (dvpImageInit 8 8 fourccY800) 2 2 4 4).1 = false ∧
      (dvpImageSetPatch .arch32 (dvpImageInit 8 8 fourccY800) 2 2 4 4).2.width = 4 ∧
      (dvpImageSetPatch .arch32 (dvpImageInit 8 8 fourccY800) 0 0 8 8).2.width = 8 ∧
      (dvpImageSetPatch .arch32 (dvpImageInit 8 8 fourccY800) 0xFFFFFFFF 0 2 4).2.width = 2 ∧
      ¬SetPatchExact .arch32 (dvpImageInit 8 8 fourccY800) 2 2 4 4 := by
  refine ⟨by decide, by decide, by decide, by decide, ?_⟩
  rintro ⟨hsets, -⟩
  have htrue := (hsets.mpr ⟨by decide, by decide⟩).1
  exact absurd htrue (by decide)

/-! ## The addresses of a patch -/

/-- The formula of `DVP_Image_Offset` and `DVP_Image_PatchOffset`. -/
def DvpImage.pixelOffset (image : DvpImage) (x y : BitVec 32) (p : Nat) : BitVec 32 :=
  y / dvpImageHeightDiv image p * dvpImageLineRange image p +
    x / dvpImageWidthDiv image p * (image.xStride * dvpImageWidthStep image p)

/-- Every pixel of the stored patch has the address of its pixel of the buffer. -/
def PatchTranslates (a : Arch) (image : DvpImageT) (xStart yStart width height : BitVec 32) :
    Prop :=
  let image' := (dvpImageSetPatch a image xStart yStart width height).2
  ∀ p < image.planes.toNat, ∀ x < width, ∀ y < height,
    dvpImagePatchAddressing a image' x y p =
      dvpImageAddressing a image' (xStart + x) (yStart + y) p

/-- In one direction, a patch that starts at `start` keeps to the samples of `div` pixels: it starts
with a sample, lies in one, or a sample takes no bytes. -/
def KeepsSamples (start len div bytes : BitVec 32) : Prop :=
  start.toNat % div.toNat = 0 ∨ start.toNat % div.toNat + len.toNat ≤ div.toNat ∨ bytes = 0

/-- The patch keeps to the samples of a plane in both directions and, where a pointer is wider than
an offset, the offsets of its start and in it add up without a wrap. -/
structure PlaneKeeps (a : Arch) (image : DvpImage) (xStart yStart width height : BitVec 32)
    (p : Nat) : Prop where
  columns : KeepsSamples xStart width (dvpImageWidthDiv image p)
    (image.xStride * dvpImageWidthStep image p)
  lines : KeepsSamples yStart height (dvpImageHeightDiv image p) (dvpImageLineRange image p)
  offsets : a = .arch64 → ∀ x < width, ∀ y < height,
    (image.pixelOffset xStart yStart p).toNat + (image.pixelOffset x y p).toNat < 2 ^ 32

section Translation

variable {shape : DvpImage} {x y start n d : BitVec 32}

/-- Pixels that a translation brings to the next sample. -/
def carry (start n d bytes : BitVec 32) : BitVec 32 :=
  if d.toNat ≤ start.toNat % d.toNat + n.toNat % d.toNat then bytes else 0

/-- A division of a sum is the sum of the divisions, with a carry. -/
theorem add_udiv_mul (hd : 0 < d.toNat) (hsum : start.toNat + n.toNat < 2 ^ 32)
    (bytes : BitVec 32) :
    (start + n) / d * bytes = start / d * bytes + n / d * bytes + carry start n d bytes := by
  have hdiv : (start + n) / d = start / d + n / d + carry start n d 1 := by
    apply BitVec.eq_of_toNat_eq
    -- the remainders add up to less than two samples, so at most one is carried
    have hcarry : (carry start n d 1).toNat =
        if d.toNat ≤ start.toNat % d.toNat + n.toNat % d.toNat then 1 else 0 := by
      unfold carry
      split_ifs <;> rfl
    have hadd := Nat.add_div (a := start.toNat) (b := n.toNat) hd
    rw [← hcarry] at hadd
    have hle := Nat.div_le_self (start.toNat + n.toNat) d.toNat
    rw [BitVec.toNat_udiv, BitVec.toNat_add, Nat.mod_eq_of_lt hsum, BitVec.toNat_add,
      BitVec.toNat_add, BitVec.toNat_udiv, BitVec.toNat_udiv, Nat.mod_add_mod, ← hadd,
      Nat.mod_eq_of_lt (by omega)]
  have hbytes : carry start n d 1 * bytes = carry start n d bytes := by
    unfold carry
    split_ifs
    · exact BitVec.one_mul _
    · exact BitVec.zero_mul
  rw [hdiv, BitVec.add_mul, BitVec.add_mul, hbytes]

/-- The first pixel carries nothing. -/
theorem carry_zero (hd : 0 < d.toNat) (bytes : BitVec 32) : carry start 0 d bytes = 0 := by
  have hlt := Nat.mod_lt start.toNat hd
  unfold carry
  rw [if_neg]
  show ¬d.toNat ≤ start.toNat % d.toNat + 0 % d.toNat
  rw [Nat.zero_mod]
  omega

/-- No pixel of a patch carries exactly when the patch keeps to the samples. -/
theorem forall_carry_eq_zero_iff {len bytes : BitVec 32} (hd : 0 < d.toNat) :
    (∀ n < len, carry start n d bytes = 0) ↔ KeepsSamples start len d bytes := by
  have hcarry : ∀ n : BitVec 32, carry start n d bytes = 0 ↔
      start.toNat % d.toNat + n.toNat % d.toNat < d.toNat ∨ bytes = 0 := by
    intro n
    unfold carry
    split_ifs with hle
    · exact (or_iff_right (Nat.not_lt.mpr hle)).symm
    · exact iff_of_true rfl (.inl (Nat.not_le.mp hle))
  -- every number below `len` is a column, since `len` is one
  have hnat : (∀ n < len, start.toNat % d.toNat + n.toNat % d.toNat < d.toNat) ↔
      ∀ n < len.toNat, start.toNat % d.toNat + n % d.toNat < d.toNat := by
    constructor
    · intro h n hn
      have hlen := len.isLt
      have hofNat : (BitVec.ofNat 32 n).toNat = n := by
        rw [BitVec.toNat_ofNat, Nat.mod_eq_of_lt (by omega)]
      have hthis := h (BitVec.ofNat 32 n) (by rw [BitVec.lt_def, hofNat]; exact hn)
      rwa [hofNat] at hthis
    · exact fun h n hn => h n.toNat (BitVec.lt_def.mp hn)
  by_cases hbytes : bytes = 0
  · exact iff_of_true (fun n _ => (hcarry n).mpr (.inr hbytes)) (.inr (.inr hbytes))
  · simp only [hcarry, hbytes, or_false]
    rw [hnat, forall_mod_add_mod_lt_iff hd]
    unfold KeepsSamples
    simp only [hbytes, or_false]

/-- The offset of a pixel of the patch from the start of the buffer. -/
theorem pixelOffset_add (hx : xStart.toNat + x.toNat < 2 ^ 32)
    (hy : yStart.toNat + y.toNat < 2 ^ 32) :
    shape.pixelOffset (xStart + x) (yStart + y) p =
      shape.pixelOffset xStart yStart p + shape.pixelOffset x y p +
        (carry yStart y (dvpImageHeightDiv shape p) (dvpImageLineRange shape p) +
          carry xStart x (dvpImageWidthDiv shape p)
            (shape.xStride * dvpImageWidthStep shape p)) := by
  unfold DvpImage.pixelOffset
  rw [add_udiv_mul DvpImage.heightDiv_pos hy, add_udiv_mul DvpImage.widthDiv_pos hx]
  ac_rfl

/-- Two ways to an address are the same when the offsets are, and those of the longer way do not
wrap where a pointer is wider. -/
theorem add_add_eq_iff {u v t : BitVec 32} (base : Nat) :
    a.add (a.add base u.toNat) v.toNat = a.add base t.toNat ↔
      u + v = t ∧ (a = .arch64 → u.toNat + v.toNat < 2 ^ 32) := by
  have hu := u.isLt
  have hv := v.isLt
  have ht := t.isLt
  rw [← BitVec.toNat_inj, BitVec.toNat_add]
  cases a with
  -- offsets and pointers wrap at the same width, so the base cancels
  | arch32 =>
    rw [and_iff_left fun h => by cases h]
    show ((base + u.toNat) % 2 ^ 32 + v.toNat) % 2 ^ 32 = (base + t.toNat) % 2 ^ 32 ↔ _
    omega
  -- a wrapped offset stays short of the address by `2 ^ 32`
  | arch64 =>
    rw [imp_iff_right (rfl : Arch.arch64 = Arch.arch64)]
    show ((base + u.toNat) % 2 ^ 64 + v.toNat) % 2 ^ 64 = (base + t.toNat) % 2 ^ 64 ↔ _
    omega

end Translation

section Stored

variable (hstores : image.Stores xStart yStart width height)
  (hinside : image.Inside xStart yStart width height)
include hstores hinside

/-- A stored patch that lies in the buffer does not reach its last column or line. -/
theorem stored_lt :
    xStart.toNat + width.toNat < image.bufWidth.toNat ∧
      yStart.toNat + height.toNat < image.bufHeight.toNat := by
  have hx := BitVec.lt_def.mp hstores.1
  have hy := BitVec.lt_def.mp hstores.2
  have hw := image.bufWidth.isLt
  have hh := image.bufHeight.isLt
  rw [BitVec.toNat_add] at hx hy
  obtain ⟨hxle, hyle⟩ := hinside
  constructor <;> omega

/-- The two addresses of a pixel of a stored patch, in offsets. -/
theorem addresses_eq_iff (hp : p < image.planes.toNat) {x y : BitVec 32} (hx : x < width)
    (hy : y < height) :
    dvpImagePatchAddressing a (image.withPatch a xStart yStart width height) x y p =
        dvpImageAddressing a (image.withPatch a xStart yStart width height) (xStart + x)
          (yStart + y) p ↔
      (carry yStart y (dvpImageHeightDiv image.shape p) (dvpImageLineRange image.shape p) +
          carry xStart x (dvpImageWidthDiv image.shape p)
            (image.shape.xStride * dvpImageWidthStep image.shape p) = 0) ∧
        (a = .arch64 → (image.shape.pixelOffset xStart yStart p).toNat +
          (image.shape.pixelOffset x y p).toNat < 2 ^ 32) := by
  obtain ⟨hxlt, hylt⟩ := stored_lt hstores hinside
  have hx' := BitVec.lt_def.mp hx
  have hy' := BitVec.lt_def.mp hy
  have hw := image.bufWidth.isLt
  have hh := image.bufHeight.isLt
  -- all pixels that are named lie in the buffer, so `DVP_Image_Offset` gives its formula
  have hoffset : ∀ u v : BitVec 32, u.toNat < image.bufWidth.toNat →
      v.toNat < image.bufHeight.toNat →
      dvpImageOffset image.shape u v p = image.shape.pixelOffset u v p :=
    fun u v hu hv => if_pos ⟨hp, BitVec.lt_def.mpr hu, BitVec.lt_def.mpr hv⟩
  have hsumx : (xStart + x).toNat = xStart.toNat + x.toNat := by
    rw [BitVec.toNat_add, Nat.mod_eq_of_lt (by omega)]
  have hsumy : (yStart + y).toNat = yStart.toNat + y.toNat := by
    rw [BitVec.toNat_add, Nat.mod_eq_of_lt (by omega)]
  -- the patch pointer is the address of the start, and the pixel is counted from there
  have hpatch : dvpImagePatchAddressing a (image.withPatch a xStart yStart width height) x y p =
      a.add (a.add (image.pBuffer p) (image.shape.pixelOffset xStart yStart p).toNat)
        (image.shape.pixelOffset x y p).toNat := by
    have hpixel : dvpImagePatchOffset (image.withPatch a xStart yStart width height).shape x y p =
        image.shape.pixelOffset x y p := if_pos ⟨hp, hx, hy⟩
    have hptr : (image.withPatch a xStart yStart width height).pData p =
        a.add (image.pBuffer p) (image.shape.pixelOffset xStart yStart p).toNat := by
      rw [← hoffset xStart yStart (by omega) (by omega)]
      exact (if_pos hp).trans (congrArg (a.add · _) (if_pos hp))
    unfold dvpImagePatchAddressing
    rw [hpixel, ← hptr]
    exact congrArg (a.add · _) (if_pos hp)
  have hbuffer : dvpImageAddressing a (image.withPatch a xStart yStart width height) (xStart + x)
      (yStart + y) p =
        a.add (image.pBuffer p) (image.shape.pixelOffset (xStart + x) (yStart + y) p).toNat := by
    rw [← hoffset (xStart + x) (yStart + y) (by omega) (by omega)]
    exact congrArg (a.add · _) (if_pos hp)
  rw [hpatch, hbuffer, add_add_eq_iff, pixelOffset_add (by omega) (by omega)]
  exact and_congr_left fun _ => BitVec.self_eq_add_right

end Stored

/-- A patch inside the buffer translates the addresses of its pixels exactly when it has no pixels,
or keeps to the samples of every plane. -/
theorem dvpImagePatchAddressing_translates_iff (a : Arch) (image : DvpImageT)
    (xStart yStart width height : BitVec 32) (hstores : image.Stores xStart yStart width height)
    (hinside : image.Inside xStart yStart width height) :
    PatchTranslates a image xStart yStart width height ↔
      width = 0 ∨ height = 0 ∨ ∀ p < image.planes.toNat,
        PlaneKeeps a image.shape xStart yStart width height p := by
  by_cases hplanes : image.planes.toNat = 0
  -- without planes there is no pixel, and no round of the loop either
  · have hnone : ∀ p, ¬p < image.planes.toNat := by
      rw [hplanes]
      exact Nat.not_lt_zero
    exact iff_of_true (fun p hp => absurd hp (hnone p))
      (.inr (.inr fun p hp => absurd hp (hnone p)))
  have himage : (dvpImageSetPatch a image xStart yStart width height).2 =
      image.withPatch a xStart yStart width height := by
    rw [dvpImageSetPatch_eq]
    exact if_pos ⟨hstores, hplanes⟩
  unfold PatchTranslates
  rw [himage]
  constructor
  · intro h
    by_cases hwidth : width = 0
    · exact .inl hwidth
    by_cases hheight : height = 0
    · exact .inr (.inl hheight)
    refine .inr (.inr fun p hp => ?_)
    have hboth := fun x hx y hy =>
      (addresses_eq_iff hstores hinside hp hx hy).mp (h p hp x hx y hy)
    -- along the first line and the first column only one of the carries is left
    have hfirstColumn : 0 < width := (BitVec.pos_iff_ne_zero _).mpr hwidth
    have hfirstLine : 0 < height := (BitVec.pos_iff_ne_zero _).mpr hheight
    refine ⟨(forall_carry_eq_zero_iff DvpImage.widthDiv_pos).mp fun x hx => ?_,
      (forall_carry_eq_zero_iff DvpImage.heightDiv_pos).mp fun y hy => ?_,
      fun ha x hx y hy => (hboth x hx y hy).2 ha⟩
    · have hline := (hboth x hx 0 hfirstLine).1
      rw [carry_zero DvpImage.heightDiv_pos] at hline
      exact (BitVec.zero_add _).symm.trans hline
    · have hcolumn := (hboth 0 hfirstColumn y hy).1
      rw [carry_zero DvpImage.widthDiv_pos] at hcolumn
      exact (BitVec.add_zero _).symm.trans hcolumn
  · rintro (rfl | rfl | hkeeps) _ p hp x hx y hy
    · exact absurd hx BitVec.not_lt_zero
    · exact absurd hy BitVec.not_lt_zero
    · have h := hkeeps p hp
      rw [addresses_eq_iff hstores hinside hp hx hy,
        (forall_carry_eq_zero_iff DvpImage.heightDiv_pos).mpr h.lines y hy,
        (forall_carry_eq_zero_iff DvpImage.widthDiv_pos).mpr h.columns x hx]
      exact ⟨rfl, fun ha => h.offsets ha x hx y hy⟩

/-- A semi-planar image in memory. -/
def placedNv12 : DvpImageT :=
  dvpImageAlloc (dvpImageInit 16 16 fourccNv12) 0 (fun p => 4096 * (p + 1)) [1, 16]

theorem dvpImagePatchAddressing_translates_iff_nv12 :
    PatchTranslates .arch32 placedNv12 2 2 4 4 ↔
      (4 : BitVec 32) = 0 ∨ (4 : BitVec 32) = 0 ∨ ∀ p < placedNv12.planes.toNat,
        PlaneKeeps .arch32 placedNv12.shape 2 2 4 4 p :=
  dvpImagePatchAddressing_translates_iff .arch32 placedNv12 2 2 4 4 (by decide)
    ⟨by decide, by decide⟩

/-- The patch from column 1 on: its second column lies in the sample of the column before it in the
buffer, and in the next sample in the patch. -/
theorem dvpImagePatchAddressing_not_translates :
    placedNv12.Stores 1 0 4 4 ∧ placedNv12.Inside 1 0 4 4 ∧
      ¬PatchTranslates .arch32 placedNv12 1 0 4 4 := by
  refine ⟨by decide, ⟨by decide, by decide⟩, fun h => ?_⟩
  have hpixel := h 1 (by decide) 1 (by decide) 0 (by decide)
  exact absurd hpixel (by decide)

end DVP.Kgraph
