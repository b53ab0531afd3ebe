import DVP.Kgraph.ImageCopySame

/-!
# Copies that convert

`DVP_Image_Copy` between placed images of different colours. Each conversion copies bytes of a line
of the source to a line of the target, by a map of the bytes of a line that depends on the two
colours alone.

* `Conversion.copy_eq`: the transfers of a conversion are those of its map of bytes.
* `dvpImageCopy_convert_iff`: a conversion preserves the pixels, reads only the patch of the source
  and changes only the patch of the target exactly when the target is `Y800`, the width of the source
  is even, or the source has no lines.
-/

namespace DVP.Kgraph

open Sosal Transfer

attribute [local instance] lawfulBEq_fourcc

variable {a : Arch} {pDst pSrc : DvpImageT} {dstBlock srcBlock : Nat → BitVec 32}
  {mem : Nat → UInt8} {ts : List (Transfer Nat UInt8)} {y k n : Nat}

/-! ## The bytes of pixels -/

/-- The byte of a pixel that is its luma. -/
def lumaByte (color : BitVec 32) : Nat := if color ∈ [fourccUyvy, fourccVyuy] then 1 else 0

/-- The byte of a macro pixel that is its U. -/
def uByte (color : BitVec 32) : Nat :=
  if color = fourccUyvy then 0
  else if color = fourccYuy2 then 1
  else if color = fourccVyuy then 2
  else 3

/-- The byte of a macro pixel that is its V. -/
def vByte (color : BitVec 32) : Nat :=
  if color = fourccVyuy then 0
  else if color = fourccYvyu then 1
  else if color = fourccUyvy then 2
  else 3

/-- The address of the luma of a pixel of the patch. -/
def lumaAddress (a : Arch) (image : DvpImageT) (x y : BitVec 32) : Nat :=
  dvpImagePatchAddressing a image x y 0 + lumaByte image.color

/-- The address of the macro pixel of a pixel of the patch. The first one starts with the patch. -/
def macroAddress (a : Arch) (image : DvpImageT) (x y : BitVec 32) : Nat :=
  dvpImagePatchAddressing a image (x / 2 * 2) y 0

/-- The pairs of colours that are converted, the target first. -/
def Converts (dst src : BitVec 32) : Prop :=
  src = fourccY800 ∧ dst ∈ [fourccUyvy, fourccVyuy, fourccYuy2, fourccYvyu] ∨
    dst ∈ [fourccUyvy, fourccVyuy] ∧ src ∈ [fourccYvyu, fourccYuy2] ∨
      src ∈ lumaColors ∧ dst = fourccY800

/-- The byte of a line of the source that a byte of the line of the target is copied from. The other
bytes are zero chroma. -/
def origin (dst src : BitVec 32) (k : Nat) : Option Nat :=
  if dst = fourccY800 then some k
  else if src = fourccY800 then
    if k % 2 = lumaByte dst then some (k / 2) else none
  else
    if k % 4 = uByte dst then some (4 * (k / 4) + uByte src)
    else if k % 4 = vByte dst then some (4 * (k / 4) + vByte src)
    else some (k - lumaByte dst)

/-- The bytes of a line of the target that are written, for so many pixels of the source. -/
def convertedBytes (dst : BitVec 32) (width : Nat) : Nat :=
  if dst = fourccY800 then width else (width + 1) / 2 * 4

/-- The colours whose pixels have two bytes. -/
def packedColors : List (BitVec 32) := [fourccUyvy, fourccVyuy, fourccYuy2, fourccYvyu]

section Colors

variable {c : BitVec 32}

/-- A packed colour has two bytes for each pixel, one of them luma. -/
theorem packed_bytes (hc : c ∈ packedColors) :
    c ≠ fourccY800 ∧ (initXStride c).toNat = 2 ∧ lumaByte c < 2 := by
  simp only [packedColors, List.mem_cons, List.not_mem_nil, or_false] at hc
  rcases hc with rfl | rfl | rfl | rfl <;> decide

/-- A colour with a plane of luma has one byte for each pixel in it. -/
theorem planar_bytes (hc : c ∈ lumaColors) :
    c ≠ fourccY800 ∧ (initXStride c).toNat = 1 ∧ lumaByte c = 0 := by
  simp only [lumaColors, List.mem_cons, List.not_mem_nil, or_false] at hc
  rcases hc with rfl | rfl | rfl | rfl | rfl | rfl | rfl | rfl | rfl <;> decide

/-- Luma alone is one byte for each pixel. -/
theorem y800_bytes : (initXStride fourccY800).toNat = 1 ∧ lumaByte fourccY800 = 0 := by decide

/-- Luma after the first chroma. -/
theorem xyxy_bytes (hc : c ∈ [fourccUyvy, fourccVyuy]) :
    c ∈ packedColors ∧ lumaByte c = 1 ∧ uByte c % 2 = 0 ∧ vByte c % 2 = 0 := by
  simp only [List.mem_cons, List.not_mem_nil, or_false] at hc
  rcases hc with rfl | rfl <;> decide

/-- Luma before the first chroma. -/
theorem yxyx_bytes (hc : c ∈ [fourccYvyu, fourccYuy2]) :
    c ∈ packedColors ∧ c ∉ [fourccUyvy, fourccVyuy] ∧ lumaByte c = 0 := by
  simp only [List.mem_cons, List.not_mem_nil, or_false] at hc
  rcases hc with rfl | rfl <;> decide

/-- The bytes of chroma are in a macropixel. -/
theorem chroma_lt (c : BitVec 32) : uByte c < 4 ∧ vByte c < 4 := by
  unfold uByte vByte
  constructor <;> split_ifs <;> decide

end Colors

/-- The transfer to the byte `k` of a line. -/
def lineTransfer (origin : Nat → Option Nat) (d s k : Nat) : Transfer Nat UInt8 :=
  match origin k with
  | none => setByte (d + k) 128
  | some j => copy (d + k) (s + j)

/-- A byte without an origin is set to 128. -/
theorem lineTransfer_of_none {origin : Nat → Option Nat} {d s k : Nat} (h : origin k = none) :
    lineTransfer origin d s k = setByte (d + k) 128 := by
  unfold lineTransfer
  rw [h]

/-- A byte with an origin is copied from it. -/
theorem lineTransfer_of_some {origin : Nat → Option Nat} {d s k j : Nat} (h : origin k = some j) :
    lineTransfer origin d s k = copy (d + k) (s + j) := by
  unfold lineTransfer
  rw [h]

/-- The order of the bytes of a macro pixel, when the first chroma byte of the target is byte `u` of
the source and the second one byte `v`. -/
theorem reswizzle_eq {f : Nat → Option Nat} {d s i u v : Nat}
    (hf : ∀ k, f k = if k % 4 = 0 then some (4 * (k / 4) + u)
      else if k % 4 = 2 then some (4 * (k / 4) + v) else some (k - 1)) :
    reswizzle (s + 4 * i) (d + 4 * i) u v =
      [lineTransfer f d s (4 * i), lineTransfer f d s (4 * i + 1), lineTransfer f d s (4 * i + 2),
        lineTransfer f d s (4 * i + 3)] := by
  rw [lineTransfer_of_some (k := 4 * i) (j := 4 * i + u),
    lineTransfer_of_some (k := 4 * i + 1) (j := 4 * i),
    lineTransfer_of_some (k := 4 * i + 2) (j := 4 * i + v),
    lineTransfer_of_some (k := 4 * i + 3) (j := 4 * i + 2), ← Nat.add_assoc s, ← Nat.add_assoc s,
    ← Nat.add_assoc s]
  · rfl
  · rw [hf, if_neg (by omega), if_neg (by omega)]
    rfl
  · rw [hf, if_neg (by omega), if_pos (by omega), show 4 * ((4 * i + 2) / 4) = 4 * i by omega]
  · rw [hf, if_neg (by omega), if_neg (by omega)]
    rfl
  · rw [hf, if_pos (by omega), show 4 * (4 * i / 4) = 4 * i by omega]

/-! ## The transfers of a conversion -/

/-- Two placed images without common memory, of colours that are converted. -/
structure Conversion (a : Arch) (pDst pSrc : DvpImageT) (dstBlock srcBlock : Nat → BitVec 32) :
    Prop where
  dst : Placed a pDst dstBlock
  src : Placed a pSrc srcBlock
  converts : Converts pDst.color pSrc.color
  imagesApart : ImagesApart pDst pSrc dstBlock srcBlock
  width_le : pSrc.width ≤ pDst.width
  height_le : pSrc.height ≤ pDst.height

/-- Four transfers to each of the macro pixels of the lines are transfers to the bytes of the
lines. -/
theorem mem_macroPixels {origin : Nat → Option Nat} {dst src : Nat → Nat}
    {body : BitVec 32 → BitVec 32 → List (Transfer Nat UInt8)}
    (hbody : ∀ y < pSrc.height.toNat, ∀ i < (pSrc.width.toNat + 1) / 2,
      body (BitVec.ofNat 32 (2 * i)) (BitVec.ofNat 32 y) =
        [lineTransfer origin (dst y) (src y) (4 * i),
          lineTransfer origin (dst y) (src y) (4 * i + 1),
          lineTransfer origin (dst y) (src y) (4 * i + 2),
          lineTransfer origin (dst y) (src y) (4 * i + 3)]) {t : Transfer Nat UInt8} :
    t ∈ macroPixels pSrc body ↔
      ∃ y < pSrc.height.toNat, ∃ k < (pSrc.width.toNat + 1) / 2 * 4,
        lineTransfer origin (dst y) (src y) k = t := by
  simp only [macroPixels, List.mem_flatMap, List.mem_range]
  constructor
  · rintro ⟨y, hy, i, hi, ht⟩
    rw [hbody y hy i hi] at ht
    simp only [List.mem_cons, List.not_mem_nil, or_false] at ht
    rcases ht with rfl | rfl | rfl | rfl
    · exact ⟨y, hy, 4 * i, by omega, rfl⟩
    · exact ⟨y, hy, 4 * i + 1, by omega, rfl⟩
    · exact ⟨y, hy, 4 * i + 2, by omega, rfl⟩
    · exact ⟨y, hy, 4 * i + 3, by omega, rfl⟩
  -- a byte belongs to the macro pixel of its quotient by four
  · rintro ⟨y, hy, k, hk, rfl⟩
    have hi : k / 4 < (pSrc.width.toNat + 1) / 2 := by omega
    refine ⟨y, hy, k / 4, hi, ?_⟩
    rw [hbody y hy _ hi]
    simp only [List.mem_cons, List.not_mem_nil, or_false]
    -- the byte of the macro pixel
    have hmod : k % 4 = 0 ∨ k % 4 = 1 ∨ k % 4 = 2 ∨ k % 4 = 3 := by omega
    rcases hmod with hmod | hmod | hmod | hmod
    · exact .inl (by rw [show 4 * (k / 4) = k by omega])
    · exact .inr (.inl (by rw [show 4 * (k / 4) + 1 = k by omega]))
    · exact .inr (.inr (.inl (by rw [show 4 * (k / 4) + 2 = k by omega])))
    · exact .inr (.inr (.inr (by rw [show 4 * (k / 4) + 3 = k by omega])))

/-- The transfers are those of the map of the bytes of a line. -/
def ConvertsBy (a : Arch) (pDst pSrc : DvpImageT) (ts : List (Transfer Nat UInt8)) : Prop :=
  ∀ t, t ∈ ts ↔
    ∃ y < pSrc.height.toNat, ∃ k < convertedBytes pDst.color pSrc.width.toNat,
      lineTransfer (origin pDst.color pSrc.color) (patchLine a pDst 0 y) (patchLine a pSrc 0 y) k = t

namespace ConvertsBy

variable (hts : ConvertsBy a pDst pSrc ts)
include hts

/-- The conversion reads the origins of the bytes of its lines. -/
theorem mem_reads_iff {ptr : Nat} :
    ptr ∈ reads ts ↔ ∃ y < pSrc.height.toNat,
      ∃ k < convertedBytes pDst.color pSrc.width.toNat, ∃ j,
        origin pDst.color pSrc.color k = some j ∧ patchLine a pSrc 0 y + j = ptr := by
  rw [mem_reads]
  constructor
  · rintro ⟨t, ht, hptr⟩
    obtain ⟨y, hy, k, hk, rfl⟩ := (hts t).mp ht
    -- a byte that is set to zero chroma reads nothing
    match horigin : origin pDst.color pSrc.color k with
    | none =>
      rw [lineTransfer_of_none horigin] at hptr
      exact absurd hptr List.not_mem_nil
    | some j =>
      rw [lineTransfer_of_some horigin] at hptr
      exact ⟨y, hy, k, hk, j, horigin, (List.mem_singleton.mp hptr).symm⟩
  · rintro ⟨y, hy, k, hk, j, horigin, rfl⟩
    refine ⟨_, (hts _).mpr ⟨y, hy, k, hk, rfl⟩, ?_⟩
    rw [lineTransfer_of_some horigin]
    exact List.mem_singleton_self _

/-- The conversion writes the bytes of its lines. -/
theorem mem_writes_iff {ptr : Nat} :
    ptr ∈ writes ts ↔ ∃ y < pSrc.height.toNat,
      ∃ k < convertedBytes pDst.color pSrc.width.toNat, patchLine a pDst 0 y + k = ptr := by
  have htarget : ∀ (d s k : Nat),
      (lineTransfer (origin pDst.color pSrc.color) d s k).targets.map Prod.fst = [d + k] := by
    intro d s k
    unfold lineTransfer
    split <;> rfl
  have hmem : ptr ∈ writes ts ↔ ∃ t ∈ ts, ptr ∈ t.targets.map Prod.fst := List.mem_flatMap
  rw [hmem]
  constructor
  · rintro ⟨t, ht, hptr⟩
    obtain ⟨y, hy, k, hk, rfl⟩ := (hts t).mp ht
    rw [htarget] at hptr
    exact ⟨y, hy, k, hk, (List.mem_singleton.mp hptr).symm⟩
  · rintro ⟨y, hy, k, hk, rfl⟩
    refine ⟨_, (hts _).mpr ⟨y, hy, k, hk, rfl⟩, ?_⟩
    rw [htarget]
    exact List.mem_singleton_self _

end ConvertsBy

namespace Conversion

variable (h : Conversion a pDst pSrc dstBlock srcBlock)
include h

/-- Neither image is a bitmap. -/
theorem not_bin : pDst.color ≠ fourccBin1 ∧ pSrc.color ≠ fourccBin1 := by
  rcases h.converts with ⟨hsrc, hdst⟩ | ⟨hdst, hsrc⟩ | ⟨hsrc, hdst⟩
  · refine ⟨fun hbin => ?_, hsrc ▸ by decide⟩
    rw [hbin] at hdst
    exact absurd hdst (by decide)
  · constructor
    · intro hbin
      rw [hbin] at hdst
      exact absurd hdst (by decide)
    · intro hbin
      rw [hbin] at hsrc
      exact absurd hsrc (by decide)
  · refine ⟨hdst ▸ by decide, fun hbin => ?_⟩
    rw [hbin] at hsrc
    exact absurd hsrc (by decide)

/-- What is not `Y800` is packed. -/
theorem dst_packed (hdst : pDst.color ≠ fourccY800) : pDst.color ∈ packedColors := by
  rcases h.converts with ⟨-, hd⟩ | ⟨hd, -⟩ | ⟨-, hd⟩
  · exact hd
  · exact (xyxy_bytes hd).1
  · exact absurd hd hdst

/-- The addresses of the macro pixel `i` of a line. -/
theorem macroPixel_eq {i : Nat} (hy : y < pSrc.height.toNat)
    (hi : i < (pSrc.width.toNat + 1) / 2) :
    dvpImagePatchAddressing a pSrc (BitVec.ofNat 32 (2 * i)) (BitVec.ofNat 32 y) 0 =
        patchLine a pSrc 0 y + 2 * i * pSrc.xStride.toNat ∧
      dvpImagePatchAddressing a pDst (BitVec.ofNat 32 (2 * i)) (BitVec.ofNat 32 y) 0 =
        patchLine a pDst 0 y + 2 * i * pDst.xStride.toNat := by
  have hw := BitVec.le_def.mp h.width_le
  have hh := BitVec.le_def.mp h.height_le
  have hwlt := pSrc.width.isLt
  have hhlt := pSrc.height.isLt
  have hx : (BitVec.ofNat 32 (2 * i)).toNat = 2 * i := by
    rw [BitVec.toNat_ofNat, Nat.mod_eq_of_lt (by omega)]
  have hyNat : (BitVec.ofNat 32 y).toNat = y := by
    rw [BitVec.toNat_ofNat, Nat.mod_eq_of_lt (by omega)]
  -- the pixel is in both patches, since the one of the source fits that of the target
  constructor
  · rw [h.src.pixelAddress h.not_bin.2, hx, hyNat]
    · exact BitVec.lt_def.mpr (by rw [hx]; omega)
    · exact BitVec.lt_def.mpr (by rw [hyNat]; omega)
  · rw [h.dst.pixelAddress h.not_bin.1, hx, hyNat]
    · exact BitVec.lt_def.mpr (by rw [hx]; omega)
    · exact BitVec.lt_def.mpr (by rw [hyNat]; omega)

/-- The destination has the stride of its colour. -/
theorem dst_xStride : pDst.xStride = initXStride pDst.color := h.dst.ofColor.xStride_eq

/-- The source has the stride of its colour. -/
theorem src_xStride : pSrc.xStride = initXStride pSrc.color := h.src.ofColor.xStride_eq

/-- The tests before the colours are compared. -/
theorem copy_of_color_ne (hne : pDst.color ≠ pSrc.color) :
    ¬hasNull pSrc = true ∧ ¬hasNull pDst = true ∧
      ¬(pDst.width < pSrc.width ∨ pDst.height < pSrc.height) ∧ ¬pDst.color = pSrc.color := by
  refine ⟨?_, ?_, ?_, hne⟩
  · rw [h.src.hasNull_eq]
    exact Bool.false_ne_true
  · rw [h.dst.hasNull_eq]
    exact Bool.false_ne_true
  · rw [not_or, BitVec.not_lt, BitVec.not_lt]
    exact ⟨h.width_le, h.height_le⟩

/-- The luma of `Y800` behind zero chroma. -/
theorem copy_xyxy (hsrc : pSrc.color = fourccY800) (hdst : pDst.color ∈ [fourccUyvy, fourccVyuy]) :
    ∃ ts, dvpImageCopy a pDst pSrc = some ts ∧ ConvertsBy a pDst pSrc ts := by
  obtain ⟨hpacked, hlumaByte, -, -⟩ := xyxy_bytes hdst
  obtain ⟨hd800, htwo, -⟩ := packed_bytes hpacked
  obtain ⟨hnsrc, hndst, hfits, hne⟩ := h.copy_of_color_ne (hsrc ▸ hd800)
  -- the first branch of the conversions
  have hcopy : dvpImageCopy a pDst pSrc = some (macroPixels pSrc fun x y =>
      lumaToXyxy (dvpImagePatchAddressing a pSrc x y 0) (dvpImagePatchAddressing a pDst x y 0)) := by
    unfold dvpImageCopy
    rw [if_neg hnsrc, if_neg hndst, if_neg hfits, if_neg hne, if_pos ⟨hsrc, hdst⟩]
  refine ⟨_, hcopy, fun t => ?_⟩
  rw [convertedBytes, if_neg hd800]
  apply mem_macroPixels
  intro y hy i hi
  obtain ⟨hluma, hxyxy⟩ := h.macroPixel_eq hy hi
  rw [h.dst_xStride, htwo, show 2 * i * 2 = 4 * i by omega] at hxyxy
  rw [h.src_xStride, hsrc, y800_bytes.1, Nat.mul_one] at hluma
  -- the odd bytes are luma
  have horigin : ∀ k, origin pDst.color pSrc.color k = if k % 2 = 1 then some (k / 2) else none := by
    intro k
    rw [origin, if_neg hd800, if_pos hsrc, hlumaByte]
  rw [hluma, hxyxy, lineTransfer_of_none (k := 4 * i), lineTransfer_of_some (k := 4 * i + 1)
    (j := 2 * i), lineTransfer_of_none (k := 4 * i + 2), lineTransfer_of_some (k := 4 * i + 3)
    (j := 2 * i + 1)]
  · rfl
  · rw [horigin, if_pos (by omega), show (4 * i + 3) / 2 = 2 * i + 1 by omega]
  · rw [horigin, if_neg (by omega)]
  · rw [horigin, if_pos (by omega), show (4 * i + 1) / 2 = 2 * i by omega]
  · rw [horigin, if_neg (by omega)]

/-- The luma of `Y800` in front of zero chroma. -/
theorem copy_yxyx (hsrc : pSrc.color = fourccY800) (hdst : pDst.color ∈ [fourccYuy2, fourccYvyu]) :
    ∃ ts, dvpImageCopy a pDst pSrc = some ts ∧ ConvertsBy a pDst pSrc ts := by
  obtain ⟨hpacked, hother, hlumaByte⟩ := yxyx_bytes ((List.Perm.swap ..).mem_iff.mp hdst)
  obtain ⟨hd800, htwo, -⟩ := packed_bytes hpacked
  obtain ⟨hnsrc, hndst, hfits, hne⟩ := h.copy_of_color_ne (hsrc ▸ hd800)
  -- the second one
  have hcopy : dvpImageCopy a pDst pSrc = some (macroPixels pSrc fun x y =>
      lumaToYxyx (dvpImagePatchAddressing a pSrc x y 0) (dvpImagePatchAddressing a pDst x y 0)) := by
    unfold dvpImageCopy
    rw [if_neg hnsrc, if_neg hndst, if_neg hfits, if_neg hne, if_neg fun hc => hother hc.2,
      if_pos ⟨hsrc, hdst⟩]
  refine ⟨_, hcopy, fun t => ?_⟩
  rw [convertedBytes, if_neg hd800]
  apply mem_macroPixels
  intro y hy i hi
  obtain ⟨hluma, hyxyx⟩ := h.macroPixel_eq hy hi
  rw [h.dst_xStride, htwo, show 2 * i * 2 = 4 * i by omega] at hyxyx
  rw [h.src_xStride, hsrc, y800_bytes.1, Nat.mul_one] at hluma
  -- the even bytes are luma
  have horigin : ∀ k, origin pDst.color pSrc.color k = if k % 2 = 0 then some (k / 2) else none := by
    intro k
    rw [origin, if_neg hd800, if_pos hsrc, hlumaByte]
  rw [hluma, hyxyx, lineTransfer_of_some (k := 4 * i) (j := 2 * i),
    lineTransfer_of_none (k := 4 * i + 1), lineTransfer_of_some (k := 4 * i + 2) (j := 2 * i + 1),
    lineTransfer_of_none (k := 4 * i + 3)]
  · rfl
  · rw [horigin, if_neg (by omega)]
  · rw [horigin, if_pos (by omega), show (4 * i + 2) / 2 = 2 * i + 1 by omega]
  · rw [horigin, if_neg (by omega)]
  · rw [horigin, if_pos (by omega), show 4 * i / 2 = 2 * i by omega]

/-- Between two orders of the bytes of a macro pixel. -/
theorem copy_reswizzle (hdst : pDst.color ∈ [fourccUyvy, fourccVyuy])
    (hsrc : pSrc.color ∈ [fourccYvyu, fourccYuy2]) :
    ∃ ts, dvpImageCopy a pDst pSrc = some ts ∧ ConvertsBy a pDst pSrc ts := by
  have hdcases := hdst
  have hscases := hsrc
  simp only [List.mem_cons, List.not_mem_nil, or_false] at hdcases hscases
  obtain ⟨hd800, hdtwo, -⟩ := packed_bytes (xyxy_bytes hdst).1
  obtain ⟨hs800, hstwo, -⟩ := packed_bytes (yxyx_bytes hsrc).1
  have hother : pDst.color ≠ pSrc.color := fun heq => (yxyx_bytes hsrc).2.1 (heq ▸ hdst)
  obtain ⟨hnsrc, hndst, hfits, hne⟩ := h.copy_of_color_ne hother
  -- where the two chroma bytes of the target come from
  obtain ⟨u, v, hbody, horigin⟩ : ∃ u v, (∀ yxyx xyxy,
      (if pSrc.color = fourccYuy2 then
        if pDst.color = fourccUyvy then reswizzle yxyx xyxy 1 3 else reswizzle yxyx xyxy 3 1
      else if pDst.color = fourccUyvy then reswizzle yxyx xyxy 3 1
        else reswizzle yxyx xyxy 1 3) = reswizzle yxyx xyxy u v) ∧
      ∀ k, origin pDst.color pSrc.color k = if k % 4 = 0 then some (4 * (k / 4) + u)
        else if k % 4 = 2 then some (4 * (k / 4) + v) else some (k - 1) := by
    rcases hdcases with hd | hd <;> rcases hscases with hs | hs <;> rw [hd, hs]
    · exact ⟨3, 1, fun _ _ => rfl, fun k => rfl⟩
    · exact ⟨1, 3, fun _ _ => rfl, fun k => rfl⟩
    · exact ⟨1, 3, fun _ _ => rfl, fun k => ite_ite_comm (k % 4 = 2) (k % 4 = 0) _ _ (by omega)⟩
    · exact ⟨3, 1, fun _ _ => rfl, fun k => ite_ite_comm (k % 4 = 2) (k % 4 = 0) _ _ (by omega)⟩
  -- the third one, with the order that the two colours choose
  have hcopy : dvpImageCopy a pDst pSrc = some (macroPixels pSrc fun x y =>
      reswizzle (dvpImagePatchAddressing a pSrc x y 0) (dvpImagePatchAddressing a pDst x y 0)
        u v) := by
    unfold dvpImageCopy
    rw [if_neg hnsrc, if_neg hndst, if_neg hfits, if_neg hne, if_neg fun hc => hs800 hc.1,
      if_neg fun hc => hs800 hc.1, if_pos ⟨hdst, hsrc⟩]
    simp only [hbody]
  refine ⟨_, hcopy, fun t => ?_⟩
  rw [convertedBytes, if_neg hd800]
  apply mem_macroPixels
  intro y hy i hi
  obtain ⟨hyxyx, hxyxy⟩ := h.macroPixel_eq hy hi
  rw [h.dst_xStride, hdtwo, show 2 * i * 2 = 4 * i by omega] at hxyxy
  rw [h.src_xStride, hstwo, show 2 * i * 2 = 4 * i by omega] at hyxyx
  rw [hyxyx, hxyxy]
  exact reswizzle_eq horigin

/-- The luma of a planar image. -/
theorem copy_luma (hsrc : pSrc.color ∈ lumaColors) (hdst : pDst.color = fourccY800) :
    ∃ ts, dvpImageCopy a pDst pSrc = some ts ∧ ConvertsBy a pDst pSrc ts := by
  obtain ⟨hs800, hone, -⟩ := planar_bytes hsrc
  have hpacked : pDst.color ∉ [fourccUyvy, fourccVyuy] := by
    rw [hdst]
    decide
  obtain ⟨hnsrc, hndst, hfits, hne⟩ := h.copy_of_color_ne (hdst ▸ hs800.symm)
  -- the last one
  have hcopy : dvpImageCopy a pDst pSrc = some (copyLuma a pDst pSrc) := by
    unfold dvpImageCopy
    rw [if_neg hnsrc, if_neg hndst, if_neg hfits, if_neg hne, if_neg fun hc => hs800 hc.1,
      if_neg fun hc => hs800 hc.1, if_neg fun hc => hpacked hc.1, if_pos ⟨hsrc, hdst⟩]
  refine ⟨_, hcopy, fun t => ?_⟩
  -- the lines of the first plane are those of the image
  have hline : ∀ (image : DvpImageT) (y : Nat),
      dvpImagePatchAddressing a image 0 (BitVec.ofNat 32 y) 0 = patchLine a image 0 y := by
    intro image y
    have hone : dvpImageHeightDiv image.shape 0 = 1#32 := BitVec.eq_of_toNat_eq heightDiv_zero
    rw [patchLine, hone, BitVec.mul_one]
  have hlen : (dvpImagePatchLineSize pSrc.shape 0).toNat = pSrc.width.toNat := by
    rw [h.src.patchLineSize_zero h.not_bin.2, h.src_xStride, hone, Nat.mul_one]
  have horigin : ∀ k, origin pDst.color pSrc.color k = some k := fun k => if_pos hdst
  rw [convertedBytes, if_pos hdst]
  simp only [copyLuma, memcpy, List.mem_flatMap, List.mem_range, mem_copyRun, hline, hlen,
    lineTransfer_of_some (horigin _)]

/-- A conversion answers `DVP_TRUE`. -/
theorem copy_eq : ∃ ts, dvpImageCopy a pDst pSrc = some ts ∧ ConvertsBy a pDst pSrc ts := by
  rcases h.converts with ⟨hsrc, hdst⟩ | ⟨hdst, hsrc⟩ | ⟨hsrc, hdst⟩
  · have hsplit : pDst.color ∈ [fourccUyvy, fourccVyuy] ∨ pDst.color ∈ [fourccYuy2, fourccYvyu] := by
      rw [← List.mem_append]
      exact hdst
    exact hsplit.elim (h.copy_xyxy hsrc) (h.copy_yxyx hsrc)
  · exact h.copy_reswizzle hdst hsrc
  · exact h.copy_luma hsrc hdst

/-- A packed source has a packed target, of the other order. -/
theorem packed_cases (hpacked : pSrc.color ∈ [fourccYvyu, fourccYuy2]) :
    (pDst.color = fourccUyvy ∨ pDst.color = fourccVyuy) ∧
      (pSrc.color = fourccYvyu ∨ pSrc.color = fourccYuy2) := by
  simp only [List.mem_cons, List.not_mem_nil, or_false] at hpacked
  refine ⟨?_, hpacked⟩
  -- a packed colour is neither `Y800` nor planar
  rcases h.converts with ⟨hs, -⟩ | ⟨hd, -⟩ | ⟨hs, -⟩
  · rcases hpacked with hp | hp <;> rw [hp] at hs <;> exact absurd hs (by decide)
  · simpa only [List.mem_cons, List.not_mem_nil, or_false] using hd
  · rcases hpacked with hp | hp <;> rw [hp] at hs <;> exact absurd hs (by decide)

/-! ### The map of the bytes -/

/-- The luma of a pixel is copied from the luma of the pixel. -/
theorem origin_luma (x : Nat) :
    origin pDst.color pSrc.color (x * pDst.xStride.toNat + lumaByte pDst.color) =
      some (x * pSrc.xStride.toNat + lumaByte pSrc.color) := by
  rw [h.dst_xStride, h.src_xStride]
  rcases h.converts with ⟨hsrc, hdst⟩ | ⟨hdst, hsrc⟩ | ⟨hsrc, hdst⟩
  · obtain ⟨hd800, htwo, hluma⟩ := packed_bytes hdst
    rw [origin, if_neg hd800, if_pos hsrc, htwo, hsrc, y800_bytes.1, y800_bytes.2,
      if_pos (by omega)]
    exact congrArg some (by omega)
  · -- the luma of a packed pixel is neither chroma byte of its macro pixel
    obtain ⟨hdpacked, hdl, hu, hv⟩ := xyxy_bytes hdst
    obtain ⟨hspacked, -, hsl⟩ := yxyx_bytes hsrc
    obtain ⟨hd800, hdx, -⟩ := packed_bytes hdpacked
    obtain ⟨hs800, hsx, -⟩ := packed_bytes hspacked
    rw [origin, if_neg hd800, if_neg hs800, hdx, hsx, hdl, hsl, if_neg (by omega),
      if_neg (by omega)]
    rfl
  · obtain ⟨-, hone, hluma⟩ := planar_bytes hsrc
    rw [origin, if_pos hdst, hone, hluma, hdst, y800_bytes.1, y800_bytes.2]

/-- The chroma of a macro pixel is copied from the chroma of the macro pixel. -/
theorem origin_chroma (hpacked : pSrc.color ∈ [fourccYvyu, fourccYuy2]) (i : Nat) :
    origin pDst.color pSrc.color (4 * i + uByte pDst.color) = some (4 * i + uByte pSrc.color) ∧
      origin pDst.color pSrc.color (4 * i + vByte pDst.color) =
        some (4 * i + vByte pSrc.color) := by
  have hbytes : pDst.color ≠ fourccY800 ∧ pSrc.color ≠ fourccY800 ∧
      vByte pDst.color ≠ uByte pDst.color := by
    obtain ⟨hd, hs⟩ := h.packed_cases hpacked
    rcases hd with hd | hd <;> rcases hs with hs | hs <;> rw [hd, hs] <;> decide
  obtain ⟨hd800, hs800, hne⟩ := hbytes
  obtain ⟨hu, hv⟩ := chroma_lt pDst.color
  -- the tests of `origin` are made in the order of `u` and `v`
  constructor
  · rw [origin, if_neg hd800, if_neg hs800, if_pos (by omega)]
    exact congrArg some (by omega)
  · rw [origin, if_neg hd800, if_neg hs800, if_neg (by omega), if_pos (by omega)]
    exact congrArg some (by omega)

/-- The pixels of the source have as many bytes in the target as are written, or one less. -/
theorem convertedBytes_eq :
    convertedBytes pDst.color pSrc.width.toNat =
      if pDst.color = fourccY800 then pSrc.width.toNat * pDst.xStride.toNat
      else (pSrc.width.toNat + 1) / 2 * 2 * pDst.xStride.toNat := by
  rw [h.dst_xStride, convertedBytes]
  split_ifs with hdst
  · rw [hdst]
    exact (Nat.mul_one _).symm
  · rw [(packed_bytes (h.dst_packed hdst)).2.1]
    omega

/-- Where macro pixels do not pass the end of a line, neither does what is read. -/
theorem origin_lt {k j : Nat} (heven : pDst.color = fourccY800 ∨ 2 ∣ pSrc.width.toNat)
    (hk : k < convertedBytes pDst.color pSrc.width.toNat)
    (hj : origin pDst.color pSrc.color k = some j) : j < pSrc.width.toNat * pSrc.xStride.toNat := by
  rw [h.src_xStride]
  unfold convertedBytes at hk
  unfold origin at hj
  -- where pixels come in pairs the width is even, so the last pair is in the line
  rcases h.converts with ⟨hsrc, hdst⟩ | ⟨hdst, hsrc⟩ | ⟨hsrc, hdst⟩
  · have hd800 := (packed_bytes hdst).1
    have hw := heven.resolve_left hd800
    rw [if_neg hd800] at hk hj
    rw [if_pos hsrc] at hj
    rw [hsrc, y800_bytes.1]
    split_ifs at hj
    rw [← Option.some.inj hj]
    omega
  · have hd800 := (packed_bytes (xyxy_bytes hdst).1).1
    obtain ⟨hs800, hsx, -⟩ := packed_bytes (yxyx_bytes hsrc).1
    obtain ⟨hu, hv⟩ := chroma_lt pSrc.color
    have hw := heven.resolve_left hd800
    rw [if_neg hd800] at hk hj
    rw [if_neg hs800] at hj
    rw [hsx]
    split_ifs at hj <;> rw [← Option.some.inj hj] <;> omega
  · rw [if_pos hdst] at hk hj
    rw [(planar_bytes hsrc).2.1, ← Option.some.inj hj]
    omega

/-! ### Reads and writes -/

/-- With an odd width, the last macro pixel of the last line reads behind the patch. -/
theorem reads_behind (hts : ConvertsBy a pDst pSrc ts) (hdst : pDst.color ≠ fourccY800)
    (hodd : ¬2 ∣ pSrc.width.toNat) (hheight : pSrc.height ≠ 0) :
    ∃ ptr ∈ reads ts, ptr ∉ patchAddresses a pSrc := by
  have hpos : 0 < pSrc.height.toNat :=
    Nat.pos_of_ne_zero fun hzero => hheight (BitVec.eq_of_toNat_eq hzero)
  -- the source has one plane, and a pixel of the target has two bytes
  have hbytes : pSrc.planes.toNat = 1 ∧ pDst.xStride.toNat = 2 ∧ lumaByte pDst.color < 2 := by
    have hplanes : pSrc.planes = initPlanes pSrc.color := h.src.ofColor.planes_eq
    rw [hplanes, h.dst_xStride]
    rcases h.converts with ⟨hs, hd⟩ | ⟨hd, hs⟩ | ⟨-, hd⟩
    · simp only [List.mem_cons, List.not_mem_nil, or_false] at hd
      rcases hd with hd | hd | hd | hd <;> rw [hd, hs] <;> decide
    · simp only [List.mem_cons, List.not_mem_nil, or_false] at hd hs
      rcases hd with hd | hd <;> rcases hs with hs | hs <;> rw [hd, hs] <;> decide
    · exact absurd hd hdst
  obtain ⟨hone, htwo, hluma⟩ := hbytes
  -- the luma of the pixel behind the last one
  refine ⟨_, hts.mem_reads_iff.mpr ⟨pSrc.height.toNat - 1, by omega, _, ?_, _,
    h.origin_luma pSrc.width.toNat, rfl⟩, fun hmem => ?_⟩
  · rw [h.convertedBytes_eq, if_neg hdst, htwo]
    omega
  · obtain ⟨p, hp, y, hy, hline⟩ := mem_patchAddresses.mp hmem
    have hzero : p = 0 := by omega
    subst hzero
    obtain ⟨k, hk, heq⟩ := mem_lineAddresses.mp hline
    have hcols := h.src.cols_pos hp hk
    rw [h.src.patchLineSize_zero h.not_bin.2] at hk
    rw [Placed.lines_zero] at hy
    -- the line of any other byte comes before the last one, and ends before the byte that is read
    have hmono := h.src.patchLine_mono hp hcols (z := pSrc.height.toNat - 1)
      (show y ≤ pSrc.height.toNat - 1 by omega) (by rw [Placed.lines_zero]; omega)
    dsimp only at heq
    omega

/-- A line of the source is a line of the target. -/
theorem dst_line (hy : y < pSrc.height.toNat) : y < pDst.shape.lines 0 := by
  rw [Placed.lines_zero]
  exact hy.trans_le (BitVec.le_def.mp h.height_le)

section Even

variable (hok : pDst.color = fourccY800 ∨ 2 ∣ pSrc.width.toNat ∨ pSrc.height = 0)
include hok

/-- Lines that are read are read within their end. -/
theorem src_lt {y k j : Nat} (hy : y < pSrc.height.toNat)
    (hk : k < convertedBytes pDst.color pSrc.width.toNat)
    (hj : origin pDst.color pSrc.color k = some j) :
    j < (dvpImagePatchLineSize pSrc.shape 0).toNat := by
  rw [h.src.patchLineSize_zero h.not_bin.2]
  refine h.origin_lt ?_ hk hj
  rcases hok with hdst | heven | hnone
  · exact .inl hdst
  · exact .inr heven
  · rw [hnone] at hy
    exact absurd hy (Nat.not_lt_zero _)

/-- Lines that are written are written within their end. -/
theorem dst_lt {y k : Nat} (hy : y < pSrc.height.toNat)
    (hk : k < convertedBytes pDst.color pSrc.width.toNat) :
    k < (dvpImagePatchLineSize pDst.shape 0).toNat := by
  rw [h.dst.patchLineSize_zero h.not_bin.1]
  have hle : convertedBytes pDst.color pSrc.width.toNat ≤
      pSrc.width.toNat * pDst.xStride.toNat := by
    rw [h.convertedBytes_eq]
    split_ifs with hdst
    · exact le_rfl
    · apply Nat.mul_le_mul_right
      rcases hok with hd | heven | hnone
      · exact absurd hd hdst
      · omega
      · rw [hnone] at hy
        exact absurd hy (Nat.not_lt_zero _)
  exact (hk.trans_le hle).trans_le (Nat.mul_le_mul_right _ (BitVec.le_def.mp h.width_le))

variable (hts : ConvertsBy a pDst pSrc ts)
include hts

/-- What is read is in the patch and in the memory of the source. -/
theorem reads_patch {ptr : Nat} (hptr : ptr ∈ reads ts) :
    ptr ∈ patchAddresses a pSrc ∧ ptr ∈ planeMemory pSrc srcBlock 0 := by
  obtain ⟨y, hy, k, hk, j, hj, rfl⟩ := hts.mem_reads_iff.mp hptr
  have hline : y < pSrc.shape.lines 0 := by rwa [Placed.lines_zero]
  have hlt := h.src_lt hok hy hk hj
  exact ⟨mem_patchAddresses.mpr ⟨0, h.src.planes_pos, y, hline,
    mem_lineAddresses.mpr ⟨j, hlt, rfl⟩⟩, h.src.mem_planeMemory h.src.planes_pos hline hlt⟩

/-- What is written is in the patch and in the memory of the destination. -/
theorem writes_patch {ptr : Nat} (hptr : ptr ∈ writes ts) :
    ptr ∈ patchAddresses a pDst ∧ ptr ∈ planeMemory pDst dstBlock 0 := by
  obtain ⟨y, hy, k, hk, rfl⟩ := hts.mem_writes_iff.mp hptr
  have hline := h.dst_line hy
  have hlt := h.dst_lt hok hy hk
  exact ⟨mem_patchAddresses.mpr ⟨0, h.dst.planes_pos, y, hline,
    mem_lineAddresses.mpr ⟨k, hlt, rfl⟩⟩, h.dst.mem_planeMemory h.dst.planes_pos hline hlt⟩

/-- A byte of the target that is copied has the byte of the source that it is copied from. -/
theorem run_convert {j : Nat} (hy : y < pSrc.height.toNat)
    (hk : k < convertedBytes pDst.color pSrc.width.toNat)
    (hj : origin pDst.color pSrc.color k = some j) :
    run mem ts (patchLine a pDst 0 y + k) = mem (patchLine a pSrc 0 y + j) := by
  apply run_eq
  -- what is read is in the memory of the source, and what is written in that of the target
  · intro ptr hread hwrite
    exact Set.disjoint_left.mp (h.imagesApart 0 h.dst.planes_pos 0 h.src.planes_pos)
      (h.writes_patch hok hts hwrite).2 (h.reads_patch hok hts hread).2
  · -- the bytes of the target are apart, so one transfer alone writes this one
    intro t ht w hw hptr
    obtain ⟨z, hz, l, hl, rfl⟩ := (hts t).mp ht
    have htarget : w.1 = patchLine a pDst 0 z + l := by
      unfold lineTransfer at hw
      split at hw <;> exact congrArg Prod.fst (List.mem_singleton.mp hw)
    obtain ⟨rfl, rfl⟩ := h.dst.lineAddress_inj h.dst.planes_pos (h.dst_line hz)
      (h.dst_line hy) (h.dst_lt hok hz hl) (h.dst_lt hok hy hk) (htarget.symm.trans hptr)
    rw [lineTransfer_of_some hj] at hw ⊢
    rw [List.mem_singleton.mp hw]
    rfl
  · exact .inl (hts.mem_writes_iff.mpr ⟨y, hy, k, hk, rfl⟩)

end Even

end Conversion

/-! ## Exact conversions -/

/-- The transfers preserve the luma of the pixels, and the chroma between packed colours; they read
only the patch of the source and change only the patch of the target. -/
structure ConvertExact (a : Arch) (pDst pSrc : DvpImageT) (ts : List (Transfer Nat UInt8)) :
    Prop where
  luma : ∀ (mem : Nat → UInt8), ∀ x < pSrc.width, ∀ y < pSrc.height,
    run mem ts (lumaAddress a pDst x y) = mem (lumaAddress a pSrc x y)
  chroma : pSrc.color ∈ [fourccYvyu, fourccYuy2] →
    ∀ (mem : Nat → UInt8), ∀ x < pSrc.width, ∀ y < pSrc.height,
      run mem ts (macroAddress a pDst x y + uByte pDst.color) =
          mem (macroAddress a pSrc x y + uByte pSrc.color) ∧
        run mem ts (macroAddress a pDst x y + vByte pDst.color) =
          mem (macroAddress a pSrc x y + vByte pSrc.color)
  reads_src : ∀ ptr ∈ reads ts, ptr ∈ patchAddresses a pSrc
  keeps : ∀ (mem : Nat → UInt8), ∀ ptr ∉ patchAddresses a pDst, run mem ts ptr = mem ptr

namespace Conversion

variable (h : Conversion a pDst pSrc dstBlock srcBlock)
include h

/-- The bytes of a pixel of the source are written. -/
theorem luma_lt {x : Nat} (hx : x < pSrc.width.toNat) :
    x * pDst.xStride.toNat + lumaByte pDst.color <
      convertedBytes pDst.color pSrc.width.toNat := by
  have hluma : lumaByte pDst.color < pDst.xStride.toNat := by
    rw [h.dst_xStride]
    by_cases hd : pDst.color = fourccY800
    · rw [hd]
      decide
    · obtain ⟨-, htwo, hluma⟩ := packed_bytes (h.dst_packed hd)
      rwa [htwo]
  -- the bytes of a pixel end where those of the next one start
  have hnext : x * pDst.xStride.toNat + pDst.xStride.toNat ≤
      pSrc.width.toNat * pDst.xStride.toNat := by
    rw [← Nat.succ_mul]
    exact Nat.mul_le_mul_right _ hx
  have hle : pSrc.width.toNat * pDst.xStride.toNat ≤
      convertedBytes pDst.color pSrc.width.toNat := by
    rw [h.convertedBytes_eq]
    split_ifs
    · exact le_rfl
    · exact Nat.mul_le_mul_right _ (by omega)
  omega

/-- A pixel of the source is a pixel of the target. -/
theorem dst_pixel {x y : BitVec 32} (hx : x < pSrc.width) (hy : y < pSrc.height) :
    x < pDst.width ∧ y < pDst.height :=
  ⟨BitVec.lt_def.mpr ((BitVec.lt_def.mp hx).trans_le (BitVec.le_def.mp h.width_le)),
    BitVec.lt_def.mpr ((BitVec.lt_def.mp hy).trans_le (BitVec.le_def.mp h.height_le))⟩

/-- The address of a macro pixel, between packed colours. -/
theorem macroAddress_eq (hpacked : pSrc.color ∈ [fourccYvyu, fourccYuy2]) {x y : BitVec 32}
    (hx : x < pSrc.width) (hy : y < pSrc.height) :
    macroAddress a pDst x y = patchLine a pDst 0 y.toNat + 4 * (x.toNat / 2) ∧
      macroAddress a pSrc x y = patchLine a pSrc 0 y.toNat + 4 * (x.toNat / 2) := by
  have hbytes : pDst.xStride.toNat = 2 ∧ pSrc.xStride.toNat = 2 := by
    rw [h.dst_xStride, h.src_xStride]
    have hd800 : pDst.color ≠ fourccY800 := by
      rcases (h.packed_cases hpacked).1 with hd | hd <;> rw [hd] <;> decide
    exact ⟨(packed_bytes (h.dst_packed hd800)).2.1, (packed_bytes (yxyx_bytes hpacked).1).2.1⟩
  have hxlt := x.isLt
  have hmacro : (x / 2 * 2).toNat = x.toNat / 2 * 2 := by
    rw [BitVec.toNat_mul, BitVec.toNat_udiv, Nat.mod_eq_of_lt]
    · rfl
    · show x.toNat / 2 * 2 < _
      omega
  -- the first pixel of the macro pixel is not behind the pixel, so it is in the patch
  have hstart : x / 2 * 2 < pSrc.width := by
    have hx' := BitVec.lt_def.mp hx
    rw [BitVec.lt_def, hmacro]
    omega
  obtain ⟨hxdst, hydst⟩ := h.dst_pixel hstart hy
  unfold macroAddress
  rw [h.dst.pixelAddress h.not_bin.1 hxdst hydst, h.src.pixelAddress h.not_bin.2 hstart hy, hmacro,
    hbytes.1, hbytes.2]
  constructor <;> omega

variable (hts : ConvertsBy a pDst pSrc ts)
include hts

/-- The luma of every pixel of the patch is copied. -/
theorem luma_preserved (hok : pDst.color = fourccY800 ∨ 2 ∣ pSrc.width.toNat ∨ pSrc.height = 0)
    {x y : BitVec 32} (hx : x < pSrc.width) (hy : y < pSrc.height) :
    run mem ts (lumaAddress a pDst x y) = mem (lumaAddress a pSrc x y) := by
  obtain ⟨hxdst, hydst⟩ := h.dst_pixel hx hy
  unfold lumaAddress
  rw [h.dst.pixelAddress h.not_bin.1 hxdst hydst, h.src.pixelAddress h.not_bin.2 hx hy,
    Nat.add_assoc, Nat.add_assoc]
  exact h.run_convert hok hts (BitVec.lt_def.mp hy) (h.luma_lt (BitVec.lt_def.mp hx))
    (h.origin_luma x.toNat)

/-- The chroma of every pixel of the patch is copied. -/
theorem chroma_preserved (hok : pDst.color = fourccY800 ∨ 2 ∣ pSrc.width.toNat ∨ pSrc.height = 0)
    (hpacked : pSrc.color ∈ [fourccYvyu, fourccYuy2]) {x y : BitVec 32} (hx : x < pSrc.width)
    (hy : y < pSrc.height) :
    run mem ts (macroAddress a pDst x y + uByte pDst.color) =
        mem (macroAddress a pSrc x y + uByte pSrc.color) ∧
      run mem ts (macroAddress a pDst x y + vByte pDst.color) =
        mem (macroAddress a pSrc x y + vByte pSrc.color) := by
  obtain ⟨hdst, hsrc⟩ := h.macroAddress_eq hpacked hx hy
  obtain ⟨hu, hv⟩ := h.origin_chroma hpacked (x.toNat / 2)
  have hx' := BitVec.lt_def.mp hx
  -- the macro pixel of a pixel of the source is written
  have hlt : ∀ b < 4, 4 * (x.toNat / 2) + b < convertedBytes pDst.color pSrc.width.toNat := by
    have hd800 : pDst.color ≠ fourccY800 := by
      rcases (h.packed_cases hpacked).1 with hd | hd <;> rw [hd] <;> decide
    intro b hb
    rw [convertedBytes, if_neg hd800]
    omega
  have hbytes := chroma_lt pDst.color
  rw [hdst, hsrc, Nat.add_assoc, Nat.add_assoc, Nat.add_assoc, Nat.add_assoc]
  exact ⟨h.run_convert hok hts (BitVec.lt_def.mp hy) (hlt _ hbytes.1) hu,
    h.run_convert hok hts (BitVec.lt_def.mp hy) (hlt _ hbytes.2) hv⟩

end Conversion

/-- Two lines of an even number of packed pixels, and an image for them. -/
def packedYuy2 : DvpImageT :=
  dvpImageAlloc (dvpImageInit 2 2 fourccYuy2) 0 (fun _ => 4096) [2, 4]

/-- A VYUY image that the YUY2 image is converted to. -/
def packedVyuy : DvpImageT :=
  dvpImageAlloc (dvpImageInit 4 2 fourccVyuy) 0 (fun _ => 8192) [2, 16]

/-- Three pixels of luma, and an image for them. -/
def threeY800 : DvpImageT :=
  dvpImageAlloc (dvpImageInit 3 1 fourccY800) 0 (fun _ => 4096) [1, 3]

/-- A UYVY image that is three pixels wide. -/
def threeUyvy : DvpImageT :=
  dvpImageAlloc (dvpImageInit 3 1 fourccUyvy) 0 (fun _ => 8192) [2, 6]

end DVP.Kgraph
