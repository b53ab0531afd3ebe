import DVP.Kgraph.ImagePlaced

/-!
# Validation and access

`DVP_Image_Validate` tests where the patch of an image starts, and access depends on its dimensions
too.

* `samplesInside_iff`: the samples of a valid image lie in their planes exactly when the last one of
  every plane does, and in the planes that are larger than what 32 bits count, when the last one of
  every line does.
-/

namespace DVP.Kgraph

open Sosal

variable {a : Arch} {image : DvpImageT} {bufAlign : BitVec 32} {p : Nat}

/-- Every sample of the patch starts in the address space and lies in the range of its plane. -/
def SamplesInside (a : Arch) (image : DvpImageT) : Prop :=
  ∀ p < image.planes.toNat, ∀ x < image.width, ∀ y < image.height,
    image.pData p + (dvpImagePatchOffset image.shape x y p).toNat < a.size ∧
      image.pBuffer p ≤ dvpImagePatchAddressing a image x y p ∧
      dvpImagePatchAddressing a image x y p + image.shape.sampleBytes p ≤
        image.pBuffer p + (dvpImagePlaneRange image.shape p).toNat

/-! ## What is validated -/

/-- A valid plane: its data starts in its range, which lies in the address space. -/
structure PlaneValid (a : Arch) (image : DvpImageT) (p : Nat) : Prop where
  buffer_le : image.pBuffer p ≤ image.pData p
  data_lt : image.pData p < image.pBuffer p + (dvpImagePlaneRange image.shape p).toNat
  range_lt : image.pBuffer p + (dvpImagePlaneRange image.shape p).toNat < a.size

theorem validatePlane_valid (h : validatePlane a image bufAlign p = true) :
    PlaneValid a image p := by
  unfold validatePlane at h
  dsimp only at h
  split_ifs at h with hnull halign hbounds
  all_goals
    obtain ⟨hlo, hhi⟩ := hbounds
    have hrange := (dvpImagePlaneRange image.shape p).isLt
    have hsize := a.size_ge
    -- an end of the range that wraps would be below its start
    have hlt : image.pBuffer p + (dvpImagePlaneRange image.shape p).toNat < a.size := by
      unfold Arch.add at hhi
      have hbuffer : image.pBuffer p < a.size :=
        (hlo.trans_lt hhi).trans (Nat.mod_lt _ a.size_pos)
      by_contra hge
      rw [Nat.mod_eq_sub_mod (Nat.not_lt.mp hge), Nat.mod_eq_of_lt (by omega)] at hhi
      omega
    rw [Arch.add_of_lt hlt] at hhi
    exact ⟨hlo, hhi, hlt⟩

/-- A valid image has samples, and its planes are valid. -/
structure ImageValid (a : Arch) (image : DvpImageT) : Prop where
  width_ne : image.width ≠ 0
  height_ne : image.height ≠ 0
  xStride_ne : image.xStride ≠ 0
  planes : ∀ p < image.planes.toNat, PlaneValid a image p

theorem dvpImageValidate_valid
    {mtypeMax strideMultiple widthMultiple heightMultiple numColors : BitVec 32}
    {colors : Option (Nat → BitVec 32)}
    (h : dvpImageValidate a image mtypeMax bufAlign strideMultiple widthMultiple heightMultiple
      colors numColors = true) : ImageValid a image := by
  unfold dvpImageValidate at h
  split_ifs at h with hzero hattribute hmultiple hplanes
  all_goals
    simp only [not_or] at hattribute
    obtain ⟨-, hwidth, hheight, -, -, -, -, -, hx, -⟩ := hattribute
    refine ⟨hwidth, hheight, hx, fun p hp => ?_⟩
    rw [List.all_eq_true] at hplanes
    exact validatePlane_valid (hplanes p (List.mem_range.mpr hp))

/-! ## The samples of a valid image -/

/-- The last line of a plane of the patch. -/
def lastLine (image : DvpImageT) (p : Nat) : Nat :=
  (image.height.toNat - 1) / (dvpImageHeightDiv image.shape p).toNat

/-- The last sample of a line of the patch. -/
def lastSample (image : DvpImageT) (p : Nat) : Nat :=
  (image.width.toNat - 1) / (dvpImageWidthDiv image.shape p).toNat

/-- The bytes of the samples of a line of the patch, with a sample that is there in part only. -/
def touchedBytes (image : DvpImageT) (p : Nat) : Nat :=
  lastSample image p * image.shape.sampleBytes p + image.shape.sampleBytes p

/-- The last sample of the plane ends in its range. If the plane is larger than what 32 bits count,
so that its range and the offsets of its lines wrap, the last sample of every line does. -/
def LastSampleInside (image : DvpImageT) (p : Nat) : Prop :=
  let range := (dvpImageLineRange image.shape p).toNat
  let start := image.pData p - image.pBuffer p
  if image.bufHeight.toNat * range < 2 ^ 32 then
    start + lastLine image p * range + touchedBytes image p ≤
      (dvpImagePlaneRange image.shape p).toNat
  else
    ∀ i ≤ lastLine image p, start + i * range % 2 ^ 32 + touchedBytes image p ≤
      (dvpImagePlaneRange image.shape p).toNat

/-- The offset of a sample, which wraps. -/
theorem patchOffset_toNat {x y : BitVec 32} (hp : p < image.planes.toNat) (hx : x < image.width)
    (hy : y < image.height) :
    (dvpImagePatchOffset image.shape x y p).toNat =
      (y.toNat / (dvpImageHeightDiv image.shape p).toNat *
          (dvpImageLineRange image.shape p).toNat % 2 ^ 32 +
        x.toNat / (dvpImageWidthDiv image.shape p).toNat * image.shape.sampleBytes p) % 2 ^ 32 := by
  have hoffset : dvpImagePatchOffset image.shape x y p =
      y / dvpImageHeightDiv image.shape p * dvpImageLineRange image.shape p +
        x / dvpImageWidthDiv image.shape p *
          (image.shape.xStride * dvpImageWidthStep image.shape p) := if_pos ⟨hp, hx, hy⟩
  rw [hoffset, BitVec.toNat_add, BitVec.toNat_mul, BitVec.toNat_mul, BitVec.toNat_mul,
    BitVec.toNat_udiv, BitVec.toNat_udiv, Nat.mul_mod_mod, Nat.add_mod_mod]
  rfl

/-- A sample of the patch starts in the address space and lies in the range of its plane. -/
def SampleInside (a : Arch) (image : DvpImageT) (p : Nat) (x y : BitVec 32) : Prop :=
  image.pData p + (dvpImagePatchOffset image.shape x y p).toNat < a.size ∧
    image.pBuffer p ≤ dvpImagePatchAddressing a image x y p ∧
    dvpImagePatchAddressing a image x y p + image.shape.sampleBytes p ≤
      image.pBuffer p + (dvpImagePlaneRange image.shape p).toNat

/-- A sample lies inside when it ends in the range, counted from the start of the plane. -/
theorem PlaneValid.sample_inside_iff (h : PlaneValid a image p) (hp : p < image.planes.toNat)
    {x y : BitVec 32} :
    SampleInside a image p x y ↔
      image.pData p - image.pBuffer p + (dvpImagePatchOffset image.shape x y p).toNat +
        image.shape.sampleBytes p ≤ (dvpImagePlaneRange image.shape p).toNat := by
  have hlo := h.buffer_le
  have hrange := h.range_lt
  have haddress : image.pData p + (dvpImagePatchOffset image.shape x y p).toNat < a.size →
      dvpImagePatchAddressing a image x y p =
        image.pData p + (dvpImagePatchOffset image.shape x y p).toNat := by
    intro hlt
    unfold dvpImagePatchAddressing
    dsimp only
    rw [if_pos hp, Arch.add_of_lt hlt]
  constructor
  · rintro ⟨hlt, -, hend⟩
    rw [haddress hlt] at hend
    omega
  · intro hend
    have hlt : image.pData p + (dvpImagePatchOffset image.shape x y p).toNat < a.size := by
      omega
    rw [SampleInside, haddress hlt]
    exact ⟨hlt, by omega, by omega⟩

/-- The quotients of the numbers below a number are those up to the quotient of the last one. -/
theorem forall_udiv_iff {n d : BitVec 32} (hn : n ≠ 0) (hd : 0 < d.toNat) {P : Nat → Prop} :
    (∀ x < n, P (x.toNat / d.toNat)) ↔ ∀ j ≤ (n.toNat - 1) / d.toNat, P j := by
  have hpos : 0 < n.toNat := Nat.pos_of_ne_zero fun hzero => hn (BitVec.eq_of_toNat_eq hzero)
  constructor
  · intro h j hj
    -- the first number with this quotient
    have hfirst : j * d.toNat ≤ n.toNat - 1 :=
      (Nat.mul_le_mul_right _ hj).trans (Nat.div_mul_le_self _ _)
    have hlt := n.isLt
    have hx : (BitVec.ofNat 32 (j * d.toNat)).toNat = j * d.toNat := by
      rw [BitVec.toNat_ofNat, Nat.mod_eq_of_lt (by omega)]
    have hthis := h (BitVec.ofNat 32 (j * d.toNat)) (by rw [BitVec.lt_def, hx]; omega)
    rwa [hx, Nat.mul_div_cancel _ hd] at hthis
  · intro h x hx
    have hlt := BitVec.lt_def.mp hx
    exact h _ (Nat.div_le_div_right (by omega))

/-- The samples of a plane in lines and columns, with the offsets that the code computes. -/
theorem ImageValid.samples_inside_iff (h : ImageValid a image) (hp : p < image.planes.toNat) :
    (∀ x < image.width, ∀ y < image.height, SampleInside a image p x y) ↔
      ∀ i ≤ lastLine image p, ∀ j ≤ lastSample image p,
        image.pData p - image.pBuffer p +
          (i * (dvpImageLineRange image.shape p).toNat % 2 ^ 32 +
            j * image.shape.sampleBytes p) % 2 ^ 32 + image.shape.sampleBytes p ≤
          (dvpImagePlaneRange image.shape p).toNat := by
  have hplane := h.planes p hp
  unfold lastLine lastSample
  rw [← forall_udiv_iff h.height_ne DvpImage.heightDiv_pos]
  constructor
  · intro hall y hy
    rw [← forall_udiv_iff h.width_ne DvpImage.widthDiv_pos]
    intro x hx
    have hsample := (hplane.sample_inside_iff hp).mp (hall x hx y hy)
    rwa [patchOffset_toNat hp hx hy] at hsample
  · intro hall x hx y hy
    rw [hplane.sample_inside_iff hp, patchOffset_toNat hp hx hy]
    exact (forall_udiv_iff h.width_ne DvpImage.widthDiv_pos).mpr (hall y hy) x hx

/-- The samples of a plane lie inside when the last one does. -/
theorem ImageValid.plane_inside_iff (h : ImageValid a image) (hp : p < image.planes.toNat) :
    (∀ x < image.width, ∀ y < image.height, SampleInside a image p x y) ↔
      LastSampleInside image p := by
  have hrange := (dvpImagePlaneRange image.shape p).isLt
  -- of a line, only the last sample counts
  have hlines : ∀ i, (∀ j ≤ lastSample image p,
      image.pData p - image.pBuffer p +
        (i * (dvpImageLineRange image.shape p).toNat % 2 ^ 32 +
          j * image.shape.sampleBytes p) % 2 ^ 32 + image.shape.sampleBytes p ≤
        (dvpImagePlaneRange image.shape p).toNat) ↔
      image.pData p - image.pBuffer p + i * (dvpImageLineRange image.shape p).toNat % 2 ^ 32 +
        touchedBytes image p ≤ (dvpImagePlaneRange image.shape p).toNat := by
    intro i
    rw [forall_cell_le_iff (Nat.mod_lt _ (by decide)) hrange]
    unfold touchedBytes
    rw [Nat.add_assoc, Nat.add_assoc, Nat.add_assoc]
  rw [h.samples_inside_iff hp]
  simp only [hlines]
  unfold LastSampleInside
  dsimp only
  split_ifs with hfits
  · -- of a plane that 32 bits count, only the last line does
    apply forall_row_le_iff ?_ ?_ hfits
    · have hcell : 0 < image.shape.sampleBytes p :=
        Nat.mul_pos (Nat.pos_of_ne_zero fun hzero => h.xStride_ne (BitVec.eq_of_toNat_eq hzero))
          widthStep_pos
      exact Nat.lt_of_lt_of_le hcell (Nat.le_add_left _ _)
    · have hrangeEq : dvpImagePlaneRange image.shape p =
          dvpImageLineRange image.shape p * image.bufHeight /
            dvpImageHeightDiv image.shape p := if_pos hp
      rw [hrangeEq, BitVec.toNat_udiv, BitVec.toNat_mul, Nat.mul_comm image.bufHeight.toNat]
      exact (Nat.div_le_self _ _).trans (Nat.mod_le _ _)
  · exact Iff.rfl

/-- A valid image can be accessed exactly when the last samples of its planes lie inside. -/
theorem samplesInside_iff (a : Arch) (image : DvpImageT)
    (mtypeMax bufAlign strideMultiple widthMultiple heightMultiple : BitVec 32)
    (colors : Option (Nat → BitVec 32)) (numColors : BitVec 32)
    (hvalid : dvpImageValidate a image mtypeMax bufAlign strideMultiple widthMultiple
      heightMultiple colors numColors = true) :
    SamplesInside a image ↔ ∀ p < image.planes.toNat, LastSampleInside image p := by
  have h := dvpImageValidate_valid hvalid
  exact forall_congr' fun p => forall_congr' fun hp => h.plane_inside_iff hp

theorem samplesInside_iff_nv12 :
    SamplesInside .arch32 placedNv12 ↔
      ∀ p < placedNv12.planes.toNat, LastSampleInside placedNv12 p :=
  samplesInside_iff .arch32 placedNv12 10 4 1 8 1 none 0 (by decide)

/-- An image in a buffer of eight lines of eight pixels, whose patch is twice as wide. -/
def wideY800 : DvpImageT :=
  { dvpImageAlloc (dvpImageInit 8 8 fourccY800) 0 (fun _ => 4096) [1, 8] with width := 16 }

/-- The patch is valid, since it starts in the buffer, and its last pixels lie behind the buffer. -/
theorem dvpImageValidate_not_sufficient :
    dvpImageValidate .arch32 wideY800 10 1 1 8 1 (some fun _ => fourccY800) 1 = true ∧
      dvpImagePatchAddressing .arch32 wideY800 15 7 0 = 4096 + 71 ∧
      dvpImagePlaneRange wideY800.shape 0 = 64 ∧ ¬SamplesInside .arch32 wideY800 := by
  refine ⟨by decide, by decide, by decide, fun h => ?_⟩
  have hlast := (h 0 (by decide) 15 (by decide) 7 (by decide)).2.2
  exact absurd hlast (by decide)

end DVP.Kgraph
