import DVP.Lib.Bytes
import DVP.Sosal.Image.Bounds
import Mathlib.Data.Set.Function

/-!
# Comparing images

The functions of `source/tools/imgDiff/imgcomp.c`. The memory of an image is a function of the places
that `imageBack` answers: a block and an offset in it.

* `numDiff_eq_zero_iff`: `fic_compare` counts no difference exactly when the bytes it looks at are equal.
* `comparesImages_iff`: `fic_read` places the bytes of a frame in order only when there are none, and what
  `fic_compare` looks at is the whole frame only for some colours.
-/

namespace DVP.Sosal

open Bytes

/-! ## Reading -/

/-- `fic_t`, with the memory of the image, and what is left of the file. -/
structure FicT where
  image : ImageT
  mem : Nat × Nat → UInt8
  file : Option (List UInt8)

/-- `fic_open` for a file that opens, with the numbers of its name. -/
def ficOpen (width height : Nat) (color : Fourcc) (content : List UInt8) : FicT where
  image := imageAllocate width height color
  -- `calloc`
  mem _ := 0
  file := some content

/-- What changes while a frame is read. The writes are the places that were stored to. -/
structure Reading where
  mem : Nat × Nat → UInt8
  file : List UInt8
  bytes : Nat
  writes : List (Nat × Nat)

/-- `bytes += fread(ptr, 1, size, fic->file)`. -/
def Reading.fread (r : Reading) (ptr : Nat × Nat) (size : Nat) : Reading :=
  let data := r.file.take size
  { mem := fun a => if a.1 = ptr.1 then poke (fun o => r.mem (ptr.1, o)) ptr.2 data a.2 else r.mem a
    file := r.file.drop size
    bytes := r.bytes + data.length
    writes := r.writes ++ (List.range data.length).map fun k => (ptr.1, ptr.2 + k) }

/-- The body of the loops of `fic_read`. The pixel is that of plane `0` in column `y` and line `p`. -/
def readLine (img : ImageT) (p : Nat) (r : Reading) (y : Nat) : Reading :=
  let ptr := imageBack img 0 (imagePixel (img.plane 0) y p)
  let size := (img.plane p).xdim * (img.plane p).xstride
  r.fread ptr size

/-- The number of lines of a plane, as both functions loop over them. -/
def ImageT.lines (img : ImageT) (p : Nat) : Nat := (img.plane p).ydim / (img.plane p).yscale

/-- What `fic_read` answers. -/
structure FicRead where
  fic : FicT
  bytes : Nat
  writes : List (Nat × Nat)

/-- `fic_read`. -/
def ficRead (fic : FicT) : FicRead :=
  match fic.file with
  | none => ⟨fic, 0, []⟩
  | some file =>
    let r := (List.range fic.image.numPlanes).foldl (fun r p =>
      (List.range (fic.image.lines p)).foldl (readLine fic.image p) r) ⟨fic.mem, file, 0, []⟩
    ⟨{ fic with mem := r.mem, file := some r.file }, r.bytes, r.writes⟩

/-! ## Comparing -/

/-- `fic_compare_t`. -/
structure FicCompareT where
  numDiff : Nat
  maxDiff : Int
  range : Nat
  sumDiff : Nat

/-- What is done with the values of two pixels. -/
def FicCompareT.add (data : FicCompareT) (pref pcmp : Nat) : FicCompareT :=
  if pref ≠ pcmp then
    let diff : Int := pcmp - pref
    { data with
      numDiff := data.numDiff + 1
      sumDiff := data.sumDiff + diff.natAbs
      maxDiff := if data.maxDiff.natAbs < diff.natAbs then diff else data.maxDiff }
  else data

/-- The number of `n` bytes from `image_pixel(fic->image, p, x, y)` on. -/
def FicT.value (fic : FicT) (p x y n : Nat) : Nat :=
  let ptr := imageBack fic.image p (imagePixel (fic.image.plane p) x y)
  ofLE (peek (fun o => fic.mem (ptr.1, o)) ptr.2 n)

/-- The `switch` of `fic_compare`. -/
def comparePixel (ref cmp : FicT) (p y : Nat) (data : FicCompareT) (x : Nat) : FicCompareT :=
  match (ref.image.plane p).xstride with
  | 1 => data.add (ref.value p x y 1) (cmp.value p x y 1)
  -- macro pixel or single
  | 2 => data.add (ref.value p x y 2) (cmp.value p x y 2)
  | _ => data

/-- The loops of `fic_compare` over a plane. -/
def comparePlane (ref cmp : FicT) (data : FicCompareT) (p : Nat) : FicCompareT :=
  let plane := ref.image.plane p
  -- range is in units
  let data := { data with range := data.range + plane.xdim * plane.ydim }
  (List.range (ref.image.lines p)).foldl (fun data y =>
    (steps (plane.xdim / plane.xscale) plane.xstep).foldl (comparePixel ref cmp p y) data) data

/-- `fic_compare`, with what it leaves in `data`. -/
def ficCompare (ref cmp : FicT) : FicCompareT :=
  let data : FicCompareT := ⟨0, 0, 0, 0⟩
  if ref.image.color = cmp.image.color ∧ (ref.image.plane 0).xdim = (cmp.image.plane 0).xdim ∧
      (ref.image.plane 0).ydim = (cmp.image.plane 0).ydim then
    (List.range ref.image.numPlanes).foldl (comparePlane ref cmp) data
  else data

/-! ## Frames -/

namespace ImageT

variable (img : ImageT)

/-- The number of bytes of a line. -/
def lineBytes (p : Nat) : Nat := (img.plane p).xdim * (img.plane p).xstride

/-- The place of byte `k` of a line. -/
def place (p y k : Nat) : Nat × Nat := imageBack img p (y * (img.plane p).ystride + k)

/-- Where the bytes of a plane start in a file of one frame. -/
def planeStart (p : Nat) : Nat := ((List.range p).map fun q => img.lines q * img.lineBytes q).sum

/-- The number of bytes of a frame. -/
def frameBytes : Nat := img.planeStart img.numPlanes

/-- The places of the bytes of a frame. -/
def framePlaces : Set (Nat × Nat) :=
  {a | ∃ p < img.numPlanes, ∃ y < img.lines p, ∃ k < img.lineBytes p, a = img.place p y k}

/-- The places of the bytes of the planes. -/
def planePlaces : Set (Nat × Nat) :=
  {a | ∃ p < img.numPlanes, ∃ i < (img.plane p).numBytes, a = imageBack img p i}

/-- The number of bytes that the `switch` of `fic_compare` looks at. -/
def valueBytes (p : Nat) : Nat :=
  match (img.plane p).xstride with
  | 1 => 1
  | 2 => 2
  | _ => 0

/-- The places of the bytes that `fic_compare` looks at. -/
def comparedPlaces : Set (Nat × Nat) :=
  {a | ∃ p < img.numPlanes, ∃ y < img.lines p,
    ∃ x ∈ steps ((img.plane p).xdim / (img.plane p).xscale) (img.plane p).xstep,
      ∃ k < img.valueBytes p, a = imageBack img p (imagePixel (img.plane p) x y + k)}

end ImageT

/-- The bytes of the file are in the planes in file order: plane by plane and line by line. -/
def InFileOrder (img : ImageT) (mem : Nat × Nat → UInt8) (file : List UInt8) : Prop :=
  ∀ p < img.numPlanes, ∀ y < img.lines p, ∀ k < img.lineBytes p,
    file[img.planeStart p + y * img.lineBytes p + k]? = some (mem (img.place p y k))

/-- No difference is counted exactly when every sample of every plane is equal. -/
def CountsDifferences (ref cmp : FicT) : Prop :=
  (ficCompare ref cmp).numDiff = 0 ↔ Set.EqOn ref.mem cmp.mem ref.image.framePlaces

/-- Files of one frame are read into the planes in file order, and compared. -/
def ComparesImages (width height : Nat) (color : Fourcc) : Prop :=
  ∀ file file' : List UInt8, file.length = (imageAllocate width height color).frameBytes →
    file'.length = (imageAllocate width height color).frameBytes →
      let ref := ficRead (ficOpen width height color file)
      let cmp := ficRead (ficOpen width height color file')
      (InFileOrder ref.fic.image ref.fic.mem file ∧ InFileOrder cmp.fic.image cmp.fic.mem file') ∧
        ((∀ a ∈ ref.writes, a ∈ ref.fic.image.planePlaces) ∧
          ∀ a ∈ cmp.writes, a ∈ cmp.fic.image.planePlaces) ∧
        CountsDifferences ref.fic cmp.fic

/-- When `fic_compare` looks at every byte of a frame. -/
def ComparesWholeFrame (width height : Nat) : Fourcc → Prop
  | .rgbp | .yu24 | .yv24 | .y800 => True
  -- the stride is not looked at
  | .bgr | .rgb => width = 0 ∨ height = 0
  -- half of a macro pixel is not looked at
  | .uyvy | .yuy2 => width = 0 ∨ height = 0
  -- the scales of the chroma are applied twice
  | .nv12 => width = 0 ∨ height = 0
  | .iyuv | .yv12 => width < 4

variable {w h p y k o : Nat} {color : Fourcc} {img : ImageT} {r : Reading} {ref cmp : FicT}
  {data : FicCompareT}

/-! ## What is compared -/

/-- A loop counts nothing when each of its rounds counts nothing. -/
theorem numDiff_foldl {ι : Type} {f : FicCompareT → ι → FicCompareT} {P : ι → Prop}
    (hf : ∀ data i, (f data i).numDiff = 0 ↔ data.numDiff = 0 ∧ P i) {is : List ι} :
    (is.foldl f data).numDiff = 0 ↔ data.numDiff = 0 ∧ ∀ i ∈ is, P i := by
  induction is generalizing data with
  | nil => simp
  | cons i is ih => rw [List.foldl_cons, ih, hf, List.forall_mem_cons, and_assoc]

/-- No difference is counted for two values exactly when they are equal. -/
theorem numDiff_add {a b : Nat} : (data.add a b).numDiff = 0 ↔ data.numDiff = 0 ∧ a = b := by
  unfold FicCompareT.add
  by_cases hab : a = b <;> simp [hab]

/-- Bytes of one length are the same when the numbers are. -/
theorem ofLE_inj {bs cs : List UInt8} (hlength : bs.length = cs.length) :
    ofLE bs = ofLE cs ↔ bs = cs := by
  constructor
  · intro h
    rw [← toLE_ofLE bs, ← toLE_ofLE cs, hlength, h]
  · exact congrArg ofLE

/-- Further bytes of a plane are in the same block. -/
theorem imageBack_add {i : Nat} :
    imageBack img p (i + k) = ((imageBack img p i).1, (imageBack img p i).2 + k) := by
  unfold imageBack
  split
  · rw [Nat.add_assoc]
  · rfl

/-- The values of a pixel are equal when its bytes are. -/
theorem value_eq_iff {x n : Nat} (himg : ref.image = cmp.image) :
    ref.value p x y n = cmp.value p x y n ↔ ∀ k < n,
      ref.mem (imageBack ref.image p (imagePixel (ref.image.plane p) x y + k)) =
        cmp.mem (imageBack ref.image p (imagePixel (ref.image.plane p) x y + k)) := by
  unfold FicT.value
  rw [ofLE_inj (by rw [length_peek, length_peek]), ← himg]
  simp only [peek, List.map_inj_left, List.mem_range, imageBack_add]

/-- A pixel counts no difference when its bytes are equal. -/
theorem comparePixel_iff {x : Nat} (himg : ref.image = cmp.image) :
    (comparePixel ref cmp p y data x).numDiff = 0 ↔ data.numDiff = 0 ∧
      ∀ k < ref.image.valueBytes p,
        ref.mem (imageBack ref.image p (imagePixel (ref.image.plane p) x y + k)) =
          cmp.mem (imageBack ref.image p (imagePixel (ref.image.plane p) x y + k)) := by
  unfold comparePixel ImageT.valueBytes
  split
  · rw [numDiff_add, value_eq_iff himg]
  · rw [numDiff_add, value_eq_iff himg]
  · simp

/-- A plane counts no difference when the bytes of all pixels that are visited are equal. -/
theorem comparePlane_iff (himg : ref.image = cmp.image) :
    (comparePlane ref cmp data p).numDiff = 0 ↔ data.numDiff = 0 ∧
      ∀ y ∈ List.range (ref.image.lines p),
        ∀ x ∈ steps ((ref.image.plane p).xdim / (ref.image.plane p).xscale) (ref.image.plane p).xstep,
          ∀ k < ref.image.valueBytes p,
            ref.mem (imageBack ref.image p (imagePixel (ref.image.plane p) x y + k)) =
              cmp.mem (imageBack ref.image p (imagePixel (ref.image.plane p) x y + k)) := by
  unfold comparePlane
  rw [numDiff_foldl fun data y => numDiff_foldl fun data x => comparePixel_iff (x := x) (y := y) himg]

/-- No difference is counted exactly when the bytes that are looked at are equal. -/
theorem numDiff_eq_zero_iff (himg : ref.image = cmp.image) :
    (ficCompare ref cmp).numDiff = 0 ↔ Set.EqOn ref.mem cmp.mem ref.image.comparedPlaces := by
  unfold ficCompare
  rw [if_pos ⟨by rw [himg], by rw [himg], by rw [himg]⟩,
    numDiff_foldl fun data p => comparePlane_iff (p := p) himg]
  simp only [true_and, List.mem_range]
  constructor
  · rintro hall a ⟨p, hp, y, hy, x, hx, k, hk, rfl⟩
    exact hall p hp y hy x hx k hk
  · intro heq p hp y hy x hx k hk
    exact heq ⟨p, hp, y, hy, x, hx, k, hk, rfl⟩

/-! ## Which frames are compared -/

/-- Memories agree on two sets at the same time only when the sets are equal. -/
theorem forall_eqOn_iff {α : Type} {s t : Set α} :
    (∀ m m' : α → UInt8, Set.EqOn m m' s ↔ Set.EqOn m m' t) ↔ s = t := by
  classical
  have hsub : ∀ {s t : Set α}, (∀ m m' : α → UInt8, Set.EqOn m m' s → Set.EqOn m m' t) → t ⊆ s := by
    intro s t himp a ha
    by_contra hnot
    -- two memories of zeros, but for a one in the place
    have heq := himp (fun _ => 0) (Function.update (fun _ => 0) a 1) (fun b hb => by
      rw [Function.update_of_ne]
      rintro rfl
      exact hnot hb) ha
    rw [Function.update_self] at heq
    exact absurd (show (0 : UInt8) = 1 from heq) (by decide)
  constructor
  · intro hall
    exact (hsub fun m m' => (hall m m').mpr).antisymm (hsub fun m m' => (hall m m').mp)
  · rintro rfl m m'
    exact Iff.rfl

/-- The active planes are allocated. -/
theorem exists_allocatePlane (hp : p < (imageAllocate w h color).numPlanes) :
    ∃ xdim ydim xstep scale xstride, 0 < xstep ∧
      (imageAllocate w h color).plane p = allocatePlane xdim ydim xstep scale xstride := by
  rw [numPlanes_imageAllocate] at hp
  have hthree : (imageAllocate 0 0 color).numPlanes ≤ 3 := by cases color <;> decide
  have hsmall : p < 3 := hp.trans_le hthree
  interval_cases p <;> cases color <;>
    first
    | exact ⟨_, _, _, _, _, by decide, rfl⟩
    | exact absurd hp (by decide)

/-- A value is no longer than the step to the next pixel. -/
theorem valueBytes_le : img.valueBytes p ≤ (img.plane p).xstride := by
  unfold ImageT.valueBytes
  split <;> omega

/-- The bytes of a pixel that is looked at belong to its line. -/
theorem pixel_add_lt {xdim xstep scale xstride x : Nat} (hstep : 0 < xstep)
    (hx : x ∈ steps (xdim / scale) xstep) (hk : k < xstride) :
    xstride * (x / scale) + k < xdim * xstride := by
  have hx' : x < xdim / scale := ((mem_steps hstep).mp hx).1
  have hcolumn : x / scale + 1 ≤ xdim :=
    (Nat.div_le_self x scale).trans_lt (hx'.trans_le (Nat.div_le_self xdim scale))
  have hline : xstride * (x / scale + 1) ≤ xstride * xdim := Nat.mul_le_mul_left _ hcolumn
  rw [Nat.mul_succ, Nat.mul_comm xstride xdim] at hline
  exact (Nat.add_lt_add_left hk _).trans_le hline

/-- What is looked at belongs to the frame. -/
theorem comparedPlaces_subset (himg : img = imageAllocate w h color) :
    img.comparedPlaces ⊆ img.framePlaces := by
  rintro _ ⟨p, hp, y, hy, x, hx, k, hk, rfl⟩
  obtain ⟨xdim, ydim, xstep, scale, xstride, hstep, hplane⟩ := exists_allocatePlane (himg ▸ hp)
  rw [← himg] at hplane
  have hk' := hk.trans_le valueBytes_le
  rw [hplane] at hx hk'
  refine ⟨p, hp, y / scale, (Nat.div_le_self y scale).trans_lt hy, xstride * (x / scale) + k, ?_, ?_⟩
  · rw [ImageT.lineBytes, hplane]
    exact pixel_add_lt hstep hx hk'
  · rw [ImageT.place, hplane, ← Nat.add_assoc, Nat.mul_comm (y / scale)]
    rfl

/-- Differences are counted for all images exactly when all bytes of the frame are compared. -/
theorem countsDifferences_iff (himg : img = imageAllocate w h color) :
    (∀ ref cmp : FicT, ref.image = img → cmp.image = img → CountsDifferences ref cmp) ↔
      img.framePlaces ⊆ img.comparedPlaces := by
  have hsame : (∀ ref cmp : FicT, ref.image = img → cmp.image = img → CountsDifferences ref cmp) ↔
      img.comparedPlaces = img.framePlaces := by
    rw [← forall_eqOn_iff]
    constructor
    · intro hall m m'
      have hcounts : (ficCompare ⟨img, m, none⟩ ⟨img, m', none⟩).numDiff = 0 ↔
          Set.EqOn m m' img.comparedPlaces := numDiff_eq_zero_iff rfl
      rw [← hcounts]
      exact hall _ _ rfl rfl
    · rintro hall ref cmp rfl hcmp
      rw [CountsDifferences, numDiff_eq_zero_iff hcmp.symm]
      exact hall _ _
  rw [hsame]
  exact ⟨fun h => h ▸ subset_rfl, (comparedPlaces_subset himg).antisymm⟩

/-- A plane of bytes in full resolution is looked at as a whole. -/
theorem place_mem_comparedPlaces {xdim ydim : Nat} (hp : p < img.numPlanes)
    (hplane : img.plane p = allocatePlane xdim ydim 1 1 1) (hy : y < img.lines p)
    (hk : k < img.lineBytes p) : img.place p y k ∈ img.comparedPlaces := by
  refine ⟨p, hp, y, hy, k, ?_, 0, ?_, ?_⟩
  · rw [ImageT.lineBytes, hplane] at hk
    have hk' : k < xdim * 1 := hk
    rw [Nat.mul_one] at hk'
    rw [hplane]
    show k ∈ steps (xdim / 1) 1
    rw [mem_steps Nat.one_pos, Nat.div_one]
    exact ⟨hk', one_dvd k⟩
  · rw [ImageT.valueBytes, hplane]
    exact Nat.one_pos
  · rw [ImageT.place, hplane]
    show imageBack img p (y * (xdim * 1) + k) = imageBack img p (xdim * 1 * (y / 1) + 1 * (k / 1) + 0)
    rw [Nat.div_one, Nat.div_one, Nat.one_mul, Nat.add_zero, Nat.mul_comm y]

/-- Different bytes of the planes have different places. -/
theorem imageBack_inj {q i j : Nat} (hi : i < (img.plane p).ydim * (img.plane p).ystride)
    (hj : j < (img.plane q).ydim * (img.plane q).ystride)
    (heq : imageBack img p i = imageBack img q j) : p = q ∧ i = j := by
  unfold imageBack at heq
  split_ifs at heq with hp hq hq
  · obtain ⟨-, hoffset⟩ := Prod.mk.inj heq
    exact ⟨hp.2.trans hq.2.symm, by omega⟩
  -- the first plane of NV12 ends where the second one starts
  · obtain ⟨hblock, hoffset⟩ := Prod.mk.inj heq
    rw [← hblock] at hj
    omega
  · obtain ⟨hblock, hoffset⟩ := Prod.mk.inj heq
    rw [hblock] at hi
    omega
  · exact Prod.mk.inj heq

/-- A byte of the first line of a plane that is looked at belongs to a pixel of that line. -/
theorem exists_pixel_of_place {xdim ydim xstep scale xstride : Nat} (himg : img = imageAllocate w h color)
    (hplane : img.plane p = allocatePlane xdim ydim xstep scale xstride) (hstep : 0 < xstep)
    (hlines : 0 < ydim) (hk : k < xdim * xstride) (hmem : img.place p 0 k ∈ img.comparedPlaces) :
    ∃ x < xdim / scale, xstep ∣ x ∧ ∃ j < img.valueBytes p, k = xstride * (x / scale) + j := by
  obtain ⟨q, hq, y, hy, x, hx, j, hj, heq⟩ := hmem
  -- the byte that is looked at is one of the plane, too
  have hin : imagePixel (img.plane q) x y + j < (img.plane q).ydim * (img.plane q).ystride := by
    obtain ⟨xdim, ydim, xstep, scale, xstride, hstep, hplane⟩ := exists_allocatePlane (himg ▸ hq)
    rw [← himg] at hplane
    have hj' := hj.trans_le valueBytes_le
    rw [ImageT.lines, hplane] at hy
    rw [hplane] at hx hj' ⊢
    exact imagePixel_add_lt ((Nat.div_le_self y scale).trans_lt (hy.trans_le (Nat.div_le_self ydim scale)))
      (pixel_add_lt hstep hx hj')
  have hfirst : 0 * (img.plane p).ystride + k < (img.plane p).ydim * (img.plane p).ystride := by
    rw [hplane, Nat.zero_mul, Nat.zero_add]
    exact hk.trans_le (Nat.le_mul_of_pos_left _ hlines)
  obtain ⟨rfl, hoffset⟩ := imageBack_inj hfirst hin heq
  rw [hplane] at hx
  obtain ⟨hx, hdvd⟩ := (mem_steps hstep).mp hx
  rw [hplane, Nat.zero_mul, Nat.zero_add] at hoffset
  have hpixel : k = xdim * xstride * (y / scale) + xstride * (x / scale) + j := hoffset
  have hline : y / scale = 0 := by
    by_contra hne
    have hle := Nat.le_mul_of_pos_right (xdim * xstride) (Nat.pos_of_ne_zero hne)
    omega
  rw [hline, Nat.mul_zero, Nat.zero_add] at hpixel
  exact ⟨x, hx, hdvd, j, hj, hpixel⟩

/-- A byte of the first line that belongs to no pixel is not looked at. -/
theorem not_framePlaces_subset {xdim ydim xstep scale xstride : Nat} (himg : img = imageAllocate w h color)
    (hp : p < img.numPlanes) (hplane : img.plane p = allocatePlane xdim ydim xstep scale xstride)
    (hstep : 0 < xstep) (hlines : 0 < ydim / scale) (hk : k < xdim * xstride)
    (hno : ∀ x < xdim / scale, xstep ∣ x → ∀ j < img.valueBytes p, k ≠ xstride * (x / scale) + j) :
    ¬img.framePlaces ⊆ img.comparedPlaces := by
  intro hsubset
  have hframe : img.place p 0 k ∈ img.framePlaces := by
    refine ⟨p, hp, 0, ?_, k, ?_, rfl⟩
    · rwa [ImageT.lines, hplane]
    · rwa [ImageT.lineBytes, hplane]
  obtain ⟨x, hx, hdvd, j, hj, heq⟩ := exists_pixel_of_place himg hplane hstep
    (hlines.trans_le (Nat.div_le_self ydim scale)) hk (hsubset hframe)
  exact hno x hx hdvd j hj heq

/-- The planes of a frame without bytes. -/
theorem lines_or_lineBytes_eq_zero (hempty : w = 0 ∨ h = 0 ∧ color ∉ [.iyuv, .yv12])
    (hp : p < (imageAllocate w h color).numPlanes) :
    (imageAllocate w h color).lines p = 0 ∨ (imageAllocate w h color).lineBytes p = 0 := by
  rw [numPlanes_imageAllocate] at hp
  unfold ImageT.lines ImageT.lineBytes
  by_cases hcolor : color ∈ [.iyuv, .yv12]
  · have hw : w = 0 := hempty.elim id fun h => absurd hcolor h.2
    have hplanes : (imageAllocate 0 0 color).numPlanes = 3 := by
      simp only [List.mem_cons, List.not_mem_nil, or_false] at hcolor
      rcases hcolor with rfl | rfl <;> rfl
    right
    obtain rfl | hchroma : p = 0 ∨ p = 1 ∨ p = 2 := by omega
    · rw [plane_zero_imageAllocate hcolor, hw]
      rfl
    · rw [plane_chroma_imageAllocate hcolor hchroma, hw]
      rfl
  · obtain ⟨st, s, t, -, hplane⟩ := plane_imageAllocate hcolor hp
    rw [hplane w h]
    rcases hempty with rfl | ⟨rfl, -⟩
    · exact .inr (Nat.zero_mul t)
    · exact .inl (Nat.zero_div s)

/-- An empty frame has no bytes. -/
theorem framePlaces_eq_empty (hempty : w = 0 ∨ h = 0 ∧ color ∉ [.iyuv, .yv12]) :
    (imageAllocate w h color).framePlaces = ∅ := by
  rw [Set.eq_empty_iff_forall_notMem]
  rintro _ ⟨p, hp, y, hy, k, hk, rfl⟩
  rcases lines_or_lineBytes_eq_zero hempty hp with hzero | hzero
  · exact absurd hy (hzero ▸ Nat.not_lt_zero y)
  · exact absurd hk (hzero ▸ Nat.not_lt_zero k)

/-- A frame that has bytes is not looked at as a whole when a byte of its first line is not. -/
theorem framePlaces_subset_iff_empty (hw : 2 ∣ w) (hh : 2 ∣ h) (hcolor : color ∉ [.iyuv, .yv12])
    (hno : 2 ≤ w → 2 ≤ h → ¬(imageAllocate w h color).framePlaces ⊆
      (imageAllocate w h color).comparedPlaces) :
    (imageAllocate w h color).framePlaces ⊆ (imageAllocate w h color).comparedPlaces ↔ w = 0 ∨ h = 0 := by
  constructor
  · intro hsubset
    by_contra hne
    exact hno (by omega) (by omega) hsubset
  · intro hempty
    rw [framePlaces_eq_empty (hempty.imp_right fun h => ⟨h, hcolor⟩)]
    exact Set.empty_subset _

/-- Planes of bytes in full resolution are looked at as a whole. -/
theorem framePlaces_subset_planar {n : Nat} (hplanes : img.planes = List.replicate n (allocatePlane w h 1 1 1)) :
    img.framePlaces ⊆ img.comparedPlaces := by
  rintro _ ⟨p, hp, y, hy, k, hk, rfl⟩
  have hlt : p < n := by rwa [ImageT.numPlanes, hplanes, List.length_replicate] at hp
  have hplane : img.plane p = allocatePlane w h 1 1 1 := by
    rw [ImageT.plane, hplanes, List.getD_eq_getElem?_getD, List.getElem?_replicate_of_lt hlt, Option.getD_some]
  exact place_mem_comparedPlaces hp hplane hy hk

section Colours

variable (himg : img = imageAllocate w h color)
include himg

/-- Pixels of three bytes are not looked at. -/
theorem not_framePlaces_subset_interleaved (hplanes : 0 < img.numPlanes)
    (hplane : img.plane 0 = allocatePlane w h 1 1 3) (hw : 2 ≤ w) (hh : 2 ≤ h) :
    ¬img.framePlaces ⊆ img.comparedPlaces := by
  refine not_framePlaces_subset (k := 0) himg hplanes hplane Nat.one_pos (by omega) (by omega) ?_
  intro x hx hdvd j hj heq
  rw [ImageT.valueBytes, hplane] at hj
  exact absurd hj (Nat.not_lt_zero j)

/-- Of the four bytes of a macro pixel, two are looked at. -/
theorem not_framePlaces_subset_packed (hplanes : 0 < img.numPlanes)
    (hplane : img.plane 0 = allocatePlane w h 2 1 2) (hw : 2 ≤ w) (hh : 2 ≤ h) :
    ¬img.framePlaces ⊆ img.comparedPlaces := by
  refine not_framePlaces_subset (k := 2) himg hplanes hplane Nat.two_pos (by omega) (by omega) ?_
  intro x hx hdvd j hj heq
  rw [ImageT.valueBytes, hplane] at hj
  have hj' : j < 2 := hj
  omega

/-- A line of the chroma of NV12 is looked at up to a quarter. -/
theorem not_framePlaces_subset_nv12 (hplanes : 1 < img.numPlanes)
    (hplane : img.plane 1 = allocatePlane w h 1 2 2) (hw : 2 ≤ w) (hh : 2 ≤ h) :
    ¬img.framePlaces ⊆ img.comparedPlaces := by
  refine not_framePlaces_subset (k := w * 2 - 1) himg hplanes hplane Nat.one_pos (by omega) (by omega) ?_
  intro x hx hdvd j hj heq
  rw [ImageT.valueBytes, hplane] at hj
  have hj' : j < 2 := hj
  omega

/-- A line of the chroma of `IYUV` and `YV12` is looked at up to a quarter, if there is one. -/
theorem framePlaces_subset_chroma_iff (hcolor : color ∈ [.iyuv, .yv12]) (hplanes : img.numPlanes = 3) :
    img.framePlaces ⊆ img.comparedPlaces ↔ w < 4 := by
  have hchroma : ∀ p, p = 1 ∨ p = 2 → img.plane p = allocatePlane (w / 2) (w / 2) 1 2 1 := fun p hp =>
    himg ▸ plane_chroma_imageAllocate hcolor hp
  constructor
  · intro hsubset
    by_contra hle
    refine not_framePlaces_subset (p := 1) (k := w / 2 - 1) himg (by omega) (hchroma 1 (.inl rfl))
      Nat.one_pos (by omega) (by omega) ?_ hsubset
    intro x hx hdvd j hj heq
    rw [ImageT.valueBytes, hchroma 1 (.inl rfl)] at hj
    have hj' : j < 1 := hj
    omega
  · rintro hlt _ ⟨p, hp, y, hy, k, hk, rfl⟩
    obtain hluma | hp' : p = 0 ∨ p = 1 ∨ p = 2 := by omega
    · subst hluma
      exact place_mem_comparedPlaces hp (himg ▸ plane_zero_imageAllocate hcolor) hy hk
    -- small frames have no lines of chroma
    · rw [ImageT.lines, hchroma p hp'] at hy
      have hy' : y < w / 2 / 2 := hy
      omega

end Colours

/-- All bytes of a frame are compared for the colours whose planes are visited whole. -/
theorem framePlaces_subset_iff (hw : 2 ∣ w) (hh : 2 ∣ h) :
    (imageAllocate w h color).framePlaces ⊆ (imageAllocate w h color).comparedPlaces ↔
      ComparesWholeFrame w h color := by
  cases color with
  | rgbp => exact iff_of_true (framePlaces_subset_planar (n := 3) rfl) trivial
  | yu24 => exact iff_of_true (framePlaces_subset_planar (n := 3) rfl) trivial
  | yv24 => exact iff_of_true (framePlaces_subset_planar (n := 3) rfl) trivial
  | y800 => exact iff_of_true (framePlaces_subset_planar (n := 1) rfl) trivial
  | bgr =>
    exact framePlaces_subset_iff_empty hw hh (by decide)
      (not_framePlaces_subset_interleaved rfl Nat.one_pos rfl)
  | rgb =>
    exact framePlaces_subset_iff_empty hw hh (by decide)
      (not_framePlaces_subset_interleaved rfl Nat.one_pos rfl)
  | uyvy =>
    exact framePlaces_subset_iff_empty hw hh (by decide)
      (not_framePlaces_subset_packed rfl Nat.one_pos rfl)
  | yuy2 =>
    exact framePlaces_subset_iff_empty hw hh (by decide)
      (not_framePlaces_subset_packed rfl Nat.one_pos rfl)
  | nv12 =>
    exact framePlaces_subset_iff_empty hw hh (by decide)
      (not_framePlaces_subset_nv12 rfl Nat.one_lt_two rfl)
  | iyuv => exact framePlaces_subset_chroma_iff rfl (by decide) rfl
  | yv12 => exact framePlaces_subset_chroma_iff rfl (by decide) rfl

/-! ## What is read -/

/-- A read leaves the bytes in front of its place. -/
theorem fread_mem_of_lt {ptr a : Nat × Nat} {size : Nat} (hlt : a.2 < ptr.2) :
    (r.fread ptr size).mem a = r.mem a := by
  unfold Reading.fread
  dsimp only
  split_ifs with hblock
  · rw [poke_of_lt hlt, ← hblock]
  · rfl

/-- A read puts the bytes of the file one after the other. -/
theorem fread_mem_add {ptr : Nat × Nat} {size : Nat} {v : UInt8} (hk : k < size)
    (hfile : r.file[k]? = some v) : (r.fread ptr size).mem (ptr.1, ptr.2 + k) = v := by
  have hread : (r.file.take size)[k]? = some v := by rwa [List.getElem?_take_of_lt hk]
  obtain ⟨hlength, hv⟩ := List.getElem?_eq_some_iff.mp hread
  unfold Reading.fread
  dsimp only
  rw [if_pos rfl, poke_add hlength, hv]

/-- Nothing is read from the end of a file. -/
theorem fread_of_nil {ptr : Nat × Nat} {size : Nat} (hfile : r.file = []) : r.fread ptr size = r := by
  unfold Reading.fread
  simp only [hfile, List.take_nil, List.drop_nil, poke_nil, List.length_nil, Nat.add_zero, List.range_zero,
    List.map_nil, List.append_nil]
  have hmem : (fun a => if a.1 = ptr.1 then r.mem (ptr.1, a.2) else r.mem a) = r.mem := by
    funext a
    split_ifs with hblock
    · rw [← hblock]
    · rfl
  rw [hmem, ← hfile]

/-- The lines of an image, by plane. -/
def ImageT.allLines (img : ImageT) : List (Nat × Nat) :=
  (List.range img.numPlanes).flatMap fun p => (List.range (img.lines p)).map fun y => (p, y)

/-- `fic_read` from a file is one loop over the lines. -/
theorem ficRead_some {mem : Nat × Nat → UInt8} {file : List UInt8} :
    ficRead ⟨img, mem, some file⟩ =
      let r := img.allLines.foldl (fun r line => readLine img line.1 r line.2) ⟨mem, file, 0, []⟩
      ⟨⟨img, r.mem, some r.file⟩, r.bytes, r.writes⟩ := by
  simp only [ficRead, ImageT.allLines, List.foldl_flatMap, List.foldl_map]

/-- The lines that start behind a byte leave it as it is. -/
theorem foldl_readLine_mem {lines : List (Nat × Nat)} {a : Nat × Nat}
    (hlines : ∀ line ∈ lines, a.2 < (imageBack img 0 (imagePixel (img.plane 0) line.2 line.1)).2) :
    (lines.foldl (fun r line => readLine img line.1 r line.2) r).mem a = r.mem a := by
  induction lines generalizing r with
  | nil => rfl
  | cons line lines ih =>
    obtain ⟨hline, hrest⟩ := List.forall_mem_cons.mp hlines
    exact (ih hrest).trans (fread_mem_of_lt hline)

/-- At the end of the file the lines are left as they are. -/
theorem foldl_readLine_of_nil {lines : List (Nat × Nat)} (hfile : r.file = []) :
    lines.foldl (fun r line => readLine img line.1 r line.2) r = r := by
  induction lines with
  | nil => rfl
  | cons line lines ih => rw [List.foldl_cons, readLine, fread_of_nil hfile, ih]

/-- The first two lines of a frame, and those behind. -/
theorem allLines_eq (hplanes : 0 < img.numPlanes) (hlines : 2 ≤ img.lines 0) :
    ∃ lines, img.allLines = (0, 0) :: (0, 1) :: lines ∧ ∀ line ∈ lines, 1 ≤ line.1 ∨ 2 ≤ line.2 := by
  obtain ⟨n, hn⟩ := Nat.exists_eq_add_of_lt hplanes
  obtain ⟨m, hm⟩ := Nat.exists_eq_add_of_le hlines
  have hrange : List.range img.numPlanes = 0 :: (List.range n).map Nat.succ := by
    rw [hn, Nat.zero_add, List.range_succ_eq_map]
  have hrange' : List.range (img.lines 0) = 0 :: 1 :: (List.range m).map (2 + ·) := by
    rw [hm, List.range_add]
    rfl
  rw [ImageT.allLines, hrange, List.flatMap_cons, hrange']
  refine ⟨((List.range m).map (2 + ·)).map (fun y => (0, y)) ++
    ((List.range n).map Nat.succ).flatMap fun p => (List.range (img.lines p)).map fun y => (p, y), rfl, ?_⟩
  intro line hline
  simp only [List.map_map, List.mem_append, List.mem_map, List.mem_flatMap] at hline
  obtain ⟨y, -, rfl⟩ | ⟨_, ⟨p, -, rfl⟩, y, -, rfl⟩ := hline
  · exact .inr (Nat.le_add_right 2 y)
  · exact .inl (Nat.succ_pos p)

section FirstPlane

variable {ydim xstep xstride : Nat} (hplanes : 0 < img.numPlanes)
  (hplane : img.plane 0 = allocatePlane w ydim xstep 1 xstride) (hstride : 0 < xstride) (hw : 2 ≤ w)
  (hydim : 2 ≤ ydim)
include hplanes hplane hstride hw hydim

/-- The second line of a frame is read to the second column of the first line. -/
theorem ficRead_mem_second {mem : Nat × Nat → UInt8} {file : List UInt8} {v : UInt8}
    (hfile : file[w * xstride]? = some v) :
    (ficRead ⟨img, mem, some file⟩).fic.mem (0, xstride) = v := by
  have hline : 2 * xstride ≤ w * xstride := Nat.mul_le_mul_right _ hw
  have hlines : 2 ≤ img.lines 0 := by
    rw [ImageT.lines, hplane]
    exact hydim.trans_eq (Nat.div_one ydim).symm
  have hpixel : ∀ p y, imageBack img 0 (imagePixel (img.plane 0) y p) =
      (0, w * xstride * p + xstride * y) := by
    intro p y
    simp [imageBack, imagePixel, hplane, allocatePlane]
  obtain ⟨lines, hall, hbehind⟩ := allLines_eq hplanes hlines
  rw [ficRead_some, hall]
  show (lines.foldl (fun r line => readLine img line.1 r line.2)
    (readLine img 0 (readLine img 0 ⟨mem, file, 0, []⟩ 0) 1)).mem (0, xstride) = v
  rw [foldl_readLine_mem]
  · have hstart : ((0, xstride) : Nat × Nat) = (0, w * xstride * 0 + xstride * 1 + 0) := by simp
    have hrest : (readLine img 0 ⟨mem, file, 0, []⟩ 0).file[0]? = some v := by
      show (file.drop ((img.plane 0).xdim * (img.plane 0).xstride))[0]? = some v
      rwa [List.getElem?_drop, hplane, Nat.add_zero]
    have hsize : 0 < (img.plane 0).xdim * (img.plane 0).xstride := by
      rw [hplane]
      show 0 < w * xstride
      omega
    rw [hstart, readLine, hpixel]
    exact fread_mem_add hsize hrest
  -- the lines behind start in a later column, or in the line of their plane
  · intro line hmem
    rw [hpixel]
    show xstride < w * xstride * line.1 + xstride * line.2
    rcases hbehind line hmem with hp | hy
    · have hle := Nat.le_mul_of_pos_right (w * xstride) hp
      omega
    · have hle := Nat.mul_le_mul_left xstride hy
      omega

/-- A frame of two lines and columns is not always read in order. -/
theorem exists_not_inFileOrder :
    ∃ file, file.length = img.frameBytes ∧
      ¬InFileOrder img (ficRead ⟨img, fun _ => 0, some file⟩).fic.mem file := by
  have hlines : img.lines 0 = ydim := by
    rw [ImageT.lines, hplane]
    exact Nat.div_one ydim
  have hbytes : img.lineBytes 0 = w * xstride := by
    rw [ImageT.lineBytes, hplane]
    rfl
  have hline : 2 * xstride ≤ w * xstride := Nat.mul_le_mul_right _ hw
  have hframe : 2 * (w * xstride) ≤ img.frameBytes := by
    obtain ⟨n, hn⟩ := Nat.exists_eq_add_of_lt hplanes
    rw [ImageT.frameBytes, hn, Nat.zero_add, ImageT.planeStart, List.range_succ_eq_map, List.map_cons,
      List.sum_cons, hlines, hbytes]
    exact (Nat.mul_le_mul_right _ hydim).trans (Nat.le_add_right _ _)
  -- a frame of zeros, but for a one at the start of the second line
  let file := (List.range img.frameBytes).map fun i => if i = w * xstride then (1 : UInt8) else 0
  have hfile : ∀ i < img.frameBytes, file[i]? = some (if i = w * xstride then 1 else 0) := by
    intro i hi
    simp only [file, List.getElem?_map, List.getElem?_range hi, Option.map_some]
  have hone : file[w * xstride]? = some 1 := by rw [hfile _ (by omega), if_pos rfl]
  refine ⟨file, by rw [List.length_map, List.length_range], fun horder => ?_⟩
  have hplace : img.place 0 0 xstride = (0, xstride) := by
    simp [ImageT.place, imageBack]
  have hfirst := horder 0 hplanes 0 (by omega) xstride (by omega)
  rw [hplace, ficRead_mem_second hplanes hplane hstride hw hydim hone, Nat.zero_mul, Nat.add_zero,
    ImageT.planeStart, List.range_zero, List.map_nil, List.sum_nil, Nat.zero_add, hfile xstride (by omega),
    if_neg (by omega)] at hfirst
  exact absurd hfirst (by decide)

end FirstPlane

/-! ## The main result -/

/-- The first plane of an image. The number of its lines is the width for some colours. -/
theorem exists_plane_zero (w h : Nat) (color : Fourcc) : ∃ xstep xstride, 0 < xstride ∧ (imageAllocate w h color).plane 0 =
    allocatePlane w (if color ∈ [.iyuv, .yv12] then w else h) xstep 1 xstride := by
  cases color <;> exact ⟨_, _, by decide, rfl⟩

/-- With two columns and two lines the bytes of the second line are read to other places. -/
theorem not_comparesImages (hw : 2 ≤ w) (hlines : 2 ≤ if color ∈ [.iyuv, .yv12] then w else h) :
    ¬ComparesImages w h color := by
  intro hall
  have hplanes : 0 < (imageAllocate w h color).numPlanes := by
    rw [numPlanes_imageAllocate]
    cases color <;> decide
  obtain ⟨xstep, xstride, hstride, hplane⟩ := exists_plane_zero w h color
  obtain ⟨file, hlength, hnot⟩ := exists_not_inFileOrder hplanes hplane hstride hw hlines
  exact hnot (hall file file hlength hlength).1.1

/-- Of a frame without bytes, nothing is read. -/
theorem ficRead_of_nil {mem : Nat × Nat → UInt8} :
    ficRead ⟨img, mem, some []⟩ = ⟨⟨img, mem, some []⟩, 0, []⟩ := by
  rw [ficRead_some, foldl_readLine_of_nil rfl]

/-- An empty frame has no bytes in a file. -/
theorem frameBytes_eq_zero (hempty : w = 0 ∨ h = 0 ∧ color ∉ [.iyuv, .yv12]) :
    (imageAllocate w h color).frameBytes = 0 := by
  rw [ImageT.frameBytes, ImageT.planeStart, List.sum_eq_zero_iff_forall_eq_nat]
  intro n hn
  obtain ⟨p, hp, rfl⟩ := List.mem_map.mp hn
  exact Nat.mul_eq_zero.mpr (lines_or_lineBytes_eq_zero hempty (List.mem_range.mp hp))

/-- Empty images are told apart, since there is nothing to tell. -/
theorem comparesImages_of_empty (hempty : w = 0 ∨ h = 0 ∧ color ∉ [.iyuv, .yv12]) :
    ComparesImages w h color := by
  intro file file' hlength hlength'
  rw [frameBytes_eq_zero hempty, List.length_eq_zero_iff] at hlength hlength'
  subst hlength hlength'
  have horder : ∀ mem, InFileOrder (imageAllocate w h color) mem [] := by
    intro mem p hp y hy k hk
    rcases lines_or_lineBytes_eq_zero hempty hp with hzero | hzero
    · exact absurd hy (hzero ▸ Nat.not_lt_zero y)
    · exact absurd hk (hzero ▸ Nat.not_lt_zero k)
  dsimp only [ficOpen]
  rw [ficRead_of_nil]
  refine ⟨⟨horder _, horder _⟩, ⟨fun a ha => absurd ha List.not_mem_nil, fun a ha => absurd ha List.not_mem_nil⟩, ?_⟩
  rw [CountsDifferences, numDiff_eq_zero_iff rfl]
  exact iff_of_true (fun _ _ => rfl) fun _ _ => rfl

end DVP.Sosal
