import DVP.Lib.Raster
import DVP.Yuv.Walks
import Mathlib.Data.Fintype.Sum

/-!
# Pictures in planes

The routines that take UYVY data apart write planes, and every byte of a plane is a function of the
luma and the chroma of one pixel. A picture has the source, the planes and these functions. If the
planes have places of their own, a walk over it leaves the bytes of all of them, and no other byte of
the memory is changed.

A walk goes through a line in groups of 16 pixels. If the width is no multiple of 16, it goes past
the end of the line, and the next line starts as many columns further on: `drift`.
-/

namespace DVP.Yuv

open Arm Region State

/-- How many columns a walk is past the end of a line after its groups. -/
def drift (width : Word) : Nat := (BitVec.ofNat 32 (16 * rounds width 16) - width).toNat

/-- The drift as a number of the machine. -/
theorem ofNat_drift {width : Word} :
    BitVec.ofNat 32 (drift width) = BitVec.ofNat 32 (16 * rounds width 16) - width := by
  rw [drift, BitVec.ofNat_toNat, BitVec.setWidth_eq]

/-- Where a group of a plane is. -/
theorem place_plane {base stride width : Word} {l j : Nat} :
    place base (stride - width) 16 (rounds width 16) l j =
      Raster.addr ⟨base, stride⟩ l (l * drift width + 16 * j) := by
  rw [place, Raster.addr, BitVec.ofNat_add, BitVec.ofNat_mul l, ofNat_drift]
  ring

/-- Where it is if the lines of the plane follow one another. -/
theorem place_packed {base width : Word} {l j : Nat} :
    place base 0 16 (rounds width 16) l j =
      Raster.addr ⟨base, width⟩ l (l * drift width + 16 * j) := by
  rw [← place_plane, sub_self]

/-- Where a group of the source is. -/
theorem place_source {base stride width : Word} {l j : Nat} :
    place base (stride - (width + width)) 32 (rounds width 16) l j =
      Raster.addr ⟨base, stride⟩ l (2 * (l * drift width) + 32 * j) := by
  have hgroups : BitVec.ofNat 32 (32 * rounds width 16) =
      2 * BitVec.ofNat 32 (16 * rounds width 16) := by
    rw [(by omega : 32 * rounds width 16 = 2 * (16 * rounds width 16)), BitVec.ofNat_mul]
    rfl
  have hdrift : BitVec.ofNat 32 (2 * (l * drift width)) =
      2 * (BitVec.ofNat 32 l * (BitVec.ofNat 32 (16 * rounds width 16) - width)) := by
    rw [BitVec.ofNat_mul, BitVec.ofNat_mul, ofNat_drift]
    rfl
  rw [place, Raster.addr, BitVec.ofNat_add, hgroups, hdrift]
  ring

/-! ## Pictures -/

/-- UYVY data. -/
structure Source where
  width : Word
  height : Word
  raster : Raster 32

namespace Source

variable (o : Source)

/-- How many lines the walk has, and how many groups a line. -/
def lines : Nat := rounds o.height 1

/-- How many groups of 16 pixels a line has. -/
def groups : Nat := rounds o.width 16

/-- The place of the byte `k` of a line of the walk. -/
def addr (l k : Nat) : Word := o.raster.addr l (2 * (l * drift o.width) + k)

/-- The places the walk reads. -/
def places : Set Word := {a | ∃ l < o.lines, ∃ k < 32 * o.groups, o.addr l k = a}

end Source

/-- Planes that are made of UYVY data, and what a byte of each is for a pixel with a luma, a blue
chroma and a red chroma. -/
structure Picture (o : Source) (ι : Type) where
  plane : ι → Raster 32
  color : ι → Byte → Byte → Byte → Byte

/-- A pixel of a plane, with the number it has in its line of the walk. -/
structure Pixel (ι : Type) where
  plane : ι
  line : Nat
  number : Nat

namespace Picture

variable {o : Source} {ι κ : Type} (p : Picture o ι)

/-- The pixels of the groups. -/
def pixels : Set (Pixel ι) := {x | x.line < o.lines ∧ x.number < 16 * o.groups}

/-- The place of a pixel. -/
def addr (x : Pixel ι) : Word :=
  (p.plane x.plane).addr x.line (x.line * drift o.width + x.number)

/-- The byte of a pixel. The two pixels of a pair have their chroma together. -/
def value (m : Memory) (x : Pixel ι) : Byte :=
  let pair := x.number / 2
  p.color x.plane (m (o.addr x.line (2 * x.number + 1))) (m (o.addr x.line (4 * pair)))
    (m (o.addr x.line (4 * pair + 2)))

/-- The pixels have places of their own, and none of them in the source. -/
structure Apart : Prop where
  injOn : Set.InjOn p.addr (pixels (o := o))
  source : Disjoint (p.addr '' pixels (o := o)) o.places

/-- The planes have what the source in `m` makes of them, and the rest of the memory is `m`. -/
abbrev Drawn (m m' : Memory) : Prop := Shows (pixels (o := o)) p.addr (p.value m) m m'

/-- Where the group `j` of a line of the plane is. -/
def start (l j : Nat) (i : ι) : Word := (p.plane i).addr l (l * drift o.width + 16 * j)

/-- What a walk that writes the planes in an order does to a group. -/
def group (planes : List ι) (l j : Nat) (m : Memory) : Memory :=
  let src := o.addr l (32 * j)
  planes.foldl (fun m' i => write m' (p.start l j i)
    fun k : Fin 16 => p.color i (luma m src k) (cb m src k) (cr m src k)) m

/-- What it does to the image. -/
def walk (planes : List ι) (m : Memory) : Memory :=
  loop (fun l => loop (p.group planes l) o.groups) o.lines m

variable {p} {q : Picture o κ} {m m' m'' : Memory} {l j : Nat} {planes : List ι}

/-- The bytes of a pixel of a group are those of the pixel of the line. -/
theorem color_group {i : ι} {k : Fin 16} :
    p.color i (luma m (o.addr l (32 * j)) k) (cb m (o.addr l (32 * j)) k)
      (cr m (o.addr l (32 * j)) k) = p.value m ⟨i, l, 16 * j + k⟩ := by
  have hpair : 4 * ((16 * j + k) / 2) = 32 * j + 4 * (k / 2) := by omega
  rw [luma, cb, cr, Source.addr, Raster.addr_add, Raster.addr_add, Raster.addr_add]
  simp only [value, Source.addr, hpair, Nat.mul_add, Nat.add_assoc, ← Nat.mul_assoc, Nat.reduceMul]

/-- The byte of a pixel depends on the source alone. -/
theorem value_congr {x : Pixel ι} (hx : x ∈ pixels (o := o)) (hm : Set.EqOn m m' o.places) :
    p.value m x = p.value m' x := by
  have hbyte : ∀ k < 32 * o.groups, m (o.addr x.line k) = m' (o.addr x.line k) := fun k hk =>
    hm ⟨x.line, hx.1, k, hk, rfl⟩
  have hnumber : x.number < 16 * o.groups := hx.2
  simp only [value]
  rw [hbyte _ (by omega), hbyte _ (by omega), hbyte _ (by omega)]

/-- What a memory has to have at the places of pixels. -/
def Asks (p : Picture o ι) (m : Memory) (a : Word) (b : Byte) : Prop :=
  ∀ x ∈ pixels (o := o), p.addr x = a → b = p.value m x

/-- The places of a group. -/
def places (p : Picture o ι) (planes : List ι) (l j : Nat) : Set Word :=
  {a | ∃ i ∈ planes, a ∈ span (p.start l j i) 16}

/-- A pixel of a group is at its place in the group. -/
theorem start_add {i : ι} {k : Nat} :
    p.start l j i + BitVec.ofNat 32 k = p.addr ⟨i, l, 16 * j + k⟩ := by
  rw [start, Raster.addr_add, addr, Nat.add_assoc]

/-- The pixels of a group are pixels of the picture. -/
theorem mem_pixels {i : ι} {k : Nat} (hl : l < o.lines) (hj : j < o.groups) (hk : k < 16) :
    (⟨i, l, 16 * j + k⟩ : Pixel ι) ∈ pixels (o := o) :=
  ⟨hl, by simp only; omega⟩

/-- A group of a plane is apart from the source. -/
theorem Apart.group (h : p.Apart) {i : ι} (hl : l < o.lines) (hj : j < o.groups) :
    Disjoint (span (p.start l j i) 16) o.places := by
  refine h.source.mono_left ?_
  intro a ha
  obtain ⟨k, hk, rfl⟩ := (mem_span_iff_exists (by norm_num)).mp ha
  exact ⟨_, mem_pixels hl hj hk, start_add.symm⟩

/-- A group paints its pixels, one plane after the other. -/
theorem Apart.paints_group (h : p.Apart) (hl : l < o.lines) (hj : j < o.groups) :
    Paints m o.places (p.Asks m) (p.places planes l j) (p.group planes l j) := by
  induction planes using List.reverseRecOn with
  | nil =>
    have hnone : p.places [] l j = ∅ := by simp [places]
    rw [hnone]
    exact Paints.nothing
  | append_singleton planes i ih =>
    have hplaces : p.places (planes ++ [i]) l j =
        p.places planes l j ∪ span (p.start l j i) 16 := by
      ext a
      simp only [places, List.mem_append, List.mem_singleton, Set.mem_union, Set.mem_ofPred_eq,
        or_and_right, exists_or, exists_eq_left]
    have hgroup : p.group (planes ++ [i]) l j = fun m =>
        write (p.group planes l j m) (p.start l j i)
          fun k : Fin 16 => p.value m ⟨i, l, 16 * j + k⟩ := by
      funext m
      simp only [Picture.group, List.foldl_append, List.foldl_cons, List.foldl_nil, color_group]
    rw [hplaces, hgroup]
    refine ih.write (by norm_num) (h.group hl hj) fun m' hm' k x hx hax => ?_
    -- the place is that of one pixel alone
    have hpixel := mem_pixels (i := i) hl hj k.isLt
    rw [start_add] at hax
    rw [h.injOn hx hpixel hax]
    exact value_congr hpixel hm'

/-- The places of the groups are those of the pixels. -/
theorem covered_places (hplanes : ∀ i, i ∈ planes) :
    covered (fun l => covered (p.places planes l) o.groups) o.lines =
      p.addr '' pixels (o := o) := by
  ext a
  constructor
  · rintro ⟨l, hl, j, hj, i, -, ha⟩
    obtain ⟨k, hk, rfl⟩ := (mem_span_iff_exists (by norm_num)).mp ha
    exact ⟨_, mem_pixels hl hj hk, start_add.symm⟩
  · rintro ⟨x, ⟨hl, hnumber⟩, rfl⟩
    have hk : x.number % 16 < 16 := Nat.mod_lt _ (by norm_num)
    refine ⟨x.line, hl, x.number / 16, by omega, x.plane, hplanes _, ?_⟩
    rw [mem_span_iff_exists (by norm_num)]
    refine ⟨x.number % 16, hk, ?_⟩
    rw [start_add, Nat.div_add_mod]

/-- A walk over a picture draws it. -/
theorem Apart.drawn (h : p.Apart) (hplanes : ∀ i, i ∈ planes) : p.Drawn m (p.walk planes m) := by
  refine Paints.shows (K := o.places) ?_
  rw [← covered_places hplanes]
  exact Paints.loop fun l hl => Paints.loop fun j hj => h.paints_group hl hj

/-- Buffers as a caller has them: the width is a multiple of 16, the lines of each follow one another,
and none is in another one. -/
structure Placed (p : Picture o ι) : Prop where
  width : drift o.width = 0
  plane : ∀ i, (p.plane i).Fits o.lines (16 * o.groups)
  source : o.raster.Fits o.lines (32 * o.groups)
  planes : ∀ i i', i ≠ i' →
    (p.plane i).Before (p.plane i') o.lines ∨ (p.plane i').Before (p.plane i) o.lines
  apart : ∀ i, (p.plane i).Before o.raster o.lines ∨ o.raster.Before (p.plane i) o.lines

/-- Such planes have places of their own. -/
theorem Placed.apart_of (h : p.Placed) : p.Apart where
  injOn := by
    rintro ⟨i, l, k⟩ ⟨hl, hk⟩ ⟨i', l', k'⟩ ⟨hl', hk'⟩ heq
    simp only [addr, h.width, Nat.mul_zero, Nat.zero_add] at hl hk hl' hk' heq
    by_cases hi : i = i'
    · subst hi
      obtain ⟨rfl, rfl⟩ := (h.plane i).addr_inj hl hk hl' hk' heq
      rfl
    · rcases h.planes i i' hi with hbefore | hbefore
      · exact absurd heq ((h.plane i).addr_ne (h.plane i') hbefore hl hk hl' hk')
      · exact absurd heq.symm ((h.plane i').addr_ne (h.plane i) hbefore hl' hk' hl hk)
  source := by
    rw [Set.disjoint_left]
    rintro _ ⟨⟨i, l, k⟩, ⟨hl, hk⟩, rfl⟩ ⟨l', hl', k', hk', heq⟩
    simp only [addr, Source.addr, h.width, Nat.mul_zero, Nat.zero_add] at hl hk heq
    rcases h.apart i with hbefore | hbefore
    · exact (h.plane i).addr_ne h.source hbefore hl hk hl' hk' heq.symm
    · exact h.source.addr_ne (h.plane i) hbefore hl' hk' hl hk heq

/-! ## Planes together -/

/-- Some planes of a picture. -/
def comap (f : κ → ι) (p : Picture o ι) : Picture o κ where
  plane := p.plane ∘ f
  color := p.color ∘ f

/-- The planes of two pictures of the same source. -/
def sum (p : Picture o ι) (q : Picture o κ) : Picture o (ι ⊕ κ) where
  plane := Sum.elim p.plane q.plane
  color := Sum.elim p.color q.color

/-- Planes that are chosen once each are apart. -/
theorem Apart.comap {f : κ → ι} (h : p.Apart) (hf : Function.Injective f) : (p.comap f).Apart where
  injOn x hx y hy hxy := by
    have heq := @h.injOn ⟨f x.plane, x.line, x.number⟩ hx ⟨f y.plane, y.line, y.number⟩ hy hxy
    obtain ⟨i, l, k⟩ := x
    obtain ⟨i', l', k'⟩ := y
    simp only [Pixel.mk.injEq] at heq ⊢
    exact ⟨hf heq.1, heq.2⟩
  source := h.source.mono_left fun a ha => by
    obtain ⟨x, hx, rfl⟩ := ha
    exact ⟨⟨f x.plane, x.line, x.number⟩, hx, rfl⟩

/-- The planes of the first part are apart. -/
theorem Apart.left (h : (p.sum q).Apart) : p.Apart := h.comap Sum.inl_injective

/-- The planes of the second part are apart. -/
theorem Apart.right (h : (p.sum q).Apart) : q.Apart := h.comap Sum.inr_injective

/-- The parts in the other order are the same planes. -/
theorem sum_eq_comap : q.sum p = (p.sum q).comap Sum.swap := by
  simp only [sum, comap, Sum.elim_swap]

/-- The parts in the other order are apart. -/
theorem Apart.swap (h : (p.sum q).Apart) : (q.sum p).Apart := by
  rw [sum_eq_comap]
  exact h.comap Sum.swap_leftInverse.injective

/-- Without one of the first two of three pictures. -/
theorem Apart.first_third {ν : Type} {r : Picture o ν} (h : ((p.sum q).sum r).Apart) :
    (p.sum r).Apart := by
  have hcomap : p.sum r = ((p.sum q).sum r).comap (Sum.map Sum.inl id) := by
    simp only [sum, Picture.comap, Sum.elim_comp_map, Sum.elim_comp_inl, Function.comp_id]
  rw [hcomap]
  exact h.comap (Sum.inl_injective.sumMap Function.injective_id)

/-- The second and the third part of three are apart. -/
theorem Apart.second_third {ν : Type} {r : Picture o ν} (h : ((p.sum q).sum r).Apart) :
    (q.sum r).Apart := by
  have hcomap : q.sum r = ((p.sum q).sum r).comap (Sum.map Sum.inr id) := by
    simp only [sum, Picture.comap, Sum.elim_comp_map, Sum.elim_comp_inr, Function.comp_id]
  rw [hcomap]
  exact h.comap (Sum.inr_injective.sumMap Function.injective_id)

/-- Planes that are drawn are drawn under other names. -/
theorem drawn_of_comap {f : κ → ι} (hf : Function.Surjective f) (h : (p.comap f).Drawn m m') :
    p.Drawn m m' where
  value x hx := by
    obtain ⟨i, l, k⟩ := x
    obtain ⟨i, rfl⟩ := hf i
    exact h.value ⟨i, l, k⟩ hx
  other a ha := h.other a fun ⟨x, hx, hxa⟩ => ha ⟨⟨f x.plane, x.line, x.number⟩, hx, hxa⟩

/-- Drawing the one picture and then the other draws all the planes. -/
theorem Apart.drawn_sum (h : (p.sum q).Apart) (hp : p.Drawn m m') (hq : q.Drawn m' m'') :
    (p.sum q).Drawn m m'' := by
  have hsource : Set.EqOn m' m o.places := fun a ha =>
    hp.other a fun hx => Set.disjoint_left.mp h.left.source hx ha
  constructor
  · rintro ⟨i | i, l, k⟩ hx
    · -- the second picture leaves the planes of the first one
      refine (hq.other _ ?_).trans (hp.value ⟨i, l, k⟩ hx)
      rintro ⟨y, hy, hyx⟩
      cases @h.injOn ⟨.inr y.plane, y.line, y.number⟩ hy ⟨.inl i, l, k⟩ hx hyx
    · exact (hq.value ⟨i, l, k⟩ hx).trans (value_congr hx hsource)
  · intro a ha
    have hap : a ∉ p.addr '' pixels (o := o) := fun ⟨x, hx, hxa⟩ =>
      ha ⟨⟨.inl x.plane, x.line, x.number⟩, hx, hxa⟩
    have haq : a ∉ q.addr '' pixels (o := o) := fun ⟨x, hx, hxa⟩ =>
      ha ⟨⟨.inr x.plane, x.line, x.number⟩, hx, hxa⟩
    rw [hq.other a haq, hp.other a hap]

/-- Two pictures are drawn in either order. -/
theorem Apart.walk_comm (h : (p.sum q).Apart) {planes' : List κ} (hp : ∀ i, i ∈ planes)
    (hq : ∀ i, i ∈ planes') : q.walk planes' (p.walk planes m) = p.walk planes (q.walk planes' m) := by
  have hpq : (p.sum q).Drawn m (q.walk planes' (p.walk planes m)) :=
    h.drawn_sum (h.left.drawn hp) (h.right.drawn hq)
  have hqp : (q.sum p).Drawn m (p.walk planes (q.walk planes' m)) :=
    h.swap.drawn_sum (h.right.drawn hq) (h.left.drawn hp)
  rw [sum_eq_comap] at hpq
  exact (drawn_of_comap Sum.swap_rightInverse.surjective hpq).unique hqp

/-- A walk of a routine that does to every group what the picture asks for. -/
theorem walk_eq {w : Arm.Walk} (hlines : w.lines = o.lines) (hgroups : w.groups = o.groups)
    (hgroup : ∀ l j, w.group l j = p.group planes l j) : w.image = p.walk planes := by
  have hline : w.line = fun l => loop (p.group planes l) o.groups := by
    funext l m
    rw [Walk.line, hgroups, funext (hgroup l)]
  funext m
  rw [Walk.image, hline, hlines, walk]

end Picture

/-! ## The routines -/

/-- The planes of an RGB picture. -/
inductive Channel
  | r | g | b
  deriving DecidableEq

instance : Fintype Channel where
  elems := {.r, .g, .b}
  complete i := by cases i <;> decide

/-- The planes of a YUV picture. -/
inductive Component
  | y | u | v
  deriving DecidableEq

instance : Fintype Component where
  elems := {.y, .u, .v}
  complete i := by cases i <;> decide

/-- The planes of the colours. -/
def RgbpArgs.source (a : RgbpArgs) : Source := ⟨a.width, a.height, ⟨a.pSrc, a.srcStride⟩⟩

/-- The planes of the conversion to RGBp. -/
def RgbpArgs.picture (a : RgbpArgs) : Picture a.source Channel where
  plane
    | .r => ⟨a.pR, a.dstStride⟩
    | .g => ⟨a.pG, a.dstStride⟩
    | .b => ⟨a.pB, a.dstStride⟩
  color
    | .r => fun y _ cr => red y cr
    | .g => fun y cb cr => green y cb cr
    | .b => fun y cb _ => blue y cb

/-- The plane of the luma. -/
def LumaArgs.source (a : LumaArgs) : Source := ⟨a.width, a.height, ⟨a.pYUV, a.srcStride⟩⟩

/-- The plane of the extraction of luma. -/
def LumaArgs.picture (a : LumaArgs) : Picture a.source Unit where
  plane _ := ⟨a.pY, a.dstStride⟩
  color _ y _ _ := y

/-- The planes of the luma and the chroma. -/
def Yuv444pArgs.source (a : Yuv444pArgs) : Source := ⟨a.width, a.height, ⟨a.pYUV, a.srcStride⟩⟩

/-- The planes of the conversion to YUV444p. -/
def Yuv444pArgs.picture (a : Yuv444pArgs) : Picture a.source Component where
  plane
    | .y => ⟨a.pY, a.dstStride⟩
    | .u => ⟨a.pU, a.dstStride⟩
    | .v => ⟨a.pV, a.dstStride⟩
  color
    | .y => fun y _ _ => y
    | .u => fun _ cb _ => cb
    | .v => fun _ _ cr => cr

namespace FusedArgs

variable (a : FusedArgs)

/-- The calls that one call of the fused routine stands for. -/
def rgbp : RgbpArgs :=
  { width := a.width, height := a.height, pSrc := a.pUYVY, srcStride := a.srcStride
    pR := a.pR, pG := a.pG, pB := a.pB, dstStride := a.width }

/-- The part of the fused arguments for luma. -/
def luma : LumaArgs :=
  { width := a.width, height := a.height, pYUV := a.pUYVY, srcStride := a.srcStride
    pY := a.pL, dstStride := a.width }

/-- The part of the fused arguments for YUV444p. -/
def yuv444p : Yuv444pArgs :=
  { width := a.width, height := a.height, pYUV := a.pUYVY, srcStride := a.srcStride
    pY := a.pY, pU := a.pU, pV := a.pV, dstStride := a.width }

/-- The source of the fused conversion. -/
def source : Source := ⟨a.width, a.height, ⟨a.pUYVY, a.srcStride⟩⟩

/-- Its seven planes. -/
def picture : Picture a.source ((Channel ⊕ Unit) ⊕ Component) :=
  Picture.sum (o := a.source) (Picture.sum (o := a.source) a.rgbp.picture a.luma.picture)
    a.yuv444p.picture

end FusedArgs

/-! The routines walk over their pictures, and write the planes of a group in an order. -/

/-- The conversion to RGBp writes its three planes group by group. -/
theorem RgbpArgs.walk_eq {a : RgbpArgs} :
    (UyvyToRgbp.walk a).image = a.picture.walk [.b, .g, .r] :=
  Picture.walk_eq rfl rfl fun l j => by
    funext m
    simp only [UyvyToRgbp.walk, place_plane, place_source]
    rfl

/-- The extraction of luma writes its plane group by group. -/
theorem LumaArgs.walk_eq {a : LumaArgs} : (LumaExtract.walk a).image = a.picture.walk [()] :=
  Picture.walk_eq rfl rfl fun l j => by
    funext m
    simp only [LumaExtract.walk, place_plane, place_source]
    rfl

/-- The conversion to YUV444p writes its three planes group by group. -/
theorem Yuv444pArgs.walk_eq {a : Yuv444pArgs} :
    (UyvyToYuv444p.walk a).image = a.picture.walk [.y, .u, .v] :=
  Picture.walk_eq rfl rfl fun l j => by
    funext m
    simp only [UyvyToYuv444p.walk, place_plane, place_source]
    rfl

/-- The fused conversion writes its seven planes group by group. -/
theorem FusedArgs.walk_eq {a : FusedArgs} :
    (UyvyToRgbpLumaYuv444p.walk a).image = a.picture.walk [.inl (.inr ()), .inr .y, .inr .u,
      .inr .v, .inl (.inl .b), .inl (.inl .g), .inl (.inl .r)] :=
  Picture.walk_eq rfl rfl fun l j => by
    funext m
    simp only [UyvyToRgbpLumaYuv444p.walk, place_packed, place_source]
    rfl

/-- All channels are written. -/
theorem mem_channels (i : Channel) : i ∈ [Channel.b, .g, .r] := by cases i <;> decide

/-- The plane of luma is written. -/
theorem mem_unit (i : Unit) : i ∈ [()] := List.mem_singleton_self _

/-- All components are written. -/
theorem mem_components (i : Component) : i ∈ [Component.y, .u, .v] := by cases i <;> decide

end DVP.Yuv
