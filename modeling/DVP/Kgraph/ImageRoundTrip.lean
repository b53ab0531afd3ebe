import DVP.Kgraph.Image
import Mathlib.Data.List.Nodup

/-!
# Reading images back

`DVP_Image_Unserialize` into an image of the same shape as the one written. It copies the lines only
if the color and the dimensions of the buffer it reads are those of the image.

* `dvpImageUnserialize_eq`: with room for more than what was written, all of it is read, and the
  lines are restored (`line_restore`).
* `dvpImageUnserialize_lt`: the position after the image is always less than the length.
-/

namespace DVP.Kgraph

open Bytes Serial

/-! ## Units -/

section Units

variable {S : Type} {w len base : Nat} {buffer : Nat → UInt8} {s : S}

/-- A unit that is in the buffer is read from it. -/
theorem reads_getUnit (hw : 8 ∣ w) {x : BitVec w} {set : BitVec w → S → S} :
    Reads (· < len) base buffer (getUnit w len base buffer set) (unitBytes x) s (set x s) := by
  have hread : Reads (· < len) base buffer (getUnit w len base buffer set) (unitBytes x) s
      (set (unitOf w (unitBytes x)) s) := Reads.get length_toLE
  rwa [unitOf_unitBytes hw] at hread

/-- What is below a bound is closed downwards. -/
theorem downward_lt : Downward (· < len) := fun _ _ hmn hn => Nat.lt_of_le_of_lt hmn hn

end Units

/-! ## Shape -/

/-- The images have the same format, dimensions and patch. -/
structure SameShape (pImage image : DvpImage) : Prop where
  planes : image.planes = pImage.planes
  width : image.width = pImage.width
  height : image.height = pImage.height
  bufWidth : image.bufWidth = pImage.bufWidth
  bufHeight : image.bufHeight = pImage.bufHeight
  xStart : image.xStart = pImage.xStart
  yStart : image.yStart = pImage.yStart
  xStride : image.xStride = pImage.xStride
  color : image.color = pImage.color

variable {pImage image : DvpImage} {buffer : Nat → UInt8} {base len p y : Nat}

/-- Images of one shape have as many lines. -/
theorem SameShape.lines (h : SameShape pImage image) : image.lines p = pImage.lines p := by
  simp only [DvpImage.lines, dvpImageHeightDiv, h.height, h.planes, h.color]

/-- Images of one shape have lines of one size. -/
theorem SameShape.patchLineSize (h : SameShape pImage image) :
    dvpImagePatchLineSize image p = dvpImagePatchLineSize pImage p := by
  simp only [dvpImagePatchLineSize, dvpImageWidthStep, dvpImageWidthDiv, h.width, h.planes,
    h.color, h.xStride]

namespace DvpImage

/-- The image with other bytes. -/
def withData (image : DvpImage) (data : Nat → Nat → UInt8) : DvpImage :=
  { image with pData := data }

/-- The lines of all planes. -/
def allLines (image : DvpImage) : List (Nat × Nat) :=
  (List.range image.planes.toNat).flatMap fun p => (List.range (image.lines p)).map (p, ·)

/-- `image` with some lines of `pImage`. -/
def restoreLines (pImage image : DvpImage) (xs : List (Nat × Nat)) : DvpImage :=
  xs.foldl (fun image x => image.setLine x.1 x.2 (pImage.line x.1 x.2)) image

/-- `image` with the lines of `pImage`. -/
def restore (pImage image : DvpImage) : DvpImage := restoreLines pImage image pImage.allLines

/-- A line changes the data alone. -/
theorem setLine_withData {data : Nat → Nat → UInt8} {bs : List UInt8} :
    ∃ data', (image.withData data).setLine p y bs = image.withData data' := ⟨_, rfl⟩

/-- Lines that are restored change the data alone. -/
theorem restoreLines_withData {data : Nat → Nat → UInt8} (xs : List (Nat × Nat)) :
    ∃ data', restoreLines pImage (image.withData data) xs = image.withData data' := by
  induction xs generalizing data with
  | nil => exact ⟨data, rfl⟩
  | cons x xs ih => exact ih

end DvpImage

/-! ## The fields -/

/-- The fields in front of `numBytes`, as they are written. -/
def DvpImage.shapeBytes (pImage : DvpImage) : List UInt8 :=
  [unitBytes pImage.planes, unitBytes pImage.width, unitBytes pImage.height,
    unitBytes pImage.bufWidth, unitBytes pImage.bufHeight, unitBytes pImage.xStart,
    unitBytes pImage.yStart, unitBytes pImage.color].flatten

/-- The fields that decide whether the lines are copied are read even when there is no room for
the last one. -/
theorem unserializeHeader_prefix (hpeek : peek buffer base 36 = pImage.units.flatten)
    (hlen : 32 < len) :
    ∃ numBytes offset,
      unserializeHeader image buffer base len =
        ({ image with
            planes := pImage.planes
            width := pImage.width
            height := pImage.height
            bufWidth := pImage.bufWidth
            bufHeight := pImage.bufHeight
            xStart := pImage.xStart
            yStart := pImage.yStart
            color := pImage.color
            numBytes := numBytes }, offset) ∧
      offset < len ∧ (36 < len → offset = 36) := by
  have hbytes : peek buffer (base + 0) pImage.shapeBytes.length = pImage.shapeBytes := by
    have hsplit : pImage.units.flatten = pImage.shapeBytes ++ unitBytes pImage.numBytes := rfl
    have hlength : (pImage.shapeBytes ++ unitBytes pImage.numBytes).length = 36 :=
      DvpImage.length_units pImage
    rw [hsplit, ← hlength] at hpeek
    exact (peek_eq_append.mp hpeek).1
  have hread : Reads (· < len) base buffer
      (runAll
        [getUnit 32 len base buffer fun x image => { image with planes := x },
          getUnit 32 len base buffer fun x image => { image with width := x },
          getUnit 32 len base buffer fun x image => { image with height := x },
          getUnit 32 len base buffer fun x image => { image with bufWidth := x },
          getUnit 32 len base buffer fun x image => { image with bufHeight := x },
          getUnit 32 len base buffer fun x image => { image with xStart := x },
          getUnit 32 len base buffer fun x image => { image with yStart := x },
          getUnit 32 len base buffer fun x image => { image with color := x }])
      pImage.shapeBytes image
      { image with
        planes := pImage.planes
        width := pImage.width
        height := pImage.height
        bufWidth := pImage.bufWidth
        bufHeight := pImage.bufHeight
        xStart := pImage.xStart
        yStart := pImage.yStart
        color := pImage.color } := by
    have h8 : 8 ∣ 32 := by decide
    iterate 8 apply Reads.cons downward_lt (reads_getUnit h8)
    exact Reads.nil
  have h32 := hread 0 hbytes hlen
  -- the header is those eight reads and one more, of `numBytes`
  have hlast : unserializeHeader image buffer base len =
      getUnit 32 len base buffer (fun x image => { image with numBytes := x }) (_, 32) :=
    congrArg _ h32
  rw [hlast, getUnit, Serial.get]
  split_ifs with hroom
  · exact ⟨_, _, rfl, hroom, fun _ => rfl⟩
  · exact ⟨_, _, rfl, hlen, fun h36 => absurd h36 hroom⟩

/-! ## The lines -/

/-- A line that is in the buffer is restored from it. -/
theorem reads_unserializeLine {data : Nat → Nat → UInt8} (h : SameShape pImage image) :
    Reads (· < len) base buffer (unserializeLine true buffer base len p y) (pImage.line p y)
      (image.withData data) ((image.withData data).setLine p y (pImage.line p y)) := by
  intro o hpeek hfits
  have hsize : (dvpImagePatchLineSize (image.withData data) p).toNat =
      (pImage.line p y).length := by
    rw [DvpImage.length_line, ← h.patchLineSize]
    rfl
  have hread : Reads (· < len) base buffer
      (Serial.get (· < len) base buffer (dvpImagePatchLineSize (image.withData data) p).toNat
        fun bs image => image.setLine p y bs)
      (pImage.line p y) (image.withData data)
      ((image.withData data).setLine p y (pImage.line p y)) := Reads.get hsize.symm
  exact hread o hpeek hfits

/-- All lines of the patch are restored one after the other. -/
theorem reads_lines (h : SameShape pImage image) :
    Reads (· < len) base buffer
      (fun st => (List.range pImage.planes.toNat).foldl (fun st p =>
        (List.range (st.1.lines p)).foldl (fun st y =>
          unserializeLine true buffer base len p y st) st) st)
      pImage.patch.flatten image (DvpImage.restore pImage image) := by
  -- within a plane only the bytes change, so the size of the lines stays
  have hplane (p : Nat) (data : Nat → Nat → UInt8) :
      Reads (· < len) base buffer
        (fun st => (List.range (pImage.lines p)).foldl (fun st y =>
          unserializeLine true buffer base len p y st) st)
        ((List.range (pImage.lines p)).flatMap (pImage.line p)) (image.withData data)
        (DvpImage.restoreLines pImage (image.withData data)
          ((List.range (pImage.lines p)).map (p, ·))) := by
    rw [DvpImage.restoreLines, List.foldl_map]
    apply Reads.foldl (I := fun s => ∃ data, s = image.withData data) downward_lt
    · rintro y - _ ⟨data, rfl⟩
      exact ⟨reads_unserializeLine h, DvpImage.setLine_withData⟩
    · exact ⟨data, rfl⟩
  have hbytes : pImage.patch.flatten = (List.range pImage.planes.toNat).flatMap fun p =>
      (List.range (pImage.lines p)).flatMap (pImage.line p) := by
    simp only [DvpImage.patch, List.flatMap_def, List.flatten_flatten, List.map_map]
    rfl
  have hrestore : DvpImage.restore pImage image =
      (List.range pImage.planes.toNat).foldl (fun image p =>
        DvpImage.restoreLines pImage image ((List.range (pImage.lines p)).map (p, ·))) image :=
    List.foldl_flatMap
  rw [hbytes, hrestore]
  apply Reads.foldl (I := fun s => ∃ data, s = image.withData data) downward_lt
  · rintro p - _ ⟨data, rfl⟩
    have hlines : (image.withData data).lines p = pImage.lines p := h.lines
    refine ⟨fun o hpeek hfits => ?_, DvpImage.restoreLines_withData _⟩
    dsimp only
    rw [hlines]
    exact hplane p data o hpeek hfits
  · exact ⟨image.pData, rfl⟩

/-- The lines are restored without going back in the buffer. -/
theorem stays_lines {planes : Nat} :
    Stays (· < len) fun st => (List.range planes).foldl (fun st p =>
      (List.range (st.1.lines p)).foldl (fun st y =>
        unserializeLine true buffer base len p y st) st) st := by
  apply Stays.foldl
  intro p _ st hst
  have hplane : Stays (· < len) fun st' => (List.range (st.1.lines p)).foldl (fun st y =>
      unserializeLine true buffer base len p y st) st' := by
    apply Stays.foldl
    intro y _ st
    have hline : Stays (· < len) (Serial.get (· < len) base buffer
        (dvpImagePatchLineSize st.1 p).toNat fun bs image => DvpImage.setLine image p y bs) := Stays.get
    exact hline st
  exact hplane st hst

/-! ## The patch -/

/-- Different lines of a plane have no byte in common. -/
def DvpImage.LinesApart (image : DvpImage) : Prop :=
  ∀ p < image.planes.toNat, ∀ y < image.lines p, ∀ z < image.lines p, y ≠ z →
    image.lineOffset p y + (dvpImagePatchLineSize image p).toNat ≤ image.lineOffset p z ∨
      image.lineOffset p z + (dvpImagePatchLineSize image p).toNat ≤ image.lineOffset p y

/-- The lines of a plane are a line range apart, if the plane is not larger than what 32 bits
count. -/
theorem DvpImage.lineOffset_eq (hp : p < image.planes.toNat) (hy : y < image.lines p)
    (hwidth : image.width ≠ 0)
    (htotal : image.lines p * (dvpImageLineRange image p).toNat < 2 ^ 32) :
    image.lineOffset p y = y * (dvpImageLineRange image p).toNat := by
  rw [lines, BitVec.toNat_udiv] at hy htotal
  rw [lineOffset, dvpImagePatchOffset]
  generalize dvpImageHeightDiv image p = div at hy htotal ⊢
  generalize dvpImageLineRange image p = range at htotal ⊢
  -- a line that there is ends inside the patch, so its first row is inside too
  have hmul : (y + 1) * div.toNat ≤ image.height.toNat := by
    have hle := Nat.mul_le_mul_right div.toNat (Nat.succ_le_of_lt hy)
    exact Nat.le_trans hle (Nat.div_mul_le_self _ _)
  have hdiv : 0 < div.toNat := by
    rcases Nat.eq_zero_or_pos div.toNat with hzero | hpos
    · rw [hzero, Nat.div_zero] at hy
      exact absurd hy (Nat.not_lt_zero _)
    · exact hpos
  have hheight := image.height.isLt
  rw [Nat.add_mul, Nat.one_mul] at hmul
  have hyle : y ≤ y * div.toNat := Nat.le_mul_of_pos_right y hdiv
  have hline : (BitVec.ofNat 32 y * div).toNat = y * div.toNat := by
    rw [BitVec.toNat_mul, BitVec.toNat_ofNat, Nat.mod_eq_of_lt (a := y) (by omega),
      Nat.mod_eq_of_lt (by omega)]
  have hinside : p < image.planes.toNat ∧ 0 < image.width ∧
      BitVec.ofNat 32 y * div < image.height := by
    refine ⟨hp, (BitVec.pos_iff_ne_zero _).mpr hwidth, ?_⟩
    rw [BitVec.lt_def, hline]
    omega
  rw [if_pos hinside]
  have hrow : (BitVec.ofNat 32 y * div / div).toNat = y := by
    rw [BitVec.toNat_udiv, hline, Nat.mul_div_cancel y hdiv]
  have hlt : y * range.toNat < 2 ^ 32 :=
    Nat.lt_of_le_of_lt (Nat.mul_le_mul_right _ (Nat.le_of_lt hy)) htotal
  have hcolumn (d e : BitVec 32) : 0 / d * e = 0#32 := by simp
  rw [hcolumn, BitVec.add_zero, BitVec.toNat_mul, hrow, Nat.mod_eq_of_lt hlt]

/-- Lines follow each other when the distance between them is at least their size. -/
theorem DvpImage.linesApart_of_lineRange
    (hsize : ∀ p < image.planes.toNat,
      (dvpImagePatchLineSize image p).toNat ≤ (dvpImageLineRange image p).toNat)
    (htotal : ∀ p < image.planes.toNat,
      image.lines p * (dvpImageLineRange image p).toNat < 2 ^ 32) :
    image.LinesApart := by
  intro p hp y hy z hz hyz
  by_cases hwidth : image.width = 0
  · -- There are no bytes in the lines.
    have hzero : (dvpImagePatchLineSize image p).toNat = 0 := by
      rw [dvpImagePatchLineSize, if_pos hp, hwidth]
      simp
    omega
  · rw [lineOffset_eq hp hy hwidth (htotal p hp), lineOffset_eq hp hz hwidth (htotal p hp)]
    have hle := hsize p hp
    generalize (dvpImageLineRange image p).toNat = range at hle
    rcases Nat.lt_or_gt_of_ne hyz with hlt | hlt
    · left
      have hmul := Nat.mul_le_mul_right range (Nat.succ_le_of_lt hlt)
      rw [Nat.succ_mul] at hmul
      omega
    · right
      have hmul := Nat.mul_le_mul_right range (Nat.succ_le_of_lt hlt)
      rw [Nat.succ_mul] at hmul
      omega

/-- The lines of an image are those of its planes. -/
theorem DvpImage.mem_allLines {x : Nat × Nat} :
    x ∈ image.allLines ↔ x.1 < image.planes.toNat ∧ x.2 < image.lines x.1 := by
  obtain ⟨p, y⟩ := x
  simp [allLines]

/-- No line is listed twice. -/
theorem DvpImage.nodup_allLines : image.allLines.Nodup := by
  rw [allLines, List.nodup_flatMap]
  constructor
  · intro p _
    exact List.nodup_range.map (fun y z heq => congrArg Prod.snd heq)
  · apply List.nodup_range.imp
    intro p q hpq x hp hq
    simp only [List.mem_map] at hp hq
    obtain ⟨y, -, rfl⟩ := hp
    obtain ⟨z, -, heq⟩ := hq
    exact hpq (congrArg Prod.fst heq).symm

/-- Setting a line leaves the others as they are. -/
theorem line_setLine_of_ne (hapart : image.LinesApart) {x x' : Nat × Nat}
    (hx : x ∈ image.allLines) (hx' : x' ∈ image.allLines) (hne : x' ≠ x)
    (data : Nat → Nat → UInt8) {bs : List UInt8}
    (hbs : bs.length = (dvpImagePatchLineSize image x'.1).toNat) :
    ((image.withData data).setLine x'.1 x'.2 bs).line x.1 x.2 =
      (image.withData data).line x.1 x.2 := by
  obtain ⟨p, y⟩ := x
  obtain ⟨p', z⟩ := x'
  rw [DvpImage.mem_allLines] at hx hx'
  -- lines of one plane are apart, those of different planes are in different buffers
  by_cases hp : p = p'
  · subst hp
    have hyz : y ≠ z := fun heq => hne (by rw [heq])
    have hdisjoint := hapart p hx.1 y hx.2 z hx'.2 hyz
    simp only [DvpImage.line, DvpImage.setLine, Function.update_self]
    apply peek_poke_of_apart
    rw [hbs]
    exact hdisjoint
  · simp only [DvpImage.line, DvpImage.setLine, Function.update_of_ne hp]
    rfl

/-- A line has the bytes that it was set to. -/
theorem line_setLine_self (data : Nat → Nat → UInt8) {bs : List UInt8}
    (hbs : bs.length = (dvpImagePatchLineSize image p).toNat) :
    ((image.withData data).setLine p y bs).line p y = bs := by
  have hself : ((image.withData data).setLine p y bs).line p y =
      peek (poke (data p) (image.lineOffset p y) bs) (image.lineOffset p y)
        (dvpImagePatchLineSize image p).toNat := by
    simp only [DvpImage.line, DvpImage.setLine, Function.update_self]
    rfl
  rw [hself, ← hbs, peek_poke_self]

/-- Lines that are not restored are as before. -/
theorem line_restoreLines_of_notMem (h : SameShape pImage image) (hapart : image.LinesApart)
    {xs : List (Nat × Nat)} (hxs : xs ⊆ image.allLines) {x : Nat × Nat}
    (hx : x ∈ image.allLines) (hnot : x ∉ xs) (data : Nat → Nat → UInt8) :
    (DvpImage.restoreLines pImage (image.withData data) xs).line x.1 x.2 =
      (image.withData data).line x.1 x.2 := by
  induction xs generalizing data with
  | nil => rfl
  | cons x' xs ih =>
    have hbs : (pImage.line x'.1 x'.2).length = (dvpImagePatchLineSize image x'.1).toNat := by
      rw [DvpImage.length_line, h.patchLineSize]
    have hne : x' ≠ x := fun heq => hnot (heq ▸ List.mem_cons_self)
    have hstep := line_setLine_of_ne hapart hx (hxs List.mem_cons_self) hne data hbs
    have hrest := ih (fun z hz => hxs (List.mem_cons_of_mem _ hz))
      (fun hmem => hnot (List.mem_cons_of_mem _ hmem))
      ((image.withData data).setLine x'.1 x'.2 (pImage.line x'.1 x'.2)).pData
    exact hrest.trans hstep

/-- A line that was restored is that of the other image. -/
theorem line_restoreLines (h : SameShape pImage image) (hapart : image.LinesApart)
    {xs : List (Nat × Nat)} (hnodup : xs.Nodup) (hxs : xs ⊆ image.allLines) {x : Nat × Nat}
    (hx : x ∈ xs) (data : Nat → Nat → UInt8) :
    (DvpImage.restoreLines pImage (image.withData data) xs).line x.1 x.2 =
      pImage.line x.1 x.2 := by
  induction xs generalizing data with
  | nil => exact absurd hx List.not_mem_nil
  | cons x' xs ih =>
    obtain ⟨hnot, hnodup⟩ := List.nodup_cons.mp hnodup
    have hsub : xs ⊆ image.allLines := fun z hz => hxs (List.mem_cons_of_mem _ hz)
    rcases List.mem_cons.mp hx with rfl | hmem
    · have hbs : (pImage.line x.1 x.2).length = (dvpImagePatchLineSize image x.1).toNat := by
        rw [DvpImage.length_line, h.patchLineSize]
      have hself := line_setLine_self (y := x.2) data hbs
      -- the lines set after it do not touch it
      have hkeep := line_restoreLines_of_notMem h hapart hsub (hxs List.mem_cons_self) hnot
        ((image.withData data).setLine x.1 x.2 (pImage.line x.1 x.2)).pData
      exact hkeep.trans hself
    · exact ih hnodup hsub hmem _

/-- The lines are restored. -/
theorem line_restore (h : SameShape pImage image) (hapart : image.LinesApart)
    (hp : p < pImage.planes.toNat) (hy : y < pImage.lines p) :
    (DvpImage.restore pImage image).line p y = pImage.line p y := by
  have hall : pImage.allLines = image.allLines := by
    simp only [DvpImage.allLines, h.lines, h.planes]
  have hmem : (p, y) ∈ pImage.allLines := DvpImage.mem_allLines.mpr ⟨hp, hy⟩
  rw [DvpImage.restore, hall]
  rw [hall] at hmem
  exact line_restoreLines h hapart DvpImage.nodup_allLines (List.Subset.refl _) hmem
    image.pData

/-- The image is read as it was written, when there is room for more. -/
theorem dvpImageUnserialize_eq {local₀ : DvpImage} (h : SameShape pImage image)
    (hpeek : peek buffer base (36 + pImage.patchSize) =
      pImage.units.flatten ++ pImage.patch.flatten)
    (hlen : 36 + pImage.patchSize < len) :
    dvpImageUnserialize image local₀ buffer base len =
      (DvpImage.restore pImage image, 36 + pImage.patchSize) := by
  rw [← DvpImage.length_units pImage, ← DvpImage.length_patch, ← List.length_append] at hpeek
  obtain ⟨hunits, hpatch⟩ := peek_eq_append.mp hpeek
  rw [DvpImage.length_units] at hunits hpatch
  obtain ⟨numBytes, offset, heq, -, hoffset⟩ :=
    unserializeHeader_prefix hunits (show 32 < len by omega)
  have h36 : offset = 36 := hoffset (by omega)
  subst h36
  rw [dvpImageUnserialize, heq]
  dsimp only
  rw [h.color, h.bufWidth, h.bufHeight]
  simp only [and_self, decide_true]
  rw [← DvpImage.length_patch] at hlen ⊢
  exact reads_lines h 36 hpatch hlen

/-- The position after the image is less than the length. -/
theorem dvpImageUnserialize_lt {local₀ : DvpImage} (h : SameShape pImage image)
    (hpeek : peek buffer base 36 = pImage.units.flatten) (hlen : 32 < len) :
    (dvpImageUnserialize image local₀ buffer base len).2 < len := by
  obtain ⟨numBytes, offset, heq, hoffset, -⟩ := unserializeHeader_prefix hpeek hlen
  rw [dvpImageUnserialize, heq]
  dsimp only
  rw [h.color, h.bufWidth, h.bufHeight]
  simp only [and_self, decide_true]
  exact stays_lines (image, offset) hoffset

end DVP.Kgraph
