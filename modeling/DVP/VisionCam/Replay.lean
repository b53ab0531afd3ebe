import DVP.Kgraph.ImageRoundTrip
import DVP.VisionCam.FilePool

/-!
# Recorded video is played back

`DVP_KN_IMAGE_DEBUG` of `source/dvp/dvp_kgm_cpu/dvp_kgm_cpu.c` writes the images it gets to a file, and the
`RunThread` of `source/dvp/VisionCam/FileVisionCam.cpp` reads images from a file without a header. A file that is read
is what is left of it; `fread` gives less than it is asked for at the end.

* `readImage_patch`: what an image holds after it was read from any file, also from one that ends too early.
* `replay_recorded`: the images that were recorded are read one after the other, and nothing is read after them.
* `fileCam_recorded`: the file camera delivers the images that were recorded.
-/

namespace DVP.VisionCam

open Bytes DVP.Kgraph

attribute [local instance] lawfulBEq_fourcc

/-! ## Recording -/

/-- The loops of `DVP_KN_IMAGE_DEBUG`: the file after an image. -/
def recordImage (file : List UInt8) (pImage : DvpImage) : List UInt8 :=
  (List.range pImage.planes.toNat).foldl (fun file p =>
    (List.range (pImage.lines p)).foldl (fun file y => file ++ pImage.line p y) file) file

/-- The file that is written for some images. -/
def record (images : List DvpImage) : List UInt8 := images.foldl recordImage []

/-! ## Reading -/

/-- The colours that are read from a file of the types `FILECAM_TYPE_RAW` and `FILECAM_TYPE_PYUV`. -/
def fileColors : List (BitVec 32) := [fourccUyvy, fourccNv12, fourccY800]

/-- The variables of `RunThread`: the image, what is left of the file, if it is open, and `bytesRead`. -/
structure Reading where
  pImage : DvpImage
  file : Option (List UInt8)
  bytesRead : Nat

/-- The round of the loops for a line of a plane. -/
def readLine (st : Reading) (x : Nat × Nat) : Reading :=
  let len := (dvpImagePatchLineSize st.pImage x.1).toNat
  match st.file with
  -- Without a file the image is gray.
  | none => ⟨st.pImage.setLine x.1 x.2 (List.replicate len 0x80), none, st.bytesRead + len⟩
  | some file =>
    let bytes := file.take len
    ⟨st.pImage.setLine x.1 x.2 bytes, some (file.drop len), st.bytesRead + bytes.length⟩

/-- The part of `RunThread` that fills the image of a buffer. -/
def readImage (file : Option (List UInt8)) (pImage : DvpImage) : Reading :=
  if pImage.color ∈ fileColors then
    (List.range pImage.planes.toNat).foldl (fun st p =>
      (List.range (pImage.lines p)).foldl (fun st y => readLine st (p, y)) st) ⟨pImage, file, 0⟩
  else ⟨pImage, file, 0⟩

/-- Reads one image after the other, each to the next buffer that is free. -/
def replay : Option (List UInt8) → List DvpImage → List Reading
  | _, [] => []
  | file, pImage :: pImages =>
    let st := readImage file pImage
    st :: replay st.file pImages

/-- The images have patches of the same format and dimensions. What is around the patch may differ. -/
structure SamePatch (pImage image : DvpImage) : Prop where
  planes : image.planes = pImage.planes
  width : image.width = pImage.width
  height : image.height = pImage.height
  xStride : image.xStride = pImage.xStride
  color : image.color = pImage.color

/-! ## What is recorded -/

section Record

variable {pImage image : DvpImage} {images : List DvpImage} {file : List UInt8}

theorem recordImage_eq : recordImage file pImage = file ++ pImage.patch.flatten := by
  have hlines (xs : List (List UInt8)) (file : List UInt8) :
      xs.foldl (· ++ ·) file = file ++ xs.flatten := by
    induction xs generalizing file with
    | nil => exact (List.append_nil file).symm
    | cons x xs ih => rw [List.foldl_cons, ih, List.flatten_cons, List.append_assoc]
  rw [← hlines, DvpImage.patch, List.foldl_flatMap]
  simp only [List.foldl_map]
  rfl

theorem record_eq : record images = (images.map fun image => image.patch.flatten).flatten := by
  have hfile (file : List UInt8) : images.foldl recordImage file =
      file ++ (images.map fun image => image.patch.flatten).flatten := by
    induction images generalizing file with
    | nil => exact (List.append_nil file).symm
    | cons image images ih =>
      rw [List.foldl_cons, ih, recordImage_eq, List.map_cons, List.flatten_cons, List.append_assoc]
  exact hfile []

theorem SamePatch.lines (h : SamePatch pImage image) {p : Nat} : image.lines p = pImage.lines p := by
  simp only [DvpImage.lines, dvpImageHeightDiv, h.height, h.planes, h.color]

theorem SamePatch.patchLineSize (h : SamePatch pImage image) {p : Nat} :
    dvpImagePatchLineSize image p = dvpImagePatchLineSize pImage p := by
  simp only [dvpImagePatchLineSize, dvpImageWidthStep, dvpImageWidthDiv, h.width, h.planes, h.color, h.xStride]

theorem SamePatch.patchSize (h : SamePatch pImage image) : image.patchSize = pImage.patchSize := by
  simp only [DvpImage.patchSize, h.planes, h.lines, h.patchLineSize]

/-- The lines of patches of the same shape have the same lengths. -/
theorem SamePatch.map_length (h : SamePatch pImage image) :
    image.patch.map List.length = pImage.patch.map List.length := by
  simp only [DvpImage.patch, List.map_flatMap, List.map_map, Function.comp_def, DvpImage.length_line, h.planes,
    h.lines, h.patchLineSize]

end Record

/-! ## Lines -/

section Lines

variable {m : Nat → UInt8} {o n p y : Nat} {bs : List UInt8} {image : DvpImage} {data : Nat → Nat → UInt8}

/-- Writing back what is there changes nothing. -/
theorem poke_peek : poke m o (peek m o n) = m := by
  funext i
  by_cases hlow : i < o
  · exact poke_of_lt hlow
  · by_cases hhigh : i < o + n
    · obtain ⟨j, rfl⟩ := Nat.exists_eq_add_of_le (Nat.not_lt.mp hlow)
      have hj : j < (peek m o n).length := by
        rw [length_peek]
        omega
      rw [poke_add hj]
      simp [peek]
    · refine poke_of_ge ?_
      rw [length_peek]
      exact Nat.not_lt.mp hhigh

/-- Writing the first bytes of a range writes the range with these bytes. -/
theorem poke_short (h : bs.length ≤ n) :
    poke m o bs = poke m o (bs ++ (peek m o n).drop bs.length) := by
  have hrest : (peek m o n).drop bs.length = peek (poke m o bs) (o + bs.length) (n - bs.length) := by
    rw [peek_poke_of_apart (.inr (Nat.le_refl _))]
    conv_lhs => rw [← Nat.add_sub_of_le h, peek_add]
    exact List.drop_left' length_peek
  rw [poke_append, hrest, poke_peek]

/-- A line that is read in part keeps the rest of its bytes. -/
theorem setLine_short (h : bs.length ≤ (dvpImagePatchLineSize image p).toNat) :
    (image.withData data).setLine p y bs = (image.withData data).setLine p y
      (bs ++ ((image.withData data).line p y).drop bs.length) := by
  have hpoke := poke_short (m := data p) (o := image.lineOffset p y) h
  rw [DvpImage.setLine, DvpImage.setLine]
  exact congrArg (fun m => { image.withData data with pData := Function.update data p m }) hpoke

end Lines

/-! ## What is read -/

section Read

variable {image : DvpImage} {file : List UInt8}

/-- The number of bytes in some lines. -/
def linesSize (image : DvpImage) (xs : List (Nat × Nat)) : Nat :=
  (xs.map fun x => (dvpImagePatchLineSize image x.1).toNat).sum

/-- The bytes of some lines. -/
def linesBytes (image : DvpImage) (xs : List (Nat × Nat)) : List UInt8 :=
  (xs.map fun x => image.line x.1 x.2).flatten

/-- Bytes that are read over two ranges of memory are read over one after the other. -/
theorem take_append_drop_append (old old' : List UInt8) {n n' : Nat} (h : old.length = n) :
    (file.take n ++ old.drop file.length) ++
        ((file.drop n).take n' ++ old'.drop (file.drop n).length) =
      file.take (n + n') ++ (old ++ old').drop file.length := by
  rw [List.take_add, List.drop_append, List.length_drop, h]
  by_cases hle : n ≤ file.length
  · have hold : old.drop file.length = [] := List.drop_eq_nil_of_le (h ▸ hle)
    rw [hold, List.append_nil, List.nil_append, List.append_assoc]
  · have hdrop : file.drop n = [] := List.drop_eq_nil_of_le (Nat.le_of_not_le hle)
    rw [hdrop, List.take_nil, List.append_nil, List.nil_append, List.append_assoc]

/-- The lines are read one after the other, and other lines stay. The induction is on the lines, whose bytes are
those of the file as far as it goes. -/
theorem readLines_eq (file : List UInt8) (hapart : image.LinesApart) {xs : List (Nat × Nat)}
    (hnodup : xs.Nodup)
    (hsub : xs ⊆ image.allLines) (data : Nat → Nat → UInt8) (n : Nat) :
    ∃ data', xs.foldl readLine ⟨image.withData data, some file, n⟩ =
        ⟨image.withData data', some (file.drop (linesSize image xs)),
          n + min (linesSize image xs) file.length⟩ ∧
      linesBytes (image.withData data') xs =
        file.take (linesSize image xs) ++ (linesBytes (image.withData data) xs).drop file.length ∧
      ∀ x ∈ image.allLines, x ∉ xs →
        (image.withData data').line x.1 x.2 = (image.withData data).line x.1 x.2 := by
  induction xs generalizing data file n with
  | nil => exact ⟨data, by simp [linesSize], by simp [linesBytes, linesSize], fun _ _ _ => rfl⟩
  | cons x xs ih =>
    obtain ⟨hnot, hnodup⟩ := List.nodup_cons.mp hnodup
    have hx : x ∈ image.allLines := hsub List.mem_cons_self
    have hsub' : xs ⊆ image.allLines := fun z hz => hsub (List.mem_cons_of_mem _ hz)
    let len := (dvpImagePatchLineSize image x.1).toNat
    let old := (image.withData data).line x.1 x.2
    have hold : old.length = len := DvpImage.length_line _
    have hshort : (file.take len).length ≤ len := List.length_take_le _ _
    -- What the line holds after it was read.
    let new := file.take len ++ old.drop (file.take len).length
    have hnew : new.length = len := by
      rw [List.length_append, List.length_drop, hold]
      omega
    have hset : (image.withData data).setLine x.1 x.2 (file.take len) =
        (image.withData data).setLine x.1 x.2 new := setLine_short hshort
    obtain ⟨data₁, hdata₁⟩ :
        ∃ data₁, (image.withData data).setLine x.1 x.2 new = image.withData data₁ :=
      DvpImage.setLine_withData
    have hself : (image.withData data₁).line x.1 x.2 = new := hdata₁ ▸ line_setLine_self data hnew
    have hother : ∀ z ∈ image.allLines, z ≠ x →
        (image.withData data₁).line z.1 z.2 = (image.withData data).line z.1 z.2 := fun z hz hzx =>
      hdata₁ ▸ line_setLine_of_ne hapart hz hx (Ne.symm hzx) data hnew
    obtain ⟨data', hread, hbytes, hstay⟩ := ih (file.drop len) hnodup hsub' data₁ (n + (file.take len).length)
    have hsize : linesSize image (x :: xs) = len + linesSize image xs := List.sum_cons ..
    have hlines : linesBytes (image.withData data₁) xs = linesBytes (image.withData data) xs := by
      refine congrArg List.flatten (List.map_congr_left fun z hz => ?_)
      exact hother z (hsub' hz) fun hzx => hnot (hzx ▸ hz)
    refine ⟨data', ?_, ?_, fun z hz hzx => ?_⟩
    · have hfirst : readLine ⟨image.withData data, some file, n⟩ x =
          ⟨image.withData data₁, some (file.drop len), n + (file.take len).length⟩ :=
        congrArg (fun image => (⟨image, some (file.drop len), n + (file.take len).length⟩ : Reading))
          (hset.trans hdata₁)
      rw [List.foldl_cons, hfirst, hread, hsize, List.drop_drop, List.length_take, List.length_drop]
      congr 1
      omega
    · have hline : linesBytes (image.withData data') (x :: xs) =
          new ++ linesBytes (image.withData data') xs := by
        rw [linesBytes, List.map_cons, List.flatten_cons, hstay x hx hnot, hself]
        rfl
      have hprefix : new = file.take len ++ old.drop file.length := by
        have hlength : (file.take len).length = min len file.length := List.length_take ..
        by_cases hle : len ≤ file.length
        · change file.take len ++ old.drop (file.take len).length = _
          rw [hlength, Nat.min_eq_left hle, List.drop_eq_nil_of_le (Nat.le_of_eq hold),
            List.drop_eq_nil_of_le (hold.trans_le hle)]
        · change file.take len ++ old.drop (file.take len).length = _
          rw [hlength, Nat.min_eq_right (Nat.le_of_not_le hle)]
      rw [hline, hbytes, hlines, hsize, hprefix, take_append_drop_append old _ hold]
      rfl
    · rw [hstay z hz fun hmem => hzx (List.mem_cons_of_mem _ hmem)]
      exact hother z hz fun heq => hzx (heq ▸ List.mem_cons_self)

theorem linesBytes_allLines (image : DvpImage) : linesBytes image image.allLines = image.patch.flatten := by
  rw [linesBytes, DvpImage.allLines, DvpImage.patch, List.map_flatMap]
  simp only [List.map_map, Function.comp_def]

theorem linesSize_allLines : linesSize image image.allLines = image.patchSize := by
  rw [← DvpImage.length_patch, ← linesBytes_allLines image, linesBytes, List.length_flatten, List.map_map, linesSize]
  simp only [Function.comp_def, DvpImage.length_line]

/-- An image that is read from any file holds the bytes of the file, as far as they go, and else what it held
before. -/
theorem readImage_patch (hcolor : image.color ∈ fileColors) (hapart : image.LinesApart) (file : List UInt8) :
    ∃ data', readImage (some file) image = ⟨image.withData data', some (file.drop image.patchSize),
        min image.patchSize file.length⟩ ∧
      (image.withData data').patch.flatten =
        file.take image.patchSize ++ image.patch.flatten.drop file.length := by
  obtain ⟨data', hread, hbytes, -⟩ := readLines_eq file hapart DvpImage.nodup_allLines (List.Subset.refl _)
    image.pData 0
  have hlines : readImage (some file) image =
      image.allLines.foldl readLine ⟨image.withData image.pData, some file, 0⟩ := by
    rw [readImage, if_pos hcolor, DvpImage.allLines, List.foldl_flatMap]
    simp only [List.foldl_map]
    rfl
  refine ⟨data', ?_, ?_⟩
  · rw [hlines, hread, linesSize_allLines, Nat.zero_add]
  · have hafter : linesBytes (image.withData data') image.allLines = (image.withData data').patch.flatten :=
      linesBytes_allLines _
    have hbefore : linesBytes (image.withData image.pData) image.allLines = image.patch.flatten :=
      linesBytes_allLines _
    rw [← hafter, hbytes, hbefore, linesSize_allLines]

end Read

/-- An image at the end of the file. -/
theorem readImage_nil : readImage (some []) image = ⟨image, some [], 0⟩ := by
  have hline (x : Nat × Nat) : readLine ⟨image, some [], 0⟩ x = ⟨image, some [], 0⟩ := by
    have hset : image.setLine x.1 x.2 [] = image := by
      rw [DvpImage.setLine, poke_nil, Function.update_eq_self]
    simp only [readLine, List.take_nil, List.drop_nil, hset, List.length_nil, Nat.add_zero]
  have hlines (xs : List (Nat × Nat)) :
      xs.foldl readLine ⟨image, some [], 0⟩ = ⟨image, some [], 0⟩ := by
    induction xs with
    | nil => rfl
    | cons x xs ih => rw [List.foldl_cons, hline, ih]
  rw [readImage]
  split_ifs
  · refine Eq.trans ?_ (hlines image.allLines)
    rw [DvpImage.allLines, List.foldl_flatMap]
    simp only [List.foldl_map]
  · rfl

/-! ## Playing back -/

section Replay

variable {pImage : DvpImage} {frames targets : List DvpImage} {file : List UInt8} {k : Nat}

theorem SamePatch.withData {image : DvpImage} (h : SamePatch pImage image) {data : Nat → Nat → UInt8} :
    SamePatch pImage (image.withData data) :=
  ⟨h.planes, h.width, h.height, h.xStride, h.color⟩

/-- Patches of the same shape with the same bytes have the same lines. -/
theorem SamePatch.patch_eq {image image' : DvpImage} (h : SamePatch pImage image) (h' : SamePatch pImage image')
    (hbytes : image.patch.flatten = image'.patch.flatten) : image.patch = image'.patch :=
  List.eq_iff_flatten_eq.mpr ⟨hbytes, h.map_length.trans h'.map_length.symm⟩

/-- Each image is read from where the one before ends. -/
theorem replay_getElem? (hsame : ∀ image ∈ targets, SamePatch pImage image)
    (hcolor : pImage.color ∈ fileColors) (hapart : ∀ image ∈ targets, image.LinesApart) (hk : k < targets.length) :
    (replay (some file) targets)[k]? =
      some (readImage (some (file.drop (k * pImage.patchSize))) targets[k]) := by
  induction targets generalizing file k with
  | nil => exact absurd hk (Nat.not_lt_zero k)
  | cons image targets ih =>
    rw [replay]
    cases k with
    | zero => rw [Nat.zero_mul, List.drop_zero, List.getElem?_cons_zero, List.getElem_cons_zero]
    | succ k =>
      have hfirst := hsame image List.mem_cons_self
      obtain ⟨data', hread, -⟩ := readImage_patch (hfirst.color ▸ hcolor) (hapart image List.mem_cons_self) file
      rw [List.getElem?_cons_succ, List.getElem_cons_succ, hread, hfirst.patchSize,
        ih (fun z hz => hsame z (List.mem_cons_of_mem _ hz)) (fun z hz => hapart z (List.mem_cons_of_mem _ hz))
          (Nat.lt_of_succ_lt_succ hk),
        List.drop_drop, Nat.succ_mul, Nat.add_comm]

/-- Every image is read. -/
theorem length_replay {file : Option (List UInt8)} : (replay file targets).length = targets.length := by
  induction targets generalizing file with
  | nil => rfl
  | cons image targets ih => exact congrArg (· + 1) ih

/-- Parts of one length follow each other in a list. -/
theorem drop_flatten {α : Type} {n : Nat} {parts : List (List α)} (h : ∀ part ∈ parts, part.length = n) :
    parts.flatten.drop (k * n) = (parts.drop k).flatten := by
  induction parts generalizing k with
  | nil => rw [List.flatten_nil, List.drop_nil, List.drop_nil, List.flatten_nil]
  | cons part parts ih =>
    cases k with
    | zero => rw [Nat.zero_mul, List.drop_zero, List.drop_zero]
    | succ k =>
      have hpart : part.length = n := h part List.mem_cons_self
      rw [List.flatten_cons, List.drop_succ_cons, Nat.succ_mul, Nat.add_comm, ← List.drop_drop,
        List.drop_left' hpart]
      exact ih fun z hz => h z (List.mem_cons_of_mem _ hz)

/-- What is left of the file when an image is read. -/
theorem drop_record (hframes : ∀ image ∈ frames, SamePatch pImage image) :
    (record frames).drop (k * pImage.patchSize) =
      ((frames.drop k).map fun image => image.patch.flatten).flatten := by
  have hlengths : ∀ part ∈ frames.map fun image => image.patch.flatten,
      part.length = pImage.patchSize := fun part hpart => by
    obtain ⟨image, himage, rfl⟩ := List.mem_map.mp hpart
    rw [DvpImage.length_patch, (hframes image himage).patchSize]
  rw [record_eq, drop_flatten hlengths, List.map_drop]

/-- An image that was recorded is read as a whole. -/
theorem replay_frame (hframes : ∀ image ∈ frames, SamePatch pImage image)
    (htargets : ∀ image ∈ targets, SamePatch pImage image) (hcolor : pImage.color ∈ fileColors)
    (hapart : ∀ image ∈ targets, image.LinesApart) (hk : k < targets.length) (hlt : k < frames.length) :
    ∃ st, (replay (some (record frames)) targets)[k]? = some st ∧
      st.pImage.patch = frames[k].patch ∧ st.bytesRead = pImage.patchSize := by
  have htarget := htargets targets[k] (List.getElem_mem hk)
  have hframe := hframes frames[k] (List.getElem_mem hlt)
  obtain ⟨data', hread, hbytes⟩ := readImage_patch (htarget.color ▸ hcolor)
    (hapart targets[k] (List.getElem_mem hk)) ((record frames).drop (k * pImage.patchSize))
  have hlength : frames[k].patch.flatten.length = pImage.patchSize := by
    rw [DvpImage.length_patch, hframe.patchSize]
  have hrest : (record frames).drop (k * pImage.patchSize) = frames[k].patch.flatten ++
      ((frames.drop (k + 1)).map fun image => image.patch.flatten).flatten := by
    rw [drop_record hframes, List.drop_eq_getElem_cons hlt, List.map_cons, List.flatten_cons]
  have henough : pImage.patchSize ≤ ((record frames).drop (k * pImage.patchSize)).length := by
    rw [hrest, List.length_append, hlength]
    exact Nat.le_add_right _ _
  refine ⟨_, replay_getElem? htargets hcolor hapart hk, ?_⟩
  rw [hread]
  refine ⟨htarget.withData.patch_eq hframe ?_, ?_⟩
  · have hold : targets[k].patch.flatten.length ≤ ((record frames).drop (k * pImage.patchSize)).length := by
      rw [DvpImage.length_patch, htarget.patchSize]
      exact henough
    rw [hbytes, List.drop_eq_nil_of_le hold, List.append_nil, htarget.patchSize, hrest, List.take_left' hlength]
  · dsimp only
    rw [htarget.patchSize, Nat.min_eq_left henough]

/-- Behind the images that were recorded nothing is read. -/
theorem replay_end (hframes : ∀ image ∈ frames, SamePatch pImage image)
    (htargets : ∀ image ∈ targets, SamePatch pImage image) (hcolor : pImage.color ∈ fileColors)
    (hapart : ∀ image ∈ targets, image.LinesApart) (hk : k < targets.length) (hle : frames.length ≤ k) :
    (replay (some (record frames)) targets)[k]? = some ⟨targets[k], some [], 0⟩ := by
  rw [replay_getElem? htargets hcolor hapart hk, drop_record hframes, List.drop_eq_nil_of_le hle, List.map_nil,
    List.flatten_nil, readImage_nil]

/-- Images that were recorded are read one after the other, each as a whole, into images with patches of the same
format and dimensions. After the last one nothing is read: the next images stay as they are, and the frames with
them have the length zero. -/
theorem replay_recorded (frames targets : List DvpImage) (k : Nat)
    (hframes : ∀ image ∈ frames, SamePatch pImage image)
    (htargets : ∀ image ∈ targets, SamePatch pImage image) (hcolor : pImage.color ∈ fileColors)
    (hapart : ∀ image ∈ targets, image.LinesApart) (hk : k < targets.length) :
    ∃ st, (replay (some (record frames)) targets)[k]? = some st ∧
      (∀ hlt : k < frames.length,
        st.pImage.patch = frames[k].patch ∧ st.bytesRead = pImage.patchSize) ∧
      (frames.length ≤ k → st.pImage = targets[k] ∧ st.bytesRead = 0) := by
  rcases Nat.lt_or_ge k frames.length with hlt | hle
  · obtain ⟨st, hst, hread⟩ := replay_frame hframes htargets hcolor hapart hk hlt
    exact ⟨st, hst, fun _ => hread, fun hle => absurd hlt (Nat.not_lt.mpr hle)⟩
  · exact ⟨_, replay_end hframes htargets hcolor hapart hk hle, fun hlt => absurd hlt (Nat.not_lt.mpr hle),
      fun _ => ⟨rfl, rfl⟩⟩

/-- An image of two lines with two bytes each. -/
def grayImage (byte : UInt8) : DvpImage where
  pData := fun _ _ => byte
  planes := 1
  width := 2
  height := 2
  bufWidth := 2
  bufHeight := 2
  xStart := 0
  yStart := 0
  xStride := 1
  yStride := 2
  color := fourccY800
  numBytes := 4

/-- Of three images, the third one finds the end of a file of two. -/
theorem replay_recorded_gray : ∃ st st' : Reading,
    (replay (some (record [grayImage 7, grayImage 9])) [grayImage 0, grayImage 1, grayImage 2])[1]? = some st ∧
      st.pImage.patch = (grayImage 9).patch ∧ st.bytesRead = (grayImage 7).patchSize ∧
      (replay (some (record [grayImage 7, grayImage 9]))
        [grayImage 0, grayImage 1, grayImage 2])[2]? = some st' ∧
      st'.pImage = grayImage 2 ∧ st'.bytesRead = 0 := by
  have hsame (byte : UInt8) : SamePatch (grayImage 7) (grayImage byte) := ⟨rfl, rfl, rfl, rfl, rfl⟩
  have hzero : (grayImage 0).LinesApart :=
    DvpImage.linesApart_of_lineRange (by decide) (by decide)
  have hapart (byte : UInt8) : (grayImage byte).LinesApart := hzero
  have hframes : ∀ image ∈ [grayImage 7, grayImage 9], SamePatch (grayImage 7) image := by
    simp [hsame]
  have htargets : ∀ image ∈ [grayImage 0, grayImage 1, grayImage 2], SamePatch (grayImage 7) image := by
    simp [hsame]
  have haparts : ∀ image ∈ [grayImage 0, grayImage 1, grayImage 2], image.LinesApart := by
    simp [hapart]
  obtain ⟨st, hst, hread, -⟩ := replay_recorded _ _ 1 hframes htargets (by decide) haparts (by decide)
  obtain ⟨st', hst', -, hend⟩ := replay_recorded _ _ 2 hframes htargets (by decide) haparts (by decide)
  obtain ⟨hpatch, hbytes⟩ := hread (by decide)
  obtain ⟨hsame', hzero⟩ := hend (by decide)
  exact ⟨st, st', hst, hpatch, hbytes, hst', hsame', hzero⟩

/-! ## The file camera -/

/-- The reading of `RunThread` from a file without a header. -/
def fileReading (file : Option (List UInt8)) (pImage : DvpImage) : DvpImage × Option (List UInt8) :=
  ((readImage file pImage).pImage, (readImage file pImage).file)

/-- What the images of the camera get is what images of their own get that are read one after the other, each
with what the image of the camera holds then. -/
theorem exists_replay (file : List UInt8) {images : Nat → DvpImage} (shownIn : List Nat) (hcolor : pImage.color ∈ fileColors)
    (himages : ∀ b, SamePatch pImage (images b) ∧ (images b).LinesApart) :
    ∃ targets, targets.length = shownIn.length ∧
      (∀ image ∈ targets, SamePatch pImage image ∧ image.LinesApart) ∧
      playback fileReading (some file, images) shownIn = (replay (some file) targets).map Reading.pImage := by
  induction shownIn generalizing file images with
  | nil => exact ⟨[], rfl, fun _ h => absurd h List.not_mem_nil, rfl⟩
  | cons b shownIn ih =>
    obtain ⟨hsame, hapart⟩ := himages b
    obtain ⟨data, hread, -⟩ := readImage_patch (hsame.color ▸ hcolor) hapart file
    have hafter : ∀ b', SamePatch pImage (Function.update images b ((images b).withData data) b') ∧
        (Function.update images b ((images b).withData data) b').LinesApart := by
      intro b'
      by_cases hb : b' = b
      · rw [hb, Function.update_self]
        exact ⟨hsame.withData, hapart⟩
      · rw [Function.update_of_ne hb]
        exact himages b'
    obtain ⟨targets, hlength, htargets, hplays⟩ := ih (file.drop (images b).patchSize) hafter
    refine ⟨images b :: targets, congrArg (· + 1) hlength,
      List.forall_mem_cons.mpr ⟨⟨hsame, hapart⟩, htargets⟩, ?_⟩
    have hrest : readings fileReading (some file, images) [b] =
        (some (file.drop (images b).patchSize), Function.update images b ((images b).withData data)) := by
      change ((readImage (some file) (images b)).file,
        Function.update images b (readImage (some file) (images b)).pImage) = _
      rw [hread]
    rw [playback, hrest, hplays, replay, List.map_cons, hread]
    change (readImage (some file) (images b)).pImage :: _ = _
    rw [hread]

/-- The file camera delivers the images that were recorded, in order, whatever the client does with them. -/
theorem fileCam_recorded {images : Nat → DvpImage} {prvBufArr : List Nat} {acts : List FileAct}
    {s : FileCam (Option (List UInt8)) DvpImage} {rs : List Bool}
    (hframes : ∀ image ∈ frames, SamePatch pImage image) (hcolor : pImage.color ∈ fileColors)
    (himages : ∀ b, SamePatch pImage (images b) ∧ (images b).LinesApart) (hnodup : prvBufArr.Nodup)
    (hrun : Machine.run (fileStep fileReading) (.started (some (record frames)) images prvBufArr true) acts =
      .ok (s, rs)) (hk : k < frames.length) (hshown : k < s.shown.length) :
    s.shown[k].patch = frames[k].patch := by
  have hplayback := (plays_run (fileInv_started hnodup) plays_started rfl hrun).shown
  obtain ⟨targets, -, htargets, hreplay⟩ := exists_replay (record frames) s.shownIn hcolor himages
  have hpictures : s.shown = (replay (some (record frames)) targets).map Reading.pImage :=
    hplayback.trans hreplay
  have hlength : (replay (some (record frames)) targets).length = targets.length := length_replay
  have hlt : k < targets.length := by
    rw [hpictures, List.length_map, hlength] at hshown
    exact hshown
  obtain ⟨st, hst, hpatch, -⟩ := replay_frame hframes (fun image himage => (htargets image himage).1) hcolor
    (fun image himage => (htargets image himage).2) hlt hk
  have hpicture : s.shown[k]? = some st.pImage := by
    rw [hpictures, List.getElem?_map, hst]
    rfl
  rw [List.getElem?_eq_getElem hshown] at hpicture
  rw [Option.some.inj hpicture]
  exact hpatch

end Replay

end DVP.VisionCam
