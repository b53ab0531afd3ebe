import DVP.Kgraph.ImagePlaced

/-!
# Filling an image

`DVP_Image_Fill` is to copy a buffer of `size` bytes to the patch, but its test of the size has the
wrong direction: it copies the whole patch when the buffer is not larger than the patch.

* `dvpImageFill_eq` says which transfers the call makes, as long as the buffer holds the patch.
* `dvpImageFill_respects_iff`: the call keeps to its buffer, and fills the patch from a buffer that
  is large enough, exactly when the buffer holds the patch and is not larger than
  `DVP_Image_PatchSize`, and no two bytes of the patch share an address.
-/

namespace DVP.Kgraph

open Sosal Transfer

variable {a : Arch} {image : DvpImageT} {size : BitVec 32} {mem buf : Nat → UInt8}

/-! ## The transfers -/

/-- A line is copied from the running offset. -/
theorem fillLine_eq {ts : List (Transfer (Nat ⊕ Nat) UInt8)} {off : BitVec 32} {l : Nat × Nat} :
    fillLine a image (ts, off) l =
      (ts ++ copyList ((lineAddresses a image l).map .inl) .inr off.toNat,
        off + dvpImagePatchLineSize image.shape l.1) := by
  rw [lineAddresses, List.map_map, copyList_map_range]
  rfl

/-- As long as the offset does not wrap, the lines are copied one after the other. -/
theorem fillLines_eq {ls : List (Nat × Nat)} {ts : List (Transfer (Nat ⊕ Nat) UInt8)}
    {off : BitVec 32} (h : off.toNat + (ls.flatMap (lineAddresses a image)).length < 2 ^ 32) :
    (ls.foldl (fillLine a image) (ts, off)).1 =
      ts ++ copyList ((ls.flatMap (lineAddresses a image)).map .inl) .inr off.toNat := by
  induction ls generalizing ts off with
  | nil => exact (List.append_nil ts).symm
  | cons l ls ih =>
    rw [List.flatMap_cons, List.length_append, length_lineAddresses] at h
    -- the offset of the next line
    have hoff : (off + dvpImagePatchLineSize image.shape l.1).toNat =
        off.toNat + (dvpImagePatchLineSize image.shape l.1).toNat := by
      rw [BitVec.toNat_add, Nat.mod_eq_of_lt (by omega)]
    rw [List.foldl_cons, fillLine_eq, ih (by omega), hoff, List.flatMap_cons, List.map_append,
      copyList_append, List.length_map, length_lineAddresses, List.append_assoc]

/-- If the lines have more bytes than the buffer, the byte behind the buffer is read. -/
theorem mem_reads_fillLines {ls : List (Nat × Nat)} {ts : List (Transfer (Nat ⊕ Nat) UInt8)}
    {off : BitVec 32}
    (h : .inr size.toNat ∈ reads ts ∨ off.toNat ≤ size.toNat ∧
      size.toNat < off.toNat + (ls.flatMap (lineAddresses a image)).length) :
    .inr size.toNat ∈ reads (ls.foldl (fillLine a image) (ts, off)).1 := by
  induction ls generalizing ts off with
  | nil =>
    rw [List.flatMap_nil, List.length_nil] at h
    exact h.resolve_right fun hlt => by omega
  | cons l ls ih =>
    rw [List.flatMap_cons, List.length_append, length_lineAddresses] at h
    rw [List.foldl_cons, fillLine_eq]
    apply ih
    rw [reads_append, List.mem_append, mem_reads_copyList, List.length_map, length_lineAddresses]
    rcases h with hmem | ⟨hle, hlt⟩
    · exact .inl (.inl hmem)
    by_cases hline : size.toNat < off.toNat + (dvpImagePatchLineSize image.shape l.1).toNat
    -- the buffer ends in this line
    · exact .inl (.inr ⟨size.toNat - off.toNat, by omega, by rw [Nat.add_sub_cancel' hle]⟩)
    -- or in a later one, and then the offset of the next line does not wrap
    · have hsize := size.isLt
      right
      rw [BitVec.toNat_add, Nat.mod_eq_of_lt (by omega)]
      omega

theorem dvpImageFill_eq (hguard : size ≤ dvpImagePatchSize image.shape)
    (hholds : image.shape.patchSize ≤ size.toNat) :
    dvpImageFill a image size = copyList ((patchAddresses a image).map .inl) .inr 0 := by
  have hsize := size.isLt
  have hlt : (0 : BitVec 32).toNat + (patchAddresses a image).length < 2 ^ 32 := by
    rw [length_patchAddresses]
    show 0 + _ < _
    omega
  rw [dvpImageFill, if_pos hguard, fillLines_eq hlt]
  rfl

/-- Whatever is written is a byte of the patch. -/
theorem writes_dvpImageFill {d : Nat ⊕ Nat} (hd : d ∈ writes (dvpImageFill a image size)) :
    ∃ ptr ∈ patchAddresses a image, d = .inl ptr := by
  have hloop : ∀ (ls : List (Nat × Nat)) (st : List (Transfer (Nat ⊕ Nat) UInt8) × BitVec 32),
      d ∈ writes (ls.foldl (fillLine a image) st).1 →
        d ∈ writes st.1 ∨ d ∈ (ls.flatMap (lineAddresses a image)).map .inl := by
    intro ls
    induction ls with
    | nil => exact fun st h => .inl h
    | cons l ls ih =>
      intro st h
      rw [List.flatMap_cons, List.map_append, List.mem_append]
      rcases ih _ h with hst | hls
      · rw [fillLine_eq, writes_append, writes_copyList, List.mem_append] at hst
        exact hst.imp_right .inl
      · exact .inr (.inr hls)
  unfold dvpImageFill at hd
  split_ifs at hd
  · obtain ⟨ptr, hptr, rfl⟩ := List.mem_map.mp ((hloop _ _ hd).resolve_left List.not_mem_nil)
    exact ⟨ptr, hptr, rfl⟩
  · exact absurd hd List.not_mem_nil

/-! ## Keeping to the buffer -/

/-- The call reads only the `size` bytes of the buffer, changes only bytes of the patch, and fills
the patch with the first bytes of a buffer that is not smaller than `DVP_Image_PatchSize`. -/
structure FillRespects (a : Arch) (image : DvpImageT) (size : BitVec 32) : Prop where
  reads_buf : ∀ s ∈ reads (dvpImageFill a image size), ∃ i < size.toNat, s = .inr i
  fills : dvpImagePatchSize image.shape ≤ size → ∀ mem buf : Nat → UInt8,
    (patchAddresses a image).map
        (fun ptr => run (Sum.elim mem buf) (dvpImageFill a image size) (.inl ptr)) =
      (List.range image.shape.patchSize).map buf
  keeps : ∀ (mem buf : Nat → UInt8), ∀ ptr ∉ patchAddresses a image,
    run (Sum.elim mem buf) (dvpImageFill a image size) (.inl ptr) = mem ptr

/-- A call that stays in its buffer has a buffer that holds the patch. -/
theorem FillRespects.holds (h : FillRespects a image size)
    (hguard : size ≤ dvpImagePatchSize image.shape) : image.shape.patchSize ≤ size.toNat := by
  by_contra hlt
  have hmem : .inr size.toNat ∈ reads (dvpImageFill a image size) := by
    rw [dvpImageFill, if_pos hguard]
    apply mem_reads_fillLines
    refine .inr ⟨Nat.zero_le _, ?_⟩
    have hlength : (image.shape.allLines.flatMap (lineAddresses a image)).length =
        image.shape.patchSize := length_patchAddresses
    rw [hlength]
    show _ < 0 + _
    omega
  obtain ⟨i, hi, heq⟩ := h.reads_buf _ hmem
  rw [Sum.inr.inj heq] at hi
  exact absurd hi (Nat.lt_irrefl i)

/-- Two bytes of a filled patch cannot share an address, since the bytes of the buffer are any. -/
theorem FillRespects.nodup (h : FillRespects a image size)
    (hguard : size = dvpImagePatchSize image.shape) : (patchAddresses a image).Nodup := by
  rw [List.nodup_iff_injective_getElem]
  rintro ⟨j, hj⟩ ⟨k, hk⟩ hjk
  rw [Fin.mk.injEq]
  by_contra hne
  -- a buffer whose bytes `j` and `k` differ
  have hle : dvpImagePatchSize image.shape ≤ size := hguard ▸ BitVec.le_refl _
  have hfills := h.fills hle (fun _ => 0) (Function.update (fun _ => 0) j 1)
  have hat : ∀ i, ∀ hi : i < (patchAddresses a image).length,
      run (Sum.elim (fun _ => 0) (Function.update (fun _ => 0) j 1))
          (dvpImageFill a image size) (.inl (patchAddresses a image)[i]) =
        Function.update (fun _ => (0 : UInt8)) j 1 i := by
    intro i hi
    have hget := List.getElem_of_eq hfills (i := i) (by rwa [List.length_map])
    rwa [List.getElem_map, List.getElem_map, List.getElem_range] at hget
  have hsame := (hat j hj).symm.trans (congrArg _ (congrArg Sum.inl hjk) |>.trans (hat k hk))
  rw [Function.update_self, Function.update_of_ne (Ne.symm hne)] at hsame
  exact absurd hsame (by decide)

/-- A call that does nothing fills only a patch without bytes. -/
theorem FillRespects.guard (h : FillRespects a image size) (hbytes : image.shape.patchSize ≠ 0) :
    size ≤ dvpImagePatchSize image.shape := by
  by_contra hguard
  have hnone : dvpImageFill a image size = [] := if_neg hguard
  have hfills := h.fills (BitVec.le_of_lt (BitVec.not_le.mp hguard)) (fun _ => 0) (fun _ => 1)
  rw [hnone, ← length_patchAddresses (a := a)] at hfills
  have hpos : 0 < (patchAddresses a image).length := by
    rw [length_patchAddresses]
    omega
  have hget := List.getElem_of_eq hfills (i := 0) (by rwa [List.length_map])
  rw [List.getElem_map, List.getElem_map] at hget
  exact absurd hget (show ¬(0 : UInt8) = 1 by decide)

theorem dvpImageFill_keeps : ∀ ptr ∉ patchAddresses a image,
    run (Sum.elim mem buf) (dvpImageFill a image size) (.inl ptr) = mem ptr := by
  intro ptr hptr
  apply run_of_notMem
  intro hwrite
  obtain ⟨ptr', hptr', heq⟩ := writes_dvpImageFill hwrite
  rw [Sum.inl.inj heq] at hptr
  exact hptr hptr'

/-- The conditions that the size passes the test, and that the bytes of the patch are apart where the
patch is to be filled, are enough. -/
theorem FillRespects.of_holds (hholds : image.shape.patchSize ≤ size.toNat)
    (hguard : image.shape.patchSize ≠ 0 → size ≤ dvpImagePatchSize image.shape)
    (hnodup : size = dvpImagePatchSize image.shape → (patchAddresses a image).Nodup) :
    FillRespects a image size := by
  by_cases hle : size ≤ dvpImagePatchSize image.shape
  · refine ⟨fun s hs => ?_, fun hsize mem buf => ?_, fun mem buf => dvpImageFill_keeps⟩
    · rw [dvpImageFill_eq hle hholds, mem_reads_copyList] at hs
      obtain ⟨i, hi, rfl⟩ := hs
      rw [List.length_map, length_patchAddresses] at hi
      exact ⟨0 + i, by omega, rfl⟩
    · have hapart : ((patchAddresses a image).map (Sum.inl (β := Nat))).Nodup :=
        (hnodup (BitVec.le_antisymm hle hsize)).map fun _ _ => Sum.inl.inj
      -- the buffer is not memory of the image, so nothing that is read is written
      have hsep : ∀ i < ((patchAddresses a image).map (Sum.inl (β := Nat))).length,
          Sum.inr (0 + i) ∉ (patchAddresses a image).map (Sum.inl (β := Nat)) := by
        intro i _ hmem
        obtain ⟨ptr, -, heq⟩ := List.mem_map.mp hmem
        exact absurd heq Sum.inl_ne_inr
      have hmap := map_run_copyList (m := Sum.elim mem buf) hapart hsep
      rw [List.map_map, List.length_map, length_patchAddresses] at hmap
      rw [dvpImageFill_eq hle hholds]
      refine hmap.trans (List.map_congr_left fun i _ => ?_)
      rw [Nat.zero_add]
      rfl
  -- a buffer that fails the test is for a patch without bytes
  · have hzero : image.shape.patchSize = 0 := by_contra fun hne => hle (hguard hne)
    have hnil : patchAddresses a image = [] :=
      List.length_eq_zero_iff.mp (length_patchAddresses.trans hzero)
    have hnone : dvpImageFill a image size = [] := if_neg hle
    refine ⟨fun s hs => ?_, fun _ mem buf => ?_, fun mem buf => dvpImageFill_keeps⟩
    · rw [hnone] at hs
      exact absurd hs List.not_mem_nil
    · rw [hnil, hzero]
      rfl

theorem FillRespects.holds_and_guard (h : FillRespects a image size) :
    image.shape.patchSize ≤ size.toNat ∧
      (image.shape.patchSize ≠ 0 → size ≤ dvpImagePatchSize image.shape) := by
  refine ⟨?_, h.guard⟩
  by_cases hbytes : image.shape.patchSize = 0
  · rw [hbytes]
    exact Nat.zero_le _
  · exact h.holds (h.guard hbytes)

/-- In a placed image with planes of their own, only the size decides. -/
theorem Placed.fillRespects_iff {block : Nat → BitVec 32} (h : Placed a image block)
    (hapart : PlanesApart image block) :
    FillRespects a image size ↔ image.shape.patchSize ≤ size.toNat ∧
      (image.shape.patchSize ≠ 0 → size ≤ dvpImagePatchSize image.shape) :=
  ⟨FillRespects.holds_and_guard,
    fun hsize => .of_holds hsize.1 hsize.2 fun _ => h.nodup_patchAddresses hapart⟩

/-- The call keeps to its buffer exactly when the buffer holds the patch and its size passes the
test, and, where the patch is then to be filled, no two of its bytes share an address. -/
theorem dvpImageFill_respects_iff (a : Arch) (image : DvpImageT) (size : BitVec 32) :
    FillRespects a image size ↔
      image.shape.patchSize ≤ size.toNat ∧
        (image.shape.patchSize ≠ 0 → size ≤ dvpImagePatchSize image.shape) ∧
          (size = dvpImagePatchSize image.shape → (patchAddresses a image).Nodup) := by
  constructor
  · intro h
    exact ⟨h.holds_and_guard.1, h.guard, h.nodup⟩
  · rintro ⟨hholds, hguard, hnodup⟩
    exact .of_holds hholds hguard hnodup

/-- An image of two lines of four bytes, in a buffer of its own. -/
def twoLinesY800 : DvpImageT :=
  dvpImageAlloc (dvpImageInit 4 2 fourccY800) 0 (fun _ => 4096) [1, 4]

/-- From a buffer of four bytes the call reads eight, and from one of sixteen it copies nothing. -/
theorem dvpImageFill_overreads :
    patchAddresses .arch32 twoLinesY800 = [4096, 4097, 4098, 4099, 4100, 4101, 4102, 4103] ∧
      reads (dvpImageFill .arch32 twoLinesY800 4) = (List.range 8).map .inr ∧
      dvpImageFill .arch32 twoLinesY800 16 = [] ∧
      ¬FillRespects .arch32 twoLinesY800 4 ∧ ¬FillRespects .arch32 twoLinesY800 16 := by
  refine ⟨by decide, by decide, by decide, fun h => ?_, fun h => ?_⟩
  · exact absurd (h.holds (by decide)) (by decide)
  · exact absurd (h.guard (by decide)) (by decide)

end DVP.Kgraph
