import DVP.Sosal.Image.Flow

/-!
# Conversions that depend on the target

The conversions of `leaky` leave a sample of the target as it was, or compute one from the target.
With them, `dependsOnlyOnSource_iff` says which conversions depend on their source alone, for images
of even width and height.
-/

namespace DVP.Sosal

open Transfer

variable {px : Pixels} {dst src : ImageT} {ts : List (Transfer Place UInt8)} {w h x y k : Nat}

/-! ## Samples that are not written -/

theorem locate_dst {p i : Nat} (hcolor : dst.color ≠ .nv12) :
    locate dst src (.byte .dst p i) = .byte .dst p i := by
  simp only [locate, imageBack, hcolor, false_and, if_false]

/-- A sample that no statement writes keeps what it was. -/
theorem not_dependsOnlyOnSource_of_notMem {p i : Nat} (hcolor : dst.color ≠ .nv12)
    (hconvert : imageConvert px dst src = some ts) (hp : p < dst.numPlanes)
    (hi : i < (dst.plane p).numBytes) (hsample : .byte .dst p i ∈ samples dst w h)
    (hnot : .byte .dst p i ∉ writes ts) : ¬DependsOnlyOnSource px w h dst src := by
  intro hdep
  have hlocate : locate dst src (.byte .dst p i) = .byte .dst p i := locate_dst hcolor
  have hcontents : .byte .dst p i ∈ contents dst src := ⟨p, hp, i, hi, hlocate⟩
  have hkeeps : .byte .dst p i ∉ writes (ts.map (map (locate dst src))) := by
    rw [writes_map, List.mem_map]
    rintro ⟨b, hb, heq⟩
    cases b with
    | byte side q j =>
      cases side with
      | dst =>
        rw [locate_dst hcolor] at heq
        exact hnot (heq ▸ hb)
      | src => exact nomatch heq
    | u j => exact nomatch heq
    | v j => exact nomatch heq
  -- two runs that start with zeros, but for a one in the sample
  have hsame := hdep ts hconvert (fun _ => 0) (Function.update (fun _ => 0) (.byte .dst p i) 1)
    (fun side q j hout => by
      rw [Function.update_of_ne]
      rintro heq
      exact hout (heq ▸ hcontents))
    _ hsample
  rw [hlocate, run_of_notMem hkeeps, run_of_notMem hkeeps, Function.update_self] at hsame
  exact absurd hsame (by decide)

/-- The luma of one pixel in four is written. -/
theorem not_dependsOnlyOnSource_planarFromNv12 {pu pv : Nat}
    (hconvert : imageConvert px dst src = some (planarFromNv12 dst src pu pv))
    (hcolor : dst.color ≠ .nv12) (hplanes : 0 < dst.numPlanes)
    (hdst : dst.plane 0 = allocatePlane w h 1 1 1) (hsrc : src.plane 0 = allocatePlane w h 1 1 1)
    (hpu : pu ≠ 0) (hpv : pv ≠ 0) (heven : 2 ∣ w) (hw : 0 < w) (hh : 0 < h) :
    ¬DependsOnlyOnSource px w h dst src := by
  have htwo : 1 < w := by omega
  -- the pixel on the right of the first one
  have hsample : .byte .dst 0 1 ∈ samples dst w h := by
    refine ⟨0, hplanes, 0, hh, 1, htwo, 0, ?_, ?_⟩
    · rw [hdst]
      exact Nat.one_pos
    · rw [dstPixel, imagePixel, hdst]
      simp [allocatePlane]
  refine not_dependsOnlyOnSource_of_notMem hcolor hconvert hplanes ?_ hsample ?_
  · rw [hdst]
    show 1 < h * (w * 1)
    rw [Nat.mul_one]
    exact htwo.trans_le (Nat.le_mul_of_pos_left w hh)
  · intro hmem
    unfold planarFromNv12 at hmem
    rw [hsrc] at hmem
    obtain ⟨y, -, x, ⟨-, hxeven⟩, hmem⟩ :=
      (mem_writes_forPixels (w := w) (h := h) Nat.two_pos Nat.two_pos).mp hmem
    simp only [average, copy, writes_cons, writes_nil, List.map_cons, List.map_nil,
      List.cons_append, List.nil_append, List.mem_cons, List.not_mem_nil, or_false] at hmem
    -- a round writes to even columns of the luma, and to the other planes
    rcases hmem with hluma | hu | hv
    · have hindex : 1 = imagePixel (dst.plane 0) x y + 0 := (Place.byte.inj hluma).2.2
      rw [hdst] at hindex
      have hrows : 2 ∣ w * 1 * (y / 1) := (heven.mul_right 1).mul_right _
      have hcolumn : 1 = w * 1 * (y / 1) + 1 * (x / 1) + 0 := hindex
      have hxeven' : 2 ∣ x := hxeven
      omega
    · exact hpu (Place.byte.inj hu).2.1.symm
    · exact hpv (Place.byte.inj hv).2.1.symm

/-- The first byte of `v` is not written, but those that follow it. -/
theorem not_dependsOnlyOnSource_planarFromBgr {pu pv : Nat}
    (hconvert : imageConvert px dst src = some (planarFromBgr px dst src pu pv))
    (hcolor : dst.color ≠ .nv12) (hplanes : pv < dst.numPlanes)
    (hdst : dst.plane pv = allocatePlane (w / 2) (w / 2) 1 2 1)
    (hsrc : src.plane 0 = allocatePlane w h 1 1 3)
    (hpv : pv ≠ 0) (hne : pu ≠ pv) (heven : 2 ∣ w) (hw : 0 < w) (hh : 0 < h) :
    ¬DependsOnlyOnSource px w h dst src := by
  have hsample : .byte .dst pv 0 ∈ samples dst w h := by
    refine ⟨pv, hplanes, 0, hh, 0, hw, 0, ?_, ?_⟩
    · rw [hdst]
      exact Nat.one_pos
    · rw [dstPixel, imagePixel, hdst]
      simp [allocatePlane]
  refine not_dependsOnlyOnSource_of_notMem hcolor hconvert hplanes ?_ hsample ?_
  · rw [hdst]
    show 0 < w / 2 * (w / 2 * 1)
    have hhalf : 0 < w / 2 := by omega
    exact Nat.mul_pos hhalf (Nat.mul_pos hhalf Nat.one_pos)
  · intro hmem
    unfold planarFromBgr at hmem
    rw [hsrc] at hmem
    obtain ⟨y, -, x, -, hmem⟩ :=
      (mem_writes_forPixels (w := w) (h := h) Nat.two_pos Nat.two_pos).mp hmem
    simp only [lumaFromBgr, call, average, writes_cons, writes_nil, List.map_cons, List.map_nil,
      List.cons_append, List.nil_append, List.mem_cons, List.not_mem_nil, or_false,
      reduceCtorEq, false_or] at hmem
    -- the statement for `v` writes to the byte after that of its pixel
    rcases hmem with hl | hl | hl | hl | hu | hv
    · exact hpv (Place.byte.inj hl).2.1
    · exact hpv (Place.byte.inj hl).2.1
    · exact hpv (Place.byte.inj hl).2.1
    · exact hpv (Place.byte.inj hl).2.1
    · exact hne (Place.byte.inj hu).2.1.symm
    · exact absurd (Place.byte.inj hv).2.2 (Nat.succ_ne_zero _).symm

/-! ## Pixels of the target that are read -/

theorem steps_eq_cons {n s : Nat} (hn : 0 < n) (hs : 0 < s) :
    ∃ l, steps n s = 0 :: l ∧ ∀ x ∈ l, 0 < x ∧ x < n ∧ s ∣ x := by
  obtain ⟨m, hm⟩ : ∃ m, (n + s - 1) / s = m + 1 :=
    Nat.exists_eq_add_one.mpr (Nat.div_pos (by omega) hs)
  have hsteps : steps n s = 0 :: (List.range m).map ((· * s) ∘ Nat.succ) := by
    rw [steps, hm, List.range_succ_eq_map, List.map_cons, List.map_map, Nat.zero_mul]
  refine ⟨_, hsteps, fun x hx => ?_⟩
  obtain ⟨i, -, rfl⟩ := List.mem_map.mp hx
  have hmem : (i + 1) * s ∈ steps n s := hsteps ▸ List.mem_cons_of_mem 0 hx
  exact ⟨Nat.mul_pos i.succ_pos hs, (mem_steps hs).mp hmem⟩

/-- The first round, and what the others write. -/
theorem forPixels_eq_append {ystep xstep : Nat} (hh : 0 < h) (hw : 0 < w) (hy : 0 < ystep)
    (hx : 0 < xstep) (body : Nat → Nat → List (Transfer Place UInt8)) :
    ∃ us, forPixels h ystep w xstep body = body 0 0 ++ us ∧
      ∀ a ∈ writes us, ∃ y x, (y < h ∧ ystep ∣ y) ∧ (x < w ∧ xstep ∣ x) ∧ (0 < y ∨ 0 < x) ∧
        a ∈ writes (body x y) := by
  obtain ⟨ys, hys, hysteps⟩ := steps_eq_cons hh hy
  obtain ⟨xs, hxs, hxsteps⟩ := steps_eq_cons hw hx
  refine ⟨xs.flatMap (fun x => body x 0) ++
    ys.flatMap fun y => (steps w xstep).flatMap fun x => body x y, ?_, ?_⟩
  · rw [forPixels, hys, List.flatMap_cons]
    nth_rewrite 1 [hxs]
    rw [List.flatMap_cons, List.append_assoc]
  · intro a ha
    rw [writes_append, List.mem_append, mem_writes_flatMap, mem_writes_flatMap] at ha
    rcases ha with ⟨x, hmem, ha⟩ | ⟨y, hmem, ha⟩
    · obtain ⟨hpos, hround⟩ := hxsteps x hmem
      exact ⟨0, x, ⟨hh, dvd_zero ystep⟩, hround, .inr hpos, ha⟩
    · obtain ⟨hpos, hround⟩ := hysteps y hmem
      obtain ⟨x, hsteps, ha⟩ := mem_writes_flatMap.mp ha
      exact ⟨y, x, hround, (mem_steps hx).mp hsteps, .inl hpos, ha⟩

theorem imagePixel_luma {st : Nat} : imagePixel (allocatePlane w h st 1 1) x y = w * y + x := by
  simp [imagePixel, allocatePlane]

theorem map_call {f : UInt8 → UInt8 → UInt8 → UInt8 × UInt8 × UInt8} {a b c r s t : Place}
    {g : Place → Place} :
    map g (call f a b c r s t) = call f (g a) (g b) (g c) (g r) (g s) (g t) := rfl

/-- The first result of a call. -/
theorem exec_call {m : Place → UInt8} {f : UInt8 → UInt8 → UInt8 → UInt8 × UInt8 × UInt8}
    {a b c r s t : Place} (hs : r ≠ s) (ht : r ≠ t) :
    exec m (call f a b c r s t) r = (f (m a) (m b) (m c)).1 := by
  apply exec_eq _ (.inl List.mem_cons_self)
  intro target htarget heq
  simp only [call, List.mem_cons, List.not_mem_nil, or_false] at htarget
  rcases htarget with rfl | rfl | rfl
  · rfl
  · exact absurd heq.symm hs
  · exact absurd heq.symm ht

section Nv12FromBgr

variable (hdst : dst = imageAllocate w h .nv12)

include hdst

theorem dstPixel_luma : dstPixel dst 0 x y k = .byte .dst 0 (w * y + x + k) := by
  subst hdst
  exact congrArg (fun i => Place.byte .dst 0 (i + k)) imagePixel_luma

theorem locate_luma {i : Nat} : locate dst src (.byte .dst 0 i) = .byte .dst 0 i := by
  subst hdst
  rfl

/-- A byte of the luma of `NV12` is no other place. -/
theorem eq_of_locate_eq_luma {a : Place} {i : Nat} (hi : i < h * (w * 1))
    (heq : locate dst src a = .byte .dst 0 i) : a = .byte .dst 0 i := by
  subst hdst
  cases a with
  | byte side p j =>
    cases side with
    | dst =>
      by_cases hp : p = 1
      · -- the chroma comes after the luma
        subst hp
        have hindex : h * (w * 1) + j = i := (Place.byte.inj heq).2.2
        omega
      · have hback : imageBack (imageAllocate w h .nv12) p j = (p, j) :=
          if_neg fun hand => hp hand.2
        rw [locate, hback] at heq
        exact heq
    | src => exact nomatch heq
  | u j => exact nomatch heq
  | v j => exact nomatch heq

/-- What a round writes to the luma: its four pixels. -/
theorem mem_writes_nv12RoundFromBgr {i : Nat} :
    .byte .dst 0 i ∈ writes (nv12RoundFromBgr px dst src x y) →
      i = w * y + x ∨ i = w * y + (x + 1) ∨ i = w * (y + 1) + x ∨ i = w * (y + 1) + (x + 1) := by
  simp only [nv12RoundFromBgr, lumaFromBgr, call, average, dstPixel_luma hdst, writes_cons,
    writes_nil, List.map_cons, List.map_nil, List.cons_append, List.nil_append, List.mem_cons,
    List.not_mem_nil, or_false, reduceCtorEq, false_or]
  rintro (hl | hl | hl | hl | huv | huv)
  · exact .inl (Place.byte.inj hl).2.2
  · exact .inr (.inl (Place.byte.inj hl).2.2)
  · exact .inr (.inr (.inl (Place.byte.inj hl).2.2))
  · exact .inr (.inr (.inr (Place.byte.inj hl).2.2))
  · exact absurd (Place.byte.inj huv).2.1 Nat.zero_ne_one
  · exact absurd (Place.byte.inj huv).2.1 Nat.zero_ne_one

/-- The first round: the statement of its second pixel, what comes before, which does not write the
bytes that it reads, and what comes after, which does not write the pixel. -/
theorem nv12RoundFromBgr_zero (px : Pixels) (hw : 1 < w) :
    ∃ ts us, nv12RoundFromBgr px dst src 0 0 =
        ts ++ call px.rgbToYuv (.byte .dst 0 3) (.byte .dst 0 2) (.byte .dst 0 1) (.byte .dst 0 1)
          (.u 1) (.v 1) :: us ∧
      (∀ i, 0 < i → .byte .dst 0 i ∉ writes (ts.map (map (locate dst src)))) ∧
      .byte .dst 0 1 ∉ writes us := by
  refine ⟨(nv12RoundFromBgr px dst src 0 0).take 1, (nv12RoundFromBgr px dst src 0 0).drop 2,
    ?_, ?_, ?_⟩
  · simp [nv12RoundFromBgr, lumaFromBgr, dstPixel_luma hdst]
  · intro i hi hmem
    simp only [nv12RoundFromBgr, lumaFromBgr, List.cons_append, List.take_succ_cons,
      List.take_zero, List.map_cons, List.map_nil, map_call, dstPixel_luma hdst,
      locate_luma hdst] at hmem
    simp only [call, locate, writes_cons, writes_nil, List.map_cons, List.map_nil,
      List.cons_append, List.nil_append, List.mem_cons, List.not_mem_nil, or_false,
      reduceCtorEq] at hmem
    have hindex := (Place.byte.inj hmem).2.2
    omega
  · intro hmem
    simp only [nv12RoundFromBgr, lumaFromBgr, call, average, dstPixel_luma hdst, List.cons_append,
      List.nil_append, List.drop_succ_cons, List.drop_zero, writes_cons, writes_nil, List.map_cons,
      List.map_nil, List.mem_cons, List.not_mem_nil, or_false, reduceCtorEq, false_or] at hmem
    rcases hmem with hl | hl | huv | huv
    · have hindex := (Place.byte.inj hl).2.2
      omega
    · have hindex := (Place.byte.inj hl).2.2
      omega
    · exact absurd (Place.byte.inj huv).2.1 Nat.zero_ne_one
    · exact absurd (Place.byte.inj huv).2.1 Nat.zero_ne_one

/-- The second byte of the luma is computed from what was there, and in the two bytes after it. -/
theorem run_nv12FromBgr {m : Place → UInt8} (hsrc : src.plane 0 = allocatePlane w h 1 1 3)
    (heven : 2 ∣ w) (hw : 0 < w) (hh : 0 < h) :
    run m ((nv12FromBgr px dst src).map (map (locate dst src))) (.byte .dst 0 1) =
      (px.rgbToYuv (m (.byte .dst 0 3)) (m (.byte .dst 0 2)) (m (.byte .dst 0 1))).1 := by
  have hwide : 1 < w := by omega
  have hlarge : 1 < h * (w * 1) := by
    rw [Nat.mul_one]
    exact hwide.trans_le (Nat.le_mul_of_pos_left w hh)
  obtain ⟨us, hus, hothers⟩ := forPixels_eq_append hh hw Nat.two_pos Nat.two_pos
    (nv12RoundFromBgr px dst src)
  obtain ⟨ts, vs, hround, hbefore, hafter⟩ := nv12RoundFromBgr_zero hdst px hwide
  -- nothing that comes after the statement of the pixel writes it again
  have hlast : .byte .dst 0 1 ∉ writes ((vs ++ us).map (map (locate dst src))) := by
    rw [writes_map, List.mem_map]
    rintro ⟨a, ha, heq⟩
    rw [eq_of_locate_eq_luma hdst hlarge heq, writes_append, List.mem_append] at ha
    rcases ha with ha | ha
    · exact hafter ha
    · -- the second pixel is in no other round
      obtain ⟨y, x, -, ⟨-, hxeven⟩, hpos, ha⟩ := hothers _ ha
      have hpixels := mem_writes_nv12RoundFromBgr hdst ha
      have hrow : 2 ∣ w * y := heven.mul_right y
      have hnext : w * (y + 1) = w * y + w := Nat.mul_succ w y
      have hbelow : 0 < y → w ≤ w * y := Nat.le_mul_of_pos_right w
      omega
  -- so its statement decides, and reads what no statement before it wrote
  unfold nv12FromBgr
  rw [hsrc]
  show run m ((forPixels h 2 w 2 (nv12RoundFromBgr px dst src)).map _) _ = _
  rw [hus, hround, List.append_assoc, List.map_append, List.cons_append, List.map_cons,
    run_append_cons hlast, map_call, locate_luma hdst, locate_luma hdst, locate_luma hdst,
    exec_call (by simp [locate]) (by simp [locate]), run_of_notMem (hbefore 3 (by decide)),
    run_of_notMem (hbefore 2 (by decide)), run_of_notMem (hbefore 1 (by decide))]

end Nv12FromBgr

/-- Some bytes of the target are read as colours. -/
theorem not_dependsOnlyOnSource_nv12FromBgr
    (hluma : ∃ r g b r' g' b', (px.rgbToYuv r g b).1 ≠ (px.rgbToYuv r' g' b').1)
    (hweven : 2 ∣ w) (hheven : 2 ∣ h) (hw : 0 < w) (hh : 0 < h) :
    ¬DependsOnlyOnSource px w h (imageAllocate w h .nv12) (imageAllocate w h .bgr) := by
  obtain ⟨r, g, b, r', g', b', hne⟩ := hluma
  intro hdep
  -- the three bytes after the first one
  let start : UInt8 → UInt8 → UInt8 → Place → UInt8 := fun r g b a =>
    if a = .byte .dst 0 3 then r else if a = .byte .dst 0 2 then g
      else if a = .byte .dst 0 1 then b else 0
  have hfour : 2 * 2 ≤ h * (w * 1) := Nat.mul_le_mul (by omega) (by omega)
  have hcontents : ∀ i < 4, .byte .dst 0 i ∈
      contents (imageAllocate w h .nv12) (imageAllocate w h .bgr) := by
    intro i hi
    refine ⟨0, Nat.succ_pos 1, i, ?_, rfl⟩
    show i < h * (w * 1)
    omega
  have hagree : AgreeOutside (imageAllocate w h .nv12) (imageAllocate w h .bgr)
      (start r g b) (start r' g' b') := by
    intro side p i hout
    have houtside : ∀ j < 4, .byte side p i ≠ Place.byte .dst 0 j :=
      fun j hj heq => hout (heq ▸ hcontents j hj)
    show (if _ then r else if _ then g else if _ then b else 0) =
      if _ then r' else if _ then g' else if _ then b' else 0
    rw [if_neg (houtside 3 (by decide)), if_neg (houtside 2 (by decide)),
      if_neg (houtside 1 (by decide)), if_neg (houtside 3 (by decide)),
      if_neg (houtside 2 (by decide)), if_neg (houtside 1 (by decide))]
  -- the pixel on the right of the first one has the luma of the colour of those bytes
  have hsample : .byte .dst 0 1 ∈ samples (imageAllocate w h .nv12) w h := by
    refine ⟨0, Nat.succ_pos 1, 0, hh, 1, by omega, 0, Nat.one_pos, ?_⟩
    rw [dstPixel_luma rfl, Nat.mul_zero]
  have hsame := hdep _ rfl _ _ hagree _ hsample
  rw [locate_luma rfl, run_nv12FromBgr rfl rfl hweven hw hh, run_nv12FromBgr rfl rfl hweven hw hh]
    at hsame
  exact hne hsame

/-! ## All conversions -/

theorem not_dependsOnlyOnSource_of_mem {c c' : Fourcc}
    (hluma : ∃ r g b r' g' b', (px.rgbToYuv r g b).1 ≠ (px.rgbToYuv r' g' b').1)
    (hweven : 2 ∣ w) (hheven : 2 ∣ h) (hw : 0 < w) (hh : 0 < h) (hleaky : (c, c') ∈ leaky) :
    ¬DependsOnlyOnSource px w h (imageAllocate w h c) (imageAllocate w h c') := by
  simp only [leaky, List.mem_cons, List.not_mem_nil, or_false, Prod.mk.injEq] at hleaky
  rcases hleaky with ⟨rfl, rfl⟩ | ⟨rfl, rfl⟩ | ⟨rfl, rfl⟩ | ⟨rfl, rfl⟩ | ⟨rfl, rfl⟩
  · exact not_dependsOnlyOnSource_nv12FromBgr hluma hweven hheven hw hh
  · exact not_dependsOnlyOnSource_planarFromBgr rfl nofun (Nat.lt_succ_self 2) rfl rfl
      (by decide) (by decide) hweven hw hh
  · exact not_dependsOnlyOnSource_planarFromBgr rfl nofun (show 1 < 3 by decide) rfl rfl
      (by decide) (by decide) hweven hw hh
  · exact not_dependsOnlyOnSource_planarFromNv12 rfl nofun (Nat.succ_pos 2) rfl rfl
      (by decide) (by decide) hweven hw hh
  · exact not_dependsOnlyOnSource_planarFromNv12 rfl nofun (Nat.succ_pos 2) rfl rfl
      (by decide) (by decide) hweven hw hh

/-- Between images of even width and height, all conversions but the leaky ones depend on their source
alone. -/
theorem dependsOnlyOnSource_iff (px : Pixels)
    (hluma : ∃ r g b r' g' b', (px.rgbToYuv r g b).1 ≠ (px.rgbToYuv r' g' b').1) (c c' : Fourcc)
    (w h : Nat) (hw : 2 ∣ w) (hh : 2 ∣ h) :
    DependsOnlyOnSource px w h (imageAllocate w h c) (imageAllocate w h c') ↔
      w = 0 ∨ h = 0 ∨ (c, c') ∉ leaky := by
  constructor
  · intro hdep
    by_contra hnot
    rw [not_or, not_or, not_not] at hnot
    obtain ⟨hw0, hh0, hleaky⟩ := hnot
    exact not_dependsOnlyOnSource_of_mem hluma hw hh (Nat.pos_of_ne_zero hw0)
      (Nat.pos_of_ne_zero hh0) hleaky hdep
  · rintro (rfl | rfl | hleaky)
    · rintro ts - m m' - a ⟨p, -, y, -, x, hx, -⟩
      exact absurd hx (Nat.not_lt_zero x)
    · rintro ts - m m' - a ⟨p, -, y, hy, -⟩
      exact absurd hy (Nat.not_lt_zero y)
    · exact dependsOnlyOnSource_of_notMem hleaky

/-- `NV12` from `RGB`, for images of four by two pixels. -/
theorem dependsOnlyOnSource_iff_nv12 :
    DependsOnlyOnSource .exact 4 2 (imageAllocate 4 2 .nv12) (imageAllocate 4 2 .rgb) :=
  (dependsOnlyOnSource_iff .exact ⟨0, 0, 0, 255, 255, 255, by decide⟩ .nv12 .rgb 4 2 (by decide)
    (by decide)).mpr (.inr (.inr (by decide)))

/-- `YU24` from `NV12` does not depend on its source alone, for images of two by two pixels. -/
theorem not_forall_dependsOnlyOnSource :
    ¬∃ px, ∀ c c' w h, 2 ∣ w → 2 ∣ h →
      DependsOnlyOnSource px w h (imageAllocate w h c) (imageAllocate w h c') := by
  rintro ⟨px, hall⟩
  have hleaky : ¬DependsOnlyOnSource px 2 2 (imageAllocate 2 2 .yu24) (imageAllocate 2 2 .nv12) :=
    not_dependsOnlyOnSource_planarFromNv12 rfl nofun (Nat.succ_pos 2) rfl rfl (by decide)
      (by decide) (by decide) Nat.two_pos Nat.two_pos
  exact hleaky (hall .yu24 .nv12 2 2 (by decide) (by decide))

end DVP.Sosal
