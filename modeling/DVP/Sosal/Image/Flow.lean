import DVP.Sosal.Image.Bounds

/-!
# What the target of a conversion depends on

The samples of the target of `image_convert`, after two runs that start with different contents of
the target.

* `dependsOnlyOnSource_of_written`: a conversion that reads its source alone and writes every sample
  depends on nothing else.
* `dependsOnlyOnSource_of_notMem`: all but the conversions of `leaky` do.
-/

namespace DVP.Sosal

open Transfer

variable {px : Pixels} {dst src : ImageT} {ts : List (Transfer Place UInt8)} {w h x y k : Nat}

/-! ## Two runs -/

/-- The byte of memory of a place, in the allocated blocks. -/
def locate (dst src : ImageT) : Place → Place
  | .byte .dst p i => .byte .dst (imageBack dst p i).1 (imageBack dst p i).2
  | .byte .src p i => .byte .src (imageBack src p i).1 (imageBack src p i).2
  | .u i => .u i
  | .v i => .v i

/-- The contents of an image. -/
def contents (dst src : ImageT) : Set Place :=
  {a | ∃ p < dst.numPlanes, ∃ i < (dst.plane p).numBytes, locate dst src (.byte .dst p i) = a}

/-- The bytes that `image_pixel` addresses. -/
def samples (img : ImageT) (w h : Nat) : Set Place :=
  {a | ∃ p < img.numPlanes, ∃ y < h, ∃ x < w, ∃ k < (img.plane p).xstride, dstPixel img p x y k = a}

/-- The memories agree but for the contents of the target. The variables of `image_convert` have no
value at first. -/
def AgreeOutside (dst src : ImageT) (m m' : Place → UInt8) : Prop :=
  ∀ side p i, .byte side p i ∉ contents dst src → m (.byte side p i) = m' (.byte side p i)

/-- The samples of the target do not depend on what it contained. -/
def DependsOnlyOnSource (px : Pixels) (w h : Nat) (dst src : ImageT) : Prop :=
  ∀ ts, imageConvert px dst src = some ts → ∀ m m', AgreeOutside dst src m m' →
    ∀ a ∈ samples dst w h,
      run m (ts.map (map (locate dst src))) (locate dst src a) =
        run m' (ts.map (map (locate dst src))) (locate dst src a)

/-- What is known before a conversion: the source. -/
def Known : Place → Prop
  | .byte .src _ _ => True
  | _ => False

theorem AgreeOutside.known {m m' : Place → UInt8} (hagree : AgreeOutside dst src m m') {a : Place}
    (ha : Known a) : m a = m' a := by
  cases a with
  | byte side p i =>
    cases side with
    | dst => exact absurd ha id
    | src =>
      apply hagree
      rintro ⟨q, -, j, -, heq⟩
      exact nomatch heq
  | u i => exact absurd ha id
  | v i => exact absurd ha id

theorem Known.locate {a : Place} (ha : Known a) : Known (locate dst src a) := by
  cases a with
  | byte side p i =>
    cases side with
    | dst => exact absurd ha id
    | src => trivial
  | u i => exact absurd ha id
  | v i => exact absurd ha id

/-- Statements that read the source alone leave the same in a place that they write, and in one that
was the same. -/
theorem run_eq_run_of_determined {m m' : Place → UInt8} (hagree : AgreeOutside dst src m m')
    (hdet : Determined Known ts) {a : Place}
    (ha : a ∈ writes (ts.map (map (locate dst src))) ∨ m a = m' a) :
    run m (ts.map (map (locate dst src))) a = run m' (ts.map (map (locate dst src))) a :=
  -- the two runs are of one list of statements, from memories that agree on the source
  (hdet.map fun _ => Known.locate).run_eq (fun _ => hagree.known) ha

/-- A conversion that reads its source alone and writes every sample depends on nothing else. -/
theorem dependsOnlyOnSource_of_written
    (hconvert : imageConvert px dst src = some ts) (hdet : Determined Known ts)
    (hwritten : ∀ a ∈ samples dst w h, a ∈ writes ts) : DependsOnlyOnSource px w h dst src := by
  rintro us hus m m' hagree a ha
  obtain rfl : ts = us := Option.some.inj (hconvert.symm.trans hus)
  -- the sample is written in both runs, so what it was before does not count
  refine run_eq_run_of_determined hagree hdet (.inl ?_)
  rw [writes_map]
  exact List.mem_map_of_mem (hwritten a ha)

/-! ## Rounds -/

section Rounds

variable {body : Nat → Nat → List (Transfer Place UInt8)}

theorem mem_writes_forPixels {a : Place} {ystep xstep : Nat} (hy : 0 < ystep) (hx : 0 < xstep) :
    a ∈ writes (forPixels h ystep w xstep body) ↔
      ∃ y, (y < h ∧ ystep ∣ y) ∧ ∃ x, (x < w ∧ xstep ∣ x) ∧ a ∈ writes (body x y) := by
  simp only [forPixels, mem_writes_flatMap, mem_steps hy, mem_steps hx]

theorem determined_forPixels {K : Place → Prop} {ystep xstep : Nat}
    (hbody : ∀ y x, Determined K (body x y)) : Determined K (forPixels h ystep w xstep body) :=
  .flatMap fun y _ => .flatMap fun x _ => hbody y x

/-- Loops over single pixels, each round of which reads the source alone and writes the bytes of its
pixel. -/
theorem dependsOnlyOnSource_of_pixels
    (hconvert : imageConvert px dst src = some (forPixels h 1 w 1 body))
    (hbody : ∀ y x, Determined Known (body x y) ∧ ∀ p < dst.numPlanes,
      ∀ k < (dst.plane p).xstride, dstPixel dst p x y k ∈ writes (body x y)) :
    DependsOnlyOnSource px w h dst src := by
  apply dependsOnlyOnSource_of_written hconvert (determined_forPixels fun y x => (hbody y x).1)
  rintro a ⟨p, hp, y, hy, x, hx, k, hk, rfl⟩
  rw [mem_writes_forPixels Nat.one_pos Nat.one_pos]
  exact ⟨y, ⟨hy, one_dvd y⟩, x, ⟨hx, one_dvd x⟩, (hbody y x).2 p hp k hk⟩

/-- Loops over macro pixels of two columns, each round of which reads the source alone and writes the
bytes of its pixel and of the next one. -/
theorem dependsOnlyOnSource_of_macro {st t : Nat}
    (hconvert : imageConvert px dst src = some (forPixels h 1 w 2 body))
    (hplanes : dst.planes = [allocatePlane w h st 1 t])
    (hbody : ∀ y x, Determined Known (body x y) ∧ ∀ k < 2 * t,
      dstPixel dst 0 x y k ∈ writes (body x y)) :
    DependsOnlyOnSource px w h dst src := by
  apply dependsOnlyOnSource_of_written hconvert (determined_forPixels fun y x => (hbody y x).1)
  rintro a ⟨p, hp, y, hy, x, hx, k, hk, rfl⟩
  -- a packed image has one plane
  have hzero : p = 0 := by
    rw [ImageT.numPlanes, hplanes, List.length_singleton] at hp
    omega
  have hplane : dst.plane 0 = allocatePlane w h st 1 t := by
    rw [ImageT.plane, hplanes]
    rfl
  subst hzero
  rw [hplane] at hk
  have hk' : k < t := hk
  -- the round of the pixel is that of its column rounded down
  have hround : dstPixel dst 0 x y k = dstPixel dst 0 (2 * (x / 2)) y (t * (x % 2) + k) := by
    unfold dstPixel imagePixel
    rw [hplane]
    have hcolumn : t * (2 * (x / 2)) + t * (x % 2) = t * x := by
      rw [← Nat.mul_add, Nat.div_add_mod]
    show Place.byte .dst 0 (w * t * (y / 1) + t * (x / 1) + k) =
      .byte .dst 0 (w * t * (y / 1) + t * (2 * (x / 2) / 1) + (t * (x % 2) + k))
    rw [Nat.div_one x, Nat.div_one (2 * (x / 2)), ← hcolumn]
    simp only [Nat.add_assoc]
  rw [mem_writes_forPixels Nat.one_pos Nat.two_pos, hround]
  refine ⟨y, ⟨hy, one_dvd y⟩, 2 * (x / 2), ⟨by omega, Nat.dvd_mul_right 2 _⟩,
    (hbody y _).2 _ ?_⟩
  have hodd : t * (x % 2) ≤ t * 1 := Nat.mul_le_mul_left t (by omega)
  omega

end Rounds

/-! ## Conversions that write every sample -/

theorem dependsOnlyOnSource_bgr_packed {c : Fourcc} (hc : c ∈ [.uyvy, .yuy2]) :
    DependsOnlyOnSource px w h (imageAllocate w h .bgr) (imageAllocate w h c) := by
  simp only [List.mem_cons, List.not_mem_nil, or_false] at hc
  rcases hc with rfl | rfl
  all_goals
    refine dependsOnlyOnSource_of_macro rfl rfl fun y x => ⟨?_, fun k hk => ?_⟩
    · simp [Determined, call, srcPixel, Known]
    · interval_cases k <;> simp [call]

theorem dependsOnlyOnSource_bgr {c : Fourcc} (hc : c ∈ [.nv12, .yu24, .yv24, .y800, .rgb]) :
    DependsOnlyOnSource px w h (imageAllocate w h .bgr) (imageAllocate w h c) := by
  simp only [List.mem_cons, List.not_mem_nil, or_false] at hc
  rcases hc with rfl | rfl | rfl | rfl | rfl
  all_goals
    refine dependsOnlyOnSource_of_pixels rfl fun y x => ⟨?_, fun p hp k hk => ?_⟩
    · simp [Determined, call, copy, srcPixel, Known]
    · obtain rfl : p = 0 := Nat.lt_one_iff.mp hp
      have hbytes : k < 3 := hk
      interval_cases k <;> simp [call, copy]

theorem dependsOnlyOnSource_uyvy {c : Fourcc}
    (hc : c ∈ [.nv12, .yu24, .yv24, .rgb, .bgr, .y800]) :
    DependsOnlyOnSource px w h (imageAllocate w h .uyvy) (imageAllocate w h c) := by
  simp only [List.mem_cons, List.not_mem_nil, or_false] at hc
  rcases hc with rfl | rfl | rfl | rfl | rfl | rfl
  all_goals
    refine dependsOnlyOnSource_of_macro rfl rfl fun y x => ⟨?_, fun k hk => ?_⟩
    -- the local variables are written before they are read
    · simp [Determined, call, copy, setPlace, average, averageSaturated, srcPixel, Known]
    · interval_cases k <;> simp [call, copy, setPlace, average, averageSaturated]

theorem dependsOnlyOnSource_nv12 :
    DependsOnlyOnSource px w h (imageAllocate w h .nv12) (imageAllocate w h .rgb) := by
  refine dependsOnlyOnSource_of_pixels rfl fun y x => ⟨?_, fun p hp k hk => ?_⟩
  · simp [Determined, call, srcPixel, Known]
  · have htwo : p < 2 := hp
    interval_cases p
    · obtain rfl : k = 0 := Nat.lt_one_iff.mp hk
      simp [call]
    · have hbytes : k < 2 := hk
      interval_cases k <;> simp [call]

theorem dependsOnlyOnSource_rgbp {c : Fourcc} (hc : c ∈ [.yu24, .yv24]) :
    DependsOnlyOnSource px w h (imageAllocate w h .rgbp) (imageAllocate w h c) := by
  simp only [List.mem_cons, List.not_mem_nil, or_false] at hc
  rcases hc with rfl | rfl
  all_goals
    refine dependsOnlyOnSource_of_pixels rfl fun y x => ⟨?_, fun p hp k hk => ?_⟩
    · simp [Determined, call, srcPixel, Known]
    · have hthree : p < 3 := hp
      have hbyte : k < 1 := by interval_cases p <;> exact hk
      interval_cases k
      interval_cases p <;> simp [call]

/-! ## Copies of the same colour -/

/-- Every plane has the rows that its numbers say. -/
theorem exists_plane_imageAllocate {c : Fourcc} {p : Nat}
    (hp : p < (imageAllocate w h c).numPlanes) :
    ∃ w' h' st s t, (imageAllocate w h c).plane p = allocatePlane w' h' st s t := by
  rw [numPlanes_imageAllocate] at hp
  by_cases hcolor : c ∈ [.iyuv, .yv12]
  · have hthree : p < 3 := by
      simp only [List.mem_cons, List.not_mem_nil, or_false] at hcolor
      rcases hcolor with rfl | rfl <;> exact hp
    obtain rfl | hchroma : p = 0 ∨ p = 1 ∨ p = 2 := by omega
    · exact ⟨_, _, _, _, _, plane_zero_imageAllocate hcolor⟩
    · exact ⟨_, _, _, _, _, plane_chroma_imageAllocate hcolor hchroma⟩
  · obtain ⟨st, s, t, -, hplane⟩ := plane_imageAllocate hcolor hp
    exact ⟨w, h, st, s, t, hplane w h⟩

/-- Every byte of a plane is copied. -/
theorem mem_writes_copyPlane {img : ImageT} {p i w' h' st s t : Nat}
    (hplane : img.plane p = allocatePlane w' h' st s t) (hi : i < (img.plane p).numBytes) :
    .byte .dst p i ∈ writes (copyPlane img img p) := by
  rw [hplane] at hi
  have hbytes : i < w' * t * h' := by rwa [Nat.mul_comm]
  have hrow : 0 < w' * t := Nat.pos_of_ne_zero fun hzero => by
    rw [hzero, Nat.zero_mul] at hbytes
    exact Nat.not_lt_zero i hbytes
  unfold copyPlane
  rw [mem_writes_flatMap, hplane]
  -- the byte is in the row of its quotient, at its remainder
  refine ⟨i / (w' * t), List.mem_range.mpr (Nat.div_lt_of_lt_mul hbytes), ?_⟩
  rw [mem_writes_copyRun]
  refine ⟨i % (w' * t), ?_, ?_⟩
  · show i % (w' * t) < t * w'
    rw [Nat.mul_comm t]
    exact Nat.mod_lt i hrow
  · show Place.byte .dst p (i / (w' * t) * (w' * t) + i % (w' * t)) = _
    rw [Nat.div_add_mod']

theorem dependsOnlyOnSource_same {c : Fourcc} :
    DependsOnlyOnSource px w h (imageAllocate w h c) (imageAllocate w h c) := by
  intro ts hts m m' hagree a ha
  have hcopy : ts = (List.range (imageAllocate w h c).numPlanes).flatMap
      (copyPlane (imageAllocate w h c) (imageAllocate w h c)) := by
    rw [imageConvert, if_pos rfl, imageCopy, if_pos rfl, Nat.min_self] at hts
    exact (Option.some.inj hts).symm
  have hreads : ∀ b ∈ reads ts, Known b := by
    intro b hb
    rw [hcopy, mem_reads_flatMap] at hb
    obtain ⟨p, -, hb⟩ := hb
    obtain ⟨y, -, hb⟩ := mem_reads_flatMap.mp hb
    obtain ⟨k, -, rfl⟩ := mem_reads_copyRun.mp hb
    trivial
  apply run_eq_run_of_determined hagree (determined_of_reads hreads)
  -- a byte of the target is copied, all others were the same before
  by_cases hmem : locate (imageAllocate w h c) (imageAllocate w h c) a ∈
      contents (imageAllocate w h c) (imageAllocate w h c)
  · obtain ⟨p, hp, i, hi, heq⟩ := hmem
    left
    rw [writes_map, ← heq, hcopy]
    obtain ⟨w', h', st, s, t, hplane⟩ := exists_plane_imageAllocate hp
    exact List.mem_map_of_mem
      (mem_writes_flatMap.mpr ⟨p, List.mem_range.mpr hp, mem_writes_copyPlane hplane hi⟩)
  · -- `image_pixel` addresses a byte outside the planes, where the memories agree
    right
    obtain ⟨p, -, y, -, x, -, k, -, rfl⟩ := ha
    exact hagree _ _ _ hmem

/-! ## All conversions -/

/-- The conversions that leave a sample as it was, or compute one from the target. -/
def leaky : List (Fourcc × Fourcc) :=
  [(.nv12, .bgr), (.iyuv, .bgr), (.yv12, .bgr), (.yu24, .nv12), (.yv24, .nv12)]

theorem dependsOnlyOnSource_of_not_convert (hconvert : imageConvert px dst src = none) :
    DependsOnlyOnSource px w h dst src := by
  intro ts hts
  rw [hconvert] at hts
  exact nomatch hts

theorem dependsOnlyOnSource_of_notMem {c c' : Fourcc} (hleaky : (c, c') ∉ leaky) :
    DependsOnlyOnSource px w h (imageAllocate w h c) (imageAllocate w h c') := by
  by_cases hc : c = c'
  · subst hc
    exact dependsOnlyOnSource_same
  -- a pair is leaky, has a lemma of its own, or is not converted
  · cases c <;> cases c' <;>
      first
      | exact absurd rfl hc
      | exact absurd hleaky (by decide)
      | exact dependsOnlyOnSource_bgr_packed (by decide)
      | exact dependsOnlyOnSource_bgr (by decide)
      | exact dependsOnlyOnSource_uyvy (by decide)
      | exact dependsOnlyOnSource_rgbp (by decide)
      | exact dependsOnlyOnSource_nv12
      | exact dependsOnlyOnSource_of_not_convert rfl

end DVP.Sosal
