import DVP.ImgFilter.Tap
import DVP.Sosal.Threadpool.Batch
import Mathlib.Tactic.IntervalCases

/-!
# The tap filter with several threads

The `tap` operation of `libraries/public/imgfilter/imgFilter.c` with two to eight threads. The frame
is cut into bars, one for each thread, and for each frame that is read the list
`data[] = {&args[0], &args[1]}` is issued to the thread pool and awaited. That list has two bars
whatever the number of threads is, and the bars leave out the rows that are left over by the
division.

`tapsAgree_iff`: the frames that are written are those of one thread exactly if two bars make up a
frame, or no frame is read at all.
-/

namespace DVP.ImgFilter

open Bytes Sosal

/-- The rows that the workers filter for the items they have executed, in some order. -/
def RowsOf (items : List FilterArgs) (rows : List (FilterArgs × Nat)) : Prop :=
  ∀ args y, (args, y) ∈ rows ↔ args ∈ items ∧ y < args.height

/-- The frames that may be written from a state of the pool on: for each frame the bars are issued
and awaited, and the workers filter the rows of what they execute. -/
inductive ThreadedFrames (k : RowKernel) (width height nthreads : Nat) :
    ThreadpoolSystem FilterArgs → Buffer → List Buffer → List (List UInt8) → Prop where
  | done (s : ThreadpoolSystem FilterArgs) (output : Buffer) :
      ThreadedFrames k width height nthreads s output [] []
  | frame {s s' : ThreadpoolSystem FilterArgs} {done : List (Nat × FilterArgs)}
      {rows : List (FilterArgs × Nat)} {input output output' : Buffer} {inputs : List Buffer}
      {frames : List (List UInt8)}
      (hbatch : Batch s (barArgs width height nthreads 0) [barArgs width height nthreads 1] s')
      (hdone : s'.executed = s.executed ++ done) (hrows : RowsOf (done.map Prod.snd) rows)
      (htap : tapRows k (frameSize width height) input rows output = some output')
      (hrest : ThreadedFrames k width height nthreads s' output' inputs frames) :
      ThreadedFrames k width height nthreads s output (input :: inputs)
        (peek output' 0 (frameSize width height) :: frames)

/-- For every kernel and every file both paths write frames, and the same ones. -/
def TapsAgree (width height nthreads : Nat) : Prop :=
  ∀ (k : RowKernel) (reads : List (List UInt8)),
    (∀ bytes ∈ reads, bytes ≠ [] ∧ bytes.length ≤ frameSize width height) →
    ∃ frames,
      singleFrames k width height (inputFrames (fun _ => 0x80) reads) (fun _ => 0) = some frames ∧
      ∀ frames', ThreadedFrames k width height nthreads (.initial (threadpoolCreate nthreads 1))
        (fun _ => 0) (inputFrames (fun _ => 0x80) reads) frames' ↔ frames' = frames

section Bars

variable {k : RowKernel} {width height nthreads i y r c : Nat} {input output output' : Buffer}
  {items : List FilterArgs} {rows : List (FilterArgs × Nat)}

/-- The row of the frame that a row of a call is. -/
def rowOf (width : Nat) (row : FilterArgs × Nat) : Nat :=
  (row.1.input + row.2 * row.1.srcStride) / (width * 4)

theorem rowOf_eq (hwidth : 0 < width) (h : IsFrameRow (width * 4) height row.1 row.2 r) :
    rowOf width row = r := by
  rw [rowOf, h.src, Nat.mul_div_cancel _ (by omega)]

/-- The rows of a bar follow those of the bars before it. -/
theorem isFrameRow_bar (hwidth : 0 < width) (hfits : width * 4 * height < 2 ^ 32)
    (hi : i < nthreads) (hy : y < height / nthreads) :
    IsFrameRow (width * 4) height (barArgs width height nthreads i) y
      (i * (height / nthreads) + y) := by
  have hmul : (i + 1) * (height / nthreads) ≤ nthreads * (height / nthreads) :=
    Nat.mul_le_mul_right _ hi
  -- the bars before the next one end inside the frame
  have hle := Nat.mul_div_le height nthreads
  rw [Nat.succ_mul] at hmul
  have hpos : 0 < height := by omega
  have hstride := frameStride_eq hfits hpos
  have hheight := Nat.le_mul_of_pos_left height (show 0 < width * 4 by omega)
  have hbytes : i * (height / nthreads) * (width * 4) ≤ height * (width * 4) :=
    Nat.mul_le_mul_right _ (by omega)
  rw [Nat.mul_comm height] at hbytes
  have hoffset : i * (height / nthreads) % 2 ^ 32 * frameStride width % 2 ^ 32 =
      i * (height / nthreads) * (width * 4) := by
    rw [hstride, Nat.mod_eq_of_lt (show i * (height / nthreads) < 2 ^ 32 by omega),
      Nat.mod_eq_of_lt (by omega)]
  refine ⟨?_, ?_, rfl, by omega⟩
  · show i * (height / nthreads) % 2 ^ 32 * frameStride width % 2 ^ 32 + y * frameStride width = _
    rw [hoffset, hstride, Nat.add_mul]
  · show i * (height / nthreads) % 2 ^ 32 * frameStride width % 2 ^ 32 + y * frameStride width = _
    rw [hoffset, hstride, Nat.add_mul]

/-- The rows of the items, one item after the other. -/
theorem rowsOf_flatMap (items : List FilterArgs) :
    RowsOf items (items.flatMap FilterArgs.rows) := by
  intro args y
  simp only [List.mem_flatMap, FilterArgs.rows, List.mem_map, List.mem_range, Prod.mk.injEq]
  constructor
  · rintro ⟨args', hmem, y', hy, rfl, rfl⟩
    exact ⟨hmem, hy⟩
  · rintro ⟨hmem, hy⟩
    exact ⟨args, hmem, y, hy, rfl, rfl⟩

theorem mem_rows_bars_iff
    (hitems : ∀ args, args ∈ items ↔
      args ∈ [barArgs width height nthreads 0, barArgs width height nthreads 1])
    (hrows : RowsOf items rows) {row : FilterArgs × Nat} :
    row ∈ rows ↔ ∃ i < 2, ∃ y < height / nthreads, row = (barArgs width height nthreads i, y) := by
  obtain ⟨args, y⟩ := row
  rw [hrows, hitems, List.mem_pair]
  constructor
  · rintro ⟨rfl | rfl, hy⟩
    · exact ⟨0, by decide, y, hy, rfl⟩
    · exact ⟨1, by decide, y, hy, rfl⟩
  · rintro ⟨i, hi, y', hy, hrow⟩
    cases hrow
    refine ⟨?_, hy⟩
    interval_cases i
    · exact .inl rfl
    · exact .inr rfl

/-- The rows of the two bars are the first ones of the frame. -/
theorem exists_bar_iff {q : Nat} : (∃ i < 2, ∃ y < q, i * q + y = r) ↔ r < 2 * q := by
  constructor
  · rintro ⟨i, hi, y, hy, rfl⟩
    interval_cases i <;> omega
  · intro hr
    by_cases hfirst : r < q
    · exact ⟨0, by decide, r, hfirst, by omega⟩
    · exact ⟨1, by decide, r - q, by omega, by omega⟩

/-- What the workers make of a frame that fits: the rows of two bars are filtered. -/
theorem tapRows_bars (k : RowKernel) (input output : Buffer) (hwidth : 0 < width)
    (hfits : width * 4 * height < 2 ^ 32) (hn : 1 < nthreads)
    (hitems : ∀ args, args ∈ items ↔
      args ∈ [barArgs width height nthreads 0, barArgs width height nthreads 1])
    (hrows : RowsOf items rows) :
    ∃ output', tapRows k (frameSize width height) input rows output = some output' ∧
      ∀ r c, c < width * 4 → output' (r * (width * 4) + c) =
        if r < 2 * (height / nthreads) then rowByte k (width * 4) input r c
        else output (r * (width * 4) + c) := by
  have hbar : ∀ i < 2, ∀ y < height / nthreads,
      IsFrameRow (width * 4) height (barArgs width height nthreads i) y
        (i * (height / nthreads) + y) := fun i hi y hy =>
    isFrameRow_bar hwidth hfits (show i < nthreads by omega) hy
  have hframe : ∀ row ∈ rows, IsFrameRow (width * 4) height row.1 row.2 (rowOf width row) := by
    intro row hrow
    obtain ⟨i, hi, y, hy, rfl⟩ := (mem_rows_bars_iff hitems hrows).mp hrow
    have h := hbar i hi y hy
    rwa [rowOf_eq hwidth h]
  have hmem : ∀ r, r ∈ rows.map (rowOf width) ↔ r < 2 * (height / nthreads) := by
    intro r
    rw [List.mem_map, ← exists_bar_iff]
    constructor
    · rintro ⟨row, hrow, rfl⟩
      obtain ⟨i, hi, y, hy, rfl⟩ := (mem_rows_bars_iff hitems hrows).mp hrow
      exact ⟨i, hi, y, hy, (rowOf_eq hwidth (hbar i hi y hy)).symm⟩
    · rintro ⟨i, hi, y, hy, rfl⟩
      exact ⟨_, (mem_rows_bars_iff hitems hrows).mpr ⟨i, hi, y, hy, rfl⟩,
        rowOf_eq hwidth (hbar i hi y hy)⟩
  refine ⟨_, frameSize_eq hfits ▸ tapRows_eq hframe, fun r c hc => ?_⟩
  rw [foldl_frameRow _ hc]
  simp only [hmem]

/-- What one thread makes of a frame that fits: all rows are filtered. -/
theorem tapRows_whole (k : RowKernel) (input output : Buffer)
    (hfits : width * 4 * height < 2 ^ 32) :
    ∃ output', tapRows k (frameSize width height) input (wholeArgs width height).rows output =
        some output' ∧
      ∀ r c, c < width * 4 → r < height →
        output' (r * (width * 4) + c) = rowByte k (width * 4) input r c := by
  have hrows : ∀ row ∈ (wholeArgs width height).rows, row.1 = wholeArgs width height ∧
      row.2 < height := by
    intro row hrow
    obtain ⟨y, hy, rfl⟩ := List.mem_map.mp hrow
    exact ⟨rfl, List.mem_range.mp hy⟩
  have hframe : ∀ row ∈ (wholeArgs width height).rows,
      IsFrameRow (width * 4) height row.1 row.2 row.2 := by
    intro row hrow
    obtain ⟨hargs, hy⟩ := hrows row hrow
    rw [hargs]
    exact isFrameRow_whole hfits hy
  refine ⟨_, frameSize_eq hfits ▸ tapRows_eq hframe, fun r c hc hr => ?_⟩
  rw [foldl_frameRow _ hc, if_pos]
  exact List.mem_map.mpr ⟨(_, r), List.mem_map.mpr ⟨r, List.mem_range.mpr hr, rfl⟩, rfl⟩

/-- Frames with the same bytes in each row are the same. -/
theorem peek_frame_congr (hwidth : 0 < width) (hfits : width * 4 * height < 2 ^ 32)
    (h : ∀ r c, r < height → c < width * 4 →
      output (r * (width * 4) + c) = output' (r * (width * 4) + c)) :
    peek output 0 (frameSize width height) = peek output' 0 (frameSize width height) := by
  refine peek_congr fun j _ hj => ?_
  rw [Nat.zero_add, frameSize_eq hfits] at hj
  rw [Nat.mul_comm] at hj
  -- the byte `j` of the frame is one of the row `j / (width * 4)`
  have hbyte := h (j / (width * 4)) (j % (width * 4)) (Nat.div_lt_of_lt_mul hj)
    (Nat.mod_lt _ (by omega))
  rwa [Nat.div_add_mod'] at hbyte

/-- After a batch the workers have executed the two bars. -/
theorem executes_bars {s s' : ThreadpoolSystem FilterArgs} {done : List (Nat × FilterArgs)}
    (hn : 1 < nthreads) (hidle : PoolIdle nthreads s)
    (hbatch : Batch s (barArgs width height nthreads 0) [barArgs width height nthreads 1] s')
    (hdone : s'.executed = s.executed ++ done) :
    PoolIdle nthreads s' ∧ ∀ args, args ∈ done.map Prod.snd ↔
      args ∈ [barArgs width height nthreads 0, barArgs width height nthreads 1] := by
  obtain ⟨hidle', done', hdone', hitems⟩ :=
    hbatch.executes hidle (show 2 ≤ nthreads from hn) (show 2 < 2 ^ 31 by decide)
  rw [hdone, List.append_cancel_left_eq] at hdone'
  subst hdone'
  exact ⟨hidle', hitems⟩

end Bars

/-! ## The two paths -/

section Paths

variable {k : RowKernel} {width height nthreads : Nat}

/-- Two bars that make up the frame give the frames of one thread, from any idle state of the
pool. -/
theorem threadedFrames_iff (hwidth : 0 < width) (hfits : width * 4 * height < 2 ^ 32)
    (hn : 1 < nthreads) (hbars : 2 * (height / nthreads) = height) (inputs : List Buffer)
    {s : ThreadpoolSystem FilterArgs} (hidle : PoolIdle nthreads s) (output output' : Buffer) :
    ∃ frames, singleFrames k width height inputs output = some frames ∧
      ∀ frames', ThreadedFrames k width height nthreads s output' inputs frames' ↔
        frames' = frames := by
  induction inputs generalizing s output output' with
  | nil =>
    refine ⟨[], rfl, fun frames' => ⟨fun h => ?_, fun h => h ▸ .done s output'⟩⟩
    cases h
    rfl
  | cons input inputs ih =>
    obtain ⟨single, hsingle, hwhole⟩ :=
      tapRows_whole k input output hfits
    -- whatever order the threads take, the two bars together are the rows of one thread
    have hframe : ∀ {s' done rows output''},
        Batch s (barArgs width height nthreads 0) [barArgs width height nthreads 1] s' →
        s'.executed = s.executed ++ done → RowsOf (done.map Prod.snd) rows →
        tapRows k (frameSize width height) input rows output' = some output'' →
        PoolIdle nthreads s' ∧ peek output'' 0 (frameSize width height) =
          peek single 0 (frameSize width height) := by
      intro s' done rows output'' hbatch hdone hrows htap
      obtain ⟨hidle', hitems⟩ := executes_bars hn hidle hbatch hdone
      obtain ⟨out, hout, hbytes⟩ := tapRows_bars k input output' hwidth hfits hn hitems hrows
      rw [hout] at htap
      cases htap
      refine ⟨hidle', peek_frame_congr hwidth hfits fun r c hr hc => ?_⟩
      rw [hbytes r c hc, if_pos (by omega), hwhole r c hc hr]
    -- some order of the threads brings the frame to its end
    obtain ⟨s₁, hbatch⟩ : ∃ s₁,
        Batch s (barArgs width height nthreads 0) [barArgs width height nthreads 1] s₁ :=
      exists_batch hidle hn (show 2 < 2 ^ 31 by decide)
    obtain ⟨-, done, hdone, hitems⟩ :=
      hbatch.executes hidle (show 2 ≤ nthreads from hn) (show 2 < 2 ^ 31 by decide)
    have hrows := rowsOf_flatMap (done.map Prod.snd)
    obtain ⟨output₁, htap, -⟩ := tapRows_bars k input output' hwidth hfits hn hitems hrows
    obtain ⟨hidle₁, hpeek⟩ := hframe hbatch hdone hrows htap
    obtain ⟨frames, hframes, hiff⟩ := ih hidle₁ single output₁
    refine ⟨peek single 0 (frameSize width height) :: frames, ?_, fun frames' => ⟨fun h => ?_, ?_⟩⟩
    · rw [singleFrames, hsingle]
      simp [hframes]
    · cases h with
      | frame hbatch' hdone' hrows' htap' hrest =>
        obtain ⟨hidle', hpeek'⟩ := hframe hbatch' hdone' hrows' htap'
        obtain ⟨frames₂, hframes₂, hiff₂⟩ := ih hidle' single _
        rw [hframes] at hframes₂
        cases hframes₂
        rw [hpeek', (hiff₂ _).mp hrest]
    · rintro rfl
      rw [← hpeek]
      exact .frame hbatch hdone hrows htap ((hiff frames).mpr rfl)

/-- A kernel that makes each byte `1`. -/
def onesKernel : RowKernel := ⟨fun row => row.map fun _ => 1, fun _ => List.length_map _⟩

theorem idle_initial (hn : 0 < nthreads) :
    PoolIdle nthreads (.initial (threadpoolCreate nthreads 1 : Threadpool FilterArgs)) :=
  ⟨.initial hn, rfl, fun _ => rfl, rfl, rfl⟩

theorem rowByte_onesKernel {n c : Nat} (input : Buffer) (r : Nat) (hc : c < n) :
    rowByte onesKernel n input r c = 1 := by
  rw [rowByte, List.getD_eq_getElem?_getD, onesKernel, List.getElem?_map,
    List.getElem?_eq_getElem (by rwa [length_peek])]
  rfl

/-- Bars that leave out a row leave it unfiltered. -/
theorem height_le_of_peek_eq {items : List FilterArgs} {rows : List (FilterArgs × Nat)}
    {input single threaded : Buffer} (hn : 1 < nthreads) (hwidth : 0 < width)
    (hfits : width * 4 * height < 2 ^ 32)
    (hsingle : tapRows onesKernel (frameSize width height) input (wholeArgs width height).rows
      (fun _ => 0) = some single)
    (hitems : ∀ args, args ∈ items ↔
      args ∈ [barArgs width height nthreads 0, barArgs width height nthreads 1])
    (hrows : RowsOf items rows)
    (htap : tapRows onesKernel (frameSize width height) input rows (fun _ => 0) = some threaded)
    (hpeek : peek single 0 (frameSize width height) = peek threaded 0 (frameSize width height)) :
    height ≤ 2 * (height / nthreads) := by
  by_contra hleft
  obtain ⟨single', hsingle', hones⟩ := tapRows_whole onesKernel input (fun _ => 0) hfits
  rw [hsingle] at hsingle'
  cases hsingle'
  obtain ⟨threaded', htap', hbytes⟩ :=
    tapRows_bars onesKernel input (fun _ => 0) hwidth hfits hn hitems hrows
  rw [htap] at htap'
  cases htap'
  -- the first byte of the last row
  have hlast : (height - 1) * (width * 4) < frameSize width height := by
    rw [frameSize_eq hfits]
    exact Nat.mul_lt_mul_of_pos_right (by omega) (by omega)
  have hbyte := apply_eq_of_peek_eq hpeek (Nat.zero_le _) (by rwa [Nat.zero_add])
  have hone := hones (height - 1) 0 (by omega) (by omega)
  have hzero := hbytes (height - 1) 0 (by omega)
  rw [rowByte_onesKernel _ _ (by omega), Nat.add_zero] at hone
  rw [if_neg (by omega), Nat.add_zero] at hzero
  rw [hone, hzero] at hbyte
  cases hbyte

/-- Paths that agree do so on a frame that fits, of which the bars leave out no row. -/
theorem bars_of_tapsAgree (hn : 1 < nthreads) (h : TapsAgree width height nthreads)
    (hsize : 0 < frameSize width height) :
    width * 4 * height < 2 ^ 32 ∧ 2 * (height / nthreads) = height := by
  obtain ⟨frames, hsingle, hiff⟩ := h onesKernel [[0]] (by
    intro bytes hbytes
    rw [List.mem_singleton.mp hbytes]
    exact ⟨List.cons_ne_nil _ _, hsize⟩)
  have hthreads := (hiff frames).mpr rfl
  rw [inputFrames, inputFrames] at hsingle hthreads
  cases hthreads with
  | @frame _ s' done rows _ _ output' _ _ hbatch hdone hrows htap hrest =>
    rw [singleFrames] at hsingle
    cases hwhole : tapRows onesKernel (frameSize width height) (poke (fun _ => 0x80) 0 [0])
        (wholeArgs width height).rows (fun _ => 0) with
    | none =>
      rw [hwhole] at hsingle
      cases hsingle
    | some single =>
      have hfits := fits_of_tapRows hwhole
      have hpos : 0 < height * (width * 4) := by rwa [← frameSize_eq hfits]
      have hwidth : 0 < width := by
        have hstride := Nat.pos_of_mul_pos_left hpos
        omega
      have hpeek : peek single 0 (frameSize width height) =
          peek output' 0 (frameSize width height) := by
        rw [hwhole] at hsingle
        simp only [singleFrames, Option.bind_eq_bind, Option.bind_some] at hsingle
        exact (List.cons.inj (Option.some.inj hsingle)).1
      obtain ⟨-, hitems⟩ := executes_bars hn (idle_initial (Nat.zero_lt_of_lt hn)) hbatch hdone
      have hle : nthreads * (height / nthreads) ≤ height := Nat.mul_div_le height nthreads
      exact ⟨hfits, Nat.le_antisymm ((Nat.mul_le_mul_right _ hn).trans hle)
        (height_le_of_peek_eq hn hwidth hfits hwhole hitems hrows htap hpeek)⟩

/-- The bars that are issued make up the frame only if there are two of them and the height is
even. -/
theorem tapsAgree_iff (hn : 2 ≤ nthreads) :
    TapsAgree width height nthreads ↔
      frameSize width height = 0 ∨
        (width * 4 * height < 2 ^ 32 ∧ nthreads = 2 ∧ height % 2 = 0) := by
  constructor
  · intro h
    by_cases hsize : frameSize width height = 0
    · exact .inl hsize
    · obtain ⟨hfits, hbars⟩ := bars_of_tapsAgree hn h (Nat.pos_of_ne_zero hsize)
      have hheight : height ≠ 0 := fun hzero => hsize (by rw [hzero]; rfl)
      have htwo : nthreads = 2 := by
        by_contra hmore
        -- three bars of this height or more fit the frame
        have hthree : 3 * (height / nthreads) ≤ nthreads * (height / nthreads) :=
          Nat.mul_le_mul_right _ (by omega)
        have hle := Nat.mul_div_le height nthreads
        omega
      subst htwo
      exact .inr ⟨hfits, rfl, by omega⟩
  · intro h k reads hreads
    by_cases hsize : frameSize width height = 0
    · -- nothing can be read
      have hnil : reads = [] := by
        rw [List.eq_nil_iff_forall_not_mem]
        intro bytes hbytes
        obtain ⟨hne, hlen⟩ := hreads bytes hbytes
        rw [hsize] at hlen
        exact hne (List.length_eq_zero_iff.mp (Nat.le_zero.mp hlen))
      subst hnil
      refine ⟨[], rfl, fun frames' => ⟨fun hframes => ?_, ?_⟩⟩
      · cases hframes
        rfl
      · rintro rfl
        exact .done _ _
    · obtain ⟨hfits, rfl, heven⟩ := h.resolve_left hsize
      have hwidth : 0 < width := by
        by_contra hzero
        rw [Nat.eq_zero_of_not_pos hzero] at hsize
        exact hsize (by simp [frameSize])
      exact threadedFrames_iff hwidth hfits (by decide) (by omega) _ (idle_initial (by decide)) _ _

/-- Two threads filter a frame of 720 lines. -/
theorem tapsAgree_two : TapsAgree 1280 720 2 :=
  (tapsAgree_iff (by decide)).mpr (.inr (by decide))

/-- With four threads the lower half of the frame is not filtered. -/
theorem not_tapsAgree_four : ¬TapsAgree 1280 720 4 := fun h =>
  absurd (bars_of_tapsAgree (by decide) h (by decide)).2 (by decide)

end Paths

end DVP.ImgFilter
