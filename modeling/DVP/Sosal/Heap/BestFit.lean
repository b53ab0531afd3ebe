import DVP.Lib.Run
import DVP.Sosal.Heap.Init
import DVP.Sosal.Heap.Stale

/-!
# Best fit

Which block `heap_alloc` takes. It rates a block by the bytes that are too many, of which a rating
of 32 bits sees the low ones alone (`excess`), and takes the first block with the best rating.

* `BestFit` is what a call promises: the start of a smallest free block that is large enough, or
  `NULL` and an unchanged heap when there is none.
* `FindsBest` is the condition on the heap before a call: the block it rates best is a smallest one,
  and there is a spare node if that block has to be split.
* `heap_best_fit`: in the runs whose calls meet the condition each call keeps the promise.
-/

namespace DVP.Sosal

variable {a : Arch} {arena : Arena a} {h h' h₀ : Heap} {blk blk' : Ptr → Block} {p q : Ptr}
  {n N : Nat} {us fs ss us' fs' ss' : List Ptr}
  {estimate buffer size p2align : Nat} {ops : List HeapOp}

/-- What a rating sees of the bytes of a block that are too many for a request of `N`. -/
def excess (blk : Ptr → Block) (N : Nat) (p : Ptr) : Nat := ((blk p).size - N) % 2 ^ 32

/-- No free block that is large enough is smaller than that of `p`, rated above it, or rated the same
and at a lower address. -/
def Preferred (blk : Ptr → Block) (n N : Nat) (fs : List Ptr) (p : Ptr) : Prop :=
  n ≤ (blk p).size ∧ ∀ q ∈ fs, n ≤ (blk q).size →
    (blk p).size ≤ (blk q).size ∧
      (excess blk N p < excess blk N q ∨
        excess blk N p = excess blk N q ∧ (blk p).data ≤ (blk q).data)

instance : Decidable (Preferred blk n N fs p) := inferInstanceAs (Decidable (_ ∧ _))

/-- The call is not a request that is rounded past the last `size_t` while there is a free block,
and does not go by a tail that was left behind. If a free block is large enough, the preferred one is
a smallest one, and has just the size of the request or there is a spare node for the rest of it. -/
def FindsBest (a : Arch) (h : Heap) : HeapOp → Prop
  | .alloc n =>
    n ≠ 0 →
      (Roundable a h.align n ∨ listNodes h.nodes h.free = []) ∧ ¬h.TakesStale a n ∧
        ((∀ p ∈ listNodes h.nodes h.free, (h.blockOf p).size < n) ∨
          ∃ p ∈ listNodes h.nodes h.free,
            Preferred h.blockOf n (blockSize a h.align n) (listNodes h.nodes h.free) p ∧
              ((h.blockOf p).size = blockSize a h.align n ∨ listNodes h.nodes h.spare ≠ []))
  | .free _ => True

instance (h : Heap) : (op : HeapOp) → Decidable (FindsBest a h op)
  | .alloc _ => inferInstanceAs (Decidable (_ → _ ∧ _ ∧ _))
  | .free _ => instDecidableTrue

/-- What `heap_alloc` answers to a request for `n` bytes. A pointer is the aligned start of a block
of at least `n` bytes, made of the first bytes of a smallest free block that is large enough, and with
no byte of another used block. With `NULL` no free block is large enough and nothing has changed. -/
def BestFit (h : Heap) (n : Nat) (h' : Heap) : AllocResult → Prop
  | .ptr address =>
    address % h.align = 0 ∧
      ∃ p ∈ listNodes h.nodes h.free,
        ((h.blockOf p).data = address ∧ n ≤ (h.blockOf p).size ∧
          ∀ q ∈ listNodes h.nodes h.free, n ≤ (h.blockOf q).size →
            (h.blockOf p).size ≤ (h.blockOf q).size) ∧
        (p ∈ listNodes h'.nodes h'.used ∧ (h'.blockOf p).data = address ∧
          n ≤ (h'.blockOf p).size ∧ (h'.blockOf p).size ≤ (h.blockOf p).size) ∧
        ∀ q ∈ listNodes h'.nodes h'.used, q ≠ p →
          (h'.blockOf p).span.Apart (h'.blockOf q).span
  | .null _ => (∀ p ∈ listNodes h.nodes h.free, (h.blockOf p).size < n) ∧ h' = h

/-- What a call does, if it is a request for bytes. -/
def CallBestFit (h : Heap) : HeapOp → HeapAnswer → Heap → Prop
  | .alloc n, .alloc r, h' => n ≠ 0 → BestFit h n h' r
  | _, _, _ => True

/-! ## The choice -/

/-- The best node of the free list is the preferred one. -/
theorem Preferred.eq_best (hpref : Preferred blk n N fs p) (hp : p ∈ fs)
    (hregion : Region arena ((us ++ fs).map blk)) (hsorted : Sorted blk fs) (hN : 0 < N)
    (hdvd : arena.align ∣ N) (hfits : ∀ q ∈ fs, n ≤ (blk q).size ↔ N ≤ (blk q).size)
    (hbest : bestOf (ratingOf a blk N) fs = some q) : p = q := by
  obtain ⟨xs, ys, rfl, hposq, hbefore, hafter⟩ := bestOf_eq_some hbest
  have hq : q ∈ xs ++ q :: ys := by simp
  have hmem : ∀ r ∈ xs ++ q :: ys, r ∈ us ++ (xs ++ q :: ys) :=
    fun r hr => List.mem_append_right us hr
  have hrating : ∀ r, N ≤ (blk r).size → ratingOf a blk N r = maxScore - excess blk N r :=
    fun r hr => scoreBestfit_eq hr
  have hlt : ∀ r, excess blk N r ≤ maxScore := by
    intro r
    have hlt := Nat.mod_lt ((blk r).size - N) (show 0 < 2 ^ 32 by decide)
    rw [excess, maxScore]
    omega
  have hsizeq : N ≤ (blk q).size :=
    (scoreBestfit_pos arena (hregion.aligned _ (List.mem_map_of_mem (hmem q hq))).2 hdvd).mp hposq
  have hsizep : N ≤ (blk p).size := (hfits p hp).mp hpref.1
  obtain ⟨hsmall, hor⟩ := hpref.2 q hq ((hfits q hq).mpr hsizeq)
  have hratingp := hrating p hsizep
  have hratingq := hrating q hsizeq
  have hltp := hlt p
  have hltq := hlt q
  rcases List.mem_append.mp hp with hxs | hcons
  · -- a node before the best one has a lower rating
    have hlow := hbefore p hxs
    omega
  rcases List.mem_cons.mp hcons with hpq | hys
  · exact hpq
  · -- one after it has the same rating, and so is not at a higher address
    have hlow := hafter p hys
    have hdata := hsorted.around.2 p hys
    by_contra hne
    have hapart := hregion.apart (hmem p hp) (hmem q hq) hne
    have hor' := hapart.le_or_le (Nat.lt_of_lt_of_le hN hsizep) (Nat.lt_of_lt_of_le hN hsizeq)
    simp only [Block.span] at hor'
    omega

/-- The blocks that are large enough for the request are those for the rounded one. -/
theorem fits_iff (hregion : Region arena ((us ++ fs).map blk)) (hround : Roundable a arena.align n)
    (hp : p ∈ fs) : n ≤ (blk p).size ↔ blockSize a arena.align n ≤ (blk p).size := by
  constructor
  · have hdvd := (hregion.aligned _ (List.mem_map_of_mem (List.mem_append_right us hp))).2
    exact blockSize_le arena.align_pos hround hdvd
  · exact Nat.le_trans (le_blockSize hround)

/-! ## Calls -/

/-- The start of a block of the region is aligned when the region is. -/
theorem Region.data_mod (hregion : Region arena (us.map blk)) (hbase : arena.base % arena.align = 0)
    (hp : p ∈ us) : (blk p).data % arena.align = 0 := by
  have hmem : blk p ∈ us.map blk := List.mem_map_of_mem hp
  have hwithin := (hregion.within _ hmem).1
  obtain ⟨c, hc⟩ := (hregion.aligned _ hmem).1
  obtain ⟨d, hd⟩ := Nat.dvd_of_mod_eq_zero hbase
  have hdata : (blk p).data = arena.align * (c + d) := by
    rw [Nat.mul_add]
    omega
  rw [hdata]
  exact Nat.mul_mod_right _ _

/-- A block that was given out. -/
theorem bestFit_ptr (hst : HeapStale arena h us fs ss h.blockOf)
    (hst' : HeapStale arena h' us' fs' ss' blk') (hbase : arena.base % arena.align = 0)
    (hp : p ∈ fs) (hp' : p ∈ us') (hfit : n ≤ (h.blockOf p).size)
    (hleast : ∀ q ∈ fs, n ≤ (h.blockOf q).size → (h.blockOf p).size ≤ (h.blockOf q).size)
    (hdata : (blk' p).data = (h.blockOf p).data) (hn : n ≤ (blk' p).size)
    (hsize : (blk' p).size ≤ (h.blockOf p).size) : BestFit h n h' (.ptr (h.blockOf p).data) := by
  have hin : ∀ q ∈ us', q ∈ us' ++ fs' := fun q hq => List.mem_append_left fs' hq
  unfold BestFit
  dsimp only
  rw [hst.listNodes_free, hst'.listNodes_used, show h.align = arena.align from hst.inv.align]
  refine ⟨hst.inv.region.data_mod hbase (List.mem_append_right us hp), p, hp,
    ⟨rfl, hfit, hleast⟩, ?_, fun q hq hqp => ?_⟩
  · rw [hst'.blockOf_eq (hin p hp')]
    exact ⟨hp', hdata, hn, hsize⟩
  · rw [hst'.blockOf_eq (hin p hp'), hst'.blockOf_eq (hin q hq)]
    exact hst'.inv.region.apart (hin p hp') (hin q hq) (Ne.symm hqp)

/-- A call that meets the condition finds a best fit. -/
theorem heapAlloc_bestFit (hst : HeapStale arena h us fs ss h.blockOf)
    (hbase : arena.base % arena.align = 0) (hn : n ≠ 0) (hop : FindsBest a h (.alloc n)) :
    ∃ h' r, heapAlloc a h n = .ok (h', r) ∧
      (∃ us' fs' ss' blk', HeapStale arena h' us' fs' ss' blk') ∧ BestFit h n h' r := by
  obtain ⟨hround, hsafe, hcond⟩ := hop hn
  rw [hst.listNodes_free, hst.listNodes_spare, show h.align = arena.align from hst.inv.align] at *
  have hregion := hst.inv.region
  obtain ⟨h', r, us', fs', ss', blk', halloc, hst', hstep⟩ := heapAlloc_stale_spec hst hsafe
  refine ⟨h', r, halloc, ⟨us', fs', ss', blk', hst'⟩, ?_⟩
  have hround_of : ∀ {q}, q ∈ fs → Roundable a arena.align n := by
    intro q hq
    refine hround.resolve_right ?_
    rintro rfl
    cases hq
  -- the node that was taken is the preferred one
  have hchosen : ∀ {q}, q ∈ fs → bestOf (ratingOf a h.blockOf (blockSize a arena.align n)) fs = some q →
      blockSize a arena.align n ≤ (h.blockOf q).size →
      Preferred h.blockOf n (blockSize a arena.align n) fs q ∧
        ((h.blockOf q).size = blockSize a arena.align n ∨ ss ≠ []) := by
    intro q hq hbest hsize
    have hr := hround_of hq
    rcases hcond with hnone | ⟨p, hp, hpref, hspare⟩
    · have hlt := hnone q hq
      have hle := le_blockSize hr
      omega
    · obtain rfl := hpref.eq_best hp hregion hst.inv.freeSorted (blockSize_pos hn hr)
        (dvd_blockSize arena n) (fun q hq => fits_iff hregion hr hq) hbest
      exact ⟨hpref, hspare⟩
  cases hstep with
  | refused why hwhy hfit =>
    unfold BestFit
    dsimp only
    rw [hst.listNodes_free]
    refine ⟨fun p hp => ?_, heapAlloc_keeps halloc hwhy.1 hwhy.2⟩
    have hlt := hfit hn p hp
    have hiff := fits_iff hregion (hround_of hp) hp
    omega
  | dry xs p ys xs' ys' hn hfs hbest hsize hspare =>
    obtain ⟨-, hor⟩ := hchosen (by simp [hfs]) hbest (Nat.le_of_lt hsize)
    rcases hor with heq | hne
    · omega
    · exact absurd hspare hne
  | whole xs p ys us₁ us₂ hn hfs hbest hsize hus =>
    have hp : p ∈ fs := by simp [hfs]
    obtain ⟨hpref, -⟩ := hchosen hp hbest (Nat.le_of_eq hsize.symm)
    exact bestFit_ptr hst hst' hbase hp (by simp) hpref.1 (fun q hq hfit => (hpref.2 q hq hfit).1) rfl
      hpref.1 (Nat.le_refl _)
  | part xs p ys us₁ us₂ s ss' xs' ys' hn hfs hbest hsize hus hspare hplace =>
    have hp : p ∈ fs := by simp [hfs]
    obtain ⟨hpref, -⟩ := hchosen hp hbest (Nat.le_of_lt hsize)
    refine bestFit_ptr hst hst' hbase hp (by simp) hpref.1 (fun q hq hfit => (hpref.2 q hq hfit).1)
      ?_ ?_ ?_
    all_goals rw [splitBlocks_self]
    · exact le_blockSize (hround_of hp)
    · exact Nat.le_of_lt hsize

/-- One call keeps the invariant, and finds a best fit if it is a request. -/
theorem heapStep_bestFit (hbase : arena.base % arena.align = 0) {op : HeapOp}
    (hhas : ∃ us fs ss blk, HeapStale arena h us fs ss blk) (hop : FindsBest a h op) :
    ∃ h' r, heapStep a h op = .ok (h', r) ∧ CallBestFit h op r h' ∧
      ∃ us fs ss blk, HeapStale arena h' us fs ss blk := by
  obtain ⟨us, fs, ss, blk, hst⟩ := hhas
  replace hst := hst.toBlockOf
  cases op with
  | alloc n =>
    by_cases hn : n = 0
    · have halloc : heapAlloc a h n = .ok (h, .null .noBytes) := by
        unfold heapAlloc
        rw [if_neg (show h.raw ≠ 0 from hst.inv.raw), if_pos hn]
      exact ⟨h, .alloc (.null .noBytes), by simp [heapStep, halloc], fun hne => absurd hn hne,
        us, fs, ss, _, hst⟩
    · obtain ⟨h', r, halloc, hst', hfit⟩ := heapAlloc_bestFit hst hbase hn hop
      exact ⟨h', .alloc r, by simp [heapStep, halloc], fun _ => hfit, hst'⟩
  | free pointer =>
    obtain ⟨h', r, us', fs', blk', hfree, hst', -⟩ := heapFree_stale_spec hst pointer
    exact ⟨h', .free r, by simp [heapStep, hfree], trivial, us', fs', ss, blk', hst'⟩

/-- In a run from `heap_init` on with an aligned data region, so long as the block that is rated best
is a smallest one, each request is given the start of a smallest free block that is large enough, and
is refused without any change only when there is none. -/
theorem heap_best_fit
    (hinit : heapInit a estimate buffer size p2align = .ok (h₀, true))
    (hspace : h₀.data + h₀.maxBlocks * h₀.align < a.size) (haligned : h₀.data % h₀.align = 0)
    (hops : Machine.Meets (heapStep a) (FindsBest a) h₀ ops) :
    Machine.EachStep (heapStep a) CallBestFit h₀ ops := by
  obtain ⟨arena, ss, blk, hinv, -, halign, hbase, -⟩ := heapInit_inv hinit hspace
  rw [← halign, ← hbase] at haligned
  exact Machine.eachStep_of_invariant (fun _ _ => heapStep_bestFit haligned)
    ⟨[], [0], ss, blk, hinv.stale⟩ hops

theorem heap_best_fit_four :
    ∃ h₀, heapInit .arch64 166 4096 300 5 = .ok (h₀, true) ∧
      Machine.EachStep (heapStep .arch64) CallBestFit h₀
        [.alloc 32, .alloc 1, .free 4256, .alloc 20] := by
  obtain ⟨⟨h₀, created⟩, hinit, hcreated, hspace, haligned, hcheck⟩ :
      ∃ r ∈ (heapInit .arch64 166 4096 300 5).toOption, r.2 = true ∧
        r.1.data + r.1.maxBlocks * r.1.align < Arch.arch64.size ∧ r.1.data % r.1.align = 0 ∧
        Machine.check (heapStep .arch64) (FindsBest .arch64) r.1
          [.alloc 32, .alloc 1, .free 4256, .alloc 20] = true := by decide +kernel
  obtain rfl : created = true := hcreated
  have hinit := eq_ok_of_mem_toOption hinit
  exact ⟨h₀, hinit, heap_best_fit hinit hspace haligned (Machine.check_eq_true_iff.mp hcheck)⟩

/-- A request for all bytes there can be is rounded up to `0`, and given a block of a heap that has
`128` bytes. -/
theorem heap_alloc_wraps :
    ∃ h₀ h', heapInit .arch64 166 4096 300 5 = .ok (h₀, true) ∧
      heapAlloc .arch64 h₀ (2 ^ 64 - 1) = .ok (h', .ptr 4256) ∧
      h₀.bytesFree = 128 ∧ ¬BestFit h₀ (2 ^ 64 - 1) h' (.ptr 4256) := by
  obtain ⟨⟨h₀, created⟩, hinit, hcreated, hbytes, hsmall, ⟨h', answer⟩, halloc, hanswer⟩ :
      ∃ r ∈ (heapInit .arch64 166 4096 300 5).toOption, r.2 = true ∧ r.1.bytesFree = 128 ∧
        (∀ p ∈ listNodes r.1.nodes r.1.free, (r.1.blockOf p).size < 2 ^ 64 - 1) ∧
        ∃ r' ∈ (heapAlloc .arch64 r.1 (2 ^ 64 - 1)).toOption, r'.2 = .ptr 4256 := by
    decide +kernel
  obtain rfl : created = true := hcreated
  obtain rfl : answer = .ptr 4256 := hanswer
  refine ⟨h₀, h', eq_ok_of_mem_toOption hinit, eq_ok_of_mem_toOption halloc, hbytes, ?_⟩
  rintro ⟨-, p, hp, ⟨-, hle, -⟩, -⟩
  exact absurd hle (Nat.not_le_of_lt (hsmall p hp))

end DVP.Sosal
