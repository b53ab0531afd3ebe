import DVP.Lib.Run
import DVP.Sosal.Heap.Init
import DVP.Sosal.Heap.Stale

/-!
# Fragmentation

Whether the free blocks of a heap are coalesced. `heap_free` merges the block it frees with the one
before it or with the one after it, never with both, so a block between two free ones stays apart
from the second of them.

* `Coalesced blk ps`: no two of the blocks touch. The calls keep it (`AllocStep.coalesced`,
  `FreeStep.coalesced`), unless a block with free blocks on both sides is freed.
* `heap_coalesces`: in the runs without such a call no two free blocks touch, and when all blocks
  are freed the free list is the one block that `heap_init` made.
-/

namespace DVP.Sosal

variable {a : Arch} {arena : Arena a} {h h₀ : Heap} {blk blk' : Ptr → Block} {p q : Ptr}
  {n N : Nat} {us fs ss us' fs' ss' xs ys ps : List Ptr}
  {estimate buffer size p2align : Nat} {ops : List HeapOp}

/-! ## Blocks that do not touch -/

/-- The block of none of the nodes ends where that of another one starts. -/
def Coalesced (blk : Ptr → Block) (ps : List Ptr) : Prop :=
  ∀ p ∈ ps, ∀ q ∈ ps, (blk p).data + (blk p).size ≠ (blk q).data

section Neighbours

variable (hregion : Region arena (ps.map blk)) (hpos : ∀ p ∈ ps, 0 < (blk p).size)
  (hsub : xs ++ p :: ys ⊆ ps) (hnodup : (xs ++ p :: ys).Nodup) (hsorted : Sorted blk (xs ++ p :: ys))
include hregion hpos hsub hnodup hsorted

/-- Among sorted blocks only the one right before a block can end where it starts. -/
theorem getLast?_of_touches (hq : q ∈ xs ++ ys)
    (htouch : (blk q).data + (blk q).size = (blk p).data) : xs.getLast? = some q := by
  have hmem : ∀ r, r ∈ xs ∨ r = p ∨ r ∈ ys → r ∈ ps := by
    intro r hr
    apply hsub
    simpa only [List.mem_append, List.mem_cons] using hr
  have hposq : 0 < (blk q).size := by
    apply hpos q (hmem q _)
    rcases List.mem_append.mp hq with hq | hq
    · exact .inl hq
    · exact .inr (.inr hq)
  obtain ⟨hbefore, hafter⟩ := hsorted.around
  have hqxs : q ∈ xs := by
    refine (List.mem_append.mp hq).resolve_right fun hys => ?_
    have hle := hafter q hys
    omega
  rcases List.eq_nil_or_concat xs with rfl | ⟨zs, z, rfl⟩
  · cases hqxs
  rw [List.concat_eq_append] at *
  rw [List.getLast?_concat, Option.some.injEq]
  by_contra hzq
  have hqzs : q ∈ zs := by simpa [Ne.symm hzq] using hqxs
  rw [List.append_assoc, List.singleton_append] at hsorted hnodup
  have hqz := hsorted.around.1 q hqzs
  have hzp := hbefore z (by simp)
  have hne : z ≠ p := (ne_of_nodup_middle hnodup (by simp)).symm
  -- the last block before it would share an address with one of the two
  have hz : z ∈ ps := hmem z (by simp)
  have hor := hregion.le_or_le hpos (hmem q (.inl hqxs)) hz (Ne.symm hzq)
  have hor' := hregion.le_or_le hpos hz (hmem p (by simp)) hne
  have hposz := hpos z hz
  have hposp := hpos p (hmem p (by simp))
  omega

/-- Only the one right after a block can start where it ends. -/
theorem head?_of_touches (hq : q ∈ xs ++ ys)
    (htouch : (blk p).data + (blk p).size = (blk q).data) : ys.head? = some q := by
  have hmem : ∀ r, r ∈ xs ∨ r = p ∨ r ∈ ys → r ∈ ps := by
    intro r hr
    apply hsub
    simpa only [List.mem_append, List.mem_cons] using hr
  have hposp : 0 < (blk p).size := hpos p (hmem p (by simp))
  obtain ⟨hbefore, hafter⟩ := hsorted.around
  have hqys : q ∈ ys := by
    refine (List.mem_append.mp hq).resolve_left fun hxs => ?_
    have hle := hbefore q hxs
    omega
  cases ys with
  | nil => cases hqys
  | cons y ys =>
    rw [List.head?_cons, Option.some.injEq]
    by_contra hyq
    have hqrest : q ∈ ys := by simpa [Ne.symm hyq] using hqys
    have hpy := hafter y List.mem_cons_self
    have hyq' : (blk y).data ≤ (blk q).data := by
      have hsorted' : Sorted blk ((xs ++ [p]) ++ y :: ys) := by simpa using hsorted
      exact hsorted'.around.2 q hqrest
    have hne : p ≠ y := (ne_of_nodup_middle hnodup (by simp)).symm
    have hy : y ∈ ps := hmem y (by simp)
    have hor := hregion.le_or_le hpos (hmem p (by simp)) hy hne
    have hor' := hregion.le_or_le hpos hy (hmem q (.inr (.inr hqys))) hyq
    have hposy := hpos y hy
    have hposq := hpos q (hmem q (.inr (.inr hqys)))
    omega

end Neighbours

/-- A block that grows stays where it is. -/
theorem data_update_grown (blk : Ptr → Block) (p : Ptr) (m : Nat) (q : Ptr) :
    (Function.update blk p ⟨m, (blk p).data⟩ q).data = (blk q).data := by
  by_cases hqp : q = p
  · rw [hqp, Function.update_self]
  · rw [Function.update_of_ne hqp]

theorem size_update_grown {m : Nat} (hq : 0 < (blk q).size) :
    0 < (Function.update blk p ⟨(blk p).size + m, (blk p).data⟩ q).size := by
  by_cases hqp : q = p
  · rw [hqp] at hq ⊢
    rw [Function.update_self]
    exact Nat.lt_of_lt_of_le hq (Nat.le_add_right _ _)
  · rwa [Function.update_of_ne hqp]

/-- A block is freed and coalesced that does not have a free block on each side. -/
theorem CoalesceStep.coalesced {fs' : List Ptr} (hstep : CoalesceStep a blk p xs ys fs' blk')
    (hregion : Region arena (ps.map blk)) (hpos : ∀ p ∈ ps, 0 < (blk p).size)
    (hsub : xs ++ p :: ys ⊆ ps) (hnodup : (xs ++ p :: ys).Nodup)
    (hsorted : Sorted blk (xs ++ p :: ys)) (hco : Coalesced blk (xs ++ ys))
    (hone : ¬((∃ q ∈ xs ++ ys, (blk q).data + (blk q).size = (blk p).data) ∧
      ∃ q ∈ xs ++ ys, (blk p).data + (blk p).size = (blk q).data)) :
    Coalesced blk' fs' ∧ ∀ q, 0 < (blk q).size → 0 < (blk' q).size := by
  have hposp : 0 < (blk p).size := hpos p (hsub (by simp))
  have htouches : ∀ q r, q ∈ xs ++ p :: ys →
      (touches a (blk q) (blk r) = true ↔ (blk q).data + (blk q).size = (blk r).data) :=
    fun q r hq => hregion.touches_iff (List.mem_map_of_mem (hsub hq))
  cases hstep with
  | none hprev hnext =>
    refine ⟨fun q hq r hr htouch => ?_, fun _ hq => hq⟩
    rcases mem_middle.mp hq with rfl | hq' <;> rcases mem_middle.mp hr with rfl | hr'
    · omega
    · -- the block after it would have been merged
      have hhead := head?_of_touches hregion hpos hsub hnodup hsorted hr' htouch
      simp [mergesNext, hprev, hhead, (htouches q r hq).mpr htouch] at hnext
    · have hlast := getLast?_of_touches hregion hpos hsub hnodup hsorted hq' htouch
      simp [mergesPrev, hlast, (htouches q r hq).mpr htouch] at hprev
    · exact hco q hq' r hr' htouch
  | prev zs q hxs hprev htouch =>
    subst hxs
    have hq : q ∈ (zs ++ [q]) ++ ys := by simp
    have hrest : ∀ r, r ∈ zs ++ q :: ys ↔ r ∈ (zs ++ [q]) ++ ys := by
      intro r
      simp
    refine ⟨fun r hr s hs hrs => ?_, fun r hr => size_update_grown hr⟩
    rw [data_update_grown, data_update_grown] at hrs
    by_cases hrq : r = q
    · -- the merged block ends where the freed one did
      rw [hrq, Function.update_self] at hrs
      dsimp only at hrs
      exact hone ⟨⟨q, hq, htouch⟩, s, (hrest s).mp hs, by omega⟩
    · rw [Function.update_of_ne hrq] at hrs
      exact hco r ((hrest r).mp hr) s ((hrest s).mp hs) hrs
  | next q zs hys hnext htouch =>
    subst hys
    have hq : q ∈ xs ++ q :: zs := by simp
    have hposq : 0 < (blk q).size := hpos q (hsub (by simp))
    have hrest : ∀ r ∈ xs ++ p :: zs, r ≠ p → r ∈ xs ++ q :: zs := by
      intro r hr hrp
      exact mem_middle.mpr (.inr ((mem_middle.mp hr).resolve_left hrp))
    refine ⟨fun r hr s hs hrs => ?_, fun r hr => size_update_grown hr⟩
    rw [data_update_grown, data_update_grown] at hrs
    by_cases hrp : r = p
    · -- the merged block ends where the one after it did
      rw [hrp, Function.update_self] at hrs
      dsimp only at hrs
      by_cases hsp : s = p
      · rw [hsp] at hrs
        omega
      · exact hco q hq s (hrest s hs hsp) (by omega)
    · rw [Function.update_of_ne hrp] at hrs
      by_cases hsp : s = p
      · rw [hsp] at hrs
        exact hone ⟨⟨r, hrest r hr hrp, hrs⟩, q, hq, htouch⟩
      · exact hco r (hrest r hr hrp) s (hrest s hs hsp) hrs

/-- A block that is taken from the free list, whole or in part, touches no other free one. -/
theorem AllocStep.coalesced {r : AllocResult} (hstep : AllocStep a n N us fs ss blk r us' fs' ss' blk')
    (hregion : Region arena ((us ++ fs).map blk)) (hpos : ∀ p ∈ us ++ fs, 0 < (blk p).size)
    (hnodup : (us ++ (fs ++ ss)).Nodup) (hco : Coalesced blk fs)
    (hN : fs ≠ [] → ss ≠ [] → n ≠ 0 → 0 < N) :
    Coalesced blk' fs' ∧ ∀ q ∈ us' ++ fs', 0 < (blk' q).size := by
  -- fewer free blocks do not touch where more did not
  have hmono : ∀ {qs rs : List Ptr}, qs ⊆ rs → Coalesced blk rs → Coalesced blk qs :=
    fun hsub hco p hp q hq => hco p (hsub hp) q (hsub hq)
  cases hstep with
  | refused => exact ⟨hco, hpos⟩
  -- the block is found but there is no spare node: its place in the list may change
  | dry xs p ys xs' ys' hn hfs hbest hsize hspare hplace =>
    have hsub : xs' ++ p :: ys' ⊆ fs := by
      intro q hq
      rw [mem_middle, ← hplace] at hq
      rw [hfs, mem_middle]
      exact hq
    refine ⟨hmono hsub hco, fun q hq => hpos q ?_⟩
    exact List.mem_append.mpr ((List.mem_append.mp hq).imp_right fun hq => hsub hq)
  | whole xs p ys us₁ us₂ hn hfs hbest hsize hus =>
    refine ⟨hmono ?_ hco, fun q hq => hpos q ?_⟩
    · intro q hq
      rw [hfs, mem_middle]
      exact .inr hq
    · simp only [hfs, hus, List.mem_append, List.mem_cons] at hq ⊢
      grind
  | part xs p ys us₁ us₂ s ss' xs' ys' hn hfs hbest hsize hus hspare hplace =>
    have hNpos : 0 < N := hN (by simp [hfs]) (by simp [hspare]) hn
    subst hfs hus hspare
    have hp : p ∈ (us₁ ++ us₂) ++ (xs ++ p :: ys) := by simp
    have hsp : s ≠ p := by
      rintro rfl
      simp only [List.nodup_append, List.nodup_cons, List.mem_append, List.mem_cons] at hnodup
      exact hnodup.2.1.2.2 s (.inr (.inl rfl)) s (.inl rfl) rfl
    have hfresh : ∀ q ∈ (us₁ ++ us₂) ++ (xs ++ ys), q ≠ p ∧ q ≠ s := by
      intro q hq
      constructor <;> rintro rfl <;>
        simp only [List.nodup_append, List.nodup_cons, List.mem_append, List.mem_cons] at hnodup hq <;>
        grind
    have hblk : ∀ q ∈ (us₁ ++ us₂) ++ (xs ++ ys), splitBlocks blk p s N q = blk q := by
      intro q hq
      rw [splitBlocks, Function.update_of_ne (hfresh q hq).1, Function.update_of_ne (hfresh q hq).2]
    have hblk_p := splitBlocks_self blk p s N
    -- the rest of the block goes to the spare node `s`
    have hblk_s : splitBlocks blk p s N s = ⟨(blk p).size - N, (blk p).data + N⟩ := by
      rw [splitBlocks, Function.update_of_ne hsp, Function.update_self]
    have hin : ∀ q ∈ xs' ++ s :: ys', q = s ∨ q ∈ xs ++ ys := by
      intro q hq
      rwa [mem_middle, ← hplace] at hq
    have hold : ∀ q ∈ xs ++ ys, q ∈ xs ++ p :: ys := fun q hq => mem_middle.mpr (.inr hq)
    constructor
    · intro q hq r hr htouch
      rcases hin q hq with rfl | hq' <;> rcases hin r hr with rfl | hr'
      · simp only [hblk_s] at htouch
        omega
      · -- the rest of the block ends where the block did
        rw [hblk_s, hblk r (List.mem_append_right _ hr')] at htouch
        dsimp only at htouch
        exact hco p (by simp) r (hold r hr') (by omega)
      · -- the rest of the block starts within the block
        rw [hblk_s, hblk q (List.mem_append_right _ hq')] at htouch
        dsimp only at htouch
        have hq'' : q ∈ (us₁ ++ us₂) ++ (xs ++ p :: ys) := List.mem_append_right _ (hold q hq')
        have hor := hregion.le_or_le hpos hq'' hp (hfresh q (List.mem_append_right _ hq')).1
        have hposq := hpos q hq''
        omega
      · rw [hblk q (List.mem_append_right _ hq'), hblk r (List.mem_append_right _ hr')] at htouch
        exact hco q (hold q hq') r (hold r hr') htouch
    · intro q hq
      have hcases : q = p ∨ q = s ∨ q ∈ (us₁ ++ us₂) ++ (xs ++ ys) := by
        have hmem := hin q
        simp only [List.mem_append, List.mem_cons] at hq hmem ⊢
        grind
      rcases hcases with rfl | rfl | hq'
      · rw [hblk_p]
        exact hNpos
      · rw [hblk_s]
        show 0 < (blk p).size - N
        omega
      · rw [hblk q hq']
        apply hpos
        exact (List.mem_append.mp hq').elim (List.mem_append_left _) fun hq' =>
          List.mem_append_right _ (hold q hq')

/-! ## Calls -/

/-- The call frees a block that has a free block on each side. -/
def Heap.joinsTwo (a : Arch) (h : Heap) (pointer : Nat) : Bool :=
  (h.freedNode pointer).any fun p =>
    ((listNodes h.nodes h.free).any fun q => touches a (h.blockOf q) (h.blockOf p)) &&
      (listNodes h.nodes h.free).any fun q => touches a (h.blockOf p) (h.blockOf q)

/-- The call frees no block between two free ones. It is not a request that is rounded past the last
`size_t` and given a block, and takes no block by a tail that was left behind. -/
def KeepsCoalesced (a : Arch) (h : Heap) : HeapOp → Prop
  | .alloc n =>
    (Roundable a h.align n ∨ listNodes h.nodes h.free = [] ∨ listNodes h.nodes h.spare = []) ∧
      ¬h.TakesStale a n
  | .free pointer => h.joinsTwo a pointer = false

instance (h : Heap) : (op : HeapOp) → Decidable (KeepsCoalesced a h op)
  | .alloc _ => inferInstanceAs (Decidable (_ ∧ _))
  | .free _ => inferInstanceAs (Decidable (_ = _))

/-- The invariant, with blocks that all have bytes, of which no two free ones touch. -/
structure HeapCoalesced (arena : Arena a) (h : Heap) (us fs ss : List Ptr) (blk : Ptr → Block) :
    Prop where
  stale : HeapStale arena h us fs ss blk
  pos : ∀ p ∈ us ++ fs, 0 < (blk p).size
  coalesced : Coalesced blk fs

theorem HeapCoalesced.toBlockOf (hco : HeapCoalesced arena h us fs ss blk) :
    HeapCoalesced arena h us fs ss h.blockOf := by
  refine ⟨hco.stale.toBlockOf, fun p hp => ?_, fun p hp q hq => ?_⟩
  · rw [hco.stale.blockOf_eq hp]
    exact hco.pos p hp
  · rw [hco.stale.blockOf_eq (List.mem_append_right us hp),
      hco.stale.blockOf_eq (List.mem_append_right us hq)]
    exact hco.coalesced p hp q hq

/-- `heap_alloc` of such a heap. -/
theorem heapAlloc_coalesced (hco : HeapCoalesced arena h us fs ss blk)
    (hop : KeepsCoalesced a h (.alloc n)) :
    ∃ h' r us' fs' ss' blk', heapAlloc a h n = .ok (h', r) ∧
      HeapCoalesced arena h' us' fs' ss' blk' := by
  replace hco := hco.toBlockOf
  obtain ⟨h', r, us', fs', ss', blk', halloc, hst', hstep⟩ := heapAlloc_stale_spec hco.stale hop.2
  have hN : fs ≠ [] → ss ≠ [] → n ≠ 0 → 0 < blockSize a arena.align n := by
    intro hfs hss hn
    have hround := hop.1
    rw [hco.stale.listNodes_free, hco.stale.listNodes_spare,
      show h.align = arena.align from hco.stale.inv.align] at hround
    exact blockSize_pos hn (hround.resolve_right fun hempty => hempty.elim hfs hss)
  obtain ⟨hco', hpos'⟩ := hstep.coalesced hco.stale.inv.region hco.pos hco.stale.nodup hco.coalesced hN
  exact ⟨h', r, us', fs', ss', blk', halloc, hst', hpos', hco'⟩

/-- `heap_free` of such a heap. -/
theorem heapFree_coalesced (hco : HeapCoalesced arena h us fs ss blk) {pointer : Nat}
    (hop : KeepsCoalesced a h (.free pointer)) :
    ∃ h' r us' fs' ss' blk', heapFree a h pointer = .ok (h', r) ∧
      HeapCoalesced arena h' us' fs' ss' blk' := by
  replace hco := hco.toBlockOf
  obtain ⟨h', r, us', fs', blk', hfree, hst', hstep⟩ := heapFree_stale_spec hco.stale pointer
  refine ⟨h', r, us', fs', ss, blk', hfree, ?_⟩
  have hnodup := hco.stale.nodup
  have hsub := hstep.subset
  have hpos := hco.pos
  have hcoalesced := hco.coalesced
  cases hstep with
  | none => exact ⟨hst', hpos, hcoalesced⟩
  | some p us₁ us₂ xs ys _ _ hfreed hplace hus hfs hsorted hcoalesce =>
    have hin : ∀ q ∈ xs ++ p :: ys, q ∈ us ++ fs := by
      intro q hq
      rw [hus, hfs, List.mem_append, mem_middle]
      rcases mem_middle.mp hq with rfl | hq
      · exact .inl (.inl rfl)
      · exact .inr hq
    have htouches : ∀ q r, q ∈ us ++ fs → (touches a (h.blockOf q) (h.blockOf r) = true ↔
        (h.blockOf q).data + (h.blockOf q).size = (h.blockOf r).data) :=
      fun q r hq => hco.stale.inv.region.touches_iff (List.mem_map_of_mem hq)
    -- the condition on the call: the block does not join two others
    have hone : ¬((∃ q ∈ xs ++ ys, (h.blockOf q).data + (h.blockOf q).size = (h.blockOf p).data) ∧
        ∃ q ∈ xs ++ ys, (h.blockOf p).data + (h.blockOf p).size = (h.blockOf q).data) := by
      rintro ⟨⟨q, hq, hqp⟩, r, hr, hpr⟩
      rw [← hfs] at hq hr
      rw [KeepsCoalesced, Heap.joinsTwo, hfreed, Option.any_some, hco.stale.listNodes_free] at hop
      have htwo : ((fs.any fun q => touches a (h.blockOf q) (h.blockOf p)) &&
          fs.any fun q => touches a (h.blockOf p) (h.blockOf q)) = true := by
        rw [Bool.and_eq_true, List.any_eq_true, List.any_eq_true]
        exact ⟨⟨q, hq, (htouches q p (List.mem_append_right us hq)).mpr hqp⟩, r, hr,
          (htouches p r (hin p (by simp))).mpr hpr⟩
      rw [htwo] at hop
      cases hop
    have hnodup' : (xs ++ p :: ys).Nodup := by
      rw [hus, hfs] at hnodup
      simp only [List.nodup_append, List.nodup_cons, List.mem_append, List.mem_cons] at hnodup ⊢
      grind
    obtain ⟨hco', hmono⟩ := hcoalesce.coalesced hco.stale.inv.region hpos hin hnodup' hsorted
      (hfs ▸ hcoalesced) hone
    exact ⟨hst', fun q hq => hmono q (hpos q (hsub hq)), hco'⟩

/-! ## Runs -/

/-- No two free blocks touch. When no block is used, the free list is one block that takes the whole
data region, and a request for all of it is met. -/
structure Defragmented (a : Arch) (base total : Nat) (h : Heap) : Prop where
  apart : ∀ p ∈ listNodes h.nodes h.free, ∀ q ∈ listNodes h.nodes h.free,
    touches a (h.blockOf p) (h.blockOf q) = false
  whole : listNodes h.nodes h.used = [] →
    (∃ p, listNodes h.nodes h.free = [p] ∧ h.blockOf p = ⟨total, base⟩) ∧
      ∃ h', heapAlloc a h total = .ok (h', .ptr base)

/-- Some nodes and blocks have the invariant. -/
def HasCoalesced (arena : Arena a) (h : Heap) : Prop :=
  ∃ us fs ss blk, HeapCoalesced arena h us fs ss blk

/-- Free blocks that do not touch are one block when nothing else is in the region. -/
theorem HeapCoalesced.eq_singleton (hco : HeapCoalesced arena h [] fs ss blk)
    (htotal : 0 < arena.total) : ∃ p, fs = [p] ∧ blk p = ⟨arena.total, arena.base⟩ := by
  have htiles := hco.stale.inv.region.tiles
  rw [List.nil_append, List.map_map] at htiles
  have hsingle := htiles.eq_singleton htotal
    (by
      intro s hs
      obtain ⟨p, hp, rfl⟩ := List.mem_map.mp hs
      exact hco.pos p hp)
    (by
      intro s hs t ht
      obtain ⟨p, hp, rfl⟩ := List.mem_map.mp hs
      obtain ⟨q, hq, rfl⟩ := List.mem_map.mp ht
      exact hco.coalesced p hp q hq)
  obtain ⟨p, rfl, hspan⟩ := List.map_eq_singleton_iff.mp hsingle
  refine ⟨p, rfl, ?_⟩
  simp only [Function.comp_apply, Block.span, Span.mk.injEq] at hspan
  rw [← hspan.1, ← hspan.2]

/-- A request for the one block that takes the whole region is met. -/
theorem heapAlloc_whole (hst : HeapStale arena h us [p] ss h.blockOf) (htotal : 0 < arena.total)
    (hblock : h.blockOf p = ⟨arena.total, arena.base⟩) :
    ∃ h', heapAlloc a h arena.total = .ok (h', .ptr arena.base) := by
  have hsafe : ¬h.TakesStale a arena.total := by
    rintro ⟨-, -, -, hne⟩
    rw [hst.listNodes_free] at hne
    exact hne rfl
  have hsize : blockSize a arena.align arena.total = arena.total := by
    rw [blockSize, if_neg]
    rw [Arena.total, Nat.mul_mod_left]
    exact fun hne => hne rfl
  obtain ⟨h', r, us', fs', ss', blk', halloc, -, hstep⟩ := heapAlloc_stale_spec hst hsafe
  rw [hsize] at hstep
  have hone : ∀ {xs q ys}, [p] = xs ++ q :: ys → h.blockOf q = ⟨arena.total, arena.base⟩ := by
    intro xs q ys hfs
    have hq : q ∈ [p] := by
      rw [hfs]
      simp
    rw [List.mem_singleton.mp hq, hblock]
  cases hstep with
  | refused why hwhy hfit =>
    have hlt := hfit (by omega) p List.mem_cons_self
    rw [hblock] at hlt
    exact absurd hlt (Nat.lt_irrefl _)
  | dry xs q ys xs' ys' hn hfs hbest hlt =>
    rw [hone hfs] at hlt
    exact absurd hlt (Nat.lt_irrefl _)
  | whole xs q ys us₁ us₂ hn hfs =>
    rw [hone hfs] at halloc
    exact ⟨h', halloc⟩
  | part xs q ys us₁ us₂ s ss' xs' ys' hn hfs hbest hlt =>
    rw [hone hfs] at hlt
    exact absurd hlt (Nat.lt_irrefl _)

theorem HasCoalesced.defragmented (htotal : 0 < arena.total) (hhas : HasCoalesced arena h) :
    Defragmented a arena.base arena.total h := by
  obtain ⟨us, fs, ss, blk, hco⟩ := hhas
  replace hco := hco.toBlockOf
  constructor
  · rw [hco.stale.listNodes_free]
    intro p hp q hq
    rw [Bool.eq_false_iff]
    intro htouch
    have hmem : h.blockOf p ∈ (us ++ fs).map h.blockOf :=
      List.mem_map_of_mem (List.mem_append_right us hp)
    exact hco.coalesced p hp q hq ((hco.stale.inv.region.touches_iff hmem).mp htouch)
  · intro hused
    rw [hco.stale.listNodes_used] at hused
    subst hused
    obtain ⟨p, rfl, hblock⟩ := hco.eq_singleton htotal
    exact ⟨⟨p, hco.stale.listNodes_free, hblock⟩, heapAlloc_whole hco.stale htotal hblock⟩

/-- One call keeps the invariant. -/
theorem heapStep_coalesced {op : HeapOp} (hhas : HasCoalesced arena h)
    (hop : KeepsCoalesced a h op) :
    ∃ h' r, heapStep a h op = .ok (h', r) ∧ HasCoalesced arena h' := by
  obtain ⟨us, fs, ss, blk, hco⟩ := hhas
  cases op with
  | alloc n =>
    obtain ⟨h', r, us', fs', ss', blk', halloc, hco'⟩ := heapAlloc_coalesced hco hop
    exact ⟨h', .alloc r, by simp [heapStep, halloc], us', fs', ss', blk', hco'⟩
  | free pointer =>
    obtain ⟨h', r, us', fs', ss', blk', hfree, hco'⟩ := heapFree_coalesced hco hop
    exact ⟨h', .free r, by simp [heapStep, hfree], us', fs', ss', blk', hco'⟩

/-- The one block that `heap_init` makes. -/
theorem HeapInv.coalesced_init (hinv : HeapInv arena h [] [p] ss blk) (htotal : 0 < arena.total) :
    HeapCoalesced arena h [] [p] ss blk := by
  have hbytes : (blk p).size = arena.total := by
    have hsum := hinv.region.bytes
    simpa using hsum
  refine ⟨hinv.stale, ?_, ?_⟩
  · intro q hq
    rw [List.mem_singleton.mp hq, hbytes]
    exact htotal
  · intro q hq r hr
    rw [List.mem_singleton.mp hq, List.mem_singleton.mp hr, hbytes]
    omega

/-- In a run from `heap_init` on that frees no block between two free ones, no call faults and the
free blocks are coalesced in every state: when all blocks were freed, in whatever order, the whole data
region can be allocated again. -/
theorem heap_coalesces
    (hinit : heapInit a estimate buffer size p2align = .ok (h₀, true))
    (hspace : h₀.data + h₀.maxBlocks * h₀.align < a.size)
    (hops : Machine.Meets (heapStep a) (KeepsCoalesced a) h₀ ops) :
    (∃ h answers, Machine.run (heapStep a) h₀ ops = .ok (h, answers)) ∧
      Machine.Always (heapStep a) (Defragmented a h₀.data h₀.bytesFree) h₀ ops := by
  obtain ⟨arena, ss, blk, hinv, hlength, halign, hbase, hmax, htotal⟩ := heapInit_inv hinit hspace
  have hpos : 0 < arena.total := by
    rw [Arena.total, hmax, ← hlength]
    exact Nat.mul_pos (Nat.succ_pos _) arena.align_pos
  have hhas : HasCoalesced arena h₀ := ⟨[], [0], ss, blk, hinv.coalesced_init hpos⟩
  rw [← hbase, ← htotal]
  constructor
  · obtain ⟨h, answers, hrun, -⟩ := Machine.run_invariant (fun _ _ => heapStep_coalesced) hhas hops
    exact ⟨h, answers, hrun⟩
  · refine Machine.Always.of_invariant (fun h hhas => hhas.defragmented hpos) ?_ hhas hops
    intro h op h' r hhas hop hstep
    obtain ⟨h'', r', hstep', hhas'⟩ := heapStep_coalesced hhas hop
    rw [hstep'] at hstep
    cases hstep
    exact hhas'

theorem heap_coalesces_five :
    ∃ h₀, heapInit .arch64 166 4096 300 5 = .ok (h₀, true) ∧
      (∃ h answers, Machine.run (heapStep .arch64) h₀
        [.alloc 32, .alloc 1, .free 4288, .free 4256, .alloc 128] = .ok (h, answers)) ∧
      Machine.Always (heapStep .arch64) (Defragmented .arch64 h₀.data h₀.bytesFree) h₀
        [.alloc 32, .alloc 1, .free 4288, .free 4256, .alloc 128] := by
  obtain ⟨⟨h₀, created⟩, hinit, hcreated, hspace, hcheck⟩ :
      ∃ r ∈ (heapInit .arch64 166 4096 300 5).toOption, r.2 = true ∧
        r.1.data + r.1.maxBlocks * r.1.align < Arch.arch64.size ∧
        Machine.check (heapStep .arch64) (KeepsCoalesced .arch64) r.1
          [.alloc 32, .alloc 1, .free 4288, .free 4256, .alloc 128] = true := by decide +kernel
  obtain rfl : created = true := hcreated
  have hinit := eq_ok_of_mem_toOption hinit
  exact ⟨h₀, hinit, heap_coalesces hinit hspace (Machine.check_eq_true_iff.mp hcheck)⟩

/-- Two blocks are allocated and freed again in the order of their addresses. The second one is
merged with the first one alone, so the bytes after it stay apart and all `128` of them cannot be
allocated. -/
theorem heap_free_leaves_fragments :
    ∃ h₀ h, heapInit .arch64 166 4096 300 5 = .ok (h₀, true) ∧
      h₀.data + h₀.maxBlocks * h₀.align < Arch.arch64.size ∧
      Machine.run (heapStep .arch64) h₀ [.alloc 32, .alloc 1, .free 4256, .free 4288] =
        .ok (h, [.alloc (.ptr 4256), .alloc (.ptr 4288), .free true, .free true]) ∧
      (listNodes h.nodes h.used = [] ∧
        (listNodes h.nodes h.free).map h.blockOf = [⟨64, 4256⟩, ⟨64, 4320⟩]) ∧
      ¬Defragmented .arch64 h₀.data h₀.bytesFree h := by
  obtain ⟨⟨h₀, created⟩, hinit, hcreated, hspace, ⟨h, answers⟩, hrun, hanswers, hused, hfree⟩ :
      ∃ r ∈ (heapInit .arch64 166 4096 300 5).toOption, r.2 = true ∧
        r.1.data + r.1.maxBlocks * r.1.align < Arch.arch64.size ∧
        ∃ r' ∈ (Machine.run (heapStep .arch64) r.1
            [.alloc 32, .alloc 1, .free 4256, .free 4288]).toOption,
          r'.2 = [.alloc (.ptr 4256), .alloc (.ptr 4288), .free true, .free true] ∧
          listNodes r'.1.nodes r'.1.used = [] ∧
          (listNodes r'.1.nodes r'.1.free).map r'.1.blockOf = [⟨64, 4256⟩, ⟨64, 4320⟩] := by
    decide +kernel
  obtain rfl : created = true := hcreated
  obtain rfl : answers = _ := hanswers
  refine ⟨h₀, h, eq_ok_of_mem_toOption hinit, hspace, eq_ok_of_mem_toOption hrun, ⟨hused, hfree⟩,
    fun hdefrag => ?_⟩
  -- the free list would be one block
  obtain ⟨⟨p, hp, -⟩, -⟩ := hdefrag.whole hused
  have hlength := congrArg List.length hfree
  rw [hp] at hlength
  cases hlength

end DVP.Sosal
