import DVP.Lib.Stages
import DVP.VisionCam.Avi.Walk

/-!
# Termination of the AVI parser

Behind the last complete header, what the parser reads is what its variables hold. There are values with
which it never ends, so that it ends for all of them exactly when it never gets there.

* `parseEnds_iff`: when `avi_list_parse` and `avi_header_parse` end for everything that variables may hold,
  with no more nested calls than the file has bytes.
-/

namespace DVP.VisionCam.FileVisionCam

open Bytes

/-! ## Endings -/

section Ends

variable (content : List UInt8) (long : Long)

/-- `avi_list_parse` ends, with no more nested calls than the file has bytes. -/
def ListParseEnds (p : Nat) (aList : AviList) : Prop :=
  ∀ uninit, ∃ rounds r, aviListParse content long content.length rounds aList ⟨p, uninit⟩ = some r

/-- `avi_header_parse` ends, with no more nested calls than the file has bytes. -/
def HeaderParseEnds (p : Nat) (aHeader : AviHeader) : Prop :=
  ∀ uninit, ∃ rounds r, aviHeaderParse content long content.length rounds aHeader ⟨p, uninit⟩ = some r

/-- The loop of `avi_list_parse` ends. -/
def LoopEnds (p : Nat) (size : BitVec 32) : Prop :=
  ∀ uninit, ∃ depth rounds s',
    aviItems content long (aviListParse content long depth rounds) rounds size ⟨p, uninit⟩ = some s'

/-- The code at a position is that of a list, or may be it where the file ends. -/
def MayBeList (p : Nat) : Prop :=
  ∀ i < 4, ∀ b, content[p + i]? = some b → [0x4C, 0x49, 0x53, 0x54][i]? = some b

end Ends

variable {content : List UInt8} {long : Long} {p q d : Nat} {size : BitVec 32} {t : UInt8}
  {f : AviList → AviState → Option (BitVec 32 × AviState)} {rounds : Nat}

/-! ## The end of the file -/

/-- Variables that hold a chunk of `0x7FFFFFF8` bytes. -/
def endless : Nat → Nat → UInt8 := fun _ i => [0, 0, 0, 0, 0xF8, 0xFF, 0xFF, 0x7F].getD i 0

/-- Variables whose last byte of a size is `t`, and then such a chunk. -/
def lastThenEndless (t : UInt8) : Nat → Nat → UInt8 := fun n i =>
  if n < 2 then if i = 7 then t else 0 else endless n i

theorem skip_endless {k : Nat} : skip k endless = endless := rfl

theorem skip_lastThenEndless : skip 2 (lastThenEndless t) = endless := by
  funext n i
  rw [skip, lastThenEndless, if_neg (by omega)]
  rfl

theorem ofU32_nonneg (long : Long) (hsize : size.toNat < 2 ^ 31) : 0 ≤ long.ofU32 size := by
  cases long with
  | bits32 =>
    show 0 ≤ size.toInt
    rw [BitVec.toInt_eq_toNat_of_lt (by omega)]
    exact Int.natCast_nonneg _
  | bits64 => exact Int.natCast_nonneg _

theorem getD_of_le {x : UInt8} (hp : content.length ≤ p) : content.getD p x = x := by
  rw [List.getD_eq_getElem?_getD, List.getElem?_eq_none hp, Option.getD_none]

/-- What is read from the end of the file on is what the variable holds. -/
theorem field_fread_of_ge {n i : Nat} {u : Nat → Nat → UInt8} (hi : i + 4 ≤ n)
    (hp : content.length ≤ p + i) :
    field (fread content n ⟨p, u⟩).1 i = unitOf 32 ((List.range 4).map fun k => u 0 (i + k)) := by
  rw [field_fread hi]
  congr 1
  apply List.map_congr_left
  intro k _
  exact getD_of_le (by show content.length ≤ p + i + k; omega)

/-- A size whose last byte is not in the file. -/
theorem field_fread_last {n : Nat} {u : Nat → Nat → UInt8} (hn : 8 ≤ n) (hp : content.length ≤ p + 7)
    (hu : ∀ i, u 0 i = if i = 7 then t else 0) :
    field (fread content n ⟨p, u⟩).1 4 = BitVec.ofNat 32 ((content.getD (p + 4) 0).toNat +
      256 * (content.getD (p + 5) 0).toNat + 65536 * (content.getD (p + 6) 0).toNat +
        2 ^ 24 * t.toNat) := by
  rw [field_fread hn]
  have hlast : content.getD (p + 7) t = t := getD_of_le hp
  show unitOf 32 [content.getD (p + 4) (u 0 4), content.getD (p + 5) (u 0 5), content.getD (p + 6) (u 0 6),
    content.getD (p + 7) (u 0 7)] = _
  rw [hu, hu, hu, hu, if_neg (by decide), if_neg (by decide), if_neg (by decide), if_pos rfl, hlast, unitOf]
  simp only [ofLE, Nat.add_assoc]
  congr 1
  omega

/-- A code whose last byte is not in the file is not that of a list, if the variable holds zero there. -/
theorem field_fread_ne_list {n : Nat} {u : Nat → Nat → UInt8} (hn : 4 ≤ n) (hp : content.length ≤ p + 3)
    (hu : u 0 3 = 0) : field (fread content n ⟨p, u⟩).1 0 ≠ fourccList := by
  rw [field_fread hn]
  have hlast : content.getD (p + 0 + 3) (u 0 (0 + 3)) = 0 := (getD_of_le hp).trans hu
  show unitOf 32 [content.getD (p + 0 + 0) (u 0 (0 + 0)), content.getD (p + 0 + 1) (u 0 (0 + 1)),
    content.getD (p + 0 + 2) (u 0 (0 + 2)), content.getD (p + 0 + 3) (u 0 (0 + 3))] ≠ _
  rw [hlast, unitOf]
  intro heq
  have hnat := congrArg BitVec.toNat heq
  have h0 := (content.getD (p + 0 + 0) (u 0 (0 + 0))).toNat_lt
  have h1 := (content.getD (p + 0 + 1) (u 0 (0 + 1))).toNat_lt
  have h2 := (content.getD (p + 0 + 2) (u 0 (0 + 2))).toNat_lt
  rw [BitVec.toNat_ofNat] at hnat
  simp only [ofLE] at hnat
  have hlist : fourccList.toNat = 0x5453494C := rfl
  have hzero : (0 : UInt8).toNat = 0 := rfl
  rw [hlist, hzero] at hnat
  omega

/-- A chunk at the end of the file is left there, or behind it. -/
theorem exists_aviChunkParse_of_ge (long : Long) {aChunk : AviChunk} {u : Nat → Nat → UInt8}
    (hq : content.length ≤ q)
    (hsize : aChunk.size.toNat < 2 ^ 31) (hu : ∀ k, skip k u = u) :
    ∃ q', content.length ≤ q' ∧
      aviChunkParse content long aChunk ⟨q, u⟩ = (aChunk.size + 4 + 4, ⟨q', u⟩) := by
  have hread : content.length ≤ q + min 56 (content.length - q) := by omega
  have hfread : (fread content 56 ⟨q, u⟩).2 = ⟨q + min 56 (content.length - q), u⟩ :=
    congrArg (AviState.mk _) (hu 1)
  have hnonneg := ofU32_nonneg long hsize
  unfold aviChunkParse
  split_ifs
  · exact ⟨_, hread, Prod.ext rfl hfread⟩
  · exact ⟨_, hread, Prod.ext rfl hfread⟩
  · refine ⟨(q + long.ofU32 aChunk.size).toNat, by omega, ?_⟩
    unfold fseek
    rw [if_pos (show 0 ≤ (q : Int) + long.ofU32 aChunk.size by omega)]

theorem le_codePos_add (hp : content.length ≤ p + 4) : content.length ≤ codePos content p + 4 := by
  unfold codePos
  dsimp only
  split_ifs <;> omega

/-- Backed up over its code, an incomplete header has no complete size. -/
theorem le_codePos_add_seven (hp : content.length < p + 8) : content.length ≤ codePos content p + 7 := by
  by_cases hcode : p + 4 ≤ content.length
  · rw [codePos_of_le hcode]
    omega
  · have hle : content.length ≤ codePos content p + 4 := le_codePos_add (by omega)
    omega

/-- Behind the end of the file, there are chunks for ever. -/
theorem exists_aviItem_endless (long : Long) (hp : content.length ≤ p) :
    ∃ q, content.length ≤ q ∧
      ∀ f, aviItem content long f ⟨p, endless⟩ = some (0x80000000, ⟨q, endless⟩) := by
  have hcode : (freadCode content ⟨p, endless⟩).1 ≠ fourccList :=
    field_fread_ne_list le_rfl (by omega) rfl
  have hpos : content.length ≤ codePos content p + 4 := le_codePos_add (by omega)
  have hsize : (freadChunk content ⟨codePos content p, endless⟩).1.size = 0x7FFFFFF8 := by
    show field (fread content 8 ⟨codePos content p, endless⟩).1 4 = _
    rw [field_fread_of_ge (by decide) hpos]
    decide
  have hread : content.length ≤ codePos content p + min 8 (content.length - codePos content p) := by omega
  obtain ⟨q, hq, hchunk⟩ := exists_aviChunkParse_of_ge long hread
    (show (freadChunk content ⟨codePos content p, endless⟩).1.size.toNat < 2 ^ 31 by rw [hsize]; decide)
    fun k => skip_endless (k := k)
  refine ⟨q, hq, fun f => ?_⟩
  rw [aviItem_eq, if_neg hcode]
  refine congrArg some (hchunk.trans ?_)
  rw [hsize]
  rfl

/-- Such chunks never use up a size that is not a multiple of theirs. -/
theorem aviItems_endless (hp : content.length ≤ p) (hzero : size ≠ 0) (hhalf : size ≠ 0x80000000) :
    aviItems content long f rounds size ⟨p, endless⟩ = none := by
  induction rounds generalizing p size with
  | zero => rfl
  | succ rounds ih =>
    obtain ⟨q, hq, hitem⟩ := exists_aviItem_endless long hp
    have hleft : size - 0x80000000 ≠ 0 := fun h => hhalf (by bv_omega)
    rw [aviItems_succ (hitem f), if_neg hleft]
    exact ih hq hleft fun h => hzero (by bv_omega)

/-! ## Incomplete headers -/

/-- What is read of the code does not depend on the last byte of a size. -/
theorem freadCode_lastThenEndless (t t' : UInt8) : (freadCode content ⟨p, lastThenEndless t⟩).1 =
    (freadCode content ⟨p, lastThenEndless t'⟩).1 := by
  show field (fread content 4 _).1 0 = field (fread content 4 _).1 0
  rw [field_fread le_rfl, field_fread le_rfl]
  rfl

theorem exists_size_lastThenEndless (hpos : content.length ≤ q + 7) : ∃ n < 2 ^ 24, ∀ m, 8 ≤ m → ∀ t,
    field (fread content m ⟨q, skip 1 (lastThenEndless t)⟩).1 4 = BitVec.ofNat 32 (n + 2 ^ 24 * t.toNat) := by
  have h4 := (content.getD (q + 4) 0).toNat_lt
  have h5 := (content.getD (q + 5) 0).toNat_lt
  have h6 := (content.getD (q + 6) 0).toNat_lt
  exact ⟨_, by omega, fun m hm t => field_fread_last hm hpos fun i => rfl⟩

/-- An item whose header is not complete has a size whose last byte is what the variable held. -/
theorem exists_aviItem_of_lt (long : Long) (hp : content.length < p + 8) :
    ∃ n < 2 ^ 24,
      (∀ t, ∃ l : AviList, ∃ q, l.size = BitVec.ofNat 32 (n + 2 ^ 24 * t.toNat) ∧ content.length ≤ q ∧
        ∀ f, aviItem content long f ⟨p, lastThenEndless t⟩ = f l ⟨q, endless⟩) ∨
      ∀ t : UInt8, t.toNat < 2 → ∃ q, content.length ≤ q ∧ ∀ f, aviItem content long f ⟨p, lastThenEndless t⟩ =
        some (BitVec.ofNat 32 (n + 2 ^ 24 * t.toNat) + 4 + 4, ⟨q, endless⟩) := by
  have hpos : content.length ≤ codePos content p + 7 := le_codePos_add_seven hp
  obtain ⟨n, hn, hsize⟩ := exists_size_lastThenEndless hpos
  refine ⟨n, hn, ?_⟩
  by_cases hlist : (freadCode content ⟨p, lastThenEndless 0⟩).1 = fourccList
  · left
    intro t
    refine ⟨(freadList content ⟨codePos content p, skip 1 (lastThenEndless t)⟩).1,
      codePos content p + min 12 (content.length - codePos content p), hsize 12 (by decide) t, by omega, ?_⟩
    intro f
    rw [aviItem_eq, if_pos ((freadCode_lastThenEndless t 0).trans hlist), ← skip_lastThenEndless (t := t)]
    rfl
  · right
    intro t ht
    have hread : content.length ≤ codePos content p + min 8 (content.length - codePos content p) := by omega
    have hchunkSize := hsize 8 le_rfl t
    have hlt : (freadChunk content ⟨codePos content p, skip 1 (lastThenEndless t)⟩).1.size.toNat < 2 ^ 31 := by
      show (field (fread content 8 _).1 4).toNat < 2 ^ 31
      rw [hchunkSize, BitVec.toNat_ofNat]
      omega
    obtain ⟨q, hq, hchunk⟩ := exists_aviChunkParse_of_ge long hread hlt fun k => skip_endless (k := k)
    refine ⟨q, hq, fun f => ?_⟩
    rw [aviItem_eq, if_neg (fun h => hlist ((freadCode_lastThenEndless 0 t).trans h))]
    refine congrArg some (Eq.trans ?_ (hchunk.trans ?_))
    · rw [← skip_lastThenEndless (t := t)]
      rfl
    · rw [← hchunkSize]
      rfl

/-- One of two sizes is left with something that the chunks behind the file do not use up. -/
theorem exists_last (left : BitVec 32) (n : Nat) : ∃ t : UInt8, t.toNat < 2 ∧
    left - BitVec.ofNat 32 (n + 2 ^ 24 * t.toNat) ≠ 0 ∧
      left - BitVec.ofNat 32 (n + 2 ^ 24 * t.toNat) ≠ 0x80000000 := by
  by_cases hzero : left - BitVec.ofNat 32 n ≠ 0 ∧ left - BitVec.ofNat 32 n ≠ 0x80000000
  · exact ⟨0, by decide, hzero⟩
  · have hone : (1 : UInt8).toNat = 1 := rfl
    refine ⟨1, by decide, ?_⟩
    rw [hone]
    constructor
    · intro heq
      exact hzero (by constructor <;> bv_omega)
    · intro heq
      exact hzero (by constructor <;> bv_omega)

theorem aviListParse_endless {l : AviList} {depth : Nat} (hp : content.length ≤ p) (hzero : l.size - 4 ≠ 0)
    (hhalf : l.size - 4 ≠ 0x80000000) : aviListParse content long depth rounds l ⟨p, endless⟩ = none := by
  cases depth with
  | zero => rfl
  | succ depth => rw [aviListParse, aviItems_endless hp hzero hhalf]; rfl

/-- A loop that gets to an incomplete header need not end. -/
theorem not_loopEnds_of_lt (hp : content.length < p + 8) : ¬LoopEnds content long p size := by
  intro hends
  obtain ⟨n, -, hlist | hchunk⟩ := exists_aviItem_of_lt long hp
  · obtain ⟨t, -, hzero, hhalf⟩ := exists_last 4 n
    obtain ⟨l, q, hl, hq, hitem⟩ := hlist t
    obtain ⟨depth, rounds, s', hrun⟩ := hends (lastThenEndless t)
    obtain ⟨m, s₁, hsome⟩ := exists_of_aviItems_eq_some hrun
    rw [hitem, aviListParse_endless hq] at hsome
    · cases hsome
    · rw [hl]
      bv_omega
    · rw [hl]
      bv_omega
  · obtain ⟨t, ht, hzero, hhalf⟩ := exists_last (size - 8) n
    obtain ⟨q, hq, hitem⟩ := hchunk t ht
    obtain ⟨depth, rounds, s', hrun⟩ := hends (lastThenEndless t)
    have hleft : size - (BitVec.ofNat 32 (n + 2 ^ 24 * t.toNat) + 4 + 4) =
        size - 8 - BitVec.ofNat 32 (n + 2 ^ 24 * t.toNat) := by bv_omega
    cases rounds with
    | zero => cases hrun
    | succ rounds =>
      rw [aviItems_succ (hitem _), hleft, if_neg hzero, aviItems_endless hq hzero hhalf] at hrun
      cases hrun

/-! ## Loops that end -/

/-- A list that is parsed is one whose items are. -/
theorem exists_of_aviListParse_eq_some {depth : Nat} {l : AviList} {s s' : AviState} {n : BitVec 32}
    (h : aviListParse content long depth rounds l s = some (n, s')) :
    ∃ d, depth = d + 1 ∧ n = l.size + 4 + 4 ∧
      aviItems content long (aviListParse content long d rounds) rounds (l.size - 4) s = some s' := by
  cases depth with
  | zero => cases h
  | succ d =>
    rw [aviListParse] at h
    obtain ⟨s₁, hitems, hsome⟩ := Option.bind_eq_some_iff.mp h
    cases hsome
    exact ⟨d, rfl, rfl, hitems⟩

/-- The loop over the items of a list ends, too. -/
theorem LoopEnds.of_list (h : LoopEnds content long p size) (hp : p + 8 ≤ content.length)
    (hcode : word content p = fourccList) :
    LoopEnds content long (listStart content p) (word content (p + 4) - 4) := by
  intro u
  -- two variables are read before the items of the list, which then find `u`
  obtain ⟨depth, rounds, s', hrun⟩ := h fun n => u (n - 2)
  obtain ⟨n, s₁, hitem⟩ := exists_of_aviItems_eq_some hrun
  obtain ⟨hl, hstate⟩ := freadList_of_le (u := skip 1 fun n => u (n - 2)) hp
  rw [aviItem_of_le hp, if_pos hcode, hstate] at hitem
  obtain ⟨d, -, -, hitems⟩ := exists_of_aviListParse_eq_some hitem
  rw [hl] at hitems
  exact ⟨d, rounds + 1, s₁, aviItems_mono (aviListParse_mono le_rfl rounds.le_succ) rounds.le_succ hitems⟩

/-- The loop ends from the next item on, too. -/
theorem LoopEnds.next {e : Nat} (h : LoopEnds content long p size)
    (hitem : ItemAt content long (Lists content long d) p e) (hsize : size - itemSize content p ≠ 0) :
    LoopEnds content long e (size - itemSize content p) := by
  obtain ⟨k, roundsItem, hparse⟩ := exists_aviItem_eq (fun _ _ => exists_aviListParse_eq) hitem
  intro u
  obtain ⟨depth, rounds, s', hrun⟩ := h fun n => u (n - k)
  -- the item reads `k` variables, and what is behind it finds `u`
  have hskip : skip k (fun n => u (n - k)) = u := by
    funext n
    rw [skip, Nat.add_sub_cancel]
  -- with more calls and rounds, the item and the loop end
  have hmore : aviItem content long (aviListParse content long (max d depth) (max roundsItem rounds))
      ⟨p, fun n => u (n - k)⟩ = some (itemSize content p, ⟨e, u⟩) := by
    rw [aviItem_mono (aviListParse_mono (le_max_left _ _) (le_max_left _ _)) (hparse _), hskip]
  cases rounds with
  | zero => cases hrun
  | succ rounds =>
    have hrun' := aviItems_mono (aviListParse_mono (le_max_right d depth) (le_max_right roundsItem (rounds + 1)))
      le_rfl hrun
    rw [aviItems_succ hmore, if_neg hsize] at hrun'
    exact ⟨_, _, s', aviItems_mono (aviListParse_mono le_rfl le_rfl)
      (rounds.le_succ.trans (le_max_right roundsItem (rounds + 1))) hrun'⟩

/-- A loop that ends for everything that variables hold has items, when its lists have. -/
theorem items_of_loopEnds_of {roundsList : Nat} {u : Nat → Nat → UInt8} {s' : AviState}
    (hlist : ∀ p u l n s', p + 8 ≤ content.length → l.size = word content (p + 4) →
      LoopEnds content long (listStart content p) (word content (p + 4) - 4) →
        aviListParse content long d roundsList l ⟨listStart content p, u⟩ = some (n, s') →
          n = itemSize content p ∧ Lists content long d p s'.pos)
    (hends : LoopEnds content long p size)
    (hrun : aviItems content long (aviListParse content long d roundsList) rounds size ⟨p, u⟩ = some s') :
    Items content long (Lists content long d) p size s'.pos := by
  induction rounds generalizing p size u with
  | zero => cases hrun
  | succ rounds ih =>
    have hp : p + 8 ≤ content.length := by
      by_contra hlt
      exact not_loopEnds_of_lt (by omega) hends
    obtain ⟨n, s₁, hitem⟩ := exists_of_aviItems_eq_some hrun
    have hat : n = itemSize content p ∧ ItemAt content long (Lists content long d) p s₁.pos := by
      have hsome := hitem
      rw [aviItem_of_le hp] at hsome
      unfold ItemAt
      split_ifs at hsome ⊢ with hcode
      · obtain ⟨hl, hstate⟩ := freadList_of_le (u := skip 1 u) hp
        rw [hstate] at hsome
        obtain ⟨hn, hlists⟩ := hlist p _ _ n s₁ hp hl (hends.of_list hp hcode) hsome
        exact ⟨hn, hp, hlists⟩
      · obtain ⟨k, hchunk⟩ := exists_aviChunkParse_eq content long p
        rw [hchunk] at hsome
        cases hsome
        exact ⟨rfl, hp, rfl⟩
    obtain ⟨hn, hat⟩ := hat
    rw [aviItems_succ hitem, hn] at hrun
    split_ifs at hrun with hsize
    · cases hrun
      exact .last hat hsize
    · exact .more hat hsize (ih (hends.next hat hsize) hrun)

/-- A list that ends for everything that variables hold. -/
theorem lists_of_loopEnds {roundsList : Nat} (p : Nat) (u : Nat → Nat → UInt8) (l : AviList) (n : BitVec 32)
    (s' : AviState) (hp : p + 8 ≤ content.length) (hl : l.size = word content (p + 4))
    (hends : LoopEnds content long (listStart content p) (word content (p + 4) - 4))
    (hrun : aviListParse content long d roundsList l ⟨listStart content p, u⟩ = some (n, s')) :
    n = itemSize content p ∧ Lists content long d p s'.pos := by
  induction d generalizing p u l n s' with
  | zero => cases hrun
  | succ d ih =>
    obtain ⟨_, ⟨⟩, hn, hitems⟩ := exists_of_aviListParse_eq_some hrun
    rw [hl] at hn hitems
    exact ⟨hn, items_of_loopEnds_of ih hends hitems⟩

theorem items_of_loopEnds (hends : LoopEnds content long p size) :
    ∃ d e, Items content long (Lists content long d) p size e := by
  obtain ⟨depth, rounds, s', hrun⟩ := hends fun _ _ => 0
  exact ⟨depth, s'.pos, items_of_loopEnds_of lists_of_loopEnds hends hrun⟩

/-! ## Depth -/

/-- The lists that end, by depth, are stages. -/
theorem staged_lists (content : List UInt8) (long : Long) :
    Staged fun d => {p | ∃ e, Lists content long d p e} where
  subset_succ d := fun p ⟨e, h⟩ => ⟨e, lists_succ h⟩
  eq_succ d heq := by
    -- a list has one end, so that the same lists have the same ends
    have hback : ∀ p e, Lists content long (d + 1) p e → Lists content long d p e := by
      intro p e h
      obtain ⟨e', h'⟩ : p ∈ {p | ∃ e, Lists content long d p e} := heq ▸ ⟨e, h⟩
      exact lists_functional h (lists_succ h') ▸ h'
    refine Set.Subset.antisymm (fun p ⟨e, h⟩ => ⟨e, lists_succ h⟩) ?_
    rintro p ⟨e, h⟩
    exact ⟨e, Items.mono hback h⟩

/-- Lists are nested less deep than the file has bytes. -/
theorem lists_length {e : Nat} (h : Lists content long d p e) :
    Lists content long (content.length - 7) p e := by
  have hrange : ∀ d, {p | ∃ e, Lists content long d p e} ⊆ Finset.range (content.length - 7) := by
    rintro d p ⟨e, h⟩
    have hp := h.header_le
    rw [Finset.coe_range, Set.mem_Iio]
    omega
  have hsubset := (staged_lists content long).subset_card hrange d
  rw [Finset.card_range] at hsubset
  obtain ⟨e', h'⟩ := hsubset ⟨e, h⟩
  have heq := lists_functional (lists_mono (le_max_left d (content.length - 7)) h)
    (lists_mono (le_max_right d (content.length - 7)) h')
  exact heq ▸ h'

/-! ## Codes -/

/-- The code that is read may be that of a list. -/
theorem freadCode_eq_list {u : Nat → Nat → UInt8} (h : MayBeList content p)
    (hu : ∀ i, u 0 i = [0x4C, 0x49, 0x53, 0x54].getD i 0) : (freadCode content ⟨p, u⟩).1 = fourccList := by
  have hbyte : ∀ k < 4, content.getD (p + k) (u 0 k) = [0x4C, 0x49, 0x53, 0x54].getD k 0 := by
    intro k hk
    rw [hu, List.getD_eq_getElem?_getD]
    cases hb : content[p + k]? with
    | none => rfl
    | some b => rw [List.getD_eq_getElem?_getD, h k hk b hb]; rfl
  show field (fread content 4 ⟨p, u⟩).1 0 = fourccList
  rw [field_fread le_rfl]
  show unitOf 32 [content.getD (p + 0) (u 0 0), content.getD (p + 1) (u 0 1), content.getD (p + 2) (u 0 2),
    content.getD (p + 3) (u 0 3)] = fourccList
  rw [hbyte 0 (by decide), hbyte 1 (by decide), hbyte 2 (by decide), hbyte 3 (by decide)]
  rfl

theorem mayBeList_of_freadCode {u : Nat → Nat → UInt8} (h : (freadCode content ⟨p, u⟩).1 = fourccList) :
    MayBeList content p := by
  have hfield : field (fread content 4 ⟨p, u⟩).1 0 = fourccList := h
  rw [field_fread le_rfl] at hfield
  have hnat : ofLE [content.getD (p + 0) (u 0 0), content.getD (p + 1) (u 0 1), content.getD (p + 2) (u 0 2),
    content.getD (p + 3) (u 0 3)] % 2 ^ 32 = 0x5453494C := congrArg BitVec.toNat hfield
  simp only [ofLE] at hnat
  have hlt : ∀ k, (content.getD (p + k) (u 0 k)).toNat < 256 := fun k => UInt8.toNat_lt _
  have hlt0 := hlt 0
  have hlt1 := hlt 1
  have hlt2 := hlt 2
  have hlt3 := hlt 3
  have hbyte : ∀ i < 4, (content.getD (p + i) (u 0 i)).toNat = ([0x4C, 0x49, 0x53, 0x54].getD i 0 : UInt8).toNat := by
    intro i hi
    obtain rfl | rfl | rfl | rfl : i = 0 ∨ i = 1 ∨ i = 2 ∨ i = 3 := by omega
    · show _ = 0x4C
      omega
    · show _ = 0x49
      omega
    · show _ = 0x53
      omega
    · show _ = 0x54
      omega
  intro i hi b hb
  have heq := UInt8.toNat_inj.mp (hbyte i hi)
  rw [List.getD_eq_getElem?_getD, hb, Option.getD_some] at heq
  obtain rfl | rfl | rfl | rfl : i = 0 ∨ i = 1 ∨ i = 2 ∨ i = 3 := by omega
  all_goals exact congrArg some heq.symm

/-! ## The main result -/

theorem listParseEnds_iff {aList : AviList} : ListParseEnds content long p aList ↔
    ∃ d e, Items content long (Lists content long d) p (aList.size - 4) e := by
  constructor
  · intro hends
    refine items_of_loopEnds fun u => ?_
    obtain ⟨rounds, ⟨n, s'⟩, hrun⟩ := hends u
    obtain ⟨depth, -, -, hitems⟩ := exists_of_aviListParse_eq_some hrun
    exact ⟨depth, rounds, s', hitems⟩
  · rintro ⟨d, e, hitems⟩ u
    have hp := hitems.header_le
    obtain ⟨k, rounds, hrun⟩ := exists_aviItems_eq (hitems.mono fun _ _ => lists_length)
    have hmore : content.length - 7 + 1 ≤ content.length := by omega
    refine ⟨rounds, (aList.size + 4 + 4, ⟨e, skip k u⟩), aviListParse_mono hmore le_rfl _ _ _ ?_⟩
    rw [aviListParse, hrun]
    rfl

/-- Variables that hold the code of a list, and then anything. -/
def listFirst (u : Nat → Nat → UInt8) : Nat → Nat → UInt8 := fun n i =>
  if n = 0 then [0x4C, 0x49, 0x53, 0x54].getD i 0 else if n = 1 then 0 else u (n - 2) i

/-- What is read of a size does not depend on what the other variables hold. -/
theorem freadList_listFirst (u : Nat → Nat → UInt8) :
    (freadList content ⟨p, skip 1 (listFirst u)⟩).1.size = (freadList content ⟨p, fun _ _ => 0⟩).1.size := by
  show field (fread content 12 _).1 4 = field (fread content 12 _).1 4
  rw [field_fread (by decide), field_fread (by decide)]
  rfl

/-- Where a list may come first, it does, and it ends. -/
theorem lists_of_headerParseEnds {aHeader : AviHeader} (hends : HeaderParseEnds content long p aHeader)
    (hriff : aHeader.riffcode = fourccRiff) (havi : aHeader.typecode = fourccAvi)
    (hlist : MayBeList content p) : ∃ d e, Lists content long d p e := by
  have hloop : LoopEnds content long (listStart content (codePos content p))
      ((freadList content ⟨codePos content p, fun _ _ => 0⟩).1.size - 4) := by
    intro u
    obtain ⟨rounds, ⟨n, s'⟩, hrun⟩ := hends (listFirst u)
    rw [aviHeaderParse, if_pos ⟨hriff, havi⟩, aviItem_eq,
      if_pos (freadCode_eq_list hlist fun i => rfl)] at hrun
    obtain ⟨depth, -, -, hitems⟩ := exists_of_aviListParse_eq_some hrun
    rw [freadList_listFirst] at hitems
    exact ⟨depth, rounds, s', hitems⟩
  by_cases hp : p + 8 ≤ content.length
  · rw [codePos_of_le (by omega), (freadList_of_le hp).1] at hloop
    obtain ⟨d, e, hitems⟩ := items_of_loopEnds hloop
    exact ⟨d + 1, e, hitems⟩
  · have hle := le_codePos_add_seven (lt_of_not_ge hp)
    refine absurd hloop (not_loopEnds_of_lt ?_)
    unfold listStart
    omega

theorem headerParseEnds_iff {aHeader : AviHeader} : HeaderParseEnds content long p aHeader ↔
    (aHeader.riffcode = fourccRiff → aHeader.typecode = fourccAvi → MayBeList content p →
      ∃ d e, Lists content long d p e) := by
  refine ⟨lists_of_headerParseEnds, fun hlists u => ?_⟩
  unfold aviHeaderParse
  split_ifs with hheader
  · by_cases hcode : (freadCode content ⟨p, u⟩).1 = fourccList
    · obtain ⟨d, e, hlist⟩ := hlists hheader.1 hheader.2 (mayBeList_of_freadCode hcode)
      obtain ⟨k, rounds, hrun⟩ := exists_aviListParse_eq (lists_length hlist)
      obtain ⟨hl, hstate⟩ := freadList_of_le (u := skip 1 u) hlist.header_le
      rw [freadCode_of_le (hlist.header_le.trans' (by omega))] at hcode
      refine ⟨rounds, (itemSize content p, ⟨e, skip k (skip 1 (skip 1 u))⟩), ?_⟩
      rw [aviItem_of_le hlist.header_le, if_pos hcode, hstate]
      exact aviListParse_mono (Nat.sub_le _ _) le_rfl _ _ _ (hrun _ _ hl)
    · exact ⟨0, _, aviItem_eq.trans (if_neg hcode)⟩
  · exact ⟨0, _, rfl⟩

/-- `avi_list_parse` ends exactly when the items it meets have complete headers and use up its size exactly,
and so do those of the lists among them. `avi_header_parse` ends exactly when a list that comes first does,
if the header is that of an AVI file. -/
theorem parseEnds_iff (content : List UInt8) (long : Long) (p : Nat) :
    (∀ aList, ListParseEnds content long p aList ↔
      ∃ d e, Items content long (Lists content long d) p (aList.size - 4) e) ∧
    ∀ aHeader, HeaderParseEnds content long p aHeader ↔
      (aHeader.riffcode = fourccRiff → aHeader.typecode = fourccAvi → MayBeList content p →
        ∃ d e, Lists content long d p e) :=
  ⟨fun _ => listParseEnds_iff, fun _ => headerParseEnds_iff⟩

/-- An item that leaves everything as it was is parsed for ever, if its size never uses up that of the list. -/
theorem aviItems_stuck {s : AviState} {n : BitVec 32} (hitem : aviItem content long f s = some (n, s))
    (hnever : ∀ k : Nat, size ≠ BitVec.ofNat 32 k * n) : aviItems content long f rounds size s = none := by
  induction rounds generalizing size with
  | zero => rfl
  | succ rounds ih =>
    have hnext : ∀ k : Nat, size - n ≠ BitVec.ofNat 32 k * n := by
      intro k hk
      refine hnever (k + 1) ?_
      rw [BitVec.ofNat_add, BitVec.add_mul, ← hk, BitVec.one_mul]
      exact (BitVec.sub_add_cancel size n).symm
    have hleft : size - n ≠ 0 := by
      intro hzero
      refine hnext 0 (hzero.trans ?_)
      exact BitVec.zero_mul.symm
    rw [aviItems_succ hitem, if_neg hleft]
    exact ih hnext

/-- An AVI file that ends in a list, of which one byte is missing. -/
def oneByteMissing : List UInt8 :=
  [0x52, 0x49, 0x46, 0x46, 0x10, 0, 0, 0, 0x41, 0x56, 0x49, 0x20,
    0x4C, 0x49, 0x53, 0x54, 5, 0, 0, 0, 0x68, 0x64, 0x72, 0x6C]

/-- With zeros in all variables, the last four bytes of the file are parsed as the code of an empty chunk,
again and again, and 1 less multiples of 8 is never 0. -/
theorem not_headerParseEnds : ¬HeaderParseEnds oneByteMissing .bits32 12 ⟨fourccRiff, 0x10, fourccAvi⟩ ∧
    ¬HeaderParseEnds oneByteMissing .bits64 12 ⟨fourccRiff, 0x10, fourccAvi⟩ := by
  have hnever : ∀ k : Nat, (1 : BitVec 32) ≠ BitVec.ofNat 32 k * 8 := by
    intro k
    bv_omega
  have hnot : ∀ long, ¬HeaderParseEnds oneByteMissing long 12 ⟨fourccRiff, 0x10, fourccAvi⟩ := by
    intro long hends
    obtain ⟨rounds, r, hrun⟩ := hends fun _ _ => 0
    have hlist : ∀ f, aviItem oneByteMissing long f ⟨12, fun _ _ => 0⟩ =
        f ⟨fourccList, 5, 0x6C726468⟩ ⟨24, fun _ _ => 0⟩ := fun _ => rfl
    have hitem : ∀ f, aviItem oneByteMissing long f ⟨24, fun _ _ => 0⟩ =
        some (8, ⟨24, fun _ _ => 0⟩) := by
      intro f
      cases long <;> rfl
    rw [aviHeaderParse, if_pos ⟨rfl, rfl⟩, hlist] at hrun
    obtain ⟨depth, -, -, hitems⟩ := exists_of_aviListParse_eq_some hrun
    rw [show (5 - 4 : BitVec 32) = 1 from rfl, aviItems_stuck (hitem _) hnever] at hitems
    cases hitems
  exact ⟨hnot .bits32, hnot .bits64⟩

end DVP.VisionCam.FileVisionCam
