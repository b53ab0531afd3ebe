import DVP.VisionCam.Avi.Basic
import Mathlib.Algebra.Order.Group.Nat

/-!
# Walks of the AVI parser

What the parser does as long as every item it meets starts with a complete header. Such a walk does not
depend on what variables hold before they are read to.

* `Items` are the items of a list, and `Lists` the lists, by the depth to which they are nested.
* `exists_aviItems_eq`: the loop of `avi_list_parse` follows such items.
-/

namespace DVP.VisionCam.FileVisionCam

open Bytes

/-- What variables hold after `k` calls of `fread`. -/
def skip (k : Nat) (uninit : Nat → Nat → UInt8) : Nat → Nat → UInt8 := fun n => uninit (n + k)

/-- Variables are skipped together. -/
theorem skip_skip {k m : Nat} {u : Nat → Nat → UInt8} : skip k (skip m u) = skip (m + k) u := by
  funext n
  rw [skip, skip, skip, Nat.add_assoc, Nat.add_comm k]

section Items

variable (content : List UInt8) (long : Long)

/-- The number at a position of a file. -/
def word (p : Nat) : BitVec 32 := unitOf 32 ((content.drop p).take 4)

/-- The position after the first twelve bytes of a list. -/
def listStart (p : Nat) : Nat := p + min 12 (content.length - p)

/-- The position that `avi_chunk_parse` leaves. -/
def chunkEnd (p : Nat) : Nat :=
  if word content p = fourccAvih ∨ word content p = fourccStrh then
    p + 8 + min 56 (content.length - (p + 8))
  else
    let q : Int := (p + 8 : Nat) + long.ofU32 (word content (p + 4))
    if 0 ≤ q then q.toNat else p + 8

/-- The size of an item, with its header. -/
def itemSize (p : Nat) : BitVec 32 := word content (p + 4) + 4 + 4

/-- The item at a position has a complete header and an end, where the lists and their ends are given. -/
def ItemAt (lists : Nat → Nat → Prop) (p e : Nat) : Prop :=
  p + 8 ≤ content.length ∧
    if word content p = fourccList then lists p e else e = chunkEnd content long p

/-- The items from a position on use up a size, and end somewhere. -/
inductive Items (lists : Nat → Nat → Prop) : Nat → BitVec 32 → Nat → Prop
  | last {p e : Nat} {size : BitVec 32} (item : ItemAt content long lists p e)
      (hsize : size - itemSize content p = 0) : Items lists p size e
  | more {p e e' : Nat} {size : BitVec 32} (item : ItemAt content long lists p e)
      (hsize : size - itemSize content p ≠ 0) (rest : Items lists e (size - itemSize content p) e') :
      Items lists p size e'

/-- The lists that are nested up to a depth, with their ends. -/
def Lists : Nat → Nat → Nat → Prop
  | 0, _, _ => False
  | depth + 1, p, e =>
    Items content long (Lists depth) (listStart content p) (word content (p + 4) - 4) e

end Items

variable {content : List UInt8} {long : Long} {lists lists' : Nat → Nat → Prop} {p e e' d d' : Nat}
  {size : BitVec 32} {u : Nat → Nat → UInt8}

/-! ## Derivations -/

/-- An item is one when more lists are accepted. -/
theorem ItemAt.mono (hle : ∀ p e, lists p e → lists' p e) (h : ItemAt content long lists p e) :
    ItemAt content long lists' p e := by
  obtain ⟨hheader, hitem⟩ := h
  refine ⟨hheader, ?_⟩
  split_ifs at hitem ⊢
  · exact hle p e hitem
  · exact hitem

/-- Items are items when more lists are accepted. -/
theorem Items.mono (hle : ∀ p e, lists p e → lists' p e) (h : Items content long lists p size e) :
    Items content long lists' p size e := by
  induction h with
  | last item hsize => exact .last (item.mono hle) hsize
  | more item hsize _ ih => exact .more (item.mono hle) hsize ih

/-- A list of some depth is one of the next depth. -/
theorem lists_succ (h : Lists content long d p e) : Lists content long (d + 1) p e := by
  induction d generalizing p e with
  | zero => exact h.elim
  | succ d ih => exact Items.mono (fun _ _ => ih) h

/-- A list of some depth is one of any greater depth. -/
theorem lists_mono (hle : d ≤ d') (h : Lists content long d p e) : Lists content long d' p e := by
  induction d', hle using Nat.le_induction with
  | base => exact h
  | succ d' _ ih => exact lists_succ ih

/-- An item ends at one place. -/
theorem ItemAt.functional (hlists : ∀ p e e', lists p e → lists p e' → e = e')
    (h : ItemAt content long lists p e) (h' : ItemAt content long lists p e') : e = e' := by
  obtain ⟨-, hitem⟩ := h
  obtain ⟨-, hitem'⟩ := h'
  split_ifs at hitem hitem'
  · exact hlists p e e' hitem hitem'
  · exact hitem.trans hitem'.symm

/-- Items end at one place. -/
theorem Items.functional (hlists : ∀ p e e', lists p e → lists p e' → e = e')
    (h : Items content long lists p size e) (h' : Items content long lists p size e') : e = e' := by
  induction h with
  | last item hsize =>
    cases h' with
    | last item' _ => exact item.functional hlists item'
    | more _ hsize' _ => exact absurd hsize hsize'
  | more item hsize _ ih =>
    cases h' with
    | last _ hsize' => exact absurd hsize' hsize
    | more item' _ rest' =>
      cases item.functional hlists item'
      exact ih rest'

/-- A list has one end. -/
theorem lists_functional (h : Lists content long d p e) (h' : Lists content long d p e') : e = e' := by
  induction d generalizing p e e' with
  | zero => exact h.elim
  | succ d ih => exact Items.functional (fun p e e' => ih (p := p) (e := e)) h h'

/-- Items start with a whole header. -/
theorem Items.header_le (h : Items content long lists p size e) : p + 8 ≤ content.length := by
  cases h with
  | last item _ => exact item.1
  | more item _ _ => exact item.1

/-- The header of a list that has an end is complete. -/
theorem Lists.header_le (h : Lists content long d p e) : p + 8 ≤ content.length := by
  cases d with
  | zero => exact h.elim
  | succ d =>
    have hstart : listStart content p + 8 ≤ content.length := Items.header_le h
    unfold listStart at hstart
    omega

/-! ## Reading -/

/-- The bytes of a number that is read. -/
theorem field_fread {n i : Nat} (hi : i + 4 ≤ n) (s : AviState) :
    field (fread content n s).1 i =
      unitOf 32 ((List.range 4).map fun k => content.getD (s.pos + i + k) (s.uninit 0 (i + k))) := by
  unfold field fread
  congr 1
  -- behind the end of the file the bytes are those of the variable
  apply List.ext_getElem
  · simp only [List.length_take, List.length_drop, List.length_map, List.length_range]
    omega
  · intro k hk _
    simp only [List.getElem_take, List.getElem_drop, List.getElem_map, List.getElem_range, Nat.add_assoc]

/-- A word of the file is what four bytes hold when they are read. -/
theorem word_eq (hp : p + 4 ≤ content.length) (x : Nat → UInt8) :
    word content p = unitOf 32 ((List.range 4).map fun k => content.getD (p + k) (x k)) := by
  unfold word
  congr 1
  apply List.ext_getElem
  · simp only [List.length_take, List.length_drop, List.length_map, List.length_range]
    omega
  · intro k hk hk'
    have hlt : p + k < content.length := by
      rw [List.length_take, List.length_drop] at hk
      omega
    simp only [List.getElem_take, List.getElem_drop, List.getElem_map, List.getElem_range,
      List.getD_eq_getElem?_getD, List.getElem?_eq_getElem hlt, Option.getD_some]

/-- A field that the file still has is read from it. -/
theorem field_fread_of_le {n i : Nat} (hi : i + 4 ≤ n) (hp : p + i + 4 ≤ content.length) :
    field (fread content n ⟨p, u⟩).1 i = word content (p + i) := by
  rw [field_fread hi, word_eq hp fun k => u 0 (i + k)]

/-- A code that the file still has is read from it. -/
theorem freadCode_of_le (hp : p + 4 ≤ content.length) :
    freadCode content ⟨p, u⟩ = (word content p, ⟨p + 4, skip 1 u⟩) := by
  have hpos : p + min 4 (content.length - p) = p + 4 := by omega
  unfold freadCode
  refine Prod.ext (field_fread_of_le le_rfl hp) ?_
  show (⟨p + min 4 (content.length - p), _⟩ : AviState) = _
  rw [hpos]
  rfl

/-- The header of a chunk that the file still has is read from it. -/
theorem freadChunk_of_le (hp : p + 8 ≤ content.length) :
    freadChunk content ⟨p, u⟩ = (⟨word content p, word content (p + 4)⟩, ⟨p + 8, skip 1 u⟩) := by
  have hpos : p + min 8 (content.length - p) = p + 8 := by omega
  have hcode := field_fread_of_le (u := u) (n := 8) (i := 0) (by decide) (show p + 0 + 4 ≤ content.length by omega)
  have hsize := field_fread_of_le (u := u) (n := 8) (i := 4) le_rfl (show p + 4 + 4 ≤ content.length by omega)
  unfold freadChunk
  refine Prod.ext (congrArg₂ AviChunk.mk hcode hsize) ?_
  show (⟨p + min 8 (content.length - p), _⟩ : AviState) = _
  rw [hpos]
  rfl

/-- The header of a list that the file still has is read from it. -/
theorem freadList_of_le (hp : p + 8 ≤ content.length) :
    (freadList content ⟨p, u⟩).1.size = word content (p + 4) ∧
      (freadList content ⟨p, u⟩).2 = ⟨listStart content p, skip 1 u⟩ :=
  ⟨field_fread_of_le (n := 12) (i := 4) (by decide) (by omega), rfl⟩

/-- The position of an item after its code was read and backed up over. -/
def codePos (content : List UInt8) (p : Nat) : Nat :=
  let q := p + min 4 (content.length - p)
  if 4 ≤ q then q - 4 else q

/-- Seeking back after a whole code leads to its start. -/
theorem codePos_of_le (hp : p + 4 ≤ content.length) : codePos content p = p := by
  unfold codePos
  dsimp only
  split_ifs <;> omega

/-- Seeking back after a code leads to where its four bytes would start. -/
theorem fseek_freadCode : fseek (-4) (freadCode content ⟨p, u⟩).2 = ⟨codePos content p, skip 1 u⟩ := by
  have hpos : (fseek (-4) (freadCode content ⟨p, u⟩).2).pos = codePos content p := by
    show (if (0 : Int) ≤ (p + min 4 (content.length - p) : Nat) + -4 then
      ((p + min 4 (content.length - p) : Nat) + -4 : Int).toNat else p + min 4 (content.length - p)) = _
    unfold codePos
    dsimp only
    split_ifs <;> omega
  rw [← hpos]
  rfl

/-! ## Items -/

/-- An item is a list or a chunk by its code. -/
theorem aviItem_eq {listParse : AviList → AviState → Option (BitVec 32 × AviState)} :
    aviItem content long listParse ⟨p, u⟩ =
      if (freadCode content ⟨p, u⟩).1 = fourccList then
        listParse (freadList content ⟨codePos content p, skip 1 u⟩).1
          (freadList content ⟨codePos content p, skip 1 u⟩).2
      else
        some (aviChunkParse content long (freadChunk content ⟨codePos content p, skip 1 u⟩).1
          (freadChunk content ⟨codePos content p, skip 1 u⟩).2) := by
  rw [← fseek_freadCode]
  rfl

/-- An item whose header is complete. -/
theorem aviItem_of_le {listParse : AviList → AviState → Option (BitVec 32 × AviState)}
    (hp : p + 8 ≤ content.length) :
    aviItem content long listParse ⟨p, u⟩ =
      if word content p = fourccList then
        listParse (freadList content ⟨p, skip 1 u⟩).1 (freadList content ⟨p, skip 1 u⟩).2
      else
        some (aviChunkParse content long ⟨word content p, word content (p + 4)⟩ ⟨p + 8, skip 2 u⟩) := by
  rw [aviItem_eq, freadCode_of_le (by omega), codePos_of_le (by omega), freadChunk_of_le hp]
  rfl

/-- A chunk reads a number of times that does not depend on what variables hold. -/
theorem exists_aviChunkParse_eq (content : List UInt8) (long : Long) (p : Nat) :
    ∃ k, ∀ u, aviChunkParse content long ⟨word content p, word content (p + 4)⟩ ⟨p + 8, u⟩ =
      (itemSize content p, ⟨chunkEnd content long p, skip k u⟩) := by
  unfold chunkEnd
  by_cases havih : word content p = fourccAvih
  · refine ⟨1, fun u => ?_⟩
    rw [if_pos (.inl havih), aviChunkParse, if_pos havih]
    rfl
  by_cases hstrh : word content p = fourccStrh
  · refine ⟨1, fun u => ?_⟩
    rw [if_pos (.inr hstrh), aviChunkParse, if_neg havih, if_pos hstrh]
    rfl
  · refine ⟨0, fun u => ?_⟩
    rw [if_neg (not_or.mpr ⟨havih, hstrh⟩), aviChunkParse, if_neg havih, if_neg hstrh]
    rfl

/-! ## Calls and rounds -/

/-- A function that answers wherever another one does, with the same answer. -/
def Extends (f g : AviList → AviState → Option (BitVec 32 × AviState)) : Prop :=
  ∀ l s r, f l s = some r → g l s = some r

section Fuel

variable {f g : AviList → AviState → Option (BitVec 32 × AviState)} {s : AviState} {rounds rounds' : Nat}

/-- An item that is parsed is parsed with more depth. -/
theorem aviItem_mono {r : BitVec 32 × AviState} (hfg : Extends f g)
    (h : aviItem content long f s = some r) : aviItem content long g s = some r := by
  unfold aviItem at h ⊢
  dsimp only at h ⊢
  split_ifs at h ⊢
  · exact hfg _ _ _ h
  · exact h

/-- A round of the loop whose item is parsed. -/
theorem aviItems_succ {n : BitVec 32} {s₁ : AviState} (hitem : aviItem content long f s = some (n, s₁)) :
    aviItems content long f (rounds + 1) size s =
      if size - n = 0 then some s₁ else aviItems content long f rounds (size - n) s₁ := by
  rw [aviItems, hitem]
  show (if size - n > 0 then _ else _) = _
  by_cases hzero : size - n = 0
  · rw [if_pos hzero, hzero, if_neg (by decide)]
  · rw [if_neg hzero, if_pos (show size - n > 0 from (BitVec.pos_iff_ne_zero _).mpr hzero)]

/-- A loop that ends parses its first item. -/
theorem exists_of_aviItems_eq_some {s' : AviState}
    (h : aviItems content long f rounds size s = some s') :
    ∃ n s₁, aviItem content long f s = some (n, s₁) := by
  cases rounds with
  | zero => exact nomatch h
  | succ rounds =>
    rw [aviItems] at h
    obtain ⟨⟨n, s₁⟩, hitem, -⟩ := Option.bind_eq_some_iff.mp h
    exact ⟨n, s₁, hitem⟩

/-- Items that are parsed are parsed with more depth and more rounds. -/
theorem aviItems_mono {s' : AviState} (hfg : Extends f g) (hle : rounds ≤ rounds')
    (h : aviItems content long f rounds size s = some s') :
    aviItems content long g rounds' size s = some s' := by
  induction rounds generalizing rounds' size s with
  | zero => exact nomatch h
  | succ rounds ih =>
    obtain ⟨more, rfl⟩ := Nat.exists_eq_add_of_le hle
    obtain ⟨n, s₁, hitem⟩ := exists_of_aviItems_eq_some h
    rw [aviItems_succ hitem] at h
    rw [Nat.succ_add, aviItems_succ (aviItem_mono hfg hitem)]
    split_ifs at h ⊢
    · exact h
    · exact ih (Nat.le_add_right _ _) h

/-- A list that is parsed is parsed with more depth and more rounds. -/
theorem aviListParse_mono (hd : d ≤ d') (hr : rounds ≤ rounds') :
    Extends (aviListParse content long d rounds) (aviListParse content long d' rounds') := by
  induction d generalizing d' with
  | zero => exact fun _ _ _ h => nomatch h
  | succ d ih =>
    obtain ⟨more, rfl⟩ := Nat.exists_eq_add_of_le hd
    intro l s r h
    rw [Nat.succ_add, aviListParse]
    rw [aviListParse] at h
    obtain ⟨s', hitems, hr'⟩ := Option.bind_eq_some_iff.mp h
    rw [aviItems_mono (ih (Nat.le_add_right _ _)) hr hitems]
    exact hr'

end Fuel

/-! ## Following items -/

/-- An item of nested lists is parsed. -/
theorem exists_aviItem_eq (hlists : ∀ p e, Lists content long d p e → ∃ k rounds, ∀ u l,
      l.size = word content (p + 4) → aviListParse content long d rounds l ⟨listStart content p, u⟩ =
        some (itemSize content p, ⟨e, skip k u⟩))
    (h : ItemAt content long (Lists content long d) p e) :
    ∃ k rounds, ∀ u, aviItem content long (aviListParse content long d rounds) ⟨p, u⟩ =
      some (itemSize content p, ⟨e, skip k u⟩) := by
  obtain ⟨hheader, hitem⟩ := h
  split_ifs at hitem with hcode
  · obtain ⟨k, rounds, hparse⟩ := hlists p e hitem
    -- the code and the header of the list are read before its items
    refine ⟨1 + (1 + k), rounds, fun u => ?_⟩
    obtain ⟨hsize, hstate⟩ := freadList_of_le (u := skip 1 u) hheader
    rw [aviItem_of_le hheader, if_pos hcode, hstate, hparse _ _ hsize, skip_skip, skip_skip]
  · obtain ⟨k, hchunk⟩ := exists_aviChunkParse_eq content long p
    refine ⟨2 + k, 0, fun u => ?_⟩
    rw [aviItem_of_le hheader, if_neg hcode, hchunk, hitem, skip_skip]

/-- The loop follows the items when the items are parsed. -/
theorem exists_aviItems_eq_of (hitem : ∀ p e, ItemAt content long lists p e →
      ∃ k rounds, ∀ u, aviItem content long (aviListParse content long d rounds) ⟨p, u⟩ =
        some (itemSize content p, ⟨e, skip k u⟩))
    (h : Items content long lists p size e) :
    ∃ k rounds, ∀ u, aviItems content long (aviListParse content long d rounds) rounds size ⟨p, u⟩ =
      some ⟨e, skip k u⟩ := by
  induction h with
  | last item hsize =>
    obtain ⟨k, rounds, hparse⟩ := hitem _ _ item
    refine ⟨k, rounds + 1, fun u => ?_⟩
    rw [aviItems_succ (aviItem_mono (aviListParse_mono le_rfl rounds.le_succ) (hparse u)), if_pos hsize]
  | more item hsize _ ih =>
    obtain ⟨k, rounds, hparse⟩ := hitem _ _ item
    obtain ⟨k', rounds', hrest⟩ := ih
    refine ⟨k + k', max rounds rounds' + 1, fun u => ?_⟩
    -- the item and those behind it are followed in the greater number of rounds
    have hle : rounds ≤ max rounds rounds' + 1 := (le_max_left _ _).trans (Nat.le_succ _)
    have hle' : rounds' ≤ max rounds rounds' + 1 := (le_max_right _ _).trans (Nat.le_succ _)
    have hmore := aviItems_mono (aviListParse_mono le_rfl hle') (le_max_right rounds rounds') (hrest (skip k u))
    rw [aviItems_succ (aviItem_mono (aviListParse_mono le_rfl hle) (hparse u)), if_neg hsize, hmore, skip_skip]

/-- A list is parsed to its end. -/
theorem exists_aviListParse_eq (h : Lists content long d p e) :
    ∃ k rounds, ∀ u l, l.size = word content (p + 4) →
      aviListParse content long d rounds l ⟨listStart content p, u⟩ =
        some (itemSize content p, ⟨e, skip k u⟩) := by
  induction d generalizing p e with
  | zero => exact h.elim
  | succ d ih =>
    obtain ⟨k, rounds, hitems⟩ := exists_aviItems_eq_of
      (fun p e hitem => exists_aviItem_eq (fun p e hlist => ih hlist) hitem) h
    refine ⟨k, rounds, fun u l hl => ?_⟩
    rw [aviListParse, hl, hitems u]
    rfl

/-- The loop of `avi_list_parse` follows the items of a list. -/
theorem exists_aviItems_eq (h : Items content long (Lists content long d) p size e) :
    ∃ k rounds, ∀ u, aviItems content long (aviListParse content long d rounds) rounds size ⟨p, u⟩ =
      some ⟨e, skip k u⟩ :=
  exists_aviItems_eq_of (fun _ _ => exists_aviItem_eq fun _ _ => exists_aviListParse_eq) h

end DVP.VisionCam.FileVisionCam
