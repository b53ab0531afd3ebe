import DVP.VisionCam.Avi.Termination

/-!
# The structure of AVI files

The items of a RIFF tree, in the order of their bytes, and what the parser makes of them.

* `riff_followed_iff`: each item of a tree is parsed up to its end exactly when no list is empty and the main
  and stream headers have the sizes of their structures. The search for the `MOVI` list stops at its header
  exactly when it starts there.
-/

namespace DVP.VisionCam.FileVisionCam

open Bytes

/-! ## RIFF trees -/

/-- A sequence of chunks and lists: a first one with the rest. -/
inductive Riff where
  | nil
  | chunk (code : BitVec 32) (data : List UInt8) (rest : Riff)
  | list (typecode : BitVec 32) (children : Riff) (rest : Riff)
  deriving DecidableEq

namespace Riff

/-- The sum over the items of eight and their size. The size of a list is four and that of its items. -/
def size : Riff → Nat
  | nil => 0
  | chunk _ data rest => 8 + data.length + rest.size
  | list _ children rest => 8 + (4 + children.size) + rest.size

/-- The code and the size of an item. -/
def header (code : BitVec 32) (size : Nat) : List UInt8 :=
  unitBytes code ++ unitBytes (BitVec.ofNat 32 size)

/-- The bytes of the items. -/
def bytes : Riff → List UInt8
  | nil => []
  | chunk code data rest => header code data.length ++ (data ++ rest.bytes)
  | list typecode children rest =>
    header fourccList (4 + children.size) ++ (unitBytes typecode ++ (children.bytes ++ rest.bytes))

/-- What has the code of a list is a list. -/
def Codes : Riff → Prop
  | nil => True
  | chunk code _ rest => code ≠ fourccList ∧ rest.Codes
  | list _ children rest => children.Codes ∧ rest.Codes

/-- `avi_chunk_parse` after the header of a chunk answers its total size, and leaves the position at its end,
wherever the chunk is in a file. -/
def ChunkFollowed (long : Long) (code : BitVec 32) (data : List UInt8) : Prop :=
  ∀ (before behind : List UInt8) (uninit : Nat → Nat → UInt8),
    let content := before ++ ((chunk code data nil).bytes ++ behind)
    let r := aviChunkParse content long ⟨code, BitVec.ofNat 32 data.length⟩ ⟨before.length + 8, uninit⟩
    r.1.toNat = 8 + data.length ∧ r.2.pos = before.length + 8 + data.length

/-- `avi_list_parse` after the header of a list answers its total size, and leaves the position at its end,
wherever the list is in a file. -/
def ListFollowed (long : Long) (typecode : BitVec 32) (children : Riff) : Prop :=
  ∀ (before behind : List UInt8) (uninit : Nat → Nat → UInt8),
    let content := before ++ ((list typecode children nil).bytes ++ behind)
    let size := 4 + children.size
    ∃ depth rounds r, aviListParse content long depth rounds ⟨fourccList, BitVec.ofNat 32 size, typecode⟩
        ⟨before.length + 12, uninit⟩ = some r ∧
      r.1.toNat = 8 + size ∧ r.2.pos = before.length + 8 + size

/-- Every item is followed. -/
def Followed (long : Long) : Riff → Prop
  | nil => True
  | chunk code data rest => ChunkFollowed long code data ∧ rest.Followed long
  | list typecode children rest =>
    ListFollowed long typecode children ∧ children.Followed long ∧ rest.Followed long

/-- The main and stream headers have the sizes of their structures. The size of any other chunk is not
negative as a `long`. -/
def ChunkFits (long : Long) (code : BitVec 32) (data : List UInt8) : Prop :=
  if code = fourccAvih ∨ code = fourccStrh then data.length = 56
  else long = .bits32 → data.length < 2 ^ 31

/-- Every chunk fits, and no list is empty. -/
def Fits (long : Long) : Riff → Prop
  | nil => True
  | chunk code data rest => ChunkFits long code data ∧ rest.Fits long
  | list _ children rest => children ≠ nil ∧ children.Fits long ∧ rest.Fits long

end Riff

/-- The items of a well formed RIFF file. -/
structure RiffTree where
  items : Riff
  codes : items.Codes
  size_lt : 4 + items.size < 2 ^ 32

/-! ## The search -/

/-- What the search for the movie reads as one: a chunk, or the header of a list. -/
inductive Boundary where
  | chunk (code : BitVec 32) (data : List UInt8)
  | list (size : Nat) (typecode : BitVec 32)
  deriving DecidableEq

namespace Boundary

def bytes : Boundary → List UInt8
  | chunk code data => Riff.header code data.length ++ data
  | list size typecode => Riff.header fourccList size ++ unitBytes typecode

/-- A chunk, or a list that is not the movie. -/
def NotMovi : Boundary → Prop
  | chunk code data => code ≠ fourccList ∧ data.length < 2 ^ 32
  | list size typecode => typecode ≠ fourccMovi ∧ size < 2 ^ 32

end Boundary

/-- The search that starts before some boundaries stops after the header of the `MOVI` list behind them. -/
def SearchStops (long : Long) (skipped : List Boundary) : Prop :=
  ∀ (before behind : List UInt8) (size : Nat) (movList : AviList) (uninit : Nat → Nat → UInt8),
    let content := before ++ (skipped.flatMap Boundary.bytes ++
      ((Boundary.list size fourccMovi).bytes ++ behind))
    ∃ rounds s', findMovi content long rounds movList ⟨before.length, uninit⟩ =
        some (some ⟨fourccList, BitVec.ofNat 32 size, fourccMovi⟩, s') ∧
      s'.pos = before.length + (skipped.flatMap Boundary.bytes).length + 12

variable {content before behind data : List UInt8} {long : Long} {code typecode : BitVec 32} {n p : Nat}
  {t children rest : Riff} {u : Nat → Nat → UInt8}

/-! ## Bytes -/

@[simp]
theorem Riff.length_header : (Riff.header code n).length = 8 := by
  rw [Riff.header, List.length_append, length_unitBytes, length_unitBytes]

theorem Riff.length_bytes (t : Riff) : t.bytes.length = t.size := by
  induction t with
  | nil => rfl
  | chunk code data rest ih =>
    simp only [bytes, size, List.length_append, length_header, ih]
    omega
  | list typecode children rest ihc ihr =>
    simp only [bytes, size, List.length_append, length_header, length_unitBytes, ihc, ihr]
    omega

theorem Riff.size_pos (h : t ≠ .nil) : 0 < t.size := by
  cases t with
  | nil => exact absurd rfl h
  | chunk code data rest =>
    rw [size]
    omega
  | list typecode children rest =>
    rw [size]
    omega

/-- The number that starts at a position. -/
theorem word_append (h : content = before ++ (unitBytes code ++ behind)) :
    word content before.length = code := by
  have htake : (unitBytes code ++ behind).take 4 = unitBytes code := List.take_left' length_unitBytes
  rw [word, h, List.drop_left, htake]
  exact unitOf_unitBytes (by decide) code

/-- The header that starts at a position. -/
theorem word_header (h : content = before ++ (Riff.header code n ++ behind)) :
    before.length + 8 ≤ content.length ∧ word content before.length = code ∧
      word content (before.length + 4) = BitVec.ofNat 32 n := by
  refine ⟨?_, ?_, ?_⟩
  · rw [h, List.length_append, List.length_append, Riff.length_header]
    omega
  · rw [Riff.header, List.append_assoc] at h
    exact word_append h
  · have hbehind : content = (before ++ unitBytes code) ++ (unitBytes (BitVec.ofNat 32 n) ++ behind) := by
      rw [h, Riff.header]
      simp only [List.append_assoc]
    have hword := word_append hbehind
    rwa [List.length_append, length_unitBytes] at hword

/-! ## Following -/

namespace Riff

/-- A chunk that fits is passed. -/
theorem aviChunkParse_pos (hfits : ChunkFits long code data) (hdata : data.length < 2 ^ 32)
    (h : content = before ++ (header code data.length ++ (data ++ behind))) :
    (aviChunkParse content long ⟨code, BitVec.ofNat 32 data.length⟩ ⟨before.length + 8, u⟩).2.pos =
      before.length + 8 + data.length := by
  have hlength : content.length = before.length + (8 + (data.length + behind.length)) := by
    rw [h]
    simp only [List.length_append, length_header]
  unfold ChunkFits at hfits
  unfold aviChunkParse
  split_ifs at hfits with hstruct
  · have hread : (fread content 56 ⟨before.length + 8, u⟩).2.pos = before.length + 8 + data.length := by
      show before.length + 8 + min 56 (content.length - (before.length + 8)) = _
      omega
    split_ifs with havih hstrh
    · exact hread
    · exact hread
    · exact absurd hstruct (not_or.mpr ⟨havih, hstrh⟩)
  · rw [not_or] at hstruct
    have hoffset : long.ofU32 (BitVec.ofNat 32 data.length) = data.length := by
      cases long with
      | bits32 =>
        have hlt := hfits rfl
        show (BitVec.ofNat 32 data.length).toInt = _
        rw [BitVec.toInt_ofNat', Int.bmod_eq_of_le (by omega) (by omega)]
      | bits64 =>
        show ((BitVec.ofNat 32 data.length).toNat : Int) = _
        rw [BitVec.toNat_ofNat, Nat.mod_eq_of_lt hdata]
    rw [if_neg hstruct.1, if_neg hstruct.2]
    show (if 0 ≤ ((before.length + 8 : Nat) : Int) + long.ofU32 (BitVec.ofNat 32 data.length) then
      ((before.length + 8 : Nat) + long.ofU32 (BitVec.ofNat 32 data.length) : Int).toNat
      else before.length + 8) = _
    rw [hoffset, if_pos (by omega)]
    omega

theorem chunkFollowed_of_fits (hfits : ChunkFits long code data) (hsize : 8 + data.length < 2 ^ 32) :
    ChunkFollowed long code data := by
  intro before behind u
  refine ⟨?_, ?_⟩
  · have hanswer : ∀ content s, (aviChunkParse content long ⟨code, BitVec.ofNat 32 data.length⟩ s).1 =
        BitVec.ofNat 32 data.length + 4 + 4 := by
      intro content s
      unfold aviChunkParse
      split_ifs <;> rfl
    rw [hanswer]
    bv_omega
  · have hbytes : before ++ ((chunk code data nil).bytes ++ behind) =
        before ++ (header code data.length ++ (data ++ behind)) := by
      simp only [bytes, List.append_nil, List.append_assoc]
    exact aviChunkParse_pos hfits (by omega) hbytes

/-- The loop meets an item, and then the rest. -/
theorem exists_items_cons {m : Nat} (hsize : m + rest.size < 2 ^ 32)
    (hitem : ∃ d, ItemAt content long (Lists content long d) p (p + m))
    (hitemSize : itemSize content p = BitVec.ofNat 32 m)
    (hrest : rest ≠ nil → ∃ d, Items content long (Lists content long d) (p + m)
      (BitVec.ofNat 32 rest.size) (p + m + rest.size)) :
    ∃ d, Items content long (Lists content long d) p (BitVec.ofNat 32 (m + rest.size))
      (p + (m + rest.size)) := by
  obtain ⟨d, hitem⟩ := hitem
  have hleft : BitVec.ofNat 32 (m + rest.size) - itemSize content p = BitVec.ofNat 32 rest.size := by
    rw [hitemSize]
    bv_omega
  by_cases hnil : rest = nil
  · subst hnil
    exact ⟨d, .last hitem hleft⟩
  · obtain ⟨d', hitems⟩ := hrest hnil
    have hpos := size_pos hnil
    have hne : BitVec.ofNat 32 rest.size ≠ 0 := by
      intro heq
      have hnat := congrArg BitVec.toNat heq
      rw [BitVec.toNat_ofNat, Nat.mod_eq_of_lt (by omega)] at hnat
      exact absurd hnat hpos.ne'
    -- the lists of both are nested up to the greater of the depths
    refine ⟨max d d', .more (hitem.mono fun _ _ => lists_mono (le_max_left d d')) (hleft ▸ hne) ?_⟩
    rw [hleft, ← Nat.add_assoc]
    exact hitems.mono fun _ _ => lists_mono (le_max_right d d')

theorem itemSize_header (h : content = before ++ (header code n ++ behind)) :
    itemSize content before.length = BitVec.ofNat 32 (8 + n) := by
  obtain ⟨-, -, hsize⟩ := word_header h
  rw [itemSize, hsize]
  bv_omega

/-- A chunk that fits is an item. -/
theorem itemAt_chunk (hcode : code ≠ fourccList) (hchunk : ChunkFits long code data)
    (hdata : data.length < 2 ^ 32)
    (h : content = before ++ (header code data.length ++ (data ++ behind))) :
    ItemAt content long (Lists content long 0) before.length (before.length + (8 + data.length)) := by
  obtain ⟨hheader, hword, hsize⟩ := word_header h
  obtain ⟨k, hparse⟩ := exists_aviChunkParse_eq content long before.length
  have hpos := aviChunkParse_pos (u := fun _ _ => 0) hchunk hdata h
  refine ⟨hheader, ?_⟩
  rw [if_neg (hword ▸ hcode), ← Nat.add_assoc, ← hpos, ← hword, ← hsize, hparse]

/-- A list is an item if the loop meets the items in it. -/
theorem itemAt_list {d : Nat}
    (h : content = before ++ (header fourccList (4 + n) ++ behind))
    (hitems : Items content long (Lists content long d) (before.length + 12) (BitVec.ofNat 32 n)
      (before.length + 12 + n)) :
    ItemAt content long (Lists content long (d + 1)) before.length
      (before.length + (8 + (4 + n))) := by
  obtain ⟨hheader, hword, hsize⟩ := word_header h
  have hbehind : before.length + 12 ≤ content.length := hitems.header_le.trans' (by omega)
  have hstart : listStart content before.length = before.length + 12 := by
    rw [listStart]
    omega
  have hleft : word content (before.length + 4) - 4 = BitVec.ofNat 32 n := by
    rw [hsize]
    bv_omega
  have hend : before.length + (8 + (4 + n)) = before.length + 12 + n := by omega
  refine ⟨hheader, ?_⟩
  rw [if_pos hword, Lists, hstart, hleft, hend]
  exact hitems

/-- The items of a sequence are those that the loop meets. -/
theorem exists_items (hnil : t ≠ nil) (hcodes : t.Codes) (hsize : t.size < 2 ^ 32) (hfits : t.Fits long)
    (h : content = before ++ (t.bytes ++ behind)) :
    ∃ d, Items content long (Lists content long d) before.length (BitVec.ofNat 32 t.size)
      (before.length + t.size) := by
  induction t generalizing before behind with
  | nil => exact absurd rfl hnil
  | chunk code data rest ih =>
    obtain ⟨hcode, hcodes⟩ := hcodes
    obtain ⟨hchunk, hfits⟩ := hfits
    rw [size] at hsize ⊢
    have hbytes : content = before ++ (header code data.length ++ (data ++ (rest.bytes ++ behind))) := by
      rw [h, bytes]
      simp only [List.append_assoc]
    have hbehind : content = (before ++ (header code data.length ++ data)) ++ (rest.bytes ++ behind) := by
      rw [hbytes]
      simp only [List.append_assoc]
    have hitem := itemAt_chunk hcode hchunk (by omega) hbytes
    refine exists_items_cons hsize ⟨0, hitem⟩ (itemSize_header hbytes) fun hrest => ?_
    have hitems := ih hrest hcodes (by omega) hfits hbehind
    rwa [List.length_append, List.length_append, length_header] at hitems
  | list typecode children rest ihc ihr =>
    obtain ⟨hcodes, hcodes'⟩ := hcodes
    obtain ⟨hchildren, hfits, hfits'⟩ := hfits
    rw [size] at hsize ⊢
    have hbytes : content = before ++ (header fourccList (4 + children.size) ++
        (unitBytes typecode ++ (children.bytes ++ (rest.bytes ++ behind)))) := by
      rw [h, bytes]
      simp only [List.append_assoc]
    -- the children start behind the header of the list, the rest behind the children
    have hinside : content = (before ++ (header fourccList (4 + children.size) ++ unitBytes typecode)) ++
        (children.bytes ++ (rest.bytes ++ behind)) := by
      rw [hbytes]
      simp only [List.append_assoc]
    have hbehind : content = (before ++ (header fourccList (4 + children.size) ++ unitBytes typecode ++
        children.bytes)) ++ (rest.bytes ++ behind) := by
      rw [hbytes]
      simp only [List.append_assoc]
    obtain ⟨d, hitems⟩ := ihc hchildren hcodes (by omega) hfits hinside
    rw [List.length_append, List.length_append, length_header, length_unitBytes] at hitems
    have hitem := itemAt_list hbytes hitems
    refine exists_items_cons hsize ⟨d + 1, hitem⟩ (itemSize_header hbytes) fun hrest => ?_
    have hitems' := ihr hrest hcodes' (by omega) hfits' hbehind
    simp only [List.length_append, length_header, length_unitBytes, length_bytes, Nat.add_assoc] at hitems'
    simpa only [Nat.add_assoc] using hitems'

/-- A list that has items, all of which fit, is followed. -/
theorem listFollowed_of_fits (hnil : children ≠ nil) (hcodes : children.Codes)
    (hsize : 8 + (4 + children.size) < 2 ^ 32) (hfits : children.Fits long) :
    ListFollowed long typecode children := by
  intro before behind u content size
  have hinside : content = (before ++ (header fourccList size ++ unitBytes typecode)) ++
      (children.bytes ++ behind) := by
    show before ++ ((list typecode children nil).bytes ++ behind) = _
    simp only [bytes, List.append_nil, List.append_assoc]
    rfl
  obtain ⟨d, hitems⟩ := exists_items hnil hcodes (by omega) hfits hinside
  obtain ⟨k, rounds, hrun⟩ := exists_aviItems_eq hitems
  have hstart : (before ++ (header fourccList size ++ unitBytes typecode)).length = before.length + 12 := by
    simp only [List.length_append, length_header, length_unitBytes]
  have hleft : BitVec.ofNat 32 size - 4 = BitVec.ofNat 32 children.size := by
    show BitVec.ofNat 32 (4 + children.size) - 4 = _
    bv_omega
  rw [hstart] at hrun
  refine ⟨d + 1, rounds, (BitVec.ofNat 32 size + 4 + 4, ⟨before.length + 12 + children.size, skip k u⟩),
    ?_, ?_, ?_⟩
  · rw [aviListParse, hleft, hrun]
    rfl
  · show (BitVec.ofNat 32 (4 + children.size) + 4 + 4).toNat = 8 + (4 + children.size)
    bv_omega
  · show before.length + 12 + children.size = before.length + 8 + (4 + children.size)
    omega

theorem followed_of_fits (hcodes : t.Codes) (hsize : t.size < 2 ^ 32) (hfits : t.Fits long) :
    t.Followed long := by
  induction t with
  | nil => trivial
  | chunk code data rest ih =>
    rw [size] at hsize
    exact ⟨chunkFollowed_of_fits hfits.1 (by omega), ih hcodes.2 (by omega) hfits.2⟩
  | list typecode children rest ihc ihr =>
    obtain ⟨hnil, hfits, hfits'⟩ := hfits
    rw [size] at hsize
    exact ⟨listFollowed_of_fits hnil hcodes.1 (by omega) hfits, ihc hcodes.1 (by omega) hfits,
      ihr hcodes.2 (by omega) hfits'⟩

/-! ## Going astray -/

/-- A chunk that is followed fits. -/
theorem fits_of_chunkFollowed (hdata : 8 + data.length < 2 ^ 32) (h : ChunkFollowed long code data) :
    ChunkFits long code data := by
  -- a chunk at the start of a file that is long enough for a structure
  have hpos := (h [] (List.replicate 56 0) fun _ _ => 0).2
  have hlength : ([] ++ ((chunk code data nil).bytes ++ List.replicate 56 0) : List UInt8).length =
      8 + (data.length + 56) := by
    simp only [bytes, List.nil_append, List.append_nil, List.length_append, length_header, List.length_replicate]
    omega
  unfold ChunkFits
  unfold aviChunkParse at hpos
  split_ifs with hstruct
  · have hread : 8 + min 56 (8 + (data.length + 56) - 8) = 8 + data.length := by
      rw [← hlength]
      split_ifs at hpos with havih hstrh
      · exact hpos
      · exact hpos
      · exact absurd hstruct (not_or.mpr ⟨havih, hstrh⟩)
    omega
  · rw [not_or] at hstruct
    rw [if_neg hstruct.1, if_neg hstruct.2] at hpos
    rintro rfl
    have hseek : (if (0 : Int) ≤ (8 : Nat) + (BitVec.ofNat 32 data.length).toInt then
        ((8 : Nat) + (BitVec.ofNat 32 data.length).toInt : Int).toNat else 8) = 8 + data.length := hpos
    by_contra hlarge
    have hnegative : (BitVec.ofNat 32 data.length).toInt = (data.length : Int) - 2 ^ 32 := by
      rw [BitVec.toInt_eq_toNat_cond, BitVec.toNat_ofNat]
      omega
    rw [hnegative] at hseek
    split_ifs at hseek <;> omega

/-- A list that is followed has an item. -/
theorem ne_nil_of_listFollowed (h : ListFollowed long typecode children) : children ≠ nil := by
  rintro rfl
  -- an empty list at the end of a file
  have hends : LoopEnds ([] ++ ((list typecode nil nil).bytes ++ [])) long (([] : List UInt8).length + 12)
      (BitVec.ofNat 32 (4 + nil.size) - 4) := by
    intro u
    obtain ⟨depth, rounds, r, hrun, -⟩ := h [] [] u
    cases depth with
    | zero => cases hrun
    | succ depth =>
      rw [aviListParse] at hrun
      obtain ⟨s', hitems, -⟩ := Option.bind_eq_some_iff.mp hrun
      exact ⟨depth, rounds, s', hitems⟩
  refine not_loopEnds_of_lt ?_ hends
  rw [List.nil_append, List.append_nil, length_bytes]
  show 8 + (4 + 0) + 0 < 0 + 12 + 8
  decide

theorem fits_of_followed (hsize : t.size < 2 ^ 32) (h : t.Followed long) : t.Fits long := by
  induction t with
  | nil => trivial
  | chunk code data rest ih =>
    rw [size] at hsize
    exact ⟨fits_of_chunkFollowed (by omega) h.1, ih (by omega) h.2⟩
  | list typecode children rest ihc ihr =>
    rw [size] at hsize
    exact ⟨ne_nil_of_listFollowed h.1, ihc (by omega) h.2.1, ihr (by omega) h.2.2⟩

end Riff

/-! ## Searching -/

theorem freadList_eq (hp : p + 12 ≤ content.length) :
    freadList content ⟨p, u⟩ =
      (⟨word content p, word content (p + 4), word content (p + 8)⟩, ⟨p + 12, skip 1 u⟩) := by
  have hpos : p + min 12 (content.length - p) = p + 12 := by omega
  have hfield : ∀ i, i + 4 ≤ 12 → field (fread content 12 ⟨p, u⟩).1 i = word content (p + i) := fun i hi =>
    field_fread_of_le hi (by omega)
  show ((⟨field (fread content 12 ⟨p, u⟩).1 0, field (fread content 12 ⟨p, u⟩).1 4,
    field (fread content 12 ⟨p, u⟩).1 8⟩ : AviList), (⟨p + min 12 (content.length - p), skip 1 u⟩ : AviState)) = _
  rw [hfield 0 (by decide), hfield 4 (by decide), hfield 8 (by decide), hpos]
  rfl

/-- A round of the search that has a complete header. -/
theorem findMovi_succ {movList : AviList} {rounds : Nat} (hp : p + 8 ≤ content.length) :
    findMovi content long (rounds + 1) movList ⟨p, u⟩ =
      let next :=
        if word content p = fourccList then freadList content ⟨p, skip 1 u⟩
        else (movList, fseek (long.ofU32 (word content (p + 4))) ⟨p + 8, skip 2 u⟩)
      if next.1.listcode ≠ fourccList ∧ next.1.typecode ≠ fourccMovi then
        findMovi content long rounds next.1 next.2
      else some (some next.1, next.2) := by
  have hcode : (freadCode content ⟨p, u⟩).1 = word content p := by rw [freadCode_of_le (by omega)]
  have hseek : fseek (-4) (freadCode content ⟨p, u⟩).2 = ⟨p, skip 1 u⟩ := by
    rw [fseek_freadCode, codePos_of_le (by omega)]
  have hread : (if p + 4 ≤ content.length then 1 else 0) ≠ 0 := by
    rw [if_pos (by omega)]
    decide
  rw [findMovi]
  dsimp only
  rw [if_neg hread, hcode, hseek, freadChunk_of_le hp]
  rfl

/-- The header of a list, with its type. -/
theorem word_list (h : content = before ++ ((Boundary.list n typecode).bytes ++ behind)) :
    before.length + 12 ≤ content.length ∧ word content before.length = fourccList ∧
      word content (before.length + 4) = BitVec.ofNat 32 n ∧ word content (before.length + 8) = typecode := by
  have hheader : content = before ++ (Riff.header fourccList n ++ (unitBytes typecode ++ behind)) := by
    rw [h, Boundary.bytes]
    simp only [List.append_assoc]
  have htype : content = (before ++ Riff.header fourccList n) ++ (unitBytes typecode ++ behind) := by
    rw [hheader]
    simp only [List.append_assoc]
  obtain ⟨-, hcode, hsize⟩ := word_header hheader
  have hwordType := word_append htype
  rw [List.length_append, Riff.length_header] at hwordType
  refine ⟨?_, hcode, hsize, hwordType⟩
  rw [htype]
  simp only [List.length_append, Riff.length_header, length_unitBytes]
  omega

/-- The search stops after the header of a list, whatever it is. -/
theorem findMovi_list (long : Long) (movList : AviList) (rounds : Nat) (u : Nat → Nat → UInt8)
    (h : content = before ++ ((Boundary.list n typecode).bytes ++ behind)) :
    findMovi content long (rounds + 1) movList ⟨before.length, u⟩ =
      some (some ⟨fourccList, BitVec.ofNat 32 n, typecode⟩, ⟨before.length + 12, skip 1 (skip 1 u)⟩) := by
  obtain ⟨hlength, hcode, hsize, htype⟩ := word_list h
  rw [findMovi_succ (by omega), if_pos hcode, freadList_eq hlength, hcode, hsize, htype]
  exact if_neg fun hcontinue => hcontinue.1 rfl

/-- The search stops after a chunk, when `movList` holds the code of a list. -/
theorem findMovi_chunk (long : Long) (movList : AviList) (rounds : Nat) (u : Nat → Nat → UInt8)
    (hcode : code ≠ fourccList) (hmov : movList.listcode = fourccList)
    (h : content = before ++ ((Boundary.chunk code data).bytes ++ behind)) :
    ∃ s', findMovi content long (rounds + 1) movList ⟨before.length, u⟩ = some (some movList, s') := by
  have hheader : content = before ++ (Riff.header code data.length ++ (data ++ behind)) := by
    rw [h, Boundary.bytes]
    simp only [List.append_assoc]
  obtain ⟨hlength, hword, -⟩ := word_header hheader
  have hword' : word content before.length ≠ fourccList := hword ▸ hcode
  rw [findMovi_succ hlength, if_neg hword']
  exact ⟨_, if_neg fun hcontinue => hcontinue.1 hmov⟩

theorem searchStops_iff {skipped : List Boundary} (hskipped : ∀ b ∈ skipped, b.NotMovi) :
    SearchStops long skipped ↔ skipped = [] := by
  constructor
  · intro hstops
    cases skipped with
    | nil => rfl
    | cons b skipped =>
      -- the search starts at the first boundary, where `movList` happens to hold the code of a list
      obtain ⟨rounds, s', hrun, -⟩ := hstops [] [] 0 ⟨fourccList, 0, 0⟩ fun _ _ => 0
      have hb := hskipped b List.mem_cons_self
      rw [List.flatMap_cons, List.append_assoc] at hrun
      cases rounds with
      | zero => cases hrun
      | succ rounds =>
        cases b with
        | chunk code data =>
          obtain ⟨s'', hchunk⟩ := findMovi_chunk long ⟨fourccList, 0, 0⟩ rounds (fun _ _ => 0) hb.1
            rfl rfl
          cases hchunk.symm.trans hrun
        | list size typecode =>
          rw [findMovi_list long _ rounds _ rfl] at hrun
          obtain ⟨hlist, -⟩ := Prod.mk.inj (Option.some.inj hrun)
          exact absurd (congrArg AviList.typecode (Option.some.inj hlist)) hb.1
  · rintro rfl before behind size movList u
    exact ⟨1, _, findMovi_list long movList 0 u rfl, rfl⟩

/-! ## The main result -/

/-- Every item of a tree is parsed up to its end exactly when no list is empty and the main and stream headers
have the sizes of their structures. The search stops at the movie exactly when it starts there. -/
theorem riff_followed_iff (tree : RiffTree) {skipped : List Boundary}
    (hskipped : ∀ b ∈ skipped, b.NotMovi) :
    (tree.items.Followed long ↔ tree.items.Fits long) ∧ (SearchStops long skipped ↔ skipped = []) := by
  have hsize : tree.items.size < 2 ^ 32 := (Nat.le_add_left _ 4).trans_lt tree.size_lt
  exact ⟨⟨Riff.fits_of_followed hsize, Riff.followed_of_fits tree.codes hsize⟩, searchStops_iff hskipped⟩

/-- A list with a main header of the size of its structure. -/
def smallTree : RiffTree where
  items := .list 0x6C726468 (.chunk fourccAvih (List.replicate 56 0) .nil) .nil
  codes := ⟨⟨by decide, trivial⟩, trivial⟩
  size_lt := by decide

theorem riff_followed_iff_small :
    (smallTree.items.Followed .bits64 ↔ smallTree.items.Fits .bits64) ∧
      (SearchStops .bits64 [.chunk 0x4B4E554A []] ↔ [Boundary.chunk 0x4B4E554A []] = []) :=
  riff_followed_iff smallTree fun b hb => by
    rw [List.mem_singleton.mp hb]
    exact ⟨by decide, by decide⟩

/-- An empty list, a main header without data, and a search that starts before another list. -/
theorem not_riff_followed : ¬Riff.ListFollowed .bits64 0x6C726468 .nil ∧
    ¬Riff.ChunkFollowed .bits64 fourccAvih [] ∧ ¬SearchStops .bits64 [.list 4 0x6C726468] := by
  refine ⟨fun h => Riff.ne_nil_of_listFollowed h rfl, fun h => ?_, fun h => ?_⟩
  · have hfits := Riff.fits_of_chunkFollowed (by decide) h
    rw [Riff.ChunkFits, if_pos (.inl rfl)] at hfits
    cases hfits
  · have hnil := (searchStops_iff fun b hb => by
      rw [List.mem_singleton.mp hb]
      exact ⟨by decide, by decide⟩).mp h
    cases hnil

end DVP.VisionCam.FileVisionCam
