import DVP.Sosal.Ini.Independent

/-!
# Texts that end within themselves

`ini_parse` stops writing a text at its 255th byte, and writes no `NUL` behind what it has written. This module
compares it with a parser whose texts are lists of any length.

* `iniParse_eq_map`: the calls of `ini_parse` are those of the unbounded parser, with each text cut off at
  255 bytes and written over what was there: zeros, or the name `GLOBAL` and bytes that were never set.
* `iniParse_textsStayInside_iff`: no write leaves its text, and all strings end within theirs, exactly when the
  unbounded parser calls with texts of at most 254 bytes, and at most 6 over `GLOBAL`.
-/

namespace DVP.Sosal

/-! ## The writes of the parser -/

/-- The indexes that the call of the callback writes: both texts are cleared. -/
def Ini.callbackWrites (s : Ini) : List Nat :=
  if s.section_.first ≠ 0 ∧ s.variable_.first ≠ 0 ∧ s.value.first ≠ 0 then List.range 255 else []

/-- The index that the `default` branch writes. -/
def Ini.addWrites (s : Ini) : List Nat :=
  match s.state with
  | .none | .com => []
  | .sec => if s.s1 < 255 then [s.s1] else []
  | .var => if s.s2 < 255 then [s.s2] else []
  | .val => if s.s3 < 255 then [s.s3] else []

/-- The indexes of the texts that a round of the loop writes. -/
def iniCharWrites (charCase : IniChars) (s : Ini) (c : UInt8) : List Nat :=
  let c := iniFold charCase c
  if c = 35 ∨ c = 59 then []
  -- the brackets and `=` clear texts
  else if c = 91 ∨ c = 93 ∨ c = 61 then List.range 255
  else if c = 9 ∨ c = 32 ∨ c = 34 then []
  else if c = 10 ∨ c = 13 ∨ c = 0 then if s.state = .val then s.callbackWrites else []
  else s.addWrites

/-- The indexes that the loop and the call after it write. -/
def iniLoopWrites (charCase : IniChars) : Ini → List UInt8 → List Nat
  | s, [] => s.callbackWrites
  | s, c :: cs => iniCharWrites charCase s c ++ iniLoopWrites charCase (iniChar charCase s c) cs

/-- The indexes of the texts that `ini_parse` writes: first it clears two of them, and writes `GLOBAL` and
a `NUL` to the third. -/
def iniParseWrites (uninit : TextBuffer) (charCase : IniChars) (buffer : List UInt8) : List Nat :=
  List.range 255 ++ List.range 7 ++ iniLoopWrites charCase (iniStart uninit) buffer

/-- Every write is inside the text, and every string that is passed to the callback ends inside its own. -/
def TextsStayInside (uninit : TextBuffer) (charCase : IniChars) (buffer : List UInt8) : Prop :=
  (∀ i ∈ iniParseWrites uninit charCase buffer, i < 255) ∧
    ∀ call ∈ iniParse uninit charCase buffer, call.HasStrings

/-! ## The unbounded parser -/

/-- The text of a section: what was written over `GLOBAL` before the first bracket, or a name. -/
inductive SectionText where
  | global (t : List UInt8)
  | named (t : List UInt8)
  deriving DecidableEq

/-- The text of a section. -/
def SectionText.text : SectionText → List UInt8
  | .global t => t
  | .named t => t

/-- One character more. -/
def SectionText.add (c : UInt8) : SectionText → SectionText
  | .global t => .global (t ++ [c])
  | .named t => .named (t ++ [c])

/-- The texts of a call of the callback. -/
structure LongCall where
  section_ : SectionText
  variable_ : List UInt8
  value : List UInt8

/-- The parser with texts of any length. -/
structure LongIni where
  state : IniState
  section_ : SectionText
  /-- There is none after a `[` that cleared the text but not its index: what is added is not at its start. -/
  variable_ : Option (List UInt8)
  value : List UInt8
  calls : List LongCall

/-- The report of the values as texts of any length. -/
def LongIni.callback (l : LongIni) : LongIni :=
  match l.variable_ with
  | none => l
  | some v =>
    if l.section_ ≠ .named [] ∧ v ≠ [] ∧ l.value ≠ [] then
      { l with variable_ := some [], value := [], calls := l.calls ++ [⟨l.section_, v, l.value⟩] }
    else l

/-- The character goes to the text that is read. -/
def LongIni.add (l : LongIni) (c : UInt8) : LongIni :=
  match l.state with
  | .none | .com => l
  | .sec => { l with section_ := l.section_.add c }
  | .var => { l with variable_ := l.variable_.map (· ++ [c]) }
  | .val => { l with value := l.value ++ [c] }

/-- A character, with texts of any length. -/
def longChar (charCase : IniChars) (l : LongIni) (c : UInt8) : LongIni :=
  let c := iniFold charCase c
  if c = 35 ∨ c = 59 then { l with state := .com }
  else if c = 91 then
    { l with
      state := .sec
      section_ := .named []
      variable_ := if l.variable_ = some [] then some [] else none
      value := [] }
  else if c = 93 then { l with state := .var, variable_ := some [], value := [] }
  else if c = 61 then { l with state := .val, value := [] }
  else if c = 9 ∨ c = 32 ∨ c = 34 then l
  else if c = 10 ∨ c = 13 ∨ c = 0 then
    if l.state = .val then { l.callback with state := .var } else l
  else l.add c

/-- Nothing was read. -/
def longStart : LongIni where
  state := .sec
  section_ := .global []
  variable_ := some []
  value := []
  calls := []

/-- The calls of the callback with texts of any length. -/
def longParse (charCase : IniChars) (buffer : List UInt8) : List LongCall :=
  (buffer.foldl (longChar charCase) longStart).callback.calls

/-- The text with its `NUL` fits: into 255 zeros, or into `GLOBAL` and its own `NUL`. -/
def SectionText.Fits : SectionText → Prop
  | .global t => t.length ≤ 6
  | .named t => t.length ≤ 254

/-- The texts of the report fit their buffers. -/
def LongCall.Fits (call : LongCall) : Prop :=
  call.section_.Fits ∧ call.variable_.length ≤ 254 ∧ call.value.length ≤ 254

variable {uninit bg : TextBuffer} {charCase : IniChars} {s : Ini} {l : LongIni} {c : UInt8}
  {t : List UInt8}

/-! ## Texts over other texts -/

namespace TextBuffer

/-- A text that is written over another one, from its start on. -/
def overlay (bg : TextBuffer) (t : List UInt8) : TextBuffer :=
  ⟨(t ++ bg.bytes.drop t.length).take 255, by
    rw [List.length_take, List.length_append, List.length_drop, bg.length_eq]
    omega⟩

/-- No text leaves the background. -/
theorem overlay_nil (bg : TextBuffer) : bg.overlay [] = bg := by
  apply ext_bytes
  exact List.take_of_length_le (Nat.le_of_eq bg.length_eq)

/-- A text starts with its first character, or with what is below it. -/
theorem first_overlay_ne_iff (h0 : 0 ∉ t) : (bg.overlay t).first ≠ 0 ↔ t ≠ [] ∨ bg.first ≠ 0 := by
  cases t with
  | nil => simp [overlay_nil]
  | cons d t =>
    have hfirst : (bg.overlay (d :: t)).first = d := rfl
    rw [hfirst]
    exact iff_of_true (fun hd => h0 (hd ▸ List.mem_cons_self)) (.inl (List.cons_ne_nil d t))

/-- Over zeros only the text counts. -/
theorem first_clear_overlay_ne_iff (h0 : 0 ∉ t) : (clear.overlay t).first ≠ 0 ↔ t ≠ [] := by
  rw [first_overlay_ne_iff h0]
  exact or_iff_left fun h => h first_clear

/-- A character is added at the end of the text. -/
theorem put_overlay (ht : t.length < 255) : (bg.overlay t).put t.length c = bg.overlay (t ++ [c]) := by
  apply ext_bytes
  have hlt : t.length < bg.bytes.length := bg.length_eq ▸ ht
  change ((t ++ bg.bytes.drop t.length).take 255).set t.length c =
    ((t ++ [c]) ++ bg.bytes.drop (t ++ [c]).length).take 255
  rw [← List.take_set, List.set_append_right _ _ (Nat.le_refl _), Nat.sub_self,
    List.drop_eq_getElem_cons hlt, List.set_cons_zero, List.append_assoc, List.length_append]
  rfl

/-- A full text takes no more characters. -/
theorem overlay_append_of_full (ht : 255 ≤ t.length) : bg.overlay (t ++ [c]) = bg.overlay t := by
  apply ext_bytes
  change ((t ++ [c]) ++ _).take 255 = (t ++ _).take 255
  rw [List.append_assoc, List.take_append_of_le_length ht, List.take_append_of_le_length ht]

/-- What is written over a text has no zeros, so that the string ends where the text below it does. -/
theorem string_overlay_isSome_iff (h0 : 0 ∉ t) :
    (bg.overlay t).string.isSome ↔ 0 ∈ bg.bytes.drop t.length := by
  have hstring : (bg.overlay t).string.isSome ↔ 0 ∈ (bg.overlay t).bytes := by
    rw [string]
    split <;> simp_all
  have hlength : (bg.bytes.drop t.length).length ≤ 255 - t.length :=
    Nat.le_of_eq (by rw [List.length_drop, bg.length_eq])
  have hbytes : (bg.overlay t).bytes = t.take 255 ++ bg.bytes.drop t.length := by
    change (t ++ bg.bytes.drop t.length).take 255 = _
    rw [List.take_append, List.take_of_length_le hlength]
  rw [hstring, hbytes, List.mem_append]
  exact or_iff_right fun hmem => h0 (List.mem_of_mem_take hmem)

/-- A text in an empty buffer ends inside of it when it has 254 characters at most. -/
theorem string_clear_isSome_iff (h0 : 0 ∉ t) : (clear.overlay t).string.isSome ↔ t.length ≤ 254 := by
  rw [string_overlay_isSome_iff h0]
  change 0 ∈ (List.replicate 255 0).drop t.length ↔ _
  rw [List.drop_replicate, List.mem_replicate, and_iff_left rfl]
  omega

/-- A text over `GLOBAL` is sure to end if it leaves the `NUL` behind the name. -/
theorem forall_string_global_iff (h0 : 0 ∉ t) :
    (∀ uninit, ((global uninit).overlay t).string.isSome) ↔ t.length ≤ 6 := by
  simp only [string_overlay_isSome_iff h0]
  constructor
  · intro hall
    by_contra hlong
    have hmem := hall ⟨List.replicate 255 1, List.length_replicate⟩
    change 0 ∈ ([71, 76, 79, 66, 65, 76, 0] ++ (List.replicate 255 (1 : UInt8)).drop 7).drop t.length at hmem
    rw [List.drop_append, List.drop_of_length_le (by simp; omega), List.nil_append, List.drop_drop,
      List.drop_replicate, List.mem_replicate] at hmem
    exact absurd hmem.2 (by decide)
  · intro hshort uninit
    change 0 ∈ ([71, 76, 79, 66, 65, 76, 0] ++ uninit.bytes.drop 7).drop t.length
    rw [List.drop_append, List.mem_append]
    left
    refine List.mem_of_getElem? (i := 6 - t.length) ?_
    rw [List.getElem?_drop, Nat.add_sub_cancel' hshort]
    rfl

end TextBuffer

/-! ## The parser follows the unbounded one -/

/-- What the text of the section is written over. -/
def SectionText.background (uninit : TextBuffer) : SectionText → TextBuffer
  | .global _ => .global uninit
  | .named _ => .clear

/-- The call with the texts cut off. -/
def LongCall.call (uninit : TextBuffer) (call : LongCall) : IniCall :=
  ⟨(call.section_.background uninit).overlay call.section_.text, TextBuffer.clear.overlay call.variable_,
    TextBuffer.clear.overlay call.value⟩

/-- The texts of a call have no zeros in them. -/
structure LongCall.Plain (call : LongCall) : Prop where
  section_ : 0 ∉ call.section_.text
  variable_ : 0 ∉ call.variable_
  value : 0 ∉ call.value

/-- A text and its index hold what was written over `bg`. -/
structure Written (bg b : TextBuffer) (i : Nat) (t : List UInt8) : Prop where
  text : b = bg.overlay t
  index : i = min t.length 255

/-- The variables of the parser hold those of the unbounded one. -/
structure FollowsLong (uninit : TextBuffer) (s : Ini) (l : LongIni) : Prop where
  state : s.state = l.state
  section_ : Written (l.section_.background uninit) s.section_ s.s1 l.section_.text
  variable_ : ∀ v ∈ l.variable_, Written .clear s.variable_ s.s2 v
  /-- Without a text for the name, what is added is not at its start. -/
  lost : l.variable_ = none → s.variable_.first = 0 ∧ 0 < s.s2
  value : s.value = TextBuffer.clear.overlay l.value
  /-- The index for the value is not reset with the text by the brackets, but by `=`. -/
  s3 : l.state = .val → s.s3 = min l.value.length 255
  calls : s.calls = l.calls.map (LongCall.call uninit)
  section_plain : 0 ∉ l.section_.text
  variable_plain : ∀ v ∈ l.variable_, 0 ∉ v
  value_plain : 0 ∉ l.value
  calls_plain : ∀ call ∈ l.calls, call.Plain

/-- Nothing was written. -/
theorem Written.nil : Written bg bg 0 [] := ⟨(TextBuffer.overlay_nil bg).symm, rfl⟩

/-- A text without zeros has none after another character. -/
theorem notMem_append (h0 : 0 ∉ t) (hc : c ≠ 0) : 0 ∉ t ++ [c] := by
  rw [List.mem_append, List.mem_singleton, not_or]
  exact ⟨h0, fun h => hc h.symm⟩

section Add

variable {b : TextBuffer} {i : Nat}

/-- A character is added while there is room, and dropped without it. -/
theorem Written.add (h : Written bg b i t) (c : UInt8) :
    Written bg (if i < 255 then b.put i c else b) (if i < 255 then i + 1 else i) (t ++ [c]) := by
  obtain ⟨rfl, rfl⟩ := h
  split_ifs with hi
  · have hlt : t.length < 255 := by omega
    rw [Nat.min_eq_left (Nat.le_of_lt hlt)]
    refine ⟨TextBuffer.put_overlay hlt, ?_⟩
    rw [List.length_append, List.length_singleton, Nat.min_eq_left hlt]
  · have hge : 255 ≤ t.length := by omega
    refine ⟨(TextBuffer.overlay_append_of_full hge).symm, ?_⟩
    rw [List.length_append, Nat.min_eq_right hge, Nat.min_eq_right (Nat.le_add_right_of_le hge)]

/-- What is written behind the start leaves the first character. -/
theorem TextBuffer.first_put (hi : 0 < i) : (b.put i c).first = b.first := by
  obtain ⟨bytes, hlength⟩ := b
  obtain ⟨j, rfl⟩ := Nat.exists_eq_succ_of_ne_zero (Nat.ne_of_gt hi)
  cases bytes with
  | nil => rfl
  | cons d bytes => rfl

end Add

/-- The texts that are passed start with a `NUL` in both parsers or in none. -/
theorem FollowsLong.nonempty_iff (h : FollowsLong uninit s l) {v : List UInt8} (hv : l.variable_ = some v) :
    (s.section_.first ≠ 0 ∧ s.variable_.first ≠ 0 ∧ s.value.first ≠ 0) ↔
      (l.section_ ≠ .named [] ∧ v ≠ [] ∧ l.value ≠ []) := by
  have hsection : s.section_.first ≠ 0 ↔ l.section_ ≠ .named [] := by
    rw [h.section_.text, TextBuffer.first_overlay_ne_iff h.section_plain]
    cases l.section_ with
    | global t => exact iff_of_true (.inr (by decide : (71 : UInt8) ≠ 0)) (fun h => by cases h)
    | named t => simp [SectionText.text, SectionText.background, TextBuffer.first_clear]
  have hname : s.variable_.first ≠ 0 ↔ v ≠ [] := by
    rw [(h.variable_ v hv).text, TextBuffer.first_clear_overlay_ne_iff (h.variable_plain v hv)]
  have hvalue : s.value.first ≠ 0 ↔ l.value ≠ [] := by
    rw [h.value, TextBuffer.first_clear_overlay_ne_iff h.value_plain]
  exact and_congr hsection (and_congr hname hvalue)

/-- The callback is called by both parsers or by none. -/
theorem FollowsLong.callback (h : FollowsLong uninit s l) : FollowsLong uninit s.callback l.callback := by
  cases hv : l.variable_ with
  | none =>
    -- the lost text starts with a `NUL`, whatever is written behind it
    have hfirst := (h.lost hv).1
    have hs : s.callback = s := if_neg fun hall => hall.2.1 hfirst
    have hl : l.callback = l := by rw [LongIni.callback, hv]
    rw [hs, hl]
    exact h
  | some v =>
    rw [Ini.callback, LongIni.callback, hv]
    dsimp only
    by_cases hcall : l.section_ ≠ .named [] ∧ v ≠ [] ∧ l.value ≠ []
    · rw [if_pos hcall, if_pos ((h.nonempty_iff hv).mpr hcall)]
      refine {
        state := h.state
        section_ := h.section_
        variable_ := fun v' hv' => ?_
        lost := fun h => by cases h
        value := (TextBuffer.overlay_nil _).symm
        s3 := fun _ => rfl
        calls := ?_
        section_plain := h.section_plain
        variable_plain := fun v' hv' => ?_
        value_plain := List.not_mem_nil
        calls_plain := fun call hmem => ?_ }
      · cases hv'
        exact Written.nil
      · change s.calls ++ [⟨s.section_, s.variable_, s.value⟩] = _
        rw [List.map_append, h.calls, h.section_.text, (h.variable_ v hv).text, h.value]
        rfl
      · cases hv'
        exact List.not_mem_nil
      · rcases List.mem_append.mp hmem with hold | hnew
        · exact h.calls_plain call hold
        · cases List.mem_singleton.mp hnew
          exact ⟨h.section_plain, h.variable_plain v hv, h.value_plain⟩
    · rw [if_neg hcall, if_neg fun hall => hcall ((h.nonempty_iff hv).mp hall)]
      exact h

/-- A character is added to the text. -/
theorem SectionText.text_add (t : SectionText) (c : UInt8) : (t.add c).text = t.text ++ [c] := by
  cases t <;> rfl

/-- A character that is added leaves what is behind the text. -/
theorem SectionText.background_add (t : SectionText) (c : UInt8) :
    (t.add c).background uninit = t.background uninit := by
  cases t <;> rfl

/-- A character of a section is put into its buffer while there is room. -/
theorem Ini.add_sec (hstate : s.state = .sec) : s.add c = { s with
    section_ := if s.s1 < 255 then s.section_.put s.s1 c else s.section_
    s1 := if s.s1 < 255 then s.s1 + 1 else s.s1 } := by
  obtain ⟨state⟩ := s
  obtain rfl : state = .sec := hstate
  rw [Ini.add]
  dsimp only
  split <;> rfl

/-- A character of a variable is put into its buffer while there is room. -/
theorem Ini.add_var (hstate : s.state = .var) : s.add c = { s with
    variable_ := if s.s2 < 255 then s.variable_.put s.s2 c else s.variable_
    s2 := if s.s2 < 255 then s.s2 + 1 else s.s2 } := by
  obtain ⟨state⟩ := s
  obtain rfl : state = .var := hstate
  rw [Ini.add]
  dsimp only
  split <;> rfl

/-- A character of a value is put into its buffer while there is room. -/
theorem Ini.add_val (hstate : s.state = .val) : s.add c = { s with
    value := if s.s3 < 255 then s.value.put s.s3 c else s.value
    s3 := if s.s3 < 255 then s.s3 + 1 else s.s3 } := by
  obtain ⟨state⟩ := s
  obtain rfl : state = .val := hstate
  rw [Ini.add]
  dsimp only
  split <;> rfl

/-- A character is added to the text of the state. -/
theorem FollowsLong.add (h : FollowsLong uninit s l) (hc : c ≠ 0) :
    FollowsLong uninit (s.add c) (l.add c) := by
  cases hstate : l.state with
  | none =>
    have hs : s.add c = s := by simp only [Ini.add, h.state, hstate]
    have hl : l.add c = l := by simp only [LongIni.add, hstate]
    rwa [hs, hl]
  | com =>
    have hs : s.add c = s := by simp only [Ini.add, h.state, hstate]
    have hl : l.add c = l := by simp only [LongIni.add, hstate]
    rwa [hs, hl]
  | sec =>
    have hl : l.add c = { l with section_ := l.section_.add c } := by simp only [LongIni.add, hstate]
    have hsection := h.section_.add c
    rw [← SectionText.text_add, ← SectionText.background_add l.section_ c] at hsection
    rw [Ini.add_sec (h.state.trans hstate), hl]
    refine { h with section_ := hsection, section_plain := ?_ }
    rw [SectionText.text_add]
    exact notMem_append h.section_plain hc
  | var =>
    have hl : l.add c = { l with variable_ := l.variable_.map (· ++ [c]) } := by
      simp only [LongIni.add, hstate]
    rw [Ini.add_var (h.state.trans hstate), hl]
    refine { h with
      variable_ := fun v' hv' => ?_
      lost := fun hnone => ?_
      variable_plain := fun v' hv' => ?_ }
    · obtain ⟨v, hv, rfl⟩ := Option.map_eq_some_iff.mp hv'
      exact (h.variable_ v hv).add c
    · obtain ⟨hfirst, hpos⟩ := h.lost (Option.map_eq_none_iff.mp hnone)
      dsimp only
      split_ifs
      · exact ⟨(TextBuffer.first_put hpos).trans hfirst, Nat.succ_pos _⟩
      · exact ⟨hfirst, hpos⟩
    · obtain ⟨v, hv, rfl⟩ := Option.map_eq_some_iff.mp hv'
      exact notMem_append (h.variable_plain v hv) hc
  | val =>
    have hl : l.add c = { l with value := l.value ++ [c] } := by simp only [LongIni.add, hstate]
    have hvalue : Written .clear s.value s.s3 l.value := ⟨h.value, h.s3 hstate⟩
    obtain ⟨htext, hindex⟩ := hvalue.add c
    rw [Ini.add_val (h.state.trans hstate), hl]
    exact { h with
      value := htext
      s3 := fun _ => hindex
      value_plain := notMem_append h.value_plain hc }

/-- The index for the name stays at the start only while the text is known to be empty. -/
theorem FollowsLong.s2_pos (h : FollowsLong uninit s l) (hne : l.variable_ ≠ some []) : 0 < s.s2 := by
  cases hv : l.variable_ with
  | none => exact (h.lost hv).2
  | some v =>
    have hlength := List.length_pos_iff.mpr fun hnil : v = [] => hne (hnil ▸ hv)
    rw [(h.variable_ v hv).index]
    omega

/-- The two parsers take the same step. -/
theorem FollowsLong.char (h : FollowsLong uninit s l) (charCase : IniChars) (c : UInt8) :
    FollowsLong uninit (iniChar charCase s c) (longChar charCase l c) := by
  rw [iniChar, longChar]
  dsimp only
  generalize iniFold charCase c = k
  by_cases hcom : k = 35 ∨ k = 59
  · rw [if_pos hcom, if_pos hcom]
    exact { h with state := rfl, s3 := fun h => by cases h }
  by_cases hopen : k = 91
  · rw [if_neg hcom, if_neg hcom, if_pos hopen, if_pos hopen]
    refine { h with
      state := rfl
      section_ := Written.nil
      variable_ := fun v hv => ?_
      lost := fun hnone => ⟨TextBuffer.first_clear, ?_⟩
      value := (TextBuffer.overlay_nil _).symm
      s3 := fun h => by cases h
      section_plain := List.not_mem_nil
      variable_plain := fun v hv => ?_
      value_plain := List.not_mem_nil }
    -- The index for the name is not reset, so that an empty text stays one only if it is `0`.
    · split at hv
      · next hempty =>
        cases hv
        exact ⟨(TextBuffer.overlay_nil _).symm, (h.variable_ [] hempty).index⟩
      · cases hv
    · refine h.s2_pos fun hempty => ?_
      rw [if_pos hempty] at hnone
      cases hnone
    · split at hv
      · cases hv
        exact List.not_mem_nil
      · cases hv
  by_cases hclose : k = 93
  · rw [if_neg hcom, if_neg hcom, if_neg hopen, if_neg hopen, if_pos hclose, if_pos hclose]
    refine { h with
      state := rfl
      variable_ := fun v hv => ?_
      lost := fun hnone => by cases hnone
      value := (TextBuffer.overlay_nil _).symm
      s3 := fun h => by cases h
      variable_plain := fun v hv => ?_
      value_plain := List.not_mem_nil }
    · cases hv
      exact Written.nil
    · cases hv
      exact List.not_mem_nil
  by_cases hequals : k = 61
  · rw [if_neg hcom, if_neg hcom, if_neg hopen, if_neg hopen, if_neg hclose, if_neg hclose,
      if_pos hequals, if_pos hequals]
    exact { h with
      state := rfl
      value := (TextBuffer.overlay_nil _).symm
      s3 := fun _ => rfl
      value_plain := List.not_mem_nil }
  rw [if_neg hcom, if_neg hcom, if_neg hopen, if_neg hopen, if_neg hclose, if_neg hclose,
    if_neg hequals, if_neg hequals]
  by_cases hfiller : k = 9 ∨ k = 32 ∨ k = 34
  · rwa [if_pos hfiller, if_pos hfiller]
  rw [if_neg hfiller, if_neg hfiller]
  -- only a value is passed on at the end of a line
  by_cases hend : k = 10 ∨ k = 13 ∨ k = 0
  · rw [if_pos hend, if_pos hend, h.state]
    split
    · exact { h.callback with state := rfl, s3 := fun h => by cases h }
    · exact h
  · rw [if_neg hend, if_neg hend]
    exact h.add fun hk => hend (.inr (.inr hk))

/-- The parser and the one without bounds start together. -/
theorem FollowsLong.start (uninit : TextBuffer) : FollowsLong uninit (iniStart uninit) longStart where
  state := rfl
  section_ := Written.nil
  variable_ v hv := by
    cases hv
    exact Written.nil
  lost h := by cases h
  value := (TextBuffer.overlay_nil _).symm
  s3 h := by cases h
  calls := rfl
  section_plain := List.not_mem_nil
  variable_plain v hv := by
    cases hv
    exact List.not_mem_nil
  value_plain := List.not_mem_nil
  calls_plain call hmem := absurd hmem List.not_mem_nil

/-- The parser and the one without bounds stay together over every text. -/
theorem FollowsLong.run (h : FollowsLong uninit s l) (charCase : IniChars) (buffer : List UInt8) :
    FollowsLong uninit (buffer.foldl (iniChar charCase) s) (buffer.foldl (longChar charCase) l) := by
  induction buffer generalizing s l with
  | nil => exact h
  | cons c buffer ih => exact ih (h.char charCase c)

/-- The calls of the parser are those of the unbounded one, with the texts cut off. -/
theorem iniParse_eq_map (uninit : TextBuffer) (charCase : IniChars) (buffer : List UInt8) :
    iniParse uninit charCase buffer = (longParse charCase buffer).map (LongCall.call uninit) :=
  ((FollowsLong.start uninit).run charCase buffer).callback.calls

/-- The texts of a report have no zeros. -/
theorem plain_of_mem_longParse {call : LongCall} {buffer : List UInt8}
    (hmem : call ∈ longParse charCase buffer) : call.Plain :=
  ((FollowsLong.start .clear).run charCase buffer).callback.calls_plain call hmem

/-! ## The main result -/

/-- A report writes inside of the buffers. -/
theorem Ini.lt_of_mem_callbackWrites {i : Nat} (hi : i ∈ s.callbackWrites) : i < 255 := by
  rw [Ini.callbackWrites] at hi
  split at hi
  · exact List.mem_range.mp hi
  · exact absurd hi List.not_mem_nil

/-- A character that is added is written inside of the buffers. -/
theorem Ini.lt_of_mem_addWrites {i : Nat} (hi : i ∈ s.addWrites) : i < 255 := by
  rw [Ini.addWrites] at hi
  split at hi
  case h_1 => exact absurd hi List.not_mem_nil
  case h_2 => exact absurd hi List.not_mem_nil
  all_goals
    split at hi
    · next hlt =>
      rw [List.mem_singleton.mp hi]
      exact hlt
    · exact absurd hi List.not_mem_nil

/-- Every character writes inside of the buffers. -/
theorem lt_of_mem_iniCharWrites {i : Nat} (hi : i ∈ iniCharWrites charCase s c) : i < 255 := by
  rw [iniCharWrites] at hi
  split_ifs at hi
  · exact absurd hi List.not_mem_nil
  · exact List.mem_range.mp hi
  · exact absurd hi List.not_mem_nil
  · exact Ini.lt_of_mem_callbackWrites hi
  · exact absurd hi List.not_mem_nil
  · exact Ini.lt_of_mem_addWrites hi

/-- Every write is guarded, or clears a text. -/
theorem lt_of_mem_iniLoopWrites {i : Nat} {buffer : List UInt8}
    (hi : i ∈ iniLoopWrites charCase s buffer) : i < 255 := by
  induction buffer generalizing s with
  | nil => exact Ini.lt_of_mem_callbackWrites hi
  | cons c buffer ih =>
    rcases List.mem_append.mp hi with hnow | hlater
    · exact lt_of_mem_iniCharWrites hnow
    · exact ih hlater

/-- The parser writes inside of the buffers. -/
theorem lt_of_mem_iniParseWrites {i : Nat} {buffer : List UInt8}
    (hi : i ∈ iniParseWrites uninit charCase buffer) : i < 255 := by
  rw [iniParseWrites, List.mem_append, List.mem_append, List.mem_range, List.mem_range] at hi
  rcases hi with (hi | hi) | hi
  · exact hi
  · exact Nat.lt_trans hi (by decide)
  · exact lt_of_mem_iniLoopWrites hi

/-- The strings of a call are sure to end within their texts if these were not cut off. -/
theorem LongCall.Plain.forall_hasStrings_iff {call : LongCall} (h : call.Plain) :
    (∀ uninit, (call.call uninit).HasStrings) ↔ call.Fits := by
  have hsection : (∀ uninit, ((call.section_.background uninit).overlay call.section_.text).string.isSome) ↔
      call.section_.Fits := by
    have hplain := h.section_
    cases hs : call.section_ with
    | global t =>
      rw [hs] at hplain
      exact TextBuffer.forall_string_global_iff hplain
    | named t =>
      rw [hs] at hplain
      have : Nonempty TextBuffer := ⟨.clear⟩
      exact (forall_const _).trans (TextBuffer.string_clear_isSome_iff hplain)
  rw [LongCall.Fits, ← hsection, ← TextBuffer.string_clear_isSome_iff h.variable_,
    ← TextBuffer.string_clear_isSome_iff h.value]
  constructor
  · intro hall
    exact ⟨fun uninit => (hall uninit).1, (hall .clear).2.1, (hall .clear).2.2⟩
  · rintro ⟨hsec, hvariable, hvalue⟩ uninit
    exact ⟨hsec uninit, hvariable, hvalue⟩

/-- Whatever `section` holds before it is written: every write of `ini_parse` is inside its text, and every
string that is passed to the callback ends inside its own, exactly when no text of the unbounded parser is
cut off. -/
theorem iniParse_textsStayInside_iff (charCase : IniChars) (buffer : List UInt8) :
    (∀ uninit, TextsStayInside uninit charCase buffer) ↔ ∀ call ∈ longParse charCase buffer, call.Fits := by
  constructor
  · intro hall call hmem
    rw [← (plain_of_mem_longParse hmem).forall_hasStrings_iff]
    intro uninit
    refine (hall uninit).2 _ ?_
    rw [iniParse_eq_map]
    exact List.mem_map_of_mem hmem
  · intro hfits uninit
    refine ⟨fun i hi => lt_of_mem_iniParseWrites hi, fun call hmem => ?_⟩
    rw [iniParse_eq_map] at hmem
    obtain ⟨long, hlong, rfl⟩ := List.mem_map.mp hmem
    exact (plain_of_mem_longParse hlong).forall_hasStrings_iff.mpr (hfits long hlong) uninit

/-- `[s]x=v…v` with a value of 255 characters. -/
def longValue : List UInt8 := [91, 115, 93, 120, 61] ++ List.replicate 255 118

/-- `globalx]x=v`: the name of the section is written over the `NUL` of `GLOBAL`. -/
def longGlobal : List UInt8 := [103, 108, 111, 98, 97, 108, 120, 93, 120, 61, 118]

/-- A value of 255 characters has no `NUL`, and a first line of seven characters leaves none behind
`GLOBAL`. -/
theorem not_textsStayInside :
    ¬(∀ uninit, TextsStayInside uninit .natural longValue) ∧
      ¬∀ uninit, TextsStayInside uninit .natural longGlobal := by
  constructor
  · intro hall
    exact absurd (hall .clear).2 (by
      simp only [IniCall.HasStrings]
      decide +kernel)
  · intro hall
    exact absurd (hall ⟨List.replicate 255 1, List.length_replicate⟩).2 (by
      simp only [IniCall.HasStrings]
      decide +kernel)

end DVP.Sosal
