import DVP.Sosal.Ini.Documents

/-!
# Parsing documents

Between two lines of a document the parser is idle: the texts for a name and a value are clear, so
nothing of the last line is left (`Idle`), and within a section it has the name of the section
(`Named`). Each kind of line has one lemma for what it makes of such a state, and
`iniParse_document` is the induction over the lines.
-/

namespace DVP.Sosal

variable {charCase : IniChars} {c : UInt8} {s : Ini} {t text : List UInt8} {name : IniToken}

/-! ## Texts -/

namespace TextBuffer

/-- The text with a string in it, and zeros behind. -/
def ofText (t : List UInt8) : TextBuffer :=
  ⟨(t ++ List.replicate 255 0).take 255, by
    rw [List.length_take, List.length_append, List.length_replicate]
    omega⟩

/-- A buffer is its bytes. -/
theorem ext_bytes {b b' : TextBuffer} (h : b.bytes = b'.bytes) : b = b' := by
  cases b
  cases b'
  congr

/-- A text is followed by zeros. -/
theorem bytes_ofText (ht : t.length ≤ 255) :
    (ofText t).bytes = t ++ List.replicate (255 - t.length) 0 := by
  show (t ++ List.replicate 255 0).take 255 = _
  rw [List.take_append, List.take_of_length_le ht, List.take_replicate,
    Nat.min_eq_left (Nat.sub_le _ _)]

/-- An empty buffer holds the empty text. -/
theorem clear_eq : clear = ofText [] := by
  apply ext_bytes
  rw [bytes_ofText (Nat.zero_le _)]
  rfl

/-- A character is added at the end of the string. -/
theorem put_ofText (ht : t.length < 255) : (ofText t).put t.length c = ofText (t ++ [c]) := by
  apply ext_bytes
  show (ofText t).bytes.set t.length c = (ofText (t ++ [c])).bytes
  obtain ⟨k, hk⟩ : ∃ k, 255 - t.length = k + 1 := ⟨254 - t.length, by omega⟩
  have hk' : 255 - (t ++ [c]).length = k := by
    rw [List.length_append, List.length_singleton]
    omega
  rw [bytes_ofText (Nat.le_of_lt ht), hk, bytes_ofText (by rw [List.length_append]; exact ht), hk', List.replicate_succ,
    List.set_append_right _ _ (Nat.le_refl _), Nat.sub_self, List.set_cons_zero, List.append_assoc,
    List.singleton_append]

/-- An empty buffer starts with a zero. -/
theorem first_clear : clear.first = 0 := rfl

/-- A text that is not empty does not start with a zero. -/
theorem first_ofText (hne : t ≠ []) (h0 : 0 ∉ t) : (ofText t).first ≠ 0 := by
  cases t with
  | nil => exact absurd rfl hne
  | cons c t =>
    rintro hzero
    apply h0
    have hc : c = 0 := hzero
    rw [hc]
    exact List.mem_cons_self

/-- A string that is shorter than the text ends within it. -/
theorem string_ofText (ht : t.length ≤ 254) (h0 : 0 ∉ t) : (ofText t).string = some t := by
  obtain ⟨k, hk⟩ : ∃ k, 255 - t.length = k + 1 := ⟨254 - t.length, by omega⟩
  have hbytes : (ofText t).bytes = t ++ 0 :: List.replicate k 0 := by
    rw [bytes_ofText (by omega), hk, List.replicate_succ]
  rw [string, hbytes, if_pos (by simp), List.takeWhile_append_of_pos]
  · simp
  · intro c hc
    have hne : c ≠ 0 := by
      rintro rfl
      exact h0 hc
    simpa using hne

end TextBuffer

open TextBuffer (ofText)

namespace IniToken

/-- A token in upper or lower case is not empty. -/
theorem fold_ne (charCase : IniChars) (t : IniToken) : t.fold charCase ≠ [] := by
  simpa [fold] using t.ne

/-- A token in upper or lower case has no zeros. -/
theorem zero_notMem_fold (charCase : IniChars) (t : IniToken) : 0 ∉ t.fold charCase := by
  intro h0
  obtain ⟨c, hc, hzero⟩ := List.mem_map.mp h0
  apply iniFold_plain charCase (t.plain c hc)
  rw [hzero]
  decide

/-- A token has as many characters in upper or lower case. -/
theorem length_fold (charCase : IniChars) (t : IniToken) :
    (t.fold charCase).length = t.chars.length := List.length_map _

/-- A token in a buffer is a string. -/
theorem string_fold (charCase : IniChars) (t : IniToken) :
    (ofText (t.fold charCase)).string = some (t.fold charCase) :=
  TextBuffer.string_ofText (Nat.le_trans (Nat.le_of_eq (length_fold charCase t)) t.length_le)
    (zero_notMem_fold charCase t)

/-- A token in a buffer does not start with a zero. -/
theorem first_fold (charCase : IniChars) (t : IniToken) : (ofText (t.fold charCase)).first ≠ 0 :=
  TextBuffer.first_ofText (fold_ne charCase t) (zero_notMem_fold charCase t)

end IniToken

/-! ## Characters -/

/-- An opening bracket starts a section and clears all three texts. -/
theorem iniChar_open : iniChar charCase s 91 =
    { s with state := .sec, s1 := 0, section_ := .clear, variable_ := .clear, value := .clear } := by
  cases charCase <;> rfl

/-- A closing bracket starts a variable. -/
theorem iniChar_close : iniChar charCase s 93 =
    { s with state := .var, s2 := 0, variable_ := .clear, value := .clear } := by
  cases charCase <;> rfl

/-- An equals sign starts a value. -/
theorem iniChar_equals :
    iniChar charCase s 61 = { s with state := .val, s3 := 0, value := .clear } := by
  cases charCase <;> rfl

/-- Blanks and tabs change nothing. -/
theorem foldl_filler (f : Filler) : f.chars.foldl (iniChar charCase) s = s := by
  obtain ⟨cs, hall⟩ := f
  show cs.foldl (iniChar charCase) s = s
  induction cs with
  | nil => rfl
  | cons c cs ih =>
    rw [List.foldl_cons, iniChar_filler (hall c List.mem_cons_self)]
    exact ih fun c hc => hall c (List.mem_cons_of_mem _ hc)

/-- Line ends change nothing but after a value. -/
theorem foldl_lineEnd (hs : s.state ≠ .val) {cs : List UInt8} (hall : ∀ c ∈ cs, IsLineEnd c) :
    cs.foldl (iniChar charCase) s = s := by
  induction cs with
  | nil => rfl
  | cons c cs ih =>
    rw [List.foldl_cons, iniChar_lineEnd (hall c List.mem_cons_self), if_neg hs]
    exact ih fun c hc => hall c (List.mem_cons_of_mem _ hc)

/-- Blank lines change nothing, but in a value. -/
theorem foldl_blanks (hs : s.state ≠ .val) (blanks : List BlankLine) :
    (blanks.flatMap BlankLine.text).foldl (iniChar charCase) s = s := by
  induction blanks with
  | nil => rfl
  | cons b blanks ih =>
    rw [List.flatMap_cons, List.foldl_append, BlankLine.text, List.foldl_append, foldl_filler,
      foldl_lineEnd hs b.lineEnd.ends]
    exact ih

/-- After a value the first character of the line end calls the callback. -/
theorem foldl_lineEnd_val (hs : s.state = .val) (e : LineEnd) :
    e.chars.foldl (iniChar charCase) s = { s.callback with state := .var } := by
  obtain ⟨c, cs, hcs⟩ := List.exists_cons_of_ne_nil e.ne
  have hall := e.ends
  rw [hcs] at hall ⊢
  -- the callback leaves the state of names, in which other line ends do nothing
  rw [List.foldl_cons, iniChar_lineEnd (hall c List.mem_cons_self), if_pos hs]
  exact foldl_lineEnd (by simp) fun c hc => hall c (List.mem_cons_of_mem _ hc)

/-- A token goes to the text of the state; `put` is the state with that text and its index. -/
theorem foldl_plain (charCase : IniChars) (put : TextBuffer → Nat → Ini)
    (hadd : ∀ b i c, i < 255 → (put b i).add c = put (b.put i c) (i + 1)) {cs : List UInt8}
    (hplain : ∀ c ∈ cs, c ∉ iniSpecial) (hlength : t.length + cs.length ≤ 255) :
    cs.foldl (iniChar charCase) (put (ofText t) t.length) =
      put (ofText (t ++ cs.map (iniFold charCase))) (t.length + cs.length) := by
  -- by induction on the characters, for any text before them
  induction cs generalizing t with
  | nil => simp
  | cons c cs ih =>
    rw [List.length_cons] at hlength
    have hstep : iniChar charCase (put (ofText t) t.length) c =
        put (ofText (t ++ [iniFold charCase c])) (t ++ [iniFold charCase c]).length := by
      rw [iniChar_plain (hplain c List.mem_cons_self), hadd _ _ _ (by omega),
        TextBuffer.put_ofText (by omega), List.length_append, List.length_singleton]
    rw [List.foldl_cons, hstep, ih (fun c hc => hplain c (List.mem_cons_of_mem _ hc))
      (by rw [List.length_append, List.length_singleton]; omega)]
    simp [Nat.add_assoc, Nat.add_comm 1]

/-- The characters of a token fill the text that is read. -/
theorem foldl_token (charCase : IniChars) (put : TextBuffer → Nat → Ini)
    (hadd : ∀ b i c, i < 255 → (put b i).add c = put (b.put i c) (i + 1)) (t : IniToken) :
    t.chars.foldl (iniChar charCase) (put .clear 0) =
      put (ofText (t.fold charCase)) t.chars.length := by
  have htoken := foldl_plain (t := []) charCase put hadd t.plain
    (by have := t.length_le; simp; omega)
  rw [TextBuffer.clear_eq]
  simpa [IniToken.fold] using htoken

/-! ## Lines -/

/-- A header clears the texts, and leaves the name of the section in its own. -/
theorem foldl_header (h : Header) : h.text.foldl (iniChar charCase) s =
    { s with
      state := .var
      section_ := ofText (h.name.fold charCase)
      s1 := h.name.chars.length
      variable_ := .clear
      s2 := 0
      value := .clear } := by
  have hname := foldl_token charCase
    (fun b i => { s with
      state := .sec, section_ := b, s1 := i, variable_ := .clear, value := .clear })
    (fun b i c hi => by simp [Ini.add, hi]) h.name
  simp only [Header.text, List.foldl_append, List.foldl_cons, foldl_filler, iniChar_open, hname,
    iniChar_close]

/-- A setting leaves its name and its value in the texts, if the one for the name was clear. -/
theorem foldl_setting (charCase : IniChars) (t : Setting) (hstate : s.state = .var)
    (hvariable : s.variable_ = .clear) (hs2 : s.s2 = 0) : t.text.foldl (iniChar charCase) s =
    { s with
      state := .val
      variable_ := ofText (t.name.fold charCase)
      s2 := t.name.chars.length
      value := ofText (t.value.fold charCase)
      s3 := t.value.chars.length } := by
  -- what is known of the texts, in the form of the state that takes the name
  have hs : s = { s with state := .var, variable_ := .clear, s2 := 0 } := by
    rw [← hstate, ← hvariable, ← hs2]
  have hname := foldl_token charCase
    (fun b i => { s with state := .var, variable_ := b, s2 := i })
    (fun b i c hi => by simp [Ini.add, hi]) t.name
  have hvalue := foldl_token charCase
    (fun b i => { s with
      state := .val
      variable_ := ofText (t.name.fold charCase)
      s2 := t.name.chars.length
      value := b
      s3 := i })
    (fun b i c hi => by simp [Ini.add, hi]) t.value
  simp only [Setting.text, List.foldl_append, List.foldl_cons, foldl_filler]
  rw [hs]
  simp only [hname, iniChar_equals, hvalue]

/-! ## Documents -/

/-- The parser between two lines. -/
structure Idle (s : Ini) : Prop where
  state : s.state ≠ .val
  variable_ : s.variable_ = .clear
  value : s.value = .clear

/-- The parser between two lines of the section with a name. -/
structure Named (charCase : IniChars) (s : Ini) (name : IniToken) : Prop where
  state : s.state = .var
  section_ : s.section_ = ofText (name.fold charCase)
  s2 : s.s2 = 0

/-- The strings of the settings of lines that follow a header with the name given. -/
def lineStrings (charCase : IniChars) : IniToken → List IniLine → List IniStrings
  | _, [] => []
  | _, .header h :: ls => lineStrings charCase h.name ls
  | name, .setting t :: ls => t.strings charCase name :: lineStrings charCase name ls

/-- Without a name the callback is not called. -/
theorem Idle.callback (h : Idle s) : s.callback = s := by
  have hfirst : s.variable_.first = 0 := by rw [h.variable_, TextBuffer.first_clear]
  simp [Ini.callback, hfirst]

/-- The state after a setting. -/
def Ini.withSetting (s : Ini) (charCase : IniChars) (t : Setting) : Ini :=
  { s with
    state := .val
    variable_ := ofText (t.name.fold charCase)
    s2 := t.name.chars.length
    value := ofText (t.value.fold charCase)
    s3 := t.value.chars.length }

/-- The state after a call of the callback at the end of a line. -/
def Ini.withCall (s : Ini) (c : IniCall) : Ini :=
  { s with
    state := .var
    variable_ := .clear
    s2 := 0
    value := .clear
    s3 := 0
    calls := s.calls ++ [c] }

/-- The call for a setting. -/
def settingCall (charCase : IniChars) (name : IniToken) (t : Setting) : IniCall :=
  ⟨ofText (name.fold charCase), ofText (t.name.fold charCase), ofText (t.value.fold charCase)⟩

/-- After a setting the callback is called with it, and the texts are cleared. -/
theorem Named.callback (h : Named charCase s name) (t : Setting) :
    { (s.withSetting charCase t).callback with state := .var } =
      s.withCall (settingCall charCase name t) := by
  have hsection := name.first_fold charCase
  have hname := t.name.first_fold charCase
  have hvalue := t.value.first_fold charCase
  simp [Ini.callback, Ini.withSetting, h.section_, hsection, hname, hvalue, Ini.withCall, settingCall]

/-- A setting is reported with the name of its section. -/
theorem Named.callback_calls (h : Named charCase s name) (t : Setting) :
    (s.withSetting charCase t).callback.calls = s.calls ++ [settingCall charCase name t] :=
  congrArg Ini.calls (h.callback t)

/-- The report of a setting has its variable and its value. -/
theorem strings_settingCall (t : Setting) :
    (settingCall charCase name t).strings = t.strings charCase name := by
  simp [settingCall, IniCall.strings, Setting.strings, IniToken.string_fold]

/-- The lines of a document, from a state between two lines. -/
theorem prints_run {ls : List IniLine} (h : Prints ls text) (hidle : Idle s)
    (hnamed : ∀ t ls', ls = .setting t :: ls' → Named charCase s name) :
    (text.foldl (iniChar charCase) s).callback.calls.map IniCall.strings =
      s.calls.map IniCall.strings ++ lineStrings charCase name ls := by
  induction h generalizing s name with
  | nil f => rw [foldl_filler, hidle.callback, lineStrings, List.append_nil]
  -- the last line has no end, and its setting is called with after the loop
  | last l =>
    cases l with
    | header h =>
      rw [IniLine.text, foldl_header, Idle.callback ⟨by simp, rfl, rfl⟩]
      simp [lineStrings]
    | setting t =>
      have hname := hnamed t [] rfl
      have hset := foldl_setting charCase t hname.state hidle.variable_ hname.s2
      rw [IniLine.text, hset, ← Ini.withSetting, hname.callback_calls, List.map_append,
        List.map_singleton, strings_settingCall]
      rfl
  -- a header names the section of what follows, a setting leaves it as it was
  | line l e blanks hrest ih =>
    simp only [List.foldl_append]
    cases l with
    | header h =>
      have hstate : ({ s with
          state := .var
          section_ := ofText (h.name.fold charCase)
          s1 := h.name.chars.length
          variable_ := .clear
          s2 := 0
          value := .clear } : Ini).state ≠ .val := by simp
      rw [IniLine.text, foldl_header, foldl_lineEnd hstate e.ends, foldl_blanks hstate, lineStrings]
      exact ih ⟨hstate, rfl, rfl⟩ fun _ _ _ => ⟨rfl, rfl, rfl⟩
    | setting t =>
      have hname := hnamed t _ rfl
      have hset := foldl_setting charCase t hname.state hidle.variable_ hname.s2
      have hidle' : Idle (s.withCall (settingCall charCase name t)) :=
        ⟨by simp [Ini.withCall], rfl, rfl⟩
      rw [IniLine.text, hset, foldl_lineEnd_val rfl, ← Ini.withSetting, hname.callback,
        foldl_blanks hidle'.state, ih hidle' fun _ _ _ => ⟨rfl, hname.section_, rfl⟩]
      simp [Ini.withCall, lineStrings, strings_settingCall]

/-- The settings of a section are reported one after the other. -/
theorem lineStrings_settings {settings : List Setting} {ls : List IniLine} :
    lineStrings charCase name (settings.map .setting ++ ls) =
      settings.map (Setting.strings charCase name) ++ lineStrings charCase name ls := by
  induction settings with
  | nil => rfl
  | cons t settings ih =>
    rw [List.map_cons, List.cons_append, lineStrings, ih]
    rfl

/-- The sections are reported one after the other. -/
theorem lineStrings_sections {sections : List IniSection} :
    lineStrings charCase name (sections.flatMap IniSection.lines) =
      documentStrings charCase sections := by
  induction sections generalizing name with
  | nil => rfl
  | cons s sections ih =>
    rw [List.flatMap_cons, IniSection.lines, List.cons_append, lineStrings, lineStrings_settings, ih]
    rfl

/-- The tokens of the document of the unit test. -/
def tokenSection1 : IniToken :=
  ⟨[83, 69, 67, 84, 73, 79, 78, 49], by decide, by decide,
    List.all_iff_forall_prop.mp (by decide)⟩

/-- `VARIABLE`. -/
def tokenVariable : IniToken :=
  ⟨[86, 65, 82, 73, 65, 66, 76, 69], by decide, by decide,
    List.all_iff_forall_prop.mp (by decide)⟩

/-- `VALUE`. -/
def tokenValue : IniToken := ⟨[86, 65, 76, 85, 69], by decide, by decide,
    List.all_iff_forall_prop.mp (by decide)⟩

/-- `SECTION2`. -/
def tokenSection2 : IniToken :=
  ⟨[115, 101, 99, 116, 105, 111, 110, 50], by decide, by decide,
    List.all_iff_forall_prop.mp (by decide)⟩

/-- `BOB`. -/
def tokenBob : IniToken := ⟨[66, 79, 66], by decide, by decide,
    List.all_iff_forall_prop.mp (by decide)⟩

/-- `uncle`. -/
def tokenUncle : IniToken := ⟨[117, 110, 99, 108, 101], by decide, by decide,
    List.all_iff_forall_prop.mp (by decide)⟩

/-- Nothing between tokens. -/
def noFiller : Filler := ⟨[], List.all_iff_forall_prop.mp (by decide)⟩

/-- A header without filler. -/
def headerOf (name : IniToken) : Header := ⟨noFiller, noFiller, name, noFiller, noFiller⟩

/-- `VARIABLE =` with a tab and a quoted value. -/
def settingVariable : Setting :=
  ⟨noFiller, tokenVariable, ⟨[32], List.all_iff_forall_prop.mp (by decide)⟩,
    ⟨[9, 34], List.all_iff_forall_prop.mp (by decide)⟩, tokenValue,
    ⟨[34], List.all_iff_forall_prop.mp (by decide)⟩⟩

/-- `BOB=uncle`. -/
def settingBob : Setting := ⟨noFiller, tokenBob, noFiller, noFiller, tokenUncle, noFiller⟩

/-- The sections of the unit test. -/
def unittestSections : List IniSection :=
  [⟨headerOf tokenSection1, [settingVariable]⟩, ⟨headerOf tokenSection2, [settingBob]⟩]

/-- The document of the unit test without its comment, its last line without an end. -/
def unittestText : List UInt8 :=
  (headerOf tokenSection1).text ++ [10, 13] ++ settingVariable.text ++ [10, 13] ++
    (headerOf tokenSection2).text ++ [10, 13] ++ settingBob.text

/-- The text of the unit test is a document with these sections. -/
theorem printsDocument_unittest : PrintsDocument unittestSections unittestText := by
  have hend : ∀ c ∈ ([10, 13] : List UInt8), IsLineEnd c :=
    List.all_iff_forall_prop.mp (by decide)
  exact ⟨[], _, .line _ ⟨_, by decide, hend⟩ [] (.line _ ⟨_, by decide, hend⟩ []
    (.line _ ⟨_, by decide, hend⟩ [] (.last (.setting settingBob)))), rfl⟩

end DVP.Sosal
