import DVP.Sosal.Ini.Parse

/-!
# Lines

The lines an INI file is made of, and what each of them does to the parser. At the end of a line the
parser keeps its state, and the text for a name that was not used (`Between`). So a name is added to
what earlier lines left, but not after a comment: the state of a comment lasts until the next `=` or
bracket.
-/

namespace DVP.Sosal

open TextBuffer (ofText)

/-- A comment: `#` or `;`, and any characters that are not a bracket, `=` or a line end. -/
structure Comment where
  mark : UInt8
  chars : List UInt8
  mark_eq : mark = 35 ∨ mark = 59
  chars_notMem : ∀ c ∈ chars, c ∉ ([91, 93, 61, 10, 13, 0] : List UInt8)

/-- The text of a comment. -/
def Comment.text (c : Comment) : List UInt8 := c.mark :: c.chars

/-- A line `name=`, without its end. -/
structure EmptyValue where
  before : Filler
  name : IniToken
  afterName : Filler
  after : Filler

/-- The text of a setting without a value. -/
def EmptyValue.text (e : EmptyValue) : List UInt8 :=
  e.before.chars ++ e.name.chars ++ e.afterName.chars ++ 61 :: e.after.chars

/-- A line of plain characters without `=`. -/
structure BareLine where
  before : Filler
  chars : List UInt8
  after : Filler
  length_le : chars.length ≤ 254
  plain : ∀ c ∈ chars, c ∉ iniSpecial

/-- The text of a line with a name alone. -/
def BareLine.text (b : BareLine) : List UInt8 := b.before.chars ++ b.chars ++ b.after.chars

/-- The lines of a file. -/
inductive FileLine where
  | header (h : Header)
  | setting (t : Setting)
  | comment (c : Comment)
  | emptyValue (e : EmptyValue)
  | bare (b : BareLine)

/-- The text of a line. -/
def FileLine.text : FileLine → List UInt8
  | .header h => h.text
  | .setting t => t.text
  | .comment c => c.text
  | .emptyValue e => e.text
  | .bare b => b.text

/-- A line with its end. -/
structure FullLine where
  line : FileLine
  lineEnd : LineEnd

/-- The text of a line with its end. -/
def FullLine.text (l : FullLine) : List UInt8 := l.line.text ++ l.lineEnd.chars

/-- The characters of a file. -/
def fileText (ls : List FullLine) : List UInt8 := ls.flatMap FullLine.text

variable {charCase : IniChars} {c : UInt8} {s : Ini} {t t' v cs : List UInt8}

/-- The parser after some more lines. -/
def Ini.lines (s : Ini) (charCase : IniChars) (ls : List FullLine) : Ini :=
  (fileText ls).foldl (iniChar charCase) s

/-- No lines change nothing. -/
theorem Ini.lines_nil : s.lines charCase [] = s := rfl

/-- Two runs of lines are read one after the other. -/
theorem Ini.lines_append {ls ls' : List FullLine} :
    s.lines charCase (ls ++ ls') = (s.lines charCase ls).lines charCase ls' := by
  rw [lines, fileText, List.flatMap_append, List.foldl_append]
  rfl

/-- The first line is read first. -/
theorem Ini.lines_cons {l : FullLine} {ls : List FullLine} :
    s.lines charCase (l :: ls) = (s.lines charCase [l]).lines charCase ls := by
  rw [← lines_append, List.singleton_append]

/-- A line is its text and its end. -/
theorem Ini.lines_singleton {l : FullLine} : s.lines charCase [l] =
    l.lineEnd.chars.foldl (iniChar charCase) (l.line.text.foldl (iniChar charCase) s) := by
  rw [lines, fileText, List.flatMap_singleton, FullLine.text, List.foldl_append]

/-! ## Texts that are full -/

namespace TextBuffer

/-- A text keeps the first 255 characters of a longer one. -/
theorem ofText_append_of_full (h : 255 ≤ t.length) : ofText (t ++ t') = ofText t := by
  apply ext_bytes
  show ((t ++ t') ++ List.replicate 255 0).take 255 = (t ++ List.replicate 255 0).take 255
  rw [List.append_assoc, List.take_append_of_le_length h, List.take_append_of_le_length h]

/-- A text without room for the zero does not hold a string. -/
theorem string_ofText_full (ht : 255 ≤ t.length) (h0 : 0 ∉ t) : (ofText t).string = none := by
  have hbytes : (ofText t).bytes = t.take 255 := by
    show (t ++ List.replicate 255 0).take 255 = _
    rw [List.take_append_of_le_length ht]
  rw [string, if_neg]
  intro hzero
  rw [hbytes] at hzero
  exact h0 (List.mem_of_mem_take hzero)

/-- A text that holds a string holds another one than a text that got more characters. -/
theorem string_ne_of_length (hlength : t.length < t'.length) (h0 : 0 ∉ t) (h0' : 0 ∉ t')
    (hsome : (ofText t).string.isSome) : (ofText t).string ≠ (ofText t').string := by
  have ht : t.length ≤ 254 := by
    by_contra hfull
    rw [string_ofText_full (by omega) h0] at hsome
    cases hsome
  rw [string_ofText ht h0]
  -- the longer text holds its own string, or none
  by_cases ht' : t'.length ≤ 254
  · rw [string_ofText ht' h0']
    intro heq
    rw [Option.some.inj heq] at hlength
    exact Nat.lt_irrefl _ hlength
  · rw [string_ofText_full (by omega) h0']
    exact Option.some_ne_none t

end TextBuffer

/-! ## Names -/

/-- The parser between two lines, with `v` in the text for a name. -/
structure Between (s : Ini) (v : List UInt8) : Prop where
  state : s.state = .sec ∨ s.state = .var ∨ s.state = .com
  section_ : s.section_.first ≠ 0
  variable_ : s.variable_ = ofText v
  s2 : s.s2 = min v.length 255
  zero_notMem : 0 ∉ v

/-- Between lines no value is read. -/
theorem Between.state_ne (h : Between s v) : s.state ≠ .val := by
  rcases h.state with hs | hs | hs <;> rw [hs] <;> decide

/-- The text for a name after the plain characters of a line. -/
def Ini.nameAfter (s : Ini) (charCase : IniChars) (v cs : List UInt8) : List UInt8 :=
  if s.state = .var then v ++ cs.map (iniFold charCase) else v

/-- What plain characters leave as it was. -/
structure SameValue (s s' : Ini) : Prop where
  state : s'.state = s.state
  value : s'.value = s.value
  calls : s'.calls = s.calls
  section_ : s.state ≠ .sec → s'.section_ = s.section_

/-- A plain character is added to the name, if the state is the one of names. -/
theorem Between.plain (h : Between s v) (charCase : IniChars) (hc : c ∉ iniSpecial) :
    Between (iniChar charCase s c) (s.nameAfter charCase v [c]) ∧
      SameValue s (iniChar charCase s c) := by
  have hne : iniFold charCase c ≠ 0 := by
    intro hzero
    apply iniFold_plain charCase hc
    rw [hzero]
    decide
  rw [iniChar_plain hc, Ini.nameAfter]
  rcases h.state with hs | hs | hs
  · -- the name of a section, whose first character may be replaced
    rw [if_neg (by rw [hs]; decide)]
    simp only [Ini.add, hs]
    split
    · refine ⟨⟨.inl rfl, ?_, h.variable_, h.s2, h.zero_notMem⟩, hs.symm, rfl, rfl,
        fun hsec => absurd hs hsec⟩
      obtain ⟨⟨bytes, hlength⟩, hfirst⟩ : ∃ b, b = s.section_ := ⟨_, rfl⟩
      have hold := h.section_
      rw [← hfirst] at hold ⊢
      cases bytes with
      | nil => cases hlength
      | cons b bytes => cases s.s1 <;> assumption
    · exact ⟨h, rfl, rfl, rfl, fun _ => rfl⟩
  -- a name, which takes the character if it has room
  · rw [if_pos hs, List.map_singleton]
    simp only [Ini.add, hs]
    have h0 : 0 ∉ v ++ [iniFold charCase c] := by
      rw [List.mem_append, List.mem_singleton]
      exact not_or.mpr ⟨h.zero_notMem, hne.symm⟩
    have hs2 := h.s2
    split
    · refine ⟨⟨.inr (.inl rfl), h.section_, ?_, ?_, h0⟩, hs.symm, rfl, rfl, fun _ => rfl⟩
      · show s.variable_.put s.s2 _ = _
        rw [h.variable_, show s.s2 = v.length by omega, TextBuffer.put_ofText (by omega)]
      · show s.s2 + 1 = _
        rw [List.length_append, List.length_singleton]
        omega
    · -- the text is full
      refine ⟨⟨h.state, h.section_, ?_, ?_, h0⟩, rfl, rfl, rfl, fun _ => rfl⟩
      · rw [TextBuffer.ofText_append_of_full (by omega)]
        exact h.variable_
      · rw [List.length_append, List.length_singleton]
        omega
  -- a comment
  · rw [if_neg (by rw [hs]; decide)]
    simp only [Ini.add, hs]
    exact ⟨h, rfl, rfl, rfl, fun _ => rfl⟩

/-- Other characters go to the name of a variable at most. -/
theorem Between.name (h : Between s v) (charCase : IniChars) (hcs : ∀ c ∈ cs, c ∉ iniSpecial) :
    Between (cs.foldl (iniChar charCase) s) (s.nameAfter charCase v cs) ∧
      SameValue s (cs.foldl (iniChar charCase) s) := by
  -- by induction on the characters, each of which keeps the state that decides on the next one
  induction cs generalizing s v with
  | nil =>
    simp only [List.foldl_nil, Ini.nameAfter, List.map_nil, List.append_nil, ite_self]
    exact ⟨h, rfl, rfl, rfl, fun _ => rfl⟩
  | cons c cs ih =>
    obtain ⟨hc, hsame⟩ := h.plain charCase (hcs c List.mem_cons_self)
    obtain ⟨hrest, hsame'⟩ := ih hc fun c hc => hcs c (List.mem_cons_of_mem _ hc)
    rw [List.foldl_cons]
    refine ⟨?_, hsame'.state.trans hsame.state, hsame'.value.trans hsame.value,
      hsame'.calls.trans hsame.calls, fun hsec => ?_⟩
    · have hname : (iniChar charCase s c).nameAfter charCase (s.nameAfter charCase v [c]) cs =
          s.nameAfter charCase v (c :: cs) := by
        simp only [Ini.nameAfter, hsame.state]
        split <;> simp
      rwa [hname] at hrest
    · rw [hsame'.section_ (by rwa [hsame.state]), hsame.section_ hsec]

/-! ## One line each -/

variable {l : FullLine}

/-- A header leaves its section and an empty variable. -/
theorem lines_header {h : Header} {e : LineEnd} : s.lines charCase [⟨.header h, e⟩] =
    { s with
      state := .var
      section_ := ofText (h.name.fold charCase)
      s1 := h.name.chars.length
      variable_ := .clear
      s2 := 0
      value := .clear } := by
  rw [Ini.lines_singleton, FileLine.text, foldl_header]
  exact foldl_lineEnd (by simp) e.ends

/-- After a header the parser is between lines. -/
theorem Between.header (h : Header) {e : LineEnd} :
    Between (s.lines charCase [⟨.header h, e⟩]) [] := by
  rw [lines_header]
  exact ⟨.inr (.inl rfl), h.name.first_fold charCase, TextBuffer.clear_eq, rfl,
    List.not_mem_nil⟩

/-- After the mark of a comment its characters do nothing. -/
theorem foldl_comment (hs : s.state = .com)
    (hcs : ∀ c ∈ cs, c ∉ ([91, 93, 61, 10, 13, 0] : List UInt8)) :
    cs.foldl (iniChar charCase) s = s := by
  induction cs with
  | nil => rfl
  | cons c cs ih =>
    have hchar : iniChar charCase s c = s := by
      -- special characters that are left set the same state again, or do nothing
      by_cases hc : c ∈ iniSpecial
      · have hfold := iniFold_special charCase hc
        have hnot := hcs c List.mem_cons_self
        simp only [List.mem_cons, List.not_mem_nil, or_false, not_or] at hnot
        simp only [iniSpecial, List.mem_cons, List.not_mem_nil, or_false] at hc
        simp only [iniChar, hfold, hnot, or_self, if_false]
        split
        · rw [← hs]
        · rename_i hmark
          rw [if_pos (by tauto)]
      · rw [iniChar_plain hc, Ini.add, hs]
    rw [List.foldl_cons, hchar]
    exact ih fun c hc => hcs c (List.mem_cons_of_mem _ hc)

/-- A comment leaves the parser in the state for comments. -/
theorem lines_comment {k : Comment} {e : LineEnd} :
    s.lines charCase [⟨.comment k, e⟩] = { s with state := .com } := by
  have hmark : iniChar charCase s k.mark = { s with state := .com } := by
    rcases k.mark_eq with hk | hk <;> rw [hk] <;> cases charCase <;> rfl
  rw [Ini.lines_singleton, FileLine.text, Comment.text, List.foldl_cons, hmark,
    foldl_comment rfl k.chars_notMem]
  exact foldl_lineEnd (by simp) e.ends

/-- After a comment the parser is between lines, with the name that it had. -/
theorem Between.comment (h : Between s v) (charCase : IniChars) {k : Comment} {e : LineEnd} :
    Between (s.lines charCase [⟨.comment k, e⟩]) v := by
  rw [lines_comment]
  exact ⟨.inr (.inr rfl), h.section_, h.variable_, h.s2, h.zero_notMem⟩

/-- After a bare line the parser is between lines, and the value is the same. -/
theorem Between.bare (h : Between s v) (charCase : IniChars) {b : BareLine} {e : LineEnd} :
    Between (s.lines charCase [⟨.bare b, e⟩]) (s.nameAfter charCase v b.chars) ∧
      SameValue s (s.lines charCase [⟨.bare b, e⟩]) := by
  obtain ⟨hname, hsame⟩ := h.name charCase b.plain
  have hline : s.lines charCase [⟨.bare b, e⟩] = b.chars.foldl (iniChar charCase) s := by
    rw [Ini.lines_singleton, FileLine.text, BareLine.text, List.foldl_append, List.foldl_append,
      foldl_filler, foldl_filler]
    exact foldl_lineEnd hname.state_ne e.ends
  rw [hline]
  exact ⟨hname, hsame⟩

/-- Without a value the callback is not called. -/
theorem Ini.callback_of_value (h : s.value.first = 0) : s.callback = s := by
  simp [Ini.callback, h]

/-- After a setting without a value the parser is between lines, and the value is empty. -/
theorem Between.emptyValue (h : Between s v) (charCase : IniChars) {k : EmptyValue} {e : LineEnd} :
    Between (s.lines charCase [⟨.emptyValue k, e⟩]) (s.nameAfter charCase v k.name.chars) ∧
      (s.lines charCase [⟨.emptyValue k, e⟩]).state = .var ∧
      (s.lines charCase [⟨.emptyValue k, e⟩]).value = .clear ∧
      (s.lines charCase [⟨.emptyValue k, e⟩]).calls = s.calls := by
  obtain ⟨hname, hsame⟩ := h.name charCase k.name.plain
  have hline : s.lines charCase [⟨.emptyValue k, e⟩] =
      { k.name.chars.foldl (iniChar charCase) s with state := .var, s3 := 0, value := .clear } := by
    rw [Ini.lines_singleton, FileLine.text, EmptyValue.text]
    simp only [List.foldl_append, List.foldl_cons, foldl_filler, iniChar_equals]
    -- the line end finds no value
    rw [foldl_lineEnd_val rfl, Ini.callback_of_value rfl]
  rw [hline]
  exact ⟨⟨.inr (.inl rfl), hname.section_, hname.variable_, hname.s2, hname.zero_notMem⟩, rfl, rfl,
    hsame.calls⟩

/-- A setting calls the callback, if its name or an earlier one is in the text. -/
theorem Between.setting (h : Between s v) (charCase : IniChars) {k : Setting} {e : LineEnd} :
    Between (s.lines charCase [⟨.setting k, e⟩]) [] ∧
      (s.lines charCase [⟨.setting k, e⟩]).state = .var ∧
      if s.nameAfter charCase v k.name.chars = [] then
        (s.lines charCase [⟨.setting k, e⟩]).value.first ≠ 0 ∧
          (s.lines charCase [⟨.setting k, e⟩]).calls = s.calls
      else
        (s.lines charCase [⟨.setting k, e⟩]).value.first = 0 ∧
          ∃ b, (s.lines charCase [⟨.setting k, e⟩]).calls = s.calls ++
            [⟨b, ofText (s.nameAfter charCase v k.name.chars), ofText (k.value.fold charCase)⟩] := by
  obtain ⟨hname, hsame⟩ := h.name charCase k.name.plain
  obtain ⟨w, hw⟩ : ∃ w, w = k.name.chars.foldl (iniChar charCase) s := ⟨_, rfl⟩
  rw [← hw] at hname hsame
  have hvalue := foldl_token charCase
    (fun b i => { w with state := .val, value := b, s3 := i })
    (fun b i c hi => by simp [Ini.add, hi]) k.value
  have hline : s.lines charCase [⟨.setting k, e⟩] =
      { ({ w with
          state := .val
          value := ofText (k.value.fold charCase)
          s3 := k.value.chars.length } : Ini).callback with state := .var } := by
    rw [Ini.lines_singleton, FileLine.text, Setting.text]
    simp only [List.foldl_append, List.foldl_cons, foldl_filler, iniChar_equals, ← hw]
    rw [hvalue, foldl_lineEnd_val rfl]
  have hfirst := k.value.first_fold charCase
  rw [hline]
  -- whether there is a name decides on the callback, and with it on what is cleared
  by_cases hv : s.nameAfter charCase v k.name.chars = []
  · have hclear : w.variable_.first = 0 := by
      rw [hname.variable_, hv, ← TextBuffer.clear_eq, TextBuffer.first_clear]
    rw [if_pos hv, Ini.callback, if_neg (fun hall => hall.2.1 hclear)]
    rw [hv] at hname
    exact ⟨⟨.inr (.inl rfl), hname.section_, hname.variable_, hname.s2, hname.zero_notMem⟩, rfl,
      hfirst, hsame.calls⟩
  · have hset : w.variable_.first ≠ 0 := by
      rw [hname.variable_]
      exact TextBuffer.first_ofText hv hname.zero_notMem
    rw [if_neg hv, Ini.callback, if_pos ⟨hname.section_, hset, hfirst⟩]
    refine ⟨⟨.inr (.inl rfl), hname.section_, TextBuffer.clear_eq, rfl, List.not_mem_nil⟩, rfl,
      TextBuffer.first_clear, w.section_, ?_⟩
    show w.calls ++ [⟨w.section_, w.variable_, _⟩] = _
    rw [hsame.calls, hname.variable_]

/-- The parser before the first line. -/
theorem Between.start (uninit : TextBuffer) : Between (iniStart uninit) [] :=
  ⟨.inl rfl, show (71 : UInt8) ≠ 0 by decide, TextBuffer.clear_eq, rfl, List.not_mem_nil⟩

/-- Every line leaves the parser between two lines. -/
theorem Between.line (h : Between s v) (charCase : IniChars) (l : FullLine) :
    ∃ v', Between (s.lines charCase [l]) v' := by
  obtain ⟨l, e⟩ := l
  cases l with
  | header k => exact ⟨_, .header k⟩
  | setting k => exact ⟨_, (h.setting charCase).1⟩
  | comment k => exact ⟨_, h.comment charCase⟩
  | emptyValue k => exact ⟨_, (h.emptyValue charCase).1⟩
  | bare b => exact ⟨_, (h.bare charCase).1⟩

/-- After any lines the parser is between lines. -/
theorem Between.lines (h : Between s v) (charCase : IniChars) (ls : List FullLine) :
    ∃ v', Between (s.lines charCase ls) v' := by
  induction ls generalizing s v with
  | nil => exact ⟨v, h⟩
  | cons l ls ih =>
    obtain ⟨v', hv'⟩ := h.line charCase l
    rw [Ini.lines_cons]
    exact ih hv'

end DVP.Sosal
