import DVP.Sosal.Ini.Basic
import Mathlib.Data.Bool.AllAny

/-!
# Documents

The documents the INI parser is for: sections with their settings, as they may be written. `Prints`
relates the lines of a document to its texts, with fillers around the tokens, blank lines, any line
ends, and the last line with or without one.
-/

namespace DVP.Sosal

/-- The characters that do not stand for themselves. -/
def iniSpecial : List UInt8 := [35, 59, 91, 93, 61, 34, 9, 32, 10, 13, 0]

/-- A tab, a blank or a double quote. -/
def IsFiller (c : UInt8) : Prop := c = 9 ∨ c = 32 ∨ c = 34

/-- A newline or a carriage return. -/
def IsLineEnd (c : UInt8) : Prop := c = 10 ∨ c = 13

instance (c : UInt8) : Decidable (IsFiller c) := inferInstanceAs (Decidable (_ ∨ _ ∨ _))

instance (c : UInt8) : Decidable (IsLineEnd c) := inferInstanceAs (Decidable (_ ∨ _))

/-- A name or a value. -/
structure IniToken where
  chars : List UInt8
  ne : chars ≠ []
  length_le : chars.length ≤ 254
  plain : ∀ c ∈ chars, c ∉ iniSpecial

/-- What may stand around tokens. -/
structure Filler where
  chars : List UInt8
  filler : ∀ c ∈ chars, IsFiller c

/-- The end of a line. -/
structure LineEnd where
  chars : List UInt8
  ne : chars ≠ []
  ends : ∀ c ∈ chars, IsLineEnd c

/-- A line without tokens. -/
structure BlankLine where
  filler : Filler
  lineEnd : LineEnd

/-- The text of a blank line. -/
def BlankLine.text (b : BlankLine) : List UInt8 := b.filler.chars ++ b.lineEnd.chars

/-- A line `name=value`, without its end. -/
structure Setting where
  before : Filler
  name : IniToken
  afterName : Filler
  beforeValue : Filler
  value : IniToken
  after : Filler

/-- The text of a setting. -/
def Setting.text (t : Setting) : List UInt8 :=
  t.before.chars ++ t.name.chars ++ t.afterName.chars ++ 61 :: t.beforeValue.chars ++
    t.value.chars ++ t.after.chars

/-- A line `[name]`, without its end. -/
structure Header where
  before : Filler
  beforeName : Filler
  name : IniToken
  afterName : Filler
  after : Filler

/-- The text of a header. -/
def Header.text (h : Header) : List UInt8 :=
  h.before.chars ++ 91 :: h.beforeName.chars ++ h.name.chars ++ h.afterName.chars ++
    93 :: h.after.chars

/-- A section: its header and its settings. -/
structure IniSection where
  header : Header
  settings : List Setting

/-- A line with tokens. -/
inductive IniLine where
  | header (h : Header)
  | setting (t : Setting)

/-- The text of a line. -/
def IniLine.text : IniLine → List UInt8
  | .header h => h.text
  | .setting t => t.text

/-- The lines of a section. -/
def IniSection.lines (s : IniSection) : List IniLine := .header s.header :: s.settings.map .setting

/-- The texts of lines: each line has an end and blank lines may follow it; the last line may do
without. -/
inductive Prints : List IniLine → List UInt8 → Prop
  | nil (f : Filler) : Prints [] f.chars
  | last (l : IniLine) : Prints [l] l.text
  | line (l : IniLine) (e : LineEnd) (blanks : List BlankLine) {ls : List IniLine}
      {text : List UInt8} :
      Prints ls text → Prints (l :: ls) (l.text ++ e.chars ++ blanks.flatMap BlankLine.text ++ text)

/-- The texts of a document, which may start with blank lines. -/
def PrintsDocument (sections : List IniSection) (text : List UInt8) : Prop :=
  ∃ (blanks : List BlankLine) (rest : List UInt8),
    Prints (sections.flatMap IniSection.lines) rest ∧
      text = blanks.flatMap BlankLine.text ++ rest

/-- The strings of a call of the callback. -/
structure IniStrings where
  section_ : Option (List UInt8)
  variable_ : Option (List UInt8)
  value : Option (List UInt8)
  deriving DecidableEq

/-- The strings that the callback gets. -/
def IniCall.strings (c : IniCall) : IniStrings :=
  ⟨c.section_.string, c.variable_.string, c.value.string⟩

/-- A token with its case changed. -/
def IniToken.fold (charCase : IniChars) (t : IniToken) : List UInt8 :=
  t.chars.map (iniFold charCase)

/-- The strings of a setting of a section. -/
def Setting.strings (charCase : IniChars) (name : IniToken) (t : Setting) : IniStrings :=
  ⟨some (name.fold charCase), some (t.name.fold charCase), some (t.value.fold charCase)⟩

/-- The strings of the settings of a document, in order. -/
def documentStrings (charCase : IniChars) (sections : List IniSection) : List IniStrings :=
  sections.flatMap fun s => s.settings.map (Setting.strings charCase s.header.name)

/-! ## Characters -/

variable {charCase : IniChars} {c : UInt8} {s : Ini} {t text : List UInt8}

/-- A property of characters can be tested on all of them. -/
theorem forall_uint8 {P : UInt8 → Prop} (h : ∀ i : Fin 256, P (UInt8.ofNat i)) (c : UInt8) : P c := by
  have hc := h ⟨c.toNat, c.toNat_lt⟩
  simpa using hc

/-- Special characters have no case. -/
theorem iniFold_special (charCase : IniChars) (hc : c ∈ iniSpecial) : iniFold charCase c = c := by
  have hall : iniSpecial.all fun c => iniFold charCase c = c := by
    cases charCase <;> decide
  exact List.all_iff_forall_prop.mp hall c hc

/-- The other case of a plain character is plain. -/
theorem iniFold_plain (charCase : IniChars) (hc : c ∉ iniSpecial) :
    iniFold charCase c ∉ iniSpecial := by
  revert c
  apply forall_uint8
  cases charCase <;> decide +kernel

/-- A blank or a tab changes nothing. -/
theorem iniChar_filler (hc : IsFiller c) : iniChar charCase s c = s := by
  have hfold : iniFold charCase c = c := by
    apply iniFold_special
    rcases hc with rfl | rfl | rfl <;> decide
  simp only [iniChar, hfold]
  rcases hc with rfl | rfl | rfl <;> rfl

/-- A character that is not special is added to the text that is read. -/
theorem iniChar_plain (hc : c ∉ iniSpecial) : iniChar charCase s c = s.add (iniFold charCase c) := by
  have hplain := iniFold_plain charCase hc
  simp only [iniSpecial, List.mem_cons, List.not_mem_nil, or_false, not_or] at hplain
  simp only [iniChar, hplain, or_self, if_false]

/-- The end of a line reports a value. -/
theorem iniChar_lineEnd (hc : IsLineEnd c) :
    iniChar charCase s c = if s.state = .val then { s.callback with state := .var } else s := by
  have hfold : iniFold charCase c = c := by
    apply iniFold_special
    rcases hc with rfl | rfl <;> decide
  simp only [iniChar, hfold]
  rcases hc with rfl | rfl <;> rfl

end DVP.Sosal
