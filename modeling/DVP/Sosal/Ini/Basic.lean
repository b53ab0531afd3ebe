import Mathlib.Data.List.Basic

/-!
# The INI parser

The parser of `source/sosal/ini.c`: a state machine over the characters of the buffer, with three
texts of 255 characters that are cleared and filled again. A character is a `UInt8`; the ranges the
code compares with are the same for a signed `char`. The calls of the callback are collected in
order, with the texts as they are at the call.
-/

namespace DVP.Sosal

/-- `char x[255]`. -/
structure TextBuffer where
  bytes : List UInt8
  length_eq : bytes.length = 255
  deriving DecidableEq

namespace TextBuffer

/-- `memset(x, 0, sizeof(x))`. -/
def clear : TextBuffer := ⟨List.replicate 255 0, List.length_replicate⟩

/-- `if (i < sizeof(x)) x[i++] = c`, but for the index. -/
def put (b : TextBuffer) (i : Nat) (c : UInt8) : TextBuffer :=
  ⟨b.bytes.set i c, List.length_set.trans b.length_eq⟩

/-- `x[0]`. -/
def first (b : TextBuffer) : UInt8 := b.bytes.headD 0

/-- `strcpy(x, "GLOBAL")`, which leaves what is behind the string. -/
def global (uninit : TextBuffer) : TextBuffer :=
  ⟨[71, 76, 79, 66, 65, 76, 0] ++ uninit.bytes.drop 7, by simp [uninit.length_eq]⟩

/-- The string a text holds, if it ends within the text. -/
def string (b : TextBuffer) : Option (List UInt8) :=
  if 0 ∈ b.bytes then some (b.bytes.takeWhile (· ≠ 0)) else none

end TextBuffer

/-- `ini_chars_e`. -/
inductive IniChars where
  | natural
  | lower
  | upper
  deriving DecidableEq, Repr

/-- `ini_state_e`. -/
inductive IniState where
  | none
  | sec
  | var
  | val
  | com
  deriving DecidableEq, Repr

/-- A call of the callback. -/
structure IniCall where
  section_ : TextBuffer
  variable_ : TextBuffer
  value : TextBuffer
  deriving DecidableEq

/-- The variables of `ini_parse`, and the calls so far. -/
structure Ini where
  state : IniState
  section_ : TextBuffer
  s1 : Nat
  variable_ : TextBuffer
  s2 : Nat
  value : TextBuffer
  s3 : Nat
  calls : List IniCall

/-- The change of case. -/
def iniFold (charCase : IniChars) (c : UInt8) : UInt8 :=
  match charCase with
  | .upper => if 97 ≤ c ∧ c ≤ 122 then c - 97 + 65 else c
  | .lower => if 65 ≤ c ∧ c ≤ 90 then c - 65 + 97 else c
  | .natural => c

/-- The call of the callback, where all three texts have a character. -/
def Ini.callback (s : Ini) : Ini :=
  if s.section_.first ≠ 0 ∧ s.variable_.first ≠ 0 ∧ s.value.first ≠ 0 then
    { s with
      variable_ := .clear
      s2 := 0
      value := .clear
      s3 := 0
      calls := s.calls ++ [⟨s.section_, s.variable_, s.value⟩] }
  else s

/-- The `default` branch: the character is added to the text of the state. -/
def Ini.add (s : Ini) (c : UInt8) : Ini :=
  match s.state with
  | .none | .com => s
  | .sec => if s.s1 < 255 then { s with section_ := s.section_.put s.s1 c, s1 := s.s1 + 1 } else s
  | .var => if s.s2 < 255 then { s with variable_ := s.variable_.put s.s2 c, s2 := s.s2 + 1 } else s
  | .val => if s.s3 < 255 then { s with value := s.value.put s.s3 c, s3 := s.s3 + 1 } else s

/-- A round of the loop of `ini_parse`. -/
def iniChar (charCase : IniChars) (s : Ini) (c : UInt8) : Ini :=
  let c := iniFold charCase c
  -- `#` and `;`
  if c = 35 ∨ c = 59 then { s with state := .com }
  -- the brackets
  else if c = 91 then
    { s with state := .sec, s1 := 0, section_ := .clear, variable_ := .clear, value := .clear }
  else if c = 93 then { s with state := .var, s2 := 0, variable_ := .clear, value := .clear }
  -- `=`
  else if c = 61 then { s with state := .val, s3 := 0, value := .clear }
  -- a tab, a blank and a double quote
  else if c = 9 ∨ c = 32 ∨ c = 34 then s
  -- the line ends
  else if c = 10 ∨ c = 13 ∨ c = 0 then
    if s.state = .val then { s.callback with state := .var } else s
  else s.add c

/-- The variables before the loop; `uninit` is what `section` holds before it is written. -/
def iniStart (uninit : TextBuffer) : Ini where
  state := .sec
  section_ := .global uninit
  s1 := 0
  variable_ := .clear
  s2 := 0
  value := .clear
  s3 := 0
  calls := []

/-- `ini_parse`: the calls of the callback. After the loop it is called for a last line without an
end. -/
def iniParse (uninit : TextBuffer) (charCase : IniChars) (buffer : List UInt8) : List IniCall :=
  (buffer.foldl (iniChar charCase) (iniStart uninit)).callback.calls

end DVP.Sosal
