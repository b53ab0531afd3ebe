import Mathlib.Data.List.Basic

/-!
# Formatted input

Formats of `scanf` with literal characters, unsigned numbers (`%u`, with or without a field width) and texts of
characters of a set (`%[...]`). A format is a list of directives; scanning stops at the first one that does
not match, and answers the values that were stored until then.

* `scan_print`: a text that was put together from fields is scanned to the values of the fields, if each
  field ends where the next one starts.
-/

namespace Scanf

/-- What a format asks for. -/
inductive Directive where
  | lit (c : Char)
  | uint (width : Option Nat)
  | set (p : Char → Bool)

/-- What a format stores. -/
inductive Value where
  | num (n : Int)
  | text (t : List Char)
  deriving DecidableEq

/-- `isspace`. -/
def isSpace (c : Char) : Bool := c.toNat = 32 || (9 ≤ c.toNat && c.toNat ≤ 13)

/-- The part of the text that a directive with a width may read. -/
def fieldOf (width : Option Nat) (s : List Char) : List Char :=
  match width with
  | none => s
  | some w => s.take w

/-- A number may have a sign in front. -/
def skipSign (s : List Char) : List Char := if s.head? = some '-' ∨ s.head? = some '+' then s.tail else s

/-- `%u`: white space is skipped, and there may be a sign. The width counts the sign too. -/
def scanUint (width : Option Nat) (s : List Char) : Option (Int × List Char) :=
  let s := s.dropWhile isSpace
  let field := fieldOf width s
  let body := skipSign field
  let digits := body.takeWhile Char.isDigit
  let n : Int := Nat.ofDigitChars 10 digits 0
  if digits = [] then none
  else some (if field.head? = some '-' then -n else n,
    s.drop (field.length - body.length + digits.length))

/-- `%[...]`. -/
def scanSet (p : Char → Bool) (s : List Char) : Option (List Char × List Char) :=
  if s.takeWhile p = [] then none else some (s.takeWhile p, s.dropWhile p)

/-- The values that are stored, up to the first directive that does not match. -/
def scan : List Directive → List Char → List Value
  | [], _ => []
  | .lit c :: ds, s =>
    match s with
    | [] => []
    | d :: s => if d = c then scan ds s else []
  | .uint width :: ds, s =>
    match scanUint width s with
    | none => []
    | some (n, s) => .num n :: scan ds s
  | .set p :: ds, s =>
    match scanSet p s with
    | none => []
    | some (t, s) => .text t :: scan ds s

/-- A field of a text. -/
inductive Field where
  | lit (c : Char)
  | uint (width : Option Nat) (digits : List Char)
  | set (p : Char → Bool) (t : List Char)

namespace Field

/-- The directive that the field is scanned with. -/
def directive : Field → Directive
  | .lit c => .lit c
  | .uint width _ => .uint width
  | .set p _ => .set p

/-- The text of a field. -/
def print : Field → List Char
  | .lit c => [c]
  | .uint _ digits => digits
  | .set _ t => t

/-- What the directives of a field store. -/
def values : Field → List Value
  | .lit _ => []
  | .uint _ digits => [.num (Nat.ofDigitChars 10 digits 0)]
  | .set _ t => [.text t]

/-- The field is of the form that its directive reads, and ends where `rest` starts. -/
def Delimited (rest : List Char) : Field → Prop
  | .lit _ => True
  | .uint width digits => digits ≠ [] ∧ (∀ c ∈ digits, c.isDigit) ∧
      (width = some digits.length ∨ width = none ∧ ∀ c ∈ rest.head?, c.isDigit = false)
  | .set p t => t ≠ [] ∧ (∀ c ∈ t, p c) ∧ ∀ c ∈ rest.head?, p c = false

end Field

/-- All fields end where the next one or the tail starts. -/
def Delimited (tail : List Char) : List Field → Prop
  | [] => True
  | f :: fs => f.Delimited (fs.flatMap Field.print ++ tail) ∧ Delimited tail fs

variable {p : Char → Bool} {t rest digits : List Char} {width : Option Nat} {c : Char}

/-- What is taken ends where the condition stops. -/
theorem takeWhile_append_of_stops (ht : ∀ c ∈ t, p c) (hrest : ∀ c ∈ rest.head?, p c = false) :
    (t ++ rest).takeWhile p = t := by
  rw [List.takeWhile_append_of_pos ht]
  cases rest with
  | nil => rw [List.takeWhile_nil, List.append_nil]
  | cons c rest =>
    rw [List.takeWhile_cons_of_neg (by rw [hrest c rfl]; exact Bool.false_ne_true), List.append_nil]

/-- What is left starts where the condition stops. -/
theorem dropWhile_append_of_stops (ht : ∀ c ∈ t, p c) (hrest : ∀ c ∈ rest.head?, p c = false) :
    (t ++ rest).dropWhile p = rest := by
  rw [List.dropWhile_append_of_pos ht]
  cases rest with
  | nil => rfl
  | cons c rest => exact List.dropWhile_cons_of_neg (by rw [hrest c rfl]; exact Bool.false_ne_true)

/-- A set takes the characters of a text up to one that is not in it. -/
theorem scanSet_append (hne : t ≠ []) (ht : ∀ c ∈ t, p c) (hrest : ∀ c ∈ rest.head?, p c = false) :
    scanSet p (t ++ rest) = some (t, rest) := by
  rw [scanSet, takeWhile_append_of_stops ht hrest, dropWhile_append_of_stops ht hrest, if_neg hne]

/-- A digit is neither white space nor a sign. -/
theorem digit_plain (hc : c.isDigit) : isSpace c = false ∧ c ≠ '-' ∧ c ≠ '+' := by
  have hlow : 48 ≤ c.toNat := (Char.isDigit_iff_toNat.mp hc).1
  refine ⟨?_, ?_, ?_⟩
  · simp only [isSpace, Bool.or_eq_false_iff, Bool.and_eq_false_iff, decide_eq_false_iff_not]
    omega
  · rintro rfl
    exact absurd hc (by decide)
  · rintro rfl
    exact absurd hc (by decide)

/-- A number is read up to its width, or up to the first character that is not a digit. -/
theorem scanUint_append (hne : digits ≠ []) (hdigits : ∀ c ∈ digits, c.isDigit)
    (hwidth : width = some digits.length ∨ width = none ∧ ∀ c ∈ rest.head?, c.isDigit = false) :
    scanUint width (digits ++ rest) = some (((Nat.ofDigitChars 10 digits 0 : Nat) : Int), rest) := by
  obtain ⟨d, ds, rfl⟩ := List.exists_cons_of_ne_nil hne
  obtain ⟨hspace, hminus, hplus⟩ := digit_plain (hdigits d List.mem_cons_self)
  have hskip : (d :: ds ++ rest).dropWhile isSpace = d :: ds ++ rest :=
    List.dropWhile_cons_of_neg (by rw [hspace]; exact Bool.false_ne_true)
  -- The field starts with a digit, and has all digits in it.
  obtain ⟨tail, hfield, hstop⟩ : ∃ tail, fieldOf width (d :: ds ++ rest) = d :: ds ++ tail ∧
      ∀ c ∈ tail.head?, c.isDigit = false := by
    rcases hwidth with rfl | ⟨rfl, hrest⟩
    · refine ⟨[], ?_, fun c hc => by cases hc⟩
      rw [fieldOf, List.take_left, List.append_nil]
    · exact ⟨rest, rfl, hrest⟩
  have hbody : skipSign (d :: ds ++ tail) = d :: ds ++ tail :=
    if_neg (not_or_intro (fun h => hminus (Option.some.inj h)) fun h => hplus (Option.some.inj h))
  have hsign : (d :: ds ++ tail).head? ≠ some '-' := fun h => hminus (Option.some.inj h)
  rw [scanUint, hskip, hfield, hbody, takeWhile_append_of_stops hdigits hstop, if_neg hne, if_neg hsign,
    Nat.sub_self, Nat.zero_add, List.drop_left]

/-- Another character than the one of the directive ends the scan. -/
theorem scan_lit_of_ne {d : Char} {ds : List Directive} {s : List Char} (hne : d ≠ c) :
    scan (.lit c :: ds) (d :: s) = [] := by
  change (if d = c then scan ds s else []) = []
  exact if_neg hne

/-- A text that was put together from fields is scanned to their values. -/
theorem scan_print {fs : List Field} {ds : List Directive} {tail : List Char} (h : Delimited tail fs) :
    scan (fs.map Field.directive ++ ds) (fs.flatMap Field.print ++ tail) =
      fs.flatMap Field.values ++ scan ds tail := by
  induction fs with
  | nil => rfl
  | cons f fs ih =>
    obtain ⟨hf, hfs⟩ := h
    rw [List.map_cons, List.cons_append, List.flatMap_cons, List.append_assoc, List.flatMap_cons,
      List.append_assoc]
    cases f with
    | lit c =>
      change (if c = c then scan _ (fs.flatMap Field.print ++ tail) else []) = _
      rw [if_pos rfl, ih hfs]
      rfl
    | uint width digits =>
      obtain ⟨hne, hdigits, hwidth⟩ := hf
      rw [Field.directive, Field.print, scan, scanUint_append hne hdigits hwidth]
      dsimp only
      rw [ih hfs]
      rfl
    | set p t =>
      obtain ⟨hne, ht, hrest⟩ := hf
      rw [Field.directive, Field.print, scan, scanSet_append hne ht hrest]
      dsimp only
      rw [ih hfs]
      rfl

end Scanf
