import DVP.Sosal.Ini.Lines

/-!
# Lines that depend on each other

Whether a line may be inserted without a change of the callbacks (`Independent`), and whether a file
without a section is one of the section `GLOBAL` (`ImplicitGlobal`). Both fail on files with settings:
what is left in the text for a name is added to the name of the next setting, the names after a
comment are skipped, and before the first bracket a name is written over the name of the section.
-/

namespace DVP.Sosal

open TextBuffer (ofText)

variable {uninit : TextBuffer} {charCase : IniChars} {s : Ini} {v : List UInt8} {ls : List FullLine}

/-- A line `name=value`. -/
def FileLine.IsSetting : FileLine → Prop
  | .setting _ => True
  | _ => False

/-- A line that clears the text for a value. -/
def FileLine.ClearsValue : FileLine → Prop
  | .header _ => True
  | .emptyValue _ => True
  | _ => False

/-- A line that may be inserted: a comment of plain characters, a line `name=`, or one without
`=`. -/
def FileLine.MayBeInserted : FileLine → Prop
  | .comment c => c.chars.length ≤ 254 ∧ ∀ k ∈ c.chars, k ∉ iniSpecial
  | .emptyValue _ => True
  | .bare _ => True
  | _ => False

instance : DecidablePred FileLine.IsSetting
  | .header _ => isFalse id
  | .setting _ => isTrue trivial
  | .comment _ => isFalse id
  | .emptyValue _ => isFalse id
  | .bare _ => isFalse id

/-- A call whose texts hold strings. -/
def IniCall.HasStrings (c : IniCall) : Prop :=
  c.section_.string.isSome ∧ c.variable_.string.isSome ∧ c.value.string.isSome

/-- The same calls, with strings. -/
def SameCallbacks (cs cs' : List IniCall) : Prop :=
  cs.map IniCall.strings = cs'.map IniCall.strings ∧ ∀ c ∈ cs, c.HasStrings

/-- No line that is inserted between two lines of a file changes the callbacks. -/
def Independent (uninit : TextBuffer) (charCase : IniChars) (file : List FullLine) : Prop :=
  ∀ before after, before ≠ [] → after ≠ [] → file = before ++ after →
    ∀ l : FullLine, l.line.MayBeInserted →
      SameCallbacks (iniParse uninit charCase (fileText file))
        (iniParse uninit charCase (fileText (before ++ l :: after)))

/-- A file whose first line alone may be a setting; then its value is cleared by a later line, if
there is any. -/
structure OnlyFirstSetting (file : List FullLine) : Prop where
  tail : ∀ l ∈ file.tail, ¬ l.line.IsSetting
  cleared : (∃ l ∈ file.head?, l.line.IsSetting) → file.tail ≠ [] →
    ∃ l ∈ file.tail, l.line.ClearsValue

/-- The file is read line by line. -/
theorem iniParse_lines : iniParse uninit charCase (fileText ls) =
    ((iniStart uninit).lines charCase ls).callback.calls := rfl

/-! ## Lines without a call -/

/-- Without a name the callback is not called. -/
theorem Between.callback_nil (h : Between s []) : s.callback = s := by
  have hfirst : s.variable_.first = 0 := by
    rw [h.variable_, ← TextBuffer.clear_eq, TextBuffer.first_clear]
  simp [Ini.callback, hfirst]

/-- With a name and a value it is. -/
theorem Between.callback_calls (h : Between s v) (hv : v ≠ []) (hvalue : s.value.first ≠ 0) :
    s.callback.calls = s.calls ++ [⟨s.section_, ofText v, s.value⟩] := by
  have hfirst : s.variable_.first ≠ 0 := by
    rw [h.variable_]
    exact TextBuffer.first_ofText hv h.zero_notMem
  rw [Ini.callback, if_pos ⟨h.section_, hfirst, hvalue⟩, h.variable_]

/-- A line that is not a setting calls nothing, and leaves no value where there was none. -/
theorem Between.quiet_line (h : Between s v) (charCase : IniChars) {l : FullLine} (hl : ¬ l.line.IsSetting) :
    (s.lines charCase [l]).calls = s.calls ∧
      (l.line.ClearsValue ∨ s.value.first = 0 → (s.lines charCase [l]).value.first = 0) := by
  obtain ⟨l, e⟩ := l
  cases l with
  | header k =>
    rw [lines_header]
    exact ⟨rfl, fun _ => rfl⟩
  | setting k => exact absurd trivial hl
  | comment k =>
    rw [lines_comment]
    exact ⟨rfl, fun hor => hor.resolve_left id⟩
  | emptyValue k =>
    obtain ⟨-, -, hvalue, hcalls⟩ := h.emptyValue charCase (k := k) (e := e)
    exact ⟨hcalls, fun _ => by rw [hvalue, TextBuffer.first_clear]⟩
  | bare b =>
    have hsame := (h.bare charCase (b := b) (e := e)).2
    exact ⟨hsame.calls, fun hor => by
      rw [hsame.value]
      exact hor.resolve_left id⟩

/-- Lines without a setting call nothing. They end without a value if there was none, or if one of
them clears it. -/
theorem Between.quiet_lines (h : Between s v) (charCase : IniChars)
    (hls : ∀ l ∈ ls, ¬ l.line.IsSetting) :
    (s.lines charCase ls).calls = s.calls ∧
      ((∃ l ∈ ls, l.line.ClearsValue) ∨ s.value.first = 0 →
        (s.lines charCase ls).value.first = 0) := by
  induction ls generalizing s v with
  | nil =>
    refine ⟨rfl, fun hor => hor.resolve_left ?_⟩
    rintro ⟨l, hl, -⟩
    cases hl
  | cons l ls ih =>
    obtain ⟨hcalls, hvalue⟩ := h.quiet_line charCase (hls l List.mem_cons_self)
    obtain ⟨v', hv'⟩ := h.line charCase l
    obtain ⟨hcalls', hvalue'⟩ := ih hv' fun l hl => hls l (List.mem_cons_of_mem _ hl)
    rw [Ini.lines_cons]
    refine ⟨hcalls'.trans hcalls, ?_⟩
    rintro (⟨l', hl', hclears⟩ | hnone)
    -- a value that was cleared stays so, whichever line cleared it
    · rcases List.mem_cons.mp hl' with rfl | hmem
      · exact hvalue' (.inr (hvalue (.inl hclears)))
      · exact hvalue' (.inl ⟨l', hmem, hclears⟩)
    · exact hvalue' (.inr (hvalue (.inr hnone)))

/-- After lines without a setting there is no call at the end of the file either, if there is no
value. -/
theorem Between.quiet_end (h : Between s v) (hls : ∀ l ∈ ls, ¬ l.line.IsSetting)
    (hvalue : (∃ l ∈ ls, l.line.ClearsValue) ∨ s.value.first = 0) :
    (s.lines charCase ls).callback.calls = s.calls := by
  obtain ⟨hcalls, hend⟩ := h.quiet_lines charCase hls
  rw [Ini.callback_of_value (hend hvalue), hcalls]

/-! ## A value that is left -/

/-- The characters that lines without brackets and `=` add to a name: those before a comment. -/
def addedName (charCase : IniChars) : List FullLine → List UInt8
  | ⟨.bare b, _⟩ :: ls => b.chars.map (iniFold charCase) ++ addedName charCase ls
  | _ => []

/-- Lines without brackets and `=` only add to the name. -/
theorem Between.added (h : Between s v) (charCase : IniChars)
    (hls : ∀ l ∈ ls, ¬ l.line.IsSetting ∧ ¬ l.line.ClearsValue) :
    Between (s.lines charCase ls) (if s.state = .var then v ++ addedName charCase ls else v) ∧
      (s.lines charCase ls).value = s.value ∧ (s.lines charCase ls).calls = s.calls := by
  induction ls generalizing s v with
  | nil =>
    have hnil : addedName charCase [] = [] := rfl
    rw [hnil, List.append_nil, ite_self]
    exact ⟨h, rfl, rfl⟩
  | cons l ls ih =>
    have hrest : ∀ l ∈ ls, ¬ l.line.IsSetting ∧ ¬ l.line.ClearsValue :=
      fun l hl => hls l (List.mem_cons_of_mem _ hl)
    obtain ⟨hset, hclears⟩ := hls l List.mem_cons_self
    obtain ⟨l, e⟩ := l
    rw [Ini.lines_cons]
    cases l with
    | header k => exact absurd trivial hclears
    | setting k => exact absurd trivial hset
    | emptyValue k => exact absurd trivial hclears
    | comment k =>
      -- the names that follow are skipped
      obtain ⟨hend, hvalue, hcalls⟩ := ih (h.comment charCase (k := k) (e := e)) hrest
      have hnil : addedName charCase (⟨.comment k, e⟩ :: ls) = [] := rfl
      rw [lines_comment] at hend hvalue hcalls
      rw [if_neg (by simp)] at hend
      rw [lines_comment, hnil, List.append_nil, ite_self]
      exact ⟨hend, hvalue, hcalls⟩
    | bare b =>
      obtain ⟨hbare, hsame⟩ := h.bare charCase (b := b) (e := e)
      obtain ⟨hend, hvalue, hcalls⟩ := ih hbare hrest
      rw [hsame.state] at hend
      refine ⟨?_, hvalue.trans hsame.value, hcalls.trans hsame.calls⟩
      rw [addedName]
      rw [Ini.nameAfter] at hend
      split at hend <;> rename_i hstate
      · rw [if_pos hstate, ← List.append_assoc]
        exact hend
      · rw [if_neg hstate]
        exact hend

/-- Where a value is left and a name is not, the name that lines add is called with at the end of
the file. -/
theorem Between.added_end (h : Between s v) (hstate : s.state = .var) (hvalue : s.value.first ≠ 0)
    (hls : ∀ l ∈ ls, ¬ l.line.IsSetting ∧ ¬ l.line.ClearsValue) :
    (v ++ addedName charCase ls = [] → (s.lines charCase ls).callback.calls = s.calls) ∧
      (v ++ addedName charCase ls ≠ [] → ∃ b, (s.lines charCase ls).callback.calls =
        s.calls ++ [⟨b, ofText (v ++ addedName charCase ls), s.value⟩]) := by
  obtain ⟨hend, hsame, hcalls⟩ := h.added charCase hls
  rw [if_pos hstate] at hend
  constructor
  · intro hnil
    rw [hnil] at hend
    rw [hend.callback_nil, hcalls]
  · intro hne
    rw [hend.callback_calls hne (by rwa [hsame]), hcalls, hsame]
    exact ⟨_, rfl⟩

/-! ## Calls that differ -/

/-- Different numbers of calls are different calls. -/
theorem not_sameCallbacks_of_length {cs cs' : List IniCall} (h : cs.length ≠ cs'.length) :
    ¬ SameCallbacks cs cs' := by
  intro hsame
  have hlength := congrArg List.length hsame.1
  rw [List.length_map, List.length_map] at hlength
  exact h hlength

/-- Two last calls differ if one has a longer name. -/
theorem not_sameCallbacks_of_name {cs : List IniCall} {c c' : IniCall} {t t' : List UInt8}
    (hc : c.variable_ = ofText t) (hc' : c'.variable_ = ofText t') (hlength : t.length < t'.length)
    (h0 : 0 ∉ t) (h0' : 0 ∉ t') : ¬ SameCallbacks (cs ++ [c]) (cs ++ [c']) := by
  rintro ⟨heq, hall⟩
  have hstrings : c.strings = c'.strings := by
    simpa using heq
  have hname : c.variable_.string = c'.variable_.string := congrArg IniStrings.variable_ hstrings
  have hsome := (hall c (by simp)).2.1
  rw [hc] at hname hsome
  rw [hc'] at hname
  exact TextBuffer.string_ne_of_length hlength h0 h0' hsome hname

/-! ## Lines to insert -/

/-- A newline. -/
def newline : LineEnd := ⟨[10], by decide, List.all_iff_forall_prop.mp (by decide)⟩

/-- `x`. -/
def tokenX : IniToken := ⟨[120], by decide, by decide, List.all_iff_forall_prop.mp (by decide)⟩

/-- A line `x`. -/
def lineX : BareLine := ⟨noFiller, [120], noFiller, by decide, List.all_iff_forall_prop.mp (by decide)⟩

/-- A line `x=`. -/
def lineXEmpty : EmptyValue := ⟨noFiller, tokenX, noFiller, noFiller⟩

/-- A setting leaves the name of its variable. -/
theorem nameAfter_ne_nil_of_var (hstate : s.state = .var) (k : Setting) :
    s.nameAfter charCase v k.name.chars ≠ [] := by
  rw [Ini.nameAfter, if_pos hstate]
  intro hnil
  exact k.name.fold_ne charCase (List.append_eq_nil_iff.mp hnil).2

/-- Before the first bracket names are written to the section. -/
theorem nameAfter_start {cs : List UInt8} : (iniStart uninit).nameAfter charCase [] cs = [] :=
  if_neg (by simp [iniStart])

/-- The name of a variable has no zeros. -/
theorem zero_notMem_nameAfter (h : Between s v) (k : Setting) :
    0 ∉ s.nameAfter charCase v k.name.chars :=
  (h.name charCase k.name.plain).1.zero_notMem

/-- Where a setting is not the first of a name, a line before it makes the name longer. -/
theorem exists_longer_name (h : Between s v) (k : Setting) :
    ∃ l : FullLine, l.line.MayBeInserted ∧ (s.lines charCase [l]).calls = s.calls ∧
      ∃ v', Between (s.lines charCase [l]) v' ∧ (s.lines charCase [l]).state = .var ∧
        (s.nameAfter charCase v k.name.chars).length <
          ((s.lines charCase [l]).nameAfter charCase v' k.name.chars).length := by
  by_cases hstate : s.state = .var
  · -- the line leaves a character in the text
    obtain ⟨hbare, hsame⟩ := h.bare charCase (b := lineX) (e := newline)
    have hvar := hsame.state.trans hstate
    refine ⟨⟨.bare lineX, newline⟩, trivial, hsame.calls, _, hbare, hvar, ?_⟩
    simp only [Ini.nameAfter, if_pos hstate, if_pos hvar, List.length_append, List.length_map]
    have hx : lineX.chars.length = 1 := rfl
    omega
  · -- the line ends the comment, or the name of the section
    obtain ⟨hempty, hvar, -, hcalls⟩ :=
      h.emptyValue charCase (k := lineXEmpty) (e := newline)
    refine ⟨⟨.emptyValue lineXEmpty, newline⟩, trivial, hcalls, _, hempty, hvar, ?_⟩
    simp only [Ini.nameAfter, if_neg hstate, if_pos hvar, List.length_append, List.length_map]
    have hk := List.length_pos_of_ne_nil k.name.ne
    omega

/-! ## Independence -/

/-- The parser between a setting and lines that clear nothing, when the setting had no name: with a
line in between the name at the end of the file is longer. -/
theorem not_independent_of_left {before after : List FullLine} {k : Setting} {e : LineEnd}
    (h : Between ((iniStart uninit).lines charCase before) v)
    (hname : ((iniStart uninit).lines charCase before).nameAfter charCase v k.name.chars = [])
    (hafter : after ≠ []) (hls : ∀ l ∈ after, ¬ l.line.IsSetting ∧ ¬ l.line.ClearsValue) :
    ¬ Independent uninit charCase (before ++ ⟨.setting k, e⟩ :: after) := by
  intro hind
  have hsame := hind (before ++ [⟨.setting k, e⟩]) after (by simp) hafter (by simp)
    ⟨.bare lineX, newline⟩ trivial
  obtain ⟨hbetween, hstate, hset⟩ := h.setting charCase (k := k) (e := e)
  rw [if_pos hname] at hset
  have hfile : (iniStart uninit).lines charCase (before ++ ⟨.setting k, e⟩ :: after) =
      (((iniStart uninit).lines charCase before).lines charCase [⟨.setting k, e⟩]).lines charCase
        after := by
    rw [Ini.lines_append, Ini.lines_cons]
  rw [iniParse_lines, iniParse_lines, hfile, Ini.lines_append, Ini.lines_append,
    Ini.lines_cons (l := ⟨.bare lineX, newline⟩)] at hsame
  obtain ⟨hbare, hbareSame⟩ := hbetween.bare charCase (b := lineX) (e := newline)
  have hx : (((iniStart uninit).lines charCase before).lines charCase
      [⟨.setting k, e⟩]).nameAfter charCase [] lineX.chars = lineX.chars.map (iniFold charCase) := by
    rw [Ini.nameAfter, if_pos hstate, List.nil_append]
  rw [hx] at hbare
  have hvar := hbareSame.state.trans hstate
  have hvalue : ((((iniStart uninit).lines charCase before).lines charCase
      [⟨.setting k, e⟩]).lines charCase [⟨.bare lineX, newline⟩]).value.first ≠ 0 := by
    rw [hbareSame.value]
    exact hset.1
  -- the call of the longer name
  obtain ⟨b', hcalls'⟩ := (hbare.added_end hvar hvalue hls).2 (by simp [lineX])
  rw [hcalls', hbareSame.calls] at hsame
  have hzero := (hbare.added charCase hls).1.zero_notMem
  rw [if_pos hvar] at hzero
  -- without the line there is no name to call with, or a shorter one
  by_cases hnil : addedName charCase after = []
  · rw [(hbetween.added_end hstate hset.1 hls).1 hnil] at hsame
    exact not_sameCallbacks_of_length (by simp) hsame
  · obtain ⟨b, hcalls⟩ := (hbetween.added_end hstate hset.1 hls).2 hnil
    rw [hcalls] at hsame
    have hzero' := (hbetween.added charCase hls).1.zero_notMem
    rw [if_pos hstate] at hzero'
    refine not_sameCallbacks_of_name rfl rfl ?_ hzero' hzero hsame
    simp [lineX]

/-- A list with an element of a kind has a last one. -/
theorem exists_last {α : Type} {P : α → Prop} [DecidablePred P] {xs : List α} (h : ∃ x ∈ xs, P x) :
    ∃ as x bs, xs = as ++ x :: bs ∧ P x ∧ ∀ b ∈ bs, ¬ P b := by
  induction xs with
  | nil =>
    obtain ⟨x, hx, -⟩ := h
    cases hx
  | cons y ys ih =>
    by_cases hys : ∃ x ∈ ys, P x
    · obtain ⟨as, x, bs, hsplit, hx, hbs⟩ := ih hys
      exact ⟨y :: as, x, bs, by rw [hsplit, List.cons_append], hx, hbs⟩
    · obtain ⟨x, hx, hPx⟩ := h
      rcases List.mem_cons.mp hx with rfl | hmem
      · exact ⟨[], x, ys, rfl, hPx, fun b hb hPb => hys ⟨b, hb, hPb⟩⟩
      · exact absurd ⟨x, hmem, hPx⟩ hys

/-- A file with a setting that is not its first line depends on what is before it. -/
theorem not_independent_of_setting {before after : List FullLine} {k : Setting} {e : LineEnd}
    (hbefore : before ≠ []) (hafter : ∀ l ∈ after, ¬ l.line.IsSetting) :
    ¬ Independent uninit charCase (before ++ ⟨.setting k, e⟩ :: after) := by
  obtain ⟨v, h⟩ := (Between.start uninit).lines charCase before
  obtain ⟨hbetween, hstate, hset⟩ := h.setting charCase (k := k) (e := e)
  -- the run with a longer name
  obtain ⟨l, hl, hlcalls, v', hbetween', hvar, hlength⟩ := exists_longer_name h k
  obtain ⟨hend', -, hset'⟩ := hbetween'.setting charCase (k := k) (e := e)
  rw [if_neg (nameAfter_ne_nil_of_var hvar k)] at hset'
  obtain ⟨hvalue', b', hcalls'⟩ := hset'
  have hparse' : iniParse uninit charCase (fileText (before ++ l :: ⟨.setting k, e⟩ :: after)) =
      ((iniStart uninit).lines charCase before).calls ++ [⟨b',
        ofText ((((iniStart uninit).lines charCase before).lines charCase [l]).nameAfter charCase v'
          k.name.chars), ofText (k.value.fold charCase)⟩] := by
    rw [iniParse_lines, Ini.lines_append, Ini.lines_cons, Ini.lines_cons (l := ⟨.setting k, e⟩),
      hend'.quiet_end hafter (.inr hvalue'), hcalls', hlcalls]
  have hparse : iniParse uninit charCase (fileText (before ++ ⟨.setting k, e⟩ :: after)) =
      ((((iniStart uninit).lines charCase before).lines charCase [⟨.setting k, e⟩]).lines charCase
        after).callback.calls := by
    rw [iniParse_lines, Ini.lines_append, Ini.lines_cons]
  by_cases hname : ((iniStart uninit).lines charCase before).nameAfter charCase v k.name.chars = []
  · by_cases hclears : after = [] ∨ ∃ l ∈ after, l.line.ClearsValue
    · -- without the line there is no call
      intro hind
      have hsame := hind before (⟨.setting k, e⟩ :: after) hbefore (by simp) rfl l hl
      have hnone : ((((iniStart uninit).lines charCase before).lines charCase
          [⟨.setting k, e⟩]).lines charCase after).callback.calls =
            ((iniStart uninit).lines charCase before).calls := by
        rw [if_pos hname] at hset
        rcases hclears with rfl | hclears
        · rw [Ini.lines_nil, hbetween.callback_nil, hset.2]
        · rw [hbetween.quiet_end hafter (.inl hclears), hset.2]
      rw [hparse, hparse', hnone] at hsame
      exact not_sameCallbacks_of_length (by simp) hsame
    · obtain ⟨hne, hnone⟩ := not_or.mp hclears
      exact not_independent_of_left h hname hne fun l hl =>
        ⟨hafter l hl, fun hclear => hnone ⟨l, hl, hclear⟩⟩
  · -- without the line the call has a shorter name
    intro hind
    have hsame := hind before (⟨.setting k, e⟩ :: after) hbefore (by simp) rfl l hl
    rw [if_neg hname] at hset
    obtain ⟨hvalue, b, hcalls⟩ := hset
    rw [hparse, hparse', hbetween.quiet_end hafter (.inr hvalue), hcalls] at hsame
    exact not_sameCallbacks_of_name rfl rfl hlength (zero_notMem_nameAfter h k)
      (zero_notMem_nameAfter hbetween' k) hsame

/-- A file without a setting but in its first line is parsed without a call. -/
theorem iniParse_eq_nil {l : FullLine} (htail : ∀ l ∈ ls, ¬ l.line.IsSetting)
    (hhead : l.line.IsSetting → ∃ l ∈ ls, l.line.ClearsValue) :
    iniParse uninit charCase (fileText (l :: ls)) = [] := by
  have hstart := Between.start uninit
  rw [iniParse_lines, Ini.lines_cons]
  by_cases hl : l.line.IsSetting
  · obtain ⟨l, e⟩ := l
    cases l with
    | setting k =>
      obtain ⟨hbetween, -, hset⟩ := hstart.setting charCase (k := k) (e := e)
      rw [if_pos nameAfter_start] at hset
      rw [hbetween.quiet_end htail (.inl (hhead hl)), hset.2]
      rfl
    | header k => exact absurd hl id
    | comment k => exact absurd hl id
    | emptyValue k => exact absurd hl id
    | bare b => exact absurd hl id
  · obtain ⟨hcalls, hvalue⟩ := hstart.quiet_line charCase hl
    obtain ⟨v', hv'⟩ := hstart.line charCase l
    rw [hv'.quiet_end htail (.inr (hvalue (.inr rfl))), hcalls]
    rfl

/-- A file that is independent has no setting behind its first line: the last one depends on what is
before it. -/
theorem Independent.tail {file : List FullLine} (hind : Independent uninit charCase file) :
    ∀ l ∈ file.tail, ¬ l.line.IsSetting := by
  intro l hl hset
  obtain ⟨before, ⟨k, e⟩, after, hsplit, hk, hafter⟩ :=
    exists_last (P := fun l : FullLine => l.line.IsSetting) ⟨l, hl, hset⟩
  cases file with
  | nil => cases hl
  | cons first rest =>
    have hfile : first :: rest = (first :: before) ++ ⟨k, e⟩ :: after := by
      rw [List.cons_append, ← hsplit, List.tail_cons]
    cases k with
    | setting k =>
      rw [hfile] at hind
      -- the last setting, with no setting behind it
      exact not_independent_of_setting (by simp) hafter hind
    | header k => exact hk
    | comment k => exact hk
    | emptyValue k => exact hk
    | bare b => exact hk

/-- If its first line is a setting, a later one clears the value. -/
theorem Independent.cleared {file : List FullLine} (hind : Independent uninit charCase file)
    (hfirst : ∃ l ∈ file.head?, l.line.IsSetting) (hne : file.tail ≠ []) :
    ∃ l ∈ file.tail, l.line.ClearsValue := by
  have htail := hind.tail
  obtain ⟨first, hfirst, hset⟩ := hfirst
  cases file with
  | nil => cases hfirst
  | cons l ls =>
    obtain rfl : l = first := Option.some.inj hfirst
    obtain ⟨l, e⟩ := l
    cases l with
    | setting k =>
      by_contra hnone
      -- before the first line the name of a setting is not kept
      have hstart : Between ((iniStart uninit).lines charCase []) [] := .start uninit
      refine not_independent_of_left hstart nameAfter_start hne (fun l hl => ⟨htail l hl, ?_⟩) hind
      exact fun hclears => hnone ⟨l, hl, hclears⟩
    | header k => exact absurd hset id
    | comment k => exact absurd hset id
    | emptyValue k => exact absurd hset id
    | bare b => exact absurd hset id

/-- With such settings alone a file is parsed without a call, and so it is with a line inserted. -/
theorem OnlyFirstSetting.independent {file : List FullLine} (h : OnlyFirstSetting file) :
    Independent uninit charCase file := by
  obtain ⟨htail, hhead⟩ := h
  rintro before after hbefore hafter rfl l hl
  cases before with
  | nil => exact absurd rfl hbefore
  | cons first rest =>
    have hne : rest ++ after ≠ [] := by simp [hafter]
    have htail : ∀ l ∈ rest ++ after, ¬ l.line.IsSetting := htail
    have hclears : first.line.IsSetting → ∃ l ∈ rest ++ after, l.line.ClearsValue :=
      fun hset => hhead ⟨first, rfl, hset⟩ hne
    have hnot : ¬ l.line.IsSetting := by
      intro hset
      obtain ⟨l, e⟩ := l
      cases l <;> first | exact hset | exact hl
    have hinserted : iniParse uninit charCase (fileText (first :: (rest ++ l :: after))) = [] := by
      apply iniParse_eq_nil
      · intro l' hl'
        rcases List.mem_append.mp hl' with hmem | hmem
        · exact htail l' (List.mem_append_left _ hmem)
        · rcases List.mem_cons.mp hmem with rfl | hmem
          · exact hnot
          · exact htail l' (List.mem_append_right _ hmem)
      · intro hset
        -- the line that clears the value is still there
        obtain ⟨l', hl', hclear⟩ := hclears hset
        refine ⟨l', ?_, hclear⟩
        rcases List.mem_append.mp hl' with hmem | hmem
        · exact List.mem_append_left _ hmem
        · exact List.mem_append_right _ (List.mem_cons_of_mem _ hmem)
    rw [List.cons_append, List.cons_append, iniParse_eq_nil htail hclears, hinserted]
    exact ⟨rfl, fun c hc => absurd hc List.not_mem_nil⟩

/-- No line that is inserted changes the callbacks exactly if no line of the file is a setting but
the first, whose value a later line clears, if there is any. -/
theorem independent_iff (uninit : TextBuffer) (charCase : IniChars) (file : List FullLine) :
    Independent uninit charCase file ↔ OnlyFirstSetting file :=
  ⟨fun hind => ⟨hind.tail, hind.cleared⟩, OnlyFirstSetting.independent⟩

/-- `[SECTION1]` and `BOB=uncle`. -/
def sectionBob : List FullLine :=
  [⟨.header (headerOf tokenSection1), newline⟩, ⟨.setting settingBob, newline⟩]

/-- The comment of the unit test. -/
def commentLine : Comment :=
  ⟨35, [99, 111, 109, 109, 101, 110, 116], .inl rfl, List.all_iff_forall_prop.mp (by decide)⟩

/-- After a comment the setting that follows is lost. -/
theorem not_independent_comment : ¬ Independent .clear .natural sectionBob := by
  intro hind
  have hsame := hind [⟨.header (headerOf tokenSection1), newline⟩] [⟨.setting settingBob, newline⟩]
    (by simp) (by simp) rfl ⟨.comment commentLine, newline⟩
    ⟨by decide, List.all_iff_forall_prop.mp (by decide)⟩
  have hone : (iniParse .clear .natural (fileText sectionBob)).length = 1 := by decide +kernel
  have hnone : (iniParse .clear .natural
      (fileText ([⟨.header (headerOf tokenSection1), newline⟩] ++
        ⟨.comment commentLine, newline⟩ :: [⟨.setting settingBob, newline⟩]))).length = 0 := by
    decide +kernel
  exact not_sameCallbacks_of_length (by rw [hone, hnone]; decide) hsame

/-! ## The implicit section -/

/-- A line `name=value` or `[name]` with its end. -/
structure CompleteLine where
  line : IniLine
  lineEnd : LineEnd

/-- A header or a setting, with its end. -/
def CompleteLine.full : CompleteLine → FullLine
  | ⟨.header h, e⟩ => ⟨.header h, e⟩
  | ⟨.setting t, e⟩ => ⟨.setting t, e⟩

/-- The characters of complete lines. -/
def documentText (ls : List CompleteLine) : List UInt8 := fileText (ls.map CompleteLine.full)

/-- `[GLOBAL]` and a newline. -/
def globalLine : List UInt8 := [91, 71, 76, 79, 66, 65, 76, 93, 10]

/-- The word `GLOBAL` in any case is one word. -/
def foldGlobal (t : Option (List UInt8)) : Option (List UInt8) :=
  if t.map (List.map (iniFold .upper)) = some [71, 76, 79, 66, 65, 76] then
    some [71, 76, 79, 66, 65, 76]
  else t

/-- The strings with the word `GLOBAL` in one case. -/
def IniStrings.foldSection (c : IniStrings) : IniStrings :=
  { c with section_ := foldGlobal c.section_ }

/-- A file is parsed as if it started with the section `GLOBAL`. -/
def ImplicitGlobal (uninit : TextBuffer) (charCase : IniChars) (document : List CompleteLine) : Prop :=
  (iniParse uninit charCase (documentText document)).map (IniStrings.foldSection ∘ IniCall.strings) =
    (iniParse uninit charCase (globalLine ++ documentText document)).map
      (IniStrings.foldSection ∘ IniCall.strings)

/-- The line is a setting. -/
def IniLine.IsSetting : IniLine → Prop
  | .setting _ => True
  | .header _ => False

instance : DecidablePred IniLine.IsSetting
  | .setting _ => isTrue trivial
  | .header _ => isFalse id

/-- `GLOBAL`. -/
def tokenGlobal : IniToken :=
  ⟨[71, 76, 79, 66, 65, 76], by decide, by decide, List.all_iff_forall_prop.mp (by decide)⟩

/-- The line `[GLOBAL]`. -/
def globalHeader : FullLine := ⟨.header (headerOf tokenGlobal), newline⟩

/-- With a header in front, the document is read in its section. -/
theorem iniParse_global {ls : List CompleteLine} :
    iniParse uninit charCase (globalLine ++ documentText ls) =
      (((iniStart uninit).lines charCase [globalHeader]).lines charCase
        (ls.map CompleteLine.full)).callback.calls := by
  rw [← Ini.lines_append]
  rfl

/-- The number of settings. -/
def settingCount (ls : List CompleteLine) : Nat := ls.countP fun l => l.line.IsSetting

/-- A header is no setting. -/
theorem settingCount_header {k : Header} {e : LineEnd} {ls : List CompleteLine} :
    settingCount (⟨.header k, e⟩ :: ls) = settingCount ls :=
  List.countP_cons_of_neg (p := fun l : CompleteLine => l.line.IsSetting) fun hset =>
    of_decide_eq_true hset

/-- A setting is one more. -/
theorem settingCount_setting {k : Setting} {e : LineEnd} {ls : List CompleteLine} :
    settingCount (⟨.setting k, e⟩ :: ls) = settingCount ls + 1 :=
  List.countP_cons_of_pos (p := fun l : CompleteLine => l.line.IsSetting) (decide_eq_true trivial)

/-- Within a section every setting is called with. -/
theorem Between.count (h : Between s []) (charCase : IniChars) (hstate : s.state = .var) (ls : List CompleteLine) :
    (s.lines charCase (ls.map CompleteLine.full)).callback.calls.length =
      s.calls.length + settingCount ls := by
  induction ls generalizing s with
  | nil =>
    rw [List.map_nil, Ini.lines_nil, h.callback_nil]
    rfl
  | cons l ls ih =>
    rw [List.map_cons, Ini.lines_cons]
    obtain ⟨l, e⟩ := l
    cases l with
    | header k =>
      have hhead : Between (s.lines charCase [CompleteLine.full ⟨.header k, e⟩]) [] := .header k
      rw [ih hhead (by rw [CompleteLine.full, lines_header]), settingCount_header,
        CompleteLine.full, lines_header]
    -- the state stays that of names, so that every name is kept and called with
    | setting k =>
      obtain ⟨hend, hvar, hset⟩ := h.setting charCase (k := k) (e := e)
      rw [if_neg (nameAfter_ne_nil_of_var hstate k)] at hset
      obtain ⟨-, b, hcalls⟩ := hset
      have hfull : CompleteLine.full ⟨.setting k, e⟩ = ⟨.setting k, e⟩ := rfl
      rw [hfull, ih hend hvar, hcalls, settingCount_setting, List.length_append,
        List.length_singleton]
      omega

/-- An empty document is parsed as if it started with `GLOBAL`. -/
theorem implicitGlobal_nil : ImplicitGlobal uninit charCase [] := by
  have hnone : iniParse uninit charCase (documentText []) = [] := rfl
  have hglobal : iniParse uninit charCase (globalLine ++ documentText []) = [] := by
    have hbetween : Between ((iniStart uninit).lines charCase [globalHeader]) [] := .header _
    rw [iniParse_global, List.map_nil, Ini.lines_nil, hbetween.callback_nil, globalHeader,
      lines_header]
    rfl
  rw [ImplicitGlobal, hnone, hglobal]

/-- A header sets everything that the header before it set. -/
theorem implicitGlobal_header {k : Header} {e : LineEnd} {ls : List CompleteLine} :
    ImplicitGlobal uninit charCase (⟨.header k, e⟩ :: ls) := by
  have hstate : ((iniStart uninit).lines charCase [globalHeader]).lines charCase
      [⟨.header k, e⟩] = (iniStart uninit).lines charCase [⟨.header k, e⟩] := by
    rw [globalHeader, lines_header, lines_header, lines_header]
  have hparse : iniParse uninit charCase (globalLine ++ documentText (⟨.header k, e⟩ :: ls)) =
      iniParse uninit charCase (documentText (⟨.header k, e⟩ :: ls)) := by
    rw [iniParse_global, List.map_cons, Ini.lines_cons, CompleteLine.full, hstate,
      ← Ini.lines_cons]
    rfl
  rw [ImplicitGlobal, hparse]

/-- A setting without a section is not called with, but within `GLOBAL` it is. -/
theorem not_implicitGlobal_setting {k : Setting} {e : LineEnd} {ls : List CompleteLine} :
    ¬ ImplicitGlobal uninit charCase (⟨.setting k, e⟩ :: ls) := by
  intro himplicit
  have hlength := congrArg List.length himplicit
  rw [List.length_map, List.length_map] at hlength
  -- with the section each setting is called with
  have hwith : (iniParse uninit charCase
      (globalLine ++ documentText (⟨.setting k, e⟩ :: ls))).length =
        settingCount (⟨.setting k, e⟩ :: ls) := by
    have hglobal : Between ((iniStart uninit).lines charCase [globalHeader]) [] := .header _
    rw [iniParse_global, hglobal.count charCase (by rw [globalHeader, lines_header]), globalHeader,
      lines_header]
    exact Nat.zero_add _
  -- without it the first one is not
  have hwithout : (iniParse uninit charCase (documentText (⟨.setting k, e⟩ :: ls))).length =
      settingCount ls := by
    obtain ⟨hend, hvar, hset⟩ := (Between.start uninit).setting charCase (k := k) (e := e)
    rw [if_pos nameAfter_start] at hset
    have hcount := hend.count charCase hvar ls
    rw [hset.2, ← Ini.lines_cons] at hcount
    exact hcount.trans (Nat.zero_add _)
  rw [hwith, hwithout, settingCount_setting] at hlength
  omega

/-- A file is parsed as if it started with the section `GLOBAL` exactly if its first line, if there
is one, starts a section. -/
theorem implicitGlobal_iff (uninit : TextBuffer) (charCase : IniChars)
    (document : List CompleteLine) :
    ImplicitGlobal uninit charCase document ↔ ∀ l ∈ document.head?, ¬ l.line.IsSetting := by
  cases document with
  | nil => exact iff_of_true implicitGlobal_nil fun l hl => absurd hl (by simp)
  | cons l ls =>
    obtain ⟨l, e⟩ := l
    cases l with
    | header k =>
      refine iff_of_true implicitGlobal_header fun l hl => ?_
      obtain rfl : CompleteLine.mk (.header k) e = l := Option.some.inj hl
      exact id
    | setting k => exact iff_of_false not_implicitGlobal_setting fun hnot => hnot _ rfl trivial

/-- The setting `BOB=uncle` without a section is not called with. -/
theorem not_implicitGlobal_bob :
    ¬ ImplicitGlobal .clear .natural [⟨.setting settingBob, newline⟩] := by
  intro himplicit
  have hlength := congrArg List.length himplicit
  rw [List.length_map, List.length_map] at hlength
  exact absurd hlength (by decide +kernel)

end DVP.Sosal
