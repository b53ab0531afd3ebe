import DVP.Lib.Scanf
import Mathlib.Tactic.Linarith
import Mathlib.Tactic.SplitIfs

/-!
# File names of raw video

The file names of `source/sosal/pyuv.c`, where `PATH_DELIM` is `/` and `MAX_PATH` is `255`. A string is
the list of its characters, without the `NUL`. The numbers are those of an `unsigned int` of 32 bits.

* `PyuvFile.roundTrips_iff`: a name that `PYUV_GetFilename` writes is read back by `PYUV_DecodeFilename`
  exactly when the word fits its buffer, the name of the colour space has no underscore, and the height is not
  scaled.
-/

namespace DVP.Sosal.Pyuv

open Scanf

/-! ## The table -/

/-- `FOURCC_Name_t`. -/
structure FourccName where
  fourcc : BitVec 32
  name : List Char
  ext : List Char

/-- `FOURCC_Y800`: luma of 8 bits. -/
def fourccY800 : BitVec 32 := 0x30303859

/-- `FOURCC_Y16`: luma of 16 bits. -/
def fourccY16 : BitVec 32 := 0x20363159

/-- `FOURCC_Y32`: luma of 32 bits. -/
def fourccY32 : BitVec 32 := 0x20323359

/-- `FOURCC_NV12`: a plane of Y and one of UV. -/
def fourccNv12 : BitVec 32 := 0x3231564E

/-- `FOURCC_NV21`: a plane of Y and one of VU. -/
def fourccNv21 : BitVec 32 := 0x3132564E

/-- `fourccNames`. -/
def fourccNames : List FourccName := [
  -- `UYVY`, `YUY2` and `YVYU`
  ⟨0x59565955, ['U', 'Y', 'V', 'Y'], ['y', 'u', 'v']⟩,
  ⟨0x32595559, ['Y', 'U', 'Y', '2'], ['y', 'u', 'v']⟩,
  ⟨0x55595659, ['Y', 'V', 'Y', 'U'], ['y', 'u', 'v']⟩,
  -- `YUV9`, `YVU9`, `YV12`, `IYUV`, `YU16`, `YV16`, `YU24` and `YV24`
  ⟨0x39565559, ['P', '4', '1', '1'], ['y', 'u', 'v']⟩,
  ⟨0x39555659, ['P', '4', '1', '1'], ['y', 'u', 'v']⟩,
  ⟨0x32315659, ['P', '4', '2', '0'], ['y', 'u', 'v']⟩,
  ⟨0x56555949, ['I', 'Y', 'U', 'V'], ['y', 'u', 'v']⟩,
  ⟨0x36315559, ['P', '4', '2', '2'], ['y', 'u', 'v']⟩,
  ⟨0x36315659, ['P', '4', '2', '2'], ['y', 'u', 'v']⟩,
  ⟨0x34325559, ['P', '4', '4', '4'], ['y', 'u', 'v']⟩,
  ⟨0x34325659, ['P', '4', '4', '4'], ['y', 'u', 'v']⟩,
  ⟨fourccY800, ['P', '4', '0', '0'], ['b', 'w']⟩,
  ⟨fourccY16, ['P', '4', '0', '0', '_', '1', '6', 'b'], ['b', 'w']⟩,
  ⟨fourccY32, ['P', '4', '0', '0', '_', '3', '2', 'b'], ['b', 'w']⟩,
  -- `RGBP`, `BGR`, `HSLP` and `RGBA`
  ⟨0x50424752, ['P', '4', '4', '4'], ['r', 'g', 'b']⟩,
  ⟨0x33524742, ['I', '4', '4', '4'], ['r', 'g', 'b']⟩,
  ⟨0x504C5348, ['P', '4', '4', '4'], ['h', 's', 'l']⟩,
  ⟨0x41424752, ['I', '3', '2'], ['r', 'g', 'b', 'a']⟩,
  ⟨fourccNv12, ['P', '4', '0', '0'], ['b', 'w']⟩,
  ⟨fourccNv21, ['P', '4', '0', '0'], ['b', 'w']⟩,
  -- `RGB565` and `BGR565`
  ⟨0x35424752, ['I', '5', '6', '5'], ['r', 'g', 'b']⟩,
  ⟨0x35524742, ['I', '5', '6', '5'], ['r', 'g', 'b']⟩]

/-- `PYUV_GetFileExtension`. -/
def pyuvGetFileExtension (fourcc : BitVec 32) : Option (List Char) :=
  (fourccNames.find? fun e => fourcc = e.fourcc).map FourccName.ext

/-- `PYUV_GetColorSpaceName`. -/
def pyuvGetColorSpaceName (fourcc : BitVec 32) : Option (List Char) :=
  (fourccNames.find? fun e => fourcc = e.fourcc).map FourccName.name

/-- `PYUV_GetColorSpace`. -/
def pyuvGetColorSpace (name ext : List Char) : BitVec 32 :=
  match fourccNames.find? fun e => e.name = name ∧ e.ext = ext with
  | some e => e.fourcc
  | none => fourccY800

/-! ## The names -/

/-- `%u` of `printf`. -/
def decimal (n : Nat) : List Char := Nat.toDigits 10 n

/-- `PYUV_GetFilename`: what it writes, if the colour has a name and an extension. -/
def pyuvGetFilename (path name : List Char) (width height fps : Nat) (fourcc : BitVec 32) :
    Option (List Char) := do
  let modHeight :=
    if fourcc = fourccNv12 ∨ fourcc = fourccNv21 then height * 3 % 2 ^ 32 / 2 else height
  let colorSpace ← pyuvGetColorSpaceName fourcc
  let ext ← pyuvGetFileExtension fourcc
  return path ++ name ++ ['_'] ++ decimal width ++ ['x'] ++ decimal modHeight ++ ['_'] ++
    decimal fps ++ ['H', 'z', '_'] ++ colorSpace ++ ['.'] ++ ext

/-- The loop of `PYUV_DecodeFilename` over the path: `filename`, and what is left from `p` on. -/
def throughPath : List Char → List Char → List Char
  | filename, [] => filename
  | filename, c :: p => throughPath (if c = '/' then p else filename) p

/-- `%02u_%[a-zA-Z0-9]_%ux%u_%uHz_%[a-zA-Z0-9].%[a-z]`. -/
def pyuvFormat : List Directive :=
  [.uint (some 2), .lit '_', .set Char.isAlphanum, .lit '_', .uint none, .lit 'x', .uint none, .lit '_',
    .uint none, .lit 'H', .lit 'z', .lit '_', .set Char.isAlphanum, .lit '.', .set Char.isLower]

/-- What `PYUV_DecodeFilename` answers, and the sizes of its buffers with the numbers of bytes that are
written to them. -/
structure PyuvDecoded where
  width : Nat
  height : Nat
  fps : Nat
  color : BitVec 32
  writes : List (Nat × Nat)

/-- A number that was stored to a `uint32_t`, which was `0` before. -/
def storedNum : Option Value → Nat
  | some (.num n) => (n % 2 ^ 32).toNat
  | _ => 0

/-- A text that was stored, if any. -/
def storedText : Option Value → Option (List Char)
  | some (.text t) => some t
  | _ => none

/-- `PYUV_DecodeFilename`. The two strings are what the buffers `fourcc` and `ext` hold before they are
written. -/
def pyuvDecodeFilename (uninitFourcc uninitExt filename : List Char) : PyuvDecoded :=
  let values := scan pyuvFormat (throughPath filename filename)
  let shortname := storedText values[1]?
  let fourcc := storedText values[5]?
  let ext := storedText values[6]?
  { width := storedNum values[2]?
    height := storedNum values[3]?
    fps := storedNum values[4]?
    color := pyuvGetColorSpace (fourcc.getD uninitFourcc) (ext.getD uninitExt)
    -- each string with its `NUL`
    writes := (shortname.toList.map fun t => (255, t.length + 1)) ++
      (fourcc.toList.map fun t => (5, t.length + 1)) ++ ext.toList.map fun t => (10, t.length + 1) }

/-! ## Files -/

/-- The arguments of `PYUV_GetFilename` for a file. -/
structure PyuvFile where
  path : List Char
  digits : List Char
  word : List Char
  width : Nat
  height : Nat
  fps : Nat
  fourcc : BitVec 32
  path_ends : path = [] ∨ path.getLast? = some '/'
  digits_length : digits.length = 2
  digits_digit : ∀ c ∈ digits, c.isDigit
  word_ne : word ≠ []
  word_alphanum : ∀ c ∈ word, c.isAlphanum
  width_lt : width < 2 ^ 32
  height_lt : height < 2 ^ 32
  fps_lt : fps < 2 ^ 32
  fourcc_mem : fourcc ∈ fourccNames.map FourccName.fourcc
  /-- The semi-planar formats have half as many lines of chroma. -/
  height_semi : fourcc = fourccNv12 ∨ fourcc = fourccNv21 → height < 2 ^ 31 ∧ height % 2 = 0

/-- The file name is written, and whatever the buffers hold before, it is read back without a write past
one of them. -/
def PyuvFile.RoundTrips (f : PyuvFile) : Prop :=
  ∃ filename, pyuvGetFilename f.path (f.digits ++ '_' :: f.word) f.width f.height f.fps f.fourcc =
      some filename ∧
    ∀ uninitFourcc uninitExt,
      let d := pyuvDecodeFilename uninitFourcc uninitExt filename
      d.width = f.width ∧ d.height = f.height ∧ d.fps = f.fps ∧
        pyuvGetColorSpaceName d.color = pyuvGetColorSpaceName f.fourcc ∧
        pyuvGetFileExtension d.color = pyuvGetFileExtension f.fourcc ∧
        ∀ w ∈ d.writes, w.2 ≤ w.1

/-! ## The path -/

/-- A path without a slash leaves the name. -/
theorem throughPath_of_notMem {filename p : List Char} (hp : '/' ∉ p) : throughPath filename p = filename := by
  induction p with
  | nil => rfl
  | cons c p ih =>
    rw [List.mem_cons, not_or] at hp
    rw [throughPath, if_neg fun hc => hp.1 hc.symm, ih hp.2]

/-- The name is what follows the last slash. -/
theorem throughPath_append {filename p q : List Char} (hq : '/' ∉ q) :
    throughPath filename (p ++ '/' :: q) = q := by
  induction p generalizing filename with
  | nil => exact (congrArg (throughPath · q) (if_pos rfl)).trans (throughPath_of_notMem hq)
  | cons c p ih => exact ih

/-- The path is skipped. -/
theorem PyuvFile.throughPath_eq (f : PyuvFile) {base : List Char} (hbase : '/' ∉ base) :
    throughPath (f.path ++ base) (f.path ++ base) = base := by
  rcases f.path_ends with hpath | hpath
  · rw [hpath, List.nil_append, throughPath_of_notMem hbase]
  · obtain ⟨p, hp⟩ := List.getLast?_eq_some_iff.mp hpath
    rw [hp, List.append_assoc]
    exact throughPath_append hbase

/-! ## The numbers and texts -/

/-- A number has a digit. -/
theorem decimal_ne_nil (n : Nat) : decimal n ≠ [] := Nat.toDigits_ne_nil

/-- A number is made of digits. -/
theorem isDigit_of_mem_decimal {n : Nat} {c : Char} (hc : c ∈ decimal n) : c.isDigit :=
  Nat.isDigit_of_mem_toDigits (by decide) (by decide) hc

/-- A slash is no letter or digit. -/
theorem slash_ne_of_alphanum {c : Char} (hc : c.isAlphanum) : '/' ≠ c := by
  rintro rfl
  exact absurd hc (by decide)

/-- A slash is no digit. -/
theorem slash_ne_of_digit {c : Char} (hc : c.isDigit) : '/' ≠ c :=
  slash_ne_of_alphanum (by rw [Char.isAlphanum, hc, Bool.or_true])

/-- A number of 32 bits is stored as it was printed. -/
theorem storedNum_decimal {n : Nat} (hn : n < 2 ^ 32) :
    storedNum (some (.num (Nat.ofDigitChars 10 (decimal n) 0 : Nat))) = n := by
  rw [decimal, Nat.ofDigitChars_ten_toDigits, storedNum]
  omega

namespace PyuvFile

variable (f : PyuvFile)

/-- The height that is written to the name. -/
def modHeight : Nat :=
  if f.fourcc = fourccNv12 ∨ f.fourcc = fourccNv21 then f.height * 3 % 2 ^ 32 / 2 else f.height

/-- The fields of the name up to the start of the colour space. -/
def fields (colorSpace : List Char) : List Field :=
  [.uint (some 2) f.digits, .lit '_', .set Char.isAlphanum f.word, .lit '_', .uint none (decimal f.width),
    .lit 'x', .uint none (decimal f.modHeight), .lit '_', .uint none (decimal f.fps), .lit 'H', .lit 'z',
    .lit '_', .set Char.isAlphanum colorSpace]

/-- The name without the path. -/
def base (colorSpace tail : List Char) : List Char :=
  (f.fields colorSpace).flatMap Field.print ++ tail

variable {f} {t tail : List Char}

/-- The height that is printed has 32 bits. -/
theorem modHeight_lt : f.modHeight < 2 ^ 32 := by
  have hlt := f.height_lt
  rw [modHeight]
  split <;> omega

/-- The height is scaled by three halves, modulo the size of an `unsigned int`. -/
theorem modHeight_eq_iff : f.modHeight = f.height ↔
    (f.fourcc = fourccNv12 ∨ f.fourcc = fourccNv21 → f.height = 0) := by
  rw [modHeight]
  split
  · next hsemi =>
    obtain ⟨hlt, heven⟩ := f.height_semi hsemi
    constructor
    · intro heq _
      omega
    · intro hzero
      have hheight := hzero hsemi
      omega
  · next hsemi => exact iff_of_true rfl fun h => absurd h hsemi

/-- The name of the file has no slash. -/
theorem slash_notMem_base (ht : '/' ∉ t) (htail : '/' ∉ tail) : '/' ∉ f.base t tail := by
  have hdigits : '/' ∉ f.digits := fun h => slash_ne_of_digit (f.digits_digit _ h) rfl
  have hword : '/' ∉ f.word := fun h => slash_ne_of_alphanum (f.word_alphanum _ h) rfl
  have hdecimal : ∀ n, '/' ∉ decimal n := fun n h => slash_ne_of_digit (isDigit_of_mem_decimal h) rfl
  simp [base, fields, Field.print, hdigits, hword, hdecimal, ht, htail]

/-- Each field of the name ends where the next one starts. -/
theorem delimited_fields (hne : t ≠ []) (ht : ∀ c ∈ t, c.isAlphanum)
    (htail : ∀ c ∈ tail.head?, c.isAlphanum = false) : Delimited tail (f.fields t) := by
  have hnumber : ∀ n c rest, c.isDigit = false →
      (Field.uint none (decimal n)).Delimited (c :: rest) := fun n c rest hc =>
    ⟨decimal_ne_nil n, fun _ => isDigit_of_mem_decimal, .inr ⟨rfl, fun d hd => by
      cases hd
      exact hc⟩⟩
  refine ⟨⟨?_, f.digits_digit, .inl ?_⟩, trivial, ⟨f.word_ne, f.word_alphanum, ?_⟩, trivial,
    hnumber _ _ _ rfl, trivial, hnumber _ _ _ rfl, trivial, hnumber _ _ _ rfl, trivial, trivial,
    trivial, ⟨hne, ht, htail⟩, trivial⟩
  · intro hnil
    have hlength := f.digits_length
    rw [hnil] at hlength
    cases hlength
  · rw [f.digits_length]
  · intro c hc
    cases hc
    rfl

/-- What is scanned from a name, up to the colour space. -/
theorem scan_base (hne : t ≠ []) (ht : ∀ c ∈ t, c.isAlphanum)
    (htail : ∀ c ∈ tail.head?, c.isAlphanum = false) :
    scan pyuvFormat (f.base t tail) = (f.fields t).flatMap Field.values ++
      scan [.lit '.', .set Char.isLower] tail :=
  scan_print (delimited_fields hne ht htail)

/-- The name is read back, but for the extension, which is what is left of the scan. -/
theorem decode_base {ext : Option (List Char)} (hslash : '/' ∉ t) (hslash' : '/' ∉ tail) (hne : t ≠ [])
    (ht : ∀ c ∈ t, c.isAlphanum) (htail : ∀ c ∈ tail.head?, c.isAlphanum = false)
    (hext : scan [.lit '.', .set Char.isLower] tail = (ext.map Value.text).toList)
    (uninitFourcc uninitExt : List Char) :
    pyuvDecodeFilename uninitFourcc uninitExt (f.path ++ f.base t tail) = {
      width := f.width
      height := f.modHeight
      fps := f.fps
      color := pyuvGetColorSpace t (ext.getD uninitExt)
      writes := (255, f.word.length + 1) :: (5, t.length + 1) ::
        ext.toList.map fun t => (10, t.length + 1) } := by
  -- all fields up to the colour space are found, whatever becomes of the extension
  have hvalues : scan pyuvFormat (f.base t tail) =
      .num (Nat.ofDigitChars 10 f.digits 0 : Nat) :: .text f.word ::
        .num (Nat.ofDigitChars 10 (decimal f.width) 0 : Nat) ::
        .num (Nat.ofDigitChars 10 (decimal f.modHeight) 0 : Nat) ::
        .num (Nat.ofDigitChars 10 (decimal f.fps) 0 : Nat) :: .text t ::
        (ext.map Value.text).toList := by
    rw [scan_base hne ht htail, hext]
    rfl
  have hwidth := storedNum_decimal f.width_lt
  have hheight := storedNum_decimal f.modHeight_lt
  have hfps := storedNum_decimal f.fps_lt
  rw [pyuvDecodeFilename, f.throughPath_eq (slash_notMem_base hslash hslash'), hvalues]
  cases ext <;> simp [storedText, hwidth, hheight, hfps]

/-! ## The main result -/

/-- The entries of the table but for the two whose name has an underscore. -/
theorem table_plain : ∀ e ∈ fourccNames, e.fourcc ≠ fourccY16 ∧ e.fourcc ≠ fourccY32 →
    (e.name ≠ [] ∧ (∀ c ∈ e.name, c.isAlphanum) ∧ e.name.length ≤ 4) ∧
      (e.ext ≠ [] ∧ (∀ c ∈ e.ext, c.isLower) ∧ e.ext.length ≤ 9) ∧
      pyuvGetColorSpaceName (pyuvGetColorSpace e.name e.ext) = some e.name ∧
      pyuvGetFileExtension (pyuvGetColorSpace e.name e.ext) = some e.ext := by
  simp only [← List.all_eq_true]
  decide

theorem table_underscore : ∀ e ∈ fourccNames, ¬(e.fourcc ≠ fourccY16 ∧ e.fourcc ≠ fourccY32) →
    ∃ u ∈ [['1', '6', 'b'], ['3', '2', 'b']], e.name = ['P', '4', '0', '0'] ++ '_' :: u ∧
      '/' ∉ '_' :: u ++ '.' :: e.ext := by
  decide

/-- Every colour has its own entry. -/
theorem table_lookup : ∀ e ∈ fourccNames, pyuvGetColorSpaceName e.fourcc = some e.name ∧
    pyuvGetFileExtension e.fourcc = some e.ext := by
  decide

/-- A name without an underscore is not read as that of a colour with one. -/
theorem colorSpaceName_p400 (ext : List Char) :
    pyuvGetColorSpaceName (pyuvGetColorSpace ['P', '4', '0', '0'] ext) = some ['P', '4', '0', '0'] := by
  rw [pyuvGetColorSpace]
  split
  · next e he =>
    have hname : e.name = ['P', '4', '0', '0'] ∧ e.ext = ext := by simpa using List.find?_some he
    rw [(table_lookup e (List.mem_of_find?_eq_some he)).1, hname.1]
  · rfl

theorem filename_eq {e : FourccName} (he : e ∈ fourccNames) (hfourcc : e.fourcc = f.fourcc)
    {u : List Char} (hname : e.name = t ++ u) :
    pyuvGetFilename f.path (f.digits ++ '_' :: f.word) f.width f.height f.fps f.fourcc =
      some (f.path ++ f.base t (u ++ '.' :: e.ext)) := by
  obtain ⟨hcolor, hext⟩ := table_lookup e he
  rw [hfourcc] at hcolor hext
  rw [pyuvGetFilename, hcolor, hext, hname, ← modHeight]
  simp [base, fields, Field.print]

theorem slash_notMem_of_alphanum {u : List Char} (hu : ∀ c ∈ u, c.isAlphanum) : '/' ∉ u := fun hmem =>
  slash_ne_of_alphanum (hu _ hmem) rfl

/-- The extension is read up to the end. -/
theorem scan_ext {ext : List Char} (hne : ext ≠ []) (hlower : ∀ c ∈ ext, c.isLower) :
    scan [.lit '.', .set Char.isLower] ('.' :: ext) = ((some ext).map Value.text).toList := by
  have hfields : Delimited [] [.lit '.', .set Char.isLower ext] :=
    ⟨trivial, ⟨hne, hlower, fun c hc => by cases hc⟩, trivial⟩
  have hscan : scan (_ ++ []) _ = _ ++ scan [] [] := scan_print hfields
  simpa [Field.print, Field.directive, Field.values, scan] using hscan

/-- A colour without an underscore is read back, and with it all but the height. -/
theorem roundTrips_plain_iff {e : FourccName} (he : e ∈ fourccNames) (hfourcc : e.fourcc = f.fourcc)
    (hplain : e.fourcc ≠ fourccY16 ∧ e.fourcc ≠ fourccY32) :
    f.RoundTrips ↔ f.word.length ≤ 254 ∧
      (f.fourcc = fourccNv12 ∨ f.fourcc = fourccNv21 → f.height = 0) := by
  obtain ⟨hcolor, hextension⟩ := table_lookup e he
  rw [hfourcc] at hcolor hextension
  obtain ⟨⟨hne, halphanum, hlength⟩, ⟨hextNe, hlower, hextLength⟩, hcolor', hextension'⟩ :=
    table_plain e he hplain
  have hslashExt : '/' ∉ '.' :: e.ext := by
    rw [List.mem_cons, not_or]
    exact ⟨by decide, fun hmem => absurd (hlower _ hmem) (by decide)⟩
  have hdot : ∀ c ∈ ('.' :: e.ext).head?, c.isAlphanum = false := fun c hc => by
    cases hc
    rfl
  have hfile := filename_eq he hfourcc (List.append_nil e.name).symm
  rw [List.nil_append] at hfile
  have hdecode := decode_base (f := f) (slash_notMem_of_alphanum halphanum) hslashExt hne halphanum hdot
    (scan_ext hextNe hlower)
  constructor
  · rintro ⟨filename, hfile', hall⟩
    cases hfile.symm.trans hfile'
    -- what the strings held before does not matter
    have hread := hall [] []
    dsimp only at hread
    rw [hdecode] at hread
    obtain ⟨-, hheight, -, -, -, hwrites⟩ := hread
    have hword := hwrites (255, f.word.length + 1) List.mem_cons_self
    exact ⟨Nat.le_of_succ_le_succ hword, modHeight_eq_iff.mp hheight⟩
  · rintro ⟨hword, hheight⟩
    refine ⟨_, hfile, fun uninitFourcc uninitExt => ?_⟩
    dsimp only
    rw [hdecode]
    refine ⟨rfl, modHeight_eq_iff.mpr hheight, rfl, hcolor'.trans hcolor.symm,
      hextension'.trans hextension.symm, ?_⟩
    simp only [Option.toList_some, List.map_cons, List.map_nil, List.forall_mem_cons]
    exact ⟨Nat.succ_le_succ hword, Nat.succ_le_succ hlength, Nat.succ_le_succ hextLength,
      fun w hw => absurd hw List.not_mem_nil⟩

/-- A colour with an underscore is read up to it, where the scan ends. -/
theorem not_roundTrips_underscore {e : FourccName} (he : e ∈ fourccNames)
    (hfourcc : e.fourcc = f.fourcc) (hplain : ¬(e.fourcc ≠ fourccY16 ∧ e.fourcc ≠ fourccY32)) :
    ¬f.RoundTrips := by
  have hcolor := (table_lookup e he).1
  rw [hfourcc] at hcolor
  obtain ⟨u, -, hname, hslash⟩ := table_underscore e he hplain
  rintro ⟨filename, hfile, hall⟩
  cases (filename_eq he hfourcc hname).symm.trans hfile
  have hread : scan [.lit '.', .set Char.isLower] ('_' :: u ++ '.' :: e.ext) =
      ((none : Option (List Char)).map Value.text).toList :=
    scan_lit_of_ne (by decide)
  have hdecode := decode_base (f := f) (t := ['P', '4', '0', '0']) (by decide) hslash
    (List.cons_ne_nil _ _) (List.all_eq_true.mp rfl) (fun c hc => by
      cases hc
      rfl) hread [] []
  have hback := hall [] []
  dsimp only at hback
  rw [hdecode] at hback
  -- Whatever the extension is, the colour that is found has the short name.
  have hcolorName : pyuvGetColorSpaceName (pyuvGetColorSpace ['P', '4', '0', '0'] []) = some e.name :=
    hback.2.2.2.1.trans hcolor
  rw [colorSpaceName_p400, hname] at hcolorName
  have hrest := List.append_cancel_left ((List.append_nil _).trans (Option.some.inj hcolorName))
  cases hrest

/-- The name is read back exactly when the word has room for its `NUL`, the name of the colour space has no
underscore, and the height is not scaled. -/
theorem roundTrips_iff (f : PyuvFile) : f.RoundTrips ↔
    f.word.length ≤ 254 ∧ (f.fourcc ≠ fourccY16 ∧ f.fourcc ≠ fourccY32) ∧
      (f.fourcc = fourccNv12 ∨ f.fourcc = fourccNv21 → f.height = 0) := by
  obtain ⟨e, he, hfourcc⟩ := List.mem_map.mp f.fourcc_mem
  by_cases hplain : f.fourcc ≠ fourccY16 ∧ f.fourcc ≠ fourccY32
  · rw [roundTrips_plain_iff he hfourcc (hfourcc ▸ hplain), and_iff_right hplain]
  · exact iff_of_false (not_roundTrips_underscore he hfourcc (hfourcc ▸ hplain)) fun h => hplain h.2.1

end PyuvFile

/-- `01_a_2x2_30Hz` in one of the colours. -/
def smallFile (fourcc : BitVec 32) (hfourcc : fourcc ∈ fourccNames.map FourccName.fourcc) : PyuvFile where
  path := []
  digits := ['0', '1']
  word := ['a']
  width := 2
  height := 2
  fps := 30
  fourcc := fourcc
  path_ends := .inl rfl
  digits_length := rfl
  digits_digit := List.all_eq_true.mp rfl
  word_ne := by decide
  word_alphanum := List.all_eq_true.mp rfl
  width_lt := by decide
  height_lt := by decide
  fps_lt := by decide
  fourcc_mem := hfourcc
  height_semi _ := by decide

/-- A picture of two lines with half as many lines of chroma is read back with three lines, and the colour of
16 bit luma as that of 8 bit luma. -/
theorem not_roundTrips : ¬(smallFile fourccNv12 (by decide)).RoundTrips ∧
    ¬(smallFile fourccY16 (by decide)).RoundTrips := by
  constructor
  · rintro ⟨filename, hfile, hall⟩
    have hname : filename = ['0', '1', '_', 'a', '_', '2', 'x', '3', '_', '3', '0', 'H', 'z', '_', 'P', '4',
        '0', '0', '.', 'b', 'w'] := (Option.some.inj hfile).symm
    have hheight := (hall [] []).2.1
    rw [hname] at hheight
    exact absurd hheight (by decide)
  · rintro ⟨filename, hfile, hall⟩
    have hname : filename = ['0', '1', '_', 'a', '_', '2', 'x', '2', '_', '3', '0', 'H', 'z', '_', 'P', '4',
        '0', '0', '_', '1', '6', 'b', '.', 'b', 'w'] := (Option.some.inj hfile).symm
    have hcolor := (hall [] []).2.2.2.1
    rw [hname] at hcolor
    exact absurd hcolor (by decide)

end DVP.Sosal.Pyuv
