import DVP.Lib.Tally
import Mathlib.Tactic.Linarith

/-!
# The histogram

The histogram of `source/sosal/histogram.c`. A call gives `none` where its arithmetic is undefined
in C: a signed operation that overflows, or a division by zero.

`histogram_init` takes the difference of the ends of the range, and the other functions that of a
value and the lower end, both as `int32_t`. A range of `2 ^ 31` values or more makes the first
overflow. Below that the histogram is the tally of the values that are in its range.
-/

namespace DVP.Sosal

/-- `histogram_t`. The bins are `NULL` or the words `calloc` gave. -/
structure Histogram where
  bins : Option (List (BitVec 32))
  numBins : BitVec 32
  binRange : BitVec 32
  min : BitVec 32
  max : BitVec 32
  deriving DecidableEq, Repr

/-- Addition of two `int32_t`. -/
def saddInt32 (x y : BitVec 32) : Option (BitVec 32) :=
  if BitVec.saddOverflow x y then none else some (x + y)

/-- Subtraction of two `int32_t`. -/
def ssubInt32 (x y : BitVec 32) : Option (BitVec 32) :=
  if BitVec.ssubOverflow x y then none else some (x - y)

/-- Division of two `int32_t`. -/
def sdivInt32 (x y : BitVec 32) : Option (BitVec 32) :=
  if y = 0 then none else if BitVec.sdivOverflow x y then none else some (x.sdiv y)

/-- Division of two `uint32_t`. -/
def udivUint32 (x y : BitVec 32) : Option (BitVec 32) :=
  if y = 0 then none else some (x / y)

/-- The remainder of two `uint32_t`. -/
def umodUint32 (x y : BitVec 32) : Option (BitVec 32) :=
  if y = 0 then none else some (x % y)

/-- `histogram_init`. The difference is converted to `uint32_t` before it is divided, since the
number of bins is one. -/
def histogramInit (calloc : Bool) (bins min max : BitVec 32) : Option (Histogram × Bool) := do
  let difference ← ssubInt32 max min
  let binRange ← udivUint32 difference bins
  let rest ← umodUint32 difference bins
  let binRange ← (if 0 < rest then saddInt32 binRange 1 else some binRange)
  let memory := if calloc then some (List.replicate bins.toNat 0) else none
  return ({ bins := memory, numBins := bins, binRange, min, max }, memory.isSome)

/-- The value is in the range from `min` to `max`, of which `max` is no part. -/
def InRange (min max value : BitVec 32) : Prop := min.sle value ∧ value.slt max

instance (min max value : BitVec 32) : Decidable (InRange min max value) :=
  inferInstanceAs (Decidable (_ ∧ _))

/-- The bin of a value, which `histogram_inc` and `histogram_get` both compute: `none` if it is out
of range. -/
def binIdx (h : Histogram) (value : BitVec 32) : Option (Option (BitVec 32)) :=
  if InRange h.min h.max value then do
    let difference ← ssubInt32 value h.min
    let binIdx ← sdivInt32 difference h.binRange
    return if binIdx < h.numBins then some binIdx else none
  else some none

/-- `histogram_inc`. -/
def histogramInc (h : Histogram) (value : BitVec 32) : Option Histogram := do
  let some binIdx ← binIdx h value | return h
  let words ← h.bins
  let _ ← words[binIdx.toNat]?
  return { h with bins := some (words.modify binIdx.toNat (· + 1)) }

/-- `histogram_get`. -/
def histogramGet (h : Histogram) (value : BitVec 32) : Option (BitVec 32) := do
  let some binIdx ← binIdx h value | return 0
  let words ← h.bins
  words[binIdx.toNat]?

/-- Calls of `histogram_inc`, one after the other. -/
def histogramIncs (h : Histogram) (values : List (BitVec 32)) : Option Histogram :=
  values.foldlM histogramInc h

section Arithmetic

variable {x y : BitVec 32}

/-- A difference that 32 bits hold is the difference. -/
theorem ssubInt32_eq_some (h : -2 ^ 31 ≤ x.toInt - y.toInt ∧ x.toInt - y.toInt < 2 ^ 31) :
    ssubInt32 x y = some (x - y) := by
  rw [ssubInt32, if_neg]
  simp only [BitVec.ssubOverflow, Bool.or_eq_true, decide_eq_true_eq]
  omega

/-- A difference that is too great is an overflow. -/
theorem ssubInt32_eq_none (h : 2 ^ 31 ≤ x.toInt - y.toInt) : ssubInt32 x y = none := by
  rw [ssubInt32, if_pos]
  simp only [BitVec.ssubOverflow, Bool.or_eq_true, decide_eq_true_eq]
  omega

/-- A difference that is not negative, as a number. -/
theorem toNat_sub_of_le (hle : y.toInt ≤ x.toInt) (hlt : x.toInt - y.toInt < 2 ^ 31) :
    ((x - y).toNat : Int) = x.toInt - y.toInt := by
  have hx := x.isLt
  have hy := y.isLt
  rw [BitVec.toInt_eq_toNat_cond, BitVec.toInt_eq_toNat_cond] at *
  rw [BitVec.toNat_sub]
  omega

/-- A small number is the same with and without a sign. -/
theorem toInt_of_lt (hx : x.toNat < 2 ^ 31) : x.toInt = x.toNat := by
  rw [BitVec.toInt_eq_toNat_cond, if_pos (by omega)]

/-- Division of numbers that are not negative. -/
theorem sdivInt32_eq_some (hx : x.toNat < 2 ^ 31) (hy : y.toNat < 2 ^ 31) (hpos : 0 < y.toNat) :
    ∃ q, sdivInt32 x y = some q ∧ q.toNat = x.toNat / y.toNat := by
  have hne : y ≠ 0 := by
    rintro rfl
    exact absurd hpos (lt_irrefl 0)
  -- only the least number divided by `-1` overflows, and no quotient here is above `x`
  have hover : ¬BitVec.sdivOverflow x y = true := by
    have hle : x.toNat / y.toNat ≤ x.toNat := Nat.div_le_self ..
    simp only [BitVec.sdivOverflow, Bool.or_eq_true, decide_eq_true_eq, toInt_of_lt hx,
      toInt_of_lt hy, ← Int.natCast_ediv]
    generalize x.toNat / y.toNat = q at hle ⊢
    omega
  -- without a sign the signed division is the unsigned one
  have hxmsb : x.msb = false := by simpa [BitVec.msb_eq_decide] using hx
  have hymsb : y.msb = false := by simpa [BitVec.msb_eq_decide] using hy
  refine ⟨x / y, ?_, BitVec.toNat_udiv⟩
  rw [sdivInt32, if_neg hne, if_neg hover, BitVec.sdiv_eq, hxmsb, hymsb]
  rfl

/-- A division by a positive number succeeds. -/
theorem udivUint32_eq_some (hy : 0 < y.toNat) : udivUint32 x y = some (x / y) := by
  rw [udivUint32, if_neg]
  rintro rfl
  exact absurd hy (lt_irrefl 0)

/-- The remainder of a division by a positive number is there. -/
theorem umodUint32_eq_some (hy : 0 < y.toNat) : umodUint32 x y = some (x % y) := by
  rw [umodUint32, if_neg]
  rintro rfl
  exact absurd hy (lt_irrefl 0)

end Arithmetic

/-- The range is compared with signs. -/
theorem inRange_iff {min max value : BitVec 32} :
    InRange min max value ↔ min.toInt ≤ value.toInt ∧ value.toInt < max.toInt := by
  simp [InRange, BitVec.sle, BitVec.slt]

/-- A histogram whose bins cover its range, which has less than `2 ^ 31` values. -/
structure Histogram.Covers (h : Histogram) : Prop where
  /-- The range is not empty. -/
  lt : h.min.toInt < h.max.toInt
  /-- Differences in the range can be taken as `int32_t`. -/
  fits : h.max.toInt - h.min.toInt < 2 ^ 31
  pos : 0 < h.binRange.toNat
  narrow : h.binRange.toNat < 2 ^ 31
  /-- The bins reach the upper end. -/
  covers : h.max.toInt - h.min.toInt ≤ h.binRange.toNat * h.numBins.toNat

/-- The bin that a value belongs to. -/
def Histogram.binOf (h : Histogram) (value : BitVec 32) : Option Nat :=
  if InRange h.min h.max value then
    some ((value.toInt - h.min.toInt).toNat / h.binRange.toNat)
  else none

namespace Histogram.Covers

variable {h : Histogram} {value : BitVec 32} {words : List (BitVec 32)} {i : Nat}

/-- A value is in one of the bins. -/
theorem binOf_lt (hc : h.Covers) (hi : h.binOf value = some i) : i < h.numBins.toNat := by
  unfold Histogram.binOf at hi
  split at hi
  case isTrue hrange =>
    have hrange := inRange_iff.mp hrange
    have hcovers := hc.covers
    rw [← Option.some.inj hi, Nat.div_lt_iff_lt_mul hc.pos, Nat.mul_comm]
    zify
    omega
  case isFalse => cases hi

/-- The functions compute the bin that the value belongs to, with no undefined arithmetic. -/
theorem binIdx_of_some (hc : h.Covers) (hi : h.binOf value = some i) :
    ∃ b, binIdx h value = some (some b) ∧ b.toNat = i := by
  have hlt := hc.binOf_lt hi
  unfold Histogram.binOf at hi
  split at hi
  case isTrue hrange =>
    have hin := inRange_iff.mp hrange
    have hfits := hc.fits
    have hdiff := toNat_sub_of_le hin.1 (by omega)
    obtain ⟨b, hb, hbi⟩ := sdivInt32_eq_some (x := value - h.min) (by omega) hc.narrow hc.pos
    have hbi : b.toNat = i := by
      rw [hbi, ← Option.some.inj hi]
      congr 1
      omega
    refine ⟨b, ?_, hbi⟩
    have hbins : b < h.numBins := by
      rw [BitVec.lt_def, hbi]
      exact hlt
    rw [binIdx, if_pos hrange, ssubInt32_eq_some (by omega)]
    simp [hb, hbins]
  case isFalse => cases hi

/-- A value out of range has no bin. -/
theorem binIdx_of_none (hi : h.binOf value = none) : binIdx h value = some none := by
  unfold Histogram.binOf at hi
  split at hi
  case isTrue => cases hi
  case isFalse hrange => exact if_neg hrange

/-- `histogram_inc` counts a value in its bin and changes nothing else. -/
theorem histogramInc_of_some (hc : h.Covers) (hwords : h.bins = some words)
    (hlen : words.length = h.numBins.toNat) (hi : h.binOf value = some i) :
    histogramInc h value = some { h with bins := some (words.modify i (· + 1)) } := by
  obtain ⟨b, hb, hbi⟩ := hc.binIdx_of_some hi
  have hin : i < words.length := by
    rw [hlen]
    exact hc.binOf_lt hi
  simp only [histogramInc, hb, hwords, Option.bind_eq_bind, Option.bind_some, hbi,
    List.getElem?_eq_getElem hin]
  rfl

/-- A value out of range is not counted. -/
theorem histogramInc_of_none (hi : h.binOf value = none) : histogramInc h value = some h := by
  simp [histogramInc, binIdx_of_none hi]

/-- `histogram_get` reads the bin of the value. -/
theorem histogramGet_of_some (hc : h.Covers) (hwords : h.bins = some words)
    (hi : h.binOf value = some i) : histogramGet h value = words[i]? := by
  obtain ⟨b, hb, hbi⟩ := hc.binIdx_of_some hi
  simp [histogramGet, hb, hwords, hbi]

end Histogram.Covers

/-- A histogram with other bins. -/
def Histogram.withBins (h : Histogram) (words : List (BitVec 32)) : Histogram :=
  { h with bins := some words }

section Runs

variable {h : Histogram} {values : List (BitVec 32)}

/-- The words that count the values. -/
def Histogram.counted (h : Histogram) (values : List (BitVec 32)) : List (BitVec 32) :=
  (values.tally h.binOf h.numBins.toNat).map (BitVec.ofNat 32)

/-- There are as many counts as bins. -/
theorem length_counted : (h.counted values).length = h.numBins.toNat := by
  simp [Histogram.counted]

/-- Nothing was counted. -/
theorem counted_nil : h.counted [] = List.replicate h.numBins.toNat 0 := by
  simp [Histogram.counted]

/-- A value in range adds to its bin. -/
theorem counted_append_of_some {value : BitVec 32} {i : Nat} (hi : h.binOf value = some i) :
    h.counted (values ++ [value]) = (h.counted values).modify i (· + 1) := by
  rw [Histogram.counted, List.tally_append_of_some hi,
    List.map_modify_succ (s := (· + 1)) fun c => BitVec.ofNat_add c 1, Histogram.counted]

/-- A value out of range adds to no bin. -/
theorem counted_append_of_none {value : BitVec 32} (hi : h.binOf value = none) :
    h.counted (values ++ [value]) = h.counted values := by
  rw [Histogram.counted, List.tally_append_of_none hi, Histogram.counted]

/-- After any calls the bins count the values, modulo `2 ^ 32`. -/
theorem histogramIncs_eq (hc : h.Covers)
    (hbins : h.bins = some (List.replicate h.numBins.toNat 0)) (values : List (BitVec 32)) :
    histogramIncs h values = some (h.withBins (h.counted values)) := by
  -- induction on the last call: the words before it count the values before it
  induction values using List.reverseRecOn with
  | nil =>
    rw [counted_nil, Histogram.withBins, ← hbins]
    rfl
  | append_singleton values value ih =>
    have hc' : (h.withBins (h.counted values)).Covers :=
      ⟨hc.lt, hc.fits, hc.pos, hc.narrow, hc.covers⟩
    rw [histogramIncs, List.foldlM_append, ← histogramIncs, ih]
    show List.foldlM histogramInc (h.withBins (h.counted values)) [value] = _
    rw [List.foldlM_cons]
    cases hi : (h.withBins (h.counted values)).binOf value with
    | none =>
      rw [Histogram.Covers.histogramInc_of_none hi, counted_append_of_none (h := h) hi]
      rfl
    | some i =>
      rw [hc'.histogramInc_of_some rfl length_counted hi, counted_append_of_some (h := h) hi]
      rfl

/-- Fewer than `2 ^ 32` values do not wrap a bin. -/
theorem sum_counted (hc : h.Covers) (hlen : values.length < 2 ^ 32) :
    ((h.counted values).map BitVec.toNat).sum =
      values.countP fun value => InRange h.min h.max value := by
  -- a bin counts at most all the values, so that no word wraps
  have hsmall : (h.counted values).map BitVec.toNat = values.tally h.binOf h.numBins.toNat := by
    apply List.ext_getElem
    · simp [Histogram.counted]
    · intro i hi hi'
      have hle := List.tally_le_length hi'
      simp only [Histogram.counted, List.getElem_map, BitVec.toNat_ofNat]
      exact Nat.mod_eq_of_lt (by omega)
  rw [hsmall, List.sum_tally fun value i => hc.binOf_lt]
  congr 1
  funext value
  unfold Histogram.binOf
  split
  case isTrue hrange => simp [hrange]
  case isFalse hrange => simp [hrange]

end Runs

section Init

variable {bins min max : BitVec 32}

/-- The rounded-up quotient is an `int32_t`, and that many values a bin reach the upper end. -/
theorem binRange_eq_some (difference : BitVec 32) (hbins : 0 < bins.toNat)
    (hpos : 0 < difference.toNat) (hfits : difference.toNat < 2 ^ 31) :
    ∃ w, (if 0 < difference % bins then saddInt32 (difference / bins) 1
        else some (difference / bins)) = some w ∧
      0 < w.toNat ∧ w.toNat < 2 ^ 31 ∧ difference.toNat ≤ w.toNat * bins.toNat := by
  have hq : (difference / bins).toNat = difference.toNat / bins.toNat := BitVec.toNat_udiv
  have hr : (difference % bins).toNat = difference.toNat % bins.toNat := BitVec.toNat_umod
  have hdivmod := Nat.div_add_mod' difference.toNat bins.toNat
  have hmod := Nat.mod_lt difference.toNat hbins
  rw [← hq, ← hr] at hdivmod
  rw [← hr] at hmod
  by_cases hrest : 0 < difference % bins
  · have hrest' : 0 < (difference % bins).toNat := by simpa [BitVec.lt_def] using hrest
    -- a remainder needs two bins, so the quotient is less than half of the difference
    have hhalf : (difference / bins).toNat * 2 ≤ difference.toNat := by
      have hmul := Nat.mul_le_mul_left (difference / bins).toNat (show 2 ≤ bins.toNat by omega)
      omega
    have hsucc : (difference / bins + 1).toNat = (difference / bins).toNat + 1 := by
      rw [BitVec.toNat_add]
      exact Nat.mod_eq_of_lt (by simp; omega)
    refine ⟨difference / bins + 1, ?_, by omega, by omega, ?_⟩
    · rw [if_pos hrest, saddInt32, if_neg]
      simp only [BitVec.saddOverflow, Bool.or_eq_true, decide_eq_true_eq,
        toInt_of_lt (show (difference / bins).toNat < 2 ^ 31 by omega)]
      rw [show (1 : BitVec 32).toInt = 1 from rfl]
      omega
    · rw [hsucc, Nat.add_mul]
      omega
  · have hrest' : (difference % bins).toNat = 0 := by
      simpa [BitVec.lt_def] using hrest
    refine ⟨difference / bins, if_neg hrest, ?_, ?_, by omega⟩
    · by_contra hzero
      rw [Nat.eq_zero_of_not_pos hzero] at hdivmod
      omega
    · have hle := Nat.div_le_self difference.toNat bins.toNat
      omega

/-- The histogram of `histogram_init`, if the difference of the ends is an `int32_t`. -/
theorem histogramInit_eq_some (hbins : 0 < bins.toNat) (hlt : min.toInt < max.toInt)
    (hfits : max.toInt - min.toInt < 2 ^ 31) :
    ∃ h : Histogram, histogramInit true bins min max = some (h, true) ∧ h.Covers ∧
      h.bins = some (List.replicate h.numBins.toNat 0) ∧ h.min = min ∧ h.max = max := by
  have hdiff := toNat_sub_of_le hlt.le hfits
  obtain ⟨w, hw, hpos, hnarrow, hcovers⟩ :=
    binRange_eq_some (max - min) hbins (by omega) (by omega)
  refine ⟨⟨some (List.replicate bins.toNat 0), bins, w, min, max⟩, ?_,
    ⟨hlt, hfits, hpos, hnarrow, ?_⟩, rfl, rfl, rfl⟩
  · unfold histogramInit
    rw [ssubInt32_eq_some (by omega)]
    simp only [Option.bind_eq_bind, Option.bind_some, udivUint32_eq_some hbins,
      umodUint32_eq_some hbins, hw, if_true]
    rfl
  · rw [← hdiff]
    exact_mod_cast hcovers

/-- A range that is too wide overflows. -/
theorem histogramInit_eq_none {calloc : Bool} (hwide : 2 ^ 31 ≤ max.toInt - min.toInt) :
    histogramInit calloc bins min max = none := by
  rw [histogramInit, ssubInt32_eq_none hwide]
  rfl

end Init

/-- The next value is counted once, in the bin that `histogram_get` reads for it, or changes no
bin if it is out of range. -/
def Histogram.CountsNext (h : Histogram) (min max value : BitVec 32) : Prop :=
  ∃ words words', h.bins = some words ∧ histogramInc h value = some (h.withBins words') ∧
    if InRange min max value then
      ∃ i, i < words.length ∧ words' = words.modify i (· + 1) ∧
        ∀ ws : List (BitVec 32), ws.length = words.length →
          histogramGet (h.withBins ws) value = ws[i]?
    else words' = words

/-- The histogram that `histogram_init` makes counts every value of its range once: no call has
undefined arithmetic, the bins sum up to the number of the values in the range, and each value
goes to its own bin. -/
def CountsOnce (bins min max : BitVec 32) : Prop :=
  ∃ h, histogramInit true bins min max = some (h, true) ∧
    ∀ values : List (BitVec 32), values.length < 2 ^ 32 → ∃ h' words,
      histogramIncs h values = some h' ∧ h'.bins = some words ∧
      (words.map BitVec.toNat).sum = values.countP (fun value => InRange min max value) ∧
      ∀ value, values.length + 1 < 2 ^ 32 → h'.CountsNext min max value

/-- With the counts of some values the next one is counted once. -/
theorem countsNext_counted {h : Histogram} {values : List (BitVec 32)} {value : BitVec 32}
    (hc : h.Covers) : (h.withBins (h.counted values)).CountsNext h.min h.max value := by
  have hc' : ∀ ws, (h.withBins ws).Covers := fun ws =>
    ⟨hc.lt, hc.fits, hc.pos, hc.narrow, hc.covers⟩
  by_cases hrange : InRange h.min h.max value
  · have hi : h.binOf value = some ((value.toInt - h.min.toInt).toNat / h.binRange.toNat) :=
      if_pos hrange
    refine ⟨h.counted values, _, rfl, (hc' _).histogramInc_of_some rfl length_counted hi, ?_⟩
    rw [if_pos hrange]
    refine ⟨_, ?_, rfl, fun ws hlen => (hc' ws).histogramGet_of_some rfl hi⟩
    rw [length_counted]
    exact hc.binOf_lt hi
  · have hi : h.binOf value = none := if_neg hrange
    refine ⟨h.counted values, _, rfl, Histogram.Covers.histogramInc_of_none hi, ?_⟩
    rw [if_neg hrange]

theorem countsOnce_iff {bins min max : BitVec 32} (hbins : 0 < bins.toNat)
    (hlt : min.toInt < max.toInt) :
    CountsOnce bins min max ↔ max.toInt - min.toInt < 2 ^ 31 := by
  constructor
  · rintro ⟨h, hinit, -⟩
    by_contra hwide
    rw [histogramInit_eq_none (Int.not_lt.mp hwide)] at hinit
    cases hinit
  · intro hfits
    obtain ⟨h, hinit, hc, hzero, rfl, rfl⟩ := histogramInit_eq_some hbins hlt hfits
    refine ⟨h, hinit, fun values hlen => ⟨_, _, histogramIncs_eq hc hzero values, rfl, ?_, ?_⟩⟩
    · exact sum_counted hc hlen
    · exact fun value _ => countsNext_counted hc

/-- The histogram of the unit test. -/
theorem countsOnce_unittest : CountsOnce 17 (-100) 100 :=
  (countsOnce_iff (by decide) (by decide)).mpr (by decide)

/-- The difference of the ends is `4000000000`. -/
theorem not_countsOnce_wide : ¬CountsOnce 100 (-2000000000) 2000000000 := by
  rintro ⟨h, hinit, -⟩
  rw [histogramInit_eq_none (by decide)] at hinit
  cases hinit

end DVP.Sosal
