import DVP.Sosal.Event

/-!
# The deadline of a timed wait

The start of `event_timed_wait` in `source/sosal/event.c`, which waits without a deadline for
`EVENT_FOREVER`, and otherwise until the time that `milliseconds_from_now` computes from the time of
day. The members of both times are of type `long`.

The carry into the seconds is taken when the fractions exceed a second, and not when they make up
exactly one: `timesOutAfter_iff` says when the deadline is normalised and exact.
-/

namespace DVP.Sosal

/-! ## The type `long` -/

namespace Arch

/-- The numbers of type `long` are from `-longBound` up to, and without, `longBound`. -/
def longBound : Arch → Int
  | arch32 => 2 ^ 31
  | arch64 => 2 ^ 63

/-- The result of a computation with two `long`, for which an overflow is undefined. -/
def long (a : Arch) (n : Int) : Option Int :=
  if -a.longBound ≤ n ∧ n < a.longBound then some n else none

/-- Addition of a `long` and a `uint32_t`, the result of which is stored in a `long`. A `long` of 32
bits is converted to `unsigned long` for it. -/
def longAddU32 (a : Arch) (x : Int) (n : BitVec 32) : Option Int :=
  match a with
  | arch32 => some ((x + n.toNat).bmod (2 ^ 32))
  | arch64 => arch64.long (x + n.toNat)

variable {a : Arch} {x y : Int} {n : BitVec 32}

theorem le_longBound : 2 ^ 31 ≤ a.longBound := by cases a <;> decide

theorem long_eq (hle : -a.longBound ≤ x) (hlt : x < a.longBound) : a.long x = some x :=
  if_pos ⟨hle, hlt⟩

theorem lt_of_long (h : a.long x = some y) : y < a.longBound := by
  unfold long at h
  split at h
  case isTrue hrange =>
    cases h
    exact hrange.2
  case isFalse => cases h

/-- The addition is exact if the sum is a `long`. -/
theorem longAddU32_eq (hle : -a.longBound ≤ x) (hlt : x + n.toNat < a.longBound) :
    a.longAddU32 x n = some (x + n.toNat) := by
  have hle' : -a.longBound ≤ x + n.toNat := by omega
  cases a with
  | arch32 =>
    simp only [longBound] at hle' hlt
    rw [longAddU32, Int.bmod_eq_of_le]
    · omega
    · omega
  | arch64 => exact long_eq hle' hlt

theorem lt_of_longAddU32 (h : a.longAddU32 x n = some y) : y < a.longBound := by
  cases a with
  | arch32 =>
    cases h
    exact Int.bmod_lt (by decide)
  | arch64 => exact lt_of_long h

end Arch

/-! ## Times -/

/-- The `struct timeval` of `gettimeofday`. -/
structure Timeval (a : Arch) where
  tvSec : Int
  tvUsec : Int
  le_tvSec : -a.longBound ≤ tvSec
  tvSec_lt : tvSec < a.longBound
  tvUsec_nonneg : 0 ≤ tvUsec
  tvUsec_lt : tvUsec < 10 ^ 6

/-- `struct timespec`. -/
structure Timespec where
  tvSec : Int
  tvNsec : Int
  deriving DecidableEq, Repr

/-- The time in nanoseconds. -/
def Timeval.nanoseconds {a : Arch} (t : Timeval a) : Int := t.tvSec * 10 ^ 9 + t.tvUsec * 10 ^ 3

/-- The time in nanoseconds. -/
def Timespec.nanoseconds (t : Timespec) : Int := t.tvSec * 10 ^ 9 + t.tvNsec

/-- The nanoseconds are a fraction of a second. -/
def Timespec.Normalised (t : Timespec) : Prop := 0 ≤ t.tvNsec ∧ t.tvNsec < 10 ^ 9

/-! ## The timed wait -/

variable {a : Arch}

/-- `milliseconds_from_now`. -/
def millisecondsFromNow (now : Timeval a) (milliseconds : BitVec 32) : Option Timespec := do
  let tvSec ← a.longAddU32 now.tvSec (milliseconds / 1000)
  let nsec ← a.long (now.tvUsec * 1000)
  let tvNsec ← a.longAddU32 nsec (milliseconds % 1000 * 1000000)
  -- a fraction of exactly one second stays where it is
  if 1000000000 < tvNsec then
    let tvSec ← a.long (tvSec + 1)
    let tvNsec ← a.long (tvNsec - 1000000000)
    return { tvSec, tvNsec }
  else
    return { tvSec, tvNsec }

/-- `EVENT_FOREVER`. -/
def eventForever : BitVec 32 := 0xFFFFFFFF

/-- How `event_timed_wait` waits for the condition variable. -/
inductive CondWait where
  /-- `pthread_cond_wait`. -/
  | untimed
  /-- `pthread_cond_timedwait`. -/
  | timed (timeSpec : Timespec)
  deriving DecidableEq, Repr

/-- The start of `event_timed_wait`. -/
def eventCondWait (now : Timeval a) (ms : BitVec 32) : Option CondWait :=
  if ms < eventForever then (millisecondsFromNow now ms).map .timed else some .untimed

/-- The wait has a normalised deadline, which is that many milliseconds from now. -/
def TimesOutAfter (now : Timeval a) (ms : BitVec 32) : Prop :=
  ∃ t, eventCondWait now ms = some (.timed t) ∧ t.Normalised ∧
    t.nanoseconds = now.nanoseconds + ms.toNat * 10 ^ 6

/-- The fraction of a second of the time of day and that of the timeout, in nanoseconds. -/
def fraction (now : Timeval a) (ms : BitVec 32) : Int :=
  now.tvUsec * 1000 + (ms.toNat % 1000 * 1000000 : Nat)

section Fraction

variable (now : Timeval a) (ms : BitVec 32)

theorem fraction_nonneg : 0 ≤ fraction now ms := by
  have hnonneg := now.tvUsec_nonneg
  unfold fraction
  omega

theorem fraction_lt : fraction now ms < 2 * 10 ^ 9 := by
  have hlt := now.tvUsec_lt
  unfold fraction
  omega

/-- The seconds and the fractions are all of the time. -/
theorem nanoseconds_add :
    now.nanoseconds + ms.toNat * 10 ^ 6 =
      (now.tvSec + (ms.toNat / 1000 : Nat)) * 10 ^ 9 + fraction now ms := by
  unfold Timeval.nanoseconds fraction
  omega

/-- The fraction is computed without an overflow. -/
theorem longAddU32_fraction :
    (a.long (now.tvUsec * 1000)).bind (a.longAddU32 · (ms % 1000 * 1000000)) =
      some (fraction now ms) := by
  have hnonneg := now.tvUsec_nonneg
  have hlt := now.tvUsec_lt
  have hbound := a.le_longBound
  have hms : (ms % 1000 * 1000000).toNat = ms.toNat % 1000 * 1000000 := by
    have hmod : (ms % 1000).toNat = ms.toNat % 1000 := BitVec.toNat_umod
    rw [BitVec.toNat_mul, hmod]
    exact Nat.mod_eq_of_lt (by simp; omega)
  rw [Arch.long_eq (by omega) (by omega), Option.bind_some, Arch.longAddU32_eq (by omega), hms,
    fraction]
  rw [hms]
  omega

end Fraction

section Deadline

variable {now : Timeval a} {ms : BitVec 32} {t : Timespec}

theorem millisecondsFromNow_eq :
    millisecondsFromNow now ms =
      (a.longAddU32 now.tvSec (ms / 1000)).bind fun tvSec =>
        if 1000000000 < fraction now ms then
          (a.long (tvSec + 1)).map fun tvSec => ⟨tvSec, fraction now ms - 1000000000⟩
        else some ⟨tvSec, fraction now ms⟩ := by
  have hnonneg := fraction_nonneg now ms
  have hlt := fraction_lt now ms
  have hbound := a.le_longBound
  obtain ⟨nsec, hnsec, hfraction⟩ := Option.bind_eq_some_iff.mp
    (longAddU32_fraction now ms)
  simp only [millisecondsFromNow, Option.bind_eq_bind, hnsec, Option.bind_some, hfraction]
  congr 1
  funext tvSec
  by_cases hcarry : 1000000000 < fraction now ms
  · rw [if_pos hcarry, if_pos hcarry, Option.map_eq_bind,
      a.long_eq (x := fraction now ms - 1000000000) (by omega) (by omega)]
    rfl
  · rw [if_neg hcarry, if_neg hcarry]
    rfl

/-- The seconds of a deadline are a `time_t`. -/
theorem tvSec_lt_of_millisecondsFromNow (h : millisecondsFromNow now ms = some t) :
    t.tvSec < a.longBound := by
  rw [millisecondsFromNow_eq] at h
  obtain ⟨tvSec, hsec, h⟩ := Option.bind_eq_some_iff.mp h
  split at h
  case isTrue =>
    obtain ⟨tvSec', hsec', rfl⟩ := Option.map_eq_some_iff.mp h
    exact Arch.lt_of_long hsec'
  case isFalse =>
    cases h
    exact Arch.lt_of_longAddU32 hsec

/-- Fractions that make up exactly one second stay in the nanoseconds. -/
theorem not_normalised_of_fraction (hfraction : fraction now ms = 10 ^ 9)
    (h : millisecondsFromNow now ms = some t) : ¬ t.Normalised := by
  rw [millisecondsFromNow_eq, hfraction] at h
  obtain ⟨tvSec, hsec, h⟩ := Option.bind_eq_some_iff.mp h
  rw [if_neg (by decide)] at h
  cases h
  exact fun hnorm => lt_irrefl _ hnorm.2

/-- The deadline, if its seconds are a `time_t` and the fractions do not make up exactly one
second. -/
theorem millisecondsFromNow_normalised (hfraction : fraction now ms ≠ 10 ^ 9)
    (hfits : now.nanoseconds + ms.toNat * 10 ^ 6 < a.longBound * 10 ^ 9) :
    ∃ t, millisecondsFromNow now ms = some t ∧ t.Normalised ∧
      t.nanoseconds = now.nanoseconds + ms.toNat * 10 ^ 6 := by
  have hnonneg := fraction_nonneg now ms
  have hlt := fraction_lt now ms
  have hle := now.le_tvSec
  rw [nanoseconds_add] at hfits ⊢
  have hdiv : (ms / 1000).toNat = ms.toNat / 1000 := BitVec.toNat_udiv
  have hsec : a.longAddU32 now.tvSec (ms / 1000) = some (now.tvSec + (ms.toNat / 1000 : Nat)) := by
    rw [Arch.longAddU32_eq hle, hdiv]
    rw [hdiv]
    omega
  rw [millisecondsFromNow_eq, hsec, Option.bind_some]
  -- a fraction that is not one second is either carried or below one second already
  by_cases hcarry : 1000000000 < fraction now ms
  · have hsec' := a.long_eq (x := now.tvSec + (ms.toNat / 1000 : Nat) + 1) (by omega) (by omega)
    rw [if_pos hcarry, hsec']
    refine ⟨_, rfl, ?_, ?_⟩
    · simp only [Timespec.Normalised]
      omega
    · simp only [Timespec.nanoseconds]
      omega
  · rw [if_neg hcarry]
    refine ⟨_, rfl, ?_, rfl⟩
    simp only [Timespec.Normalised]
    omega

end Deadline

/-- The deadline is normalised and exact unless the fractions make up exactly one second or it is
later than a `time_t`. -/
theorem timesOutAfter_iff (now : Timeval a) (ms : BitVec 32) (h : ms < eventForever) :
    TimesOutAfter now ms ↔
      now.tvUsec + (ms.toNat % 1000 * 1000 : Nat) ≠ 10 ^ 6 ∧
        now.nanoseconds + ms.toNat * 10 ^ 6 < a.longBound * 10 ^ 9 := by
  have hfraction :
      fraction now ms ≠ 10 ^ 9 ↔ now.tvUsec + (ms.toNat % 1000 * 1000 : Nat) ≠ 10 ^ 6 := by
    unfold fraction
    omega
  rw [← hfraction, TimesOutAfter, eventCondWait, if_pos h]
  constructor
  · rintro ⟨t, ht, hnorm, hexact⟩
    obtain ⟨_, ht, hinj⟩ := Option.map_eq_some_iff.mp ht
    cases hinj
    constructor
    · exact fun heq => not_normalised_of_fraction heq ht hnorm
    -- seconds that are a `time_t` and a fraction below one second bound the deadline
    · have hsec := tvSec_lt_of_millisecondsFromNow ht
      have hnsec := hnorm.2
      unfold Timespec.nanoseconds at hexact
      omega
  · rintro ⟨hne, hfits⟩
    obtain ⟨t, ht, hnorm, hexact⟩ := millisecondsFromNow_normalised hne hfits
    exact ⟨t, by rw [ht]; rfl, hnorm, hexact⟩

/-- Half a second after a full second. -/
def halfPast : Timeval .arch64 :=
  { tvSec := 1700000000, tvUsec := 500000, le_tvSec := by decide, tvSec_lt := by decide
    tvUsec_nonneg := by decide, tvUsec_lt := by decide }

/-- A timeout of 1.6 seconds then ends normalised. -/
theorem timesOutAfter_halfPast : (1600 : BitVec 32) < eventForever ∧ TimesOutAfter halfPast 1600 :=
  ⟨by decide, (timesOutAfter_iff halfPast 1600 (by decide)).mpr ⟨by decide, by decide⟩⟩

/-- A timeout of 1.5 seconds has the deadline 1700000001 s and `10 ^ 9` ns. -/
theorem not_timesOutAfter_halfPast :
    ¬ ∀ (a : Arch) (now : Timeval a) (ms : BitVec 32), ms < eventForever →
      TimesOutAfter now ms := by
  intro hall
  obtain ⟨t, ht, hnorm, -⟩ := hall .arch64 halfPast 1500 (by decide)
  have hcall : eventCondWait halfPast 1500 = some (.timed ⟨1700000001, 1000000000⟩) := by decide
  rw [hcall] at ht
  cases ht
  exact absurd hnorm.2 (by decide)

end DVP.Sosal
