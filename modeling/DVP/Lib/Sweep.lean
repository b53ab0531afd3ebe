import Mathlib.Data.Finset.Card
import Mathlib.Data.Finset.Basic
import Mathlib.Data.List.Induction
import Mathlib.Order.Basic

/-!
# Sweeps by key

A search that has no sorted list asks again and again for the entry with the next larger key, tries
it, and starts over from the smallest key when there is none. This module has the rules for it:

* `List.scanLastMin_spec`: a scan for the smallest key finds its last element;
* `Sweep.Ascends.sweep_eq_some`: what a sweep finds has the smallest key of all entries that can be
  taken;
* `Sweep.Ascends.isSome_sweep`: a sweep with enough tries finds an entry when one can be taken.
-/

namespace List

variable {α β : Type} [LinearOrder β]

/-- The element at `i` is the last one of the smallest key `k` among those with `p`. -/
structure IsLastMin (p : α → Bool) (key : α → β) (l : List α) (i : Nat) (k : β) : Prop where
  get : ∃ x, l[i]? = some x ∧ p x = true ∧ key x = k
  least : ∀ (j : Nat) (y : α), l[j]? = some y → p y = true → k ≤ key y
  last : ∀ (j : Nat) (y : α), l[j]? = some y → p y = true → key y = k → j ≤ i

/-- A scan for a key that is no larger than the best one so far. -/
def scanLastMin (p : α → Bool) (key : α → β) (l : List α) (best : Nat × β) : Nat × β :=
  l.zipIdx.foldl (fun best (x, i) => if p x = true ∧ key x ≤ best.2 then (i, key x) else best) best

/-- A scan ends at the last element of the smallest key, or with what it started. -/
theorem scanLastMin_spec (p : α → Bool) (key : α → β) (l : List α) (best : Nat × β) :
    (scanLastMin p key l best = best ∧ ∀ x ∈ l, p x = true → best.2 < key x) ∨
      (scanLastMin p key l best).2 ≤ best.2 ∧
        IsLastMin p key l (scanLastMin p key l best).1 (scanLastMin p key l best).2 := by
  induction l using List.reverseRecOn with
  | nil => exact .inl ⟨rfl, fun x hx => absurd hx not_mem_nil⟩
  | append_singleton l x ih =>
    have hscan : scanLastMin p key (l ++ [x]) best =
        if p x = true ∧ key x ≤ (scanLastMin p key l best).2 then (l.length, key x)
        else scanLastMin p key l best := by
      unfold scanLastMin
      rw [zipIdx_append, foldl_append, Nat.zero_add]
      rfl
    -- an element of the longer list is one of `l`, or the new one at its end
    have hget : ∀ (j : Nat) (y : α), (l ++ [x])[j]? = some y → l[j]? = some y ∨ j = l.length ∧ y = x := by
      intro j y hy
      rcases Nat.lt_trichotomy j l.length with hlt | rfl | hgt
      · rw [getElem?_append_left hlt] at hy
        exact .inl hy
      · rw [getElem?_concat_length] at hy
        exact .inr ⟨rfl, (Option.some.inj hy).symm⟩
      · rw [getElem?_eq_none (by rw [length_append, length_singleton]; omega)] at hy
        exact absurd hy (Option.some_ne_none y).symm
    have hindex : ∀ (j : Nat) (y : α), l[j]? = some y → j < l.length := fun j y hy =>
      (getElem?_eq_some_iff.mp hy).choose
    rw [hscan]
    by_cases hx : p x = true ∧ key x ≤ (scanLastMin p key l best).2
    · -- the last element takes the place of the one found before it
      rw [if_pos hx]
      -- the new key is no larger than the start, however far the scan got before
      have hbest : key x ≤ best.2 := by
        rcases ih with ⟨heq, -⟩ | ⟨hle, -⟩
        · exact heq ▸ hx.2
        · exact hx.2.trans hle
      refine .inr ⟨hbest, ⟨x, getElem?_concat_length, hx.1, rfl⟩, fun j y hy hpy => ?_,
        fun j y hy hpy hkey => ?_⟩
      · rcases hget j y hy with hy' | ⟨-, rfl⟩
        · rcases ih with ⟨heq, hnone⟩ | ⟨-, hmin⟩
          · exact hbest.trans (hnone y (mem_of_getElem? hy') hpy).le
          · exact hx.2.trans (hmin.least j y hy' hpy)
        · exact le_rfl
      · rcases hget j y hy with hy' | ⟨rfl, -⟩
        · exact (hindex j y hy').le
        · exact le_rfl
    · rw [if_neg hx]
      rcases ih with ⟨heq, hnone⟩ | ⟨hle, hmin⟩
      · refine .inl ⟨heq, fun y hy hpy => ?_⟩
        rcases mem_append.mp hy with hy' | hy'
        · exact hnone y hy' hpy
        · rw [mem_singleton] at hy'
          subst hy'
          rw [heq] at hx
          exact lt_of_not_ge fun hge => hx ⟨hpy, hge⟩
      -- the new element is not taken, so its key is larger than the one found
      · have hlast : p x = true → (scanLastMin p key l best).2 < key x := fun hpx =>
          lt_of_not_ge fun hge => hx ⟨hpx, hge⟩
        obtain ⟨y, hy, hpy, hkey⟩ := hmin.get
        refine .inr ⟨hle, ⟨y, ?_, hpy, hkey⟩, fun j z hz hpz => ?_, fun j z hz hpz hsame => ?_⟩
        · rw [getElem?_append_left (hindex _ y hy)]
          exact hy
        · rcases hget j z hz with hz' | ⟨-, rfl⟩
          · exact hmin.least j z hz' hpz
          · exact (hlast hpz).le
        · rcases hget j z hz with hz' | ⟨-, rfl⟩
          · exact hmin.last j z hz' hpz hsame
          · exact absurd hsame (hlast hpz).ne'

end List

namespace Sweep

variable {ι β γ : Type} [LinearOrder β]

/-- Tries the entries in the order that `next` gives them, from the key `b` on, and from `first` on
after the last one. -/
def sweep (next : β → Option (ι × β)) (attempt : ι → Option γ) (first : β) : Nat → β → Option γ
  | 0, _ => none
  | tries + 1, b =>
    match next b with
    | none => sweep next attempt first tries first
    | some (i, b) =>
      match attempt i with
      | none => sweep next attempt first tries b
      | some found => some found

/-- `next` gives the entries in the order of their keys, of which no two have the same one. -/
structure Ascends (next : β → Option (ι × β)) (entries : ι → β → Prop) : Prop where
  unique : ∀ {i j k}, entries i k → entries j k → i = j
  mem : ∀ {b i k}, next b = some (i, k) → entries i k
  above : ∀ {b i k}, next b = some (i, k) → b < k
  least : ∀ {b i k}, next b = some (i, k) → ∀ {j l}, entries j l → b < l → k ≤ l
  none_above : ∀ {b}, next b = none → ∀ {j l}, entries j l → ¬b < l

namespace Ascends

variable {next : β → Option (ι × β)} {entries : ι → β → Prop} {attempt : ι → Option γ}
  {first b : β} {tries : Nat}

/-- A sweep finds an entry that can be taken, and none with a smaller key can be, when this is so for
the keys that it starts above. -/
theorem sweep_eq_some {found : γ} (h : Ascends next entries)
    (hfirst : ∀ {j l}, entries j l → first < l)
    (hb : ∀ {j l}, entries j l → l ≤ b → attempt j = none)
    (hfound : sweep next attempt first tries b = some found) :
    ∃ i k, entries i k ∧ attempt i = some found ∧
      ∀ {j l}, entries j l → (attempt j).isSome → k ≤ l := by
  induction tries generalizing b with
  | zero => exact absurd hfound (Option.some_ne_none found).symm
  | succ tries ih =>
    unfold sweep at hfound
    match hnext : next b with
    | none =>
      rw [hnext] at hfound
      -- all keys are above the first one
      exact ih (fun hj hle => absurd (hfirst hj) (not_lt_of_ge hle)) hfound
    | some (i, k) =>
      rw [hnext] at hfound
      dsimp only at hfound
      match hattempt : attempt i with
      | none =>
        rw [hattempt] at hfound
        -- `i` cannot be taken: the only key between `b` and `k` is its own
        refine ih (fun {j l} hj hle => ?_) hfound
        rcases le_or_gt l b with hlb | hbl
        · exact hb hj hlb
        · have hkey : l = k := le_antisymm hle (h.least hnext hj hbl)
          subst hkey
          rw [h.unique hj (h.mem hnext)]
          exact hattempt
      | some found' =>
        rw [hattempt] at hfound
        refine ⟨i, k, h.mem hnext, hattempt.trans hfound, fun {j l} hj hsome => ?_⟩
        rcases le_or_gt l b with hlb | hbl
        · rw [hb hj hlb] at hsome
          exact absurd hsome Bool.false_ne_true
        · exact h.least hnext hj hbl

/-- A sweep with a try for every key up to the one of an entry that can be taken finds one. -/
theorem isSome_sweep (h : Ascends next entries) {keys : Finset β}
    (hkeys : ∀ {j l}, entries j l → l ∈ keys) {i : ι} {k : β} (hi : entries i k) (hb : b < k)
    (hsome : (attempt i).isSome)
    (htries : (keys.filter fun l => b < l ∧ l < k).card < tries) :
    (sweep next attempt first tries b).isSome := by
  induction tries generalizing b with
  | zero => exact absurd htries (Nat.not_lt_zero _)
  | succ tries ih =>
    unfold sweep
    match hnext : next b with
    | none => exact absurd hb (h.none_above hnext hi)
    | some (j, l) =>
      dsimp only
      match hattempt : attempt j with
      | some found => rfl
      | none =>
        have hle : l ≤ k := h.least hnext hi hb
        -- the entry that was tried is not the one that can be taken
        have hne : l ≠ k := by
          rintro rfl
          rw [h.unique hi (h.mem hnext), hattempt] at hsome
          exact absurd hsome Bool.false_ne_true
        have hlt : l < k := lt_of_le_of_ne hle hne
        -- the key that was tried is not between the next one and `k` any more
        have hless : (keys.filter fun m => l < m ∧ m < k).card <
            (keys.filter fun m => b < m ∧ m < k).card := by
          apply Finset.card_lt_card
          refine Finset.ssubset_iff_of_subset (fun m hm => ?_) |>.mpr ⟨l, ?_, ?_⟩
          · obtain ⟨hmem, hlm, hmk⟩ := Finset.mem_filter.mp hm
            exact Finset.mem_filter.mpr ⟨hmem, (h.above hnext).trans hlm, hmk⟩
          · exact Finset.mem_filter.mpr ⟨hkeys (h.mem hnext), h.above hnext, hlt⟩
          · exact fun hl => absurd (Finset.mem_filter.mp hl).2.1 (lt_irrefl l)
        exact ih hlt (by omega)

end Ascends

end Sweep
