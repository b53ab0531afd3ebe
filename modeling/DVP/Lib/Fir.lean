import Mathlib.Algebra.BigOperators.Fin
import Mathlib.Algebra.Order.Ring.Int
import Mathlib.Tactic.Positivity

/-!
# Filters with finitely many taps

The response of a filter to a signal is a sum with one term a tap. An implementation with integers
has coefficients in units of `2 ^ -q`, rounds the response and saturates it, and reads the samples
beyond the ends of the signal at its ends.

* `saturate_of_mem`: a value in the range is kept.
* `nearest_lt`: the index that is read is one of the signal.
* `foldlM_acc`: a loop with checked additions returns the sum of its terms.
* `response_const` and `output_const`: coefficients that sum up to one unit keep a constant signal.
-/

namespace Fir

/-! ## Saturation -/

section Saturate

variable {α : Type} [LinearOrder α] {lo hi v : α}

/-- The value in the range from `lo` to `hi` that is next to `v`. -/
def saturate (lo hi v : α) : α := max lo (min hi v)

theorem saturate_of_mem (hlo : lo ≤ v) (hhi : v ≤ hi) : saturate lo hi v = v := by
  rw [saturate, min_eq_right hhi, max_eq_right hlo]

theorem le_saturate : lo ≤ saturate lo hi v := le_max_left _ _

theorem saturate_le (h : lo ≤ hi) : saturate lo hi v ≤ hi := max_le h (min_le_left _ _)

/-- Saturation as two tests, the upper end first. -/
theorem saturate_eq_ite (h : lo ≤ hi) :
    saturate lo hi v = if hi < v then hi else if v < lo then lo else v := by
  split_ifs with hhi hlo
  · rw [saturate, min_eq_left hhi.le, max_eq_right h]
  · rw [saturate, max_eq_left ((min_le_right _ _).trans hlo.le)]
  · exact saturate_of_mem (not_lt.mp hlo) (not_lt.mp hhi)

end Saturate

/-! ## Samples beyond the ends -/

/-- The index of a signal of `n` samples that is next to `i`. -/
def nearest (n : ℕ) (i : ℤ) : ℕ := (saturate 0 ((n : ℤ) - 1) i).toNat

section Nearest

variable {n : ℕ} {i : ℤ}

theorem nearest_lt (h : 0 < n) : nearest n i < n := by
  have hle : saturate 0 ((n : ℤ) - 1) i ≤ n - 1 := saturate_le (by omega)
  unfold nearest
  omega

theorem nearest_of_neg (hn : 0 < n) (hi : i < 0) : nearest n i = 0 := by
  rw [nearest, saturate_eq_ite (by omega), if_neg (by omega), if_pos hi]
  rfl

theorem nearest_of_ge (hn : 0 < n) (hi : n ≤ i) : nearest n i = n - 1 := by
  rw [nearest, saturate_eq_ite (by omega), if_pos (by omega)]
  omega

/-- An index of the signal stays. -/
theorem nearest_of_mem (hi : 0 ≤ i) (hlt : i < n) : nearest n i = i.toNat := by
  rw [nearest, saturate_of_mem hi (by omega)]

end Nearest

/-! ## The response -/

section Response

variable {R : Type} [CommSemiring R] {t : ℕ} {coeff : Fin t → R} {signal : ℕ → R} {n : ℕ} {v : R}

/-- The response at `x` of a filter whose first tap reads `r` samples before `x`. -/
def response (coeff : Fin t → R) (r n : ℕ) (signal : ℕ → R) (x : ℕ) : R :=
  ∑ k, coeff k * signal (nearest n (x + k - r))

/-- The response depends on the samples of the signal. -/
theorem response_congr {signal' : ℕ → R} (hn : 0 < n) (h : ∀ i < n, signal i = signal' i) (r x : ℕ) :
    response coeff r n signal x = response coeff r n signal' x := by
  apply Finset.sum_congr rfl
  intro k _
  rw [h _ (nearest_lt hn)]

/-- The response to a constant signal. -/
theorem response_const (hn : 0 < n) (h : ∀ i < n, signal i = v) (r x : ℕ) :
    response coeff r n signal x = (∑ k, coeff k) * v := by
  rw [response, Finset.sum_mul]
  apply Finset.sum_congr rfl
  intro k _
  rw [h _ (nearest_lt hn)]

end Response

/-! ## Accumulators -/

/-- A loop adds up its terms when no sum of them can reach the bound of the accumulator. -/
theorem foldlM_acc {σ ι : Type} {acc : σ → ℤ} {step : σ → ι → Option σ} {term : ι → ℤ}
    {limit bound : ℤ} {is : List ι} {s : σ}
    (hstep : ∀ i ∈ is, ∀ s, |acc s + term i| < bound →
      ∃ s', step s i = some s' ∧ acc s' = acc s + term i)
    (hterm : ∀ i ∈ is, |term i| ≤ limit) (hs : |acc s| + is.length * limit < bound) :
    ∃ s', is.foldlM step s = some s' ∧ acc s' = acc s + (is.map term).sum := by
  induction is generalizing s with
  | nil => exact ⟨s, rfl, by simp⟩
  | cons i is ih =>
    rw [List.forall_mem_cons] at hstep hterm
    rw [List.length_cons, Nat.cast_succ, add_one_mul] at hs
    have hrest : 0 ≤ is.length * limit :=
      mul_nonneg (Nat.cast_nonneg _) ((abs_nonneg _).trans hterm.1)
    have hsum : |acc s + term i| ≤ |acc s| + limit :=
      (abs_add_le _ _).trans (add_le_add_right hterm.1 _)
    obtain ⟨s₁, hround, hacc₁⟩ := hstep.1 s (by omega)
    obtain ⟨s₂, hloop, hacc₂⟩ := ih hstep.2 hterm.2 (s := s₁) (by rw [hacc₁]; omega)
    refine ⟨s₂, ?_, ?_⟩
    · rw [List.foldlM_cons, hround]
      exact hloop
    · rw [hacc₂, hacc₁, List.map_cons, List.sum_cons, add_assoc]

/-! ## Integer filters -/

/-- A number of units of `2 ^ -q`, rounded to an integer. -/
def quantize (q : ℕ) (s : ℤ) : ℤ := (2 ^ (q - 1) + s) / 2 ^ q

theorem quantize_mul {q : ℕ} (hq : 0 < q) (v : ℤ) : quantize q (2 ^ q * v) = v := by
  have hhalf : (0 : ℤ) ≤ 2 ^ (q - 1) := by positivity
  have hlt : (2 : ℤ) ^ (q - 1) < 2 ^ q := pow_lt_pow_right₀ (by decide) (by omega)
  rw [quantize, Int.add_mul_ediv_left _ _ (by positivity), Int.ediv_eq_zero_of_lt hhalf hlt, zero_add]

/-- A sample of the output: the response, rounded and saturated. -/
def output {t : ℕ} (coeff : Fin t → ℤ) (r q : ℕ) (lo hi : ℤ) (n : ℕ) (signal : ℕ → ℤ) (x : ℕ) : ℤ :=
  saturate lo hi (quantize q (response coeff r n signal x))

section Output

variable {t r q n x : ℕ} {coeff : Fin t → ℤ} {lo hi v : ℤ} {signal signal' : ℕ → ℤ}

theorem le_output : lo ≤ output coeff r q lo hi n signal x := le_saturate

theorem output_le (h : lo ≤ hi) : output coeff r q lo hi n signal x ≤ hi := saturate_le h

theorem output_congr (hn : 0 < n) (h : ∀ i < n, signal i = signal' i) :
    output coeff r q lo hi n signal x = output coeff r q lo hi n signal' x := by
  rw [output, response_congr hn h, output]

/-- Coefficients that sum up to one unit keep a constant signal. -/
theorem output_const (hq : 0 < q) (hsum : ∑ k, coeff k = 2 ^ q) (hn : 0 < n)
    (h : ∀ i < n, signal i = v) (hlo : lo ≤ v) (hhi : v ≤ hi) :
    output coeff r q lo hi n signal x = v := by
  rw [output, response_const hn h, hsum, quantize_mul hq, saturate_of_mem hlo hhi]

end Output

end Fir
