import Mathlib.Tactic.Linarith

/-!
# Grids of cells in a flat memory

Rows of cells of one size, which start a stride apart. The stride is not less than what the cells
of a row take, so cells lie in their own row:

* `Grid.offset_add_cell_le`: a cell of the first `n` rows lies in the `n * stride` bytes from the
  start;
* `Grid.apart`: two cells have no byte in common;
* `Grid.run_ne_run`: neither have runs of cells in different rows.

A cell may stand for several coordinates, and `forall_mod_add_mod_lt_iff` says when a translation
keeps the coordinates of a cell together. Offsets may wrap: `forall_cell_le_iff` and
`forall_row_le_iff` say when cells and rows end below a bound all the same.
-/

/-- A grid of rows of `cols` cells of `cell` bytes. -/
structure Grid where
  cols : Nat
  cell : Nat
  stride : Nat
  fits : cols * cell ≤ stride

namespace Grid

variable (g : Grid) {n i j i' j' : Nat}

/-- Where the cell `j` of the row `i` starts. -/
def offset (i j : Nat) : Nat := i * g.stride + j * g.cell

/-- A cell ends in its row. -/
theorem add_cell_le_stride (hj : j < g.cols) : j * g.cell + g.cell ≤ g.stride := by
  rw [← Nat.succ_mul]
  exact (Nat.mul_le_mul_right _ hj).trans g.fits

/-- A cell ends before the row after its own. -/
theorem offset_add_cell_le_row (hj : j < g.cols) :
    g.offset i j + g.cell ≤ (i + 1) * g.stride := by
  have hcell := g.add_cell_le_stride hj
  unfold offset
  rw [Nat.succ_mul]
  omega

/-- A cell lies in as many rows as there are. -/
theorem offset_add_cell_le (hi : i < n) (hj : j < g.cols) :
    g.offset i j + g.cell ≤ n * g.stride :=
  (g.offset_add_cell_le_row hj).trans (Nat.mul_le_mul_right _ hi)

/-- A cell that comes before another one ends before it. -/
theorem offset_add_cell_le_offset (hj : j < g.cols) (h : i < i' ∨ i = i' ∧ j < j') :
    g.offset i j + g.cell ≤ g.offset i' j' := by
  rcases h with hi | ⟨rfl, hj'⟩
  · refine (g.offset_add_cell_le_row hj).trans ?_
    exact (Nat.mul_le_mul_right _ hi).trans (Nat.le_add_right _ _)
  · unfold offset
    rw [Nat.add_assoc, ← Nat.succ_mul]
    exact Nat.add_le_add_left (Nat.mul_le_mul_right _ hj') _

/-- Two cells have no byte in common. -/
theorem apart (hj : j < g.cols) (hj' : j' < g.cols) (hne : i ≠ i' ∨ j ≠ j') :
    g.offset i j + g.cell ≤ g.offset i' j' ∨ g.offset i' j' + g.cell ≤ g.offset i j := by
  -- one of two different cells comes first, by row and then by column
  have hbefore : (i < i' ∨ i = i' ∧ j < j') ∨ (i' < i ∨ i' = i ∧ j' < j) := by
    omega
  rcases hbefore with h | h
  · exact .inl (g.offset_add_cell_le_offset hj h)
  · exact .inr (g.offset_add_cell_le_offset hj' h)

/-- A run of cells ends in its row. -/
theorem offset_add_run_le (h : j + n ≤ g.cols) :
    g.offset i j + n * g.cell ≤ i * g.stride + g.cols * g.cell := by
  unfold offset
  rw [Nat.add_assoc, ← Nat.add_mul]
  exact Nat.add_le_add_left (Nat.mul_le_mul_right _ h) _

/-- Runs of cells in different rows have no byte in common. -/
theorem run_ne_run {n' k k' : Nat} (hrow : i ≠ i') (h : j + n ≤ g.cols) (h' : j' + n' ≤ g.cols)
    (hk : k < n * g.cell) (hk' : k' < n' * g.cell) : g.offset i j + k ≠ g.offset i' j' + k' := by
  -- the run of the lower row ends where the next row starts
  have hbefore : ∀ {i i' j j' n k k'}, i < i' → j + n ≤ g.cols → k < n * g.cell →
      g.offset i j + k < g.offset i' j' + k' := by
    intro i i' j j' n k k' hlt hj hk
    have hrun := g.offset_add_run_le (i := i) hj
    have hstart : (i + 1) * g.stride ≤ g.offset i' j' :=
      (Nat.mul_le_mul_right _ hlt).trans (Nat.le_add_right _ _)
    have hfits := g.fits
    rw [Nat.succ_mul] at hstart
    omega
  rcases Nat.lt_or_gt_of_ne hrow with hlt | hlt
  · exact (hbefore hlt h hk).ne
  · exact (hbefore hlt h' hk').ne'

end Grid

/-- The sums of a number and those below `len` carry over no multiple of `d` exactly when the number
is a multiple, or all of them stay below the next one. -/
theorem forall_mod_add_mod_lt_iff {d start len : Nat} (hd : 0 < d) :
    (∀ n < len, start % d + n % d < d) ↔ start % d = 0 ∨ start % d + len ≤ d := by
  have hmod := Nat.mod_lt start hd
  constructor
  · intro h
    by_contra hnot
    rw [not_or, Nat.not_le] at hnot
    -- the number that reaches the next multiple
    have hreach := h (d - start % d) (by omega)
    rw [Nat.mod_eq_of_lt (a := d - start % d) (by omega)] at hreach
    omega
  · rintro (hzero | hle) n hn
    · rw [hzero, Nat.zero_add]
      exact Nat.mod_lt n hd
    · have hn' := Nat.mod_le n d
      omega

/-! ## Offsets that wrap -/

section Wrap

variable {m d e s n c h l bound : Nat}

/-- Cells one after the other, whose offsets wrap at `m`, all end below a bound less than `m`
exactly when the last one does and none wraps. -/
theorem forall_cell_le_iff (he : e < m) (hbound : bound < m) :
    (∀ j ≤ n, d + (e + j * s) % m + s ≤ bound) ↔ d + (e + n * s) + s ≤ bound := by
  constructor
  · intro h
    -- a cell that ends below the bound keeps the start of the next one below `m`
    have hstep : ∀ j ≤ n, d + (e + j * s) + s ≤ bound := by
      intro j
      induction j with
      | zero =>
        intro hj
        have hcell := h 0 hj
        rw [Nat.zero_mul, Nat.add_zero] at hcell ⊢
        rwa [Nat.mod_eq_of_lt he] at hcell
      | succ j ih =>
        intro hj
        have hprev := ih (by omega)
        have hcell := h (j + 1) hj
        rwa [Nat.mod_eq_of_lt (by rw [Nat.succ_mul]; omega)] at hcell
    exact hstep n le_rfl
  · intro h j hj
    have hle : j * s ≤ n * s := Nat.mul_le_mul_right _ hj
    rw [Nat.mod_eq_of_lt (by omega)]
    omega

/-- Rows of `c` bytes a stride of `l` apart, whose offsets wrap at `m`, all end in the bytes of `h`
rows exactly when the last one does, if these do not wrap. -/
theorem forall_row_le_iff (hc : 0 < c) (hbound : bound ≤ h * l) (hm : h * l < m) :
    (∀ i ≤ n, d + i * l % m + c ≤ bound) ↔ d + n * l + c ≤ bound := by
  constructor
  · intro hrows
    have hstep : ∀ i ≤ n, d + i * l + c ≤ bound := by
      intro i
      induction i with
      | zero =>
        intro hi
        have hrow := hrows 0 hi
        rw [Nat.zero_mul] at hrow ⊢
        rwa [Nat.zero_mod] at hrow
      | succ i ih =>
        intro hi
        have hprev := ih (by omega)
        have hrow := hrows (i + 1) hi
        -- a row that ends in the `h` rows is one of them
        have hlt : i < h := by
          by_contra hle
          have hmul := Nat.mul_le_mul_right l (Nat.not_lt.mp hle)
          omega
        have hnext : (i + 1) * l ≤ h * l := Nat.mul_le_mul_right _ hlt
        rwa [Nat.mod_eq_of_lt (by omega)] at hrow
    exact hstep n le_rfl
  · intro hlast i hi
    have hle : i * l ≤ n * l := Nat.mul_le_mul_right _ hi
    rw [Nat.mod_eq_of_lt (by omega)]
    omega

end Wrap
