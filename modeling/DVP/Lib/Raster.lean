import DVP.Lib.Region
import Mathlib.Data.Set.Function

/-!
# Pictures in a memory

A loop that reads some places of a memory and writes others has done what it should if every round
writes what it should and no round writes a place that is read.

* `Paints`: which places a step writes, and with what, while the places it reads are as they were;
* `Paints.write`, `Paints.comp`, `Paints.loop`: painting with more steps;
* `Shows`: a memory has the values of cells at their addresses, and differs from another one nowhere
  else;
* `Raster`: lines of places, each a stride after the line before it;
* `Raster.Fits`: the places of a raster differ if its lines are in order.
-/

namespace Region

section Painting

variable {A C V : Type} {m m' m₀ : A → V} {K W W' : Set A} {T : A → V → Prop}
  {f g : (A → V) → A → V}

/-- From a memory that is `m₀` on `K`, a step writes the places of `W` and no others, none of them in
`K`, and `T` holds of what it writes. -/
structure Paints (m₀ : A → V) (K : Set A) (T : A → V → Prop) (W : Set A)
    (f : (A → V) → A → V) : Prop where
  apart : Disjoint W K
  painted : ∀ m, Set.EqOn m m₀ K → ∀ x ∈ W, T x (f m x)
  kept : ∀ m, Set.EqOn m m₀ K → ∀ x ∉ W, f m x = m x

/-- The places that are read are as before. -/
theorem Paints.eqOn (h : Paints m₀ K T W f) (hm : Set.EqOn m m₀ K) : Set.EqOn (f m) m₀ K :=
  fun x hx => (h.kept m hm x fun hW => Set.disjoint_left.mp h.apart hW hx).trans (hm hx)

theorem Paints.nothing : Paints m₀ K T ∅ id where
  apart := Set.empty_disjoint K
  painted _ _ x hx := absurd hx (Set.notMem_empty x)
  kept _ _ _ _ := rfl

theorem Paints.comp (hf : Paints m₀ K T W f) (hg : Paints m₀ K T W' g) :
    Paints m₀ K T (W ∪ W') fun m => g (f m) where
  apart := Set.disjoint_union_left.mpr ⟨hf.apart, hg.apart⟩
  painted m hm x hx := by
    by_cases hW' : x ∈ W'
    · exact hg.painted _ (hf.eqOn hm) x hW'
    · -- the second step leaves what the first has painted
      rw [hg.kept _ (hf.eqOn hm) x hW']
      exact hf.painted m hm x (hx.resolve_right hW')
  kept m hm x hx := by
    rw [Set.mem_union, not_or] at hx
    rw [hg.kept _ (hf.eqOn hm) x hx.2, hf.kept m hm x hx.1]

/-- The places that the rounds of a loop write. -/
def covered (W : Nat → Set A) (n : Nat) : Set A := {x | ∃ i < n, x ∈ W i}

theorem covered_succ {W : Nat → Set A} {n : Nat} : covered W (n + 1) = covered W n ∪ W n := by
  ext x
  constructor
  · rintro ⟨i, hi, hx⟩
    rcases Nat.lt_succ_iff_lt_or_eq.mp hi with hi | rfl
    · exact Or.inl ⟨i, hi, hx⟩
    · exact Or.inr hx
  · rintro (⟨i, hi, hx⟩ | hx)
    · exact ⟨i, Nat.lt_succ_of_lt hi, hx⟩
    · exact ⟨n, Nat.lt_succ_self n, hx⟩

theorem Paints.loop {f : Nat → (A → V) → A → V} {W : Nat → Set A} {n : Nat}
    (h : ∀ i < n, Paints m₀ K T (W i) (f i)) : Paints m₀ K T (covered W n) (loop f n) := by
  induction n with
  | zero =>
    have hnone : covered W 0 = ∅ := Set.eq_empty_of_forall_notMem fun x hx => by
      obtain ⟨i, hi, -⟩ := hx
      exact Nat.not_lt_zero i hi
    rw [hnone]
    exact Paints.nothing
  | succ n ih =>
    rw [covered_succ]
    exact (ih fun i hi => h i (Nat.lt_succ_of_lt hi)).comp (h n (Nat.lt_succ_self n))

end Painting

/-- A write of values that are taken from the places that are read. -/
theorem Paints.write {w n : Nat} {V : Type} {m₀ : BitVec w → V} {K W : Set (BitVec w)}
    {T : BitVec w → V → Prop} {f : (BitVec w → V) → BitVec w → V} {a : BitVec w}
    {v : (BitVec w → V) → Fin n → V} (h : Paints m₀ K T W f) (hn : n ≤ 2 ^ w)
    (hapart : Disjoint (span a n) K)
    (hv : ∀ m, Set.EqOn m m₀ K → ∀ i : Fin n, T (a + BitVec.ofNat w i) (v m i)) :
    Paints m₀ K T (W ∪ span a n) fun m => write (f m) a (v m) where
  apart := Set.disjoint_union_left.mpr ⟨h.apart, hapart⟩
  painted m hm x hx := by
    by_cases hspan : x ∈ span a n
    · obtain ⟨i, hi, rfl⟩ := (mem_span_iff_exists hn).mp hspan
      rw [write_add hn ⟨i, hi⟩]
      exact hv m hm ⟨i, hi⟩
    · rw [write_of_notMem hspan]
      exact h.painted m hm x (hx.resolve_right hspan)
  kept m hm x hx := by
    rw [Set.mem_union, not_or] at hx
    rw [write_of_notMem hx.2, h.kept m hm x hx.1]

/-! ## Cells -/

section Cells

variable {A C V : Type} {D : Set C} {addr : C → A} {value : C → V} {m m' m'' : A → V}

/-- The values of the cells are at their addresses, and the rest of the memory is `m`. -/
structure Shows (D : Set C) (addr : C → A) (value : C → V) (m m' : A → V) : Prop where
  value : ∀ c ∈ D, m' (addr c) = value c
  other : ∀ x ∉ addr '' D, m' x = m x

/-- One memory shows the cells. -/
theorem Shows.unique (h : Shows D addr value m m') (h' : Shows D addr value m m'') : m' = m'' := by
  funext x
  by_cases hx : x ∈ addr '' D
  · obtain ⟨c, hc, rfl⟩ := hx
    rw [h.value c hc, h'.value c hc]
  · rw [h.other x hx, h'.other x hx]

/-- Cells with addresses of their own are shown once they are painted. -/
theorem Paints.shows {K : Set A} {f : (A → V) → A → V}
    (h : Paints m K (fun x v => ∀ c ∈ D, addr c = x → v = value c) (addr '' D) f) :
    Shows D addr value m (f m) where
  value c hc := h.painted m (Set.eqOn_refl m K) (addr c) (Set.mem_image_of_mem addr hc) c hc rfl
  other := h.kept m (Set.eqOn_refl m K)

end Cells

/-! ## Rasters -/

/-- Lines of places. -/
structure Raster (w : Nat) where
  base : BitVec w
  stride : BitVec w

/-- The place `x` of the line `l`. -/
def Raster.addr {w : Nat} (r : Raster w) (l x : Nat) : BitVec w :=
  r.base + BitVec.ofNat w l * r.stride + BitVec.ofNat w x

theorem Raster.addr_add {w : Nat} {r : Raster w} {l x y : Nat} :
    r.addr l x + BitVec.ofNat w y = r.addr l (x + y) := by
  rw [addr, addr, BitVec.add_assoc, ← BitVec.ofNat_add]

/-- The raster has `n` lines of `k` places that do not go around. -/
structure Raster.Fits {w : Nat} (r : Raster w) (n k : Nat) : Prop where
  wide : k ≤ r.stride.toNat
  room : r.base.toNat + n * r.stride.toNat ≤ 2 ^ w

/-- Its lines end before the other raster starts. -/
def Raster.Before {w : Nat} (r r' : Raster w) (n : Nat) : Prop :=
  r.base.toNat + n * r.stride.toNat ≤ r'.base.toNat

instance {w n k : Nat} {r : Raster w} : Decidable (r.Fits n k) :=
  decidable_of_iff (k ≤ r.stride.toNat ∧ r.base.toNat + n * r.stride.toNat ≤ 2 ^ w)
    ⟨fun h => ⟨h.1, h.2⟩, fun h => ⟨h.1, h.2⟩⟩

instance {w n : Nat} {r r' : Raster w} : Decidable (r.Before r' n) :=
  inferInstanceAs (Decidable (_ ≤ _))

section Fits

variable {w n k l l' x x' : Nat} {r r' : Raster w}

/-- A place of a line is before the next line. -/
theorem Raster.Fits.lt (h : r.Fits n k) (hl : l < n) (hx : x < k) :
    r.base.toNat + l * r.stride.toNat + x < r.base.toNat + n * r.stride.toNat := by
  have hwide := h.wide
  have hlines : (l + 1) * r.stride.toNat ≤ n * r.stride.toNat := Nat.mul_le_mul_right _ hl
  rw [Nat.add_mul, Nat.one_mul] at hlines
  omega

theorem Raster.Fits.toNat_addr (h : r.Fits n k) (hl : l < n) (hx : x < k) :
    (r.addr l x).toNat = r.base.toNat + l * r.stride.toNat + x := by
  have hroom := (h.lt hl hx).trans_le h.room
  have hcast : r.addr l x = BitVec.ofNat w (r.base.toNat + l * r.stride.toNat + x) := by
    rw [addr, BitVec.ofNat_add, BitVec.ofNat_add, BitVec.ofNat_mul, BitVec.ofNat_toNat,
      BitVec.ofNat_toNat, BitVec.setWidth_eq, BitVec.setWidth_eq]
  rw [hcast, BitVec.toNat_ofNat, Nat.mod_eq_of_lt hroom]

theorem Raster.Fits.addr_inj (h : r.Fits n k) (hl : l < n) (hx : x < k) (hl' : l' < n)
    (hx' : x' < k) (heq : r.addr l x = r.addr l' x') : l = l' ∧ x = x' := by
  have hval := congrArg BitVec.toNat heq
  rw [h.toNat_addr hl hx, h.toNat_addr hl' hx', Nat.add_assoc, Nat.add_assoc,
    Nat.add_left_cancel_iff] at hval
  have hlt : x < r.stride.toNat := hx.trans_le h.wide
  have hlt' : x' < r.stride.toNat := hx'.trans_le h.wide
  have hpos : 0 < r.stride.toNat := Nat.zero_lt_of_lt hlt
  have hline : l = l' := by
    have hdiv := congrArg (· / r.stride.toNat) hval
    simpa only [Nat.add_comm (_ * _), Nat.add_mul_div_right _ _ hpos, Nat.div_eq_of_lt hlt,
      Nat.div_eq_of_lt hlt', Nat.zero_add] using hdiv
  subst hline
  exact ⟨rfl, Nat.add_left_cancel hval⟩

theorem Raster.Fits.addr_ne {k' n' : Nat} (h : r.Fits n k) (h' : r'.Fits n' k')
    (hbefore : r.Before r' n) (hl : l < n) (hx : x < k) (hl' : l' < n') (hx' : x' < k') :
    r.addr l x ≠ r'.addr l' x' := by
  intro heq
  have hval := congrArg BitVec.toNat heq
  have hlt := h.lt hl hx
  rw [h.toNat_addr hl hx, h'.toNat_addr hl' hx'] at hval
  unfold Raster.Before at hbefore
  omega

end Fits

end Region
