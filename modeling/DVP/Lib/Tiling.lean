import Mathlib.Data.List.Perm.Basic
import Mathlib.Tactic.Linarith

/-!
# Tilings of a range of addresses

A span is a range of addresses. `Tiles base total ss` says that the spans `ss` cover each address
of the range of `total` addresses from `base` on exactly once, and no other address. The edits of
a tiling are splitting a span in two and joining two that touch (`Tiles.split_iff`), in any order
of the spans (`Tiles.perm`).
-/

/-- The addresses from `start` on, `size` of them. -/
structure Span where
  start : Nat
  size : Nat
  deriving DecidableEq, Repr

namespace Span

/-- The address is in the span. -/
def Has (s : Span) (x : Nat) : Prop := s.start ≤ x ∧ x < s.start + s.size

instance (s : Span) (x : Nat) : Decidable (s.Has x) :=
  inferInstanceAs (Decidable (s.start ≤ x ∧ x < s.start + s.size))

/-- The spans have no address in common. -/
def Apart (s t : Span) : Prop := ∀ x, ¬(s.Has x ∧ t.Has x)

end Span

/-- The number of spans an address is in. -/
def coverCount (ss : List Span) (x : Nat) : Nat := ss.countP fun s => decide (s.Has x)

/-- The spans cover the range from `base` on, each address once. -/
def Tiles (base total : Nat) (ss : List Span) : Prop :=
  ∀ x, coverCount ss x = if base ≤ x ∧ x < base + total then 1 else 0

variable {base total : Nat} {s t : Span} {ss ts : List Span}

@[simp]
theorem coverCount_cons (s : Span) (ss : List Span) (x : Nat) :
    coverCount (s :: ss) x = coverCount ss x + if s.Has x then 1 else 0 := by
  simp [coverCount, List.countP_cons]

/-- The span alone tiles its range. -/
theorem tiles_singleton (s : Span) : Tiles s.start s.size [s] := by
  intro x
  rw [coverCount, List.countP_singleton]
  simp only [decide_eq_true_eq]
  rfl

/-- The order of the spans does not matter. -/
theorem Tiles.perm (h : Tiles base total ss) (hperm : ss.Perm ts) : Tiles base total ts := by
  intro x
  rw [← h x]
  exact (hperm.countP_eq _).symm

/-- Two spans that touch cover what the one made of them does. -/
theorem coverCount_split (start m n : Nat) (ss : List Span) (x : Nat) :
    coverCount (⟨start, m⟩ :: ⟨start + m, n⟩ :: ss) x = coverCount (⟨start, m + n⟩ :: ss) x := by
  have hapart : ¬((Span.mk start m).Has x ∧ (Span.mk (start + m) n).Has x) := by
    simp only [Span.Has]
    omega
  have hjoin : (Span.mk start (m + n)).Has x ↔
      (Span.mk start m).Has x ∨ (Span.mk (start + m) n).Has x := by
    simp only [Span.Has]
    omega
  simp only [coverCount_cons, hjoin]
  by_cases hm : (Span.mk start m).Has x <;> by_cases hn : (Span.mk (start + m) n).Has x
  · exact absurd ⟨hm, hn⟩ hapart
  all_goals simp [hm, hn]

/-- Splitting a span, or joining two that touch, leaves a tiling. -/
theorem Tiles.split_iff {start m n : Nat} :
    Tiles base total (⟨start, m⟩ :: ⟨start + m, n⟩ :: ss) ↔
      Tiles base total (⟨start, m + n⟩ :: ss) := by
  simp only [Tiles, coverCount_split]

/-- Every address of a span is in the range. -/
theorem Tiles.inside (h : Tiles base total ss) (hs : s ∈ ss) {x : Nat} (hx : s.Has x) :
    base ≤ x ∧ x < base + total := by
  have hpos : 0 < coverCount ss x :=
    List.countP_pos_iff.mpr ⟨s, hs, by simpa using hx⟩
  by_contra hout
  rw [h x, if_neg hout] at hpos
  omega

/-- An address is in a span exactly when it is in the range. -/
theorem Tiles.mem_iff (h : Tiles base total ss) (x : Nat) :
    (∃ s ∈ ss, s.Has x) ↔ base ≤ x ∧ x < base + total := by
  constructor
  · rintro ⟨s, hs, hx⟩
    exact h.inside hs hx
  · intro hx
    have hpos : 0 < coverCount ss x := by
      rw [h x, if_pos hx]
      exact Nat.one_pos
    obtain ⟨s, hs, hhas⟩ := List.countP_pos_iff.mp hpos
    exact ⟨s, hs, by simpa using hhas⟩

/-- The spans of a tiling are pairwise apart. -/
theorem Tiles.pairwise_apart (h : Tiles base total ss) : ss.Pairwise Span.Apart := by
  have hle : ∀ x, coverCount ss x ≤ 1 := by
    intro x
    rw [h x]
    split_ifs <;> omega
  clear h
  induction ss with
  | nil => exact List.Pairwise.nil
  | cons s ss ih =>
    refine List.pairwise_cons.mpr ⟨?_, ih fun x => ?_⟩
    · -- an address of the first span and of a later one would count twice
      rintro t ht x ⟨hsx, htx⟩
      have hpos : 0 < coverCount ss x :=
        List.countP_pos_iff.mpr ⟨t, ht, by simpa using htx⟩
      have hcount := hle x
      rw [coverCount_cons, if_pos hsx] at hcount
      omega
    · have hcount := hle x
      rw [coverCount_cons] at hcount
      omega

/-- Of two spans that are apart, one ends before the other starts. -/
theorem Span.Apart.le_or_le (h : s.Apart t) (hs : 0 < s.size) (ht : 0 < t.size) :
    s.start + s.size ≤ t.start ∨ t.start + t.size ≤ s.start := by
  have hstart := h s.start
  have hstart' := h t.start
  simp only [Span.Has] at hstart hstart'
  omega

/-- A tiling of spans that do not touch is one span. -/
theorem Tiles.eq_singleton (h : Tiles base total ss) (htotal : 0 < total)
    (hpos : ∀ s ∈ ss, 0 < s.size) (hnot : ∀ s ∈ ss, ∀ t ∈ ss, s.start + s.size ≠ t.start) :
    ss = [⟨base, total⟩] := by
  obtain ⟨s, hs, hbase⟩ := (h.mem_iff base).mpr ⟨Nat.le_refl _, by omega⟩
  obtain ⟨xs, ys, rfl⟩ := List.append_of_mem hs
  have hapart : ∀ t ∈ xs ++ ys, s.Apart t := by
    intro t ht
    have hpairwise := h.pairwise_apart
    rw [List.pairwise_append] at hpairwise
    obtain ⟨-, hcons, hacross⟩ := hpairwise
    rcases List.mem_append.mp ht with ht | ht
    · exact fun x hx => hacross t ht s List.mem_cons_self x hx.symm
    · exact (List.pairwise_cons.mp hcons).1 t ht
  have hsome := hpos s hs
  have hstart := h.inside hs (x := s.start) ⟨Nat.le_refl _, by omega⟩
  have hend := h.inside hs (x := s.start + s.size - 1) ⟨by omega, by omega⟩
  simp only [Span.Has] at hbase
  -- a span that has the address after the first one would touch it
  have hlast : s.start + s.size = base + total := by
    by_contra hne
    obtain ⟨t, ht, hhas⟩ := (h.mem_iff (s.start + s.size)).mpr ⟨by omega, by omega⟩
    have hts : t ∈ xs ++ ys := by
      rcases List.mem_append.mp ht with ht | ht
      · exact List.mem_append_left _ ht
      · rcases List.mem_cons.mp ht with rfl | ht
        · simp only [Span.Has] at hhas
          omega
        · exact List.mem_append_right _ ht
    have hor := (hapart t hts).le_or_le (hpos s hs) (hpos t ht)
    have htouch := hnot s hs t ht
    simp only [Span.Has] at hhas
    omega
  have hwhole : s = ⟨base, total⟩ := by
    cases s
    simp only [Span.mk.injEq] at *
    omega
  have hnone : ∀ t, t ∉ xs ++ ys := by
    intro t ht
    have hmem : t ∈ xs ++ s :: ys := by
      simp only [List.mem_append, List.mem_cons] at ht ⊢
      tauto
    have hsize := hpos t hmem
    have hor := (hapart t ht).le_or_le (hpos s hs) hsize
    have hinside := h.inside hmem (x := t.start) ⟨Nat.le_refl _, by omega⟩
    omega
  obtain ⟨rfl, rfl⟩ := List.append_eq_nil_iff.mp (List.eq_nil_iff_forall_not_mem.mpr hnone)
  rw [hwhole, List.nil_append]
