import DVP.Lib.Bytes

/-!
# Writing and reading in sequence

Runs of bytes written to a buffer one after the other, and read from it in the same order. Each is
written, or read, only if the position after it `fits`; otherwise it is skipped. The buffer starts
at an address `base` of a memory.

* `putAll_of_fits`, `putAll_short`: all is written exactly when the position after the last run fits.
* `Reads prog bs s s'`: a reader that finds the bytes `bs`, and room for them, takes the state `s`
  to `s'`. The rules compose readers (`Reads.cons`, `Reads.foldl`).
-/

namespace Serial

open Bytes

variable {α S ι : Type} (fits : Nat → Prop) (base : Nat)

/-- Positions before one that fits do. -/
def Downward : Prop := ∀ ⦃m n : Nat⦄, m ≤ n → fits n → fits m

/-- Readers run in order. -/
def runAll (progs : List (S × Nat → S × Nat)) (st : S × Nat) : S × Nat :=
  progs.foldl (fun st prog => prog st) st

variable {fits base} {m : Nat → α} {o n k : Nat} {chunks : List (List α)} {bs cs : List α}

/-! ## The writer -/

section Writer

variable [DecidablePred fits]

variable (fits base) in
/-- A run of bytes is written, if it fits. -/
def put (st : (Nat → α) × Nat) (bs : List α) : (Nat → α) × Nat :=
  if fits (st.2 + bs.length) then (poke st.1 (base + st.2) bs, st.2 + bs.length) else st

variable (fits base) in
/-- Runs of bytes are written in order. -/
def putAll (st : (Nat → α) × Nat) (chunks : List (List α)) : (Nat → α) × Nat :=
  chunks.foldl (put fits base) st

theorem putAll_cons : putAll fits base (m, o) (bs :: chunks) =
    putAll fits base (put fits base (m, o) bs) chunks := rfl

theorem putAll_append {chunks' : List (List α)} {st : (Nat → α) × Nat} :
    putAll fits base st (chunks ++ chunks') =
      putAll fits base (putAll fits base st chunks) chunks' :=
  List.foldl_append

/-- What fits as a whole is written as a whole. -/
theorem putAll_of_fits (hdown : Downward fits) (h : fits (o + chunks.flatten.length)) :
    putAll fits base (m, o) chunks =
      (poke m (base + o) chunks.flatten, o + chunks.flatten.length) := by
  induction chunks generalizing m o with
  | nil => simp [putAll]
  | cons bs chunks ih =>
    rw [List.flatten_cons, List.length_append, ← Nat.add_assoc] at h
    have hput : put fits base (m, o) bs = (poke m (base + o) bs, o + bs.length) :=
      if_pos (hdown (Nat.le_add_right _ _) h)
    rw [putAll_cons, hput, ih h, List.flatten_cons, poke_append, List.length_append]
    simp only [Nat.add_assoc]

/-- The writer moves to positions that fit only. -/
theorem putAll_moved :
    (putAll fits base (m, o) chunks).2 = o ∨ fits (putAll fits base (m, o) chunks).2 := by
  induction chunks generalizing m o with
  | nil => exact .inl rfl
  | cons bs chunks ih =>
    rw [putAll_cons, put]
    split_ifs with hbs
    · rcases ih (m := poke m (base + o) bs) (o := o + bs.length) with heq | hfits
      · rw [heq]
        exact .inr hbs
      · exact .inr hfits
    · exact ih

/-- What does not fit as a whole is not written as a whole. -/
theorem putAll_short (hne : chunks.flatten ≠ []) (h : ¬fits (o + chunks.flatten.length)) :
    (putAll fits base (m, o) chunks).2 ≠ o + chunks.flatten.length := by
  intro heq
  have hpos := List.length_pos_iff.mpr hne
  have hmoved : (putAll fits base (m, o) chunks).2 = o ∨
      fits (putAll fits base (m, o) chunks).2 := putAll_moved
  rcases hmoved with hstay | hfits
  · omega
  · rw [heq] at hfits
    exact h hfits

/-- Nothing is written beyond what fits. -/
theorem putAll_beyond {limit i : Nat} (hlimit : ∀ n, fits n → n ≤ limit) (hi : base + limit ≤ i) :
    (putAll fits base (m, o) chunks).1 i = m i := by
  induction chunks generalizing m o with
  | nil => rfl
  | cons bs chunks ih =>
    rw [putAll_cons, put]
    split_ifs with hbs
    · rw [ih]
      have hle := hlimit _ hbs
      exact poke_of_ge (by dsimp only at hle; omega)
    · exact ih

/-- The position never moves back. -/
theorem putAll_le : o ≤ (putAll fits base (m, o) chunks).2 := by
  induction chunks generalizing m o with
  | nil => exact Nat.le_refl o
  | cons bs chunks ih =>
    rw [putAll_cons, put]
    split_ifs
    · exact Nat.le_trans (Nat.le_add_right _ _) ih
    · exact ih

/-- Nothing is written before the position. -/
theorem putAll_below {i : Nat} (hi : i < base + o) : (putAll fits base (m, o) chunks).1 i = m i := by
  induction chunks generalizing m o with
  | nil => rfl
  | cons bs chunks ih =>
    rw [putAll_cons, put]
    split_ifs
    · rw [ih (Nat.lt_of_lt_of_le hi (by simp only; omega)), poke_of_lt hi]
    · exact ih hi

/-- The writer depends on which positions fit only. -/
theorem putAll_congr {fits' : Nat → Prop} [DecidablePred fits'] {st : (Nat → α) × Nat}
    (h : ∀ n, fits n ↔ fits' n) : putAll fits base st chunks = putAll fits' base st chunks := by
  have hput : (put fits base : (Nat → α) × Nat → List α → (Nat → α) × Nat) = put fits' base := by
    funext st bs
    simp only [put, h]
  rw [putAll, hput, putAll]

/-- Writing to the rest of the buffer, from its start. -/
theorem putAll_shift :
    putAll fits base (m, o + k) chunks =
      ((putAll (fun n => fits (o + n)) (base + o) (m, k) chunks).1,
        o + (putAll (fun n => fits (o + n)) (base + o) (m, k) chunks).2) := by
  induction chunks generalizing m k with
  | nil => rfl
  | cons bs chunks ih =>
    rw [putAll_cons, putAll_cons, put, put]
    simp only [Nat.add_assoc]
    split_ifs with hbs
    · exact ih
    · exact ih

end Writer

/-! ## The reader -/

variable {buf : Nat → α} {prog : S × Nat → S × Nat} {s s' s'' : S}

variable (fits base) in
/-- `n` bytes are read and used to update the state, if they fit. -/
def get [DecidablePred fits] (buf : Nat → α) (n : Nat) (upd : List α → S → S) (st : S × Nat) :
    S × Nat :=
  if fits (st.2 + n) then (upd (peek buf (base + st.2) n) st.1, st.2 + n) else st

variable (fits base buf) in
/-- The reader takes the state `s` to `s'` when it finds the bytes `bs` and room for them. -/
def Reads (prog : S × Nat → S × Nat) (bs : List α) (s s' : S) : Prop :=
  ∀ o, peek buf (base + o) bs.length = bs → fits (o + bs.length) →
    prog (s, o) = (s', o + bs.length)

namespace Reads

theorem nil : Reads fits base buf (runAll []) [] s s := fun _ _ _ => rfl

theorem get [DecidablePred fits] {upd : List α → S → S} (hn : bs.length = n) :
    Reads fits base buf (get fits base buf n upd) bs s (upd bs s) := by
  intro o hpeek hfits
  subst hn
  rw [Serial.get, if_pos hfits, hpeek]

/-- One reader after another. -/
theorem comp {prog' : S × Nat → S × Nat} (hdown : Downward fits)
    (h : Reads fits base buf prog bs s s') (h' : Reads fits base buf prog' cs s' s'') :
    Reads fits base buf (fun st => prog' (prog st)) (bs ++ cs) s s'' := by
  intro o hpeek hfits
  obtain ⟨hbs, hcs⟩ := peek_eq_append.mp hpeek
  rw [List.length_append, ← Nat.add_assoc] at hfits ⊢
  rw [Nat.add_assoc] at hcs
  dsimp only
  rw [h o hbs (hdown (Nat.le_add_right _ _) hfits), h' _ hcs hfits]

theorem cons {progs : List (S × Nat → S × Nat)} (hdown : Downward fits)
    (h : Reads fits base buf prog bs s s') (h' : Reads fits base buf (runAll progs) cs s' s'') :
    Reads fits base buf (runAll (prog :: progs)) (bs ++ cs) s s'' := by
  have hboth : Reads fits base buf (fun st => runAll progs (prog st)) (bs ++ cs) s s'' :=
    h.comp hdown h'
  exact hboth

/-- A loop of readers, each of which keeps an invariant. -/
theorem foldl {I : S → Prop} {prog : ι → S × Nat → S × Nat} {bytes : ι → List α}
    {upd : ι → S → S} (hdown : Downward fits) (xs : List ι)
    (h : ∀ x ∈ xs, ∀ s, I s → Reads fits base buf (prog x) (bytes x) s (upd x s) ∧ I (upd x s))
    (hs : I s) :
    Reads fits base buf (fun st => xs.foldl (fun st x => prog x st) st) (xs.flatMap bytes) s
      (xs.foldl (fun s x => upd x s) s) := by
  induction xs generalizing s with
  | nil => exact nil
  | cons x xs ih =>
    obtain ⟨hread, hinv⟩ := h x List.mem_cons_self s hs
    exact hread.comp hdown (ih (fun y hy => h y (List.mem_cons_of_mem _ hy)) hinv)

end Reads

variable (fits) in
/-- A reader stays at positions that fit. -/
def Stays (prog : S × Nat → S × Nat) : Prop :=
  ∀ st, fits st.2 → fits (prog st).2

theorem Stays.get [DecidablePred fits] {upd : List α → S → S} :
    Stays fits (get fits base buf n upd) := by
  intro st hst
  rw [Serial.get]
  split_ifs with hn
  · exact hn
  · exact hst

theorem Stays.foldl {prog : ι → S × Nat → S × Nat} (xs : List ι)
    (h : ∀ x ∈ xs, Stays fits (prog x)) :
    Stays fits fun st => xs.foldl (fun st x => prog x st) st := by
  induction xs with
  | nil => exact fun st hst => hst
  | cons x xs ih =>
    intro st hst
    exact ih (fun y hy => h y (List.mem_cons_of_mem _ hy)) _ (h x List.mem_cons_self st hst)

end Serial
