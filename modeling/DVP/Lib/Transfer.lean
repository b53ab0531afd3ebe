import Mathlib.Data.List.Nodup
import Mathlib.Logic.Function.Basic

/-!
# Transfers

Straight-line programs over a memory. A statement reads some places, and then writes places one
after the other with values of what it read. The loops that copy and convert data are lists of such
statements, which do not depend on the data.

* `run_of_notMem`: a place that is not written keeps its value.
* `run_eq`: if nothing that is read is written, a place has the value that the statements which
  write it compute from the memory at the start, when they agree.
* `foldlM_store`: a loop, the rounds of which may be loops themselves, stores what each round
  computes from places that no round writes.
* `Determined.run_eq`: if statements read only places that are known or were written before, two
  runs from memories with the same known places write the same values.
-/

/-- A statement. -/
structure Transfer (A V : Type) where
  sources : List A
  targets : List (A × (List V → V))

namespace Transfer

variable {A V : Type} {m m' : A → V} {t : Transfer A V} {ts us : List (Transfer A V)} {a : A} {v : V}

/-- The places that are read. -/
def reads (ts : List (Transfer A V)) : List A := ts.flatMap sources

/-- The places that are written. -/
def writes (ts : List (Transfer A V)) : List A := ts.flatMap fun t => t.targets.map Prod.fst

/-- A place is read when a transfer reads it. -/
theorem mem_reads : a ∈ reads ts ↔ ∃ t ∈ ts, a ∈ t.sources := List.mem_flatMap

/-- A place is written when a transfer writes it. -/
theorem mem_writes : a ∈ writes ts ↔ ∃ t ∈ ts, ∃ w ∈ t.targets, w.1 = a := by
  simp only [writes, List.mem_flatMap, List.mem_map]

/-- No transfers read nothing. -/
@[simp]
theorem reads_nil : reads ([] : List (Transfer A V)) = [] := rfl

/-- No transfers write nothing. -/
@[simp]
theorem writes_nil : writes ([] : List (Transfer A V)) = [] := rfl

/-- What is read is what the first transfer and the others read. -/
@[simp]
theorem reads_cons : reads (t :: ts) = t.sources ++ reads ts := List.flatMap_cons

/-- What is written is what the first transfer and the others write. -/
@[simp]
theorem writes_cons : writes (t :: ts) = t.targets.map Prod.fst ++ writes ts := List.flatMap_cons

/-- What is read is what both parts read. -/
@[simp]
theorem reads_append : reads (ts ++ us) = reads ts ++ reads us := List.flatMap_append

/-- What is written is what both parts write. -/
@[simp]
theorem writes_append : writes (ts ++ us) = writes ts ++ writes us := List.flatMap_append

/-- What a loop reads. -/
theorem mem_reads_flatMap {ι : Type} {is : List ι} {f : ι → List (Transfer A V)} :
    a ∈ reads (is.flatMap f) ↔ ∃ i ∈ is, a ∈ reads (f i) := by
  simp only [reads, List.mem_flatMap]
  constructor
  · rintro ⟨t, ⟨i, hi, ht⟩, ha⟩
    exact ⟨i, hi, t, ht, ha⟩
  · rintro ⟨i, hi, t, ht, ha⟩
    exact ⟨t, ⟨i, hi, ht⟩, ha⟩

/-- What a loop writes. -/
theorem mem_writes_flatMap {ι : Type} {is : List ι} {f : ι → List (Transfer A V)} :
    a ∈ writes (is.flatMap f) ↔ ∃ i ∈ is, a ∈ writes (f i) := by
  simp only [mem_writes, List.mem_flatMap]
  constructor
  · rintro ⟨t, ⟨i, hi, ht⟩, hw⟩
    exact ⟨i, hi, t, ht, hw⟩
  · rintro ⟨i, hi, t, ht, hw⟩
    exact ⟨t, ⟨i, hi, ht⟩, hw⟩

/-! ## Known places -/

/-- Every statement reads places that are known or were written before it. -/
def Determined (K : A → Prop) : List (Transfer A V) → Prop
  | [] => True
  | t :: ts => (∀ b ∈ t.sources, K b) ∧ Determined (fun b => K b ∨ b ∈ t.targets.map Prod.fst) ts

/-- More places may be known. -/
theorem Determined.mono {K K' : A → Prop} (h : Determined K ts) (hK : ∀ b, K b → K' b) :
    Determined K' ts := by
  induction ts generalizing K K' with
  | nil => trivial
  | cons t ts ih => exact ⟨fun b hb => hK b (h.1 b hb), ih h.2 fun b => Or.imp_left (hK b)⟩

/-- Two parts that the places determine are determined together. -/
theorem Determined.append {K : A → Prop} (h : Determined K ts) (h' : Determined K us) :
    Determined K (ts ++ us) := by
  induction ts generalizing K with
  | nil => exact h'
  | cons t ts ih => exact ⟨h.1, ih h.2 (h'.mono fun b => .inl)⟩

/-- The rounds of a loop may each know what is known before the loop. -/
theorem Determined.flatMap {K : A → Prop} {ι : Type} {is : List ι} {f : ι → List (Transfer A V)}
    (h : ∀ i ∈ is, Determined K (f i)) : Determined K (is.flatMap f) := by
  induction is with
  | nil => trivial
  | cons i is ih =>
    rw [List.flatMap_cons]
    exact (h i List.mem_cons_self).append (ih fun j hj => h j (List.mem_cons_of_mem _ hj))

/-- Statements may read what is known alone. -/
theorem determined_of_reads {K : A → Prop} (h : ∀ b ∈ reads ts, K b) : Determined K ts := by
  induction ts generalizing K with
  | nil => trivial
  | cons t ts ih =>
    rw [reads_cons, List.forall_mem_append] at h
    exact ⟨h.1, ih fun b hb => .inl (h.2 b hb)⟩

/-! ## Other places -/

section Map

variable {B : Type}

/-- The statement with its places moved. -/
def map (f : A → B) (t : Transfer A V) : Transfer B V :=
  ⟨t.sources.map f, t.targets.map fun w => (f w.1, w.2)⟩

/-- Places that are renamed are the targets under their new names. -/
theorem map_fst_targets_map {f : A → B} :
    (t.map f).targets.map Prod.fst = (t.targets.map Prod.fst).map f := by
  simp only [map, List.map_map]
  rfl

/-- All that is written has its new name. -/
theorem writes_map {f : A → B} : writes (ts.map (map f)) = (writes ts).map f := by
  induction ts with
  | nil => rfl
  | cons t ts ih =>
    rw [List.map_cons, writes_cons, writes_cons, List.map_append, ih, map_fst_targets_map]

/-- Transfers stay determined when their places are renamed. -/
theorem Determined.map {f : A → B} {K : A → Prop} {K' : B → Prop} (h : Determined K ts)
    (hK : ∀ b, K b → K' (f b)) : Determined K' (ts.map (map f)) := by
  induction ts generalizing K K' with
  | nil => trivial
  | cons t ts ih =>
    constructor
    · intro b hb
      obtain ⟨a, ha, rfl⟩ := List.mem_map.mp hb
      exact hK a (h.1 a ha)
    · apply ih h.2
      rw [map_fst_targets_map]
      rintro b (hb | hb)
      · exact .inl (hK b hb)
      · exact .inr (List.mem_map_of_mem hb)

end Map

/-! ## Copies -/

/-- `*d = *s`. -/
def copy [Inhabited V] (d s : A) : Transfer A V := ⟨[s], [(d, fun vs => vs.headD default)]⟩

/-- Copies a run of `n` places, whose places are given by their numbers. -/
def copyRun [Inhabited V] (d s : Nat → A) (n : Nat) : List (Transfer A V) :=
  (List.range n).map fun i => copy (d i) (s i)

section Copies

variable [Inhabited V] {d s : Nat → A} {n : Nat}

/-- A run copies one place after the other. -/
theorem mem_copyRun : t ∈ (copyRun d s n : List (Transfer A V)) ↔ ∃ i < n, copy (d i) (s i) = t := by
  simp only [copyRun, List.mem_map, List.mem_range]

/-- A run reads its sources. -/
theorem mem_reads_copyRun :
    a ∈ reads (copyRun d s n : List (Transfer A V)) ↔ ∃ i < n, s i = a := by
  simp only [mem_reads, mem_copyRun]
  constructor
  · rintro ⟨t, ⟨i, hi, rfl⟩, ha⟩
    exact ⟨i, hi, (List.mem_singleton.mp ha).symm⟩
  · rintro ⟨i, hi, rfl⟩
    exact ⟨_, ⟨i, hi, rfl⟩, List.mem_singleton_self _⟩

/-- A run writes its destinations. -/
theorem mem_writes_copyRun :
    a ∈ writes (copyRun d s n : List (Transfer A V)) ↔ ∃ i < n, d i = a := by
  simp only [mem_writes, mem_copyRun]
  constructor
  · rintro ⟨t, ⟨i, hi, rfl⟩, w, hw, ha⟩
    rw [List.mem_singleton.mp hw] at ha
    exact ⟨i, hi, ha⟩
  · rintro ⟨i, hi, rfl⟩
    exact ⟨_, ⟨i, hi, rfl⟩, _, List.mem_singleton_self _, rfl⟩

end Copies

/-- Copies to the places of a list from numbered places, the first of which has the number `o`. -/
def copyList [Inhabited V] (ds : List A) (s : Nat → A) (o : Nat) : List (Transfer A V) :=
  (ds.zipIdx o).map fun x => copy x.1 (s x.2)

section CopyLists

variable [Inhabited V] {ds es : List A} {s : Nat → A} {o : Nat}

/-- Two lists of places are copied one after the other. -/
theorem copyList_append :
    (copyList (ds ++ es) s o : List (Transfer A V)) =
      copyList ds s o ++ copyList es s (o + ds.length) := by
  rw [copyList, List.zipIdx_append, List.map_append]
  rfl

/-- A run of places is a list of places. -/
theorem copyList_map_range {d : Nat → A} {n : Nat} :
    (copyList ((List.range n).map d) s o : List (Transfer A V)) =
      copyRun d (fun i => s (o + i)) n := by
  induction n with
  | zero => rfl
  | succ n ih =>
    rw [List.range_succ, List.map_append, copyList_append, ih, List.length_map, List.length_range,
      copyRun, copyRun, List.range_succ, List.map_append]
    rfl

/-- Each place of the list gets its source. -/
theorem mem_copyList :
    t ∈ (copyList ds s o : List (Transfer A V)) ↔
      ∃ i, ∃ h : i < ds.length, copy ds[i] (s (o + i)) = t := by
  simp only [copyList, List.mem_map, List.mem_zipIdx_iff_le_and_getElem?_sub]
  constructor
  · rintro ⟨⟨d, k⟩, ⟨hle, hd⟩, rfl⟩
    obtain ⟨hlt, hget⟩ := List.getElem?_eq_some_iff.mp hd
    exact ⟨k - o, hlt, by rw [hget, Nat.add_sub_cancel' hle]⟩
  · rintro ⟨i, hi, rfl⟩
    refine ⟨(ds[i], o + i), ⟨Nat.le_add_right _ _, ?_⟩, rfl⟩
    rw [Nat.add_sub_cancel_left, List.getElem?_eq_getElem hi]

/-- The sources of a list are read. -/
theorem mem_reads_copyList :
    a ∈ reads (copyList ds s o : List (Transfer A V)) ↔ ∃ i < ds.length, s (o + i) = a := by
  simp only [mem_reads, mem_copyList]
  constructor
  · rintro ⟨t, ⟨i, hi, rfl⟩, ha⟩
    exact ⟨i, hi, (List.mem_singleton.mp ha).symm⟩
  · rintro ⟨i, hi, rfl⟩
    exact ⟨_, ⟨i, hi, rfl⟩, List.mem_singleton_self _⟩

/-- The list is what is written. -/
@[simp]
theorem writes_copyList : writes (copyList ds s o : List (Transfer A V)) = ds := by
  have hsingle : ∀ x : A × Nat,
      (copy x.1 (s x.2) : Transfer A V).targets.map Prod.fst = [x.1] := fun _ => rfl
  rw [writes, copyList, List.flatMap_map, List.flatMap_congr fun x _ => hsingle x,
    ← List.map_eq_flatMap, List.zipIdx_map_fst]

end CopyLists

/-! ## Runs -/

/-- The values a statement writes. -/
def values (m : A → V) (t : Transfer A V) : List (A × V) :=
  t.targets.map fun w => (w.1, w.2 (t.sources.map m))

/-- The values go to the targets. -/
theorem map_fst_values : (values m t).map Prod.fst = t.targets.map Prod.fst := by
  rw [values, List.map_map]
  rfl

variable [DecidableEq A]

/-- The memory with values written one after the other. -/
def store (m : A → V) : List (A × V) → A → V
  | [] => m
  | w :: ws => store (Function.update m w.1 w.2) ws

/-- The memory after a statement. -/
def exec (m : A → V) (t : Transfer A V) : A → V := store m (values m t)

/-- The memory after statements. -/
def run (m : A → V) (ts : List (Transfer A V)) : A → V := ts.foldl exec m

/-- No transfers do nothing. -/
@[simp]
theorem run_nil : run m [] = m := rfl

/-- The first transfer is done first. -/
@[simp]
theorem run_cons : run m (t :: ts) = run (exec m t) ts := rfl

/-- Two parts are done one after the other. -/
@[simp]
theorem run_append : run m (ts ++ us) = run (run m ts) us := List.foldl_append

/-- Two lists of values are stored one after the other. -/
@[simp]
theorem store_append {ws ws' : List (A × V)} : store m (ws ++ ws') = store (store m ws) ws' := by
  induction ws generalizing m with
  | nil => rfl
  | cons w ws ih => exact ih

/-- A place that nothing is stored to keeps its value. -/
theorem store_of_notMem {ws : List (A × V)} (h : a ∉ ws.map Prod.fst) : store m ws a = m a := by
  induction ws generalizing m with
  | nil => rfl
  | cons w ws ih =>
    rw [List.map_cons, List.mem_cons, not_or] at h
    exact (ih h.2).trans (Function.update_of_ne h.1 ..)

/-- What is stored at a place does not depend on what was there. -/
theorem store_congr {ws : List (A × V)} (h : a ∈ ws.map Prod.fst ∨ m a = m' a) :
    store m ws a = store m' ws a := by
  induction ws generalizing m m' with
  | nil => exact h.resolve_left List.not_mem_nil
  | cons w ws ih =>
    rw [store, store]
    apply ih
    by_cases hwa : a = w.1
    · right
      rw [hwa, Function.update_self, Function.update_self]
    · rw [Function.update_of_ne hwa, Function.update_of_ne hwa]
      rw [List.map_cons, List.mem_cons] at h
      exact h.imp_left fun hmem => hmem.resolve_left hwa

/-- A place has the value of its writers, if they agree. -/
theorem store_eq {ws : List (A × V)} (h : ∀ w ∈ ws, w.1 = a → w.2 = v)
    (ha : a ∈ ws.map Prod.fst ∨ m a = v) : store m ws a = v := by
  induction ws generalizing m with
  | nil => exact ha.resolve_left List.not_mem_nil
  | cons w ws ih =>
    rw [store]
    apply ih fun w hw => h w (List.mem_cons_of_mem _ hw)
    by_cases hwa : a = w.1
    · right
      rw [hwa, Function.update_self]
      exact h w List.mem_cons_self hwa.symm
    · rw [Function.update_of_ne hwa]
      rw [List.map_cons, List.mem_cons] at ha
      exact ha.imp_left fun hmem => hmem.resolve_left hwa

/-- A loop whose rounds store values that depend on the known places alone, and store none of them
at a known place. The state of the loop has a memory. -/
theorem foldlM_store {σ ι : Type} (mem : σ → A → V) {step : σ → ι → Option σ} {K : A → Prop}
    {ws : ι → List (A × V)} {is : List ι} {s : σ}
    (hstep : ∀ i ∈ is, ∀ s, (∀ b, K b → mem s b = m b) →
      ∃ s', step s i = some s' ∧ mem s' = store (mem s) (ws i))
    (hapart : ∀ i ∈ is, ∀ w ∈ ws i, ¬K w.1) (hs : ∀ b, K b → mem s b = m b) :
    ∃ s', is.foldlM step s = some s' ∧ mem s' = store (mem s) (is.flatMap ws) := by
  induction is generalizing s with
  | nil => exact ⟨s, rfl, rfl⟩
  | cons i is ih =>
    rw [List.forall_mem_cons] at hstep hapart
    obtain ⟨s₁, hround, hmem₁⟩ := hstep.1 s hs
    have hs₁ : ∀ b, K b → mem s₁ b = m b := by
      intro b hb
      rw [hmem₁, store_of_notMem, hs b hb]
      intro hmem
      obtain ⟨w, hw, rfl⟩ := List.mem_map.mp hmem
      exact hapart.1 w hw hb
    obtain ⟨s₂, hrest, hmem₂⟩ := ih hstep.2 hapart.2 hs₁
    refine ⟨s₂, ?_, ?_⟩
    · rw [List.foldlM_cons, hround]
      exact hrest
    · rw [hmem₂, hmem₁, List.flatMap_cons, store_append]

/-- A place that a transfer does not write keeps its value. -/
theorem exec_of_notMem (h : a ∉ t.targets.map Prod.fst) : exec m t a = m a :=
  store_of_notMem (by rwa [map_fst_values])

/-- A place has a value after a transfer that writes nothing else there. -/
theorem exec_eq (h : ∀ w ∈ t.targets, w.1 = a → w.2 (t.sources.map m) = v)
    (ha : a ∈ t.targets.map Prod.fst ∨ m a = v) : exec m t a = v := by
  apply store_eq
  · rintro _ hw rfl
    obtain ⟨w, hmem, rfl⟩ := List.mem_map.mp hw
    exact h w hmem rfl
  · rwa [map_fst_values]

/-- A statement that reads the same writes the same. -/
theorem exec_congr (hread : ∀ b ∈ t.sources, m b = m' b)
    (ha : a ∈ t.targets.map Prod.fst ∨ m a = m' a) : exec m t a = exec m' t a := by
  have hvalues : values m t = values m' t := by
    rw [values, values, List.map_congr_left hread]
  rw [exec, exec, hvalues]
  apply store_congr
  rwa [map_fst_values]

/-- A place that is not written keeps its value. -/
theorem run_of_notMem (h : a ∉ writes ts) : run m ts a = m a := by
  induction ts generalizing m with
  | nil => rfl
  | cons t ts ih =>
    rw [writes_cons, List.mem_append, not_or] at h
    rw [run_cons, ih h.2, exec_of_notMem h.1]

/-- A place has the value of the last statement that writes it. -/
theorem run_append_cons (h : a ∉ writes us) :
    run m (ts ++ t :: us) a = exec (run m ts) t a := by
  rw [run_append, run_cons, run_of_notMem h]

/-- When nothing that is read is written, a place has the value of its writers, if they agree. -/
theorem run_eq (hsep : ∀ b ∈ reads ts, b ∉ writes ts)
    (h : ∀ t ∈ ts, ∀ w ∈ t.targets, w.1 = a → w.2 (t.sources.map m) = v)
    (ha : a ∈ writes ts ∨ m a = v) : run m ts a = v := by
  induction ts generalizing m with
  | nil => exact ha.resolve_left List.not_mem_nil
  | cons t ts ih =>
    rw [run_cons]
    apply ih
    · intro b hb hw
      refine hsep b ?_ ?_
      · rw [reads_cons]
        exact List.mem_append_right _ hb
      · rw [writes_cons]
        exact List.mem_append_right _ hw
    · -- the statements that follow read what was there at the start
      intro t' ht' w hw hwa
      have hsame : t'.sources.map (exec m t) = t'.sources.map m := by
        apply List.map_congr_left
        intro b hb
        apply exec_of_notMem
        intro hmem
        refine hsep b (mem_reads.mpr ⟨t', List.mem_cons_of_mem _ ht', hb⟩) ?_
        rw [writes_cons]
        exact List.mem_append_left _ hmem
      rw [hsame]
      exact h t' (List.mem_cons_of_mem _ ht') w hw hwa
    -- without a writer that follows, this statement wrote the value, or it was there
    · by_cases hts : a ∈ writes ts
      · exact .inl hts
      · right
        apply exec_eq (h t List.mem_cons_self)
        rw [writes_cons, List.mem_append] at ha
        exact ha.imp_left fun hmem => hmem.resolve_right hts

/-- Different places each receive the value that is copied to them. -/
theorem map_run_copyList [Inhabited V] {ds : List A} {s : Nat → A} {o : Nat} (hnodup : ds.Nodup)
    (hsep : ∀ i < ds.length, s (o + i) ∉ ds) :
    ds.map (run m (copyList ds s o)) = (List.range ds.length).map fun i => m (s (o + i)) := by
  apply List.ext_getElem
  · rw [List.length_map, List.length_map, List.length_range]
  intro i hi _
  rw [List.length_map] at hi
  rw [List.getElem_map, List.getElem_map, List.getElem_range]
  apply run_eq
  · intro b hb
    obtain ⟨j, hj, rfl⟩ := mem_reads_copyList.mp hb
    rw [writes_copyList]
    exact hsep j hj
  · -- the one writer of the place is its own copy
    intro t ht w hw hwa
    obtain ⟨j, hj, rfl⟩ := mem_copyList.mp ht
    rw [List.mem_singleton.mp hw] at hwa ⊢
    have hji : j = i := hnodup.getElem_inj_iff.mp hwa
    rw [← hji]
    rfl
  · rw [writes_copyList]
    exact .inl (List.getElem_mem hi)

/-- Runs from memories with the same known places write the same values. -/
theorem Determined.run_eq {K : A → Prop} (h : Determined K ts) (hK : ∀ b, K b → m b = m' b)
    (ha : a ∈ writes ts ∨ m a = m' a) : run m ts a = run m' ts a := by
  -- by induction on the statements: what one of them writes is known to those that follow
  induction ts generalizing K m m' with
  | nil => exact ha.resolve_left List.not_mem_nil
  | cons t ts ih =>
    have hread : ∀ b ∈ t.sources, m b = m' b := fun b hb => hK b (h.1 b hb)
    apply ih h.2
    · rintro b (hb | hb)
      · exact exec_congr hread (.inr (hK b hb))
      · exact exec_congr hread (.inl hb)
    -- a place that is not written later was written by this statement, or is as at the start
    · by_cases hts : a ∈ writes ts
      · exact .inl hts
      · rw [writes_cons, List.mem_append] at ha
        exact .inr (exec_congr hread (ha.imp_left fun hmem => hmem.resolve_right hts))

end Transfer
