import DVP.Sosal.Hash.Clean

/-!
# Draining hash tables

Any number of tables are set and cleaned in any order, with the one scan position of `hash_clean`.
Each call on a table with records takes one, or starts over at bucket `0` (`Cleans`), and one call more
than there are records empties a table (`hash_clean_drains`).
-/

namespace DVP.Sosal

/-- Tables, and the scan position of `hash_clean`. -/
structure Tables (ι : Type) where
  table : ι → Hash
  index : Nat

/-- The calls of a run, with the addresses `calloc` returns in them and what the memory behind the
buckets holds. -/
inductive TableOp (ι : Type) where
  | set (t : ι) (key value : Nat) (node list : Ptr)
  | clean (t : ι) (value : Option Nat) (beyond : Nat → Option Ptr)

/-- What a call returned, with the indexes at which `hash_clean` read the buckets. -/
inductive TableAnswer where
  | set
  | clean (value : Option Nat) (count : Nat) (reads : List Nat)

variable (a : Arch) {ι : Type} [DecidableEq ι]

/-- One call. -/
def tableStep (s : Tables ι) : TableOp ι → Except Fault (Tables ι × TableAnswer)
  | .set t key value node list => do
    let h ← hashSet a (s.table t) key value node list
    return ({ s with table := Function.update s.table t h }, .set)
  | .clean t value beyond => do
    let c ← hashClean a (s.table t) s.index value beyond
    return (⟨Function.update s.table t c.hash, c.index⟩, .clean c.value c.count c.reads)

/-- The tables `hash_create` makes, before the first call of `hash_clean`. -/
def tablesCreate (size : ι → Nat) (keyFunc : ι → Option (Nat → Nat → Nat)) : Tables ι :=
  ⟨fun t => hashCreate a (size t) (keyFunc t), 0⟩

/-- `calloc` returns memory that is not in use. -/
def TablesFresh (s : Tables ι) : TableOp ι → Prop
  | .set t key value node list => CallocFresh a (s.table t) (.set key value node list)
  | .clean _ _ _ => True

instance (s : Tables ι) : ∀ o, Decidable (TablesFresh a s o)
  | .set t key value node list =>
    inferInstanceAs (Decidable (CallocFresh a (s.table t) (.set key value node list)))
  | .clean _ _ _ => inferInstanceAs (Decidable True)

/-- One record is taken out, and its value and the number of those left are returned. -/
def TakesRecord (h h' : Hash) (value : Option Nat) (count : Nat) : Prop :=
  ∃ r, h.records.Perm (r :: h'.records) ∧ value = some r.value ∧ count = h'.records.length

/-- No bucket from the scan position on holds a record, and bucket `0` does not either: nothing is
taken out, and the scan position is `0`. -/
def StartsOver (s s' : Tables ι) (t : ι) (v : Nat) (value : Option Nat) (count : Nat) : Prop :=
  (∀ i, s.index ≤ i → (s.table t).bucketRecords i = []) ∧ (s.table t).bucketRecords 0 = [] ∧
    s'.table t = s.table t ∧ s'.index = 0 ∧ value = some v ∧ count = (s.table t).records.length

/-- What a call of `hash_clean` does. -/
def Cleans (s : Tables ι) : TableOp ι → TableAnswer → Tables ι → Prop
  | .clean t (some v) _, .clean value count _, s' =>
    (∀ u ≠ t, s'.table u = s.table u) ∧ (s.table t).numTotalElem = (s.table t).records.length ∧
    ((s.table t).records = [] → s'.table t = s.table t ∧ value = some v ∧ count = 0) ∧
    ((s.table t).records ≠ [] →
      TakesRecord (s.table t) (s'.table t) value count ∨ StartsOver s s' t v value count)
  | _, _, _ => True

/-- A call of `hash_clean` reads the buckets of its table alone, and takes a record out of a table that
has some. -/
def CleansOne (s : Tables ι) : TableOp ι → TableAnswer → Tables ι → Prop
  | .clean t (some _) _, .clean value count reads, s' =>
    (∀ i ∈ reads, i < (s.table t).numSlots) ∧
    ((s.table t).records ≠ [] → TakesRecord (s.table t) (s'.table t) value count)
  | _, _, _ => True

/-- The values that calls of `hash_clean` left, but for the `0` they were called with. -/
def cleanedValue : TableAnswer → Option Nat
  | .clean (some v) _ _ => if v = 0 then none else some v
  | _ => none

variable {a} {s s' : Tables ι} {t : ι} {ns : Nat → List Ptr} {f : Nat →₀ Nat}

/-- Every table has the entries of some map. -/
def TablesInv (a : Arch) (s : Tables ι) : Prop := ∀ t, ∃ ns f, HashInv a (s.table t) ns f

theorem table_self (h : Hash) (i : Nat) :
    (⟨Function.update s.table t h, i⟩ : Tables ι).table t = h := Function.update_self _ _ _

theorem TablesInv.update {h : Hash} {index : Nat} (hs : TablesInv a s) (h' : HashInv a h ns f) :
    TablesInv a ⟨Function.update s.table t h, index⟩ := by
  intro u
  by_cases hu : u = t
  · rw [hu]
    exact ⟨ns, f, by rwa [table_self]⟩
  · obtain ⟨ns', f', hinv⟩ := hs u
    refine ⟨ns', f', ?_⟩
    show HashInv a (Function.update s.table t h u) ns' f'
    rwa [Function.update_of_ne hu]

/-- One call of `hash_clean`, on a table with entries. -/
theorem tableStep_clean (v : Nat) (beyond : Nat → Option Ptr) (hinv : HashInv a (s.table t) ns f)
    (hf : f ≠ 0) :
    ∃ c : Cleaned, tableStep a s (.clean t (some v) beyond) =
        .ok (⟨Function.update s.table t c.hash, c.index⟩, .clean c.value c.count c.reads) ∧
      ((∃ k ns', f k ≠ 0 ∧ HashInv a c.hash ns' (f.update k 0) ∧ c.value = some (f k) ∧
          c.count = (f.update k 0).support.card ∧ (∀ j ≠ c.index, ns' j = ns j) ∧
          (c.index = 0 ∨ s.index ≤ c.index ∧ ∀ j, s.index ≤ j → j < c.index → ns j = [])) ∨
        ((∀ j, s.index ≤ j → ns j = []) ∧ ns 0 = [] ∧
          c.hash = s.table t ∧ c.index = 0 ∧ c.value = some v ∧ c.count = f.support.card)) := by
  obtain ⟨c, hclean, hcases⟩ := hashClean_spec s.index v beyond hinv hf
  exact ⟨c, by simp [tableStep, hclean], hcases⟩

/-- One call, on any table. -/
theorem tableStep_cleans {o : TableOp ι} (hs : TablesInv a s) (ho : TablesFresh a s o) :
    ∃ s' r, tableStep a s o = .ok (s', r) ∧ Cleans s o r s' ∧ TablesInv a s' := by
  cases o with
  | set t key value node list =>
    obtain ⟨ns, f, hinv⟩ := hs t
    obtain ⟨hx, hx0, hxsize, hlist⟩ := ho
    obtain ⟨h', ns', hset, hinv'⟩ :=
      hashSet_spec hinv hx hx0 hxsize (Option.isNone_iff_eq_none.mp hlist)
    exact ⟨_, .set, by rw [tableStep, hset]; rfl, trivial, hs.update hinv'⟩
  | clean t value beyond =>
    obtain ⟨ns, f, hinv⟩ := hs t
    cases value with
    | none =>
      -- the pointer of the value is tested
      have hclean : hashClean a (s.table t) s.index none beyond =
          .ok ⟨s.table t, s.index, none, [], 0⟩ := by simp [hashClean]
      exact ⟨_, _, by rw [tableStep, hclean]; rfl, trivial, hs.update hinv⟩
    | some v =>
      by_cases hf : f = 0
      · subst hf
        refine ⟨_, _, by rw [tableStep, hashClean_empty beyond hinv]; rfl, ?_, hs.update hinv⟩
        refine ⟨fun u hu => Function.update_of_ne hu _ _, hinv.total_eq_length, fun _ => ?_,
          fun hne => absurd (hinv.records_eq_nil.mpr rfl) hne⟩
        exact ⟨Function.update_self _ _ _, rfl, rfl⟩
      · obtain ⟨c, hstep, hcases⟩ := tableStep_clean v beyond hinv hf
        have hne : (s.table t).records ≠ [] := fun hnil => hf (hinv.records_eq_nil.mp hnil)
        have hself : Function.update s.table t c.hash t = c.hash := Function.update_self _ _ _
        refine ⟨_, _, hstep, ⟨fun u hu => Function.update_of_ne hu _ _, hinv.total_eq_length,
          fun hnil => absurd hnil hne, fun _ => ?_⟩, ?_⟩
        · rcases hcases with ⟨k, ns', hfk, hinv', hvalue, hcount, -, -⟩ |
            ⟨hafter, hfirst, hhash, hindex, hvalue, hcount⟩
          · refine .inl ⟨⟨k, f k⟩, ?_, hvalue, ?_⟩
            · simp only [hself]
              exact hinv.records_perm hinv' hfk
            · simp only [hself, hcount]
              rw [← hinv'.total, hinv'.total_eq_length]
          · refine .inr ⟨fun i hi => hinv.bucketRecords_eq_nil.mpr (hafter i hi),
              hinv.bucketRecords_eq_nil.mpr hfirst, hself.trans hhash, hindex, hvalue, ?_⟩
            rw [hcount, ← hinv.total, hinv.total_eq_length]
        · rcases hcases with ⟨k, ns', -, hinv', -⟩ | ⟨-, -, hhash, -⟩
          · exact hs.update hinv'
          · rw [hhash]
            exact hs.update hinv

/-- Calls of `hash_clean` on one table leave its values and empty it: one for each record, and one more
when there are records before the scan position. -/
theorem clean_run {bs : List (Nat → Option Ptr)} (hinv : HashInv a (s.table t) ns f)
    (hcalls : f.support.card ≤ bs.length)
    (hbefore : (∃ j < s.index, ns j ≠ []) → f.support.card + 1 ≤ bs.length) :
    ∃ s' rs, Machine.run (tableStep a) s (bs.map fun b => .clean t (some 0) b) = .ok (s', rs) ∧
      (∃ ns', HashInv a (s'.table t) ns' 0) ∧
      (rs.filterMap cleanedValue).Perm ((s.table t).records.map Record.value) := by
  induction bs generalizing s ns f with
  | nil =>
    have hf : f = 0 := by
      rw [← Finsupp.support_eq_empty, ← Finset.card_eq_zero]
      exact Nat.le_zero.mp hcalls
    subst hf
    refine ⟨s, [], rfl, ⟨ns, hinv⟩, ?_⟩
    rw [hinv.records_eq_nil.mpr rfl]
    exact List.Perm.nil
  | cons b bs ih =>
    -- what holds of the rest of the calls holds of all of them
    have hgo : ∀ (s₁ : Tables ι) (r : TableAnswer) {ns₁ : Nat → List Ptr} {f₁ : Nat →₀ Nat},
        tableStep a s (.clean t (some 0) b) = .ok (s₁, r) → HashInv a (s₁.table t) ns₁ f₁ →
        f₁.support.card ≤ bs.length →
        ((∃ j < s₁.index, ns₁ j ≠ []) → f₁.support.card + 1 ≤ bs.length) →
        ((s.table t).records.map Record.value).Perm
          ((cleanedValue r).toList ++ (s₁.table t).records.map Record.value) →
        ∃ s' rs, Machine.run (tableStep a) s ((b :: bs).map fun b => .clean t (some 0) b) =
            .ok (s', rs) ∧ (∃ ns', HashInv a (s'.table t) ns' 0) ∧
          (rs.filterMap cleanedValue).Perm ((s.table t).records.map Record.value) := by
      intro s₁ r ns₁ f₁ hstep hinv₁ hcalls₁ hbefore₁ hperm
      obtain ⟨s', rs, hrun, hinv', hrest⟩ := ih hinv₁ hcalls₁ hbefore₁
      refine ⟨s', r :: rs, Machine.run_cons_ok hstep hrun, hinv', ?_⟩
      refine List.Perm.trans ?_ hperm.symm
      rw [List.filterMap_cons]
      cases hvalue : cleanedValue r with
      | none => exact hrest
      | some v => exact hrest.cons v
    rw [List.length_cons] at hcalls hbefore
    by_cases hf : f = 0
    · subst hf
      refine hgo ⟨Function.update s.table t (s.table t), s.index⟩ (.clean (some 0) 0 [])
        (by rw [tableStep, hashClean_empty b hinv]; rfl) (by rwa [table_self])
        (Nat.zero_le _) ?_ (by rw [table_self]; exact List.Perm.refl _)
      rintro ⟨j, -, hj⟩
      obtain ⟨p, hp⟩ := List.exists_mem_of_ne_nil _ hj
      exact absurd rfl ((hinv.contents j).record hp).2.1
    · obtain ⟨c, hstep, hcases⟩ := tableStep_clean 0 b hinv hf
      rcases hcases with ⟨k, ns', hfk, hinv', hvalue, -, hother, hplace⟩ |
        ⟨hafter, -, hhash, hindex, hvalue, -⟩
      · refine hgo _ _ hstep (by rwa [table_self]) ?_ ?_ ?_
        · rw [card_update_remove hfk]
          omega
        · rintro ⟨j, hj, hne⟩
          dsimp only at hj
          rw [card_update_remove hfk]
          rcases hplace with hzero | ⟨hle, hempty⟩
          · omega
          · -- a bucket the scan passed was not in use
            have hj' : j < s.index := by
              by_contra hge
              rw [hother j (Nat.ne_of_lt hj)] at hne
              exact hne (hempty j (Nat.le_of_not_lt hge) hj)
            have hcount := hbefore ⟨j, hj', by rwa [hother j (Nat.ne_of_lt hj)] at hne⟩
            have hpos : 0 < f.support.card :=
              Finset.card_pos.mpr ⟨k, Finsupp.mem_support_iff.mpr hfk⟩
            omega
        · rw [hvalue, table_self]
          simpa [cleanedValue, hfk] using (hinv.records_perm hinv' hfk).map Record.value
      · refine hgo _ _ hstep (by rwa [table_self, hhash]) ?_ ?_ ?_
        · -- the table has a record, and it is before the scan position
          obtain ⟨k, hk⟩ : ∃ k, f k ≠ 0 := by
            by_contra hall
            exact hf (Finsupp.ext fun k => not_not.mp fun hk => hall ⟨k, hk⟩)
          obtain ⟨p, hp, -⟩ := ((hinv.contents (((s.table t).indexOf k))).exists_iff rfl).mpr hk
          have hne : ns ((s.table t).indexOf k) ≠ [] := List.ne_nil_of_mem hp
          have hlt : (s.table t).indexOf k < s.index := by
            by_contra hge
            exact hne (hafter _ (Nat.le_of_not_lt hge))
          have hcount := hbefore ⟨_, hlt, hne⟩
          omega
        · rintro ⟨j, hj, -⟩
          dsimp only at hj
          omega
        · rw [hvalue, table_self, hhash]
          exact List.Perm.refl _

/-- Over every run of `hash_set` and `hash_clean` on any number of tables, a call of `hash_clean` on a
table with records takes one out, leaves its value and returns the number of those left; or it starts
over and finds bucket `0` empty, and takes nothing. One call more than a table has records leaves each of
its values once, and the table empty. -/
theorem hash_clean_drains (a : Arch) (size : ι → Nat) (keyFunc : ι → Option (Nat → Nat → Nat))
    (hsize : ∀ t, size t ∈ hashSizes)
    (hkey : ∀ t, ∀ g ∈ keyFunc t, ∀ key, g (size t) key < 2 ^ size t) (os : List (TableOp ι))
    (hfresh : Machine.Meets (tableStep a) (TablesFresh a) (tablesCreate a size keyFunc) os) :
    Machine.EachStep (tableStep a) Cleans (tablesCreate a size keyFunc) os ∧
    ∀ s rs, Machine.run (tableStep a) (tablesCreate a size keyFunc) os = .ok (s, rs) →
      ∀ t (bs : List (Nat → Option Ptr)), bs.length = (s.table t).numTotalElem + 1 →
      ∃ s' rs', Machine.run (tableStep a) s (bs.map fun b => .clean t (some 0) b) = .ok (s', rs') ∧
        (s'.table t).records = [] ∧ (s'.table t).numTotalElem = 0 ∧
        (rs'.filterMap cleanedValue).Perm ((s.table t).records.map Record.value) := by
  have hstart : TablesInv a (tablesCreate a size keyFunc) :=
    fun t => ⟨_, _, hashInv_create (hsize t) (hkey t)⟩
  refine ⟨Machine.eachStep_of_invariant (fun s o hs ho => tableStep_cleans hs ho) hstart hfresh, ?_⟩
  intro s rs hrun t bs hlength
  have hs : TablesInv a s := by
    refine Machine.run_invariant_of_ok (fun s o s' r hs ho hstep => ?_) hstart hfresh hrun
    obtain ⟨s₁, r₁, hstep₁, -, hs₁⟩ := tableStep_cleans hs ho
    rw [hstep] at hstep₁
    cases hstep₁
    exact hs₁
  obtain ⟨ns, f, hinv⟩ := hs t
  rw [hinv.total] at hlength
  obtain ⟨s', rs', hrun', ⟨ns', hinv'⟩, hvalues⟩ :=
    clean_run hinv (by omega) (fun _ => le_of_eq hlength.symm)
  exact ⟨s', rs', hrun', hinv'.records_eq_nil.mpr rfl, hinv'.total, hvalues⟩

/-- A small table and a medium one. -/
def twoSizes (medium : Bool) : Nat := if medium then 12 else 8

/-- Both tables are set and cleaned, the medium one first. -/
def twoTables : List (TableOp Bool) :=
  [.set true 1 10 16 16, .set false 2 20 16 16, .clean true (some 0) fun _ => none,
    .clean false (some 0) fun _ => none, .clean false (some 0) fun _ => none]

theorem hash_clean_drains_two :
    Machine.EachStep (tableStep .arch64) Cleans (tablesCreate .arch64 twoSizes fun _ => none)
      twoTables :=
  (hash_clean_drains .arch64 twoSizes (fun _ => none) (by decide) (by simp) twoTables
    (Machine.check_eq_true_iff.mp (by decide +kernel))).1

/-- A table is set and cleaned, and set again: the second record is in an earlier bucket. -/
def setCleanSet : List (TableOp Unit) :=
  [.set () 1 10 16 16, .clean () (some 0) fun _ => none, .set () 2 20 32 32]

/-- What happens in the last call of a run. -/
def lastCall (os : List (TableOp Unit)) (o : TableOp Unit) : Option (Hash × Hash × TableAnswer) :=
  match Machine.run (tableStep .arch64) (tablesCreate .arch64 (fun _ => 8) fun _ => none) os with
  | .error _ => none
  | .ok (s, _) =>
    match tableStep .arch64 s o with
    | .error _ => none
    | .ok (s', r) => some (s.table (), s'.table (), r)

/-- The next call of `hash_clean` starts over at bucket `0`, and takes nothing. -/
theorem hash_clean_takes_nothing :
    ¬Machine.EachStep (tableStep .arch64) CleansOne (tablesCreate .arch64 (fun _ => 8) fun _ => none)
      (setCleanSet ++ [.clean () (some 0) fun _ => none]) := by
  intro heach
  obtain ⟨s, rs, s', r, hrun, hstep, hcleans⟩ := heach.middle
  have hlast : lastCall setCleanSet (.clean () (some 0) fun _ => none) =
      some (s.table (), s'.table (), r) := by
    rw [lastCall, hrun]
    simp only [hstep]
  have hcheck : (lastCall setCleanSet (.clean () (some 0) fun _ => none)).any fun c =>
      (match c.2.2 with
      | .set => false
      | .clean _ _ _ => decide (c.1.records ≠ [] ∧ c.2.1.records.length = c.1.records.length)) =
        true := by
    decide +kernel
  rw [hlast] at hcheck
  cases r with
  | set => simp at hcheck
  | clean value count reads =>
    have hsame : (s.table ()).records ≠ [] ∧
        (s'.table ()).records.length = (s.table ()).records.length := by simpa using hcheck
    obtain ⟨r, hperm, -, -⟩ := hcleans.2 hsame.1
    have hlength := hperm.length_eq
    rw [List.length_cons] at hlength
    omega

end DVP.Sosal
