import Mathlib.Data.List.Nodup
import DVP.Sosal.Hash.Refinement

/-!
# Taking records out of a hash table

`hash_clean` takes the first record of the first bucket in use, from the position at which the last
call stopped; the position is a variable of the function that all tables share. When it is past the
last bucket, the scan starts over at bucket `0`, and finds nothing when that one is not in use
(`hashClean_spec`).
-/

namespace DVP.Sosal

/-- What `hash_clean` leaves: the table, the scan position, the memory at `value`, the indexes at
which it read the array of buckets, and what it returns. -/
structure Cleaned where
  hash : Hash
  index : Nat
  value : Option Nat
  reads : List Nat
  count : Nat

/-- Reads `h->bucket[index]`. The array has `numSlots` buckets, and `beyond` is what the memory behind
it holds. -/
def Hash.readBucket (h : Hash) (beyond : Nat → Option Ptr) (index : Nat) : Option Ptr :=
  if index < h.numSlots then h.bucket index else beyond index

/-- The loop of `hash_clean` that moves to a bucket in use, with the indexes it reads. The first number
bounds its rounds. -/
def hashCleanScan (h : Hash) (beyond : Nat → Option Ptr) :
    Nat → Nat → Except Fault (List Nat × Nat)
  | 0, _ => .error .noReturn
  | fuel + 1, index =>
    -- the bucket is read before its index is tested
    if h.readBucket beyond index = none ∧ index < h.numSlots then do
      let (reads, last) ← hashCleanScan h beyond fuel ((index + 1) % 2 ^ 32)
      return (index :: reads, last)
    else return ([index], index)

variable (a : Arch)

/-- `hash_clean`, from the scan position `index`. The value is `none` when its pointer is `NULL`. -/
def hashClean (h : Hash) (index : Nat) (value : Option Nat) (beyond : Nat → Option Ptr) :
    Except Fault Cleaned :=
  if value ≠ none ∧ h.numActiveSlots > 0 then do
    let (reads, index) ← hashCleanScan h beyond (h.numSlots + 1) index
    let index := if index ≥ h.numSlots then 0 else index
    if index < h.numSlots then
      let reads := reads ++ [index]
      match h.bucket index with
      -- `list_pop` of no list
      | none => return ⟨h, index, value, reads, h.numTotalElem⟩
      | some bucket => do
        let l ← h.readList bucket
        match ← listPop h.nodes l with
        | (nodes, l, none) =>
          let h := { h with nodes := nodes }.writeList bucket l
          return ⟨h, index, value, reads, h.numTotalElem⟩
        | (nodes, l, some node) => do
          let h := { h with nodes := nodes }.writeList bucket l
          let record := (← h.nodes.read (some node)).data
          let h := { h with numTotalElem := a.sub h.numTotalElem 1 }
          let len ← listLength h.nodes l
          let h ←
            if len = 0 then do
              let nodes ← listDestroy h.nodes l
              pure
                { h with
                  nodes := nodes
                  lists := Function.update h.lists bucket none
                  numActiveSlots := a.sub h.numActiveSlots 1
                  bucket := Function.update h.bucket index none }
            else pure h
          return ⟨h, index, some record.value, reads, h.numTotalElem⟩
    else return ⟨h, index, value, reads, h.numTotalElem⟩
  else return ⟨h, index, value, [], 0⟩

/-! ## The records of a table -/

/-- The records of a bucket, in the order of its list. -/
def Hash.bucketRecords (h : Hash) (i : Nat) : List Record :=
  match (h.bucket i).bind h.lists with
  | none => []
  | some l => (listNodes h.nodes l).filterMap h.nodes.data

/-- The records of a table. -/
def Hash.records (h : Hash) : List Record := (List.range h.numSlots).flatMap h.bucketRecords

variable {a} {h : Hash} {ns : Nat → List Ptr} {f : Nat →₀ Nat} {i k : Nat} {r : Record}

namespace HashInv

theorem bucketRecords_eq (hinv : HashInv a h ns f) (i : Nat) :
    h.bucketRecords i = (ns i).filterMap h.nodes.data := by
  unfold Hash.bucketRecords
  rcases hinv.list i with ⟨hb, hns⟩ | ⟨b, l, hb, hl, hholds, -⟩
  · rw [hb, hns]
    rfl
  · rw [hb, Option.bind_some, hl]
    simp only [hholds.listNodes_eq]

theorem mem_bucketRecords (hinv : HashInv a h ns f) :
    r ∈ h.bucketRecords i ↔ h.indexOf r.key = i ∧ r.value = f r.key ∧ r.value ≠ 0 := by
  rw [hinv.bucketRecords_eq, List.mem_filterMap, ← (hinv.contents i).records r]

theorem bucketRecords_eq_nil (hinv : HashInv a h ns f) : h.bucketRecords i = [] ↔ ns i = [] := by
  rw [hinv.bucketRecords_eq]
  constructor
  · intro hnil
    by_contra hne
    obtain ⟨p, hp⟩ := List.exists_mem_of_ne_nil _ hne
    obtain ⟨r, hr⟩ := NodeMem.alive_iff_data.mp ((hinv.contents i).alive p hp)
    have hmem : r ∈ (ns i).filterMap h.nodes.data := List.mem_filterMap.mpr ⟨p, hp, hr⟩
    rw [hnil] at hmem
    cases hmem
  · intro hns
    rw [hns, List.filterMap_nil]

/-- The records of a table are the entries of its map. -/
theorem mem_records (hinv : HashInv a h ns f) :
    r ∈ h.records ↔ r.value = f r.key ∧ r.value ≠ 0 := by
  rw [Hash.records, List.mem_flatMap]
  constructor
  · rintro ⟨i, -, hr⟩
    exact (hinv.mem_bucketRecords.mp hr).2
  · intro hr
    exact ⟨h.indexOf r.key, List.mem_range.mpr (hinv.inRange _), hinv.mem_bucketRecords.mpr ⟨rfl, hr⟩⟩

/-- No two records have the same key. -/
theorem records_keys_nodup (hinv : HashInv a h ns f) : (h.records.map Record.key).Nodup := by
  rw [Hash.records, List.map_flatMap, List.nodup_flatMap]
  constructor
  · intro i _
    have hkeys : (h.bucketRecords i).map Record.key = (ns i).map (keyOf h.nodes) := by
      rw [hinv.bucketRecords_eq, List.map_filterMap]
      refine List.filterMap_eq_map_iff_forall_eq_some.mpr ?_
      intro p hp
      obtain ⟨r, hr⟩ := NodeMem.alive_iff_data.mp ((hinv.contents i).alive p hp)
      rw [hr, Option.map_some, keyOf_eq hr]
    rw [hkeys]
    exact (hinv.contents i).distinct
  · -- the key says which bucket a record is in
    refine List.Pairwise.imp ?_ (List.pairwise_lt_range (n := h.numSlots))
    intro i j hij k hi hj
    obtain ⟨r, hr, hk⟩ := List.mem_map.mp hi
    obtain ⟨r', hr', hk'⟩ := List.mem_map.mp hj
    have hi' := (hinv.mem_bucketRecords.mp hr).1
    have hj' := (hinv.mem_bucketRecords.mp hr').1
    rw [hk] at hi'
    rw [hk'] at hj'
    omega

theorem records_nodup (hinv : HashInv a h ns f) : h.records.Nodup :=
  List.Nodup.of_map _ hinv.records_keys_nodup

/-- The table counts its records. -/
theorem total_eq_length (hinv : HashInv a h ns f) : h.numTotalElem = h.records.length := by
  classical
  have hsupport : (h.records.map Record.key).toFinset = f.support := by
    ext k
    rw [List.mem_toFinset, List.mem_map, Finsupp.mem_support_iff]
    constructor
    · rintro ⟨r, hr, rfl⟩
      obtain ⟨hv, hne⟩ := hinv.mem_records.mp hr
      rwa [← hv]
    · intro hne
      exact ⟨⟨k, f k⟩, hinv.mem_records.mpr ⟨rfl, hne⟩, rfl⟩
  rw [hinv.total, ← hsupport, List.toFinset_card_of_nodup hinv.records_keys_nodup, List.length_map]

theorem records_eq_nil (hinv : HashInv a h ns f) : h.records = [] ↔ f = 0 := by
  rw [← List.length_eq_zero_iff, ← hinv.total_eq_length, hinv.total, Finset.card_eq_zero,
    Finsupp.support_eq_empty]

/-- The table after the record of a key is gone. -/
theorem records_perm {h' : Hash} {ns' : Nat → List Ptr} (hinv : HashInv a h ns f)
    (hinv' : HashInv a h' ns' (f.update k 0)) (hk : f k ≠ 0) :
    h.records.Perm (⟨k, f k⟩ :: h'.records) := by
  refine (List.perm_ext_iff_of_nodup hinv.records_nodup ?_).mpr fun r => ?_
  · refine List.nodup_cons.mpr ⟨fun hmem => ?_, hinv'.records_nodup⟩
    have hv := (hinv'.mem_records.mp hmem).1
    rw [Finsupp.coe_update, Function.update_self] at hv
    exact hk hv
  · rw [List.mem_cons, hinv.mem_records, hinv'.mem_records, Finsupp.coe_update]
    by_cases hkey : r.key = k
    · rw [hkey, Function.update_self]
      constructor
      · rintro ⟨hv, -⟩
        left
        rw [← hv, ← hkey]
      · rintro (rfl | ⟨hv, hne⟩)
        · exact ⟨rfl, hk⟩
        · exact absurd hv hne
    · rw [Function.update_of_ne hkey]
      constructor
      · exact fun hr => .inr hr
      · rintro (rfl | hr)
        · exact absurd rfl hkey
        · exact hr

end HashInv

/-! ## One call -/

/-- The scan stops at the first bucket in use at or after its position, or past the last bucket. -/
theorem hashCleanScan_spec (beyond : Nat → Option Ptr) {fuel : Nat} (index : Nat)
    (hslots : h.numSlots ≤ 2 ^ 16) (hfuel : h.numSlots - index < fuel) :
    ∃ reads last, hashCleanScan h beyond fuel index = .ok (reads, last) ∧ index ≤ last ∧
      (∀ i, index ≤ i → i < last → h.bucket i = none) ∧
      (last < h.numSlots → h.bucket last ≠ none) := by
  induction fuel generalizing index with
  | zero => omega
  | succ fuel ih =>
    unfold hashCleanScan
    by_cases hstop : h.readBucket beyond index = none ∧ index < h.numSlots
    · have hlt := hstop.2
      have hnone := hstop.1
      rw [Hash.readBucket, if_pos hlt] at hnone
      have hnext : (index + 1) % 2 ^ 32 = index + 1 := Nat.mod_eq_of_lt (by omega)
      obtain ⟨reads, last, hscan, hle, hempty, hused⟩ := ih (index + 1) (by omega)
      refine ⟨index :: reads, last, ?_, by omega, ?_, hused⟩
      · rw [if_pos hstop, hnext, hscan]
        rfl
      · intro i hi hlast
        rcases Nat.eq_or_lt_of_le hi with rfl | hi
        · exact hnone
        · exact hempty i hi hlast
    · refine ⟨[index], index, by rw [if_neg hstop]; rfl, le_rfl, by omega, ?_⟩
      intro hlt hnone
      exact hstop ⟨by rw [Hash.readBucket, if_pos hlt, hnone], hlt⟩

/-- A table with lists has entries. -/
theorem HashInv.active_pos_iff (hinv : HashInv a h ns f) : 0 < h.numActiveSlots ↔ f ≠ 0 := by
  constructor
  · rintro hactive rfl
    rw [hinv.active, activeSlots, Finset.card_pos] at hactive
    obtain ⟨i, hi⟩ := hactive
    have hused : h.bucket i ≠ none := (Finset.mem_filter.mp hi).2
    obtain ⟨p, hp⟩ := List.exists_mem_of_ne_nil _ (mt hinv.bucket_eq_none_iff.mpr hused)
    exact ((hinv.contents i).record hp).2.1 rfl
  · intro hf
    by_contra hactive
    refine hf (Finsupp.ext fun k => ?_)
    exact hinv.eq_zero_of_inactive (Nat.eq_zero_of_not_pos hactive)

/-- Past the last bucket there are no nodes. -/
theorem HashInv.nodes_beyond (hinv : HashInv a h ns f) (hi : h.numSlots ≤ i) : ns i = [] := by
  by_contra hne
  obtain ⟨p, hp⟩ := List.exists_mem_of_ne_nil _ hne
  have hindex := ((hinv.contents i).record hp).1
  have hlt := hinv.inRange (keyOf h.nodes p)
  omega

/-- The part of `hash_clean` that pops the first record of a bucket. -/
theorem hashClean_pop {p b : Ptr} {ps : List Ptr} (hinv : HashInv a h ns f) (hns : ns i = p :: ps)
    (hbucket : h.bucket i = some b) :
    ∃ l nodes l', h.lists b = some l ∧ listPop h.nodes l = .ok (nodes, l', some p) ∧
      nodes.data p = some ⟨keyOf h.nodes p, f (keyOf h.nodes p)⟩ ∧ ListHolds nodes l' ps ∧
      Within h.nodes nodes p (ns i) ∧
      Contents nodes h.indexOf i ps (Function.update f (keyOf h.nodes p) 0) := by
  obtain ⟨l, hl, hholds, -⟩ := hinv.list_of_bucket hbucket
  rw [hns] at hholds
  obtain ⟨nodes, l', hpop, hholds', hframe, -⟩ := listPop_spec hholds
  have hcontents := hinv.contents i
  rw [hns] at hcontents
  have hrest := Contents.remove (show Contents h.nodes h.indexOf i ([] ++ p :: ps) f from hcontents) rfl
  refine ⟨l, nodes, l', hl, hpop, ?_, hholds', ?_, ?_⟩
  · rw [hframe.data]
    exact (hcontents.record List.mem_cons_self).2.2
  · refine Within.of_frame hframe fun q hq => ?_
    rw [hns]
    exact .inr hq
  · exact hrest.congr (fun q _ => hframe.data q) fun _ _ => rfl

/-- The tables after the first record of bucket `i` was popped. -/
theorem HashInv.popped {p b : Ptr} {ps : List Ptr} {nodes : HashNodes} {l' : LinkedList}
    (hinv : HashInv a h ns f) (hns : ns i = p :: ps) (hbucket : h.bucket i = some b)
    (hholds : ListHolds nodes l' ps) (hwithin : Within h.nodes nodes p (ns i))
    (hcontents : Contents nodes h.indexOf i ps (Function.update f (keyOf h.nodes p) 0)) :
    HashInv a
      (if ps = [] then
        { h with
          nodes := nodes
          lists := Function.update h.lists b none
          bucket := Function.update h.bucket i none
          numActiveSlots := a.sub h.numActiveSlots 1
          numTotalElem := a.sub h.numTotalElem 1 }
      else
        { h with
          nodes := nodes
          lists := Function.update h.lists b (some l')
          numTotalElem := a.sub h.numTotalElem 1 })
      (Function.update ns i ps) (f.update (keyOf h.nodes p) 0) := by
  have hmem : p ∈ ns i := by simp [hns]
  obtain ⟨hindex, hfk, -⟩ := (hinv.contents i).record hmem
  have halive := (hinv.contents i).alive p hmem
  have hp0 : 0 < p := by
    apply Nat.pos_of_ne_zero
    rintro rfl
    exact hinv.nonnull halive
  have hpsize : p < a.size := by
    rw [← hinv.room]
    exact hinv.bounded p halive
  have hi : i < h.numSlots := hindex ▸ hinv.inRange _
  have hother : ∀ j ≠ i, p ∉ ns j := fun j hj hpj => hj (hinv.apart hpj hmem)
  have hheader : ∀ j ≠ i, h.bucket j ≠ some b := fun j hj hb => hj (hinv.headers _ _ b hb hbucket)
  have hf : ∀ k, h.indexOf k ≠ i → f.update (keyOf h.nodes p) 0 k = f k := by
    intro k hk
    rw [Finsupp.coe_update, Function.update_of_ne]
    rintro rfl
    exact hk hindex
  -- the record counts among those with a value
  have hcard : 0 < f.support.card := Finset.card_pos.mpr ⟨_, Finsupp.mem_support_iff.mpr hfk⟩
  have htotal : a.sub h.numTotalElem 1 = (f.update (keyOf h.nodes p) 0).support.card := by
    rw [hinv.total, Arch.sub_of_le hcard hinv.card_lt, card_update_remove hfk]
  -- the last record of a bucket takes its list with it
  by_cases hps : ps = []
  · rw [if_pos hps]
    refine hinv.step_of_notMem (i := i)
      ⟨rfl, rfl, rfl, fun j hj => Function.update_of_ne hj _ _, fun j hj b' hb' => ?_, hwithin⟩
      hother hp0 hpsize (.inl ⟨Function.update_self _ _ _, hps⟩) ?_ hf ?_ htotal ?_
    · apply Function.update_of_ne
      rintro rfl
      exact hheader j hj hb'
    · rw [Finsupp.coe_update]
      exact hcontents
    · intro b' hb'
      dsimp only at hb'
      rw [Function.update_self] at hb'
      cases hb'
    · show a.sub h.numActiveSlots 1 = activeSlots h.numSlots _
      have hactive : 0 < activeSlots h.numSlots h.bucket := by
        refine Finset.card_pos.mpr ⟨i, ?_⟩
        simp [hi, hbucket]
      have hle := activeSlots_le h.numSlots h.bucket
      have hslots := hinv.slots
      have hsize := a.size_ge
      rw [activeSlots_none hi (by simp [hbucket]), hinv.active, Arch.sub_of_le hactive (by omega)]
  · rw [if_neg hps]
    refine hinv.step_of_notMem (i := i)
      ⟨rfl, rfl, rfl, fun _ _ => rfl, fun j hj b' hb' => ?_, hwithin⟩
      hother hp0 hpsize (.inr ⟨b, l', hbucket, Function.update_self _ _ _, hholds, hps⟩) ?_ hf ?_
      htotal hinv.active
    · apply Function.update_of_ne
      rintro rfl
      exact hheader j hj hb'
    · rw [Finsupp.coe_update]
      exact hcontents
    · intro b' hb' j hj
      dsimp only at hb'
      rw [hbucket] at hb'
      cases hb'
      exact hheader j hj

/-- `hash_clean` of a table with entries takes one out, and returns the number of those left; or it
finds bucket `0` not in use after it started over, and takes nothing. -/
theorem hashClean_spec (index v : Nat) (beyond : Nat → Option Ptr) (hinv : HashInv a h ns f)
    (hf : f ≠ 0) :
    ∃ c, hashClean a h index (some v) beyond = .ok c ∧
      ((∃ k ns', f k ≠ 0 ∧ HashInv a c.hash ns' (f.update k 0) ∧ c.value = some (f k) ∧
          c.count = (f.update k 0).support.card ∧ (∀ j ≠ c.index, ns' j = ns j) ∧
          (c.index = 0 ∨ index ≤ c.index ∧ ∀ j, index ≤ j → j < c.index → ns j = [])) ∨
        ((∀ j, index ≤ j → ns j = []) ∧ ns 0 = [] ∧
          c.hash = h ∧ c.index = 0 ∧ c.value = some v ∧ c.count = f.support.card)) := by
  obtain ⟨reads, last, hscan, hle, hempty, hused⟩ :=
    hashCleanScan_spec beyond index hinv.slots
      (show h.numSlots - index < h.numSlots + 1 by omega)
  have hactive := hinv.active_pos_iff.mpr hf
  have hslots : 0 < h.numSlots := (Nat.zero_le _).trans_lt (hinv.inRange 0)
  -- where the scan goes on
  obtain ⟨i, hi⟩ : ∃ i, i = if last ≥ h.numSlots then 0 else last := ⟨_, rfl⟩
  have hilt : i < h.numSlots := by
    rw [hi]
    split_ifs <;> omega
  have hplace : i = 0 ∨ index ≤ i ∧ ∀ j, index ≤ j → j < i → ns j = [] := by
    rw [hi]
    split_ifs with hlast
    · exact .inl rfl
    · exact .inr ⟨hle, fun j hj hj' => hinv.bucket_eq_none_iff.mp (hempty j hj hj')⟩
  cases hbucket : h.bucket i with
  | none =>
    have hlast : h.numSlots ≤ last := by
      by_contra hlast
      rw [if_neg hlast] at hi
      exact hused (by omega) (hi ▸ hbucket)
    have hi0 : i = 0 := by rw [hi, if_pos hlast]
    refine ⟨⟨h, i, some v, reads ++ [i], h.numTotalElem⟩, ?_, .inr ⟨fun j hj => ?_, ?_, rfl, hi0, rfl,
      hinv.total⟩⟩
    · simp [hashClean, hactive, hscan, ← hi, hilt, hbucket]
    · by_cases hjlast : j < last
      · exact hinv.bucket_eq_none_iff.mp (hempty j hj hjlast)
      · exact hinv.nodes_beyond (by omega)
    · rw [hi0] at hbucket
      exact hinv.bucket_eq_none_iff.mp hbucket
  | some b =>
    obtain ⟨p, ps, hns⟩ : ∃ p ps, ns i = p :: ps := by
      apply List.exists_cons_of_ne_nil
      obtain ⟨-, -, -, hne⟩ := hinv.list_of_bucket hbucket
      exact hne
    obtain ⟨l, nodes, l', hl, hpop, hdata, hholds, hwithin, hcontents⟩ :=
      hashClean_pop hinv hns hbucket
    have hpopped := hinv.popped hns hbucket hholds hwithin hcontents
    obtain ⟨-, hfk, -⟩ := (hinv.contents i).record (p := p) (by simp [hns])
    obtain ⟨n, hn, hrecord⟩ := Option.map_eq_some_iff.mp hdata
    have hlength := listLength_spec hholds
    have hother : ∀ j ≠ i, Function.update ns i ps j = ns j :=
      fun j hj => Function.update_of_ne hj _ _
    have hcount := hpopped.total
    by_cases hps : ps = []
    · rw [if_pos hps] at hpopped hcount
      rw [hps] at hlength hholds
      refine ⟨⟨_, i, some (f (keyOf h.nodes p)), reads ++ [i], a.sub h.numTotalElem 1⟩, ?_,
        .inl ⟨_, _, hfk, hpopped, rfl, hcount, hother, hplace⟩⟩
      simp [hashClean, hactive, hscan, ← hi, hilt, hbucket, Hash.readList, Hash.writeList, hl, hpop,
        NodeMem.read, hn, hrecord, hlength, listDestroy_nil hholds]
    · rw [if_neg hps] at hpopped hcount
      refine ⟨⟨_, i, some (f (keyOf h.nodes p)), reads ++ [i], a.sub h.numTotalElem 1⟩, ?_,
        .inl ⟨_, _, hfk, hpopped, rfl, hcount, hother, hplace⟩⟩
      simp [hashClean, hactive, hscan, ← hi, hilt, hbucket, Hash.readList, Hash.writeList, hl, hpop,
        NodeMem.read, hn, hrecord, hlength, hps]

/-- `hash_clean` of a table without entries does nothing. -/
theorem hashClean_empty {index : Nat} {value : Option Nat} (beyond : Nat → Option Ptr)
    (hinv : HashInv a h ns 0) :
    hashClean a h index value beyond = .ok ⟨h, index, value, [], 0⟩ := by
  have hactive : ¬0 < h.numActiveSlots := fun hpos => hinv.active_pos_iff.mp hpos rfl
  simp [hashClean, hactive]

end DVP.Sosal
