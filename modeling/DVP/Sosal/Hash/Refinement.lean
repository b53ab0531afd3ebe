import Mathlib.Data.Set.Card
import DVP.Lib.Run
import DVP.Sosal.Hash.Buckets

/-!
# The hash table is a finite map

`hash_set` keeps the buckets those of the map with the entry set, or removed for the value `0`
(`hashSet_spec`), and `hash_get` reads the map (`hashGet_spec`). So a table answers every run as the
map does, its counters are those of the map, and its buckets are sorted (`hash_refines_map`).
-/

namespace DVP.Sosal

variable {a : Arch} {h h' : Hash} {ns : Nat → List Ptr} {f : Nat →₀ Nat} {k v i : Nat}
  {x list : Ptr}

/-! ## Counters -/

/-- A bucket gets a list. -/
theorem activeSlots_some {n : Nat} {bucket : Nat → Option Ptr} {b : Ptr} (hi : i < n)
    (hnone : bucket i = none) :
    activeSlots n (Function.update bucket i (some b)) = activeSlots n bucket + 1 := by
  have hinsert : ((Finset.range n).filter fun j => Function.update bucket i (some b) j ≠ none) =
      insert i ((Finset.range n).filter fun j => bucket j ≠ none) := by
    ext j
    by_cases hj : j = i
    · simp [hj, hi]
    · simp [hj]
  rw [activeSlots, hinsert, Finset.card_insert_of_notMem (by simp [hnone]), activeSlots]

/-- A bucket loses its list. -/
theorem activeSlots_none {n : Nat} {bucket : Nat → Option Ptr} (hi : i < n)
    (hsome : bucket i ≠ none) :
    activeSlots n (Function.update bucket i none) = activeSlots n bucket - 1 := by
  have herase : ((Finset.range n).filter fun j => Function.update bucket i none j ≠ none) =
      ((Finset.range n).filter fun j => bucket j ≠ none).erase i := by
    ext j
    by_cases hj : j = i
    · simp [hj]
    · simp [hj]
  rw [activeSlots, herase, Finset.card_erase_of_mem (by simp [hi, hsome]), activeSlots]

theorem activeSlots_le (n : Nat) (bucket : Nat → Option Ptr) : activeSlots n bucket ≤ n := by
  rw [activeSlots]
  exact (Finset.card_filter_le _ _).trans (Finset.card_range n).le

/-- Each key has a node of its own, which is not `NULL`. -/
theorem HashInv.exists_nodes (hinv : HashInv a h ns f) :
    ∃ node : Nat → Ptr, Set.InjOn node f.support ∧
      ∀ k ∈ f.support, h.nodes.Alive (node k) ∧ node k ∈ (Finset.range a.size).erase 0 := by
  have hnode : ∀ k ∈ f.support, ∃ p, h.nodes.Alive p ∧ keyOf h.nodes p = k := by
    intro k hk
    obtain ⟨p, hp, hkey⟩ :=
      ((hinv.contents (h.indexOf k)).exists_iff rfl).mpr (Finsupp.mem_support_iff.mp hk)
    exact ⟨p, (hinv.contents _).alive p hp, hkey⟩
  choose! node halive hkey using hnode
  refine ⟨node, fun k hk k' hk' heq => ?_, fun k hk => ⟨halive k hk, ?_⟩⟩
  · rw [← hkey k hk, ← hkey k' hk', heq]
  · have hk' := halive k hk
    have hlt := hinv.bounded _ hk'
    rw [hinv.room] at hlt
    have h0 : node k ≠ 0 := by
      intro h0
      rw [h0] at hk'
      exact hinv.nonnull hk'
    simp [h0, hlt]

/-- There is no node at `NULL`: the number of keys does not overflow. -/
theorem HashInv.card_lt (hinv : HashInv a h ns f) : f.support.card < a.size := by
  obtain ⟨node, hinj, hnode⟩ := hinv.exists_nodes
  have hcard := Finset.card_le_card_of_injOn node (fun k hk => (hnode k hk).2) hinj
  rw [Finset.card_erase_of_mem (by simp [a.size_pos]), Finset.card_range] at hcard
  have hpos := a.size_pos
  omega

/-- There is a node for each key, and one more at `x`: the number of keys stays in range when one is
added. -/
theorem HashInv.total_lt (hinv : HashInv a h ns f) (hx : ¬h.nodes.Alive x) (hx0 : 0 < x)
    (hxsize : x < a.size) : f.support.card + 1 < a.size := by
  obtain ⟨node, hinj, hnode⟩ := hinv.exists_nodes
  have hcard : f.support.card ≤ (((Finset.range a.size).erase 0).erase x).card := by
    refine Finset.card_le_card_of_injOn node (fun k hk => ?_) hinj
    obtain ⟨halive, hmem⟩ := hnode k hk
    refine Finset.mem_erase.mpr ⟨?_, hmem⟩
    intro hkx
    rw [hkx] at halive
    exact hx halive
  rw [Finset.card_erase_of_mem (by simp [hxsize, Nat.ne_of_gt hx0]),
    Finset.card_erase_of_mem (by simp [a.size_pos]), Finset.card_range] at hcard
  have hge := a.size_ge
  omega

/-- An entry of the map is added. -/
theorem card_update_add (hfk : f k = 0) (hv : v ≠ 0) :
    (f.update k v).support.card = f.support.card + 1 := by
  classical
  rw [Finsupp.support_update_ne_zero _ _ hv, Finset.card_insert_of_notMem (by simp [hfk])]

/-- An entry of the map is removed. -/
theorem card_update_remove (hfk : f k ≠ 0) :
    (f.update k 0).support.card = f.support.card - 1 := by
  classical
  rw [Finsupp.support_update_zero, Finset.card_erase_of_mem (by simp [hfk])]

/-- An entry of the map is replaced. -/
theorem card_update_replace (hfk : f k ≠ 0) (hv : v ≠ 0) :
    (f.update k v).support.card = f.support.card := by
  classical
  rw [Finsupp.support_update_ne_zero _ _ hv, Finset.insert_eq_of_mem (by simp [hfk])]

/-- Removing an entry that is not there. -/
theorem update_zero_of_eq (hfk : f k = 0) : f.update k 0 = f := by
  rw [← hfk, Finsupp.update_self]

/-- A key of a bucket without nodes has no entry. -/
theorem HashInv.eq_zero_of_nil (hinv : HashInv a h ns f) (hns : ns (h.indexOf k) = []) :
    f k = 0 := by
  by_contra hne
  obtain ⟨p, hp, -⟩ := ((hinv.contents _).exists_iff rfl).mpr hne
  rw [hns] at hp
  cases hp

/-- Every key has a valid index. -/
theorem HashInv.valid (hinv : HashInv a h ns f) (k : Nat) :
    hashIsValidIndex h (h.keyFunc h.size k) = true := by
  simp only [hashIsValidIndex, hinv.size, decide_true, Bool.true_and, decide_eq_true_eq]
  exact hinv.inRange k

theorem HashInv.index_eq (hinv : HashInv a h ns f) (k : Nat) :
    hashKeyToIndex h (h.keyFunc h.size k) = h.indexOf k := by
  rw [hashKeyToIndex, if_pos hinv.size, Nat.mod_eq_of_lt]
  · rfl
  · exact lt_of_lt_of_le (hinv.inRange k) (hinv.slots.trans (by decide))

/-! ## Setting -/

section Set

variable (hinv : HashInv a h ns f) (hx : ¬h.nodes.Alive x) (hx0 : 0 < x) (hxsize : x < a.size)

/-- The table when `hash_set` has made its node. -/
def withNode (h : Hash) (x : Ptr) (r : Record) : Hash :=
  { h with nodes := nodeCreate h.nodes x r }

include hinv hx

/-- The fresh node is in no bucket. -/
theorem fresh_not_mem (i : Nat) : x ∉ ns i :=
  fun hmem => hx ((hinv.contents i).alive x hmem)

theorem contents_withNode (r : Record) (i : Nat) :
    Contents (withNode h x r).nodes h.indexOf i (ns i) f := by
  refine (hinv.contents i).congr (fun p hp => ?_) fun _ _ => rfl
  rw [withNode, data_nodeCreate, if_neg]
  rintro rfl
  exact fresh_not_mem hinv hx i hp

include hxsize

theorem bounded_withNode (r : Record) : (withNode h x r).nodes.Bounded := by
  intro p hp
  rcases alive_nodeCreate.mp hp with rfl | hp
  · exact hxsize.trans_eq hinv.room.symm
  · exact hinv.bounded p hp

theorem holds_withNode {l : LinkedList} (r : Record) (hholds : ListHolds h.nodes l (ns i)) :
    ListHolds (withNode h x r).nodes l (ns i) := by
  refine hholds.congr_link (bounded_withNode hinv hx hxsize r) fun p hp => ?_
  rw [withNode, link_nodeCreate, if_neg]
  rintro rfl
  exact fresh_not_mem hinv hx i hp

include hx0

/-- A bucket without a list gets one with the new node. -/
theorem hashSetFirst_spec (hv : v ≠ 0) (hnone : h.bucket (h.indexOf k) = none)
    (hlist : h.lists list = none) :
    ∃ h' ns', hashSetFirst a (withNode h x ⟨k, v⟩) (h.indexOf k) x list = .ok h' ∧
      HashInv a h' ns' (f.update k v) := by
  have hns : ns (h.indexOf k) = [] := hinv.bucket_eq_none_iff.mp hnone
  have hfk : f k = 0 := hinv.eq_zero_of_nil hns
  have hdata : (withNode h x ⟨k, v⟩).nodes.data x = some ⟨k, v⟩ := by
    rw [withNode, data_nodeCreate, if_pos rfl]
  -- the list of the bucket is new: `x` is its only node
  obtain ⟨m, l, hpush, hholds, hframe⟩ := listPush_spec
    (ListHolds.empty (bounded_withNode hinv hx hxsize ⟨k, v⟩)) List.not_mem_nil
    (NodeMem.alive_iff_data.mpr ⟨_, hdata⟩)
  have hcontents : Contents m h.indexOf (h.indexOf k) [] f :=
    Contents.congr (m := h.nodes) (hns ▸ hinv.contents _) (by simp) fun _ _ => rfl
  -- the new header is fresh, so the lists of the other buckets are not written
  have hheader : ∀ j b, h.bucket j = some b → b ≠ list := by
    rintro j b hb rfl
    obtain ⟨l', hl', -⟩ := hinv.list_of_bucket hb
    rw [hlist] at hl'
    cases hl'
  have hset : hashSetFirst a (withNode h x ⟨k, v⟩) (h.indexOf k) x list = .ok
      { h with
        numTotalElem := a.add h.numTotalElem 1
        numActiveSlots := a.add h.numActiveSlots 1
        bucket := Function.update h.bucket (h.indexOf k) (some list)
        lists := Function.update h.lists list (some l)
        nodes := m } := by
    simp only [hashSetFirst, Hash.writeList, Hash.readList, Function.update_self, ok_bind, hpush]
    simp [withNode]
  have hnodes : Within h.nodes m x (ns (h.indexOf k)) :=
    (Within.create ⟨k, v⟩).trans (Within.of_frame hframe fun q hq => .inl (by simpa using hq))
  have hcontents' : Contents m h.indexOf (h.indexOf k) ([] ++ x :: []) (Function.update f k v) :=
    Contents.insert hcontents rfl hfk hv ((hframe.data x).trans hdata) (List.pairwise_singleton _ _)
  refine ⟨_, _, hset, hinv.step (i := h.indexOf k)
    ⟨rfl, rfl, rfl, fun j hj => Function.update_of_ne hj _ _, fun j hj b hb => ?_, hnodes⟩
    hx hx0 hxsize (.inr ⟨list, l, Function.update_self _ _ _, by simp, hholds, by simp⟩)
    ?_ ?_ ?_ ?_ ?_⟩
  · simp [Function.update_of_ne (hheader j b hb)]
  · rw [Finsupp.coe_update]
    exact hcontents'
  · intro k' hk'
    rw [Finsupp.coe_update, Function.update_of_ne]
    rintro rfl
    exact hk' rfl
  · intro b hb j _ hj
    dsimp only at hb
    rw [Function.update_self] at hb
    cases hb
    exact hheader j list hj rfl
  · rw [card_update_add hfk hv]
    show a.add h.numTotalElem 1 = _
    rw [hinv.total, Arch.add_of_lt (hinv.total_lt hx hx0 hxsize)]
  · show a.add h.numActiveSlots 1 = activeSlots h.numSlots _
    rw [activeSlots_some (hinv.inRange k) hnone, hinv.active, Arch.add_of_lt]
    have hle := activeSlots_le h.numSlots h.bucket
    have hslots := hinv.slots
    have hsize := a.size_ge
    omega

/-- The calls that leave the tables other than the bucket's own list as they are. -/
theorem step_bucket {m : HashNodes} {b : Ptr} {l : LinkedList} {ps : List Ptr} {total : Nat}
    (hbucket : h.bucket (h.indexOf k) = some b)
    (hwithin : Within h.nodes m x (ns (h.indexOf k))) (hholds : ListHolds m l ps) (hne : ps ≠ [])
    (hcontents : Contents m h.indexOf (h.indexOf k) ps (Function.update f k v))
    (htotal : total = (f.update k v).support.card) :
    HashInv a
      { h with nodes := m, lists := Function.update h.lists b (some l), numTotalElem := total }
      (Function.update ns (h.indexOf k) ps) (f.update k v) := by
  have hheader : ∀ j ≠ h.indexOf k, h.bucket j ≠ some b :=
    fun j hj hb => hj (hinv.headers _ _ b hb hbucket)
  refine hinv.step ⟨rfl, rfl, rfl, fun _ _ => rfl, fun j hj b' hb' => ?_, hwithin⟩ hx hx0 hxsize
    (.inr ⟨b, l, hbucket, Function.update_self _ _ _, hholds, hne⟩) ?_ ?_ ?_ htotal hinv.active
  · apply Function.update_of_ne
    rintro rfl
    exact hheader j hj hb'
  · rw [Finsupp.coe_update]
    exact hcontents
  · intro k' hk'
    rw [Finsupp.coe_update, Function.update_of_ne]
    rintro rfl
    exact hk' rfl
  · intro b' hb' j hj hj'
    dsimp only at hb'
    rw [hbucket] at hb'
    cases hb'
    exact hheader j hj hj'

/-- The call that removes the last record of a bucket, and the list with it. -/
theorem step_empty {m : HashNodes} {b : Ptr} {total : Nat}
    (hbucket : h.bucket (h.indexOf k) = some b)
    (hwithin : Within h.nodes m x (ns (h.indexOf k)))
    (hcontents : Contents m h.indexOf (h.indexOf k) [] (Function.update f k v))
    (htotal : total = (f.update k v).support.card) :
    HashInv a
      { h with
        nodes := m
        lists := Function.update h.lists b none
        bucket := Function.update h.bucket (h.indexOf k) none
        numActiveSlots := a.sub h.numActiveSlots 1
        numTotalElem := total }
      (Function.update ns (h.indexOf k) []) (f.update k v) := by
  have hactive : a.sub h.numActiveSlots 1 =
      activeSlots h.numSlots (Function.update h.bucket (h.indexOf k) none) := by
    have hmem : h.indexOf k ∈ (Finset.range h.numSlots).filter fun j => h.bucket j ≠ none := by
      simp [hinv.inRange k, hbucket]
    have hpos : 0 < activeSlots h.numSlots h.bucket := Finset.card_pos.mpr ⟨_, hmem⟩
    have hle := activeSlots_le h.numSlots h.bucket
    have hslots := hinv.slots
    have hsize := a.size_ge
    rw [activeSlots_none (hinv.inRange k) (by simp [hbucket]), hinv.active,
      Arch.sub_of_le hpos (by omega)]
  refine hinv.step (i := h.indexOf k)
    ⟨rfl, rfl, rfl, fun j hj => Function.update_of_ne hj _ _, fun j hj b' hb' => ?_, hwithin⟩
    hx hx0 hxsize (.inl ⟨Function.update_self _ _ _, rfl⟩) ?_ ?_ ?_ htotal hactive
  -- no other bucket has this header
  · apply Function.update_of_ne
    rintro rfl
    exact hj (hinv.headers _ _ b' hb' hbucket)
  · rw [Finsupp.coe_update]
    exact hcontents
  · intro k' hk'
    rw [Finsupp.coe_update, Function.update_of_ne]
    rintro rfl
    exact hk' rfl
  · intro b' hb'
    dsimp only at hb'
    rw [Function.update_self] at hb'
    cases hb'

/-- The record with the key is replaced, or added, in the list of its bucket. -/
theorem hashSetCollision_spec {b : Ptr} (hv : v ≠ 0) (hbucket : h.bucket (h.indexOf k) = some b) :
    ∃ h' ns', hashSetCollision a (withNode h x ⟨k, v⟩) b x = .ok h' ∧
      HashInv a h' ns' (f.update k v) := by
  obtain ⟨l, hl, hholds, hne⟩ := hinv.list_of_bucket hbucket
  have hdata : (withNode h x ⟨k, v⟩).nodes.data x = some ⟨k, v⟩ := by
    rw [withNode, data_nodeCreate, if_pos rfl]
  have hcontents := contents_withNode hinv hx ⟨k, v⟩ (h.indexOf k)
  have hholds₁ := holds_withNode hinv hx hxsize ⟨k, v⟩ hholds
  have hxns := fresh_not_mem hinv hx (h.indexOf k)
  have hcreate : Within h.nodes (withNode h x ⟨k, v⟩).nodes x (ns (h.indexOf k)) :=
    Within.create ⟨k, v⟩
  have hlt := hinv.total_lt hx hx0 hxsize
  -- an old record of the key is removed before the new one is inserted
  rcases removeMatch_spec hholds₁ hcontents (NodeMem.alive_iff_data.mpr ⟨_, hdata⟩)
    (keyOf_eq hdata) rfl with ⟨hfk, hremove⟩ |
    ⟨hfk, xs, p, ys, m, l', hns, hremove, hholds', hframe, hp, hcontents'⟩
  · -- the key is new
    obtain ⟨m', l', ps, hinsert, hholds', hne', hframe, hps, hcontents'⟩ :=
      insert_spec hholds₁ hcontents hdata hxns rfl hfk hv
    have hset : hashSetCollision a (withNode h x ⟨k, v⟩) b x = .ok
        { h with
          nodes := m'
          lists := Function.update h.lists b (some l')
          numTotalElem := a.add h.numTotalElem 1 } := by
      have hl' : (withNode h x ⟨k, v⟩).lists b = some l := hl
      simp only [hashSetCollision, Hash.writeList, Hash.readList, hl', ok_bind, hremove, pure_eq_ok,
        Function.update_self, hinsert, Function.update_idem]
      rfl
    refine ⟨_, _, hset, step_bucket hinv hx hx0 hxsize hbucket
      (hcreate.trans (Within.of_frame hframe hps)) hholds' hne' hcontents' ?_⟩
    rw [hinv.total, Arch.add_of_lt hlt, card_update_add hfk hv]
  · -- the node with the key is destroyed, and the new one is put at its place
    have hxp : x ∉ xs ++ ys ∧ x ≠ p := by
      rw [hns] at hxns
      simp only [List.mem_append, List.mem_cons, not_or] at hxns
      exact ⟨by simp [hxns.1, hxns.2.2], hxns.2.1⟩
    have hpns : p ∈ ns (h.indexOf k) := by simp [hns]
    obtain ⟨r, hr⟩ := NodeMem.alive_iff_data.mp (hcontents.alive p hpns)
    have hdestroy := nodeDestroy_eq ((hframe.data p).trans hr)
    have hx' : (m.without p).data x = some ⟨k, v⟩ := by
      rw [NodeMem.data_without, if_neg hxp.2, hframe.data, hdata]
    obtain ⟨m₂, l₂, ps, hinsert, hholds₂, hne₂, hframe₂, hps, hcontents₂⟩ :=
      insert_spec (hholds'.without hp) (hcontents'.without hp) hx' hxp.1 rfl
        (Function.update_self _ _ _) hv
    have hset : hashSetCollision a (withNode h x ⟨k, v⟩) b x = .ok
        { h with
          nodes := m₂
          lists := Function.update h.lists b (some l₂)
          numTotalElem := a.add (a.sub h.numTotalElem 1) 1 } := by
      have hl' : (withNode h x ⟨k, v⟩).lists b = some l := hl
      simp only [hashSetCollision, Hash.writeList, Hash.readList, hl', ok_bind, hremove, pure_eq_ok,
        hdestroy, Function.update_self, hinsert, Function.update_idem]
      rfl
    have hsub : ∀ q ∈ ps, q = x ∨ q ∈ ns (h.indexOf k) := by
      intro q hq
      refine (hps q hq).imp id fun hmem => ?_
      rw [hns]
      simp only [List.mem_append, List.mem_cons] at hmem ⊢
      exact hmem.imp id .inr
    rw [Function.update_idem] at hcontents₂
    refine ⟨_, _, hset, step_bucket hinv hx hx0 hxsize hbucket
      (((hcreate.trans (Within.of_frame hframe fun q hq => .inr hq)).trans
        (Within.destroy (.inr hpns))).trans (Within.of_frame hframe₂ hsub)) hholds₂ hne₂
      hcontents₂ ?_⟩
    have hpos : 0 < f.support.card := Finset.card_pos.mpr ⟨k, Finsupp.mem_support_iff.mpr hfk⟩
    rw [hinv.total, Arch.sub_of_le hpos (by omega), Arch.add_of_lt (by omega),
      card_update_replace hfk hv]
    omega

/-- The record with the key is removed from the list of its bucket, and the list with its last
node. -/
theorem hashRemoveLoop_spec {b : Ptr} {fuel : Nat}
    (hbucket : h.bucket (h.indexOf k) = some b) :
    ∃ h' ns', hashRemoveLoop a (fuel + 2) (withNode h x ⟨k, 0⟩) (h.indexOf k) x = .ok h' ∧
      HashInv a h' ns' (f.update k 0) := by
  obtain ⟨l, hl, hholds, hne⟩ := hinv.list_of_bucket hbucket
  have hdata : (withNode h x ⟨k, 0⟩).nodes.data x = some ⟨k, 0⟩ := by
    rw [withNode, data_nodeCreate, if_pos rfl]
  have hcontents := contents_withNode hinv hx ⟨k, 0⟩ (h.indexOf k)
  have hholds₁ := holds_withNode hinv hx hxsize ⟨k, 0⟩ hholds
  have hxns := fresh_not_mem hinv hx (h.indexOf k)
  have hcreate : Within h.nodes (withNode h x ⟨k, 0⟩).nodes x (ns (h.indexOf k)) :=
    Within.create ⟨k, 0⟩
  have hb : (withNode h x ⟨k, 0⟩).bucket (h.indexOf k) = some b := hbucket
  have hl' : (withNode h x ⟨k, 0⟩).lists b = some l := hl
  have hlt := hinv.total_lt hx hx0 hxsize
  -- the node `x` only carries the key to compare with; the loop runs until no record matches
  rcases removeMatch_spec hholds₁ hcontents (NodeMem.alive_iff_data.mpr ⟨_, hdata⟩)
    (keyOf_eq hdata) rfl with ⟨hfk, hremove⟩ |
    ⟨hfk, xs, p, ys, m, l', hns, hremove, hholds', hframe, hp, hcontents'⟩
  · -- there is no record with the key
    have hset : hashRemoveLoop a (fuel + 2) (withNode h x ⟨k, 0⟩) (h.indexOf k) x = .ok
        { h with
          nodes := (withNode h x ⟨k, 0⟩).nodes
          lists := Function.update h.lists b (some l)
          numTotalElem := h.numTotalElem } := by
      simp only [hashRemoveLoop, hb, Hash.readList, hl', ok_bind, hremove]
      rfl
    refine ⟨_, _, hset, step_bucket hinv hx hx0 hxsize hbucket hcreate hholds₁ hne ?_ ?_⟩
    · have hself : Function.update f k 0 = f := by rw [← hfk, Function.update_eq_self]
      rw [hself]
      exact hcontents
    · rw [update_zero_of_eq hfk, hinv.total]
  · have hpns : p ∈ ns (h.indexOf k) := by simp [hns]
    have hxp : x ≠ p := by
      rintro rfl
      exact hxns hpns
    obtain ⟨r, hr⟩ := NodeMem.alive_iff_data.mp (hcontents.alive p hpns)
    have hdestroy := nodeDestroy_eq ((hframe.data p).trans hr)
    have hlength := listLength_spec hholds'
    have hholds₂ := hholds'.without hp
    have hcontents₂ := hcontents'.without hp
    have hwithin : Within h.nodes (m.without p) x (ns (h.indexOf k)) :=
      (hcreate.trans (Within.of_frame hframe fun q hq => .inr hq)).trans (Within.destroy (.inr hpns))
    have hpos : 0 < f.support.card := Finset.card_pos.mpr ⟨k, Finsupp.mem_support_iff.mpr hfk⟩
    have htotal : a.sub h.numTotalElem 1 = (f.update k 0).support.card := by
      rw [hinv.total, Arch.sub_of_le hpos (by omega), card_update_remove hfk]
    by_cases hempty : xs ++ ys = []
    · -- the list is destroyed, and the loop ends without one
      have hset : hashRemoveLoop a (fuel + 2) (withNode h x ⟨k, 0⟩) (h.indexOf k) x = .ok
          { h with
            nodes := m.without p
            lists := Function.update h.lists b none
            bucket := Function.update h.bucket (h.indexOf k) none
            numActiveSlots := a.sub h.numActiveSlots 1
            numTotalElem := a.sub h.numTotalElem 1 } := by
        rw [hempty] at hlength hholds'
        simp only [hashRemoveLoop, hb, Hash.readList, hl', ok_bind, hremove, Hash.writeList,
          hlength, List.length_nil, if_pos, listDestroy_nil hholds', pure_eq_ok, hdestroy,
          Function.update_self, Function.update_idem]
        rfl
      rw [hempty] at hcontents₂
      exact ⟨_, _, hset, step_empty hinv hx hx0 hxsize hbucket hwithin hcontents₂ htotal⟩
    · -- the list stays, and the next round finds nothing
      have hlength' : (xs ++ ys).length ≠ 0 := by simpa using hempty
      have hx' : (m.without p).data x = some ⟨k, 0⟩ := by
        rw [NodeMem.data_without, if_neg hxp, hframe.data, hdata]
      have hremove₂ : listRemoveMatch (m.without p) l' x hashMatchRecord =
          .ok (m.without p, l', none) := by
        rcases removeMatch_spec hholds₂ hcontents₂ (NodeMem.alive_iff_data.mpr ⟨_, hx'⟩)
          (keyOf_eq hx') rfl with ⟨-, hremove₂⟩ | ⟨hne₂, -⟩
        · exact hremove₂
        · exact absurd (Function.update_self _ _ _) hne₂
      have hset : hashRemoveLoop a (fuel + 2) (withNode h x ⟨k, 0⟩) (h.indexOf k) x = .ok
          { h with
            nodes := m.without p
            lists := Function.update h.lists b (some l')
            numTotalElem := a.sub h.numTotalElem 1 } := by
        simp only [hashRemoveLoop, hb, Hash.readList, hl', ok_bind, hremove, Hash.writeList,
          hlength, if_neg hlength', pure_eq_ok, hdestroy, Function.update_self, hremove₂,
          Function.update_idem]
        rfl
      exact ⟨_, _, hset, step_bucket hinv hx hx0 hxsize hbucket hwithin hholds₂ hempty hcontents₂
        htotal⟩

/-- `hash_set` sets the entry of the map. -/
theorem hashSet_spec (hlist : h.lists list = none) :
    ∃ h' ns', hashSet a h k v x list = .ok h' ∧ HashInv a h' ns' (f.update k v) := by
  have hvalid := hinv.valid k
  have hindex := hinv.index_eq k
  have hnode : ({ h with nodes := nodeCreate h.nodes x ⟨k, v⟩ } : Hash) = withNode h x ⟨k, v⟩ := rfl
  have hsize : (nodeCreate h.nodes x ⟨k, v⟩).size = h.nodes.size := rfl
  rw [hashSet]
  simp only [hvalid, hindex, Bool.true_eq_false, if_false, hnode, hsize]
  cases hbucket : h.bucket (h.indexOf k) with
  | none =>
    by_cases hv : v = 0
    · -- there is nothing to remove
      have hfk : f k = 0 := hinv.eq_zero_of_nil (hinv.bucket_eq_none_iff.mp hbucket)
      refine ⟨h, ns, ?_, ?_⟩
      · simp only [hv, ne_eq, not_true_eq_false, if_false, withNode, nodeDestroy_nodeCreate hx]
        rfl
      · rw [hv, update_zero_of_eq hfk]
        exact hinv
    · simp only [ne_eq, hv, not_false_eq_true, if_true]
      exact hashSetFirst_spec hinv hx hx0 hxsize hv hbucket hlist
  | some b =>
    by_cases hv : v = 0
    · obtain ⟨fuel, hfuel⟩ : ∃ fuel, h.nodes.size + 1 = fuel + 2 := by
        have hsize := a.size_ge
        rw [hinv.room]
        exact ⟨a.size - 1, by omega⟩
      simp only [hv, if_true, hfuel]
      exact hashRemoveLoop_spec hinv hx hx0 hxsize hbucket
    · simp only [hv, if_false]
      exact hashSetCollision_spec hinv hx hx0 hxsize hv hbucket

end Set

/-! ## Getting -/

/-- A table without lists has no entries. -/
theorem HashInv.eq_zero_of_inactive (hinv : HashInv a h ns f) (hactive : h.numActiveSlots = 0) :
    f k = 0 := by
  apply hinv.eq_zero_of_nil
  apply hinv.bucket_eq_none_iff.mp
  by_contra hsome
  rw [hinv.active, activeSlots, Finset.card_eq_zero] at hactive
  have hmem : h.indexOf k ∈ (Finset.range h.numSlots).filter fun j => h.bucket j ≠ none := by
    simp [hinv.inRange k, hsome]
  rw [hactive] at hmem
  exact absurd hmem (Finset.notMem_empty _)

/-- `hash_get` reads the entry of the map, and leaves the table as it is. -/
theorem hashGet_spec (hinv : HashInv a h ns f) (hx : ¬h.nodes.Alive x) (hxsize : x < a.size) :
    hashGet h k x = .ok (h, if f k = 0 then none else some (f k)) := by
  have hindex : hashKeyToIndex h (h.keyFunc h.size k) = h.indexOf k := hinv.index_eq k
  rw [hashGet]
  by_cases hactive : h.numActiveSlots = 0
  · rw [if_neg (by omega), if_pos (hinv.eq_zero_of_inactive hactive)]
  rw [if_pos (by omega)]
  simp only [hinv.valid k, hindex, Bool.true_eq_false, if_false]
  cases hbucket : h.bucket (h.indexOf k) with
  | none =>
    have hfk : f k = 0 := hinv.eq_zero_of_nil (hinv.bucket_eq_none_iff.mp hbucket)
    rw [if_pos hfk]
  | some b =>
    obtain ⟨l, hl, hholds, -⟩ := hinv.list_of_bucket hbucket
    have hdata : (withNode h x ⟨k, 0⟩).nodes.data x = some ⟨k, 0⟩ := by
      rw [withNode, data_nodeCreate, if_pos rfl]
    have hcontents := contents_withNode hinv hx ⟨k, 0⟩ (h.indexOf k)
    have hholds₁ := holds_withNode hinv hx hxsize ⟨k, 0⟩ hholds
    have hsearch := listSearch_spec hholds₁
      (hashMatchRecord_matches hcontents.alive (NodeMem.alive_iff_data.mpr ⟨_, hdata⟩))
    rw [keyOf_eq hdata] at hsearch
    rcases hcontents.find?_eq rfl with ⟨hfk, hfind⟩ | ⟨hfk, p, hfind, hp⟩
    · rw [hfind] at hsearch
      simp only [withNode] at hsearch
      simp [Hash.readList, hl, hsearch, nodeDestroy_nodeCreate hx, hfk]
    · rw [hfind] at hsearch
      simp only [withNode] at hsearch hp
      obtain ⟨n, hn, hrecord⟩ := Option.map_eq_some_iff.mp hp
      simp [Hash.readList, hl, hsearch, NodeMem.read, hn, hrecord, nodeDestroy_nodeCreate hx, hfk]

/-! ## Runs -/

/-- One call on the map: `0` is the value of the keys it does not have. -/
noncomputable def mapStep (f : Nat →₀ Nat) : HashOp → (Nat →₀ Nat) × HashAnswer
  | .set key value _ _ => (f.update key value, .set)
  | .get key _ => (f, .get (if f key = 0 then none else some (f key)))

/-- The value of a key after a call. -/
def HashOp.setting (k v : Nat) : HashOp → Nat
  | .set key value _ _ => if key = k then value else v
  | .get _ _ => v

/-- The value a key was last set to, or `0`. -/
def lastSet (os : List HashOp) (k : Nat) : Nat := os.foldl (HashOp.setting k) 0

/-- `calloc` returns memory that is not in use. -/
def CallocFresh (a : Arch) (h : Hash) : HashOp → Prop
  | .set _ _ node list =>
    ¬h.nodes.Alive node ∧ 0 < node ∧ node < a.size ∧ (h.lists list).isNone = true
  | .get _ node => ¬h.nodes.Alive node ∧ 0 < node ∧ node < a.size

instance (a : Arch) (h : Hash) : ∀ o, Decidable (CallocFresh a h o)
  | .set _ _ _ _ => inferInstanceAs (Decidable (¬(_ = true) ∧ _ ∧ _ ∧ _))
  | .get _ _ => inferInstanceAs (Decidable (¬(_ = true) ∧ _ ∧ _))

/-- The keys of a bucket, in the order of its list. -/
def Hash.bucketKeys (h : Hash) (i : Nat) : List Nat :=
  match (h.bucket i).bind h.lists with
  | none => []
  | some l => (listNodes h.nodes l).map (keyOf h.nodes)

/-- The map a run leads to has the values the keys were last set to. -/
theorem specRun_mapStep (os : List HashOp) :
    (Machine.specRun mapStep f os).1 k = os.foldl (HashOp.setting k) (f k) := by
  induction os generalizing f with
  | nil => rfl
  | cons o os ih =>
    rw [Machine.specRun, ih, List.foldl_cons]
    cases o with
    | set key value node list =>
      by_cases hkey : key = k
      · simp [mapStep, HashOp.setting, hkey]
      · simp [mapStep, HashOp.setting, hkey, Ne.symm hkey]
    | get key node => rfl

/-- The default key function stays within the buckets. -/
theorem hashKey_lt (a : Arch) (numElem keyin : Nat) : hashKey a numElem keyin < 2 ^ numElem := by
  have hpos : 0 < 2 ^ numElem := Nat.two_pow_pos numElem
  have hle : hashKey a numElem keyin ≤ 1 <<< numElem - 1 := Nat.and_le_right
  rw [Nat.one_shiftLeft] at hle
  omega

/-- A table just made is the empty map. -/
theorem hashInv_create {size : Nat} {keyFunc : Option (Nat → Nat → Nat)}
    (hsize : size ∈ hashSizes) (hkey : ∀ g ∈ keyFunc, ∀ key, g size key < 2 ^ size) :
    HashInv a (hashCreate a size keyFunc) (fun _ => []) 0 where
  size := hsize
  slots := by
    have hle : size ≤ 16 := by
      simp only [hashSizes, List.mem_cons, List.not_mem_nil, or_false] at hsize
      omega
    simpa [hashCreate, Nat.one_shiftLeft] using Nat.pow_le_pow_right two_pos hle
  inRange k := by
    simp only [Hash.indexOf, hashCreate, Nat.one_shiftLeft]
    cases hfunc : keyFunc with
    | none => exact hashKey_lt a size k
    | some g => exact hkey g hfunc k
  room := rfl
  bounded p hp := by simp [NodeMem.Alive, hashCreate] at hp
  nonnull := by simp [NodeMem.Alive, hashCreate]
  list _ := .inl ⟨rfl, rfl⟩
  contents _ := Contents.nil fun _ _ => rfl
  headers _ _ _ hb := by simp [hashCreate] at hb
  total := rfl
  active := by simp [activeSlots, hashCreate]

/-- A call does to the table what it does to the map. -/
theorem hashStep_spec {o : HashOp} (hinv : HashInv a h ns f) (ho : CallocFresh a h o) :
    ∃ h' ns', hashStep a h o = .ok (h', (mapStep f o).2) ∧ HashInv a h' ns' (mapStep f o).1 := by
  cases o with
  | set key value node list =>
    obtain ⟨hx, hx0, hxsize, hlist⟩ := ho
    obtain ⟨h', ns', hset, hinv'⟩ :=
      hashSet_spec hinv hx hx0 hxsize (Option.isNone_iff_eq_none.mp hlist)
    exact ⟨h', ns', by rw [hashStep, hset]; rfl, hinv'⟩
  | get key node =>
    obtain ⟨hx, -, hxsize⟩ := ho
    exact ⟨h, ns, by rw [hashStep, hashGet_spec hinv hx hxsize]; rfl, hinv⟩

/-- A bucket is sorted by key without duplicates. -/
theorem HashInv.bucketKeys_eq (hinv : HashInv a h ns f) (i : Nat) :
    h.bucketKeys i = (ns i).map (keyOf h.nodes) := by
  rw [Hash.bucketKeys]
  rcases hinv.list i with ⟨hb, hns⟩ | ⟨b, l, hb, hl, hholds, -⟩
  · rw [hb, hns]
    rfl
  · rw [hb, Option.bind_some, hl]
    simp only [hholds.listNodes_eq]

theorem HashInv.ascending (hinv : HashInv a h ns f) (i : Nat) :
    (h.bucketKeys i).Pairwise (· < ·) := by
  rw [hinv.bucketKeys_eq i]
  have hle : ((ns i).map (keyOf h.nodes)).Pairwise (· ≤ ·) := by
    rw [List.pairwise_map]
    exact (hinv.contents i).sorted.imp fun hle => by simpa [rankLe] using hle
  have hne : ((ns i).map (keyOf h.nodes)).Pairwise (· ≠ ·) := (hinv.contents i).distinct
  exact (hle.and hne).imp fun h => Nat.lt_of_le_of_ne h.1 h.2

theorem HashInv.active_eq (hinv : HashInv a h ns f) :
    h.numActiveSlots = ((Finset.range h.numSlots).filter fun i => h.bucketKeys i ≠ []).card := by
  rw [hinv.active, activeSlots]
  congr 1
  ext i
  simp only [Finset.mem_filter, hinv.bucketKeys_eq i]
  refine and_congr_right fun _ => not_congr ?_
  rw [List.map_eq_nil_iff]
  exact hinv.bucket_eq_none_iff

/-- A hash table answers every run as a finite map: it gets the value a key was last set to, and
nothing for the keys never set and those last set to `0`. It counts its keys and its buckets in
use, keeps each bucket sorted without duplicates, and never follows a pointer to freed memory. -/
theorem hash_refines_map (a : Arch) (size : Nat) (keyFunc : Option (Nat → Nat → Nat))
    (hsize : size ∈ hashSizes) (hkey : ∀ g ∈ keyFunc, ∀ key, g size key < 2 ^ size)
    (os : List HashOp)
    (hfresh : Machine.Meets (hashStep a) (CallocFresh a) (hashCreate a size keyFunc) os) :
    ∃ h, Machine.run (hashStep a) (hashCreate a size keyFunc) os =
        .ok (h, (Machine.specRun mapStep 0 os).2) ∧
      (∀ k, (Machine.specRun mapStep 0 os).1 k = lastSet os k) ∧
      (∀ k node, CallocFresh a h (.get k node) →
        hashGet h k node = .ok (h, if lastSet os k = 0 then none else some (lastSet os k))) ∧
      h.numTotalElem = {k | lastSet os k ≠ 0}.ncard ∧
      h.numActiveSlots = ((Finset.range h.numSlots).filter fun i => h.bucketKeys i ≠ []).card ∧
      ∀ i, (h.bucketKeys i).Pairwise (· < ·) := by
  obtain ⟨h, hrun, ns, hinv⟩ := Machine.run_refines
    (Q := fun h f => ∃ ns, HashInv a h ns f)
    (fun h f o ⟨ns, hinv⟩ ho =>
      let ⟨h', ns', hstep, hinv'⟩ := hashStep_spec hinv ho
      ⟨h', hstep, ns', hinv'⟩)
    ⟨_, hashInv_create hsize hkey⟩ hfresh
  have hlast : ∀ k, (Machine.specRun mapStep 0 os).1 k = lastSet os k :=
    fun k => specRun_mapStep os
  refine ⟨h, hrun, hlast, fun k node hnode => ?_, ?_, hinv.active_eq, hinv.ascending⟩
  · rw [hashGet_spec hinv hnode.1 hnode.2.2, hlast]
  · have hkeys : {k | lastSet os k ≠ 0} = ↑(Machine.specRun mapStep 0 os).1.support := by
      ext k
      simp [← hlast k]
    rw [hinv.total, hkeys, Set.ncard_coe_finset]

theorem hash_refines_map_five :
    ∃ h, Machine.run (hashStep .arch64) (hashCreate .arch64 8 none)
        [.set 7 70 16 16, .set 7 71 32 32, .get 7 48, .set 7 0 48 32, .get 7 64] =
      .ok (h, [.set, .set, .get (some 71), .set, .get none]) := by
  obtain ⟨h, hrun, -⟩ := hash_refines_map .arch64 8 none (by decide) (by simp)
    [.set 7 70 16 16, .set 7 71 32 32, .get 7 48, .set 7 0 48 32, .get 7 64]
    (Machine.check_eq_true_iff.mp (by decide +kernel))
  refine ⟨h, hrun.trans ?_⟩
  simp [Machine.specRun, mapStep]

end DVP.Sosal
