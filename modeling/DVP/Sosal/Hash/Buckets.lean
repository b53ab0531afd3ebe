import Mathlib.Data.Finsupp.Basic
import DVP.Sosal.Hash.Basic
import DVP.Sosal.List.Spec

/-!
# The buckets of a hash table

`HashInv a h ns f` says that the buckets of the table `h` hold the nodes `ns`, sorted by key, and
that their records are the entries of the finite map `f`. A call works on one bucket;
`HashInv.step` has what it owes to keep the invariant.
-/

namespace DVP.Sosal

variable {a : Arch} {m m' m'' : HashNodes} {p q x : Ptr} {i k v : Nat} {ps xs ys : List Ptr}

/-! ## The keys of nodes -/

/-- The key of the record of a node. -/
def keyOf (m : HashNodes) (p : Ptr) : Nat := ((m.data p).map Record.key).getD 0

theorem keyOf_eq {r : Record} (h : m.data p = some r) : keyOf m p = r.key := by
  rw [keyOf, h]
  rfl

theorem keyOf_congr (h : m'.data p = m.data p) : keyOf m' p = keyOf m p := by
  rw [keyOf, keyOf, h]

theorem hashCompareRecord_eq (hp : m.Alive p) (hq : m.Alive q) :
    ∃ c, hashCompareRecord m p (some q) = .ok c ∧ Orders (keyOf m p) (keyOf m q) c := by
  obtain ⟨n, hn⟩ := Option.isSome_iff_exists.mp hp
  obtain ⟨n', hn'⟩ := Option.isSome_iff_exists.mp hq
  have hkey : keyOf m p = n.data.key := keyOf_eq (by rw [NodeMem.data, hn]; rfl)
  have hkey' : keyOf m q = n'.data.key := keyOf_eq (by rw [NodeMem.data, hn']; rfl)
  refine ⟨if n.data.key > n'.data.key then 1 else if n.data.key = n'.data.key then 0 else -1,
    by simp [hashCompareRecord, NodeMem.read, hn, hn'], ?_⟩
  rw [hkey, hkey']
  rcases Nat.lt_trichotomy n.data.key n'.data.key with hlt | heq | hgt
  · have hne := Nat.ne_of_lt hlt
    rw [if_neg (Nat.lt_asymm hlt), if_neg hne]
    exact ⟨iff_of_true (by decide) hlt, iff_of_false (by decide) hne⟩
  · rw [if_neg (Nat.not_lt.mpr (Nat.le_of_eq heq)), if_pos heq]
    exact ⟨iff_of_false (by decide) (by omega), iff_of_true rfl heq⟩
  · rw [if_pos hgt]
    exact ⟨iff_of_false (by decide) (by omega), iff_of_false (by decide) (by omega)⟩

/-- `hash_compare_record` compares keys. -/
theorem hashCompareRecord_compares (halive : ∀ q ∈ ps, m.Alive q) :
    Compares m hashCompareRecord true (rankLe (keyOf m)) ps :=
  Compares.of_orders (fun p hp q hq => hashCompareRecord_eq (halive p hp) (halive q hq))
    fun _ _ => rfl

/-- `hash_compare_record` finds the nodes with the key of the node searched for. -/
theorem hashMatchRecord_matches (halive : ∀ q ∈ ps, m.Alive q) (hx : m.Alive x) :
    Matches m x hashMatchRecord (fun q => decide (keyOf m q = keyOf m x)) ps := by
  intro q hq
  obtain ⟨c, hc, horders⟩ := hashCompareRecord_eq (halive q hq) hx
  exact ⟨c, hc, by rw [horders.eq, decide_eq_true_eq]⟩

/-! ## The contents of a bucket -/

/-- The nodes are sorted by key, no two have the same one, and their records are the entries of
the map that belong into bucket `i`. -/
structure Contents (m : HashNodes) (indexOf : Nat → Nat) (i : Nat) (ps : List Ptr)
    (f : Nat → Nat) : Prop where
  sorted : ps.Pairwise fun p q => rankLe (keyOf m) p q = true
  distinct : (ps.map (keyOf m)).Nodup
  alive : ∀ p ∈ ps, m.Alive p
  records : ∀ r, (∃ p ∈ ps, m.data p = some r) ↔
    indexOf r.key = i ∧ r.value = f r.key ∧ r.value ≠ 0

namespace Contents

variable {indexOf f f' : Nat → Nat}

/-- A bucket is not affected by what happens to other nodes and other keys. -/
theorem congr (h : Contents m indexOf i ps f) (hdata : ∀ p ∈ ps, m'.data p = m.data p)
    (hf : ∀ k, indexOf k = i → f' k = f k) : Contents m' indexOf i ps f' where
  sorted := by
    refine List.Pairwise.imp_of_mem ?_ h.sorted
    intro p q hp hq hle
    rwa [rankLe, keyOf_congr (hdata p hp), keyOf_congr (hdata q hq)]
  distinct := by
    rw [List.map_congr_left fun p hp => keyOf_congr (hdata p hp)]
    exact h.distinct
  alive p hp := by
    rw [NodeMem.alive_iff_data, hdata p hp, ← NodeMem.alive_iff_data]
    exact h.alive p hp
  records r := by
    have hsame : (∃ p ∈ ps, m'.data p = some r) ↔ ∃ p ∈ ps, m.data p = some r := by
      constructor <;> rintro ⟨p, hp, hr⟩ <;> refine ⟨p, hp, ?_⟩
      · rwa [hdata p hp] at hr
      · rwa [hdata p hp]
    rw [hsame, h.records r]
    constructor <;> rintro ⟨hi, hv, hne⟩ <;> refine ⟨hi, ?_, hne⟩
    · rw [hf _ hi, hv]
    · rw [hv, hf _ hi]

/-- A node of the bucket has the entry of its key. -/
theorem record (h : Contents m indexOf i ps f) (hp : p ∈ ps) :
    indexOf (keyOf m p) = i ∧ f (keyOf m p) ≠ 0 ∧ m.data p = some ⟨keyOf m p, f (keyOf m p)⟩ := by
  obtain ⟨r, hr⟩ := NodeMem.alive_iff_data.mp (h.alive p hp)
  obtain ⟨hi, hv, hne⟩ := (h.records r).mp ⟨p, hp, hr⟩
  rw [keyOf_eq hr, ← hv]
  exact ⟨hi, hne, hr⟩

/-- A key is in the map exactly when a node of its bucket has it. -/
theorem exists_iff (h : Contents m indexOf i ps f) (hk : indexOf k = i) :
    (∃ p ∈ ps, keyOf m p = k) ↔ f k ≠ 0 := by
  constructor
  · rintro ⟨p, hp, rfl⟩
    exact (h.record hp).2.1
  · intro hne
    obtain ⟨p, hp, hr⟩ := (h.records ⟨k, f k⟩).mpr ⟨hk, rfl, hne⟩
    exact ⟨p, hp, keyOf_eq hr⟩

/-- A search of the bucket for a key finds its entry. -/
theorem find?_eq (h : Contents m indexOf i ps f) (hk : indexOf k = i) :
    (f k = 0 ∧ ps.find? (fun q => decide (keyOf m q = k)) = none) ∨
      (f k ≠ 0 ∧ ∃ p, ps.find? (fun q => decide (keyOf m q = k)) = some p ∧
        m.data p = some ⟨k, f k⟩) := by
  cases hfind : ps.find? (fun q => decide (keyOf m q = k)) with
  | none =>
    refine .inl ⟨?_, rfl⟩
    by_contra hne
    obtain ⟨p, hp, hkey⟩ := (h.exists_iff hk).mpr hne
    simpa [hkey] using List.find?_eq_none.mp hfind p hp
  | some p =>
    have hkey : keyOf m p = k := by simpa using List.find?_some hfind
    obtain ⟨-, hne, hdata⟩ := h.record (List.mem_of_find?_eq_some hfind)
    rw [hkey] at hne hdata
    exact .inr ⟨hne, p, rfl, hdata⟩

/-- An empty bucket has the contents of a map without entries for it. -/
theorem nil (hf : ∀ k, indexOf k = i → f k = 0) : Contents m indexOf i [] f where
  sorted := List.Pairwise.nil
  distinct := List.nodup_nil
  alive p hp := absurd hp List.not_mem_nil
  records r := by
    refine iff_of_false (by simp) ?_
    rintro ⟨hi, hv, hne⟩
    exact hne (hv.trans (hf _ hi))

/-- The node with a key is taken out. -/
theorem remove (h : Contents m indexOf i (xs ++ p :: ys) f) (hp : keyOf m p = k) :
    Contents m indexOf i (xs ++ ys) (Function.update f k 0) := by
  have hsub : (xs ++ ys).Sublist (xs ++ p :: ys) :=
    List.Sublist.append_left (List.sublist_cons_self p ys) xs
  have hdistinct : ∀ q ∈ xs ++ ys, keyOf m q ≠ k := by
    have hnodup := h.distinct
    rw [List.map_append, List.map_cons, List.nodup_middle, List.nodup_cons, ← List.map_append, hp]
      at hnodup
    rintro q hq rfl
    exact hnodup.1 (List.mem_map_of_mem hq)
  refine ⟨h.sorted.sublist hsub, h.distinct.sublist (hsub.map _),
    fun q hq => h.alive q (hsub.mem hq), fun r => ?_⟩
  constructor
  · rintro ⟨q, hq, hr⟩
    obtain ⟨hi, hv, hne⟩ := (h.records r).mp ⟨q, hsub.mem hq, hr⟩
    have hkey := hdistinct q hq
    rw [keyOf_eq hr] at hkey
    exact ⟨hi, by rw [Function.update_of_ne hkey, hv], hne⟩
  · rintro ⟨hi, hv, hne⟩
    have hkey : r.key ≠ k := by
      intro hkey
      rw [hkey, Function.update_self] at hv
      exact hne hv
    rw [Function.update_of_ne hkey] at hv
    obtain ⟨q, hq, hr⟩ := (h.records r).mpr ⟨hi, hv, hne⟩
    refine ⟨q, ?_, hr⟩
    have hqp : q ≠ p := by
      rintro rfl
      rw [keyOf_eq hr] at hp
      exact hkey hp
    simpa [hqp] using hq

/-- A node with a new key is put at its place. -/
theorem insert (h : Contents m indexOf i (xs ++ ys) f) (hk : indexOf k = i) (hfk : f k = 0)
    (hv : v ≠ 0) (hx : m.data x = some ⟨k, v⟩)
    (hsorted : (xs ++ x :: ys).Pairwise fun p q => rankLe (keyOf m) p q = true) :
    Contents m indexOf i (xs ++ x :: ys) (Function.update f k v) := by
  have hkey : keyOf m x = k := keyOf_eq hx
  have hnew : ∀ q ∈ xs ++ ys, keyOf m q ≠ k := by
    rintro q hq rfl
    exact (h.record hq).2.1 hfk
  refine ⟨hsorted, ?_, fun q hq => ?_, fun r => ?_⟩
  · rw [List.map_append, List.map_cons, List.nodup_middle, List.nodup_cons, ← List.map_append, hkey]
    refine ⟨fun hmem => ?_, h.distinct⟩
    obtain ⟨q, hq, hqk⟩ := List.mem_map.mp hmem
    exact hnew q hq hqk
  · rcases mem_middle.mp hq with rfl | hq
    · exact NodeMem.alive_iff_data.mpr ⟨_, hx⟩
    · exact h.alive q hq
  · constructor
    · rintro ⟨q, hq, hr⟩
      rcases mem_middle.mp hq with rfl | hq
      · rw [hx] at hr
        cases hr
        exact ⟨hk, by rw [Function.update_self], hv⟩
      · obtain ⟨hi, hval, hne⟩ := (h.records r).mp ⟨q, hq, hr⟩
        have hrk := hnew q hq
        rw [keyOf_eq hr] at hrk
        exact ⟨hi, by rw [Function.update_of_ne hrk, hval], hne⟩
    · rintro ⟨hi, hval, hne⟩
      by_cases hrk : r.key = k
      · rw [hrk, Function.update_self] at hval
        refine ⟨x, by simp, hx.trans ?_⟩
        rw [← hrk, ← hval]
      · rw [Function.update_of_ne hrk] at hval
        obtain ⟨q, hq, hr⟩ := (h.records r).mpr ⟨hi, hval, hne⟩
        exact ⟨q, mem_middle.mpr (.inr hq), hr⟩

end Contents

/-! ## List operations on a bucket -/

section Lists

variable {indexOf f : Nat → Nat} {l : LinkedList}

/-- The list of a bucket after a node was freed that is not in it. -/
theorem ListHolds.without (h : ListHolds m l ps) (hp : p ∉ ps) :
    ListHolds (m.without p) l ps := by
  refine h.congr_link (fun q hq => h.bounded q (NodeMem.alive_without.mp hq).2) fun q hq => ?_
  rw [NodeMem.link_without, if_neg]
  rintro rfl
  exact hp hq

theorem Contents.without (h : Contents m indexOf i ps f) (hp : p ∉ ps) :
    Contents (m.without p) indexOf i ps f := by
  refine h.congr (fun q hq => ?_) fun _ _ => rfl
  rw [NodeMem.data_without, if_neg]
  rintro rfl
  exact hp hq

/-- `list_remove_match` takes the node out that has the key of `x`, if there is one. -/
theorem removeMatch_spec (hholds : ListHolds m l ps) (hcontents : Contents m indexOf i ps f)
    (hx : m.Alive x) (hkx : keyOf m x = k) (hk : indexOf k = i) :
    (f k = 0 ∧ listRemoveMatch m l x hashMatchRecord = .ok (m, l, none)) ∨
    (f k ≠ 0 ∧ ∃ xs p ys m' l', ps = xs ++ p :: ys ∧
      listRemoveMatch m l x hashMatchRecord = .ok (m', l', some p) ∧
      ListHolds m' l' (xs ++ ys) ∧ Frame m m' ps ∧ p ∉ xs ++ ys ∧
      Contents m' indexOf i (xs ++ ys) (Function.update f k 0)) := by
  have hmatches := hashMatchRecord_matches hcontents.alive hx
  rw [hkx] at hmatches
  by_cases hfk : f k = 0
  · refine .inl ⟨hfk, listRemoveMatch_none hholds hmatches fun p hp => ?_⟩
    have hne : ¬∃ p ∈ ps, keyOf m p = k := fun hex => (hcontents.exists_iff hk).mp hex hfk
    simpa using fun hkey => hne ⟨p, hp, hkey⟩
  · obtain ⟨p, hp, hkey⟩ := (hcontents.exists_iff hk).mpr hfk
    obtain ⟨xs, ys, rfl⟩ := List.append_of_mem hp
    have hxs : ∀ q ∈ xs, keyOf m q ≠ k := by
      have hdistinct := hcontents.distinct
      rw [List.map_append, List.map_cons, List.nodup_middle, List.nodup_cons, hkey] at hdistinct
      rintro q hq rfl
      exact hdistinct.1 (List.mem_append_left _ (List.mem_map_of_mem hq))
    obtain ⟨m', l', hremove, hholds', hframe, -⟩ := listRemoveMatch_some hholds hmatches
      (by simpa using hkey) (fun q hq => by simpa using hxs q hq)
    refine .inr ⟨hfk, xs, p, ys, m', l', rfl, hremove, hholds', hframe,
      hholds.notMem, ?_⟩
    exact (hcontents.remove hkey).congr (fun q _ => hframe.data q) fun _ _ => rfl

/-- `list_insert` puts a node with a new key at its place. -/
theorem insert_spec (hholds : ListHolds m l ps) (hcontents : Contents m indexOf i ps f)
    (hx : m.data x = some ⟨k, v⟩) (hxps : x ∉ ps) (hk : indexOf k = i) (hfk : f k = 0)
    (hv : v ≠ 0) :
    ∃ m' l' ps', listInsert m l x hashCompareRecord true = .ok (m', l', some x) ∧
      ListHolds m' l' ps' ∧ ps' ≠ [] ∧ Frame m m' ps' ∧ (∀ q ∈ ps', q = x ∨ q ∈ ps) ∧
      Contents m' indexOf i ps' (Function.update f k v) := by
  have halive : ∀ q ∈ x :: ps, m.Alive q :=
    List.forall_mem_cons.mpr ⟨NodeMem.alive_iff_data.mpr ⟨_, hx⟩, hcontents.alive⟩
  obtain ⟨m', l', xs, ys, hinsert, ⟨rfl, -⟩, hholds', hframe, hsorted⟩ := listInsert_spec hholds
    hxps (halive x List.mem_cons_self) (hashCompareRecord_compares halive) (rankLe_total _)
    (rankLe_trans _) hcontents.sorted
  have hkeys : keyOf m' = keyOf m := by
    funext q
    exact keyOf_congr (hframe.data q)
  have hcontents' : Contents m' indexOf i (xs ++ ys) f :=
    hcontents.congr (fun q _ => hframe.data q) fun _ _ => rfl
  refine ⟨m', l', xs ++ x :: ys, hinsert, hholds', by simp, hframe, fun q hq => ?_, ?_⟩
  · exact mem_middle.mp hq
  · exact hcontents'.insert hk hfk hv ((hframe.data x).trans hx) (by rwa [hkeys])

end Lists

/-! ## The memory of a call -/

/-- A call makes the node `x`, and works on it and on the nodes `ps`. -/
structure Within (m m' : HashNodes) (x : Ptr) (ps : List Ptr) : Prop where
  size : m'.size = m.size
  alive : ∀ p, m'.Alive p → p = x ∨ m.Alive p
  link : ∀ p, p ≠ x → p ∉ ps → m'.link p = m.link p
  data : ∀ p, p ≠ x → p ∉ ps → m'.data p = m.data p

namespace Within

theorem trans (h : Within m m' x ps) (h' : Within m' m'' x ps) : Within m m'' x ps where
  size := h'.size.trans h.size
  alive _ hp := (h'.alive _ hp).elim .inl (h.alive _)
  link p hpx hps := (h'.link p hpx hps).trans (h.link p hpx hps)
  data p hpx hps := (h'.data p hpx hps).trans (h.data p hpx hps)

theorem create (r : Record) : Within m (nodeCreate m x r) x ps where
  size := rfl
  alive _ hp := alive_nodeCreate.mp hp
  link p hpx _ := by rw [link_nodeCreate, if_neg hpx]
  data p hpx _ := by rw [data_nodeCreate, if_neg hpx]

theorem of_frame {qs : List Ptr} (h : Frame m m' qs) (hqs : ∀ q ∈ qs, q = x ∨ q ∈ ps) :
    Within m m' x ps where
  size := h.size
  alive _ hp := .inr (h.alive_iff.mp hp)
  link p hpx hps := h.link p fun hp => (hqs p hp).elim hpx hps
  data p _ _ := h.data p

theorem destroy (hp : p = x ∨ p ∈ ps) : Within m (m.without p) x ps where
  size := rfl
  alive q hq := .inr (NodeMem.alive_without.mp hq).2
  link q hqx hqs := by
    rw [NodeMem.link_without, if_neg]
    rintro rfl
    exact hp.elim hqx hqs
  data q hqx hqs := by
    rw [NodeMem.data_without, if_neg]
    rintro rfl
    exact hp.elim hqx hqs

end Within

/-! ## The invariant -/

/-- The bucket a key belongs into. -/
def Hash.indexOf (h : Hash) (k : Nat) : Nat := h.keyFunc h.size k

/-- The list of a bucket: there is one just when it has nodes. -/
def BucketList (h : Hash) (i : Nat) (ps : List Ptr) : Prop :=
  (h.bucket i = none ∧ ps = []) ∨
    ∃ b l, h.bucket i = some b ∧ h.lists b = some l ∧ ListHolds h.nodes l ps ∧ ps ≠ []

/-- The number of buckets with a list. -/
def activeSlots (numSlots : Nat) (bucket : Nat → Option Ptr) : Nat :=
  ((Finset.range numSlots).filter fun i => bucket i ≠ none).card

/-- The invariant of a hash table. -/
structure HashInv (a : Arch) (h : Hash) (ns : Nat → List Ptr) (f : Nat →₀ Nat) : Prop where
  size : h.size ∈ hashSizes
  slots : h.numSlots ≤ 2 ^ 16
  inRange : ∀ k, h.indexOf k < h.numSlots
  room : h.nodes.size = a.size
  bounded : h.nodes.Bounded
  nonnull : ¬h.nodes.Alive 0
  list : ∀ i, BucketList h i (ns i)
  contents : ∀ i, Contents h.nodes h.indexOf i (ns i) f
  headers : ∀ i j b, h.bucket i = some b → h.bucket j = some b → i = j
  total : h.numTotalElem = f.support.card
  active : h.numActiveSlots = activeSlots h.numSlots h.bucket

/-- The tables of a call that works on bucket `i` with the node `x`. -/
structure Elsewhere (h h' : Hash) (i : Nat) (x : Ptr) (ps : List Ptr) : Prop where
  size : h'.size = h.size
  keyFunc : h'.keyFunc = h.keyFunc
  numSlots : h'.numSlots = h.numSlots
  bucket : ∀ j ≠ i, h'.bucket j = h.bucket j
  lists : ∀ j ≠ i, ∀ b, h.bucket j = some b → h'.lists b = h.lists b
  nodes : Within h.nodes h'.nodes x ps

namespace HashInv

variable {h h' : Hash} {ns : Nat → List Ptr} {f f' : Nat →₀ Nat}

/-- A bucket in use has a list, with nodes. -/
theorem list_of_bucket (hinv : HashInv a h ns f) {b : Ptr} (hbucket : h.bucket i = some b) :
    ∃ l, h.lists b = some l ∧ ListHolds h.nodes l (ns i) ∧ ns i ≠ [] := by
  rcases hinv.list i with ⟨hnone, -⟩ | ⟨b', l, hb', hlist⟩
  · rw [hbucket] at hnone
    cases hnone
  · obtain rfl := Option.some.inj (hbucket.symm.trans hb')
    exact ⟨l, hlist⟩

/-- The buckets without a list are those without nodes. -/
theorem bucket_eq_none_iff (hinv : HashInv a h ns f) : h.bucket i = none ↔ ns i = [] := by
  rcases hinv.list i with ⟨hnone, hns⟩ | ⟨b, l, hb, -, -, hne⟩
  · exact iff_of_true hnone hns
  · refine iff_of_false (fun hnone => ?_) hne
    rw [hb] at hnone
    cases hnone

/-- No node is in two buckets. -/
theorem apart (hinv : HashInv a h ns f) {j : Nat} (hi : p ∈ ns i) (hj : p ∈ ns j) : i = j :=
  ((hinv.contents i).record hi).1.symm.trans ((hinv.contents j).record hj).1

/-- A call that works on one bucket keeps the invariant if it leaves that bucket right. The node it
works with is in no other bucket. -/
theorem step_of_notMem (hinv : HashInv a h ns f) (helse : Elsewhere h h' i x (ns i))
    (hx : ∀ j ≠ i, x ∉ ns j) (hx0 : 0 < x) (hxsize : x < a.size)
    (hlist : BucketList h' i ps) (hcontents : Contents h'.nodes h.indexOf i ps f')
    (hf : ∀ k, h.indexOf k ≠ i → f' k = f k)
    (hheader : ∀ b, h'.bucket i = some b → ∀ j ≠ i, h.bucket j ≠ some b)
    (htotal : h'.numTotalElem = f'.support.card)
    (hactive : h'.numActiveSlots = activeSlots h'.numSlots h'.bucket) :
    HashInv a h' (Function.update ns i ps) f' := by
  have hindex : h'.indexOf = h.indexOf := by
    funext k
    rw [Hash.indexOf, Hash.indexOf, helse.keyFunc, helse.size]
  -- the nodes of the other buckets are not touched
  have hother : ∀ j ≠ i, ∀ p ∈ ns j, p ≠ x ∧ p ∉ ns i := by
    intro j hj p hp
    refine ⟨?_, fun hpi => hj (hinv.apart hp hpi)⟩
    rintro rfl
    exact hx j hj hp
  have hbounded : h'.nodes.Bounded := by
    intro p hp
    rw [helse.nodes.size, hinv.room]
    rcases helse.nodes.alive p hp with rfl | hp
    · exact hxsize
    · rw [← hinv.room]
      exact hinv.bounded p hp
  refine ⟨?_, ?_, ?_, helse.nodes.size.trans hinv.room, hbounded, ?_, fun j => ?_, fun j => ?_,
    fun j j' b hj hj' => ?_, htotal, hactive⟩
  · rw [helse.size]
    exact hinv.size
  · rw [helse.numSlots]
    exact hinv.slots
  · rw [hindex, helse.numSlots]
    exact hinv.inRange
  · intro h0
    rcases helse.nodes.alive 0 h0 with rfl | h0
    · exact Nat.lt_irrefl 0 hx0
    · exact hinv.nonnull h0
  · by_cases hj : j = i
    · rw [hj, Function.update_self]
      exact hlist
    · rw [Function.update_of_ne hj, BucketList, helse.bucket j hj]
      refine (hinv.list j).imp id ?_
      rintro ⟨b, l, hb, hl, hholds, hne⟩
      refine ⟨b, l, hb, (helse.lists j hj b hb).trans hl, hholds.congr_link hbounded ?_, hne⟩
      exact fun p hp => helse.nodes.link p (hother j hj p hp).1 (hother j hj p hp).2
  · rw [hindex]
    by_cases hj : j = i
    · rw [hj, Function.update_self]
      exact hcontents
    · rw [Function.update_of_ne hj]
      refine (hinv.contents j).congr ?_ ?_
      · exact fun p hp => helse.nodes.data p (hother j hj p hp).1 (hother j hj p hp).2
      · rintro k rfl
        exact hf k hj
  · by_cases hji : j = i <;> by_cases hji' : j' = i
    · rw [hji, hji']
    · rw [hji] at hj
      rw [helse.bucket j' hji'] at hj'
      exact absurd hj' (hheader b hj j' hji')
    · rw [hji'] at hj'
      rw [helse.bucket j hji] at hj
      exact absurd hj (hheader b hj' j hji)
    · rw [helse.bucket j hji] at hj
      rw [helse.bucket j' hji'] at hj'
      exact hinv.headers j j' b hj hj'

/-- The same for a call that makes a node. -/
theorem step (hinv : HashInv a h ns f) (helse : Elsewhere h h' i x (ns i))
    (hx : ¬h.nodes.Alive x) (hx0 : 0 < x) (hxsize : x < a.size)
    (hlist : BucketList h' i ps) (hcontents : Contents h'.nodes h.indexOf i ps f')
    (hf : ∀ k, h.indexOf k ≠ i → f' k = f k)
    (hheader : ∀ b, h'.bucket i = some b → ∀ j ≠ i, h.bucket j ≠ some b)
    (htotal : h'.numTotalElem = f'.support.card)
    (hactive : h'.numActiveSlots = activeSlots h'.numSlots h'.bucket) :
    HashInv a h' (Function.update ns i ps) f' :=
  hinv.step_of_notMem helse (fun j _ hmem => hx ((hinv.contents j).alive x hmem)) hx0 hxsize hlist
    hcontents hf hheader htotal hactive

end HashInv

end DVP.Sosal
