import DVP.Lib.Run
import DVP.Sosal.Btreelist.Links

/-!
# Runs of a list with a search tree

`BtreeHolds lt ok m btl ns` says that the nodes `ns` are linked in the order `lt` of their values,
and that the tree over them is balanced. When the sort and the compare function tell that order,
`btreelist_add` and `btreelist_remove` keep it (`btreelistAdd_spec`, `btreelistRemove_spec`), and so
does every run (`btreelist_sound`).
-/

namespace DVP.Sosal

open BinaryTree (Guides)

variable {V K : Type} {lt : V → V → Prop} {ok : V → Prop} {m m' : BtreeMem V}
  {btl btl' : Btreelist V K} {x p : Ptr} {v : V} {ns xs ys : List Ptr}

/-! ## The order of the values -/

/-- The number a function gives the value of a node. -/
def rankOf (m : BtreeMem V) (f : V → Int) (p : Ptr) : Int := ((valueOf m p).map f).getD 0

theorem rankOf_eq {f : V → Int} (h : valueOf m p = some v) : rankOf m f p = f v := by
  rw [rankOf, h]
  rfl

/-- The function tells on which side of a value something is. -/
structure Tells (lt : V → V → Prop) (ok : V → Prop) (f : V → Int) : Prop where
  range : ∀ x, ok x → f x = 1 ∨ f x = 0 ∨ f x = -1
  antitone : ∀ x y, ok x → ok y → lt x y → f y ≤ f x

/-- The sort function tells the order of two values. -/
structure SortTells (lt : V → V → Prop) (ok : V → Prop) (sort : V → V → Int) : Prop where
  tells : ∀ z, ok z → Tells lt ok fun x => sort x z
  lt_of_one : ∀ x z, ok x → ok z → sort x z = 1 → lt x z
  lt_of_neg : ∀ x z, ok x → ok z → sort x z = -1 → lt z x
  irrefl : ∀ x, ok x → ¬lt x x

/-- The nodes are linked in the order of their values, counted, and in a balanced tree. -/
structure BtreeHolds (lt : V → V → Prop) (ok : V → Prop) (m : BtreeMem V) (btl : Btreelist V K)
    (ns : List Ptr) : Prop where
  list : ListHolds m btl.list ns
  sorted : ns.Pairwise fun p q => ∀ x ∈ valueOf m p, ∀ y ∈ valueOf m q, lt x y
  ok : ∀ p ∈ ns, ∀ x ∈ valueOf m p, ok x
  count : btl.count = ns.length
  fits : ns.length < 2 ^ 31
  tree : TreeAt m btl.root (.balanced ns)

namespace BtreeHolds

/-- A node of the list has a value. -/
theorem value (h : BtreeHolds lt ok m btl ns) (hp : p ∈ ns) : ∃ x, valueOf m p = some x ∧ ok x := by
  obtain ⟨x, hx⟩ := alive_iff_valueOf.mp (h.list.alive hp)
  exact ⟨x, hx, h.ok p hp x hx⟩

/-- A function that tells the order guides the search of the tree. -/
theorem guides {f : V → Int} (h : BtreeHolds lt ok m btl ns) (hf : Tells lt ok f) :
    Guides (rankOf m f) ns := by
  constructor
  · intro p hp
    obtain ⟨x, hx, hok⟩ := h.value hp
    rw [rankOf_eq hx]
    exact hf.range x hok
  · refine List.Pairwise.imp_of_mem ?_ h.sorted
    intro p q hp hq hlt
    obtain ⟨x, hx, hokx⟩ := h.value hp
    obtain ⟨y, hy, hoky⟩ := h.value hq
    rw [rankOf_eq hx, rankOf_eq hy]
    exact hf.antitone x y hokx hoky (hlt x hx y hy)

end BtreeHolds

/-! ## Rebuilding -/

/-- A memory is what it says of links and data. -/
theorem NodeMem.ext_link_data {D : Type} {m m' : NodeMem D} (hsize : m'.size = m.size)
    (hlink : ∀ p, m'.link p = m.link p) (hdata : ∀ p, m'.data p = m.data p) : m' = m := by
  obtain ⟨size, node⟩ := m
  obtain ⟨size', node'⟩ := m'
  obtain rfl : size' = size := hsize
  congr 1
  funext p
  have hl := hlink p
  have hd := hdata p
  simp only [NodeMem.link, NodeMem.data] at hl hd
  cases hn : node p with
  | none => simpa [hn] using hd
  | some n =>
    obtain ⟨next, prev, data⟩ := n
    cases hn' : node' p with
    | none => simp [hn, hn'] at hd
    | some n' =>
      obtain ⟨next', prev', data'⟩ := n'
      simp_all

/-- The tree is rebuilt over a list that changed. -/
theorem btreelistRebuild_holds {alloc : Bool} (hlist : ListHolds m btl.list ns)
    (hsorted : ns.Pairwise fun p q => ∀ x ∈ valueOf m p, ∀ y ∈ valueOf m q, lt x y)
    (hok : ∀ p ∈ ns, ∀ x ∈ valueOf m p, ok x) (hcount : btl.count = ns.length)
    (hfits : ns.length < 2 ^ 31) (halloc : alloc = true ∨ ns = []) :
    ∃ m' root array, btreelistRebuild alloc m btl =
        .ok (m', { btl with array := array, root := root }) ∧
      BtreeHolds lt ok m' { btl with array := array, root := root } ns ∧ SameObjects m m' := by
  obtain ⟨m', root, array, hrebuild, htree, htied⟩ :=
    btreelistRebuild_spec hlist hcount hfits halloc
  have hobjects := htied.sameObjects
  have hvalue : valueOf m' = valueOf m := funext hobjects.value
  refine ⟨m', root, array, hrebuild, ⟨?_, ?_, ?_, hcount, hfits, htree⟩, hobjects⟩
  · exact hlist.congr_link (hobjects.bounded hlist.bounded) fun p _ => htied.link p
  · rwa [hvalue]
  · rwa [hvalue]

/-- Rebuilding the tree of a list that did not change leaves all as it was. -/
theorem btreelistRebuild_same (h : BtreeHolds lt ok m btl ns) :
    ∃ array, btreelistRebuild true m btl = .ok (m, { btl with array := array }) := by
  obtain ⟨m', root, array, hrebuild, htree, htied⟩ :=
    btreelistRebuild_spec h.list h.count h.fits (.inl rfl)
  obtain ⟨rfl, hdata⟩ := h.tree.unique htree fun p _ => htied.value p
  rw [BinaryTree.inorder_balanced] at hdata
  have hsame : m' = m := by
    refine NodeMem.ext_link_data htied.size htied.link fun p => ?_
    by_cases hp : p ∈ ns
    · exact hdata p hp
    · exact htied.data p hp
  rw [hsame] at hrebuild
  exact ⟨array, hrebuild⟩

/-! ## Adding -/

/-- A node that is before the new one or after it is not equal to it. -/
theorem rank_ne_zero {f : Ptr → Int} (hxs : ∀ p ∈ xs, f p = 1) (hys : ∀ p ∈ ys, f p = -1)
    (hp : p ∈ xs ++ ys) : f p ≠ 0 := by
  rcases List.mem_append.mp hp with hp | hp
  · have hone := hxs p hp
    omega
  · have hminus := hys p hp
    omega

/-- Nodes that are before `x` and nodes that are after it. -/
theorem notMem_of_ranks {f : Ptr → Int} (hxs : ∀ p ∈ xs, f p = 1) (hys : ∀ p ∈ ys, f p = -1)
    (hself : x ∈ xs ++ ys → f x = 0) : x ∉ xs ++ ys :=
  fun hmem => rank_ne_zero hxs hys hmem (hself hmem)

/-- `btreelist_insert` at a node: the value of the new node is equal to its own, after it or before it. -/
theorem btreelistInsert_node {fuel : Nat} {n : Node (BtreeData V)} (hn : m.node p = some n)
    (hx : valueOf m x = some v) (hnonempty : ¬(btl.root = none ∧ btl.head = none ∧ btl.tail = none)) :
    btreelistInsert m btl (some x) (fuel + 1) (some p) =
      if rankOf m (fun y => btl.sort y v) p = 0 then .ok (m, btl)
      else if rankOf m (fun y => btl.sort y v) p = 1 then
        if n.data.right ≠ none then btreelistInsert m btl (some x) fuel n.data.right
        else btreelistInsertNext m btl p x
      else if rankOf m (fun y => btl.sort y v) p = -1 then
        if n.data.left ≠ none then btreelistInsert m btl (some x) fuel n.data.left
        else btreelistInsertPrev m btl p x
      else .ok (m, btl) := by
  obtain ⟨d, hd, hv⟩ := Option.map_eq_some_iff.mp hx
  obtain ⟨o, ho, rfl⟩ := Option.map_eq_some_iff.mp hd
  have hread : m.read (some p) = .ok n := by simp [NodeMem.read, hn]
  have hreado : m.read (some x) = .ok o := by simp [NodeMem.read, ho]
  have hvalue : valueOf m p = some n.data.value := by
    rw [valueOf, NodeMem.data, hn]
    rfl
  have hrank : rankOf m (fun y => btl.sort y v) p = btl.sort n.data.value o.data.value := by
    rw [rankOf_eq hvalue, hv]
  rw [btreelistInsert, if_neg hnonempty, hread, hreado, hrank]
  rfl

/-- `btreelist_insert` into an empty list. -/
theorem btreelistInsert_empty {obj : Option Ptr} (h : BtreeHolds lt ok m btl []) :
    btreelistInsert m btl obj (m.size + 1) btl.root = btreelistInsertFirst m btl obj := by
  have hroot : btl.root = none := by
    have htree := h.tree
    rwa [BinaryTree.balanced_nil] at htree
  rw [hroot, btreelistInsert, if_pos ⟨hroot, h.list.head, h.list.tail⟩]

/-- `btreelist_add` rebuilds the tree over what `btreelist_insert` leaves. -/
theorem btreelistAdd_of_insert {alloc : Bool} {obj : Option Ptr}
    (hinsert : btreelistInsert m btl obj (m.size + 1) btl.root = .ok (m', btl')) :
    btreelistAdd alloc m btl obj = btreelistRebuild alloc m' btl' := by
  rw [btreelistAdd, hinsert]
  rfl

/-- `btreelist_insert` finds a node of equal rank, or the place between the nodes that are before
and those that are after the new one. -/
theorem btreelistInsert_spec {t : BinaryTree Ptr} {fuel : Nat} {r : Option Ptr}
    (hlist : ListHolds m btl.list (xs ++ (t.inorder ++ ys))) (htree : TreeAt m r t)
    (ht : t ≠ .nil) (hfuel : t.height ≤ fuel)
    (hguides : Guides (rankOf m fun y => btl.sort y v) (xs ++ (t.inorder ++ ys)))
    (hxs : ∀ p ∈ xs, rankOf m (fun y => btl.sort y v) p = 1)
    (hys : ∀ p ∈ ys, rankOf m (fun y => btl.sort y v) p = -1) (hx : valueOf m x = some v)
    (hself : x ∈ xs ++ (t.inorder ++ ys) → rankOf m (fun y => btl.sort y v) x = 0)
    (hnonempty : ¬(btl.root = none ∧ btl.head = none ∧ btl.tail = none)) :
    ((∃ p ∈ xs ++ (t.inorder ++ ys), rankOf m (fun y => btl.sort y v) p = 0) ∧
      btreelistInsert m btl (some x) fuel r = .ok (m, btl)) ∨
    ∃ m' head tail as bs, xs ++ (t.inorder ++ ys) = as ++ bs ∧
      (∀ p ∈ as, rankOf m (fun y => btl.sort y v) p = 1) ∧
      (∀ p ∈ bs, rankOf m (fun y => btl.sort y v) p = -1) ∧
      btreelistInsert m btl (some x) fuel r =
        .ok (m', { btl with head := head, tail := tail, count := int32 (btl.count + 1) }) ∧
      ListHolds m' ⟨head, tail⟩ (as ++ x :: bs) ∧ SameObjects m m' := by
  induction t generalizing xs ys fuel r with
  | nil => exact absurd rfl ht
  -- the recursion follows the tree; `xs` and `ys` are the nodes left and right of this subtree
  | node p l rt ihl ihr =>
    obtain ⟨rfl, d, hd, hl, hrt⟩ := htree
    rw [BinaryTree.height] at hfuel
    obtain ⟨fuel, rfl⟩ := Nat.exists_eq_add_one_of_ne_zero (show fuel ≠ 0 by omega)
    obtain ⟨n, hn, rfl⟩ := Option.map_eq_some_iff.mp hd
    have hax : m.Alive x := alive_iff_valueOf.mpr ⟨v, hx⟩
    have hwhole : xs ++ ((BinaryTree.node p l rt).inorder ++ ys) =
        (xs ++ l.inorder) ++ p :: (rt.inorder ++ ys) := by simp [BinaryTree.inorder]
    rw [hwhole] at hlist hguides hself ⊢
    rw [btreelistInsert_node hn hx hnonempty]
    rcases hguides.range p (by simp) with h1 | h0 | hneg
    · -- The new node is after `p` and all that is before it.
      have hbefore : ∀ q ∈ xs ++ l.inorder ++ [p], rankOf m (fun y => btl.sort y v) q = 1 := by
        intro q hq
        rcases List.mem_append.mp hq with hq | hq
        · exact hguides.before h1 hq
        · rwa [List.mem_singleton.mp hq]
      have hright : (xs ++ l.inorder) ++ p :: (rt.inorder ++ ys) =
          (xs ++ l.inorder ++ [p]) ++ (rt.inorder ++ ys) := by simp
      rw [hright] at hlist hguides hself ⊢
      rw [if_neg (by omega), if_pos h1]
      cases rt with
      | nil =>
        have hnone : n.data.right = none := hrt
        have hmiddle : xs ++ l.inorder ++ [p] ++ ys = (xs ++ l.inorder) ++ p :: ys := by simp
        have hx : x ∉ (xs ++ l.inorder) ++ p :: ys := hmiddle ▸ notMem_of_ranks hbefore hys hself
        obtain ⟨m', tail, hinsert, hholds, hframe⟩ :=
          btreelistInsertNext_spec (by simpa using hlist) hx hax
        refine .inr ⟨m', btl.head, tail, xs ++ l.inorder ++ [p], ys, rfl, hbefore, hys, ?_, ?_,
          hframe.sameObjects⟩
        · rw [if_neg (by simp [hnone]), hinsert]
        · simpa using hholds
      | node q l' r' =>
        have hsome : n.data.right ≠ none := by
          rw [hrt.1]
          exact Option.some_ne_none q
        rw [if_pos hsome]
        exact ihr hlist hrt (by simp) (by omega) hguides hbefore hys hself
    · exact .inl ⟨⟨p, by simp, h0⟩, if_pos h0⟩
    · -- The new node is before `p` and all that is after it.
      have hafter : ∀ q ∈ p :: (rt.inorder ++ ys), rankOf m (fun y => btl.sort y v) q = -1 := by
        intro q hq
        rcases List.mem_cons.mp hq with rfl | hq
        · exact hneg
        · exact hguides.after hneg hq
      have hleft : (xs ++ l.inorder) ++ p :: (rt.inorder ++ ys) =
          xs ++ (l.inorder ++ p :: (rt.inorder ++ ys)) := List.append_assoc _ _ _
      rw [hleft] at hlist hguides hself ⊢
      rw [if_neg (by omega), if_neg (by omega), if_pos hneg]
      cases l with
      | nil =>
        have hnone : n.data.left = none := hl
        have hx : x ∉ xs ++ p :: (rt.inorder ++ ys) := notMem_of_ranks hxs hafter hself
        obtain ⟨m', head, hinsert, hholds, hframe⟩ := btreelistInsertPrev_spec hlist hx hax
        refine .inr ⟨m', head, btl.tail, xs, p :: (rt.inorder ++ ys), rfl, hxs, hafter, ?_, hholds,
          hframe.sameObjects⟩
        rw [if_neg (by simp [hnone]), hinsert]
      | node q l' r' =>
        have hsome : n.data.left ≠ none := by
          rw [hl.1]
          exact Option.some_ne_none q
        rw [if_pos hsome]
        exact ihl hlist hl (by simp) (by omega) hguides hxs hafter hself

/-- `btreelist_insert` from the root of a list with nodes. -/
theorem btreelistInsert_root (hsort : SortTells lt ok btl.sort) (h : BtreeHolds lt ok m btl ns)
    (hx : valueOf m x = some v) (hv : ok v) (hne : ns ≠ []) :
    ((∃ p ∈ ns, rankOf m (fun y => btl.sort y v) p = 0) ∧
      btreelistInsert m btl (some x) (m.size + 1) btl.root = .ok (m, btl)) ∨
    ∃ m' head tail as bs, ns = as ++ bs ∧
      (∀ p ∈ as, rankOf m (fun y => btl.sort y v) p = 1) ∧
      (∀ p ∈ bs, rankOf m (fun y => btl.sort y v) p = -1) ∧
      btreelistInsert m btl (some x) (m.size + 1) btl.root =
        .ok (m', { btl with head := head, tail := tail, count := int32 (btl.count + 1) }) ∧
      ListHolds m' ⟨head, tail⟩ (as ++ x :: bs) ∧ SameObjects m m' := by
  have hwhole : [] ++ ((BinaryTree.balanced ns).inorder ++ []) = ns := by
    rw [BinaryTree.inorder_balanced, List.append_nil, List.nil_append]
  have hlist : ListHolds m btl.list ([] ++ ((BinaryTree.balanced ns).inorder ++ [])) := by
    rw [hwhole]
    exact h.list
  have hguides : Guides (rankOf m fun y => btl.sort y v)
      ([] ++ ((BinaryTree.balanced ns).inorder ++ [])) := by
    rw [hwhole]
    exact h.guides (hsort.tells v hv)
  -- a node that is in the list already has the rank of its own value
  have hself : x ∈ [] ++ ((BinaryTree.balanced ns).inorder ++ []) →
      rankOf m (fun y => btl.sort y v) x = 0 := by
    intro hmem
    have hrange := hguides.range x hmem
    rw [rankOf_eq hx] at hrange ⊢
    rcases hrange with h1 | h0 | hneg
    · exact absurd (hsort.lt_of_one v v hv hv h1) (hsort.irrefl v hv)
    · exact h0
    · exact absurd (hsort.lt_of_neg v v hv hv hneg) (hsort.irrefl v hv)
  have htree : BinaryTree.balanced ns ≠ .nil := by
    intro hnil
    have hinorder := BinaryTree.inorder_balanced ns
    rw [hnil] at hinorder
    exact hne hinorder.symm
  have hhead : btl.head ≠ none := by
    have hhead : btl.head = ns.head? := h.list.head
    rwa [hhead, ne_eq, List.head?_eq_none_iff]
  -- the recursion is no deeper than the nodes are many
  have hheight : (BinaryTree.balanced ns).height ≤ m.size + 1 := by
    have hle := BinaryTree.height_le_length (BinaryTree.balanced ns)
    rw [BinaryTree.inorder_balanced] at hle
    exact (hle.trans h.list.length_le).trans (Nat.le_succ _)
  have hinsert := btreelistInsert_spec hlist h.tree htree hheight hguides
    (fun p hp => absurd hp List.not_mem_nil) (fun p hp => absurd hp List.not_mem_nil) hx hself
    fun hall => hhead hall.2.1
  rwa [hwhole] at hinsert

/-- A node between those before and those after it keeps the list sorted. -/
theorem sorted_insert (hsort : SortTells lt ok btl.sort)
    (h : BtreeHolds lt ok m btl (xs ++ ys)) (hx : valueOf m x = some v) (hv : ok v)
    (hxs : ∀ p ∈ xs, rankOf m (fun y => btl.sort y v) p = 1)
    (hys : ∀ p ∈ ys, rankOf m (fun y => btl.sort y v) p = -1) :
    (xs ++ x :: ys).Pairwise fun p q => ∀ x ∈ valueOf m p, ∀ y ∈ valueOf m q, lt x y := by
  obtain ⟨hsx, hsy, hsxy⟩ := List.pairwise_append.mp h.sorted
  have hbefore : ∀ p ∈ xs, ∀ y ∈ valueOf m p, lt y v := by
    intro p hp y hy
    have hrank := hxs p hp
    rw [rankOf_eq hy] at hrank
    exact hsort.lt_of_one y v (h.ok p (List.mem_append_left _ hp) y hy) hv hrank
  have hafter : ∀ q ∈ ys, ∀ y ∈ valueOf m q, lt v y := by
    intro q hq y hy
    have hrank := hys q hq
    rw [rankOf_eq hy] at hrank
    exact hsort.lt_of_neg y v (h.ok q (List.mem_append_right _ hq) y hy) hv hrank
  have hvx : ∀ y ∈ valueOf m x, y = v := by
    intro y hy
    rw [hx] at hy
    exact (Option.some.inj hy).symm
  refine List.pairwise_append.mpr ⟨hsx, List.pairwise_cons.mpr ⟨?_, hsy⟩, ?_⟩
  · intro q hq y hy z hz
    rw [hvx y hy]
    exact hafter q hq z hz
  · intro p hp q hq y hy z hz
    rcases List.mem_cons.mp hq with rfl | hq
    · rw [hvx z hz]
      exact hbefore p hp y hy
    · exact hsxy p hp q hq y hy z hz

/-- `btreelist_add` leaves the list as it is if a node of it has equal rank, or puts the new node at
its place. -/
theorem btreelistAdd_spec (hsort : SortTells lt ok btl.sort) (h : BtreeHolds lt ok m btl ns)
    (hx : valueOf m x = some v) (hv : ok v)
    (hfits : ns.length + 1 < 2 ^ 31 ∨ ∃ p ∈ ns, rankOf m (fun y => btl.sort y v) p = 0) :
    ((∃ p ∈ ns, rankOf m (fun y => btl.sort y v) p = 0) ∧
      ∃ array, btreelistAdd true m btl (some x) = .ok (m, { btl with array := array })) ∨
    ((∀ p ∈ ns, rankOf m (fun y => btl.sort y v) p ≠ 0) ∧
      ∃ m' btl' xs ys, ns = xs ++ ys ∧ btreelistAdd true m btl (some x) = .ok (m', btl') ∧
        BtreeHolds lt ok m' btl' (xs ++ x :: ys) ∧ SameObjects m m' ∧
        btl'.sort = btl.sort ∧ btl'.compare = btl.compare) := by
  have hax : m.Alive x := alive_iff_valueOf.mpr ⟨v, hx⟩
  have hvx : ∀ y ∈ valueOf m x, ok y := by
    intro y hy
    rw [hx] at hy
    rwa [← Option.some.inj hy]
  by_cases hne : ns = []
  · -- the first node
    subst hne
    obtain ⟨m₁, hinsert, hlist, hobjects⟩ := btreelistInsertFirst_spec h.list.bounded hax
    have hok : ∀ p ∈ [x], ∀ y ∈ valueOf m₁ p, ok y := by
      intro p hp
      rw [List.mem_singleton.mp hp, hobjects.value]
      exact hvx
    let btl₁ : Btreelist V K :=
      { btl with
        root := some x
        head := some x
        tail := some x
        count := 1 }
    have hlist' : ListHolds m₁ btl₁.list [x] := hlist
    obtain ⟨m', root, array, hrebuild, hholds, hobjects'⟩ := btreelistRebuild_holds hlist'
      (List.pairwise_singleton _ _) hok rfl (by simp) (.inl rfl : true = true ∨ _)
    refine .inr ⟨by simp, m', _, [], [], rfl, ?_, hholds, hobjects.trans hobjects', rfl, rfl⟩
    rw [btreelistAdd_of_insert ((btreelistInsert_empty h).trans hinsert)]
    exact hrebuild
  · rcases btreelistInsert_root hsort h hx hv hne with
      ⟨hzero, hinsert⟩ | ⟨m₁, head, tail, as, bs, rfl, has, hbs, hinsert, hlist, hobjects⟩
    · obtain ⟨array, hrebuild⟩ := btreelistRebuild_same h
      refine .inl ⟨hzero, array, ?_⟩
      rw [btreelistAdd_of_insert hinsert]
      exact hrebuild
    · have hnone : ∀ p ∈ as ++ bs, rankOf m (fun y => btl.sort y v) p ≠ 0 :=
        fun p hp => rank_ne_zero has hbs hp
      -- the count is an `int32_t`, and a node that is added must not make it wrap
      have hroom : (as ++ bs).length + 1 < 2 ^ 31 := by
        refine hfits.resolve_right ?_
        rintro ⟨p, hp, hzero⟩
        exact hnone p hp hzero
      have hlength : (as ++ x :: bs).length = (as ++ bs).length + 1 := by
        simp [Nat.add_assoc]
      have hvalue : valueOf m₁ = valueOf m := funext hobjects.value
      have hcount : int32 (btl.count + 1) = (as ++ x :: bs).length := by
        rw [h.count, int32_eq (by omega) (by omega), hlength]
        rfl
      have hok : ∀ p ∈ as ++ x :: bs, ∀ y ∈ valueOf m₁ p, ok y := by
        intro p hp
        rw [hvalue]
        rcases mem_middle.mp hp with rfl | hp
        · exact hvx
        · exact h.ok p hp
      let btl₁ : Btreelist V K :=
        { btl with
          head := head
          tail := tail
          count := int32 (btl.count + 1) }
      have hlist' : ListHolds m₁ btl₁.list (as ++ x :: bs) := hlist
      obtain ⟨m', root, array, hrebuild, hholds, hobjects'⟩ := btreelistRebuild_holds hlist'
        (by rw [hvalue]; exact sorted_insert hsort h hx hv has hbs) hok hcount (by omega)
        (.inl rfl : true = true ∨ _)
      refine .inr ⟨hnone, m', _, as, bs, rfl, ?_, hholds, hobjects.trans hobjects', rfl, rfl⟩
      rw [btreelistAdd_of_insert hinsert]
      exact hrebuild

/-! ## Finding and removing -/

/-- `btree_find` searches the tree. -/
theorem btreeFind_spec {t : BinaryTree Ptr} {fuel : Nat} {r : Option Ptr} {k : K}
    (htree : TreeAt m r t) (hfuel : t.height ≤ fuel) :
    btreeFind m btl k fuel r = .ok (t.search (rankOf m fun y => btl.compare y k)) := by
  induction t generalizing fuel r with
  | nil =>
    obtain rfl : r = none := htree
    cases fuel <;> rfl
  | node p l rt ihl ihr =>
    obtain ⟨rfl, d, hd, hl, hrt⟩ := htree
    rw [BinaryTree.height] at hfuel
    obtain ⟨fuel, rfl⟩ := Nat.exists_eq_add_one_of_ne_zero (show fuel ≠ 0 by omega)
    obtain ⟨n, hn, rfl⟩ := Option.map_eq_some_iff.mp hd
    have hread : m.read (some p) = .ok n := by simp [NodeMem.read, hn]
    have hrank : rankOf m (fun y => btl.compare y k) p = btl.compare n.data.value k :=
      rankOf_eq (show valueOf m p = some n.data.value by rw [valueOf, hd]; rfl)
    rw [btreeFind, hread, ok_bind, BinaryTree.search, hrank]
    dsimp only
    split_ifs
    · rfl
    · exact ihr hrt (by omega)
    · exact ihl hl (by omega)

/-- `btreelist_find` finds a node of rank `0`, if there is one. -/
theorem btreelistFind_spec {k : K} (hcompare : Tells lt ok fun y => btl.compare y k)
    (h : BtreeHolds lt ok m btl ns) :
    (btreelistFind m btl k = .ok none ∧ ∀ p ∈ ns, rankOf m (fun y => btl.compare y k) p ≠ 0) ∨
      ∃ p ∈ ns, btreelistFind m btl k = .ok (some p) ∧
        rankOf m (fun y => btl.compare y k) p = 0 := by
  have hheight : (BinaryTree.balanced ns).height ≤ m.size + 1 := by
    have hle := BinaryTree.height_le_length (BinaryTree.balanced ns)
    rw [BinaryTree.inorder_balanced] at hle
    exact (hle.trans h.list.length_le).trans (Nat.le_succ _)
  have hfind : btreelistFind m btl k = _ := btreeFind_spec h.tree hheight
  have hguides := h.guides hcompare
  cases hsearch : (BinaryTree.balanced ns).search (rankOf m fun y => btl.compare y k) with
  | none =>
    rw [hsearch] at hfind
    have hnone := BinaryTree.search_eq_none (by rwa [BinaryTree.inorder_balanced]) hsearch
    rw [BinaryTree.inorder_balanced] at hnone
    exact .inl ⟨hfind, hnone⟩
  | some p =>
    rw [hsearch] at hfind
    obtain ⟨hp, hzero⟩ := BinaryTree.search_eq_some hsearch
    rw [BinaryTree.inorder_balanced] at hp
    exact .inr ⟨p, hp, hfind, hzero⟩

/-- `btreelist_remove` takes a node of rank `0` out, if there is one. -/
theorem btreelistRemove_spec {k : K} {alloc : Bool}
    (hcompare : Tells lt ok fun y => btl.compare y k) (h : BtreeHolds lt ok m btl ns)
    (halloc : alloc = true ∨ ns.length ≤ 1 ∨
      ∀ p ∈ ns, rankOf m (fun y => btl.compare y k) p ≠ 0) :
    ((∀ p ∈ ns, rankOf m (fun y => btl.compare y k) p ≠ 0) ∧
      btreelistRemove alloc m btl k = .ok (m, btl, none)) ∨
    ∃ xs p ys m' btl', ns = xs ++ p :: ys ∧ rankOf m (fun y => btl.compare y k) p = 0 ∧
      btreelistRemove alloc m btl k = .ok (m', btl', some p) ∧
      BtreeHolds lt ok m' btl' (xs ++ ys) ∧ SameObjects m m' ∧
      btl'.sort = btl.sort ∧ btl'.compare = btl.compare := by
  rcases btreelistFind_spec hcompare h with ⟨hfind, hnone⟩ | ⟨p, hp, hfind, hzero⟩
  · refine .inl ⟨hnone, ?_⟩
    rw [btreelistRemove, hfind]
    rfl
  · obtain ⟨xs, ys, rfl⟩ := List.append_of_mem hp
    obtain ⟨m₁, head, tail, hunlink, hlist, hobjects⟩ := btreelistUnlink_spec h.list
    have hvalue : valueOf m₁ = valueOf m := funext hobjects.value
    have hsub : (xs ++ ys).Sublist (xs ++ p :: ys) :=
      List.Sublist.append_left (List.sublist_cons_self p ys) xs
    have hlength : (xs ++ p :: ys).length = (xs ++ ys).length + 1 := by
      simp [Nat.add_assoc]
    have hfits := h.fits
    have hcount : int32 (btl.count - 1) = (xs ++ ys).length := by
      rw [h.count, int32_eq (by omega) (by omega), hlength]
      omega
    -- the tree is built anew, and needs memory unless nothing is left
    have hrest : alloc = true ∨ xs ++ ys = [] := by
      rcases halloc with halloc | hone | hnone
      · exact .inl halloc
      · exact .inr (List.eq_nil_of_length_eq_zero (by omega))
      · exact absurd hzero (hnone p hp)
    let btl₁ : Btreelist V K :=
      { btl with
        head := head
        tail := tail
        count := int32 (btl.count - 1) }
    have hlist' : ListHolds m₁ btl₁.list (xs ++ ys) := hlist
    obtain ⟨m', root, array, hrebuild, hholds, hobjects'⟩ := btreelistRebuild_holds hlist'
      (by rw [hvalue]; exact h.sorted.sublist hsub)
      (by rw [hvalue]; exact fun q hq => h.ok q (hsub.mem hq)) hcount (by omega) hrest
    refine .inr ⟨xs, p, ys, m', _, rfl, hzero, ?_, hholds, hobjects.trans hobjects', rfl, rfl⟩
    rw [btreelistRemove, hfind, ok_bind]
    simp only [hunlink, ok_bind]
    rw [hrebuild]
    rfl

/-! ## Runs -/

/-- The tree at `r`. The first number bounds its height. -/
def treeOf (m : BtreeMem V) : Nat → Option Ptr → BinaryTree Ptr
  | 0, _ => .nil
  | _, none => .nil
  | fuel + 1, some p =>
    match m.data p with
    | none => .nil
    | some d => .node p (treeOf m fuel d.left) (treeOf m fuel d.right)

theorem treeOf_eq {t : BinaryTree Ptr} {fuel : Nat} {r : Option Ptr} (h : TreeAt m r t)
    (hfuel : t.height ≤ fuel) : treeOf m fuel r = t := by
  induction t generalizing fuel r with
  | nil =>
    obtain rfl : r = none := h
    cases fuel <;> rfl
  | node p l rt ihl ihr =>
    obtain ⟨rfl, d, hd, hl, hrt⟩ := h
    rw [BinaryTree.height] at hfuel
    obtain ⟨fuel, rfl⟩ := Nat.exists_eq_add_one_of_ne_zero (show fuel ≠ 0 by omega)
    rw [treeOf, hd]
    simp only [ihl hl (show l.height ≤ fuel by omega), ihr hrt (show rt.height ≤ fuel by omega)]

/-- The nodes of the list, from its head on. -/
def Btreelist.nodes (m : BtreeMem V) (btl : Btreelist V K) : List Ptr := listNodes m btl.list

/-- The values of the list, from its head on. -/
def Btreelist.values (m : BtreeMem V) (btl : Btreelist V K) : List V :=
  (btl.nodes m).filterMap (valueOf m)

/-- The search tree. -/
def Btreelist.tree (m : BtreeMem V) (btl : Btreelist V K) : BinaryTree Ptr :=
  treeOf m m.size btl.root

/-- What holds of the list and the tree between the calls. -/
structure BtreeSound [LT V] (m : BtreeMem V) (btl : Btreelist V K) : Prop where
  linked : ListHolds m btl.list (btl.nodes m)
  sorted : (btl.values m).Pairwise (· < ·)
  valued : (btl.values m).length = (btl.nodes m).length
  inorder : (btl.tree m).inorder = btl.nodes m
  count : btl.count = (btl.nodes m).length
  height : (btl.tree m).height ≤ Nat.log 2 btl.count.toNat + 1

theorem BtreeHolds.sound [LT V] (h : BtreeHolds (· < ·) ok m btl ns) : BtreeSound m btl := by
  have hnodes : btl.nodes m = ns := h.list.listNodes_eq
  have hle := BinaryTree.height_le_length (BinaryTree.balanced ns)
  rw [BinaryTree.inorder_balanced] at hle
  have htree : btl.tree m = .balanced ns := treeOf_eq h.tree (hle.trans h.list.length_le)
  constructor
  · rw [hnodes]
    exact h.list
  · rw [Btreelist.values, hnodes, List.pairwise_filterMap]
    exact h.sorted
  · rw [Btreelist.values, hnodes, List.filterMap_length_eq_length]
    intro p hp
    obtain ⟨x, hx, -⟩ := h.value hp
    rw [hx]
    rfl
  · rw [htree, hnodes, BinaryTree.inorder_balanced]
  · rw [hnodes, h.count]
  · rw [htree, h.count, Int.toNat_natCast]
    exact BinaryTree.height_balanced ns

/-- A node of the list has rank `0` when a value of the list does. -/
theorem exists_rank_iff {f : V → Int} (hlist : ListHolds m btl.list ns) :
    (∃ p ∈ ns, rankOf m f p = 0) ↔ ∃ y ∈ btl.values m, f y = 0 := by
  have hnodes : btl.nodes m = ns := hlist.listNodes_eq
  rw [Btreelist.values, hnodes]
  constructor
  · rintro ⟨p, hp, hrank⟩
    obtain ⟨y, hy⟩ := alive_iff_valueOf.mp (hlist.alive hp)
    rw [rankOf_eq hy] at hrank
    exact ⟨y, List.mem_filterMap.mpr ⟨p, hp, hy⟩, hrank⟩
  · rintro ⟨y, hmem, hzero⟩
    obtain ⟨p, hp, hy⟩ := List.mem_filterMap.mp hmem
    refine ⟨p, hp, ?_⟩
    rw [rankOf_eq hy]
    exact hzero

/-- A node of the list with a value has rank `0`, and no other. -/
theorem exists_rank_zero_iff {f : V → Int} (hlist : ListHolds m btl.list ns)
    (hf : ∀ y, f y = 0 ↔ y = v) :
    (∃ p ∈ ns, rankOf m f p = 0) ↔ v ∈ btl.values m := by
  rw [exists_rank_iff hlist]
  simp only [hf, exists_eq_right]

section Ordered

variable [LinearOrder V]

/-- The sort function of an order. -/
def sortOf (x y : V) : Int := if x = y then 0 else if x > y then -1 else 1

/-- The compare function of an order. -/
def compareOf (x y : V) : Int := if x = y then 0 else if x < y then 1 else -1

theorem sortOf_eq_one {x y : V} : sortOf x y = 1 ↔ x < y := by
  rw [sortOf]
  split_ifs with heq hgt
  · exact iff_of_false (by decide) heq.not_lt
  · exact iff_of_false (by decide) (lt_asymm hgt)
  · exact iff_of_true rfl (lt_of_le_of_ne (not_lt.mp hgt) heq)

theorem sortOf_eq_neg {x y : V} : sortOf x y = -1 ↔ y < x := by
  rw [sortOf]
  split_ifs with heq hgt
  · exact iff_of_false (by decide) heq.not_gt
  · exact iff_of_true rfl hgt
  · exact iff_of_false (by decide) hgt

theorem sortOf_eq_zero {x y : V} : sortOf x y = 0 ↔ x = y := by
  rw [sortOf]
  split_ifs with heq hgt
  · exact iff_of_true rfl heq
  · exact iff_of_false (by decide) heq
  · exact iff_of_false (by decide) heq

/-- The compare function puts a value where the sort function puts a node with it. -/
theorem compareOf_eq (x y : V) : compareOf x y = sortOf x y := by
  rw [compareOf, sortOf]
  rcases lt_trichotomy x y with hlt | rfl | hgt
  · rw [if_neg hlt.ne, if_neg hlt.ne, if_pos hlt, if_neg (lt_asymm hlt)]
  · rw [if_pos rfl, if_pos rfl]
  · rw [if_neg hgt.ne', if_neg hgt.ne', if_neg (lt_asymm hgt), if_pos hgt]

theorem sortOf_tells (z : V) : Tells (· < ·) (fun _ => True) fun x => sortOf x z := by
  have hrange : ∀ x : V, sortOf x z = 1 ∨ sortOf x z = 0 ∨ sortOf x z = -1 := by
    intro x
    rcases lt_trichotomy x z with hlt | heq | hgt
    · exact .inl (sortOf_eq_one.mpr hlt)
    · exact .inr (.inl (sortOf_eq_zero.mpr heq))
    · exact .inr (.inr (sortOf_eq_neg.mpr hgt))
  refine ⟨fun x _ => hrange x, fun x y _ _ hxy => ?_⟩
  rcases hrange y with h1 | h0 | hneg
  · rw [h1, sortOf_eq_one.mpr (hxy.trans (sortOf_eq_one.mp h1))]
  · rw [h0, sortOf_eq_one.mpr (hxy.trans_eq (sortOf_eq_zero.mp h0))]
    decide
  · have hx := hrange x
    rw [hneg]
    omega

theorem sortTells_sortOf : SortTells (· < ·) (fun _ => True) (sortOf : V → V → Int) where
  tells z _ := sortOf_tells z
  lt_of_one _ _ _ _ h := sortOf_eq_one.mp h
  lt_of_neg _ _ _ _ h := sortOf_eq_neg.mp h
  irrefl x _ := lt_irrefl x

theorem compareOf_tells (k : V) : Tells (· < ·) (fun _ => True) fun x => compareOf x k := by
  simp only [compareOf_eq]
  exact sortOf_tells k

/-- The list with the functions of the order. -/
structure BtreeOrdered (m : BtreeMem V) (btl : Btreelist V V) : Prop where
  sort : btl.sort = sortOf
  compare : btl.compare = compareOf
  holds : ∃ ns, BtreeHolds (· < ·) (fun _ => True) m btl ns

/-- What keeps the list and the tree right: the array of a list with nodes is allocated, and the
nodes are fewer than `int32_t` counts. -/
def BtreeFits (s : BtreeMem V × Btreelist V V) : BtreeOp V → Prop
  | .add node alloc =>
    alloc = true ∧ (s.2.count + 1 < 2 ^ 31 ∨ ∃ v ∈ valueOf s.1 node, v ∈ s.2.values s.1)
  | .remove value alloc => alloc = true ∨ s.2.count ≤ 1 ∨ value ∉ s.2.values s.1

instance (s : BtreeMem V × Btreelist V V) : ∀ o, Decidable (BtreeFits s o)
  | .add node alloc => inferInstanceAs
      (Decidable (alloc = true ∧ (s.2.count + 1 < 2 ^ 31 ∨
        ∃ v ∈ valueOf s.1 node, v ∈ s.2.values s.1)))
  | .remove value alloc => inferInstanceAs
      (Decidable (alloc = true ∨ s.2.count ≤ 1 ∨ value ∉ s.2.values s.1))

/-- Adding a value that is present changes nothing. -/
theorem btreelistAdd_present {btl : Btreelist V V} (h : BtreeOrdered m btl) (hx : valueOf m x = some v)
    (hv : v ∈ btl.values m) :
    ∃ array, btreelistAdd true m btl (some x) = .ok (m, { btl with array := array }) := by
  obtain ⟨hsort, -, ns, hholds⟩ := h
  have hzero : ∃ p ∈ ns, rankOf m (fun y => btl.sort y v) p = 0 := by
    rw [exists_rank_zero_iff hholds.list fun y => by rw [hsort, sortOf_eq_zero]]
    exact hv
  rcases btreelistAdd_spec (hsort ▸ sortTells_sortOf) hholds hx trivial (.inr hzero) with
    ⟨-, hadd⟩ | ⟨hnone, -⟩
  · exact hadd
  · obtain ⟨p, hp, hrank⟩ := hzero
    exact absurd hrank (hnone p hp)

/-- A call that fits keeps the list and the tree right, and the objects as they are. -/
theorem btreelistStep_spec {s : BtreeMem V × Btreelist V V} {o : BtreeOp V}
    (h : BtreeOrdered s.1 s.2) (hnode : ∀ node alloc, o = .add node alloc → s.1.Alive node)
    (hfits : BtreeFits s o) :
    ∃ s' r, btreelistStep s o = .ok (s', r) ∧ BtreeOrdered s'.1 s'.2 ∧ SameObjects s.1 s'.1 := by
  obtain ⟨hsort, hcompare, ns, hholds⟩ := h
  cases o with
  | add node alloc =>
    obtain ⟨rfl, hroom⟩ := hfits
    obtain ⟨v, hv⟩ := alive_iff_valueOf.mp (hnode node true rfl)
    have hzero : (∃ p ∈ ns, rankOf s.1 (fun y => s.2.sort y v) p = 0) ↔ v ∈ s.2.values s.1 :=
      exists_rank_zero_iff hholds.list fun y => by rw [hsort, sortOf_eq_zero]
    have hroom' : ns.length + 1 < 2 ^ 31 ∨ ∃ p ∈ ns, rankOf s.1 (fun y => s.2.sort y v) p = 0 := by
      rw [hzero]
      rcases hroom with hroom | ⟨w, hw, hmem⟩
      · rw [hholds.count] at hroom
        exact .inl (by omega)
      · rw [hv] at hw
        cases hw
        exact .inr hmem
    -- the value is there already, or the node is put in
    rcases btreelistAdd_spec (hsort ▸ sortTells_sortOf) hholds hv trivial hroom' with
      ⟨-, array, hadd⟩ | ⟨-, m', btl', xs, ys, -, hadd, hholds', hobjects, hsort', hcompare'⟩
    · refine ⟨(s.1, { s.2 with array := array }), none, by rw [btreelistStep, hadd]; rfl, ?_,
        SameObjects.refl⟩
      exact ⟨hsort, hcompare, ns, hholds.list, hholds.sorted, hholds.ok, hholds.count, hholds.fits,
        hholds.tree⟩
    · refine ⟨(m', btl'), none, by rw [btreelistStep, hadd]; rfl, ?_, hobjects⟩
      exact ⟨hsort'.trans hsort, hcompare'.trans hcompare, _, hholds'⟩
  | remove value alloc =>
    have hzero : (∃ p ∈ ns, rankOf s.1 (fun y => s.2.compare y value) p = 0) ↔
        value ∈ s.2.values s.1 :=
      exists_rank_zero_iff hholds.list fun y => by rw [hcompare, compareOf_eq, sortOf_eq_zero]
    have halloc : alloc = true ∨ ns.length ≤ 1 ∨
        ∀ p ∈ ns, rankOf s.1 (fun y => s.2.compare y value) p ≠ 0 := by
      refine hfits.imp id fun hfits => hfits.imp (fun hone => ?_) fun habsent p hp hrank => ?_
      · rw [hholds.count] at hone
        omega
      · exact habsent (hzero.mp ⟨p, hp, hrank⟩)
    rcases btreelistRemove_spec (hcompare ▸ compareOf_tells value) hholds halloc with
      ⟨-, hremove⟩ | ⟨xs, p, ys, m', btl', -, -, hremove, hholds', hobjects, hsort', hcompare'⟩
    · refine ⟨s, none, by rw [btreelistStep, hremove]; rfl, ?_, SameObjects.refl⟩
      exact ⟨hsort, hcompare, ns, hholds⟩
    · refine ⟨(m', btl'), some p, by rw [btreelistStep, hremove]; rfl, ?_, hobjects⟩
      exact ⟨hsort'.trans hsort, hcompare'.trans hcompare, _, hholds'⟩

/-- Every run whose calls fit returns. After it the list is strictly sorted, the tree has its nodes
in their order and is balanced, the count is right, and a value that is present is not added. -/
theorem btreelist_sound (m₀ : BtreeMem V) (hm : m₀.Bounded) (os : List (BtreeOp V))
    (hnodes : ∀ node alloc, .add node alloc ∈ os → m₀.Alive node)
    (hfits : Machine.Meets btreelistStep BtreeFits (m₀, btreelistCreate compareOf sortOf) os) :
    ∃ m btl answers, Machine.run btreelistStep (m₀, btreelistCreate compareOf sortOf) os =
        .ok ((m, btl), answers) ∧
      BtreeSound m btl ∧
      ∀ x v, valueOf m x = some v → v ∈ btl.values m →
        ∃ array, btreelistStep (m, btl) (.add x true) =
          .ok ((m, { btl with array := array }), none) := by
  have hinit : BtreeOrdered m₀ (btreelistCreate compareOf sortOf) := by
    refine ⟨rfl, rfl, [], ListHolds.empty hm, List.Pairwise.nil, by simp, rfl, by simp, ?_⟩
    rw [BinaryTree.balanced_nil]
    rfl
  have hmem : Machine.Meets btreelistStep
      (fun _ o => ∀ node alloc, o = BtreeOp.add node alloc → m₀.Alive node)
      (m₀, btreelistCreate compareOf sortOf) os := by
    refine Machine.meets_of_forall fun s o ho node alloc hadd => ?_
    rw [hadd] at ho
    exact hnodes node alloc ho
  obtain ⟨⟨m, btl⟩, answers, hrun, hordered, -⟩ := Machine.run_invariant
    (I := fun s : BtreeMem V × Btreelist V V => BtreeOrdered s.1 s.2 ∧ SameObjects m₀ s.1)
    (fun s o ⟨hordered, hobjects⟩ ⟨hnode, hfit⟩ => by
      obtain ⟨s', r, hstep, hordered', hobjects'⟩ := btreelistStep_spec hordered
        (fun node alloc hadd => hobjects.alive_iff.mpr (hnode node alloc hadd)) hfit
      exact ⟨s', r, hstep, hordered', hobjects.trans hobjects'⟩)
    ⟨hinit, SameObjects.refl⟩ (hmem.and hfits)
  obtain ⟨-, -, ns, hholds⟩ := id hordered
  refine ⟨m, btl, answers, hrun, hholds.sound, fun x v hx hv => ?_⟩
  obtain ⟨array, hadd⟩ := btreelistAdd_present hordered hx hv
  exact ⟨array, by rw [btreelistStep, hadd]; rfl⟩

end Ordered

/-- A memory with the objects `1`, `2` and `3`. -/
def threeObjects : BtreeMem Nat :=
  ⟨4, fun p => if p = 0 ∨ p > 3 then none else some ⟨none, none, none, none, 10 * p⟩⟩

theorem threeObjects_bounded : threeObjects.Bounded := by
  intro p hp
  by_contra hlt
  have hnone : threeObjects.node p = none := if_pos (.inr (not_lt.mp hlt))
  rw [NodeMem.Alive, hnone] at hp
  cases hp

theorem btreelist_sound_five :
    ∃ m btl answers, Machine.run btreelistStep (threeObjects, btreelistCreate compareOf sortOf)
        [.add 1 true, .add 3 true, .add 2 true, .add 1 true, .remove 20 true] =
        .ok ((m, btl), answers) ∧
      BtreeSound m btl ∧
      ∀ x v, valueOf m x = some v → v ∈ btl.values m →
        ∃ array, btreelistStep (m, btl) (.add x true) =
          .ok ((m, { btl with array := array }), none) :=
  btreelist_sound threeObjects threeObjects_bounded _
    (by simp [NodeMem.Alive, threeObjects]) (Machine.check_eq_true_iff.mp (by decide))

/-- Without memory for the array, `btreelist_rebtree` reads it all the same. -/
theorem btreelist_add_without_array :
    ¬∃ m btl answers, Machine.run btreelistStep (threeObjects, btreelistCreate compareOf sortOf)
        [.add 1 false] = .ok ((m, btl), answers) ∧ BtreeSound m btl := by
  have hrun : Machine.run btreelistStep
      (threeObjects, (btreelistCreate compareOf sortOf : Btreelist Nat Nat)) [.add 1 false] =
      .error .nullPointer := by
    rfl
  rintro ⟨m, btl, answers, hok, -⟩
  rw [hrun] at hok
  cases hok

end DVP.Sosal
