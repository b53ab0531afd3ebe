import Mathlib.Data.Fintype.EquivFin
import DVP.Sosal.Heap.Alloc
import DVP.Sosal.Heap.Free

/-!
# A tail that was left behind

When `heap_free` merges the last node of the free list away, the tail of the list stays at that node.
Only `list_trim` goes by the tail, and `list_extract` calls it for the last of several nodes. All
other calls do with such a heap what they do with one whose tail is right.

* `Stale t x y` for lists and heaps: `y` is `x`, or `x` with the node `t` as the tail.
* `heapAlloc_stale`, `heapFree_stale`: the calls answer the same, and keep the relation.
* `HeapStale` is the invariant of a heap whose tail may be stale.
-/

namespace DVP.Sosal

variable {D : Type} {a : Arch} {arena : Arena a} {m m' : NodeMem D} {l l' l₁ : LinkedList}
  {h h' h₁ : Heap} {blk blk' : Ptr → Block} {p q t : Ptr} {i n : Nat} {us fs ss xs ys ns loose : List Ptr}

/-! ## Lists -/

/-- The list with a tail that may have been left behind. -/
def LinkedList.Stale (t : Ptr) (l l₁ : LinkedList) : Prop := l₁ = l ∨ l₁ = { l with tail := some t }

/-- A list with a stale tail has the same head. -/
theorem LinkedList.Stale.head (hl : l.Stale t l₁) : l₁.head = l.head := by
  rcases hl with rfl | rfl
  · rfl
  · rfl

/-- `list_pop` goes by the head. -/
theorem listPop_stale (hl : l.Stale t l₁) (hpop : listPop m l = .ok (m', l', some q)) :
    ∃ l₁', listPop m l₁ = .ok (m', l₁', some q) ∧ l'.Stale t l₁' := by
  rcases hl with rfl | rfl
  · exact ⟨l', hpop, .inl rfl⟩
  unfold listPop at hpop ⊢
  dsimp only
  cases hhead : l.head with
  | none =>
    rw [hhead] at hpop
    cases hpop
  | some node =>
    simp only [hhead] at hpop ⊢
    obtain ⟨d, hread, hpop⟩ := bind_eq_ok hpop
    rw [hread, ok_bind]
    by_cases hself : d.next = some node
    · rw [if_pos hself] at hpop
      cases hpop
    rw [if_neg hself] at hpop ⊢
    cases hnext : d.next with
    | none =>
      simp only [hnext] at hpop ⊢
      exact ⟨l', hpop, .inl rfl⟩
    -- the assertion only asks that the tail is not `NULL`, and a stale one is not
    | some head =>
      simp only [hnext] at hpop ⊢
      obtain ⟨m₁, hset, hpop⟩ := bind_eq_ok hpop
      simp only [pure_eq_ok, ok_bind] at hpop
      have htail : ¬(l.tail = none ∧ some head ≠ none) := by
        intro hbad
        rw [if_pos hbad] at hpop
        cases hpop
      rw [if_neg htail] at hpop
      obtain ⟨m₂, hclear, hpop⟩ := bind_eq_ok hpop
      obtain ⟨m₃, hclear', hpop⟩ := bind_eq_ok hpop
      cases hpop
      refine ⟨⟨some head, some t⟩, ?_, .inr rfl⟩
      simp only [hset, pure_eq_ok, ok_bind, reduceCtorEq, false_and, if_false, hclear, hclear']

/-- The first node is popped. -/
theorem listExtract_first {next : Option Ptr} (hhead : l.head ≠ none) (htail : l.tail ≠ none)
    (hlink : m.link p = some ⟨none, next⟩) :
    listExtract m l (some p) = (do
      match ← listPop m l with
      | (_, _, none) => .error .nullPointer
      | (m, l, some node) => do
        let m ← m.setNext node none
        let m ← m.setPrev node none
        return (m, l, some node)) := by
  obtain ⟨d, hread⟩ := NodeMem.read_of_link hlink
  unfold listExtract
  simp only [hhead, htail, or_self, if_false, hread, ok_bind]
  cases listPop m l with
  | error e => cases next <;> rfl
  | ok r =>
    obtain ⟨m₁, l₂, node⟩ := r
    cases next <;> cases node <;> rfl

/-- A node between two others is taken out by its links. -/
theorem listExtract_middle {y z : Ptr} (hhead : l.head ≠ none) (htail : l.tail ≠ none)
    (hlink : m.link p = some ⟨some z, some y⟩) :
    listExtract m l (some p) = (do
      let m ← m.setPrev y (some z)
      let m ← m.setNext z (some y)
      let m ← m.setNext p none
      let m ← m.setPrev p none
      return (m, l, some p)) := by
  obtain ⟨d, hread⟩ := NodeMem.read_of_link hlink
  unfold listExtract
  simp only [hhead, htail, or_self, if_false, hread, ok_bind]
  rfl

/-- A node that is not the last of several is taken out without a look at the tail. -/
theorem listExtract_stale (hl : l.Stale t l₁) (h : ListHolds m l (xs ++ p :: ys))
    (hlast : xs = [] ∨ ys ≠ []) {r : Option Ptr}
    (hextract : listExtract m l (some p) = .ok (m', l', r)) :
    ∃ l₁', listExtract m l₁ (some p) = .ok (m', l₁', r) ∧ l'.Stale t l₁' := by
  have hlink := h.link_eq
  have hhead : l.head ≠ none := by
    rw [h.head]
    cases xs <;> simp
  have htail : l.tail ≠ none := by simp [h.tail]
  have hhead₁ : l₁.head ≠ none := by rwa [hl.head]
  have htail₁ : l₁.tail ≠ none := by
    rcases hl with rfl | rfl
    · exact htail
    · simp
  -- a first node is popped, and one in the middle is cut out; only a last one is trimmed
  rcases List.eq_nil_or_concat xs with rfl | ⟨zs, z, rfl⟩
  · rw [List.getLast?_nil] at hlink
    rw [listExtract_first hhead htail hlink] at hextract
    rw [listExtract_first hhead₁ htail₁ hlink]
    obtain ⟨⟨m₁, l₂, node⟩, hpop, hextract⟩ := bind_eq_ok hextract
    cases node with
    | none => cases hextract
    | some node =>
      obtain ⟨l₂', hpop', hl'⟩ := listPop_stale hl hpop
      obtain ⟨m₂, hnext, hextract⟩ := bind_eq_ok hextract
      obtain ⟨m₃, hprev, hextract⟩ := bind_eq_ok hextract
      cases hextract
      exact ⟨l₂', by simp only [hpop', ok_bind, hnext, hprev, pure_eq_ok], hl'⟩
  · obtain ⟨y, ys, rfl⟩ := List.exists_cons_of_ne_nil (hlast.resolve_left (by simp))
    rw [List.concat_eq_append, List.getLast?_concat, List.head?_cons] at hlink
    rw [listExtract_middle hhead htail hlink] at hextract
    rw [listExtract_middle hhead₁ htail₁ hlink]
    obtain ⟨m₁, h₁, hextract⟩ := bind_eq_ok hextract
    obtain ⟨m₂, h₂, hextract⟩ := bind_eq_ok hextract
    obtain ⟨m₃, h₃, hextract⟩ := bind_eq_ok hextract
    obtain ⟨m₄, h₄, hextract⟩ := bind_eq_ok hextract
    cases hextract
    exact ⟨l₁, by simp only [h₁, h₂, h₃, h₄, ok_bind, pure_eq_ok], hl⟩

/-- Insertion in front of a node does not read the stale tail. -/
theorem listInsertBefore_stale {node : Ptr} (hl : l.Stale t l₁)
    (hinsert : listInsertBefore m l node n = .ok (m', l')) :
    ∃ l₁', listInsertBefore m l₁ node n = .ok (m', l₁') ∧ l'.Stale t l₁' := by
  have hstale : LinkedList.Stale t (if l.head = some n then { l with head := some node } else l)
      (if l₁.head = some n then { l₁ with head := some node } else l₁) := by
    rcases hl with rfl | rfl
    · exact .inl rfl
    · split_ifs
      · exact .inr rfl
      · exact .inr rfl
  unfold listInsertBefore at hinsert ⊢
  obtain ⟨d, hread, hinsert⟩ := bind_eq_ok hinsert
  obtain ⟨m₁, hnext, hinsert⟩ := bind_eq_ok hinsert
  obtain ⟨m₂, hprev, hinsert⟩ := bind_eq_ok hinsert
  simp only [hread, ok_bind, hnext, hprev]
  cases hd : d.prev with
  | none =>
    simp only [hd, pure_eq_ok, ok_bind] at hinsert ⊢
    obtain ⟨m₃, hafter, hinsert⟩ := bind_eq_ok hinsert
    cases hinsert
    exact ⟨_, by rw [hafter]; rfl, hstale⟩
  | some prev =>
    simp only [hd] at hinsert ⊢
    obtain ⟨m₃, hbefore, hinsert⟩ := bind_eq_ok hinsert
    obtain ⟨m₄, hafter, hinsert⟩ := bind_eq_ok hinsert
    cases hinsert
    exact ⟨_, by rw [hbefore, ok_bind, hafter]; rfl, hstale⟩

/-- Insertion behind a node other than the stale one does not read the stale tail. -/
theorem listInsertAfter_stale {node : Ptr} (hl : l.Stale t l₁) (hn : t ≠ n)
    (hinsert : listInsertAfter m l node n = .ok (m', l')) :
    ∃ l₁', listInsertAfter m l₁ node n = .ok (m', l₁') ∧ l'.Stale t l₁' := by
  have hstale : LinkedList.Stale t (if l.tail = some n then { l with tail := some node } else l)
      (if l₁.tail = some n then { l₁ with tail := some node } else l₁) := by
    rcases hl with rfl | rfl
    · exact .inl rfl
    · -- the tail that was left behind is not the node
      rw [if_neg (show some t ≠ some n by simpa using hn)]
      split_ifs
      · exact .inr rfl
      · exact .inr rfl
  unfold listInsertAfter at hinsert ⊢
  obtain ⟨d, hread, hinsert⟩ := bind_eq_ok hinsert
  obtain ⟨m₁, hnext, hinsert⟩ := bind_eq_ok hinsert
  obtain ⟨m₂, hprev, hinsert⟩ := bind_eq_ok hinsert
  simp only [hread, ok_bind, hnext, hprev]
  cases hd : d.next with
  | none =>
    simp only [hd, pure_eq_ok, ok_bind] at hinsert ⊢
    obtain ⟨m₃, hbefore, hinsert⟩ := bind_eq_ok hinsert
    cases hinsert
    exact ⟨_, by rw [hbefore]; rfl, hstale⟩
  | some next =>
    simp only [hd] at hinsert ⊢
    obtain ⟨m₃, hafter, hinsert⟩ := bind_eq_ok hinsert
    obtain ⟨m₄, hbefore, hinsert⟩ := bind_eq_ok hinsert
    cases hinsert
    exact ⟨_, by rw [hafter, ok_bind, hbefore]; rfl, hstale⟩

/-- The search for a place does not read the stale tail. -/
theorem listInsertLoop_stale {node : Ptr} {compare : NodeCompare D} {sortAscending : Bool}
    {fuel : Nat} {r : Option Ptr} (hl : l.Stale t l₁) (h : ListHolds m l (xs ++ ys)) (ht : t ∉ ys)
    (hinsert : listInsertLoop m l node compare sortAscending fuel ys.head? = .ok (m', l', r)) :
    ∃ l₁', listInsertLoop m l₁ node compare sortAscending fuel ys.head? = .ok (m', l₁', r) ∧
      l'.Stale t l₁' := by
  induction fuel generalizing xs ys with
  | zero =>
    cases ys with
    | nil =>
      cases hinsert
      exact ⟨l₁, rfl, hl⟩
    | cons y ys => cases hinsert
  | succ fuel ih =>
    cases ys with
    | nil =>
      cases hinsert
      exact ⟨l₁, rfl, hl⟩
    | cons y ys =>
      obtain ⟨d, hread⟩ := NodeMem.read_of_link h.link_eq
      -- the stale tail is none of the nodes that the loop comes to
      have hty : t ≠ y := fun hty => ht (hty ▸ List.mem_cons_self)
      have hrest := ih h.step fun hmem => ht (List.mem_cons_of_mem _ hmem)
      rw [List.head?_cons, listInsertLoop] at hinsert ⊢
      obtain ⟨c, hbefore, hinsert⟩ := bind_eq_ok hinsert
      rw [hbefore, ok_bind]
      by_cases hless : isBefore sortAscending c = true
      · rw [if_pos hless] at hinsert ⊢
        obtain ⟨⟨m₁, l₂⟩, hins, hinsert⟩ := bind_eq_ok hinsert
        cases hinsert
        obtain ⟨l₁', hins', hl'⟩ := listInsertBefore_stale hl hins
        exact ⟨l₁', by rw [hins']; rfl, hl'⟩
      rw [if_neg hless] at hinsert ⊢
      obtain ⟨c', hafter, hinsert⟩ := bind_eq_ok hinsert
      rw [hread, ok_bind] at hinsert
      rw [hafter, ok_bind, hread, ok_bind]
      by_cases hmore : isBeforeEq sortAscending c' = true
      · rw [if_pos hmore] at hinsert ⊢
        obtain ⟨c'', hnext, hinsert⟩ := bind_eq_ok hinsert
        rw [hnext, ok_bind]
        by_cases hplace : isBeforeEq sortAscending c'' = true
        · rw [if_pos hplace] at hinsert ⊢
          obtain ⟨⟨m₁, l₂⟩, hins, hinsert⟩ := bind_eq_ok hinsert
          cases hinsert
          obtain ⟨l₁', hins', hl'⟩ := listInsertAfter_stale hl hty hins
          exact ⟨l₁', by rw [hins']; rfl, hl'⟩
        · rw [if_neg hplace] at hinsert ⊢
          exact hrest hinsert
      · rw [if_neg hmore] at hinsert ⊢
        exact hrest hinsert

/-- Insertion does not read the stale tail. -/
theorem listInsert_stale {node : Ptr} {compare : NodeCompare D} {sortAscending : Bool}
    {r : Option Ptr} (hl : l.Stale t l₁) (h : ListHolds m l ns) (ht : t ∉ ns)
    (hinsert : listInsert m l node compare sortAscending = .ok (m', l', r)) :
    ∃ l₁', listInsert m l₁ node compare sortAscending = .ok (m', l₁', r) ∧ l'.Stale t l₁' := by
  unfold listInsert at hinsert ⊢
  rw [hl.head]
  rw [h.head] at hinsert ⊢
  cases ns with
  | nil =>
    -- the node becomes the head and the tail
    exact ⟨l', hinsert, .inl rfl⟩
  | cons n ns =>
    exact listInsertLoop_stale hl h.start ht hinsert

/-! ## Heaps -/

/-- The heap with a tail of the free list that may have been left behind. -/
def Heap.Stale (t : Ptr) (h h₁ : Heap) : Prop := ∃ l, h.free.Stale t l ∧ h₁ = { h with free := l }

/-- The removal of the best fit does not read the stale tail, if it leaves a neighbour or is at the front.
-/
theorem blockBestfitAndRemove_stale {r : Option (Ptr × Option Nat)} (hs : h.Stale t h₁)
    (hsafe : ∀ p, listScore h.nodes h.free (blockRateBestfit a h.blocks n) = .ok (some p) →
      ∃ xs ys, ListHolds h.nodes h.free (xs ++ p :: ys) ∧ (xs = [] ∨ ys ≠ []))
    (hbest : blockBestfitAndRemove a h n = .ok (h', r)) :
    ∃ h₁', blockBestfitAndRemove a h₁ n = .ok (h₁', r) ∧ h'.Stale t h₁' := by
  obtain ⟨l, hl, rfl⟩ := hs
  -- the search for the best fit goes from the head
  have hscore : listScore h.nodes l (blockRateBestfit a h.blocks n) =
      listScore h.nodes h.free (blockRateBestfit a h.blocks n) := by
    unfold listScore
    rw [hl.head]
  unfold blockBestfitAndRemove at hbest ⊢
  dsimp only at hbest ⊢
  rw [hscore]
  obtain ⟨found, hfound, hbest⟩ := bind_eq_ok hbest
  rw [hfound, ok_bind]
  cases found with
  | none =>
    cases hbest
    exact ⟨_, rfl, ⟨l, hl, rfl⟩⟩
  | some p =>
    obtain ⟨xs, ys, hholds, hlast⟩ := hsafe p hfound
    obtain ⟨⟨m, l', node⟩, hextract, hbest⟩ := bind_eq_ok hbest
    obtain ⟨l₁', hextract', hl'⟩ := listExtract_stale hl hholds hlast hextract
    dsimp only at hbest ⊢
    obtain ⟨d, hread, hbest⟩ := bind_eq_ok hbest
    cases hbest
    refine ⟨{ h with nodes := m, free := l₁' }, ?_, ⟨l₁', hl', rfl⟩⟩
    simp only [hextract', ok_bind, hread, pure_eq_ok]

/-- The spare list has no part in what happens to the free list. -/
theorem ListHolds.of_popSpare {sp : LinkedList} {m : HeapNodes} {node : Option Ptr}
    (hl : HeapLists h us fs ss loose blk) (hpop : listPop h.nodes h.spare = .ok (m, sp, node)) :
    ListHolds m h.free fs := by
  cases ss with
  | nil =>
    rw [listPop_nil hl.spare] at hpop
    cases hpop
    exact hl.free
  | cons s ss =>
    obtain ⟨m', sp', hpop', hl', -⟩ := hl.popSpare
    rw [hpop'] at hpop
    cases hpop
    exact hl'.free

/-- Splitting a block does not read the stale tail. -/
theorem heapFracture_stale {r : Bool} (hs : h.Stale t h₁) (hl : HeapLists h us fs ss loose blk)
    (ht : t ∉ fs) (hfracture : heapFracture a h p i n = .ok (h', r)) :
    ∃ h₁', heapFracture a h₁ p i n = .ok (h₁', r) ∧ h'.Stale t h₁' := by
  obtain ⟨l, hstale, rfl⟩ := hs
  unfold heapFracture at hfracture ⊢
  dsimp only at hfracture ⊢
  obtain ⟨b, hb, hfracture⟩ := bind_eq_ok hfracture
  rw [hb, ok_bind]
  by_cases hsize : b.size > n
  · rw [if_pos hsize] at hfracture ⊢
    obtain ⟨⟨m, sp, node⟩, hpop, hfracture⟩ := bind_eq_ok hfracture
    -- popping the spare node leaves the free list as it was
    have hfree := ListHolds.of_popSpare hl hpop
    rw [hpop, ok_bind]
    dsimp only at hfracture ⊢
    cases node with
    | none =>
      obtain ⟨⟨m', l', node'⟩, hinsert, hfracture⟩ := bind_eq_ok hfracture
      obtain ⟨l₁', hinsert', hl'⟩ := listInsert_stale hstale hfree ht hinsert
      cases hfracture
      refine ⟨{ h with nodes := m', free := l₁', spare := sp }, ?_, ⟨l₁', hl', rfl⟩⟩
      simp only [hinsert', ok_bind, pure_eq_ok]
    | some s =>
      obtain ⟨d, hd, hfracture⟩ := bind_eq_ok hfracture
      dsimp only at hfracture ⊢
      rw [hd, ok_bind]
      cases hdata : d.data with
      | none =>
        simp only [hdata] at hfracture
        cases hfracture
      | some j =>
        simp only [hdata] at hfracture ⊢
        obtain ⟨b', hb', hfracture⟩ := bind_eq_ok hfracture
        obtain ⟨⟨m', l', node'⟩, hinsert, hfracture⟩ := bind_eq_ok hfracture
        obtain ⟨l₁', hinsert', hl'⟩ := listInsert_stale hstale hfree ht hinsert
        cases hfracture
        simp only [Heap.setBlock] at hb' hinsert' ⊢
        refine ⟨_, ?_, ⟨l₁', hl', rfl⟩⟩
        simp only [hb', hinsert', ok_bind, pure_eq_ok]
  · rw [if_neg hsize] at hfracture ⊢
    cases hfracture
    exact ⟨_, rfl, ⟨l, hstale, rfl⟩⟩

/-- The best fit is the last of several free nodes. -/
def TakesLast (a : Arch) (blk : Ptr → Block) (N : Nat) (fs : List Ptr) : Prop :=
  bestOf (ratingOf a blk N) fs = fs.getLast? ∧ fs.head? ≠ fs.getLast?

instance (N : Nat) : Decidable (TakesLast a blk N fs) := inferInstanceAs (Decidable (_ ∧ _))

/-- The call takes the last of several free nodes, and the tail is not that node. -/
def Heap.TakesStale (a : Arch) (h : Heap) (n : Nat) : Prop :=
  n ≠ 0 ∧ h.free.tail ≠ (listNodes h.nodes h.free).getLast? ∧
    TakesLast a h.blockOf (blockSize a h.align n) (listNodes h.nodes h.free)

instance : Decidable (h.TakesStale a n) := inferInstanceAs (Decidable (_ ∧ _ ∧ _))

/-- A best fit that is not the last of several nodes is the first one or has one behind it. -/
theorem first_or_behind (hnodup : fs.Nodup) (hsafe : ¬TakesLast a blk n fs)
    (hbest : bestOf (ratingOf a blk n) fs = some p) :
    ∃ xs ys, fs = xs ++ p :: ys ∧ (xs = [] ∨ ys ≠ []) := by
  obtain ⟨xs, ys, rfl, -⟩ := bestOf_eq_some hbest
  refine ⟨xs, ys, rfl, ?_⟩
  by_contra hnot
  simp only [not_or, not_not] at hnot
  obtain ⟨x, zs, rfl⟩ := List.exists_cons_of_ne_nil hnot.1
  have hxp : x ≠ p := ne_of_nodup_middle hnodup (by simp)
  apply hsafe
  refine ⟨by rw [hbest, hnot.2, List.getLast?_concat], ?_⟩
  rw [hnot.2, List.getLast?_concat, List.cons_append, List.head?_cons, ne_eq, Option.some.injEq]
  exact hxp

/-- `heap_alloc` does the same when the tail was left behind, unless it takes the last of several
free nodes. -/
theorem heapAlloc_stale {r : AllocResult} (hs : h.Stale t h₁) (hinv : HeapInv arena h us fs ss blk)
    (ht : t ∉ fs) (hsafe : n ≠ 0 → ¬TakesLast a blk (blockSize a h.align n) fs)
    (halloc : heapAlloc a h n = .ok (h', r)) :
    ∃ h₁', heapAlloc a h₁ n = .ok (h₁', r) ∧ h'.Stale t h₁' := by
  obtain ⟨l, hl, rfl⟩ := hs
  have hs : h.Stale t { h with free := l } := ⟨l, hl, rfl⟩
  have hdvd : arena.align ∣ blockSize a h.align n := by
    rw [hinv.align]
    exact dvd_blockSize arena n
  unfold heapAlloc at halloc ⊢
  dsimp only at halloc ⊢
  split_ifs at halloc ⊢ with hraw hn hfew
  · cases halloc
    exact ⟨_, rfl, hs⟩
  · cases halloc
    exact ⟨_, rfl, hs⟩
  · cases halloc
    exact ⟨_, rfl, hs⟩
  obtain ⟨⟨h₂, found⟩, hbest, halloc⟩ := bind_eq_ok halloc
  obtain ⟨h₃, hbest', hs₂⟩ := blockBestfitAndRemove_stale hs (fun p hp => by
    rw [listScore_free hinv, Except.ok.injEq] at hp
    obtain ⟨xs, ys, hfs, hlast⟩ := first_or_behind hinv.lists.free.nodup (hsafe hn) hp
    exact ⟨xs, ys, hfs ▸ hinv.lists.free, hlast⟩) hbest
  rw [hbest', ok_bind]
  rcases blockBestfitAndRemove_cases hinv hdvd with ⟨hnone, -⟩ | hfound
  · rw [hnone] at hbest
    cases hbest
    cases halloc
    exact ⟨h₃, rfl, hs₂⟩
  obtain ⟨xs, p, ys, m, free, i, rfl, -, -, hremove, -, hlists⟩ := hfound
  rw [hremove] at hbest
  cases hbest
  obtain ⟨⟨h₄, enough⟩, hfracture, halloc⟩ := bind_eq_ok halloc
  have ht' : t ∉ xs ++ ys := by
    simp only [List.mem_append, List.mem_cons] at ht ⊢
    grind
  obtain ⟨h₅, hfracture', l', hl', rfl⟩ := heapFracture_stale hs₂ hlists ht' hfracture
  dsimp only
  rw [hfracture', ok_bind]
  cases enough with
  | false =>
    cases halloc
    exact ⟨_, rfl, l', hl', rfl⟩
  | true =>
    -- the used list is not affected
    obtain ⟨⟨m', used, node⟩, hinsert, halloc⟩ := bind_eq_ok halloc
    obtain ⟨b, hread, halloc⟩ := bind_eq_ok halloc
    cases halloc
    dsimp only at hinsert hread ⊢
    refine ⟨_, ?_, l', hl', rfl⟩
    simp only [hinsert, ok_bind, hread, pure_eq_ok]

/-! ## Freeing -/

/-- The merge of two nodes does not look at the list. -/
theorem heapCoalescePrev_stale {block prevBlock : Nat} {node prevNode : Ptr} (hs : h.Stale t h₁)
    (hmerge : heapCoalescePrev a h node prevNode block prevBlock = .ok h') :
    ∃ h₁', heapCoalescePrev a h₁ node prevNode block prevBlock = .ok h₁' ∧ h'.Stale t h₁' := by
  obtain ⟨l, hl, rfl⟩ := hs
  unfold heapCoalescePrev at hmerge ⊢
  dsimp only [Heap.setBlock] at hmerge ⊢
  obtain ⟨b, hb, hmerge⟩ := bind_eq_ok hmerge
  obtain ⟨pb, hpb, hmerge⟩ := bind_eq_ok hmerge
  obtain ⟨m₁, hm₁, hmerge⟩ := bind_eq_ok hmerge
  obtain ⟨d, hd, hmerge⟩ := bind_eq_ok hmerge
  obtain ⟨m₂, hm₂, hmerge⟩ := bind_eq_ok hmerge
  simp only [hb, hpb, hm₁, hd, hm₂, ok_bind]
  split at hmerge
  all_goals
    obtain ⟨m₃, hm₃, hmerge⟩ := bind_eq_ok hmerge
    obtain ⟨m₄, hm₄, hmerge⟩ := bind_eq_ok hmerge
    cases hmerge
    exact ⟨_, by rw [hm₃, ok_bind, hm₄]; rfl, l, hl, rfl⟩

/-- Merging two blocks does not read the stale tail. -/
theorem heapCoalesceNext_stale {block nextBlock : Nat} {node nextNode : Ptr} (hs : h.Stale t h₁)
    (hmerge : heapCoalesceNext a h node nextNode block nextBlock = .ok h') :
    ∃ h₁', heapCoalesceNext a h₁ node nextNode block nextBlock = .ok h₁' ∧ h'.Stale t h₁' := by
  obtain ⟨l, hl, rfl⟩ := hs
  unfold heapCoalesceNext at hmerge ⊢
  dsimp only [Heap.setBlock] at hmerge ⊢
  obtain ⟨b, hb, hmerge⟩ := bind_eq_ok hmerge
  obtain ⟨nb, hnb, hmerge⟩ := bind_eq_ok hmerge
  obtain ⟨d, hd, hmerge⟩ := bind_eq_ok hmerge
  obtain ⟨m₁, hm₁, hmerge⟩ := bind_eq_ok hmerge
  simp only [hb, hnb, hd, hm₁, ok_bind]
  split at hmerge
  all_goals
    obtain ⟨m₂, hm₂, hmerge⟩ := bind_eq_ok hmerge
    obtain ⟨m₃, hm₃, hmerge⟩ := bind_eq_ok hmerge
    cases hmerge
    exact ⟨_, by rw [hm₂, ok_bind, hm₃]; rfl, l, hl, rfl⟩

/-- Merging all blocks that touch does not read the stale tail. -/
theorem heapCoalesce_stale (hs : h.Stale t h₁) (hmerge : heapCoalesce a h p i = .ok h') :
    ∃ h₁', heapCoalesce a h₁ p i = .ok h₁' ∧ h'.Stale t h₁' := by
  have hs' := hs
  obtain ⟨l, hl, rfl⟩ := hs'
  unfold heapCoalesce at hmerge ⊢
  dsimp only at hmerge ⊢
  obtain ⟨n, hn, hmerge⟩ := bind_eq_ok hmerge
  obtain ⟨prevBlock, hprev, hmerge⟩ := bind_eq_ok hmerge
  obtain ⟨nextBlock, hnext, hmerge⟩ := bind_eq_ok hmerge
  obtain ⟨adjPrev, hadjPrev, hmerge⟩ := bind_eq_ok hmerge
  rw [hn, ok_bind, hprev, ok_bind, hnext, ok_bind, hadjPrev, ok_bind]
  split at hmerge
  · exact heapCoalescePrev_stale hs hmerge
  · obtain ⟨adjNext, hadjNext, hmerge⟩ := bind_eq_ok hmerge
    rw [hadjNext, ok_bind]
    split at hmerge
    · exact heapCoalesceNext_stale hs hmerge
    · cases hmerge
      exact ⟨_, rfl, hs⟩

/-- The free list has no part in what is taken out of the used list. -/
theorem ListHolds.of_removeUsed {used : LinkedList} {m : HeapNodes} {node : Option Ptr} {ptr : Nat}
    (hl : HeapLists h us fs ss [] blk)
    (hremove : listRemoveMatch h.nodes h.used ptr (blockMatchPtr h.blocks) = .ok (m, used, node)) :
    ListHolds m h.free fs := by
  have hmatch := hl.own.matches (fun q (hq : q ∈ us) => List.mem_append_left _ hq) ptr
  cases hfind : us.find? (fun q => decide ((blk q).data = ptr)) with
  | none =>
    rw [listRemoveMatch_none hl.used hmatch fun q hq => by
      simpa using List.find?_eq_none.mp hfind q hq] at hremove
    cases hremove
    exact hl.free
  | some p =>
    obtain ⟨hp, xs, ys, rfl, hxs⟩ := List.find?_eq_some_iff_append.mp hfind
    obtain ⟨m', used', hremove', hl', -⟩ := hl.removeUsed (of_decide_eq_true hp)
      (fun q hq => by simpa using hxs q hq)
    rw [hremove'] at hremove
    cases hremove
    exact hl'.free

/-- `heap_free` does the same when the tail was left behind. -/
theorem heapFree_stale {pointer : Nat} {r : Bool} (hs : h.Stale t h₁)
    (hinv : HeapInv arena h us fs ss blk) (ht : t ∉ fs) (hfree : heapFree a h pointer = .ok (h', r)) :
    ∃ h₁', heapFree a h₁ pointer = .ok (h₁', r) ∧ h'.Stale t h₁' := by
  obtain ⟨l, hl, rfl⟩ := hs
  have hs : h.Stale t { h with free := l } := ⟨l, hl, rfl⟩
  unfold heapFree at hfree ⊢
  dsimp only at hfree ⊢
  by_cases hzero : pointer = 0
  · rw [if_pos hzero] at hfree ⊢
    cases hfree
    exact ⟨_, rfl, hs⟩
  rw [if_neg hzero, if_neg hinv.raw] at hfree ⊢
  by_cases haligned : ptrIsAligned pointer h.align = false
  · rw [if_pos haligned] at hfree ⊢
    cases hfree
    exact ⟨_, rfl, hs⟩
  rw [if_neg haligned] at hfree ⊢
  obtain ⟨⟨m₁, used, node⟩, hremove, hfree⟩ := bind_eq_ok hfree
  have hholds := ListHolds.of_removeUsed hinv.lists hremove
  rw [hremove, ok_bind]
  cases node with
  | none =>
    cases hfree
    exact ⟨_, rfl, l, hl, rfl⟩
  | some p =>
    obtain ⟨n, hn, hfree⟩ := bind_eq_ok hfree
    obtain ⟨b, hb, hfree⟩ := bind_eq_ok hfree
    dsimp only at hn hb hfree ⊢
    rw [hn, ok_bind, hb, ok_bind]
    by_cases hpointer : pointer ≠ b.data
    · rw [if_pos hpointer] at hfree ⊢
      cases hfree
      exact ⟨_, rfl, l, hl, rfl⟩
    rw [if_neg hpointer] at hfree ⊢
    cases hdata : n.data with
    | none =>
      simp only [hdata] at hfree
      cases hfree
    | some i =>
      simp only [hdata] at hfree ⊢
      obtain ⟨⟨m₂, free, node⟩, hinsert, hfree⟩ := bind_eq_ok hfree
      -- after the insertion the two heaps still differ in the tail alone
      obtain ⟨l', hinsert', hl'⟩ := listInsert_stale hl hholds ht hinsert
      rw [hinsert', ok_bind]
      dsimp only at hfree ⊢
      rw [if_pos hinv.coalescePolicy] at hfree ⊢
      obtain ⟨h₂, hmerge, hfree⟩ := bind_eq_ok hfree
      cases hfree
      obtain ⟨h₃, hmerge', hs'⟩ := heapCoalesce_stale ⟨l', hl', rfl⟩ hmerge
      exact ⟨h₃, by rw [hmerge']; rfl, hs'⟩

/-! ## The invariant of a heap whose tail may be stale -/

/-- The invariant of a heap, but for the tail of the free list, which may be a node that is on no
list. -/
structure HeapStale (arena : Arena a) (h : Heap) (us fs ss : List Ptr) (blk : Ptr → Block) :
    Prop where
  inv : HeapInv arena (h.retail fs) us fs ss blk
  tail : h.free.tail = fs.getLast? ∨ ∃ t, h.free.tail = some t ∧ t ∉ us ++ (fs ++ ss)

/-- A heap whose lists hold is one with a tail that is not stale. -/
theorem HeapInv.stale (hinv : HeapInv arena h us fs ss blk) : HeapStale arena h us fs ss blk := by
  refine ⟨?_, .inl hinv.lists.free.tail⟩
  rwa [Heap.retail_eq hinv.lists.free.tail]

namespace HeapStale

/-- There is a node on no list that the tail is, if it is not the last free node. -/
theorem stale (hst : HeapStale arena h us fs ss blk) :
    ∃ t, t ∉ us ++ (fs ++ ss) ∧ (h.retail fs).Stale t h := by
  rcases hst.tail with htail | ⟨t, htail, ht⟩
  · obtain ⟨t, ht⟩ := Infinite.exists_notMem_finset (us ++ (fs ++ ss)).toFinset
    refine ⟨t, by simpa using ht, h.free, .inl ?_, rfl⟩
    rw [Heap.retail, ← htail]
  · refine ⟨t, ht, h.free, .inr ?_, rfl⟩
    rw [Heap.retail, ← htail]

/-- A heap that differs from one with the invariant in a stale tail. -/
theorem of_stale {us' fs' ss' : List Ptr} (hinv : HeapInv arena h us' fs' ss' blk')
    (hs : h.Stale t h₁) (ht : t ∉ us' ++ (fs' ++ ss')) : HeapStale arena h₁ us' fs' ss' blk' := by
  obtain ⟨l, rfl | rfl, rfl⟩ := hs
  · exact hinv.stale
  · refine ⟨?_, .inr ⟨t, rfl, ht⟩⟩
    show HeapInv arena { h with free := { h.free with tail := fs'.getLast? } } us' fs' ss' blk'
    rwa [← hinv.lists.free.tail]

/-- What the heap has but for the tail. -/
theorem listNodes_used (hst : HeapStale arena h us fs ss blk) : listNodes h.nodes h.used = us :=
  hst.inv.lists.used.listNodes_eq

/-- The free list has the free nodes. -/
theorem listNodes_free (hst : HeapStale arena h us fs ss blk) : listNodes h.nodes h.free = fs :=
  hst.inv.lists.free.listNodes_eq

/-- The spare list has the spare nodes. -/
theorem listNodes_spare (hst : HeapStale arena h us fs ss blk) : listNodes h.nodes h.spare = ss :=
  hst.inv.lists.spare.listNodes_eq

/-- The blocks can be read off the heap. -/
theorem toBlockOf (hst : HeapStale arena h us fs ss blk) : HeapStale arena h us fs ss h.blockOf :=
  ⟨hst.inv.toBlockOf, hst.tail⟩

/-- The block of a node is the one that the invariant tells. -/
theorem blockOf_eq (hst : HeapStale arena h us fs ss blk) (hp : p ∈ us ++ fs) :
    h.blockOf p = blk p := by
  apply hst.inv.lists.blockOf_eq (p := p)
  simp only [List.mem_append] at hp ⊢
  grind

/-- No node is in two lists. -/
theorem nodup (hst : HeapStale arena h us fs ss blk) : (us ++ (fs ++ ss)).Nodup := by
  have hnodup := hst.inv.lists.own.nodup
  rwa [List.append_nil] at hnodup

end HeapStale

/-- The lists of a call have no other nodes than before. -/
theorem AllocStep.subset {N : Nat} {r : AllocResult} {us' fs' ss' : List Ptr}
    (hstep : AllocStep a n N us fs ss blk r us' fs' ss' blk') :
    us' ++ (fs' ++ ss') ⊆ us ++ (fs ++ ss) := by
  intro q hq
  cases hstep with
  | refused => exact hq
  | dry xs p ys xs' ys' hn hfs hbest hsize hspare hplace =>
    have hmem : q ∈ xs ++ ys ↔ q ∈ xs' ++ ys' := by rw [hplace]
    simp only [hfs, List.mem_append, List.mem_cons] at hq hmem ⊢
    grind
  | whole xs p ys us₁ us₂ hn hfs hbest hsize hus =>
    simp only [hfs, hus, List.mem_append, List.mem_cons] at hq ⊢
    grind
  | part xs p ys us₁ us₂ s ss' xs' ys' hn hfs hbest hsize hus hspare hplace =>
    have hmem : q ∈ xs ++ ys ↔ q ∈ xs' ++ ys' := by rw [hplace]
    simp only [hfs, hus, hspare, List.mem_append, List.mem_cons] at hq hmem ⊢
    grind

/-- Freeing takes no new nodes. -/
theorem FreeStep.subset {pointer : Nat} {r : Bool} {us' fs' : List Ptr}
    (hstep : FreeStep a h pointer us fs r us' fs' blk') : us' ++ fs' ⊆ us ++ fs := by
  intro q hq
  cases hstep with
  | none => exact hq
  | some p us₁ us₂ xs ys _ _ hfreed hplace hus hfs hsorted hcoalesce =>
    rcases List.mem_append.mp hq with hq | hq
    · simp only [hus, hfs, List.mem_append, List.mem_cons] at hq ⊢
      grind
    · have hmem := hcoalesce.subset hq
      simp only [hus, hfs, List.mem_append, List.mem_cons] at hmem ⊢
      grind

/-- What a call does is not told by the tail. -/
theorem FreeStep.of_retail {pointer : Nat} {r : Bool} {us' fs' qs : List Ptr}
    (hstep : FreeStep a (h.retail qs) pointer us fs r us' fs' blk') :
    FreeStep a h pointer us fs r us' fs' blk' := by
  cases hstep with
  | none hfreed => exact .none hfreed
  | some p us₁ us₂ xs ys _ _ hfreed hplace hus hfs hsorted hcoalesce =>
    exact .some p us₁ us₂ xs ys fs' blk' hfreed hplace hus hfs hsorted hcoalesce

/-- A call keeps the invariant, unless it takes the last free node by a tail that was left behind. -/
theorem heapAlloc_stale_spec (hst : HeapStale arena h us fs ss h.blockOf)
    (hsafe : ¬h.TakesStale a n) :
    ∃ h' r us' fs' ss' blk', heapAlloc a h n = .ok (h', r) ∧ HeapStale arena h' us' fs' ss' blk' ∧
      AllocStep a n (blockSize a arena.align n) us fs ss h.blockOf r us' fs' ss' blk' := by
  obtain ⟨h', r, us', fs', ss', blk', halloc, hinv', hstep⟩ := heapAlloc_spec hst.inv n
  by_cases htail : h.free.tail = fs.getLast?
  · rw [Heap.retail_eq htail] at halloc
    exact ⟨h', r, us', fs', ss', blk', halloc, hinv'.stale, hstep⟩
  · obtain ⟨t, ht, hs⟩ := hst.stale
    have hlast : n ≠ 0 → ¬TakesLast a h.blockOf (blockSize a h.align n) fs := by
      intro hn htakes
      apply hsafe
      rw [Heap.TakesStale, hst.listNodes_free]
      exact ⟨hn, htail, htakes⟩
    obtain ⟨h₁', halloc', hs'⟩ := heapAlloc_stale hs hst.inv
      (fun hmem => ht (by simp [hmem])) hlast halloc
    exact ⟨h₁', r, us', fs', ss', blk', halloc', .of_stale hinv' hs' fun hmem => ht (hstep.subset hmem),
      hstep⟩

/-- Every call keeps the invariant. -/
theorem heapFree_stale_spec (hst : HeapStale arena h us fs ss blk) (pointer : Nat) :
    ∃ h' r us' fs' blk', heapFree a h pointer = .ok (h', r) ∧
      HeapStale arena h' us' fs' ss blk' ∧ FreeStep a h pointer us fs r us' fs' blk' := by
  obtain ⟨h', r, us', fs', blk', hfree, hinv', hstep, htail⟩ := heapFree_spec hst.inv pointer
  obtain ⟨t, ht, hs⟩ := hst.stale
  obtain ⟨h₁', hfree', l, hl, rfl⟩ := heapFree_stale hs hst.inv (fun hmem => ht (by simp [hmem])) hfree
  refine ⟨_, r, us', fs', blk', hfree', ?_, hstep.of_retail⟩
  have ht' : t ∉ us' ++ (fs' ++ ss) := by
    intro hmem
    have hsub : t ∈ us' ++ fs' → t ∈ us ++ fs := fun h => hstep.subset h
    simp only [List.mem_append] at hmem hsub ht
    grind
  rcases hl with rfl | rfl
  · -- the tail the call left is right or stale
    refine ⟨hinv', ?_⟩
    rcases htail with ⟨-, htail⟩ | ⟨-, hstale⟩
    · exact .inl htail
    · exact .inr hstale
  · exact ⟨hinv', .inr ⟨t, rfl, ht'⟩⟩

end DVP.Sosal
