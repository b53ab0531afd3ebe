import DVP.Kgraph.TranslateCalls

/-!
# Runs of translations

A run translates and removes pointers, in any order. The state has the translations that were answered with a
remote address and whose pointer was not removed since.

* `XlateInv.forward`, `XlateInv.remove`: the calls keep the invariant of the runs.
* `xlate_consistent`: in every run that finds room in the blocks it writes, the hashes are inverse to each
  other, and what was translated is translated back, and again as it was.
-/

namespace DVP.Kgraph

open DVP.Sosal

/-- A pointer that was translated for a core. -/
structure Grant where
  core : Core
  localAddr : FphKey
  memType : MemType
  /-- What `dvp_rpc_mem_xlate_fwrd` returned. -/
  addr : Nat

/-- The state of a run. -/
structure XlateUse where
  rpc : RcmRpc
  granted : List Grant

inductive XlateOp where
  | forward (core : Core) (localAddr : FphKey) (localSize : Nat) (memType : MemType)
    (answers : MapAnswers)
  | remove (localAddr : FphKey) (localSize : Nat) (memType : MemType)

variable (a : Arch) (enabled : Core → Bool)

/-- The hashes that `dvp_rpc_init` makes for one mapping. -/
def twoWayInit : TwoWay where
  forward := fphInit a dvpRpcNumBlocks dvpRpcBlockSize none
  backward := fphInit a dvpRpcNumBlocks dvpRpcBlockSize none

/-- The state that `dvp_rpc_init` makes, when its allocations succeed. -/
def xlateInit : XlateUse where
  rpc := {
    locked := false
    rpu := fun _ _ => twoWayInit a
    mpuTiler := twoWayInit a
    mapped := ⟨fun _ => ∅, ∅⟩
  }
  granted := []

/-- A call. A translation answers the address. -/
def xlateStep (s : XlateUse) : XlateOp → Except Fault (XlateUse × Option Nat)
  | .forward core p localSize memType answers => do
    let (addr, rpc) ← dvpRpcMemXlateFwrd a enabled s.rpc core p localSize memType answers
    -- `NULL` says that the pointer was not translated.
    let granted := if addr ≠ 0 then ⟨core, p, memType, addr⟩ :: s.granted else s.granted
    return (⟨rpc, granted⟩, some addr)
  | .remove p localSize memType => do
    let rpc ← dvpRpcMemRemove a enabled s.rpc p localSize memType
    return (⟨rpc, s.granted.filter fun g => g.localAddr ≠ p⟩, none)

/-- The addresses that the mapping services answer are not mapped at present. -/
def Fresh (s : XlateUse) : XlateOp → Prop
  | .forward _ _ _ _ answers =>
    (∀ c ∈ remoteCores enabled, FreshOn s.rpc answers c) ∧ FreshTiler s.rpc answers
  | .remove .. => True

/-- The core of a translation is an enabled remote core, and the mapping services answer with new addresses
that are not `NULL`. -/
def Served (s : XlateUse) : XlateOp → Prop
  | .forward core p localSize memType answers =>
    core.remote? ≠ none ∧ enabled core = true ∧
      Fresh enabled s (.forward core p localSize memType answers) ∧
      answers.tiler ≠ none ∧ ∀ c ∈ remoteCores enabled, answers.remote c ≠ none
  | .remove .. => True

/-- A translation that has to map its pointer finds room in the blocks that it writes. -/
def FindsRoom (s : XlateUse) : XlateOp → Prop
  | .forward core p _ memType answers =>
    if memType = .mpucached1dtiled then
      fphGet a s.rpc.mpuTiler.forward p = .ok (0, 0) →
        ∀ q ∈ answers.tiler, s.rpc.mpuTiler.HasRoom p q ∧
          ∀ c ∈ remoteCores enabled, ∀ x ∈ answers.remote c, (s.rpc.rpu .tiler c).HasRoom q x
    else
      ∀ c ∈ core.remote?, fphGet a (s.rpc.rpu .mpu c).forward p = .ok (0, 0) →
        ∀ c ∈ remoteCores enabled, ∀ x ∈ answers.remote c, (s.rpc.rpu .mpu c).HasRoom p x
  | .remove .. => True

section Decidability

variable (rpc : RcmRpc) (answers : MapAnswers) (s : XlateUse)

instance (c : RemoteCore) : Decidable (FreshOn rpc answers c) :=
  inferInstanceAs (Decidable (∀ addr ∈ answers.remote c, addr ∉ rpc.mapped.remote c))

instance : Decidable (FreshTiler rpc answers) :=
  decidable_of_iff (∀ q ∈ answers.tiler, ∀ pair ∈ rpc.mapped.tiler, pair.2 ≠ q) <| by
    constructor
    · intro h q hq p hmem
      exact h q hq _ hmem rfl
    · rintro h q hq ⟨p, q'⟩ hmem rfl
      exact h q' hq p hmem

instance (op : XlateOp) : Decidable (Fresh enabled s op) :=
  match op with
  | .forward .. => inferInstanceAs (Decidable (_ ∧ _))
  | .remove .. => inferInstanceAs (Decidable True)

instance (op : XlateOp) : Decidable (Served enabled s op) :=
  match op with
  | .forward .. => inferInstanceAs (Decidable (_ ∧ _ ∧ _ ∧ _ ∧ _))
  | .remove .. => inferInstanceAs (Decidable True)

instance (op : XlateOp) : Decidable (FindsRoom a enabled s op) :=
  match op with
  | .forward .. =>
    @instDecidableIte _ _ _ _ (inferInstanceAs (Decidable (_ → _))) (inferInstanceAs (Decidable (∀ _, _)))
  | .remove .. => inferInstanceAs (Decidable True)

end Decidability

/-- The hashes are inverse to each other, and every pointer that was translated is translated back, and
again as it was. -/
structure XlateConsistent (s : XlateUse) : Prop where
  rpu : ∀ space c, (s.rpc.rpu space c).Inverse a
  mpuTiler : s.rpc.mpuTiler.Inverse a
  back : ∀ g ∈ s.granted,
    dvpRpcMemXlateBack a enabled s.rpc g.core g.addr g.memType = .ok g.localAddr.val
  again : ∀ g ∈ s.granted, ∀ localSize answers,
    dvpRpcMemXlateFwrd a enabled s.rpc g.core g.localAddr localSize g.memType answers =
      .ok (g.addr, s.rpc)

/-! ## The invariant -/

variable {a enabled} {s s' : XlateUse} {rpc rpc' : RcmRpc} {t t' : Translations} {core : Core}
  {p : FphKey} {localSize : Nat} {memType : MemType} {answers : MapAnswers}

/-- The hashes have what was answered for a pointer. -/
def GrantOk (enabled : Core → Bool) (t : Translations) (g : Grant) : Prop :=
  ∃ c : RemoteCore, g.core = c.toCore ∧ enabled g.core = true ∧ ∃ x : FphKey, g.addr = x.val ∧
    if g.memType = .mpucached1dtiled then
      ∃ q, t.mpuTiler g.localAddr = some q ∧ t.tilerMpu q = some g.localAddr ∧
        t.rpu .tiler c q = some x
    else t.rpu .mpu c g.localAddr = some x

theorem GrantOk.mono {g : Grant} (h : GrantOk enabled t g) (hkept : Kept t t') :
    GrantOk enabled t' g := by
  obtain ⟨c, hcore, henabled, x, hx, hheld⟩ := h
  refine ⟨c, hcore, henabled, x, hx, ?_⟩
  split at hheld
  · next htype =>
    obtain ⟨q, hq, hp, hqx⟩ := hheld
    rw [if_pos htype]
    exact ⟨q, hkept.mpuTiler _ _ hq, hkept.tilerMpu _ _ hp, hkept.rpu _ _ _ _ hqx⟩
  · next htype =>
    rw [if_neg htype]
    exact hkept.rpu _ _ _ _ hheld

/-- What holds between two calls. -/
structure XlateHolds (enabled : Core → Bool) (s : XlateUse) (t : Translations) : Prop
    extends RcmInv enabled s.rpc t where
  unlocked : s.rpc.locked = false
  remembered : TilerRemembered s.rpc t
  grants : ∀ g ∈ s.granted, GrantOk enabled t g

/-! ## Forward translation -/

/-- A translation that returns keeps the invariant of the hashes. If it found room for a new tiler address, it
has the answer in the hashes. -/
theorem xlateFwrd_spec {n : Nat} (h : RcmInv enabled rpc t) (hlocked : rpc.locked = false)
    (hfresh : ∀ c ∈ remoteCores enabled, FreshOn rpc answers c) (hfreshTiler : FreshTiler rpc answers)
    (hok : dvpRpcMemXlateFwrd a enabled rpc core p localSize memType answers = .ok (n, rpc')) :
    ∃ t', RcmInv enabled rpc' t' ∧ rpc'.locked = false ∧ Kept t t' ∧
      ((memType = .mpucached1dtiled → t.mpuTiler p = none →
          ∀ q, answers.tiler = some q → TilerRoom rpc p q) →
        TilerRemembered rpc t → TilerRemembered rpc' t' ∧
          (enabled core = true → core.remote? ≠ none →
            GrantOk enabled t' ⟨core, p, memType, n⟩)) := by
  cases henabled : enabled core with
  | false =>
    rw [xlateFwrd_disabled hlocked henabled] at hok
    cases hok
    exact ⟨t, h, hlocked, Kept.refl, fun _ hremembered => ⟨hremembered, fun h => by cases h⟩⟩
  | true =>
    obtain ⟨y, hbranch, hunwind, rfl, rfl⟩ := xlateFwrd_ok h hlocked henabled hfreshTiler hok
    rw [xlateBranch] at hbranch
    by_cases htype : memType = .mpucached1dtiled
    · rw [if_pos htype] at hbranch
      obtain ⟨t', q, hinv, -, hkept, hpq, hx, hremembered⟩ :=
        xlateTiled_ok (h.relock true) henabled hfresh hfreshTiler hbranch hunwind
      refine ⟨t', hinv.relock false, rfl, hkept, fun hroom hold => ?_⟩
      -- the pointer is in both hashes of the tiler, and its tiler address in those of the core
      have hnew := hremembered (hroom htype) hold
      refine ⟨hnew, fun _ hremote => ?_⟩
      obtain ⟨c, hc⟩ := Option.ne_none_iff_exists'.mp hremote
      obtain ⟨x, hqx, haddr⟩ := hx c (Core.toCore_of_remote? hc)
      refine ⟨c, Core.toCore_of_remote? hc, henabled, x, haddr, ?_⟩
      rw [if_pos htype]
      exact ⟨q, (hnew p q hpq).1, (hnew p q hpq).2, hqx⟩
    · rw [if_neg htype] at hbranch
      obtain ⟨t', hinv, -, hkept, htiler, hmpuTiler, htilerMpu, hx⟩ :=
        xlateLocal_ok (h.relock true) henabled hfresh hbranch hunwind
      refine ⟨t', hinv.relock false, rfl, hkept, fun _ hold => ⟨fun p' q' hmem => ?_,
        fun _ hremote => ?_⟩⟩
      · rw [hmpuTiler, htilerMpu]
        have hmem' : (p', q') ∈ y.rpc.mapped.tiler := hmem
        rw [htiler] at hmem'
        exact hold p' q' hmem'
      · obtain ⟨c, hc⟩ := Option.ne_none_iff_exists'.mp hremote
        obtain ⟨x, hpx, haddr⟩ := hx c (Core.toCore_of_remote? hc)
        refine ⟨c, Core.toCore_of_remote? hc, henabled, x, haddr, ?_⟩
        rw [if_neg htype]
        exact hpx

/-- With room a translation returns. -/
theorem xlateFwrd_room (localSize : Nat) (h : RcmInv enabled rpc t) (hlocked : rpc.locked = false)
    (henabled : enabled core = true)
    (hfresh : ∀ c ∈ remoteCores enabled, FreshOn rpc answers c) (hfreshTiler : FreshTiler rpc answers)
    (htiled : memType = .mpucached1dtiled → TiledRoom enabled rpc t p answers)
    (hlocal : memType ≠ .mpucached1dtiled → LocalRoom enabled rpc t p answers) :
    ∃ n rpc', dvpRpcMemXlateFwrd a enabled rpc core p localSize memType answers = .ok (n, rpc') := by
  rw [xlateFwrd_enabled hlocked henabled, xlateBranch]
  by_cases htype : memType = .mpucached1dtiled
  · obtain ⟨y, hxlate, hunwind⟩ := xlateTiled_room (a := a) core (h.relock true) hfresh
      hfreshTiler (htiled htype)
    rw [if_pos htype, hxlate, ok_bind, hunwind]
    exact ⟨_, _, rfl⟩
  · obtain ⟨y, hxlate, hunwind⟩ := xlateLocal_room (a := a) core (h.relock true) henabled hfresh
      (hlocal htype)
    rw [if_neg htype, hxlate, ok_bind, hunwind]
    exact ⟨_, _, rfl⟩

/-- A pointer that is in the hashes is translated from them. -/
theorem xlateFwrd_again {g : Grant} (h : RcmInv enabled rpc t) (hlocked : rpc.locked = false)
    (hg : GrantOk enabled t g) :
    dvpRpcMemXlateFwrd a enabled rpc g.core g.localAddr localSize g.memType answers =
      .ok (g.addr, rpc) := by
  obtain ⟨c, hcore, henabled, x, hx, hheld⟩ := hg
  rw [xlateFwrd_enabled hlocked henabled, xlateBranch]
  split at hheld
  · next htype =>
    obtain ⟨q, hq, -, hqx⟩ := hheld
    obtain ⟨n, hxlate, hn⟩ := xlateTiled_found (a := a) g.core answers (h.relock true).toRcmHolds hq
    rw [if_pos htype, hxlate, ok_bind, hn c hcore x hqx, hx]
    change Except.ok (x.val, { rpc with locked := true }.unlock) = _
    rw [RcmRpc.unlock_eq hlocked]
  · next htype =>
    have hc : hashCore enabled g.core = some c := by
      rw [hashCore, hcore, if_neg c.toCore_ne_cpu, c.remote?_toCore]
    rw [if_neg htype, xlateLocal_found (h.relock true).toRcmHolds hc hheld, ok_bind, hx]
    change Except.ok (x.val, { rpc with locked := true }.unlock) = _
    rw [RcmRpc.unlock_eq hlocked]

/-- A remote address that was answered is translated back. -/
theorem xlateBack_of_grant {g : Grant} (h : RcmInv enabled rpc t) (hlocked : rpc.locked = false)
    (hg : GrantOk enabled t g) :
    dvpRpcMemXlateBack a enabled rpc g.core g.addr g.memType = .ok g.localAddr.val := by
  obtain ⟨c, hcore, henabled, x, hx, hheld⟩ := hg
  rw [hcore] at henabled
  rw [hcore, hx]
  split at hheld
  · next htype =>
    obtain ⟨q, -, hp, hqx⟩ := hheld
    rw [htype]
    exact xlateBack_tiled h hlocked henabled hqx hp
  · next htype => exact xlateBack_local h hlocked henabled htype hheld

theorem xlateHolds_init : ∃ t, XlateHolds enabled (xlateInit a) t := by
  have hempty : FphHolds ⟨fphInit a dvpRpcNumBlocks dvpRpcBlockSize none, fun _ => none⟩ :=
    fphHolds_init (by decide) (by cases a <;> (unfold SlotsFit; decide))
      (keyFuncValid_fphHash (by decide) (by decide))
  refine ⟨⟨fun _ _ => ⊥, fun _ => none, fun _ => none⟩, ⟨⟨⟨fun _ _ => ⟨hempty, hempty⟩, hempty, hempty,
    ?_, ?_, ?_, ?_, ?_, ?_, ?_⟩, ?_, ?_⟩, rfl, ?_, ?_⟩⟩
  · exact fun _ _ _ _ => rfl
  · exact fun _ _ _ _ h => by cases h
  · exact fun _ _ _ _ h => by cases h
  · exact fun _ _ _ h => by cases h
  · exact fun _ _ h => by cases h
  · exact fun _ _ h => by cases h
  · exact fun _ _ _ h => absurd h (Finset.notMem_empty _)
  · exact fun _ _ _ _ _ _ => rfl
  · exact fun _ _ _ h => absurd h (Finset.notMem_empty _)
  · exact fun _ _ h => absurd h (Finset.notMem_empty _)
  · exact fun g hg => absurd hg List.not_mem_nil

/-! ## Steps -/

/-- `FindsRoom` in terms of what the hashes hold. -/
theorem FindsRoom.tiled (h : XlateHolds enabled s t)
    (hserved : Served enabled s (.forward core p localSize memType answers))
    (hroom : FindsRoom a enabled s (.forward core p localSize memType answers))
    (htype : memType = .mpucached1dtiled) : TiledRoom enabled s.rpc t p answers := by
  obtain ⟨-, -, -, htiler, hremote⟩ := hserved
  intro hp
  obtain ⟨q, hq⟩ := Option.ne_none_iff_exists'.mp htiler
  rw [FindsRoom, if_pos htype] at hroom
  obtain ⟨hboth, hcores⟩ := hroom (h.mpuTiler.get_none hp) q hq
  refine ⟨q, hq, hboth, fun c hc => ?_⟩
  obtain ⟨x, hx⟩ := Option.ne_none_iff_exists'.mp (hremote c hc)
  exact ⟨x, hx, hcores c hc x hx⟩

theorem FindsRoom.local (h : XlateHolds enabled s t)
    (hserved : Served enabled s (.forward core p localSize memType answers))
    (hroom : FindsRoom a enabled s (.forward core p localSize memType answers))
    (htype : memType ≠ .mpucached1dtiled) : LocalRoom enabled s.rpc t p answers := by
  obtain ⟨hcore, henabled, -, -, hremote⟩ := hserved
  obtain ⟨c, hc⟩ := Option.ne_none_iff_exists'.mp hcore
  intro d hd hp
  have hcEnabled : enabled c.toCore = true := Core.toCore_of_remote? hc ▸ henabled
  rw [FindsRoom, if_neg htype] at hroom
  -- The hashes of the core of the call say that the pointer is mapped on no core.
  have hget := (h.rpu .mpu c).forward.get_none (a := a)
    (h.uniform p d c (mem_remoteCores.mp hd) hcEnabled hp)
  obtain ⟨x, hx⟩ := Option.ne_none_iff_exists'.mp (hremote d hd)
  exact ⟨x, hx, hroom c hc hget d hd x hx⟩

/-- A translation that finds room keeps the invariant, and does not answer `NULL`. -/
theorem XlateHolds.forward (h : XlateHolds enabled s t)
    (hserved : Served enabled s (.forward core p localSize memType answers))
    (hroom : FindsRoom a enabled s (.forward core p localSize memType answers)) :
    ∃ n s' t', xlateStep a enabled s (.forward core p localSize memType answers) = .ok (s', some n) ∧
      n ≠ 0 ∧ XlateHolds enabled s' t' := by
  have hlocal := FindsRoom.local h hserved hroom
  have htiled := FindsRoom.tiled h hserved hroom
  obtain ⟨hcore, henabled, ⟨hfresh, hfreshTiler⟩, -, -⟩ := hserved
  obtain ⟨n, rpc', hok⟩ := xlateFwrd_room (a := a) localSize h.toRcmInv h.unlocked henabled
    hfresh hfreshTiler htiled hlocal
  obtain ⟨t', hinv, hunlocked, hkept, hnew⟩ := xlateFwrd_spec h.toRcmInv h.unlocked hfresh hfreshTiler hok
  obtain ⟨hremembered, hgrant⟩ := hnew (fun htype hp q hq => by
    obtain ⟨q', hq', hboth, -⟩ := htiled htype hp
    cases hq'.symm.trans hq
    exact hboth) h.remembered
  have hg := hgrant henabled hcore
  have hn : n ≠ 0 := by
    obtain ⟨c, -, -, x, hx, -⟩ := hg
    change n = x.val at hx
    rw [hx]
    exact x.property
  refine ⟨n, ⟨rpc', ⟨core, p, memType, n⟩ :: s.granted⟩, t', ?_, hn, hinv, hunlocked, hremembered,
    List.forall_mem_cons.mpr ⟨hg, fun g hmem => (h.grants g hmem).mono hkept⟩⟩
  simp only [xlateStep, hok, ok_bind, hn, ne_eq, not_false_eq_true, if_true]
  rfl

/-- What was answered for another pointer is still in the hashes when a tiler address is removed. -/
theorem GrantOk.of_remove_tiler {g : Grant} {q : FphKey} (h : GrantOk enabled t g)
    (hapart : ∀ q', t.mpuTiler g.localAddr = some q' → q' ≠ q) (hne : g.localAddr ≠ p)
    (hremoved : TilerRemoved p q t t') : GrantOk enabled t' g := by
  obtain ⟨c, hcore, henabled, x, hx, hheld⟩ := h
  refine ⟨c, hcore, henabled, x, hx, ?_⟩
  split at hheld
  · next htype =>
    obtain ⟨q', hq', hp', hqx⟩ := hheld
    have hqq := hapart q' hq'
    rw [if_pos htype]
    refine ⟨q', ?_, ?_, ?_⟩
    · rw [hremoved.mpuTiler, Function.update_of_ne hne]
      exact hq'
    · rw [hremoved.tilerMpu, Function.update_of_ne hqq]
      exact hp'
    · rw [hremoved.tiler, if_neg hqq]
      exact hqx
  · next htype =>
    rw [if_neg htype, hremoved.mpu]
    exact hheld

/-- What was answered for another pointer is still in the hashes when a pointer is removed. -/
theorem GrantOk.of_remove_local {g : Grant} (h : GrantOk enabled t g) (hne : g.localAddr ≠ p)
    (hremoved : LocalRemoved p t t') : GrantOk enabled t' g := by
  obtain ⟨c, hcore, henabled, x, hx, hheld⟩ := h
  refine ⟨c, hcore, henabled, x, hx, ?_⟩
  rw [hremoved.mpuTiler, hremoved.tilerMpu, hremoved.tiler, hremoved.mpu, if_neg hne]
  exact hheld

/-- A removal keeps the invariant. -/
theorem XlateHolds.remove (h : XlateHolds enabled s t) (p : FphKey) (localSize : Nat)
    (memType : MemType) :
    ∃ s' t', xlateStep a enabled s (.remove p localSize memType) = .ok (s', none) ∧
      XlateHolds enabled s' t' := by
  have hstep : ∀ rpc', dvpRpcMemRemove a enabled s.rpc p localSize memType = .ok rpc' →
      xlateStep a enabled s (.remove p localSize memType) =
        .ok (⟨rpc', s.granted.filter fun g => g.localAddr ≠ p⟩, none) := fun rpc' hok => by
    rw [xlateStep, hok]
    rfl
  -- The pointer itself is taken out of what was answered.
  have hother : ∀ g ∈ s.granted.filter fun g => g.localAddr ≠ p,
      g.localAddr ≠ p ∧ GrantOk enabled t g := fun g hg => by
    obtain ⟨hmem, hne⟩ := List.mem_filter.mp hg
    exact ⟨of_decide_eq_true hne, h.grants g hmem⟩
  by_cases htype : memType = .mpucachedVirtual
  · subst htype
    cases hp : t.mpuTiler p with
    | none =>
      refine ⟨_, t, hstep s.rpc (remove_tiler_none h.toRcmInv h.unlocked hp), h.toRcmInv, h.unlocked,
        h.remembered, fun g hg => (hother g hg).2⟩
    | some q =>
      obtain ⟨rpc', t', hok, hunlocked, hinv, hremoved, hmem⟩ :=
        remove_tiler_spec (a := a) localSize h.toRcmInv h.unlocked hp
      -- No other pointer has the tiler address that is removed.
      have hapart : ∀ p' q', p' ≠ p → t.mpuTiler p' = some q' → q' ≠ q := by
        rintro p' q' hpp hp' rfl
        exact hpp (h.tiler_unique p' p q' (h.mpuTiler_tiler p' q' hp') (h.mpuTiler_tiler p q' hp))
      refine ⟨_, t', hstep rpc' hok, hinv, hunlocked, fun p' q' hmem' => ?_, fun g hg => ?_⟩
      · obtain ⟨hold, hqq⟩ := (hmem p' q').mp hmem'
        obtain ⟨hforward, hbackward⟩ := h.remembered p' q' hold
        have hpp : p' ≠ p := by
          rintro rfl
          exact hqq (Option.some.inj (hforward.symm.trans hp))
        rw [hremoved.mpuTiler, hremoved.tilerMpu, Function.update_of_ne hpp, Function.update_of_ne hqq]
        exact ⟨hforward, hbackward⟩
      · obtain ⟨hne, hgrant⟩ := hother g hg
        exact hgrant.of_remove_tiler (hapart g.localAddr · hne) hne hremoved
  · obtain ⟨rpc', t', hok, hunlocked, hinv, hremoved, hmem⟩ :=
      remove_local_spec (a := a) p localSize h.toRcmInv h.unlocked htype
    refine ⟨_, t', hstep rpc' hok, hinv, hunlocked, fun p' q' hmem' => ?_, fun g hg => ?_⟩
    · rw [hremoved.mpuTiler, hremoved.tilerMpu]
      exact h.remembered p' q' (hmem ▸ hmem')
    · obtain ⟨hne, hgrant⟩ := hother g hg
      exact hgrant.of_remove_local hne hremoved

/-- The invariant says what the translations do. -/
theorem XlateHolds.consistent (h : XlateHolds enabled s t) : XlateConsistent a enabled s where
  rpu space c := (h.rpu space c).inverse
  mpuTiler := TwoWay.inverse_of_maps h.mpuTiler h.tilerMpu fun p q =>
    ⟨fun hp => (h.remembered p q (h.mpuTiler_tiler p q hp)).2,
      fun hq => (h.remembered p q (h.tilerMpu_tiler p q hq)).1⟩
  back g hg := xlateBack_of_grant h.toRcmInv h.unlocked (h.grants g hg)
  again g hg _ _ := xlateFwrd_again h.toRcmInv h.unlocked (h.grants g hg)

/-- A call that finds room keeps the invariant. -/
theorem XlateHolds.step (h : XlateHolds enabled s t) {op : XlateOp} (hserved : Served enabled s op)
    (hroom : FindsRoom a enabled s op) :
    ∃ s' r t', xlateStep a enabled s op = .ok (s', r) ∧ r ≠ some 0 ∧ XlateHolds enabled s' t' := by
  cases op with
  | forward core p localSize memType answers =>
    obtain ⟨n, s', t', hstep, hn, hholds⟩ := h.forward hserved hroom
    exact ⟨s', some n, t', hstep, fun heq => hn (Option.some.inj heq), hholds⟩
  | remove p localSize memType =>
    obtain ⟨s', t', hstep, hholds⟩ := h.remove (a := a) p localSize memType
    exact ⟨s', none, t', hstep, nofun, hholds⟩

/-! ## The main result -/

/-- In every run that finds room in the blocks it writes, every call returns, no translation fails, and the
translations are consistent. -/
theorem xlate_consistent (a : Arch) (enabled : Core → Bool) (ops : List XlateOp)
    (hserved : Machine.Meets (xlateStep a enabled) (Served enabled) (xlateInit a) ops)
    (hroom : Machine.Meets (xlateStep a enabled) (FindsRoom a enabled) (xlateInit a) ops) :
    (∃ s rs, Machine.run (xlateStep a enabled) (xlateInit a) ops = .ok (s, rs) ∧
      ∀ r ∈ rs, r ≠ some 0) ∧
    Machine.Always (xlateStep a enabled) (XlateConsistent a enabled) (xlateInit a) ops := by
  have hinit : ∃ t, XlateHolds enabled (xlateInit a) t := xlateHolds_init
  constructor
  · obtain ⟨s, rs, hrun, -, hrs⟩ := Machine.run_invariant_answers
      (I := fun s => ∃ t, XlateHolds enabled s t) (G := fun r => r ≠ some 0)
      (fun s op ⟨t, h⟩ hC => by
        obtain ⟨s', r, t', hstep, hr, h'⟩ := h.step hC.1 hC.2
        exact ⟨s', r, hstep, ⟨t', h'⟩, hr⟩) hinit (hserved.and hroom)
    exact ⟨s, rs, hrun, hrs⟩
  · refine Machine.Always.of_invariant (I := fun s => ∃ t, XlateHolds enabled s t)
      (fun s ⟨t, h⟩ => h.consistent) (fun s op s' r ⟨t, h⟩ hC hstep => ?_) hinit (hserved.and hroom)
    obtain ⟨s₁, r₁, t₁, hstep₁, -, h₁⟩ := h.step hC.1 hC.2
    rw [hstep₁] at hstep
    cases hstep
    exact ⟨t₁, h₁⟩

/-- The platform with the one remote core that is always enabled. -/
def onlySimcop (core : Core) : Bool := core = remoteSimcop.toCore

/-- A translation by way of the tiler. The pointers are all in one block, and the addresses that they are mapped
to are in two. -/
def forwardTiled (n : Nat) : XlateOp :=
  let addr : FphKey := ⟨n % 2 * 256 + n / 2 * 16384 + 1, Nat.succ_ne_zero _⟩
  .forward remoteSimcop.toCore ⟨n * 16384 + 4, Nat.succ_ne_zero _⟩ 64 .mpucached1dtiled
    ⟨some addr, fun _ => some addr⟩

/-- A pointer by way of the tiler and one without it, the first of which is removed. -/
def twoPointers : List XlateOp :=
  [forwardTiled 0,
    .forward remoteSimcop.toCore ⟨2, by decide⟩ 64 .mpucachedVirtual
      ⟨some ⟨2, by decide⟩, fun _ => some ⟨2, by decide⟩⟩,
    .remove ⟨4, by decide⟩ 64 .mpucachedVirtual]

theorem xlate_consistent_twoPointers :
    (∃ s rs, Machine.run (xlateStep .arch32 onlySimcop) (xlateInit .arch32) twoPointers = .ok (s, rs) ∧
      ∀ r ∈ rs, r ≠ some 0) ∧
    Machine.Always (xlateStep .arch32 onlySimcop) (XlateConsistent .arch32 onlySimcop)
      (xlateInit .arch32) twoPointers :=
  xlate_consistent .arch32 onlySimcop twoPointers (Machine.check_eq_true_iff.mp (by decide +kernel))
    (Machine.check_eq_true_iff.mp (by decide +kernel))

/-- The tiler address of a pointer is found backward but not forward. -/
def TilerForgotten (s : XlateUse) (p q : Nat) : Prop :=
  fphGet .arch32 s.rpc.mpuTiler.forward p = .ok (0, 0) ∧
    fphGet .arch32 s.rpc.mpuTiler.backward q = .ok (1, p)

instance (s : XlateUse) (p q : Nat) : Decidable (TilerForgotten s p q) :=
  inferInstanceAs (Decidable (_ ∧ _))

/-- The block of `mpu2tiler_hash` is full after 64 pointers. The next one is not remembered there, and no
one notices. -/
theorem mpu2tiler_forgets :
    Machine.Meets (xlateStep .arch32 onlySimcop) (Served onlySimcop) (xlateInit .arch32)
      ((List.range 65).map forwardTiled) ∧
    ¬Machine.Always (xlateStep .arch32 onlySimcop) (XlateConsistent .arch32 onlySimcop)
      (xlateInit .arch32) ((List.range 65).map forwardTiled) := by
  have hrun : ∃ s ∈ Machine.checkedRun (xlateStep .arch32 onlySimcop) (Served onlySimcop)
      (xlateInit .arch32) ((List.range 65).map forwardTiled), TilerForgotten s 1048580 524289 := by
    decide +kernel
  obtain ⟨s, hs, hforward, hbackward⟩ := hrun
  obtain ⟨hmeets, rs, hrun⟩ := Machine.checkedRun_eq_some hs
  refine ⟨hmeets, fun halways => ?_⟩
  have hinverse := (halways.last hrun).mpuTiler ⟨1048580, by decide⟩ ⟨524289, by decide⟩
  cases hforward.symm.trans (hinverse.mpr hbackward)

end DVP.Kgraph
