import DVP.Kgraph.TranslateRuns

/-!
# What a removal leaves in the hashes

`dvp_rpc_mem_xlate_fwrd` goes by way of the tiler for `DVP_MTYPE_MPUCACHED_1DTILED`, but
`dvp_rpc_mem_remove` takes the hashes of the tiler to be those of `DVP_MTYPE_MPUCACHED_VIRTUAL`.

* `dvpRpcMemRemove_complete_iff`: in every state of a run, a removal is complete exactly when the pointer
  is only in the hashes of the branch that it takes.
-/

namespace DVP.Kgraph

open DVP.Sosal

/-- A hash holds the tiler address. -/
def TilerHeld (rpc : RcmRpc) (q : FphKey) : Prop :=
  rpc.mpuTiler.HoldsTarget q ∨ ∃ c, (rpc.rpu .tiler c).HoldsSource q

/-- The remote address of a pointer, with or without the tiler. -/
def MappedTo (rpc : RcmRpc) (p : FphKey) (c : RemoteCore) (x : FphKey) : Prop :=
  FphKv.mk p x ∈ (rpc.rpu .mpu c).forward.hash ∨
    ∃ q, (p, q) ∈ rpc.mapped.tiler ∧ FphKv.mk q x ∈ (rpc.rpu .tiler c).forward.hash

/-- The hashes of `rpc'` hold nothing of what `rpc` has for a pointer: neither the pointer nor its tiler
addresses nor its remote addresses. -/
structure Forgotten (rpc rpc' : RcmRpc) (p : FphKey) : Prop where
  mpu : ∀ c, ¬(rpc'.rpu .mpu c).HoldsSource p
  mpuTiler : ¬rpc'.mpuTiler.HoldsSource p
  tiler : ∀ q, (p, q) ∈ rpc.mapped.tiler → ¬TilerHeld rpc' q
  remote : ∀ c x, MappedTo rpc p c x → ∀ space, ¬(rpc'.rpu space c).HoldsTarget x

/-- The pointer is only in the hashes that `dvp_rpc_mem_remove` clears for the memory type. -/
def RemovalFits (rpc : RcmRpc) (p : FphKey) (memType : MemType) : Prop :=
  if memType = .mpucachedVirtual then
    (∀ c, ¬(rpc.rpu .mpu c).HoldsSource p) ∧
      ∀ q, (p, q) ∈ rpc.mapped.tiler → TilerHeld rpc q → FphKv.mk p q ∈ rpc.mpuTiler.forward.hash
  else ∀ q, (p, q) ∈ rpc.mapped.tiler → ¬TilerHeld rpc q

variable {a : Arch} {enabled : Core → Bool} {rpc rpc' : RcmRpc} {t t' : Translations}
  {c : RemoteCore} {p q x : FphKey} {localSize : Nat} {memType : MemType}

/-! ## The hashes and the invariant -/

namespace RcmHolds

theorem tilerHeld_iff (h : RcmHolds enabled rpc t) : TilerHeld rpc q ↔
    ((∃ p, t.mpuTiler p = some q) ∨ ∃ p, t.tilerMpu q = some p) ∨
      ∃ c x, t.rpu .tiler c q = some x := by
  rw [TilerHeld, TwoWay.HoldsTarget, h.mpuTiler.exists_value_iff, h.tilerMpu.exists_key_iff]
  exact or_congr_right (exists_congr fun c => (h.rpu .tiler c).holdsSource_iff)

theorem holdsSource_mpuTiler_iff (h : RcmHolds enabled rpc t) : rpc.mpuTiler.HoldsSource p ↔
    (∃ q, t.mpuTiler p = some q) ∨ ∃ q, t.tilerMpu q = some p := by
  rw [TwoWay.HoldsSource, h.mpuTiler.exists_key_iff, h.tilerMpu.exists_value_iff]

theorem mappedTo_iff (h : RcmHolds enabled rpc t) : MappedTo rpc p c x ↔
    t.rpu .mpu c p = some x ∨
      ∃ q, (p, q) ∈ rpc.mapped.tiler ∧ t.rpu .tiler c q = some x := by
  rw [MappedTo, (h.rpu .mpu c).forward.mem_iff]
  exact or_congr_right (exists_congr fun q => and_congr_right fun _ => (h.rpu .tiler c).forward.mem_iff)

/-- A pointer that the hashes between pointers and tiler addresses hold has a tiler address that a hash
holds. -/
theorem tilerHeld_of_holdsSource (h : RcmHolds enabled rpc t) (hp : rpc.mpuTiler.HoldsSource p) :
    ∃ q, (p, q) ∈ rpc.mapped.tiler ∧ TilerHeld rpc q := by
  rcases h.holdsSource_mpuTiler_iff.mp hp with ⟨q, hq⟩ | ⟨q, hq⟩
  · exact ⟨q, h.mpuTiler_tiler p q hq, h.tilerHeld_iff.mpr (.inl (.inl ⟨p, hq⟩))⟩
  · exact ⟨q, h.tilerMpu_tiler p q hq, h.tilerHeld_iff.mpr (.inl (.inr ⟨p, hq⟩))⟩

end RcmHolds

/-! ## One removal -/

/-- What a removal forgets that does not look at the hashes of the tiler. -/
theorem forgotten_local_iff (h : RcmHolds enabled rpc t) (h' : RcmHolds enabled rpc' t')
    (hremoved : LocalRemoved p t t') (hmapped : rpc'.mapped.tiler = rpc.mapped.tiler) :
    Forgotten rpc rpc' p ↔ ∀ q, (p, q) ∈ rpc.mapped.tiler → ¬TilerHeld rpc q := by
  have hheld : ∀ q, TilerHeld rpc' q ↔ TilerHeld rpc q := fun q => by
    rw [h'.tilerHeld_iff, h.tilerHeld_iff, hremoved.tiler, hremoved.mpuTiler,
      hremoved.tilerMpu]
  constructor
  · intro hforgotten q hq
    rw [← hheld]
    exact hforgotten.tiler q hq
  · intro hfits
    refine ⟨fun c hp => ?_, fun hp => ?_, fun q hq => ?_, fun c x hx space hheldx => ?_⟩
    · obtain ⟨x, hx⟩ := (h'.rpu .mpu c).holdsSource_iff.mp hp
      rw [hremoved.mpu, if_pos rfl] at hx
      cases hx
    · obtain ⟨q, hq, hqheld⟩ := h'.tilerHeld_of_holdsSource hp
      exact hfits q (hmapped ▸ hq) ((hheld q).mp hqheld)
    · rw [hheld]
      exact hfits q hq
    · rcases h.mappedTo_iff.mp hx with hpx | ⟨q, hq, hqx⟩
      · obtain ⟨k, hk⟩ := (h'.rpu space c).holdsTarget_iff.mp hheldx
        cases space with
        | mpu =>
          -- Another pointer has another remote address.
          rw [hremoved.mpu] at hk
          split at hk
          · cases hk
          · next hne =>
            exact hne ((t.rpu .mpu c).inj (Option.mem_def.mpr hk) (Option.mem_def.mpr hpx))
        | tiler =>
          rw [hremoved.tiler] at hk
          exact h.apart c p k x hpx hk
      · exact hfits q hq (h.tilerHeld_iff.mpr (.inr ⟨c, x, hqx⟩))

/-- What a removal forgets that finds no tiler address and clears nothing. -/
theorem forgotten_none_iff (h : RcmHolds enabled rpc t) (hp : t.mpuTiler p = none) :
    Forgotten rpc rpc p ↔ RemovalFits rpc p .mpucachedVirtual := by
  rw [RemovalFits, if_pos rfl]
  constructor
  · exact fun hforgotten => ⟨hforgotten.mpu, fun q hq hheld => absurd hheld (hforgotten.tiler q hq)⟩
  · rintro ⟨hmpu, htiler⟩
    -- A tiler address that a hash holds would be in `mpu2tiler_hash`.
    have hnot : ∀ q, (p, q) ∈ rpc.mapped.tiler → ¬TilerHeld rpc q := fun q hq hheld => by
      rw [h.mpuTiler.mem_iff.mp (htiler q hq hheld)] at hp
      cases hp
    refine ⟨hmpu, fun hsource => ?_, hnot, fun c x hx => ?_⟩
    · obtain ⟨q, hq, hheld⟩ := h.tilerHeld_of_holdsSource hsource
      exact absurd hheld (hnot q hq)
    · rcases h.mappedTo_iff.mp hx with hpx | ⟨q, hq, hqx⟩
      · exact absurd ((h.rpu .mpu c).holdsSource_iff.mpr ⟨x, hpx⟩) (hmpu c)
      · exact absurd (h.tilerHeld_iff.mpr (.inr ⟨c, x, hqx⟩)) (hnot q hq)

/-- When a tiler address is removed, the hashes hold the other ones. -/
theorem tilerHeld_of_remove_tiler (h : RcmHolds enabled rpc t) (h' : RcmHolds enabled rpc' t')
    (hp : t.mpuTiler p = some q) (hremoved : TilerRemoved p q t t') (q' : FphKey) :
    TilerHeld rpc' q' ↔ q' ≠ q ∧ TilerHeld rpc q' := by
  rw [h'.tilerHeld_iff, h.tilerHeld_iff, hremoved.mpuTiler, hremoved.tilerMpu]
  by_cases hqq : q' = q
  · subst hqq
    refine iff_of_false ?_ fun hand => hand.1 rfl
    rintro ((⟨p', hp'⟩ | ⟨p', hp'⟩) | ⟨c, x, hx⟩)
    · -- Two pointers do not have one tiler address.
      have hpp : p' ≠ p := by
        rintro rfl
        rw [Function.update_self] at hp'
        cases hp'
      rw [Function.update_of_ne hpp] at hp'
      exact hpp (h.tiler_unique p' p q' (h.mpuTiler_tiler p' q' hp') (h.mpuTiler_tiler p q' hp))
    · rw [Function.update_self] at hp'
      cases hp'
    · rw [hremoved.tiler, if_pos rfl] at hx
      cases hx
  · rw [and_iff_right hqq]
    refine or_congr (or_congr (exists_congr fun p' => ?_) ?_) (exists_congr fun c => ?_)
    · by_cases hpp : p' = p
      · subst hpp
        rw [Function.update_self, hp]
        exact iff_of_false (fun h => by cases h) fun h => hqq (Option.some.inj h).symm
      · rw [Function.update_of_ne hpp]
    · rw [Function.update_of_ne hqq]
    · rw [hremoved.tiler, if_neg hqq]

/-- What a removal forgets that clears the hashes of a tiler address. -/
theorem forgotten_tiler_iff (h : RcmHolds enabled rpc t) (h' : RcmHolds enabled rpc' t')
    (hp : t.mpuTiler p = some q) (hremoved : TilerRemoved p q t t') :
    Forgotten rpc rpc' p ↔ RemovalFits rpc p .mpucachedVirtual := by
  have hsource : ∀ c, (rpc'.rpu .mpu c).HoldsSource p ↔ (rpc.rpu .mpu c).HoldsSource p := fun c => by
    rw [(h'.rpu .mpu c).holdsSource_iff, (h.rpu .mpu c).holdsSource_iff, hremoved.mpu]
  have hforward : ∀ q' : FphKey, FphKv.mk p q' ∈ rpc.mpuTiler.forward.hash ↔ q' = q := fun q' => by
    rw [h.mpuTiler.mem_iff, hp, Option.some.injEq, eq_comm]
  -- no tiler address but `q` was given up
  have hheld := tilerHeld_of_remove_tiler h h' hp hremoved
  rw [RemovalFits, if_pos rfl]
  constructor
  · intro hforgotten
    refine ⟨fun c hc => hforgotten.mpu c ((hsource c).mpr hc), fun q' hq' hheldq => ?_⟩
    rw [hforward]
    by_contra hqq
    exact hforgotten.tiler q' hq' ((hheld q').mpr ⟨hqq, hheldq⟩)
  · rintro ⟨hmpuFits, htilerFits⟩
    refine ⟨fun c hc => hmpuFits c ((hsource c).mp hc), fun hp' => ?_, fun q' hq' hheldq => ?_,
      fun c x hx space hheldx => ?_⟩
    · -- Every tiler address of the pointer that was held is the one that was removed.
      rcases h'.holdsSource_mpuTiler_iff.mp hp' with ⟨q', hq'⟩ | ⟨q', hq'⟩
      · rw [hremoved.mpuTiler, Function.update_self] at hq'
        cases hq'
      · have hqq : q' ≠ q := by
          rintro rfl
          rw [hremoved.tilerMpu, Function.update_self] at hq'
          cases hq'
        rw [hremoved.tilerMpu, Function.update_of_ne hqq] at hq'
        exact hqq ((hforward q').mp (htilerFits q' (h.tilerMpu_tiler p q' hq')
          (h.tilerHeld_iff.mpr (.inl (.inr ⟨p, hq'⟩)))))
    · obtain ⟨hqq, hold⟩ := (hheld q').mp hheldq
      exact hqq ((hforward q').mp (htilerFits q' hq' hold))
    · obtain ⟨k, hk⟩ := (h'.rpu space c).holdsTarget_iff.mp hheldx
      rcases h.mappedTo_iff.mp hx with hpx | ⟨q', hq', hqx⟩
      · exact hmpuFits c ((h.rpu .mpu c).holdsSource_iff.mpr ⟨x, hpx⟩)
      · have hqq : q' = q := (hforward q').mp (htilerFits q' hq'
          (h.tilerHeld_iff.mpr (.inr ⟨c, x, hqx⟩)))
        subst hqq
        cases space with
        | mpu =>
          rw [hremoved.mpu] at hk
          exact h.apart c k q' x hk hqx
        | tiler =>
          rw [hremoved.tiler] at hk
          split at hk
          · cases hk
          · next hne =>
            exact hne ((t.rpu .tiler c).inj (Option.mem_def.mpr hk) (Option.mem_def.mpr hqx))

/-- A removal is complete exactly when the pointer is only in the hashes that it clears. -/
theorem remove_forgotten_iff (h : RcmInv enabled rpc t) (hlocked : rpc.locked = false) :
    ∃ rpc', dvpRpcMemRemove a enabled rpc p localSize memType = .ok rpc' ∧
      (Forgotten rpc rpc' p ↔ RemovalFits rpc p memType) := by
  by_cases htype : memType = .mpucachedVirtual
  · subst htype
    cases hp : t.mpuTiler p with
    | none => exact ⟨rpc, remove_tiler_none h hlocked hp, forgotten_none_iff h.toRcmHolds hp⟩
    | some q =>
      obtain ⟨rpc', t', hok, -, hinv, hremoved, -⟩ := remove_tiler_spec (a := a) localSize h hlocked hp
      exact ⟨rpc', hok, forgotten_tiler_iff h.toRcmHolds hinv.toRcmHolds hp hremoved⟩
  · obtain ⟨rpc', t', hok, -, hinv, hremoved, hmapped⟩ :=
      remove_local_spec (a := a) p localSize h hlocked htype
    refine ⟨rpc', hok, ?_⟩
    rw [RemovalFits, if_neg htype]
    exact forgotten_local_iff h.toRcmHolds hinv.toRcmHolds hremoved hmapped

/-! ## Runs -/

/-- What holds between two calls of any run. -/
def RcmReady (enabled : Core → Bool) (s : XlateUse) : Prop :=
  s.rpc.locked = false ∧ ∃ t, RcmInv enabled s.rpc t

/-- A call that returns keeps the invariant. -/
theorem RcmReady.step {s s' : XlateUse} {op : XlateOp} {r : Option Nat} (h : RcmReady enabled s)
    (hfresh : Fresh enabled s op) (hstep : xlateStep a enabled s op = .ok (s', r)) :
    RcmReady enabled s' := by
  obtain ⟨hlocked, t, hinv⟩ := h
  cases op with
  | forward core p localSize memType answers =>
    rw [xlateStep] at hstep
    cases hok : dvpRpcMemXlateFwrd a enabled s.rpc core p localSize memType answers with
    | error fault =>
      rw [hok] at hstep
      cases hstep
    | ok answer =>
      obtain ⟨n, rpc'⟩ := answer
      rw [hok] at hstep
      cases hstep
      obtain ⟨t', hinv', hlocked', -⟩ := xlateFwrd_spec hinv hlocked hfresh.1 hfresh.2 hok
      exact ⟨hlocked', t', hinv'⟩
  | remove p localSize memType =>
    rw [xlateStep] at hstep
    -- it is virtual memory that is looked for in the hashes of the tiler
    by_cases htype : memType = .mpucachedVirtual
    · subst htype
      cases hp : t.mpuTiler p with
      | none =>
        rw [remove_tiler_none hinv hlocked hp] at hstep
        cases hstep
        exact ⟨hlocked, t, hinv⟩
      | some q =>
        obtain ⟨rpc', t', hok, hlocked', hinv', -⟩ :=
          remove_tiler_spec (a := a) localSize hinv hlocked hp
        rw [hok] at hstep
        cases hstep
        exact ⟨hlocked', t', hinv'⟩
    · obtain ⟨rpc', t', hok, hlocked', hinv', -⟩ :=
        remove_local_spec (a := a) p localSize hinv hlocked htype
      rw [hok] at hstep
      cases hstep
      exact ⟨hlocked', t', hinv'⟩

theorem rcmReady_init : RcmReady enabled (xlateInit a) := by
  obtain ⟨t, h⟩ : ∃ t, XlateHolds enabled (xlateInit a) t := xlateHolds_init
  exact ⟨rfl, t, h.toRcmInv⟩

/-- In every state of a run the removal of a pointer returns, and it is complete exactly when the pointer
is only in the hashes that it clears for the memory type. -/
theorem dvpRpcMemRemove_complete_iff (a : Arch) (enabled : Core → Bool) (ops : List XlateOp)
    (hfresh : Machine.Meets (xlateStep a enabled) (Fresh enabled) (xlateInit a) ops) :
    Machine.Always (xlateStep a enabled)
      (fun s => ∀ (p : FphKey) (localSize : Nat) (memType : MemType),
        ∃ rpc', dvpRpcMemRemove a enabled s.rpc p localSize memType = .ok rpc' ∧
          (Forgotten s.rpc rpc' p ↔ RemovalFits s.rpc p memType)) (xlateInit a) ops :=
  Machine.Always.of_invariant (I := RcmReady enabled)
    (fun _ ⟨hlocked, _, hinv⟩ _ _ _ => remove_forgotten_iff hinv hlocked)
    (fun _ _ _ _ hready hC hstep => hready.step hC hstep) rcmReady_init hfresh

theorem two_ne : (2 : Nat) ≠ 0 := by decide

/-- One pointer is translated for SIMCOP. -/
def translateOne (memType : MemType) : List XlateOp :=
  [.forward remoteSimcop.toCore ⟨1, by decide⟩ 64 memType ⟨some ⟨2, two_ne⟩, fun _ => some ⟨3, by decide⟩⟩]

theorem dvpRpcMemRemove_complete_iff_one :
    Machine.Always (xlateStep .arch32 onlySimcop)
      (fun s => ∀ (p : FphKey) (localSize : Nat) (memType : MemType),
        ∃ rpc', dvpRpcMemRemove .arch32 onlySimcop s.rpc p localSize memType = .ok rpc' ∧
          (Forgotten s.rpc rpc' p ↔ RemovalFits s.rpc p memType)) (xlateInit .arch32)
      (translateOne .mpunoncached2dtiled) :=
  dvpRpcMemRemove_complete_iff .arch32 onlySimcop (translateOne .mpunoncached2dtiled)
    (Machine.check_eq_true_iff.mp (by decide +kernel))

/-- One pointer is translated, and its removal for the same memory type does not forget it. -/
def LeavesPointer (memType : MemType) : Prop :=
  Machine.Meets (xlateStep .arch32 onlySimcop) (Fresh onlySimcop) (xlateInit .arch32)
      (translateOne memType) ∧
    ∃ s rs, Machine.run (xlateStep .arch32 onlySimcop) (xlateInit .arch32) (translateOne memType) =
        .ok (s, rs) ∧
      ∃ rpc', dvpRpcMemRemove .arch32 onlySimcop s.rpc 1 64 memType = .ok rpc' ∧
        ¬Forgotten s.rpc rpc' ⟨1, by decide⟩

/-- The pointer of a virtual buffer stays in `mpu2rpu_hash`, and that of a tiled one in
`mpu2tiler_hash`. -/
theorem dvpRpcMemRemove_leaves_pointer :
    LeavesPointer .mpucachedVirtual ∧ LeavesPointer .mpucached1dtiled := by
  have hvirtual : ∃ s ∈ Machine.checkedRun (xlateStep .arch32 onlySimcop) (Fresh onlySimcop)
      (xlateInit .arch32) (translateOne .mpucachedVirtual),
      ∃ rpc' ∈ (dvpRpcMemRemove .arch32 onlySimcop s.rpc 1 64 .mpucachedVirtual).toOption,
        (rpc'.rpu .mpu remoteSimcop).HoldsSource 1 := by
    decide +kernel
  have htiled : ∃ s ∈ Machine.checkedRun (xlateStep .arch32 onlySimcop) (Fresh onlySimcop)
      (xlateInit .arch32) (translateOne .mpucached1dtiled),
      ∃ rpc' ∈ (dvpRpcMemRemove .arch32 onlySimcop s.rpc 1 64 .mpucached1dtiled).toOption,
        rpc'.mpuTiler.HoldsSource 1 := by
    decide +kernel
  constructor
  · obtain ⟨s, hs, rpc', hremove, hheld⟩ := hvirtual
    obtain ⟨hmeets, rs, hrun⟩ := Machine.checkedRun_eq_some hs
    exact ⟨hmeets, s, rs, hrun, rpc', eq_ok_of_mem_toOption hremove, fun h => h.mpu remoteSimcop hheld⟩
  · obtain ⟨s, hs, rpc', hremove, hheld⟩ := htiled
    obtain ⟨hmeets, rs, hrun⟩ := Machine.checkedRun_eq_some hs
    exact ⟨hmeets, s, rs, hrun, rpc', eq_ok_of_mem_toOption hremove, fun h => h.mpuTiler hheld⟩

end DVP.Kgraph
