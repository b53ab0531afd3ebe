import DVP.Kgraph.Rpc.Handles

/-!
# Buffers that come and go

What `dvp_rpc_associate` and `dvp_rpc_dissociate` leave behind. The slot of a base is not freed:
`dvp_rpc_dissociate` stores a `NULL` handle in it, and finds the base there the next time. And
`dvp_rpc_associate` never reports that it could not record a buffer. So in every reachable state a
cycle of the two calls is as it should be exactly when the buffer is refused from the start
(`dvpRpc_cycle_iff`).
-/

namespace DVP.Kgraph

open DVP.Sosal

variable {a : Arch} {b : Build} {rpc rpc' : Rpc} {map : FphKey → Option Nat} {buf : Buffer}
  {ptr handle size : Nat} {mtype : MemType} {mrange : Option Ptr} {alloc alloc' ret : Bool}
  {pHandle : Option Nat}

/-- The buffer is refused before anything is recorded. -/
def Buffer.Refused (b : Build) (buf : Buffer) : Prop :=
  buf.ptr = 0 ∨ buf.size = 0 ∨ b.supports buf.mtype = false

/-- The buffer cannot be recorded: the block of its base is full, there is no memory for its range,
or its range overlaps one of the list. -/
def CannotRecord (rpc : Rpc) (buf : Buffer) (mrange : Option Ptr) : Prop :=
  ¬rpc.hndlHash.HasRoom buf.ptr ∨ mrange = none ∨
    ∃ r ∈ rpc.ranges.values rpc.nodes, ¬r.Apart (memRangeOf buf.ptr buf.size)

/-- The slots of the hash and the list of ranges are the same. -/
structure SameTables (rpc rpc' : Rpc) : Prop where
  hash : rpc'.hndlHash.hash = rpc.hndlHash.hash
  nodes : rpc'.ranges.nodes rpc'.nodes = rpc.ranges.nodes rpc.nodes
  values : rpc'.ranges.values rpc'.nodes = rpc.ranges.values rpc.nodes

theorem SameTables.refl : SameTables rpc rpc := ⟨rfl, rfl, rfl⟩

/-- What is expected of a buffer that is associated in the state `rpc` and dissociated twice. The
states `rpc₁`, `rpc₂` and `rpc₃` are those after the calls, which returned `ret₁` and, the last one,
`ret₃`. -/
structure CycleSound (rpc rpc₁ rpc₂ rpc₃ : Rpc) (ret₁ ret₃ : Bool) (buf : Buffer)
    (mrange : Option Ptr) : Prop where
  /-- A buffer that cannot be recorded is reported, and nothing changes. -/
  failed : CannotRecord rpc buf mrange → ret₁ = false ∧ SameTables rpc rpc₁
  /-- Dissociating the buffer undoes what associating it did. -/
  undone : ret₁ = true → SameTables rpc rpc₂
  /-- No room is lost. -/
  room : ret₁ = true → ∀ k, rpc.hndlHash.HasRoom k → rpc₂.hndlHash.HasRoom k
  /-- Dissociating the buffer again fails, and nothing changes. -/
  again : ret₁ = true → ret₃ = false ∧ SameTables rpc₂ rpc₃

/-! ## What the calls do to the hash -/

/-- `dvp_rpc_associate` returns `DVP_TRUE` for every buffer it does not refuse, whatever `fph_set`
returns. -/
theorem dvpRpcAssociate_ok (hptr : ptr ≠ 0) (hsize : size ≠ 0) (hsupports : b.supports mtype = true)
    (h : dvpRpcAssociate a b rpc ptr handle size mtype mrange alloc alloc' = .ok (rpc', ret)) :
    ret = true ∧ ∃ stored, fphSet a rpc.hndlHash ptr handle = .ok (stored, rpc'.hndlHash) := by
  rw [dvpRpcAssociate, if_neg (by simp [hptr, hsize]), if_neg (by simp [hsupports])] at h
  obtain ⟨⟨nodes, ranges⟩, -, h⟩ := bind_eq_ok h
  obtain ⟨⟨stored, f⟩, hset, h⟩ := bind_eq_ok h
  dsimp only at h
  by_cases hstored : stored = 0
  · rw [if_pos hstored] at h
    obtain ⟨⟨nodes', ranges', mrange'⟩, -, h⟩ := bind_eq_ok h
    obtain ⟨nodes'', -, h⟩ := bind_eq_ok h
    cases h
    exact ⟨rfl, stored, hset⟩
  · rw [if_neg hstored] at h
    cases h
    exact ⟨rfl, stored, hset⟩

/-- `dvp_rpc_dissociate` returns what `fph_get` does, and stores a `NULL` handle if the base is
found. -/
theorem dvpRpcDissociate_ok (hptr : ptr ≠ 0) (hsize : size ≠ 0)
    (hsupports : b.supports mtype = true)
    (h : dvpRpcDissociate a b rpc ptr size mtype alloc = .ok (rpc', ret, pHandle)) :
    (∃ v, fphGet a rpc.hndlHash ptr = .ok (0, v) ∧ ret = false ∧ rpc' = rpc) ∨
      ∃ found v stored, fphGet a rpc.hndlHash ptr = .ok (found, v) ∧ found ≠ 0 ∧ ret = true ∧
        fphSet a rpc.hndlHash ptr 0 = .ok (stored, rpc'.hndlHash) := by
  rw [dvpRpcDissociate, if_neg (by simp [hptr, hsize]), if_neg (by simp [hsupports])] at h
  obtain ⟨⟨found, v⟩, hget, h⟩ := bind_eq_ok h
  dsimp only at h
  by_cases hfound : found = 0
  · rw [if_neg (not_not.mpr hfound)] at h
    cases h
    exact .inl ⟨v, by rw [hget, hfound], rfl, rfl⟩
  · rw [if_pos hfound] at h
    obtain ⟨⟨stored, f⟩, hset, h⟩ := bind_eq_ok h
    obtain ⟨⟨nodes, ranges, mrange⟩, -, h⟩ := bind_eq_ok h
    obtain ⟨nodes', -, h⟩ := bind_eq_ok h
    cases h
    exact .inr ⟨found, v, stored, hget, hfound, rfl, hset⟩

/-- Every call leaves a hash that remembers. -/
theorem rpcStep_remembers {s s' : RpcUse} {o : RpcOp}
    (h : FphRemembers s.rpc.hndlHash map) (hstep : rpcStep a b s o = .ok (s', ret)) :
    ∃ map', FphRemembers s'.rpc.hndlHash map' := by
  cases o with
  | associate buf mrange alloc alloc' =>
    obtain ⟨⟨rpc', ret'⟩, hcall, hstep⟩ := bind_eq_ok hstep
    cases hstep
    by_cases hnull : buf.ptr = 0 ∨ buf.size = 0
    · rw [dvpRpcAssociate, if_pos hnull] at hcall
      cases hcall
      exact ⟨map, h⟩
    -- a call that is refused does not get to the hash
    · cases hsupports : b.supports buf.mtype with
      | false =>
        rw [dvpRpcAssociate, if_neg hnull, if_pos hsupports] at hcall
        cases hcall
        exact ⟨map, h⟩
      | true =>
        rw [not_or] at hnull
        obtain ⟨-, stored, hset⟩ := dvpRpcAssociate_ok hnull.1 hnull.2 hsupports hcall
        exact h.set_ok (k := ⟨buf.ptr, hnull.1⟩) hset
  | dissociate ptr size mtype alloc =>
    obtain ⟨⟨rpc', ret', pHandle⟩, hcall, hstep⟩ := bind_eq_ok hstep
    cases hstep
    by_cases hnull : ptr = 0 ∨ size = 0
    · rw [dvpRpcDissociate, if_pos hnull] at hcall
      cases hcall
      exact ⟨map, h⟩
    · cases hsupports : b.supports mtype with
      | false =>
        rw [dvpRpcDissociate, if_neg hnull, if_pos hsupports] at hcall
        cases hcall
        exact ⟨map, h⟩
      | true =>
        rw [not_or] at hnull
        rcases dvpRpcDissociate_ok hnull.1 hnull.2 hsupports hcall with
          ⟨v, -, -, rfl⟩ | ⟨found, v, stored, -, -, -, hset⟩
        · exact ⟨map, h⟩
        · exact h.set_ok (k := ⟨ptr, hnull.1⟩) hset

/-- The hash of every reachable registry remembers. -/
theorem remembers_of_run {nodes : BtreeMem MemRange} {os : List RpcOp} {s : RpcUse}
    {answers : List Bool}
    (hrun : Machine.run (rpcStep a b) ⟨dvpRpcInit a nodes, []⟩ os = .ok (s, answers)) :
    ∃ map, FphRemembers s.rpc.hndlHash map := by
  refine Machine.run_invariant_of_ok (C := fun _ _ => True)
    (I := fun s => ∃ map, FphRemembers s.rpc.hndlHash map) ?_ ?_
    (Machine.meets_of_forall fun _ _ _ => trivial) hrun
  · rintro s o s' r ⟨map, h⟩ - hstep
    exact rpcStep_remembers h hstep
  · exact ⟨_, remembers_init⟩

/-! ## A cycle of the calls -/

section Cycle

variable {rpc₁ rpc₂ rpc₃ : Rpc} {ret₁ ret₂ ret₃ : Bool} {pHandle₂ pHandle₃ : Option Nat}
  {alloc₁ alloc₁' alloc₂ alloc₃ : Bool}

/-- The calls do nothing to a buffer they refuse. -/
theorem CycleSound.of_refused (hrefused : buf.Refused b)
    (hassociate : dvpRpcAssociate a b rpc buf.ptr buf.handle buf.size buf.mtype mrange alloc₁
      alloc₁' = .ok (rpc₁, ret₁)) :
    CycleSound rpc rpc₁ rpc₂ rpc₃ ret₁ ret₃ buf mrange := by
  have hcall : dvpRpcAssociate a b rpc buf.ptr buf.handle buf.size buf.mtype mrange alloc₁
      alloc₁' = .ok (rpc, false) := by
    rw [dvpRpcAssociate]
    rcases hrefused with hptr | hsize | hsupports
    · rw [if_pos (.inl hptr)]
    · rw [if_pos (.inr hsize)]
    · rw [if_pos hsupports, ite_self]
  rw [hcall] at hassociate
  cases hassociate
  exact ⟨fun _ => ⟨rfl, .refl⟩, (by rintro ⟨⟩), (by rintro ⟨⟩), (by rintro ⟨⟩)⟩

/-- A buffer that is not refused is found again after it was dissociated, if it could be recorded at
all; if not, its cycle starts with an undue success. -/
theorem CycleSound.refused (hhash : FphRemembers rpc.hndlHash map)
    (hassociate : dvpRpcAssociate a b rpc buf.ptr buf.handle buf.size buf.mtype mrange alloc₁
      alloc₁' = .ok (rpc₁, ret₁))
    (hdissociate : dvpRpcDissociate a b rpc₁ buf.ptr buf.size buf.mtype alloc₂ =
      .ok (rpc₂, ret₂, pHandle₂))
    (hagain : dvpRpcDissociate a b rpc₂ buf.ptr buf.size buf.mtype alloc₃ =
      .ok (rpc₃, ret₃, pHandle₃))
    (hsound : CycleSound rpc rpc₁ rpc₂ rpc₃ ret₁ ret₃ buf mrange) : buf.Refused b := by
  by_contra hnot
  simp only [Buffer.Refused, not_or, Bool.not_eq_false] at hnot
  obtain ⟨hptr, hsize, hsupports⟩ := hnot
  let k : FphKey := ⟨buf.ptr, hptr⟩
  obtain ⟨rfl, stored, hset⟩ := dvpRpcAssociate_ok hptr hsize hsupports hassociate
  -- the first call has succeeded, so that the buffer was recorded
  have hrecord : ¬CannotRecord rpc buf mrange := fun hcannot => by
    have hret := (hsound.failed hcannot).1
    cases hret
  have hroom : rpc.hndlHash.HasRoom buf.ptr := by
    by_contra hfull
    exact hrecord (.inl hfull)
  obtain ⟨f₁, -, ⟨-, hset₁, hhash₁⟩ | ⟨hfull, -⟩⟩ := hhash.set (a := a) k buf.handle
  · obtain rfl : f₁ = rpc₁.hndlHash := by
      have heq := hset₁.symm.trans hset
      exact (Prod.mk.inj (Except.ok.inj heq)).2
    have hget₁ : fphGet a rpc₁.hndlHash k = .ok (1, buf.handle) := by
      rw [hhash₁.get_eq, Function.update_self, fphAnswer]
    rcases dvpRpcDissociate_ok hptr hsize hsupports hdissociate with
      ⟨v, hget, -⟩ | ⟨found, v, stored₂, -, -, -, hset⟩
    · cases hget₁.symm.trans hget
    · -- the base keeps its slot
      obtain ⟨f₂, -, ⟨-, hset₂, hhash₂⟩ | ⟨hfull, -⟩⟩ := hhash₁.set (a := a) k 0
      · obtain rfl : f₂ = rpc₂.hndlHash := by
          have heq := hset₂.symm.trans hset
          exact (Prod.mk.inj (Except.ok.inj heq)).2
        have hget₂ : fphGet a rpc₂.hndlHash k = .ok (1, 0) := by
          rw [hhash₂.get_eq, Function.update_self, fphAnswer]
        -- the second dissociation finds the slot, with the handle `0`
        rcases dvpRpcDissociate_ok hptr hsize hsupports hagain with
          ⟨v, hget, -⟩ | ⟨found, v, stored₃, -, -, hret, -⟩
        · cases hget₂.symm.trans hget
        · have hfalse := (hsound.again rfl).1
          rw [hret] at hfalse
          cases hfalse
      · exact hfull (hhash₁.hasRoom (Function.update_self k (some buf.handle) map))
  · exact hfull hroom

end Cycle

/-- In every reachable state, a cycle of calls for a buffer is as it should be exactly when the buffer
is refused. -/
theorem dvpRpc_cycle_iff (a : Arch) (b : Build) (nodes : BtreeMem MemRange) (os : List RpcOp)
    (s : RpcUse) (answers : List Bool)
    (hrun : Machine.run (rpcStep a b) ⟨dvpRpcInit a nodes, []⟩ os = .ok (s, answers))
    (buf : Buffer) (mrange : Option Ptr) (alloc₁ alloc₁' alloc₂ alloc₃ : Bool)
    (rpc₁ rpc₂ rpc₃ : Rpc) (ret₁ ret₂ ret₃ : Bool) (pHandle₂ pHandle₃ : Option Nat)
    (hassociate : dvpRpcAssociate a b s.rpc buf.ptr buf.handle buf.size buf.mtype mrange alloc₁
      alloc₁' = .ok (rpc₁, ret₁))
    (hdissociate : dvpRpcDissociate a b rpc₁ buf.ptr buf.size buf.mtype alloc₂ =
      .ok (rpc₂, ret₂, pHandle₂))
    (hagain : dvpRpcDissociate a b rpc₂ buf.ptr buf.size buf.mtype alloc₃ =
      .ok (rpc₃, ret₃, pHandle₃)) :
    CycleSound s.rpc rpc₁ rpc₂ rpc₃ ret₁ ret₃ buf mrange ↔ buf.Refused b := by
  obtain ⟨map, hhash⟩ := remembers_of_run hrun
  constructor
  · exact CycleSound.refused hhash hassociate hdissociate hagain
  · intro hrefused
    exact CycleSound.of_refused hrefused hassociate

/-- A buffer is associated in a new registry, and dissociated twice. -/
theorem dvpRpc_cycle_iff_first :
    ∃ rpc₁ rpc₂ rpc₃ ret₁ ret₃,
      CycleSound (dvpRpcInit .arch32 ⟨4, fun _ => none⟩) rpc₁ rpc₂ rpc₃ ret₁ ret₃
          ⟨0x4000, 7, 0x100, .mpucached1dtiled⟩ (some 1) ↔
        Buffer.Refused ⟨true, false, false, false⟩ ⟨0x4000, 7, 0x100, .mpucached1dtiled⟩ :=
  ⟨_, _, _, _, _, dvpRpc_cycle_iff .arch32 ⟨true, false, false, false⟩ ⟨4, fun _ => none⟩ []
    ⟨dvpRpcInit .arch32 ⟨4, fun _ => none⟩, []⟩ [] rfl ⟨0x4000, 7, 0x100, .mpucached1dtiled⟩
    (some 1) true true true true _ _ _ _ _ _ _ _ rfl rfl rfl⟩

/-- The second of two calls that dissociate the same buffer succeeds, and the slot of its base is not
free after the first one. -/
theorem dvp_rpc_dissociate_twice :
    ∃ rpc₁ rpc₂ rpc₃,
      dvpRpcAssociate .arch32 ⟨true, false, false, false⟩ (dvpRpcInit .arch32 ⟨4, fun _ => none⟩)
          0x4000 7 0x100 .mpucached1dtiled (some 1) true true = .ok (rpc₁, true) ∧
        dvpRpcDissociate .arch32 ⟨true, false, false, false⟩ rpc₁ 0x4000 0x100 .mpucached1dtiled
          true = .ok (rpc₂, true, some 7) ∧
        dvpRpcDissociate .arch32 ⟨true, false, false, false⟩ rpc₂ 0x4000 0x100 .mpucached1dtiled
          true = .ok (rpc₃, true, some 0) ∧
        rpc₂.hndlHash.HasKey 0 0x4000 ∧
        ¬CycleSound (dvpRpcInit .arch32 ⟨4, fun _ => none⟩) rpc₁ rpc₂ rpc₃ true true
          ⟨0x4000, 7, 0x100, .mpucached1dtiled⟩ (some 1) := by
  refine ⟨_, _, _, rfl, rfl, rfl, ⟨0, rfl⟩, ?_⟩
  intro hsound
  cases (hsound.again rfl).1

end DVP.Kgraph
