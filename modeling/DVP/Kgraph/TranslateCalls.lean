import DVP.Kgraph.TranslateInvariant

/-!
# The calls that translate addresses

What `dvp_rpc_mem_xlate_fwrd`, `dvp_rpc_mem_remove` and `dvp_rpc_mem_xlate_back` do to a state with the
invariant.

* `xlateLocal_ok`, `xlateTiled_ok`: a branch of the forward translation that does not unwind has the address in
  the hashes. `xlateLocal_room`, `xlateTiled_room`: with room in the hashes none unwinds.
* `xlateFwrd_ok`: a forward translation that returns did not unwind. One that finds a block full has to
  unwind, and waits for the lock that it holds itself.
* `remove_local_spec`, `remove_tiler_spec`: what a removal takes out of the hashes.
* `xlateBack_local`, `xlateBack_tiled`: a remote address in the hashes is translated back.
-/

namespace DVP.Kgraph

open DVP.Sosal

variable {a : Arch} {enabled : Core → Bool} {rpc rpc' : RcmRpc} {t t' : Translations}
  {core : Core} {c : RemoteCore} {p q x : FphKey} {localSize : Nat} {memType : MemType}
  {answers : MapAnswers}

/-! ## The lock -/

/-- The lock does not matter to the tables. -/
theorem RcmInv.relock (h : RcmInv enabled rpc t) (locked : Bool) :
    RcmInv enabled { rpc with locked := locked } t :=
  ⟨⟨h.rpu, h.mpuTiler, h.tilerMpu, h.disabled, h.mapped, h.apart, h.rpu_tiler, h.mpuTiler_tiler,
    h.tilerMpu_tiler, h.tiler_unique⟩, h.uniform, h.tiler_remote⟩

/-- A lock that is free can be taken. -/
theorem RcmRpc.lock_eq (h : rpc.locked = false) : rpc.lock = .ok { rpc with locked := true } := by
  rw [RcmRpc.lock, h]
  rfl

/-- A lock that was taken is free again when it is given back. -/
theorem RcmRpc.unlock_eq (h : rpc.locked = false) : { rpc with locked := true }.unlock = rpc := by
  obtain ⟨locked, rpu, mpuTiler, mapped⟩ := rpc
  subst h
  rfl

/-- A removal waits for a lock that is held. -/
theorem remove_of_locked (h : rpc.locked = true) {n : Nat} :
    dvpRpcMemRemove a enabled rpc n localSize memType = .error .blocked := by
  rw [dvpRpcMemRemove, RcmRpc.lock, h]
  rfl

/-- The loop that maps an address does not touch the lock. -/
theorem mapToCores_locked {space : AddrSpace} {cs : List RemoteCore} {n : Nat} {y y' : Xlate}
    (hmap : cs.foldlM (mapToCore a space core n answers) y = .ok y') :
    y'.rpc.locked = y.rpc.locked :=
  Machine.foldlM_keeps (P := fun x => x.rpc.locked = y.rpc.locked) (fun x c x' hlocked hmap => by
    rw [mapToCore] at hmap
    split at hmap
    · cases hmap
      exact hlocked
    · cases hinstall : (x.rpc.rpu space c).install a n _ with
      | error fault =>
        rw [hinstall] at hmap
        cases hmap
      | ok answer =>
        rw [hinstall] at hmap
        cases hmap
        exact hlocked) rfl hmap

/-! ## The cores -/

/-- The remote cores are those that are enabled. -/
theorem mem_remoteCores : c ∈ remoteCores enabled ↔ enabled c.toCore = true := by
  rw [remoteCores, List.mem_filter]
  exact and_iff_right (List.mem_finRange c)

/-- A remote core is listed once. -/
theorem nodup_remoteCores : (remoteCores enabled).Nodup := (List.nodup_finRange _).filter _

/-- A remote core is remote. -/
theorem RemoteCore.remote?_toCore (c : RemoteCore) : c.toCore.remote? = some c :=
  dif_pos c.isLt

/-- A core that is remote is that remote core. -/
theorem Core.toCore_of_remote? (h : core.remote? = some c) : core = c.toCore := by
  rw [Core.remote?] at h
  split at h
  · cases h
    rfl
  · cases h

/-- A remote core is not the CPU. -/
theorem RemoteCore.toCore_ne_cpu (c : RemoteCore) : c.toCore ≠ coreCpu := fun h =>
  absurd (Fin.mk.inj h) (Nat.ne_of_lt c.isLt)

/-! ## Forward translation of a pointer -/

/-- What was translated before is translated as it was. -/
structure Kept (t t' : Translations) : Prop where
  rpu : ∀ space c k x, t.rpu space c k = some x → t'.rpu space c k = some x
  mpuTiler : ∀ p q, t.mpuTiler p = some q → t'.mpuTiler p = some q
  tilerMpu : ∀ p q, t.tilerMpu q = some p → t'.tilerMpu q = some p

/-- Nothing has changed. -/
theorem Kept.refl : Kept t t := ⟨fun _ _ _ _ h => h, fun _ _ h => h, fun _ _ h => h⟩

/-- The core whose hashes say whether a pointer is mapped. -/
def hashCore (enabled : Core → Bool) (core : Core) : Option RemoteCore :=
  if core = coreCpu then (remoteCores enabled).head? else core.remote?

/-- The core of the tables is enabled. -/
theorem enabled_of_hashCore (henabled : enabled core = true) (hc : hashCore enabled core = some c) :
    enabled c.toCore = true := by
  rw [hashCore] at hc
  split at hc
  · exact mem_remoteCores.mp (List.mem_of_mem_head? (Option.mem_def.mpr hc))
  · rw [← Core.toCore_of_remote? hc]
    exact henabled

/-- A pointer that is mapped is answered from the hashes. -/
theorem xlateLocal_found (h : RcmHolds enabled rpc t) (hc : hashCore enabled core = some c)
    (hx : t.rpu .mpu c p = some x) :
    xlateLocal a enabled rpc core p answers = .ok {
      rpc := rpc
      remoteAddr := x
      unwind := false } := by
  have hget := (h.rpu .mpu c).forward.get_some (a := a) hx
  rw [hashCore] at hc
  rw [xlateLocal, hc]
  simp only [hget, ok_bind]
  rfl

/-- A pointer that is not mapped is mapped for all cores. -/
theorem xlateLocal_absent (h : RcmHolds enabled rpc t) (hc : hashCore enabled core = some c)
    (hx : t.rpu .mpu c p = none) :
    xlateLocal a enabled rpc core p answers =
      (remoteCores enabled).foldlM (mapToCore a .mpu core p answers) {
        rpc := rpc
        remoteAddr := 0
        unwind := false } := by
  have hget := (h.rpu .mpu c).forward.get_none (a := a) hx
  rw [hashCore] at hc
  rw [xlateLocal, hc]
  simp only [hget, ok_bind]
  rfl

/-- For a core without tables nothing is translated. -/
theorem xlateLocal_no_core (hc : hashCore enabled core = none) :
    xlateLocal a enabled rpc core p answers = .ok {
      rpc := rpc
      remoteAddr := if core = coreCpu then p else 0
      unwind := false } := by
  rw [hashCore] at hc
  rw [xlateLocal, hc]

/-- The invariant after the loop that mapped a pointer. -/
theorem RcmInv.mapLocal {y y' : Xlate} (h : RcmInv enabled y.rpc t)
    (hmaps : ∀ c ∈ remoteCores enabled, MapsTo y.rpc .mpu p answers c)
    (hspec : MapSpec enabled .mpu core p answers (remoteCores enabled) y y' t t') :
    RcmInv enabled y'.rpc t' := by
  refine ⟨hspec.holds, fun k c c' hc hc' hnone => ?_, fun k q c hmem hc => ?_⟩
  · rw [hspec.rpu_eq] at hnone ⊢
    by_cases hk : k = p
    · obtain ⟨addr, haddr, -⟩ := hmaps c (mem_remoteCores.mpr hc)
      rw [if_pos ⟨mem_remoteCores.mpr hc, hk⟩, haddr] at hnone
      cases hnone
    · rw [if_neg fun h => hk h.2] at hnone ⊢
      exact h.uniform k c c' hc hc' hnone
  · rw [hspec.space_eq .tiler (by decide)]
    rw [hspec.tiler_eq] at hmem
    exact h.tiler_remote k q c hmem hc

/-- Mapping keeps the other translations. -/
theorem MapSpec.kept {space : AddrSpace} {cs : List RemoteCore} {y y' : Xlate}
    (hspec : MapSpec enabled space core p answers cs y y' t t')
    (hkey : ∀ c ∈ cs, t.rpu space c p = none) : Kept t t' := by
  refine ⟨fun space' c k x hx => ?_, fun _ _ h => ?_, fun _ _ h => ?_⟩
  · by_cases hspace : space' = space
    · subst hspace
      rw [hspec.rpu_eq, if_neg]
      · exact hx
      · rintro ⟨hc, rfl⟩
        rw [hkey c hc] at hx
        cases hx
    · rw [hspec.space_eq space' hspace]
      exact hx
  · rw [hspec.mpuTiler_eq]
    exact h
  · rw [hspec.tilerMpu_eq]
    exact h

/-- The services have room for a pointer on all cores, if they have to map it. -/
def LocalRoom (enabled : Core → Bool) (rpc : RcmRpc) (t : Translations) (p : FphKey)
    (answers : MapAnswers) : Prop :=
  ∀ c ∈ remoteCores enabled, t.rpu .mpu c p = none → MapsTo rpc .mpu p answers c

/-- A translation that returns without unwinding has the pointer in the hashes of the core. -/
theorem xlateLocal_ok {y : Xlate} (h : RcmInv enabled rpc t) (henabled : enabled core = true)
    (hfresh : ∀ c ∈ remoteCores enabled, FreshOn rpc answers c)
    (hok : xlateLocal a enabled rpc core p answers = .ok y) (hunwind : y.unwind = false) :
    ∃ t', RcmInv enabled y.rpc t' ∧ y.rpc.locked = rpc.locked ∧ Kept t t' ∧
      y.rpc.mapped.tiler = rpc.mapped.tiler ∧ t'.mpuTiler = t.mpuTiler ∧ t'.tilerMpu = t.tilerMpu ∧
      ∀ c, core = c.toCore → ∃ x, t'.rpu .mpu c p = some x ∧ y.remoteAddr = x.val := by
  cases hc : hashCore enabled core with
  | none =>
    rw [xlateLocal_no_core hc] at hok
    cases hok
    refine ⟨t, h, rfl, Kept.refl, rfl, rfl, rfl, fun c hcore => ?_⟩
    subst hcore
    rw [hashCore, if_neg c.toCore_ne_cpu, c.remote?_toCore] at hc
    cases hc
  | some c =>
    have hcEnabled := enabled_of_hashCore henabled hc
    cases hx : t.rpu .mpu c p with
    | some x =>
      rw [xlateLocal_found h.toRcmHolds hc hx] at hok
      cases hok
      refine ⟨t, h, rfl, Kept.refl, rfl, rfl, rfl, fun d hcore => ⟨x, ?_, rfl⟩⟩
      subst hcore
      rw [hashCore, if_neg d.toCore_ne_cpu, d.remote?_toCore] at hc
      cases hc
      exact hx
    | none =>
      -- a pointer is in the hashes of all cores or of none
      have hnone : ∀ d ∈ remoteCores enabled, t.rpu .mpu d p = none := fun d hd =>
        h.uniform p c d hcEnabled (mem_remoteCores.mp hd) hx
      have hsource : AddrSpace.mpu = .tiler → ∃ p', (p', p) ∈ rpc.mapped.tiler := fun h => by cases h
      rw [xlateLocal_absent h.toRcmHolds hc hx] at hok
      have hmaps := mapsTo_of_mapToCores h.toRcmHolds nodup_remoteCores
        (fun d hd => mem_remoteCores.mp hd) hnone hfresh hsource hok hunwind
      obtain ⟨y', t', hmap, hspec⟩ := mapToCores_spec (a := a)
        (x := { rpc := rpc, remoteAddr := 0, unwind := false }) core h.toRcmHolds nodup_remoteCores
        (fun d hd => mem_remoteCores.mp hd) hnone hfresh hsource hmaps
      rw [hmap] at hok
      cases hok
      refine ⟨t', RcmInv.mapLocal h hmaps hspec, hspec.locked_eq, hspec.kept hnone, hspec.tiler_eq,
        hspec.mpuTiler_eq, hspec.tilerMpu_eq, fun d hcore => ?_⟩
      have hd : d ∈ remoteCores enabled := mem_remoteCores.mpr (hcore ▸ henabled)
      obtain ⟨addr, haddr, hremote⟩ := hspec.remoteAddr_eq d hd hcore
      refine ⟨addr, ?_, hremote⟩
      rw [hspec.rpu_eq, if_pos ⟨hd, rfl⟩, haddr]

/-- With room a translation does not unwind. -/
theorem xlateLocal_room (core : Core) (h : RcmInv enabled rpc t) (henabled : enabled core = true)
    (hfresh : ∀ c ∈ remoteCores enabled, FreshOn rpc answers c)
    (hroom : LocalRoom enabled rpc t p answers) :
    ∃ y, xlateLocal a enabled rpc core p answers = .ok y ∧ y.unwind = false := by
  cases hc : hashCore enabled core with
  | none => exact ⟨_, xlateLocal_no_core hc, rfl⟩
  | some c =>
    cases hx : t.rpu .mpu c p with
    | some x => exact ⟨_, xlateLocal_found h.toRcmHolds hc hx, rfl⟩
    | none =>
      have hnone : ∀ d ∈ remoteCores enabled, t.rpu .mpu d p = none := fun d hd =>
        h.uniform p c d (enabled_of_hashCore henabled hc) (mem_remoteCores.mp hd) hx
      obtain ⟨y, t', hmap, hspec⟩ := mapToCores_spec (a := a)
        (x := { rpc := rpc, remoteAddr := 0, unwind := false }) core h.toRcmHolds nodup_remoteCores
        (fun d hd => mem_remoteCores.mp hd) hnone hfresh (fun h => by cases h)
        fun d hd => hroom d hd (hnone d hd)
      exact ⟨y, (xlateLocal_absent h.toRcmHolds hc hx).trans hmap, hspec.unwind_eq⟩

/-! ## Forward translation by way of the tiler -/

/-- The tiler address that the mapping services answer is not mapped yet. -/
def FreshTiler (rpc : RcmRpc) (answers : MapAnswers) : Prop :=
  ∀ q, answers.tiler = some q → ∀ p, (p, q) ∉ rpc.mapped.tiler

/-- Every pointer that is mapped to the tiler is remembered in both directions. -/
def TilerRemembered (rpc : RcmRpc) (t : Translations) : Prop :=
  ∀ p q, (p, q) ∈ rpc.mapped.tiler → t.mpuTiler p = some q ∧ t.tilerMpu q = some p

/-- The hashes between pointers and tiler addresses have room for a pair. -/
def TilerRoom (rpc : RcmRpc) (p q : FphKey) : Prop :=
  rpc.mpuTiler.forward.HasRoom p ∧ rpc.mpuTiler.backward.HasRoom q

/-- A tiled mapping is added to those that are there. -/
theorem RcmRpc.mem_mapTiler {p' q' : FphKey} : (p', q') ∈ (rpc.mapTiler p q).mapped.tiler ↔
    (p' = p ∧ q' = q) ∨ (p', q') ∈ rpc.mapped.tiler := by
  rw [RcmRpc.mapTiler, dif_pos p.property]
  simp

/-- The state with the tiler address of a pointer, before it is mapped for the cores. -/
def RcmRpc.withTiler (rpc : RcmRpc) (p q : FphKey) (hashes : TwoWay) : RcmRpc :=
  { rpc.mapTiler p q with mpuTiler := hashes }

/-- The tables of the tiler leave those of the cores. -/
theorem RcmRpc.withTiler_rpu {hashes : TwoWay} : (rpc.withTiler p q hashes).rpu = rpc.rpu := by
  rw [RcmRpc.withTiler, RcmRpc.mapTiler, dif_pos p.property]

/-- The tables of the tiler leave what the cores map. -/
theorem RcmRpc.withTiler_remote {hashes : TwoWay} :
    (rpc.withTiler p q hashes).mapped.remote = rpc.mapped.remote := by
  rw [RcmRpc.withTiler, RcmRpc.mapTiler, dif_pos p.property]

/-- The tables of the tiler leave the lock. -/
theorem RcmRpc.withTiler_locked {hashes : TwoWay} :
    (rpc.withTiler p q hashes).locked = rpc.locked := by
  rw [RcmRpc.withTiler, RcmRpc.mapTiler, dif_pos p.property]

/-- The new tables of the tiler have one mapping more. -/
theorem RcmRpc.mem_withTiler {hashes : TwoWay} {p' q' : FphKey} :
    (p', q') ∈ (rpc.withTiler p q hashes).mapped.tiler ↔
      (p' = p ∧ q' = q) ∨ (p', q') ∈ rpc.mapped.tiler :=
  RcmRpc.mem_mapTiler

/-- A pointer is mapped to the tiler. Each of the two hashes remembers it if it has room. -/
theorem mapTiler_spec (h : RcmInv enabled rpc t) (hp : t.mpuTiler p = none)
    (hq : ∀ p, (p, q) ∉ rpc.mapped.tiler) :
    ∃ r r' forward backward t', fphSet a rpc.mpuTiler.forward p q = .ok (r, forward) ∧
      fphSet a rpc.mpuTiler.backward q p = .ok (r', backward) ∧
      RcmHolds enabled (rpc.withTiler p q ⟨forward, backward⟩) t' ∧
      t'.rpu = t.rpu ∧ Kept t t' ∧
      (TilerRoom rpc p q → t'.mpuTiler p = some q ∧ t'.tilerMpu q = some p) := by
  have hq' : t.tilerMpu q = none := by
    by_contra hne
    obtain ⟨p', hp'⟩ := Option.ne_none_iff_exists'.mp hne
    exact hq p' (h.tilerMpu_tiler p' q hp')
  obtain ⟨r, forward, mpuTiler, hforward, hholds, hnew, hroom⟩ :=
    h.mpuTiler.set_pointer (a := a) (x := q) hp
  obtain ⟨r', backward, tilerMpu, hbackward, hholds', hnew', hroom'⟩ :=
    h.tilerMpu.set_pointer (a := a) (x := p) hq'
  -- what was remembered stays, as the pointer and the address are new
  have hkept : ∀ p' q', t.mpuTiler p' = some q' → mpuTiler p' = some q' := fun p' q' hp' => by
    rcases hnew p' with heq | ⟨rfl, -⟩
    · exact heq.trans hp'
    · rw [hp] at hp'
      cases hp'
  have hkept' : ∀ p' q', t.tilerMpu q' = some p' → tilerMpu q' = some p' := fun p' q' hp' => by
    rcases hnew' q' with heq | ⟨rfl, -⟩
    · exact heq.trans hp'
    · rw [hq'] at hp'
      cases hp'
  refine ⟨r, r', forward, backward, ⟨t.rpu, mpuTiler, tilerMpu⟩, hforward, hbackward, ?_, rfl,
    ⟨fun _ _ _ _ h => h, hkept, hkept'⟩, fun hrooms => ⟨hroom hrooms.1, hroom' hrooms.2⟩⟩
  refine ⟨?_, hholds, hholds', h.disabled, ?_, h.apart, fun c k x hx => ?_, fun p' q' hp' => ?_,
    fun p' q' hp' => ?_, fun p₁ p₂ q' hp₁ hp₂ => ?_⟩
  · intro space c
    rw [RcmRpc.withTiler_rpu]
    exact h.rpu space c
  · intro space c k x hx
    rw [RcmRpc.withTiler_remote]
    exact h.mapped space c k x hx
  · obtain ⟨p', hp'⟩ := h.rpu_tiler c k x hx
    exact ⟨p', RcmRpc.mem_withTiler.mpr (.inr hp')⟩
  · refine RcmRpc.mem_withTiler.mpr ?_
    rcases hnew p' with heq | ⟨rfl, hsome⟩
    · exact .inr (h.mpuTiler_tiler p' q' (heq.symm.trans hp'))
    · exact .inl ⟨rfl, Option.some.inj (hp'.symm.trans hsome)⟩
  · refine RcmRpc.mem_withTiler.mpr ?_
    rcases hnew' q' with heq | ⟨rfl, hsome⟩
    · exact .inr (h.tilerMpu_tiler p' q' (heq.symm.trans hp'))
    · exact .inl ⟨Option.some.inj (hp'.symm.trans hsome), rfl⟩
  · rcases RcmRpc.mem_withTiler.mp hp₁ with ⟨rfl, rfl⟩ | hold₁ <;>
      rcases RcmRpc.mem_withTiler.mp hp₂ with ⟨rfl, hqq⟩ | hold₂
    · rfl
    · exact absurd hold₂ (hq p₂)
    · exact absurd (hqq ▸ hold₁) (hq p₁)
    · exact h.tiler_unique p₁ p₂ q' hold₁ hold₂

/-- A pointer that the hashes have a tiler address for is answered from the hashes. -/
theorem xlateTiled_found (core : Core) (answers : MapAnswers) (h : RcmHolds enabled rpc t)
    (hq : t.mpuTiler p = some q) :
    ∃ n, xlateTiled a enabled rpc core p answers = .ok {
        rpc := rpc
        remoteAddr := n
        unwind := false } ∧
      ∀ c, core = c.toCore → ∀ x, t.rpu .tiler c q = some x → n = x.val := by
  have hget := h.mpuTiler.get_some (a := a) hq
  cases hc : core.remote? with
  | none =>
    refine ⟨if core = coreCpu then q else 0, ?_, fun c hcore => ?_⟩
    · simp only [xlateTiled, hget, ok_bind, hc]
      rfl
    · rw [hcore, c.remote?_toCore] at hc
      cases hc
  | some c =>
    have hforward := (h.rpu .tiler c).get_forward (a := a) q
    have hne : core ≠ coreCpu := Core.toCore_of_remote? hc ▸ c.toCore_ne_cpu
    refine ⟨(fphAnswer ((t.rpu .tiler c q).map Subtype.val)).2, ?_, fun d hcore x hx => ?_⟩
    · simp only [xlateTiled, hget, ok_bind, hc, hforward, if_neg hne]
      rfl
    · rw [hcore, d.remote?_toCore] at hc
      cases hc
      rw [hx]
      rfl

/-- The invariant after the loop that mapped a new tiler address. -/
theorem RcmInv.mapTiled {y y' : Xlate} {t₁ : Translations} (h : RcmInv enabled rpc t)
    (hrpu : t₁.rpu = t.rpu)
    (htiler : ∀ p' q', (p', q') ∈ y.rpc.mapped.tiler ↔ (p' = p ∧ q' = q) ∨ (p', q') ∈ rpc.mapped.tiler)
    (hmaps : ∀ c ∈ remoteCores enabled, MapsTo y.rpc .tiler q answers c)
    (hspec : MapSpec enabled .tiler core q answers (remoteCores enabled) y y' t₁ t') :
    RcmInv enabled y'.rpc t' := by
  refine ⟨hspec.holds, fun k c c' hc hc' hnone => ?_, fun p' q' c hmem hc => ?_⟩
  · rw [hspec.space_eq .mpu (by decide), hrpu] at hnone ⊢
    exact h.uniform k c c' hc hc' hnone
  · rw [hspec.rpu_eq]
    by_cases hq' : q' = q
    · obtain ⟨addr, haddr, -⟩ := hmaps c (mem_remoteCores.mpr hc)
      rw [if_pos ⟨mem_remoteCores.mpr hc, hq'⟩, haddr]
      exact Option.some_ne_none addr
    · rw [if_neg fun h => hq' h.2, hrpu]
      rw [hspec.tiler_eq, htiler] at hmem
      exact h.tiler_remote p' q' c (hmem.resolve_left fun h => hq' h.2) hc

/-- A pointer without a tiler address gets one, which is then mapped for all cores. -/
theorem xlateTiled_absent (core : Core) (h : RcmInv enabled rpc t) (hp : t.mpuTiler p = none)
    (hq : answers.tiler = some q) (hfresh : FreshTiler rpc answers) :
    ∃ hashes t₁, RcmHolds enabled (rpc.withTiler p q hashes) t₁ ∧ t₁.rpu = t.rpu ∧ Kept t t₁ ∧
      (TilerRoom rpc p q → t₁.mpuTiler p = some q ∧ t₁.tilerMpu q = some p) ∧
      xlateTiled a enabled rpc core p answers =
        (remoteCores enabled).foldlM (mapToCore a .tiler core q answers) {
          rpc := rpc.withTiler p q hashes
          remoteAddr := 0
          unwind := false } := by
  obtain ⟨r, r', forward, backward, t₁, hforward, hbackward, hholds, hrpu, hkept, hroom⟩ :=
    mapTiler_spec (a := a) h hp (hfresh q hq)
  refine ⟨⟨forward, backward⟩, t₁, hholds, hrpu, hkept, hroom, ?_⟩
  have hget := h.mpuTiler.get_none (a := a) hp
  simp only [xlateTiled, hget, ok_bind, hq, if_true, hforward, hbackward]
  rfl

/-- A pointer that the mapping services do not map to the tiler makes the call unwind. -/
theorem xlateTiled_not_mapped (h : RcmHolds enabled rpc t) (hp : t.mpuTiler p = none)
    (hq : answers.tiler = none) :
    xlateTiled a enabled rpc core p answers = .ok {
      rpc := rpc
      remoteAddr := 0
      unwind := true } := by
  have hget := h.mpuTiler.get_none (a := a) hp
  simp only [xlateTiled, hget, ok_bind, hq, if_true]
  rfl

/-- What a new tiler address needs of the loop over the cores. -/
theorem not_mapped_of_fresh {t₁ : Translations} (h : RcmHolds enabled rpc t) (hrpu : t₁.rpu = t.rpu)
    (hq : answers.tiler = some q) (hfresh : FreshTiler rpc answers) (c : RemoteCore) :
    t₁.rpu .tiler c q = none := by
  rw [hrpu]
  by_contra hne
  obtain ⟨x, hx⟩ := Option.ne_none_iff_exists'.mp hne
  obtain ⟨p', hp'⟩ := h.rpu_tiler c q x hx
  exact hfresh q hq p' hp'

/-- A translation by way of the tiler that returns without unwinding has mapped the pointer. -/
theorem xlateTiled_ok {y : Xlate} (h : RcmInv enabled rpc t) (henabled : enabled core = true)
    (hfresh : ∀ c ∈ remoteCores enabled, FreshOn rpc answers c) (hfreshTiler : FreshTiler rpc answers)
    (hok : xlateTiled a enabled rpc core p answers = .ok y) (hunwind : y.unwind = false) :
    ∃ t' q, RcmInv enabled y.rpc t' ∧ y.rpc.locked = rpc.locked ∧ Kept t t' ∧
      (p, q) ∈ y.rpc.mapped.tiler ∧
      (∀ c, core = c.toCore → ∃ x, t'.rpu .tiler c q = some x ∧ y.remoteAddr = x.val) ∧
      ((t.mpuTiler p = none → ∀ q, answers.tiler = some q → TilerRoom rpc p q) →
        TilerRemembered rpc t → TilerRemembered y.rpc t') := by
  cases hp : t.mpuTiler p with
  -- the pointer has a tiler address already, which every remote core knows
  | some q =>
    obtain ⟨n, hxlate, hn⟩ := xlateTiled_found (a := a) core answers h.toRcmHolds hp
    rw [hxlate] at hok
    cases hok
    refine ⟨t, q, h, rfl, Kept.refl, h.mpuTiler_tiler p q hp, fun c hcore => ?_, fun _ h => h⟩
    have hne := h.tiler_remote p q c (h.mpuTiler_tiler p q hp) (hcore ▸ henabled)
    obtain ⟨x, hx⟩ := Option.ne_none_iff_exists'.mp hne
    exact ⟨x, hx, hn c hcore x hx⟩
  | none =>
    cases hq : answers.tiler with
    | none =>
      rw [xlateTiled_not_mapped h.toRcmHolds hp hq] at hok
      cases hok
      cases hunwind
    -- the platform maps it to a new address, which is then mapped to all cores
    | some q =>
      obtain ⟨hashes, t₁, hholds, hrpu, hkept, hroom, hxlate⟩ :=
        xlateTiled_absent (a := a) core h hp hq hfreshTiler
      rw [hxlate] at hok
      have hnone : ∀ c ∈ remoteCores enabled, t₁.rpu .tiler c q = none := fun c _ =>
        not_mapped_of_fresh h.toRcmHolds hrpu hq hfreshTiler c
      have hfresh' : ∀ c ∈ remoteCores enabled, FreshOn (rpc.withTiler p q hashes) answers c :=
        fun c hc => by
          rw [FreshOn, RcmRpc.withTiler_remote]
          exact hfresh c hc
      have hsource : AddrSpace.tiler = .tiler →
          ∃ p', (p', q) ∈ (rpc.withTiler p q hashes).mapped.tiler := fun _ =>
        ⟨p, RcmRpc.mem_withTiler.mpr (.inl ⟨rfl, rfl⟩)⟩
      have hmaps := mapsTo_of_mapToCores hholds nodup_remoteCores
        (fun d hd => mem_remoteCores.mp hd) hnone hfresh' hsource hok hunwind
      obtain ⟨y', t', hmap, hspec⟩ := mapToCores_spec (a := a)
        (x := { rpc := rpc.withTiler p q hashes, remoteAddr := 0, unwind := false }) core hholds
        nodup_remoteCores (fun d hd => mem_remoteCores.mp hd) hnone hfresh' hsource hmaps
      rw [hmap] at hok
      cases hok
      have hkept' := hspec.kept hnone
      refine ⟨t', q, RcmInv.mapTiled h hrpu (fun _ _ => RcmRpc.mem_withTiler) hmaps hspec,
        hspec.locked_eq.trans RcmRpc.withTiler_locked,
        ⟨fun space c k x hx => hkept'.rpu space c k x (hkept.rpu space c k x hx),
          fun p q hpq => hkept'.mpuTiler p q (hkept.mpuTiler p q hpq),
          fun p q hpq => hkept'.tilerMpu p q (hkept.tilerMpu p q hpq)⟩, ?_, fun d hcore => ?_, ?_⟩
      · rw [hspec.tiler_eq]
        exact RcmRpc.mem_withTiler.mpr (.inl ⟨rfl, rfl⟩)
      · have hd : d ∈ remoteCores enabled := mem_remoteCores.mpr (hcore ▸ henabled)
        obtain ⟨addr, haddr, hremote⟩ := hspec.remoteAddr_eq d hd hcore
        refine ⟨addr, ?_, hremote⟩
        rw [hspec.rpu_eq, if_pos ⟨hd, rfl⟩, haddr]
      · intro hrooms hremembered p' q' hmem
        rw [hspec.mpuTiler_eq, hspec.tilerMpu_eq]
        rw [hspec.tiler_eq] at hmem
        rcases RcmRpc.mem_withTiler.mp hmem with ⟨rfl, rfl⟩ | hold
        · exact hroom (hrooms rfl _ rfl)
        · obtain ⟨hforward, hbackward⟩ := hremembered p' q' hold
          exact ⟨hkept.mpuTiler _ _ hforward, hkept.tilerMpu _ _ hbackward⟩

/-- The services have room for a pointer by way of the tiler on all cores, if they have to map it. -/
def TiledRoom (enabled : Core → Bool) (rpc : RcmRpc) (t : Translations) (p : FphKey)
    (answers : MapAnswers) : Prop :=
  t.mpuTiler p = none → ∃ q, answers.tiler = some q ∧ TilerRoom rpc p q ∧
    ∀ c ∈ remoteCores enabled, MapsTo rpc .tiler q answers c

/-- With room a translation by way of the tiler does not unwind. -/
theorem xlateTiled_room (core : Core) (h : RcmInv enabled rpc t)
    (hfresh : ∀ c ∈ remoteCores enabled, FreshOn rpc answers c) (hfreshTiler : FreshTiler rpc answers)
    (hroom : TiledRoom enabled rpc t p answers) :
    ∃ y, xlateTiled a enabled rpc core p answers = .ok y ∧ y.unwind = false := by
  cases hp : t.mpuTiler p with
  | some q =>
    obtain ⟨n, hxlate, -⟩ := xlateTiled_found (a := a) core answers h.toRcmHolds hp
    exact ⟨_, hxlate, rfl⟩
  | none =>
    obtain ⟨q, hq, -, hmaps⟩ := hroom hp
    obtain ⟨hashes, t₁, hholds, hrpu, -, -, hxlate⟩ :=
      xlateTiled_absent (a := a) core h hp hq hfreshTiler
    obtain ⟨y, t', hmap, hspec⟩ := mapToCores_spec (a := a)
      (x := { rpc := rpc.withTiler p q hashes, remoteAddr := 0, unwind := false }) core hholds
      nodup_remoteCores (fun d hd => mem_remoteCores.mp hd)
      (fun c _ => not_mapped_of_fresh h.toRcmHolds hrpu hq hfreshTiler c)
      (fun c hc => by
        rw [FreshOn, RcmRpc.withTiler_remote]
        exact hfresh c hc)
      (fun _ => ⟨p, RcmRpc.mem_withTiler.mpr (.inl ⟨rfl, rfl⟩)⟩)
      (fun c hc => by
        rw [MapsTo, RcmRpc.withTiler_rpu]
        exact hmaps c hc)
    exact ⟨y, hxlate.trans hmap, hspec.unwind_eq⟩

/-! ## The call -/

/-- The branch of `dvp_rpc_mem_xlate_fwrd` for the memory type. -/
def xlateBranch (a : Arch) (enabled : Core → Bool) (rpc : RcmRpc) (core : Core) (localAddr : Nat)
    (memType : MemType) (answers : MapAnswers) : Except Fault Xlate :=
  if memType = .mpucached1dtiled then xlateTiled a enabled rpc core localAddr answers
  else xlateLocal a enabled rpc core localAddr answers

/-- A call for a core that is not enabled does nothing. -/
theorem xlateFwrd_disabled (hlocked : rpc.locked = false) (henabled : enabled core = false) {n : Nat} :
    dvpRpcMemXlateFwrd a enabled rpc core n localSize memType answers = .ok (0, rpc) := by
  rw [dvpRpcMemXlateFwrd, RcmRpc.lock_eq hlocked, henabled]
  change Except.ok (0, { rpc with locked := true }.unlock) = _
  rw [RcmRpc.unlock_eq hlocked]

/-- A call for a core that is enabled takes the branch, and returns its answer or unwinds. -/
theorem xlateFwrd_enabled (hlocked : rpc.locked = false) (henabled : enabled core = true) {n : Nat} :
    dvpRpcMemXlateFwrd a enabled rpc core n localSize memType answers =
      (xlateBranch a enabled { rpc with locked := true } core n memType answers >>= fun y =>
        if y.unwind then
          dvpRpcMemRemove a enabled y.rpc n localSize memType >>= fun rpc => .ok (0, rpc.unlock)
        else .ok (y.remoteAddr, y.rpc.unlock)) := by
  rw [dvpRpcMemXlateFwrd, RcmRpc.lock_eq hlocked, henabled, xlateBranch]
  by_cases htype : memType = .mpucached1dtiled
  · simp only [ok_bind, if_true, htype]
    rfl
  · simp only [ok_bind, if_true, htype, if_false]
    rfl

/-- The branch for a pointer does not touch the lock. -/
theorem xlateLocal_locked {n : Nat} {y : Xlate}
    (hxlate : xlateLocal a enabled rpc core n answers = .ok y) :
    y.rpc.locked = rpc.locked := by
  rw [xlateLocal] at hxlate
  dsimp only at hxlate
  split at hxlate
  · cases hxlate
    rfl
  · obtain ⟨⟨found, remoteAddr⟩, -, hxlate⟩ := bind_eq_ok hxlate
    dsimp only at hxlate
    split at hxlate
    · exact mapToCores_locked hxlate
    · cases hxlate
      rfl

/-- The lock is still held after the branch. -/
theorem xlateBranch_locked {y : Xlate} (h : RcmInv enabled rpc t) (hfreshTiler : FreshTiler rpc answers)
    (hbranch : xlateBranch a enabled rpc core p memType answers = .ok y) :
    y.rpc.locked = rpc.locked := by
  rw [xlateBranch] at hbranch
  split at hbranch
  · cases hp : t.mpuTiler p with
    | some q =>
      obtain ⟨n, hxlate, -⟩ := xlateTiled_found (a := a) core answers h.toRcmHolds hp
      rw [hxlate] at hbranch
      cases hbranch
      rfl
    | none =>
      cases hq : answers.tiler with
      | none =>
        rw [xlateTiled_not_mapped h.toRcmHolds hp hq] at hbranch
        cases hbranch
        rfl
      | some q =>
        obtain ⟨hashes, t₁, -, -, -, -, hxlate⟩ :=
          xlateTiled_absent (a := a) core h hp hq hfreshTiler
        rw [hxlate] at hbranch
        exact (mapToCores_locked hbranch).trans RcmRpc.withTiler_locked
  · exact xlateLocal_locked hbranch

/-- A call that returns did not unwind. -/
theorem xlateFwrd_ok {n : Nat} (h : RcmInv enabled rpc t) (hlocked : rpc.locked = false)
    (henabled : enabled core = true) (hfreshTiler : FreshTiler rpc answers)
    (hok : dvpRpcMemXlateFwrd a enabled rpc core p localSize memType answers = .ok (n, rpc')) :
    ∃ y, xlateBranch a enabled { rpc with locked := true } core p memType answers = .ok y ∧
      y.unwind = false ∧ n = y.remoteAddr ∧ rpc' = y.rpc.unlock := by
  rw [xlateFwrd_enabled hlocked henabled] at hok
  cases hbranch : xlateBranch a enabled { rpc with locked := true } core p memType answers with
  | error fault =>
    rw [hbranch] at hok
    cases hok
  | ok y =>
    rw [hbranch, ok_bind] at hok
    cases hunwind : y.unwind with
    | true =>
      -- The lock is held, so that the removal never gets it.
      have hheld : y.rpc.locked = true := xlateBranch_locked (h.relock true) hfreshTiler hbranch
      rw [hunwind, if_pos rfl, remove_of_locked hheld] at hok
      cases hok
    | false =>
      rw [hunwind, if_neg Bool.false_ne_true] at hok
      cases hok
      exact ⟨y, rfl, hunwind, rfl, rfl⟩

/-! ## Removal -/

/-- `t'` is `t` without the pointer `p`, which is not mapped to the tiler. -/
structure LocalRemoved (p : FphKey) (t t' : Translations) : Prop where
  mpu : ∀ c k, t'.rpu .mpu c k = if k = p then none else t.rpu .mpu c k
  tiler : t'.rpu .tiler = t.rpu .tiler
  mpuTiler : t'.mpuTiler = t.mpuTiler
  tilerMpu : t'.tilerMpu = t.tilerMpu

/-- `t'` is `t` without the tiler address `q` of `p`. -/
structure TilerRemoved (p q : FphKey) (t t' : Translations) : Prop where
  mpu : t'.rpu .mpu = t.rpu .mpu
  tiler : ∀ c k, t'.rpu .tiler c k = if k = q then none else t.rpu .tiler c k
  mpuTiler : t'.mpuTiler = Function.update t.mpuTiler p none
  tilerMpu : t'.tilerMpu = Function.update t.tilerMpu q none

/-- A loop over the enabled cores takes an address out of the hashes of all cores. -/
theorem RemoveSpec.rpu_remoteCores {space : AddrSpace}
    (hspec : RemoveSpec enabled space p (remoteCores enabled) rpc rpc' t t')
    (hdisabled : ∀ space c k, enabled c.toCore = false → t.rpu space c k = none) (c : RemoteCore)
    (k : FphKey) : t'.rpu space c k = if k = p then none else t.rpu space c k := by
  rw [hspec.rpu_eq]
  by_cases hc : c ∈ remoteCores enabled
  · simp only [hc, true_and]
  · -- A core that is not enabled has no hashes to clear.
    rw [if_neg fun h => hc h.1, hdisabled space c k
      (Bool.eq_false_iff.mpr fun henabled => hc (mem_remoteCores.mpr henabled))]
    split <;> rfl

/-- The removal of a pointer that is mapped without the tiler. -/
theorem remove_local_spec (p : FphKey) (localSize : Nat) (h : RcmInv enabled rpc t)
    (hlocked : rpc.locked = false) (htype : memType ≠ .mpucachedVirtual) :
    ∃ rpc' t', dvpRpcMemRemove a enabled rpc p localSize memType = .ok rpc' ∧
      rpc'.locked = false ∧ RcmInv enabled rpc' t' ∧ LocalRemoved p t t' ∧
      rpc'.mapped.tiler = rpc.mapped.tiler := by
  obtain ⟨rpc₁, t', hloop, hspec⟩ := removeLocalCores_spec (a := a) (remoteCores enabled) p localSize
    (h.relock true).toRcmHolds
  have hrpu := hspec.rpu_remoteCores h.disabled
  refine ⟨rpc₁.unlock, t', ?_, rfl, RcmInv.relock ⟨hspec.holds, fun k c c' hc hc' hnone => ?_,
    fun p' q' c hmem hc => ?_⟩ false, ⟨hrpu, hspec.space_eq .tiler (by decide), hspec.mpuTiler_eq,
    hspec.tilerMpu_eq⟩, hspec.tiler_eq⟩
  · rw [dvpRpcMemRemove, RcmRpc.lock_eq hlocked]
    simp only [ok_bind, htype, if_false, hloop]
    rfl
  · rw [hrpu] at hnone ⊢
    by_cases hk : k = p
    · rw [if_pos hk]
    · rw [if_neg hk] at hnone ⊢
      exact h.uniform k c c' hc hc' hnone
  · rw [hspec.space_eq .tiler (by decide)]
    rw [hspec.tiler_eq] at hmem
    exact h.tiler_remote p' q' c hmem hc

/-- The removal of a pointer that the hashes have no tiler address for. -/
theorem remove_tiler_none (h : RcmInv enabled rpc t) (hlocked : rpc.locked = false)
    (hp : t.mpuTiler p = none) :
    dvpRpcMemRemove a enabled rpc p localSize .mpucachedVirtual = .ok rpc := by
  have hget := h.mpuTiler.get_none (a := a) hp
  rw [dvpRpcMemRemove, RcmRpc.lock_eq hlocked]
  simp only [ok_bind, if_true, hget]
  change Except.ok { rpc with locked := true }.unlock = _
  rw [RcmRpc.unlock_eq hlocked]

/-- The removal of a pointer that the hashes have a tiler address for. -/
theorem remove_tiler_spec (localSize : Nat) (h : RcmInv enabled rpc t) (hlocked : rpc.locked = false)
    (hp : t.mpuTiler p = some q) :
    ∃ rpc' t', dvpRpcMemRemove a enabled rpc p localSize .mpucachedVirtual = .ok rpc' ∧
      rpc'.locked = false ∧ RcmInv enabled rpc' t' ∧ TilerRemoved p q t t' ∧
      ∀ p' q', (p', q') ∈ rpc'.mapped.tiler ↔ (p', q') ∈ rpc.mapped.tiler ∧ q' ≠ q := by
  -- first the remote cores forget `q`, then both hashes of the tiler do
  have hpq := h.mpuTiler_tiler p q hp
  obtain ⟨rpc₁, t₁, hloop, hspec⟩ := removeTilerCores_spec (a := a) (remoteCores enabled)
    (h.relock true).toRcmHolds nodup_remoteCores fun c hc =>
      h.tiler_remote p q c hpq (mem_remoteCores.mp hc)
  obtain ⟨r, backward, hbackward, hholds⟩ := hspec.holds.tilerMpu.clr_pointer (a := a) q
  obtain ⟨r', forward, hforward, hholds'⟩ := hspec.holds.mpuTiler.clr_pointer (a := a) p
  have hbackward' : fphClr a (rpc₁.unmapTiler q).mpuTiler.backward q = .ok (r, backward) := hbackward
  have hforward' : fphClr a (rpc₁.unmapTiler q).mpuTiler.forward p = .ok (r', forward) := hforward
  have hrpu := hspec.rpu_remoteCores h.disabled
  -- no pair with `q` is mapped any more, and all others are
  have hmem : ∀ p' q', (p', q') ∈ (rpc₁.unmapTiler q).mapped.tiler ↔
      (p', q') ∈ rpc.mapped.tiler ∧ q' ≠ q := fun p' q' => by
    change (p', q') ∈ rpc₁.mapped.tiler.filter (fun pair => pair.2.val ≠ q.val) ↔ _
    rw [Finset.mem_filter, hspec.tiler_eq]
    exact and_congr_right fun _ => not_congr Subtype.ext_iff.symm
  refine ⟨{ rpc₁.unmapTiler q with mpuTiler := ⟨forward, backward⟩ }.unlock,
    ⟨t₁.rpu, Function.update t.mpuTiler p none, Function.update t.tilerMpu q none⟩, ?_, rfl,
    ⟨⟨hspec.holds.rpu, ?_, ?_, hspec.holds.disabled, hspec.holds.mapped, hspec.holds.apart, ?_, ?_, ?_,
      ?_⟩, ?_, ?_⟩, ⟨hspec.space_eq .mpu (by decide), hrpu, rfl, rfl⟩, hmem⟩
  · have hget := h.mpuTiler.get_eq (a := a) p
    dsimp only at hget
    rw [hp, Option.map_some, fphAnswer] at hget
    rw [dvpRpcMemRemove, RcmRpc.lock_eq hlocked]
    simp only [ok_bind, if_true, hget, ne_eq, one_ne_zero, not_false_eq_true, hloop, hbackward',
      hforward']
    rfl
  · rw [← hspec.mpuTiler_eq]
    exact hholds'
  · rw [← hspec.tilerMpu_eq]
    exact hholds
  · intro c k x hx
    change t₁.rpu .tiler c k = some x at hx
    rw [hrpu] at hx
    split at hx
    · cases hx
    · next hk =>
      obtain ⟨p', hp'⟩ := h.rpu_tiler c k x hx
      exact ⟨p', (hmem p' k).mpr ⟨hp', hk⟩⟩
  · intro p' q' hp'
    change Function.update t.mpuTiler p none p' = some q' at hp'
    by_cases hpp : p' = p
    · subst hpp
      rw [Function.update_self] at hp'
      cases hp'
    · rw [Function.update_of_ne hpp] at hp'
      -- another pointer with the same tiler address would be the same pointer
      have hold := h.mpuTiler_tiler p' q' hp'
      refine (hmem p' q').mpr ⟨hold, fun hqq => hpp ?_⟩
      exact h.tiler_unique p' p q (hqq ▸ hold) hpq
  · intro p' q' hq'
    change Function.update t.tilerMpu q none q' = some p' at hq'
    by_cases hqq : q' = q
    · subst hqq
      rw [Function.update_self] at hq'
      cases hq'
    · rw [Function.update_of_ne hqq] at hq'
      exact (hmem p' q').mpr ⟨h.tilerMpu_tiler p' q' hq', hqq⟩
  · intro p₁ p₂ q' hp₁ hp₂
    exact h.tiler_unique p₁ p₂ q' ((hmem p₁ q').mp hp₁).1 ((hmem p₂ q').mp hp₂).1
  · intro k c c' hc hc' hnone
    change t₁.rpu .mpu c k = none at hnone
    change t₁.rpu .mpu c' k = none
    rw [hspec.space_eq .mpu (by decide)] at hnone ⊢
    exact h.uniform k c c' hc hc' hnone
  · intro p' q' c hp' hc
    obtain ⟨hold, hqq⟩ := (hmem p' q').mp hp'
    change t₁.rpu .tiler c q' ≠ none
    rw [hrpu, if_neg hqq]
    exact h.tiler_remote p' q' c hold hc

/-! ## Backward translation -/

/-- A remote address of a pointer is translated back to it. -/
theorem xlateBack_local (h : RcmInv enabled rpc t) (hlocked : rpc.locked = false)
    (henabled : enabled c.toCore = true) (htype : memType ≠ .mpucached1dtiled)
    (hx : t.rpu .mpu c p = some x) :
    dvpRpcMemXlateBack a enabled rpc c.toCore x memType = .ok p.val := by
  have hget := (h.rpu .mpu c).backward.get_some (a := a) ((t.rpu .mpu c).eq_some_iff.mpr hx)
  rw [dvpRpcMemXlateBack, RcmRpc.lock_eq hlocked, c.remote?_toCore]
  simp only [ok_bind, henabled, htype, if_true, if_false, hget]
  rfl

/-- A remote address of a pointer is translated back to it by way of the tiler. -/
theorem xlateBack_tiled (h : RcmInv enabled rpc t) (hlocked : rpc.locked = false)
    (henabled : enabled c.toCore = true) (hx : t.rpu .tiler c q = some x)
    (hq : t.tilerMpu q = some p) :
    dvpRpcMemXlateBack a enabled rpc c.toCore x .mpucached1dtiled = .ok p.val := by
  have hget := (h.rpu .tiler c).backward.get_some (a := a) ((t.rpu .tiler c).eq_some_iff.mpr hx)
  have hget' := h.tilerMpu.get_some (a := a) hq
  rw [dvpRpcMemXlateBack, RcmRpc.lock_eq hlocked, c.remote?_toCore]
  simp only [ok_bind, henabled, if_true, hget, hget']
  rfl

end DVP.Kgraph
