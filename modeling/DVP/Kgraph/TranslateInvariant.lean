import DVP.Kgraph.Translate
import DVP.Lib.Run

/-!
# The invariant of the translation hashes

The abstract state is a partial equivalence for the pointers and one for the tiler addresses of each core, and
the two directions between pointers and tiler addresses. `RcmHolds` says that the hashes hold it and what it
has to do with the addresses that are mapped; this is kept by every core that a loop has done.
`RcmInv` adds what holds between two calls only.

* `mapToCores_spec`, `mapToCores_full`: the loops of `dvp_rpc_mem_xlate_fwrd` map all cores, or one
  of them has no room and the call unwinds.
* `removeTilerCores_spec`, `removeLocalCores_spec`: the loops of `dvp_rpc_mem_remove`.
-/

namespace DVP.Kgraph

open DVP.Sosal

/-- What the hashes hold. -/
structure Translations where
  rpu : AddrSpace → RemoteCore → (FphKey ≃. FphKey)
  mpuTiler : FphKey → Option FphKey
  tilerMpu : FphKey → Option FphKey

/-- `t` with other pairs of a core. -/
def Translations.setRpu (t : Translations) (space : AddrSpace) (c : RemoteCore)
    (e : FphKey ≃. FphKey) : Translations :=
  { t with rpu := fun space' c' => if space' = space ∧ c' = c then e else t.rpu space' c' }

/-- The hashes hold `t`, and what is in them is mapped. -/
structure RcmHolds (enabled : Core → Bool) (rpc : RcmRpc) (t : Translations) : Prop where
  rpu : ∀ space c, (rpc.rpu space c).Holds (t.rpu space c)
  mpuTiler : FphHolds ⟨rpc.mpuTiler.forward, fun p => (t.mpuTiler p).map Subtype.val⟩
  tilerMpu : FphHolds ⟨rpc.mpuTiler.backward, fun q => (t.tilerMpu q).map Subtype.val⟩
  disabled : ∀ space c k, enabled c.toCore = false → t.rpu space c k = none
  mapped : ∀ space c k x, t.rpu space c k = some x → x ∈ rpc.mapped.remote c
  apart : ∀ c k k' x, t.rpu .mpu c k = some x → t.rpu .tiler c k' ≠ some x
  rpu_tiler : ∀ c q x, t.rpu .tiler c q = some x → ∃ p, (p, q) ∈ rpc.mapped.tiler
  mpuTiler_tiler : ∀ p q, t.mpuTiler p = some q → (p, q) ∈ rpc.mapped.tiler
  tilerMpu_tiler : ∀ p q, t.tilerMpu q = some p → (p, q) ∈ rpc.mapped.tiler
  tiler_unique : ∀ p p' q, (p, q) ∈ rpc.mapped.tiler → (p', q) ∈ rpc.mapped.tiler → p = p'

/-- Between two calls a pointer is mapped on all cores or on none, and every tiler address is mapped on all
cores. -/
structure RcmInv (enabled : Core → Bool) (rpc : RcmRpc) (t : Translations) : Prop
    extends RcmHolds enabled rpc t where
  uniform : ∀ p c c', enabled c.toCore = true → enabled c'.toCore = true →
    t.rpu .mpu c p = none → t.rpu .mpu c' p = none
  tiler_remote : ∀ p q c, (p, q) ∈ rpc.mapped.tiler → enabled c.toCore = true →
    t.rpu .tiler c q ≠ none

variable {a : Arch} {enabled : Core → Bool}

/-! ## The hashes of one core -/

theorem RemoteCore.toCore_injective : Function.Injective RemoteCore.toCore := fun _ _ h =>
  Fin.ext (Fin.mk.inj h)

namespace RcmRpc

variable {rpc : RcmRpc} {space space' : AddrSpace} {c c' : RemoteCore} {addr x : FphKey} {n : Nat}
  {hashes : TwoWay}

theorem setRpu_rpu : (rpc.setRpu space c hashes).rpu space' c' =
    if space' = space ∧ c' = c then hashes else rpc.rpu space' c' := rfl

theorem mem_mapRemote : x ∈ (rpc.mapRemote c addr).mapped.remote c' ↔
    (c' = c ∧ x = addr) ∨ x ∈ rpc.mapped.remote c' := by
  by_cases hc : c' = c
  · subst hc
    simp [mapRemote]
  · simp [mapRemote, hc]

theorem mem_unmapRemote : x ∈ (rpc.unmapRemote c n).mapped.remote c' ↔
    x ∈ rpc.mapped.remote c' ∧ ¬(c' = c ∧ x.val = n) := by
  by_cases hc : c' = c
  · subst hc
    simp [unmapRemote]
  · simp [unmapRemote, hc]

end RcmRpc

namespace Translations

variable {t : Translations} {space space' : AddrSpace} {c c' : RemoteCore} {e : FphKey ≃. FphKey}

theorem setRpu_rpu : (t.setRpu space c e).rpu space' c' =
    if space' = space ∧ c' = c then e else t.rpu space' c' := rfl

theorem setRpu_of_ne (hspace : space' ≠ space) : (t.setRpu space c e).rpu space' = t.rpu space' :=
  funext fun _ => if_neg fun h => hspace h.1

/-- The hashes of one core are exchanged together with what they hold. -/
theorem holds_setRpu {rpc : RcmRpc} {hashes : TwoWay}
    (h : ∀ space c, (rpc.rpu space c).Holds (t.rpu space c)) (hhashes : hashes.Holds e)
    (space' : AddrSpace) (c' : RemoteCore) :
    ((rpc.setRpu space c hashes).rpu space' c').Holds ((t.setRpu space c e).rpu space' c') := by
  rw [RcmRpc.setRpu_rpu, setRpu_rpu]
  by_cases hplace : space' = space ∧ c' = c
  · rw [if_pos hplace, if_pos hplace]
    exact hhashes
  · rw [if_neg hplace, if_neg hplace]
    exact h space' c'

/-- A change to one core and then to others. -/
theorem ite_mem_cons {β : Type} {cs : List RemoteCore} {k key : FphKey} {y z : β} :
    (if c' ∈ cs ∧ k = key then y else if c' ∈ [c] ∧ k = key then y else z) =
      if c' ∈ c :: cs ∧ k = key then y else z := by
  by_cases hk : k = key
  · by_cases hcs : c' ∈ cs
    · rw [if_pos ⟨hcs, hk⟩, if_pos ⟨List.mem_cons_of_mem _ hcs, hk⟩]
    · simp only [hcs, hk, List.mem_cons, List.not_mem_nil, or_false, false_and, if_false]
  · simp only [hk, and_false, if_false]

end Translations

namespace RcmHolds

variable {rpc : RcmRpc} {t : Translations} {space : AddrSpace} {c : RemoteCore} {k x : FphKey}
  {hashes : TwoWay}

/-- An address that is not mapped is in no hash. -/
theorem symm_eq_none (h : RcmHolds enabled rpc t) (hx : x ∉ rpc.mapped.remote c) :
    (t.rpu space c).symm x = none := by
  by_contra hne
  obtain ⟨k, hk⟩ := Option.ne_none_iff_exists'.mp hne
  exact hx (h.mapped space c k x ((t.rpu space c).eq_some_iff.mp hk))

/-- A new pair of addresses is added to the hashes of a core. -/
theorem extend (h : RcmHolds enabled rpc t) (henabled : enabled c.toCore = true)
    (hk : t.rpu space c k = none) (hx : x ∉ rpc.mapped.remote c)
    (hsource : space = .tiler → ∃ p, (p, k) ∈ rpc.mapped.tiler)
    (hhashes : hashes.Holds ((t.rpu space c).extend k x hk (h.symm_eq_none hx))) :
    RcmHolds enabled ((rpc.mapRemote c x).setRpu space c hashes)
      (t.setRpu space c ((t.rpu space c).extend k x hk (h.symm_eq_none hx))) := by
  -- after the call the hashes have the new pair and the old ones
  have hnew : ∀ space' c' k' y, (t.setRpu space c ((t.rpu space c).extend k x hk
      (h.symm_eq_none hx))).rpu space' c' k' = some y →
      ((space' = space ∧ c' = c) ∧ k' = k ∧ y = x) ∨ t.rpu space' c' k' = some y := by
    intro space' c' k' y hy
    rw [Translations.setRpu_rpu] at hy
    by_cases hplace : space' = space ∧ c' = c
    · rw [if_pos hplace, PEquiv.extend_apply] at hy
      split at hy
      · next hkk => exact .inl ⟨hplace, hkk, (Option.some.inj hy).symm⟩
      · obtain ⟨rfl, rfl⟩ := hplace
        exact .inr hy
    · rw [if_neg hplace] at hy
      exact .inr hy
  refine ⟨Translations.holds_setRpu h.rpu hhashes, h.mpuTiler, h.tilerMpu, ?_, ?_, ?_, ?_,
    h.mpuTiler_tiler, h.tilerMpu_tiler, h.tiler_unique⟩
  · intro space' c' k' hdisabled
    by_contra hne
    obtain ⟨y, hy⟩ := Option.ne_none_iff_exists'.mp hne
    rcases hnew space' c' k' y hy with ⟨⟨-, rfl⟩, -⟩ | hold
    · rw [henabled] at hdisabled
      cases hdisabled
    · rw [h.disabled space' c' k' hdisabled] at hold
      cases hold
  · intro space' c' k' y hy
    apply RcmRpc.mem_mapRemote.mpr
    rcases hnew space' c' k' y hy with ⟨⟨-, hc⟩, -, hyx⟩ | hold
    · exact .inl ⟨hc, hyx⟩
    · exact .inr (h.mapped space' c' k' y hold)
  · -- Only one of the two address spaces gets the new address, and the other one did not have it.
    intro c' k' k'' y hy hy'
    rcases hnew .mpu c' k' y hy with ⟨⟨hspace, rfl⟩, -, rfl⟩ | hold <;>
      rcases hnew .tiler c' k'' y hy' with ⟨⟨hspace', hc⟩, -, hyx⟩ | hold'
    · rw [← hspace] at hspace'
      cases hspace'
    · exact hx (h.mapped _ _ _ _ hold')
    · subst hc hyx
      exact hx (h.mapped _ _ _ _ hold)
    · exact h.apart c' k' k'' y hold hold'
  · intro c' q y hy
    rcases hnew .tiler c' q y hy with ⟨⟨hspace, -⟩, rfl, -⟩ | hold
    · exact hsource hspace.symm
    · exact h.rpu_tiler c' q y hold

end RcmHolds

/-! ## Mapping an address for the cores -/

/-- The hashes of a core have room for an address, and the mapping services map it. -/
def MapsTo (rpc : RcmRpc) (space : AddrSpace) (key : FphKey) (answers : MapAnswers) (c : RemoteCore) :
    Prop :=
  ∃ addr, answers.remote c = some addr ∧ (rpc.rpu space c).HasRoom key addr

/-- The addresses that the mapping services answer are not mapped yet. -/
def FreshOn (rpc : RcmRpc) (answers : MapAnswers) (c : RemoteCore) : Prop :=
  ∀ addr, answers.remote c = some addr → addr ∉ rpc.mapped.remote c

/-- What the loop does that maps the address `key` for the cores `cs`. -/
structure MapSpec (enabled : Core → Bool) (space : AddrSpace) (core : Core) (key : FphKey)
    (answers : MapAnswers) (cs : List RemoteCore) (x x' : Xlate) (t t' : Translations) : Prop where
  holds : RcmHolds enabled x'.rpc t'
  unwind_eq : x'.unwind = x.unwind
  rpu_eq : ∀ c k, t'.rpu space c k =
    if c ∈ cs ∧ k = key then answers.remote c else t.rpu space c k
  space_eq : ∀ space', space' ≠ space → t'.rpu space' = t.rpu space'
  mpuTiler_eq : t'.mpuTiler = t.mpuTiler
  tilerMpu_eq : t'.tilerMpu = t.tilerMpu
  locked_eq : x'.rpc.locked = x.rpc.locked
  tiler_eq : x'.rpc.mapped.tiler = x.rpc.mapped.tiler
  /-- The cores that are not done have the hashes and the addresses they had. -/
  hashes_eq : ∀ c ∉ cs, x'.rpc.rpu space c = x.rpc.rpu space c
  remote_eq : ∀ c ∉ cs, x'.rpc.mapped.remote c = x.rpc.mapped.remote c
  remoteAddr_eq : ∀ c ∈ cs, core = c.toCore →
    ∃ addr, answers.remote c = some addr ∧ x'.remoteAddr = addr.val
  remoteAddr_other : (∀ c ∈ cs, core ≠ c.toCore) → x'.remoteAddr = x.remoteAddr

section Map

variable {x x' : Xlate} {t t' : Translations} {space : AddrSpace} {core : Core} {c : RemoteCore}
  {cs : List RemoteCore} {key : FphKey} {answers : MapAnswers}

/-- One core is mapped. -/
theorem mapToCore_spec (core : Core) (h : RcmHolds enabled x.rpc t)
    (henabled : enabled c.toCore = true)
    (hkey : t.rpu space c key = none) (hfresh : FreshOn x.rpc answers c)
    (hsource : space = .tiler → ∃ p, (p, key) ∈ x.rpc.mapped.tiler)
    (hmaps : MapsTo x.rpc space key answers c) :
    ∃ x' t', mapToCore a space core key answers x c = .ok x' ∧
      MapSpec enabled space core key answers [c] x x' t t' := by
  obtain ⟨addr, haddr, hroom⟩ := hmaps
  have hx := hfresh addr haddr
  obtain ⟨hashes, hinstall, hholds⟩ :=
    (h.rpu space c).install (a := a) hkey (h.symm_eq_none hx) hroom
  have hmap : mapToCore a space core key answers x c = .ok {
      rpc := (x.rpc.mapRemote c addr).setRpu space c hashes
      remoteAddr := if true ∧ core = c.toCore then addr else x.remoteAddr
      unwind := x.unwind || !true } := by
    rw [mapToCore, haddr]
    dsimp only
    rw [hinstall]
    rfl
  refine ⟨_, _, hmap, h.extend henabled hkey hx hsource hholds, ?_, fun c' k => ?_,
    fun _ hspace => Translations.setRpu_of_ne hspace, rfl, rfl, rfl, rfl, fun c' hc' => ?_,
    fun c' hc' => ?_, fun c' hc' hcore => ?_, fun hcore => ?_⟩
  · exact Bool.or_false _
  · rw [Translations.setRpu_rpu]
    by_cases hc : c' = c
    · subst hc
      rw [if_pos ⟨rfl, rfl⟩, PEquiv.extend_apply, ← haddr]
      simp only [List.mem_singleton, true_and]
    · rw [if_neg fun h => hc h.2, if_neg fun h => hc (List.mem_singleton.mp h.1)]
  · rw [RcmRpc.setRpu_rpu, if_neg fun h => hc' (List.mem_singleton.mpr h.2)]
    rfl
  · exact Function.update_of_ne (fun h => hc' (List.mem_singleton.mpr h)) ..
  · obtain rfl := List.mem_singleton.mp hc'
    exact ⟨addr, haddr, if_pos ⟨rfl, hcore⟩⟩
  · exact if_neg fun h => hcore c List.mem_cons_self h.2

/-- A core without room, or that the mapping services do not map, makes the call unwind. -/
theorem mapToCore_full (core : Core) (h : RcmHolds enabled x.rpc t) (hkey : t.rpu space c key = none)
    (hfresh : FreshOn x.rpc answers c) (hmaps : ¬MapsTo x.rpc space key answers c) :
    ∃ x', mapToCore a space core key answers x c = .ok x' ∧ x'.unwind = true := by
  rw [mapToCore]
  cases haddr : answers.remote c with
  | none => exact ⟨_, rfl, rfl⟩
  | some addr =>
    obtain ⟨there, hashes, hinstall⟩ := (h.rpu space c).install_full (a := a) hkey
      (h.symm_eq_none (hfresh addr haddr)) fun hroom => hmaps ⟨addr, haddr, hroom⟩
    dsimp only
    rw [hinstall]
    exact ⟨_, rfl, Bool.or_true _⟩

/-- A call that is to unwind unwinds. -/
theorem mapToCore_unwind {n : Nat} (hunwind : x.unwind = true)
    (hmap : mapToCore a space core n answers x c = .ok x') : x'.unwind = true := by
  rw [mapToCore] at hmap
  split at hmap
  · cases hmap
    rfl
  · cases hinstall : (x.rpc.rpu space c).install a n _ with
    | error fault =>
      rw [hinstall] at hmap
      cases hmap
    | ok answer =>
      rw [hinstall] at hmap
      cases hmap
      dsimp only
      rw [hunwind, Bool.true_or]

theorem mapToCores_unwind {n : Nat} (hunwind : x.unwind = true)
    (hmap : cs.foldlM (mapToCore a space core n answers) x = .ok x') : x'.unwind = true :=
  Machine.foldlM_keeps (P := fun x => x.unwind = true)
    (fun _ _ _ hunwind hmap => mapToCore_unwind hunwind hmap) hunwind hmap

/-- One core after the other. -/
theorem MapSpec.cons {x₁ : Xlate} {t₁ : Translations} (hc : c ∉ cs)
    (hfirst : MapSpec enabled space core key answers [c] x x₁ t t₁)
    (hrest : MapSpec enabled space core key answers cs x₁ x' t₁ t') :
    MapSpec enabled space core key answers (c :: cs) x x' t t' := by
  refine ⟨hrest.holds, hrest.unwind_eq.trans hfirst.unwind_eq, fun c' k => ?_, fun space' hspace => ?_,
    hrest.mpuTiler_eq.trans hfirst.mpuTiler_eq, hrest.tilerMpu_eq.trans hfirst.tilerMpu_eq,
    hrest.locked_eq.trans hfirst.locked_eq, hrest.tiler_eq.trans hfirst.tiler_eq,
    fun c' hc' => ?_, fun c' hc' => ?_, fun c' hc' hcore => ?_, fun hcore => ?_⟩
  · rw [hrest.rpu_eq, hfirst.rpu_eq, Translations.ite_mem_cons]
  · rw [hrest.space_eq space' hspace, hfirst.space_eq space' hspace]
  · have hne : c' ∉ [c] := fun h => hc' (List.mem_singleton.mp h ▸ List.mem_cons_self)
    rw [hrest.hashes_eq c' fun h => hc' (List.mem_cons_of_mem _ h), hfirst.hashes_eq c' hne]
  · have hne : c' ∉ [c] := fun h => hc' (List.mem_singleton.mp h ▸ List.mem_cons_self)
    rw [hrest.remote_eq c' fun h => hc' (List.mem_cons_of_mem _ h), hfirst.remote_eq c' hne]
  · rcases List.mem_cons.mp hc' with rfl | hcs
    · -- No core of the rest is the core of the call.
      obtain ⟨addr, haddr, hremote⟩ := hfirst.remoteAddr_eq c' List.mem_cons_self hcore
      refine ⟨addr, haddr, (hrest.remoteAddr_other fun d hd hd' => hc ?_).trans hremote⟩
      rw [RemoteCore.toCore_injective (hcore.symm.trans hd')]
      exact hd
    · exact hrest.remoteAddr_eq c' hcs hcore
  · rw [hrest.remoteAddr_other fun d hd => hcore d (List.mem_cons_of_mem _ hd),
      hfirst.remoteAddr_other fun d hd => ?_]
    rw [List.mem_singleton.mp hd]
    exact hcore c List.mem_cons_self

section Rest

variable {d : RemoteCore} (h : MapSpec enabled space core key answers cs x x' t t') (hd : d ∉ cs)

include h hd

/-- A core that is not done has what it had. -/
theorem MapSpec.rpu_of_notMem : t'.rpu space d key = t.rpu space d key := by
  rw [h.rpu_eq, if_neg fun hmem => hd hmem.1]

theorem MapSpec.freshOn_iff : FreshOn x'.rpc answers d ↔ FreshOn x.rpc answers d := by
  rw [FreshOn, FreshOn, h.remote_eq d hd]

theorem MapSpec.mapsTo_iff : MapsTo x'.rpc space key answers d ↔ MapsTo x.rpc space key answers d := by
  rw [MapsTo, MapsTo, h.hashes_eq d hd]

end Rest

/-- Nothing is mapped for no core. -/
theorem MapSpec.nil (h : RcmHolds enabled x.rpc t) :
    MapSpec enabled space core key answers [] x x t t := by
  refine ⟨h, rfl, fun c k => ?_, fun _ _ => rfl, rfl, rfl, rfl, rfl, fun _ _ => rfl, fun _ _ => rfl,
    fun c hc => absurd hc List.not_mem_nil, fun _ => rfl⟩
  rw [if_neg fun h => List.not_mem_nil h.1]

/-- The loop maps the address for all cores that are left. -/
theorem mapToCores_spec (core : Core) (h : RcmHolds enabled x.rpc t) (hnodup : cs.Nodup)
    (henabled : ∀ c ∈ cs, enabled c.toCore = true) (hkey : ∀ c ∈ cs, t.rpu space c key = none)
    (hfresh : ∀ c ∈ cs, FreshOn x.rpc answers c)
    (hsource : space = .tiler → ∃ p, (p, key) ∈ x.rpc.mapped.tiler)
    (hmaps : ∀ c ∈ cs, MapsTo x.rpc space key answers c) :
    ∃ x' t', cs.foldlM (mapToCore a space core key answers) x = .ok x' ∧
      MapSpec enabled space core key answers cs x x' t t' := by
  induction cs generalizing x t with
  | nil => exact ⟨x, t, rfl, MapSpec.nil h⟩
  | cons c cs ih =>
    obtain ⟨hc, hcs⟩ := List.nodup_cons.mp hnodup
    obtain ⟨x₁, t₁, hmap, hfirst⟩ := mapToCore_spec (a := a) core h
      (henabled c List.mem_cons_self) (hkey c List.mem_cons_self) (hfresh c List.mem_cons_self)
      hsource (hmaps c List.mem_cons_self)
    have hne : ∀ d ∈ cs, d ∉ [c] := fun d hd hdc => hc (List.mem_singleton.mp hdc ▸ hd)
    obtain ⟨x', t', hrest, hspec⟩ := ih hfirst.holds hcs
      (fun d hd => henabled d (List.mem_cons_of_mem _ hd))
      (fun d hd => (hfirst.rpu_of_notMem (hne d hd)).trans (hkey d (List.mem_cons_of_mem _ hd)))
      (fun d hd => (hfirst.freshOn_iff (hne d hd)).mpr (hfresh d (List.mem_cons_of_mem _ hd)))
      (by rwa [hfirst.tiler_eq])
      (fun d hd => (hfirst.mapsTo_iff (hne d hd)).mpr (hmaps d (List.mem_cons_of_mem _ hd)))
    refine ⟨x', t', ?_, hfirst.cons hc hspec⟩
    rw [List.foldlM_cons, hmap]
    exact hrest

/-- A loop that does not make the call unwind mapped all cores. -/
theorem mapsTo_of_mapToCores (h : RcmHolds enabled x.rpc t) (hnodup : cs.Nodup)
    (henabled : ∀ c ∈ cs, enabled c.toCore = true) (hkey : ∀ c ∈ cs, t.rpu space c key = none)
    (hfresh : ∀ c ∈ cs, FreshOn x.rpc answers c)
    (hsource : space = .tiler → ∃ p, (p, key) ∈ x.rpc.mapped.tiler)
    (hmap : cs.foldlM (mapToCore a space core key answers) x = .ok x') (hunwind : x'.unwind = false) :
    ∀ c ∈ cs, MapsTo x.rpc space key answers c := by
  induction cs generalizing x t with
  | nil => exact fun c hc => absurd hc List.not_mem_nil
  | cons c cs ih =>
    obtain ⟨hc, hcs⟩ := List.nodup_cons.mp hnodup
    have hne : ∀ d ∈ cs, d ∉ [c] := fun d hd hdc => hc (List.mem_singleton.mp hdc ▸ hd)
    rw [List.foldlM_cons] at hmap
    by_cases hmaps : MapsTo x.rpc space key answers c
    · obtain ⟨x₁, t₁, hone, hfirst⟩ := mapToCore_spec (a := a) core h
        (henabled c List.mem_cons_self) (hkey c List.mem_cons_self) (hfresh c List.mem_cons_self)
        hsource hmaps
      rw [hone] at hmap
      have hrest := ih hfirst.holds hcs
        (fun d hd => henabled d (List.mem_cons_of_mem _ hd))
        (fun d hd => (hfirst.rpu_of_notMem (hne d hd)).trans (hkey d (List.mem_cons_of_mem _ hd)))
        (fun d hd => (hfirst.freshOn_iff (hne d hd)).mpr (hfresh d (List.mem_cons_of_mem _ hd)))
        (by rwa [hfirst.tiler_eq]) hmap
      exact List.forall_mem_cons.mpr
        ⟨hmaps, fun d hd => (hfirst.mapsTo_iff (hne d hd)).mp (hrest d hd)⟩
    · -- One core that is not mapped makes the whole call unwind.
      obtain ⟨x₁, hone, hfail⟩ := mapToCore_full (a := a) core h
        (hkey c List.mem_cons_self) (hfresh c List.mem_cons_self) hmaps
      rw [hone] at hmap
      rw [mapToCores_unwind hfail hmap] at hunwind
      cases hunwind

end Map

/-! ## Removing an address from the cores -/

/-- The pair of an address is taken out of the hashes of a core, and its remote address may be
unmapped. -/
theorem RcmHolds.erase {rpc : RcmRpc} {t : Translations} {space : AddrSpace} {c : RemoteCore}
    {k x : FphKey} {hashes : TwoWay} (h : RcmHolds enabled rpc t) (hk : t.rpu space c k = some x)
    (hhashes : hashes.Holds ((t.rpu space c).erase k)) (unmap : Bool) :
    RcmHolds enabled ((if unmap then rpc.unmapRemote c x else rpc).setRpu space c hashes)
      (t.setRpu space c ((t.rpu space c).erase k)) := by
  have hold : ∀ space' c' k' y, (t.setRpu space c ((t.rpu space c).erase k)).rpu space' c' k' = some y →
      t.rpu space' c' k' = some y ∧ ¬((space' = space ∧ c' = c) ∧ k' = k) := by
    intro space' c' k' y hy
    rw [Translations.setRpu_rpu] at hy
    by_cases hplace : space' = space ∧ c' = c
    · rw [if_pos hplace, PEquiv.erase_apply] at hy
      split at hy
      · cases hy
      · next hne =>
        obtain ⟨rfl, rfl⟩ := hplace
        exact ⟨hy, fun h => hne h.2⟩
    · rw [if_neg hplace] at hy
      exact ⟨hy, fun h => hplace h.1⟩
  -- What is left on the core has another remote address.
  have hother : ∀ space' c' k' y, t.rpu space' c' k' = some y →
      ¬((space' = space ∧ c' = c) ∧ k' = k) → ¬(c' = c ∧ y.val = x.val) := by
    rintro space' c' k' y hy hne ⟨rfl, hyx⟩
    obtain rfl := Subtype.ext hyx
    by_cases hspace : space' = space
    · subst hspace
      exact hne ⟨⟨rfl, rfl⟩, (t.rpu space' c').inj (Option.mem_def.mpr hy) (Option.mem_def.mpr hk)⟩
    · cases space' <;> cases space
      · exact hspace rfl
      · exact h.apart c' k' k y hy hk
      · exact h.apart c' k k' y hk hy
      · exact hspace rfl
  have htiler : (if unmap then rpc.unmapRemote c x else rpc).mapped.tiler = rpc.mapped.tiler := by
    cases unmap <;> rfl
  have hrpu : (if unmap then rpc.unmapRemote c x else rpc).rpu = rpc.rpu := by cases unmap <;> rfl
  refine ⟨Translations.holds_setRpu (fun space' c' => hrpu ▸ h.rpu space' c') hhashes, ?_, ?_, ?_, ?_,
    ?_, ?_, ?_, ?_, ?_⟩
  · cases unmap <;> exact h.mpuTiler
  · cases unmap <;> exact h.tilerMpu
  · intro space' c' k' hdisabled
    by_contra hne
    obtain ⟨y, hy⟩ := Option.ne_none_iff_exists'.mp hne
    cases (hold space' c' k' y hy).1.symm.trans (h.disabled space' c' k' hdisabled)
  · intro space' c' k' y hy
    obtain ⟨hy, hne⟩ := hold space' c' k' y hy
    have hmem := h.mapped space' c' k' y hy
    cases unmap with
    | false => exact hmem
    | true => exact RcmRpc.mem_unmapRemote.mpr ⟨hmem, hother space' c' k' y hy hne⟩
  · intro c' k' k'' y hy hy'
    exact h.apart c' k' k'' y (hold _ _ _ _ hy).1 (hold _ _ _ _ hy').1
  · intro c' q y hy
    change ∃ p, (p, q) ∈ (if unmap then rpc.unmapRemote c x else rpc).mapped.tiler
    rw [htiler]
    exact h.rpu_tiler c' q y (hold _ _ _ _ hy).1
  · intro p q hq
    change (p, q) ∈ (if unmap then rpc.unmapRemote c x else rpc).mapped.tiler
    rw [htiler]
    exact h.mpuTiler_tiler p q hq
  · intro p q hq
    change (p, q) ∈ (if unmap then rpc.unmapRemote c x else rpc).mapped.tiler
    rw [htiler]
    exact h.tilerMpu_tiler p q hq
  · intro p p' q hp hp'
    change (p, q) ∈ (if unmap then rpc.unmapRemote c x else rpc).mapped.tiler at hp
    change (p', q) ∈ (if unmap then rpc.unmapRemote c x else rpc).mapped.tiler at hp'
    rw [htiler] at hp hp'
    exact h.tiler_unique p p' q hp hp'

/-- What the loop does that removes the address `key` from the cores `cs`. -/
structure RemoveSpec (enabled : Core → Bool) (space : AddrSpace) (key : FphKey)
    (cs : List RemoteCore) (rpc rpc' : RcmRpc) (t t' : Translations) : Prop where
  holds : RcmHolds enabled rpc' t'
  rpu_eq : ∀ c k, t'.rpu space c k = if c ∈ cs ∧ k = key then none else t.rpu space c k
  space_eq : ∀ space', space' ≠ space → t'.rpu space' = t.rpu space'
  mpuTiler_eq : t'.mpuTiler = t.mpuTiler
  tilerMpu_eq : t'.tilerMpu = t.tilerMpu
  locked_eq : rpc'.locked = rpc.locked
  tiler_eq : rpc'.mapped.tiler = rpc.mapped.tiler

section Remove

variable {rpc rpc' : RcmRpc} {t t' : Translations} {space : AddrSpace} {c : RemoteCore}
  {cs : List RemoteCore} {key : FphKey} {localSize : Nat}

/-- The pair of one core is removed. -/
theorem RemoveSpec.one {x : FphKey} {hashes : TwoWay} (h : RcmHolds enabled rpc t)
    (hkey : t.rpu space c key = some x) (hhashes : hashes.Holds ((t.rpu space c).erase key))
    (unmap : Bool) :
    RemoveSpec enabled space key [c] rpc
      ((if unmap then rpc.unmapRemote c x else rpc).setRpu space c hashes) t
      (t.setRpu space c ((t.rpu space c).erase key)) := by
  refine ⟨h.erase hkey hhashes unmap, fun c' k => ?_, fun _ hspace => Translations.setRpu_of_ne hspace,
    rfl, rfl, ?_, ?_⟩
  · rw [Translations.setRpu_rpu]
    by_cases hc : c' = c
    · subst hc
      rw [if_pos ⟨rfl, rfl⟩, PEquiv.erase_apply]
      simp only [List.mem_singleton, true_and]
    · rw [if_neg fun h => hc h.2, if_neg fun h => hc (List.mem_singleton.mp h.1)]
  · cases unmap <;> rfl
  · cases unmap <;> rfl

/-- A core without the address is left as it is. -/
theorem RemoveSpec.skip (h : RcmHolds enabled rpc t) (hkey : t.rpu space c key = none) :
    RemoveSpec enabled space key [c] rpc rpc t t := by
  refine ⟨h, fun c' k => ?_, fun _ _ => rfl, rfl, rfl, rfl, rfl⟩
  split
  · next hplace =>
    rw [List.mem_singleton.mp hplace.1, hplace.2]
    exact hkey
  · rfl

theorem RemoveSpec.nil (h : RcmHolds enabled rpc t) :
    RemoveSpec enabled space key [] rpc rpc t t := by
  refine ⟨h, fun c k => ?_, fun _ _ => rfl, rfl, rfl, rfl, rfl⟩
  rw [if_neg fun h => List.not_mem_nil h.1]

theorem RemoveSpec.cons {rpc₁ : RcmRpc} {t₁ : Translations}
    (hfirst : RemoveSpec enabled space key [c] rpc rpc₁ t t₁)
    (hrest : RemoveSpec enabled space key cs rpc₁ rpc' t₁ t') :
    RemoveSpec enabled space key (c :: cs) rpc rpc' t t' := by
  refine ⟨hrest.holds, fun c' k => ?_, fun space' hspace => ?_,
    hrest.mpuTiler_eq.trans hfirst.mpuTiler_eq, hrest.tilerMpu_eq.trans hfirst.tilerMpu_eq,
    hrest.locked_eq.trans hfirst.locked_eq, hrest.tiler_eq.trans hfirst.tiler_eq⟩
  · rw [hrest.rpu_eq, hfirst.rpu_eq, Translations.ite_mem_cons]
  · rw [hrest.space_eq space' hspace, hfirst.space_eq space' hspace]

/-- A tiler address that is mapped on a core is removed from it. -/
theorem removeTilerCore_spec (h : RcmHolds enabled rpc t) (hkey : t.rpu .tiler c key ≠ none) :
    ∃ rpc' t', removeTilerCore a key rpc c = .ok rpc' ∧
      RemoveSpec enabled .tiler key [c] rpc rpc' t t' := by
  obtain ⟨x, hx⟩ := Option.ne_none_iff_exists'.mp hkey
  obtain ⟨r, r', forward, backward, hforward, hbackward, hhashes⟩ :=
    (h.rpu .tiler c).remove (a := a) hx
  refine ⟨_, _, ?_, RemoveSpec.one h hx hhashes true⟩
  have hget := (h.rpu .tiler c).forward.get_some (a := a) hx
  simp only [removeTilerCore, hget, hforward, hbackward, ok_bind]
  rfl

/-- A pointer is removed from a core, whether it is mapped there or not. -/
theorem removeLocalCore_spec (key : FphKey) (localSize : Nat) (h : RcmHolds enabled rpc t) :
    ∃ rpc' t', removeLocalCore a key localSize rpc c = .ok rpc' ∧
      RemoveSpec enabled .mpu key [c] rpc rpc' t t' := by
  cases hkey : t.rpu .mpu c key with
  | none =>
    have hget := (h.rpu .mpu c).forward.get_none (a := a) hkey
    refine ⟨rpc, t, ?_, RemoveSpec.skip h hkey⟩
    simp only [removeLocalCore, hget, ok_bind]
    rfl
  | some x =>
    obtain ⟨r, r', forward, backward, hforward, hbackward, hhashes⟩ :=
      (h.rpu .mpu c).remove (a := a) hkey
    refine ⟨_, _, ?_, RemoveSpec.one h hkey hhashes (localSize != 0)⟩
    have hget := (h.rpu .mpu c).forward.get_some (a := a) hkey
    simp only [removeLocalCore, hget, hforward, hbackward, ok_bind]
    by_cases hsize : localSize = 0
    · subst hsize
      rfl
    · simp only [ne_eq, hsize, not_false_eq_true, if_true, one_ne_zero, bne_iff_ne]
      rfl

/-- The loop of the removal of a tiler address. -/
theorem removeTilerCores_spec (cs : List RemoteCore) (h : RcmHolds enabled rpc t) (hnodup : cs.Nodup)
    (hkey : ∀ c ∈ cs, t.rpu .tiler c key ≠ none) :
    ∃ rpc' t', cs.foldlM (removeTilerCore a key) rpc = .ok rpc' ∧
      RemoveSpec enabled .tiler key cs rpc rpc' t t' := by
  induction cs generalizing rpc t with
  | nil => exact ⟨rpc, t, rfl, RemoveSpec.nil h⟩
  | cons c cs ih =>
    obtain ⟨hc, hcs⟩ := List.nodup_cons.mp hnodup
    obtain ⟨rpc₁, t₁, hone, hfirst⟩ := removeTilerCore_spec (a := a) h (hkey c List.mem_cons_self)
    obtain ⟨rpc', t', hrest, hspec⟩ := ih hfirst.holds hcs fun d hd => by
      have hne : d ∉ [c] := fun hdc => hc (List.mem_singleton.mp hdc ▸ hd)
      rw [hfirst.rpu_eq, if_neg fun h => hne h.1]
      exact hkey d (List.mem_cons_of_mem _ hd)
    refine ⟨rpc', t', ?_, hfirst.cons hspec⟩
    rw [List.foldlM_cons, hone]
    exact hrest

/-- The loop of the removal of a pointer. -/
theorem removeLocalCores_spec (cs : List RemoteCore) (key : FphKey) (localSize : Nat)
    (h : RcmHolds enabled rpc t) :
    ∃ rpc' t', cs.foldlM (removeLocalCore a key localSize) rpc = .ok rpc' ∧
      RemoveSpec enabled .mpu key cs rpc rpc' t t' := by
  induction cs generalizing rpc t with
  | nil => exact ⟨rpc, t, rfl, RemoveSpec.nil h⟩
  | cons c cs ih =>
    obtain ⟨rpc₁, t₁, hone, hfirst⟩ := removeLocalCore_spec (a := a) (c := c) key localSize h
    obtain ⟨rpc', t', hrest, hspec⟩ := ih hfirst.holds
    refine ⟨rpc', t', ?_, hfirst.cons hspec⟩
    rw [List.foldlM_cons, hone]
    exact hrest

end Remove

end DVP.Kgraph
