import DVP.Kgraph.TranslateRemoval

/-!
# Translation for the CPU

`dvp_rpc_mem_xlate_fwrd` for `DVP_CORE_CPU` and memory that is not `DVP_MTYPE_MPUCACHED_1DTILED`. The call
sets its result to the pointer itself, and then has `fph_get` look the pointer up in the hashes of the first
remote core, which stores what it finds, or `NULL`, to that result.

* `RcmRpc.NullEmpty.step`: the empty slots of the hashes stay empty, so that `NULL` is translated to `NULL`.
* `xlateCpu_identity_iff`: in every state of a run, a translation for the CPU that returns keeps the other
  translations, and answers the pointer exactly when the first remote core has it at the same address.
-/

namespace DVP.Kgraph

open DVP.Sosal

variable {a : Arch} {enabled : Core → Bool}

/-! ## Empty slots -/

/-- A slot without a key has no value. -/
def NullEmpty (f : Fph) : Prop := ∀ kv ∈ f.hash, kv.key = 0 → kv.value = 0

section Hash

variable {f f' : Fph} {k v r : Nat}

/-- Setting a value leaves nothing at `NULL`. -/
theorem NullEmpty.set (h : NullEmpty f) (hset : fphSet a f k v = .ok (r, f')) : NullEmpty f' := by
  rw [fphSet] at hset
  split at hset
  · cases hset
    exact h
  · next hk =>
    -- A slot that is written gets the key, which is not `NULL`.
    have hwrite : ∀ i, ∀ kv ∈ f.hash.set i ⟨k, v⟩, kv.key = 0 → kv.value = 0 := by
      intro i kv hkv hkey
      rcases List.mem_or_eq_of_mem_set hkv with hold | rfl
      · exact h kv hold hkey
      · exact absurd hkey hk
    obtain ⟨⟨found, i⟩, -, hset⟩ := bind_eq_ok hset
    cases found with
    | false =>
      cases hset
      change NullEmpty (if _ then _ else _)
      split <;> exact h
    | true =>
      dsimp only at hset
      split at hset
      · cases hset
      · split at hset
        all_goals
          obtain ⟨n, -, hset⟩ := bind_eq_ok hset
          cases hset
          exact hwrite i

/-- Clearing a key leaves nothing at `NULL`. -/
theorem NullEmpty.clr (h : NullEmpty f) (hclr : fphClr a f k = .ok (r, f')) : NullEmpty f' := by
  obtain ⟨⟨found, i⟩, -, hclr⟩ := bind_eq_ok hclr
  cases found with
  | false =>
    cases hclr
    exact h
  | true =>
    obtain ⟨metrics, -, hclr⟩ := bind_eq_ok hclr
    cases hclr
    intro kv hkv hkey
    rcases List.mem_or_eq_of_mem_set hkv with hold | rfl
    · exact h kv hold hkey
    · rfl

/-- A loop over slots that stops before the end stops at a slot that makes it stop. -/
theorem fphScanFrom_stops {hash : List FphKv} {stop : Nat → Bool} {bound fuel i j : Nat}
    (hscan : fphScanFrom hash stop bound fuel i = .ok (true, j)) :
    ∃ kv, hash[j]? = some kv ∧ stop kv.key = true := by
  induction fuel generalizing i with
  | zero => cases hscan
  | succ fuel ih =>
    rw [fphScanFrom] at hscan
    split at hscan
    · split at hscan
      · cases hscan
      · next kv hkv =>
        split at hscan
        · next hstop =>
          cases hscan
          exact ⟨kv, hkv, hstop⟩
        · exact ih hscan
    · cases hscan

/-- What `fph_get` finds for `NULL` is `NULL`. -/
theorem NullEmpty.get (h : NullEmpty f) (hget : fphGet a f 0 = .ok (r, v)) : v = 0 := by
  obtain ⟨⟨found, i⟩, hscan, hget⟩ := bind_eq_ok hget
  cases found with
  | false =>
    cases hget
    rfl
  | true =>
    obtain ⟨kv, hkv, hstop⟩ := fphScanFrom_stops hscan
    dsimp only at hget
    rw [hkv] at hget
    cases hget
    exact h kv (List.mem_of_getElem? hkv) (beq_iff_eq.mp hstop)

end Hash

/-- A new table has nothing at `NULL`. -/
theorem nullEmpty_init {numBlocks blockSize : Nat} {keyFunc : Option (Nat → Nat)} :
    NullEmpty (fphInit a numBlocks blockSize keyFunc) := by
  intro kv hkv _
  rw [List.eq_of_mem_replicate hkv]

/-- The hashes that translate to remote addresses have no values in their empty slots. -/
def RcmRpc.NullEmpty (rpc : RcmRpc) : Prop :=
  ∀ space c, DVP.Kgraph.NullEmpty (rpc.rpu space c).forward

namespace RcmRpc.NullEmpty

variable {rpc rpc' : RcmRpc} {x x' : Xlate} {space : AddrSpace} {core : Core} {c : RemoteCore}
  {key localSize : Nat} {memType : MemType} {answers : MapAnswers}

/-- The tables stay empty at `NULL` when those of a core change. -/
theorem setRpu {hashes : TwoWay} (h : rpc.NullEmpty)
    (hhashes : DVP.Kgraph.NullEmpty hashes.forward) : (rpc.setRpu space c hashes).NullEmpty := by
  intro space' c'
  rw [RcmRpc.setRpu_rpu]
  split
  · exact hhashes
  · exact h space' c'

/-- The tables stay empty at `NULL` when a pointer is mapped to a core. -/
theorem mapToCore (h : x.rpc.NullEmpty)
    (hmap : mapToCore a space core key answers x c = .ok x') : x'.rpc.NullEmpty := by
  rw [DVP.Kgraph.mapToCore] at hmap
  split at hmap
  · cases hmap
    exact h
  · next addr _ =>
    obtain ⟨⟨there, back, hashes⟩, hinstall, hmap⟩ := bind_eq_ok hmap
    cases hmap
    have hmapped : (x.rpc.mapRemote c addr).NullEmpty := h
    refine hmapped.setRpu ?_
    -- The forward hash is written, and then perhaps the backward one.
    obtain ⟨⟨set, forward⟩, hset, hinstall⟩ := bind_eq_ok hinstall
    have hforward := (h space c).set hset
    dsimp only at hinstall
    split at hinstall
    · obtain ⟨⟨set', backward⟩, -, hinstall⟩ := bind_eq_ok hinstall
      cases hinstall
      exact hforward
    · cases hinstall
      exact hforward

/-- The tables stay empty at `NULL` when a pointer is mapped to several cores. -/
theorem mapToCores {cs : List RemoteCore} (h : x.rpc.NullEmpty)
    (hmap : cs.foldlM (DVP.Kgraph.mapToCore a space core key answers) x = .ok x') :
    x'.rpc.NullEmpty :=
  Machine.foldlM_keeps (P := fun x => x.rpc.NullEmpty) (fun _ _ _ h hmap => h.mapToCore hmap) h hmap

/-- The tables stay empty at `NULL` when a core forgets a tiled pointer. -/
theorem removeTilerCore (h : rpc.NullEmpty)
    (hremove : removeTilerCore a key rpc c = .ok rpc') : rpc'.NullEmpty := by
  obtain ⟨⟨found, remoteAddr⟩, -, hremove⟩ := bind_eq_ok hremove
  obtain ⟨⟨r, forward⟩, hclr, hremove⟩ := bind_eq_ok hremove
  obtain ⟨⟨r', backward⟩, -, hremove⟩ := bind_eq_ok hremove
  cases hremove
  refine setRpu ?_ ((h .tiler c).clr hclr)
  split <;> exact h

/-- The tables stay empty at `NULL` when a core forgets a local pointer. -/
theorem removeLocalCore (h : rpc.NullEmpty)
    (hremove : removeLocalCore a key localSize rpc c = .ok rpc') : rpc'.NullEmpty := by
  obtain ⟨⟨found, remoteAddr⟩, -, hremove⟩ := bind_eq_ok hremove
  dsimp only at hremove
  split at hremove
  · obtain ⟨⟨r, forward⟩, hclr, hremove⟩ := bind_eq_ok hremove
    obtain ⟨⟨r', backward⟩, -, hremove⟩ := bind_eq_ok hremove
    cases hremove
    refine setRpu ?_ ((h .mpu c).clr hclr)
    split <;> exact h
  · cases hremove
    exact h

/-- The tables stay empty at `NULL` when the lock is taken. -/
theorem lock (h : rpc.NullEmpty) (hlock : rpc.lock = .ok rpc') : rpc'.NullEmpty := by
  rw [RcmRpc.lock] at hlock
  split at hlock
  · cases hlock
  · cases hlock
    exact h

/-- The tables stay empty at `NULL` over a removal. -/
theorem remove (h : rpc.NullEmpty)
    (hremove : dvpRpcMemRemove a enabled rpc key localSize memType = .ok rpc') : rpc'.NullEmpty := by
  obtain ⟨rpc₁, hlock, hremove⟩ := bind_eq_ok hremove
  have h₁ := h.lock hlock
  split at hremove
  · obtain ⟨⟨found, tilerAddr⟩, -, hremove⟩ := bind_eq_ok hremove
    dsimp only at hremove
    split at hremove
    · obtain ⟨rpc₂, hloop, hremove⟩ := bind_eq_ok hremove
      obtain ⟨⟨r, backward⟩, -, hremove⟩ := bind_eq_ok hremove
      obtain ⟨⟨r', forward⟩, -, hremove⟩ := bind_eq_ok hremove
      cases hremove
      have h₂ : rpc₂.NullEmpty := Machine.foldlM_keeps (P := RcmRpc.NullEmpty)
        (fun _ _ _ h hone => h.removeTilerCore hone) h₁ hloop
      exact h₂
    · cases hremove
      exact h₁
  · obtain ⟨rpc₂, hloop, hremove⟩ := bind_eq_ok hremove
    cases hremove
    have h₂ : rpc₂.NullEmpty := Machine.foldlM_keeps (P := RcmRpc.NullEmpty)
      (fun _ _ _ h hone => h.removeLocalCore hone) h₁ hloop
    exact h₂

/-- The tables stay empty at `NULL` over a translation of a tiled pointer. -/
theorem xlateTiled (h : rpc.NullEmpty)
    (hxlate : xlateTiled a enabled rpc core key answers = .ok x) : x.rpc.NullEmpty := by
  obtain ⟨⟨found, tilerAddr⟩, -, hxlate⟩ := bind_eq_ok hxlate
  dsimp only at hxlate
  split at hxlate
  · split at hxlate
    · cases hxlate
      exact h
    · next tilerAddr _ =>
      obtain ⟨⟨r, forward⟩, -, hxlate⟩ := bind_eq_ok hxlate
      obtain ⟨⟨r', backward⟩, -, hxlate⟩ := bind_eq_ok hxlate
      refine mapToCores ?_ hxlate
      intro space c
      change DVP.Kgraph.NullEmpty ((rpc.mapTiler key tilerAddr).rpu space c).forward
      rw [RcmRpc.mapTiler]
      split <;> exact h space c
  · split at hxlate
    · obtain ⟨⟨found', remoteAddr⟩, -, hxlate⟩ := bind_eq_ok hxlate
      cases hxlate
      exact h
    · cases hxlate
      exact h

/-- The tables stay empty at `NULL` over a translation of a local pointer. -/
theorem xlateLocal (h : rpc.NullEmpty)
    (hxlate : xlateLocal a enabled rpc core key answers = .ok x) : x.rpc.NullEmpty := by
  rw [DVP.Kgraph.xlateLocal] at hxlate
  dsimp only at hxlate
  split at hxlate
  · cases hxlate
    exact h
  · obtain ⟨⟨found, remoteAddr⟩, -, hxlate⟩ := bind_eq_ok hxlate
    dsimp only at hxlate
    split at hxlate
    · exact mapToCores (x := ⟨rpc, remoteAddr, false⟩) h hxlate
    · cases hxlate
      exact h

/-- The tables stay empty at `NULL` over every translation. -/
theorem xlateFwrd {n : Nat} (h : rpc.NullEmpty) (hlocked : rpc.locked = false)
    (hxlate : dvpRpcMemXlateFwrd a enabled rpc core key localSize memType answers = .ok (n, rpc')) :
    rpc'.NullEmpty := by
  cases henabled : enabled core with
  | false =>
    rw [xlateFwrd_disabled hlocked henabled] at hxlate
    cases hxlate
    exact h
  | true =>
    rw [xlateFwrd_enabled hlocked henabled] at hxlate
    obtain ⟨y, hbranch, hxlate⟩ := bind_eq_ok hxlate
    -- the branch is taken with the lock, which the hashes know nothing of
    have hheld : RcmRpc.NullEmpty { rpc with locked := true } := h
    have hy : y.rpc.NullEmpty := by
      rw [xlateBranch] at hbranch
      split at hbranch
      · exact hheld.xlateTiled hbranch
      · exact hheld.xlateLocal hbranch
    split at hxlate
    · obtain ⟨rpc₂, hremove, hxlate⟩ := bind_eq_ok hxlate
      cases hxlate
      have hrpc₂ : rpc₂.NullEmpty := hy.remove hremove
      exact hrpc₂
    · cases hxlate
      exact hy

/-- The empty slots stay empty in every step of a run. -/
theorem step {s s' : XlateUse} {op : XlateOp} {r : Option Nat} (h : s.rpc.NullEmpty)
    (hlocked : s.rpc.locked = false) (hstep : xlateStep a enabled s op = .ok (s', r)) : s'.rpc.NullEmpty := by
  cases op with
  | forward core p localSize memType answers =>
    obtain ⟨⟨addr, rpc⟩, hxlate, hstep⟩ := bind_eq_ok hstep
    cases hstep
    exact h.xlateFwrd hlocked hxlate
  | remove p localSize memType =>
    obtain ⟨rpc, hremove, hstep⟩ := bind_eq_ok hstep
    cases hstep
    exact h.remove hremove

end RcmRpc.NullEmpty

/-! ## The call -/

section Call

variable {rpc rpc' : RcmRpc} {t t' : Translations} {core : Core} {c : RemoteCore} {n m localSize : Nat}
  {memType : MemType} {answers : MapAnswers} {y : Xlate}

/-- A call for a pointer that returns did not unwind. -/
theorem xlateFwrd_local_ok (hlocked : rpc.locked = false) (henabled : enabled core = true)
    (htype : memType ≠ .mpucached1dtiled)
    (hok : dvpRpcMemXlateFwrd a enabled rpc core n localSize memType answers = .ok (m, rpc')) :
    ∃ y, xlateLocal a enabled { rpc with locked := true } core n answers = .ok y ∧
      y.unwind = false ∧ m = y.remoteAddr ∧ rpc' = y.rpc.unlock := by
  rw [xlateFwrd_enabled hlocked henabled, xlateBranch, if_neg htype] at hok
  obtain ⟨y, hxlate, hok⟩ := bind_eq_ok hok
  cases hunwind : y.unwind with
  | true =>
    -- The lock is held, so that the removal never gets it.
    have hheld : y.rpc.locked = true := xlateLocal_locked hxlate
    rw [hunwind, if_pos rfl, remove_of_locked hheld] at hok
    cases hok
  | false =>
    rw [hunwind, if_neg Bool.false_ne_true] at hok
    cases hok
    exact ⟨y, hxlate, hunwind, rfl, rfl⟩

/-- The loop over the remote cores does not answer the CPU. -/
theorem mapToCores_cpu {space : AddrSpace} {cs : List RemoteCore} {y' : Xlate}
    (hmap : cs.foldlM (mapToCore a space coreCpu n answers) y = .ok y') :
    y'.remoteAddr = y.remoteAddr :=
  Machine.foldlM_keeps (P := fun x => x.remoteAddr = y.remoteAddr) (fun x c x' hsame hmap => by
    rw [mapToCore] at hmap
    split at hmap
    · cases hmap
      exact hsame
    · obtain ⟨⟨there, back, hashes⟩, -, hmap⟩ := bind_eq_ok hmap
      cases hmap
      exact (if_neg fun h => c.toCore_ne_cpu h.2.symm).trans hsame) rfl hmap

/-- The answer for the CPU is what `fph_get` stored, if there is a remote core. -/
theorem xlateLocal_cpu (hc : (remoteCores enabled).head? = some c)
    (hxlate : xlateLocal a enabled rpc coreCpu n answers = .ok y) :
    ∃ found, fphGet a (rpc.rpu .mpu c).forward n = .ok (found, y.remoteAddr) := by
  rw [xlateLocal] at hxlate
  dsimp only at hxlate
  rw [if_pos rfl, hc] at hxlate
  obtain ⟨⟨found, remoteAddr⟩, hget, hxlate⟩ := bind_eq_ok hxlate
  refine ⟨found, hget.trans ?_⟩
  dsimp only at hxlate
  split at hxlate
  · rw [mapToCores_cpu hxlate]
  · cases hxlate
    rfl

/-- Without a remote core the CPU gets the pointer. -/
theorem xlateLocal_cpu_alone (hc : (remoteCores enabled).head? = none)
    (hxlate : xlateLocal a enabled rpc coreCpu n answers = .ok y) : y.remoteAddr = n := by
  rw [xlateLocal] at hxlate
  dsimp only at hxlate
  rw [if_pos rfl, hc] at hxlate
  cases hxlate
  change (if coreCpu = coreCpu then n else 0) = n
  exact if_pos rfl

/-- `NULL` is not remembered, so that a core that it is mapped for makes the call unwind. -/
theorem mapToCore_null (space : AddrSpace) (core : Core) (answers : MapAnswers) (y : Xlate)
    (c : RemoteCore) :
    ∃ y', mapToCore a space core 0 answers y c = .ok y' ∧ y'.unwind = true := by
  rw [mapToCore]
  cases answers.remote c with
  | none => exact ⟨_, rfl, rfl⟩
  | some addr =>
    have hset : (y.rpc.rpu space c).install a 0 addr =
        .ok (false, false, ⟨(y.rpc.rpu space c).forward, (y.rpc.rpu space c).backward⟩) := rfl
    dsimp only
    rw [hset]
    exact ⟨_, rfl, Bool.or_true _⟩

/-- `NULL` is translated to `NULL`, and nothing is remembered. -/
theorem xlateLocal_null (h : rpc.NullEmpty)
    (hxlate : xlateLocal a enabled rpc coreCpu 0 answers = .ok y) (hunwind : y.unwind = false) :
    y.rpc = rpc ∧ y.remoteAddr = 0 := by
  cases hc : (remoteCores enabled).head? with
  | none =>
    refine ⟨?_, xlateLocal_cpu_alone hc hxlate⟩
    rw [xlateLocal] at hxlate
    dsimp only at hxlate
    rw [if_pos rfl, hc] at hxlate
    cases hxlate
    rfl
  | some c =>
    obtain ⟨found, hget⟩ := xlateLocal_cpu hc hxlate
    refine ⟨?_, (h .mpu c).get hget⟩
    rw [xlateLocal] at hxlate
    dsimp only at hxlate
    rw [if_pos rfl, hc] at hxlate
    obtain ⟨⟨found', remoteAddr⟩, -, hxlate⟩ := bind_eq_ok hxlate
    dsimp only at hxlate
    split at hxlate
    · -- The loop has the first remote core to map `NULL` for.
      obtain ⟨cs, hcs⟩ := List.head?_eq_some_iff.mp hc
      rw [hcs, List.foldlM_cons] at hxlate
      obtain ⟨y₁, hfirst, hrest⟩ := bind_eq_ok hxlate
      obtain ⟨y₂, hnull, hfail⟩ := mapToCore_null (a := a) .mpu coreCpu answers
        ⟨rpc, remoteAddr, false⟩ c
      cases hnull.symm.trans hfirst
      rw [mapToCores_unwind hfail hrest] at hunwind
      cases hunwind
    · cases hxlate
      rfl

end Call

/-! ## What a call keeps -/

/-- What `f` has for a pointer, `f'` has too. -/
def FphKept (a : Arch) (f f' : Fph) : Prop :=
  ∀ (k : FphKey) (v : Nat), fphGet a f k = .ok (1, v) → fphGet a f' k = .ok (1, v)

/-- Every translation in the hashes of `rpc` is in those of `rpc'`. -/
structure TablesKept (a : Arch) (rpc rpc' : RcmRpc) : Prop where
  rpu : ∀ space c, FphKept a (rpc.rpu space c).forward (rpc'.rpu space c).forward
  rpuBack : ∀ space c, FphKept a (rpc.rpu space c).backward (rpc'.rpu space c).backward
  mpuTiler : FphKept a rpc.mpuTiler.forward rpc'.mpuTiler.forward
  tilerMpu : FphKept a rpc.mpuTiler.backward rpc'.mpuTiler.backward

variable {rpc rpc' : RcmRpc} {t t' : Translations}

/-- Nothing has changed. -/
theorem TablesKept.refl (rpc : RcmRpc) : TablesKept a rpc rpc :=
  ⟨fun _ _ _ _ h => h, fun _ _ _ _ h => h, fun _ _ h => h, fun _ _ h => h⟩

/-- A table keeps what its map keeps. -/
theorem fphKept_of_holds {f f' : Fph} {m m' : FphKey → Option FphKey}
    (h : FphHolds ⟨f, fun k => (m k).map Subtype.val⟩)
    (h' : FphHolds ⟨f', fun k => (m' k).map Subtype.val⟩)
    (hkept : ∀ k x, m k = some x → m' k = some x) : FphKept a f f' := by
  intro k v hget
  cases hx : m k with
  | none =>
    rw [h.get_none hx] at hget
    cases hget
  | some x =>
    rw [h.get_some hx] at hget
    cases hget
    exact h'.get_some (hkept k x hx)

/-- Hashes that hold what was held before keep their translations. -/
theorem Kept.tablesKept (hkept : Kept t t') (h : RcmHolds enabled rpc t)
    (h' : RcmHolds enabled rpc' t') : TablesKept a rpc rpc' where
  rpu space c := fphKept_of_holds (h.rpu space c).forward (h'.rpu space c).forward (hkept.rpu space c)
  rpuBack space c := fphKept_of_holds (h.rpu space c).backward (h'.rpu space c).backward
    fun x k hk => (t'.rpu space c).eq_some_iff.mpr
      (hkept.rpu space c k x ((t.rpu space c).eq_some_iff.mp hk))
  mpuTiler := fphKept_of_holds h.mpuTiler h'.mpuTiler hkept.mpuTiler
  tilerMpu := fphKept_of_holds h.tilerMpu h'.tilerMpu fun q p hp => hkept.tilerMpu p q hp

/-! ## The main result -/

/-- The pointer is `NULL`, or the CPU is enabled and the first remote core, if there is one, has the
pointer at the same address. -/
def CpuSame (a : Arch) (enabled : Core → Bool) (rpc : RcmRpc) (n : Nat) : Prop :=
  n = 0 ∨ enabled coreCpu = true ∧
    ∀ c ∈ (remoteCores enabled).head?, fphGet a (rpc.rpu .mpu c).forward n = .ok (1, n)

/-- A value that is not `NULL` was found. -/
theorem fphGet_found {f : Fph} {k v r : Nat} (hget : fphGet a f k = .ok (r, v)) (hv : v ≠ 0) :
    r = 1 := by
  obtain ⟨⟨found, i⟩, -, hget⟩ := bind_eq_ok hget
  cases found with
  | false =>
    cases hget
    exact absurd rfl hv
  | true =>
    dsimp only at hget
    split at hget
    · cases hget
    · cases hget
      rfl

section Main

variable {n m localSize : Nat} {memType : MemType} {answers : MapAnswers}

/-- A translation for the CPU keeps the others. -/
theorem xlateCpu_kept (h : RcmInv enabled rpc t) (hnull : rpc.NullEmpty) (hlocked : rpc.locked = false)
    (hfresh : ∀ c ∈ remoteCores enabled, FreshOn rpc answers c) (htype : memType ≠ .mpucached1dtiled)
    (hok : dvpRpcMemXlateFwrd a enabled rpc coreCpu n localSize memType answers = .ok (m, rpc')) :
    TablesKept a rpc rpc' := by
  cases henabled : enabled coreCpu with
  | false =>
    rw [xlateFwrd_disabled hlocked henabled] at hok
    cases hok
    exact TablesKept.refl rpc
  | true =>
    obtain ⟨y, hxlate, hunwind, -, rfl⟩ := xlateFwrd_local_ok hlocked henabled htype hok
    by_cases hn : n = 0
    · subst hn
      have hheld : RcmRpc.NullEmpty { rpc with locked := true } := hnull
      rw [(xlateLocal_null hheld hxlate hunwind).1, RcmRpc.unlock_eq hlocked]
      exact TablesKept.refl rpc
    · obtain ⟨t', hinv, -, hkept, -⟩ := xlateLocal_ok (p := ⟨n, hn⟩) (h.relock true) henabled hfresh
        hxlate hunwind
      exact hkept.tablesKept h.toRcmHolds (hinv.relock false).toRcmHolds

/-- A translation for the CPU answers what the first remote core has. -/
theorem xlateCpu_same_iff (hnull : rpc.NullEmpty) (hlocked : rpc.locked = false)
    (htype : memType ≠ .mpucached1dtiled)
    (hok : dvpRpcMemXlateFwrd a enabled rpc coreCpu n localSize memType answers = .ok (m, rpc')) :
    m = n ↔ CpuSame a enabled rpc n := by
  cases henabled : enabled coreCpu with
  | false =>
    rw [xlateFwrd_disabled hlocked henabled] at hok
    cases hok
    rw [CpuSame, henabled]
    simp [eq_comm]
  | true =>
    obtain ⟨y, hxlate, hunwind, rfl, rfl⟩ := xlateFwrd_local_ok hlocked henabled htype hok
    by_cases hn : n = 0
    · subst hn
      have hheld : RcmRpc.NullEmpty { rpc with locked := true } := hnull
      exact iff_of_true (xlateLocal_null hheld hxlate hunwind).2 (.inl rfl)
    · cases hc : (remoteCores enabled).head? with
      | none =>
        refine iff_of_true (xlateLocal_cpu_alone hc hxlate) (.inr ⟨henabled, fun c hmem => ?_⟩)
        rw [hc] at hmem
        cases hmem
      | some c =>
        -- whether it was found or not, what `fph_get` stored is the answer
        obtain ⟨found, hget⟩ := xlateLocal_cpu hc hxlate
        change fphGet a (rpc.rpu .mpu c).forward n = _ at hget
        constructor
        · intro hsame
          rw [hsame] at hget
          refine .inr ⟨henabled, fun d hd => ?_⟩
          cases Option.some.inj (hc.symm.trans hd)
          rw [hget, fphGet_found hget hn]
        · rintro (hzero | ⟨-, hfirst⟩)
          · exact absurd hzero hn
          · exact (Prod.mk.inj (Except.ok.inj (hget.symm.trans (hfirst c hc)))).2

end Main

/-- A translation for the CPU that returns answers the pointer and keeps every translation. One that could
not map the pointer or remember it does not return. -/
def CpuIdentity (a : Arch) (enabled : Core → Bool) (rpc : RcmRpc) (n localSize : Nat)
    (memType : MemType) (answers : MapAnswers) : Prop :=
  ∀ m rpc', dvpRpcMemXlateFwrd a enabled rpc coreCpu n localSize memType answers = .ok (m, rpc') →
    m = n ∧ TablesKept a rpc rpc'

/-- In every state of a run, a translation for the CPU that returns keeps every translation, and answers the
pointer exactly when the first remote core has it at the same address. -/
theorem xlateCpu_identity_iff (a : Arch) (enabled : Core → Bool) (ops : List XlateOp)
    (hfresh : Machine.Meets (xlateStep a enabled) (Fresh enabled) (xlateInit a) ops) :
    Machine.Always (xlateStep a enabled)
      (fun s => ∀ (n localSize : Nat) (memType : MemType) (answers : MapAnswers) (m : Nat)
        (rpc' : RcmRpc), memType ≠ .mpucached1dtiled →
        (∀ c ∈ remoteCores enabled, FreshOn s.rpc answers c) →
        dvpRpcMemXlateFwrd a enabled s.rpc coreCpu n localSize memType answers = .ok (m, rpc') →
        (m = n ∧ TablesKept a s.rpc rpc' ↔ CpuSame a enabled s.rpc n)) (xlateInit a) ops := by
  refine Machine.Always.of_invariant
    (I := fun s => RcmReady enabled s ∧ s.rpc.NullEmpty) (fun s hready => ?_)
    (fun s op s' r hready hC hstep =>
      ⟨hready.1.step hC hstep, hready.2.step hready.1.1 hstep⟩)
    ⟨rcmReady_init, fun _ _ => nullEmpty_init⟩ hfresh
  obtain ⟨⟨hlocked, t, hinv⟩, hnull⟩ := hready
  intro n localSize memType answers m rpc' htype hanswers hok
  rw [← xlateCpu_same_iff hnull hlocked htype hok]
  exact and_iff_left (xlateCpu_kept hinv hnull hlocked hanswers htype hok)

/-- A pointer that is translated for the CPU. -/
theorem xlateCpu_identity_iff_one :
    Machine.Always (xlateStep .arch32 onlySimcop)
      (fun s => ∀ (n localSize : Nat) (memType : MemType) (answers : MapAnswers) (m : Nat)
        (rpc' : RcmRpc), memType ≠ .mpucached1dtiled →
        (∀ c ∈ remoteCores onlySimcop, FreshOn s.rpc answers c) →
        dvpRpcMemXlateFwrd .arch32 onlySimcop s.rpc coreCpu n localSize memType answers =
          .ok (m, rpc') →
        (m = n ∧ TablesKept .arch32 s.rpc rpc' ↔ CpuSame .arch32 onlySimcop s.rpc n))
      (xlateInit .arch32) (translateOne .mpunoncached2dtiled) :=
  xlateCpu_identity_iff .arch32 onlySimcop (translateOne .mpunoncached2dtiled)
    (Machine.check_eq_true_iff.mp (by decide +kernel))

/-- The platform with SIMCOP and the CPU. -/
def simcopAndCpu (core : Core) : Bool := core = remoteSimcop.toCore ∨ core = coreCpu

/-- A call for the CPU with new addresses of the mapping services. -/
def cpuAnswers : MapAnswers := ⟨none, fun _ => some ⟨7, by decide⟩⟩

/-- Pointer `1` was translated for SIMCOP: the CPU gets its remote address. Pointer `5` was not: the CPU gets
`NULL`. -/
theorem not_xlateCpu_identity :
    ∃ s rs, Machine.Meets (xlateStep .arch32 simcopAndCpu) (Fresh simcopAndCpu) (xlateInit .arch32)
        (translateOne .mpunoncached2dtiled) ∧
      Machine.run (xlateStep .arch32 simcopAndCpu) (xlateInit .arch32)
        (translateOne .mpunoncached2dtiled) = .ok (s, rs) ∧
      (∀ c ∈ remoteCores simcopAndCpu, FreshOn s.rpc cpuAnswers c) ∧
      ¬CpuIdentity .arch32 simcopAndCpu s.rpc 1 64 .mpunoncached2dtiled cpuAnswers ∧
      ¬CpuIdentity .arch32 simcopAndCpu s.rpc 5 64 .mpunoncached2dtiled cpuAnswers := by
  have hrun : ∃ s ∈ Machine.checkedRun (xlateStep .arch32 simcopAndCpu) (Fresh simcopAndCpu)
      (xlateInit .arch32) (translateOne .mpunoncached2dtiled),
      (∀ c ∈ remoteCores simcopAndCpu, FreshOn s.rpc cpuAnswers c) ∧
      (∃ r ∈ (dvpRpcMemXlateFwrd .arch32 simcopAndCpu s.rpc coreCpu 1 64 .mpunoncached2dtiled
        cpuAnswers).toOption, r.1 = 3) ∧
      ∃ r ∈ (dvpRpcMemXlateFwrd .arch32 simcopAndCpu s.rpc coreCpu 5 64 .mpunoncached2dtiled
        cpuAnswers).toOption, r.1 = 0 := by
    decide +kernel
  obtain ⟨s, hs, hfresh, ⟨r, hr, hremote⟩, r', hr', hnull⟩ := hrun
  obtain ⟨hmeets, rs, hrun⟩ := Machine.checkedRun_eq_some hs
  refine ⟨s, rs, hmeets, hrun, hfresh, fun hsame => ?_, fun hsame => ?_⟩
  · have hone := (hsame r.1 r.2 (eq_ok_of_mem_toOption hr)).1
    rw [hremote] at hone
    cases hone
  · have hfive := (hsame r'.1 r'.2 (eq_ok_of_mem_toOption hr')).1
    rw [hnull] at hfive
    cases hfive

end DVP.Kgraph
