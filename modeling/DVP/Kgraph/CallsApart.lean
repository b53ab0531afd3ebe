import DVP.Kgraph.CallsInvariant

/-!
# Calls do not mix graphs

* `calls_apart_of_stepApart`: in the runs whose steps meet `stepApart`, what runs for a call and what is
  called back belongs to the graph of the call, each section that a call meant to run has run once
  when it returns, and the call returns their number.
* `collectors_mix`: an assignment of a second caller to an entry of `collectors` that is not issued
  yet makes a worker run a section of its graph for the first caller.
-/

namespace DVP.Kgraph

open DVP.Sosal

/-- What is expected of callers that share the pool. -/
structure CallsApart (env : CallEnv) (s : CallSystem) : Prop where
  own : ∀ x ∈ s.runs ++ s.reports, Meant env x
  once : ∀ c i, s.runs.countP (·.isFrom c i) ≤ s.scheduled.count (c, i)
  returned : ∀ c, (s.callers c).location = .idle → ∀ i,
    s.runs.countP (·.isFrom c i) = s.scheduled.count (c, i) ∧
      ((env.callbacks c).isSome = true →
        s.reports.countP (·.isFrom c i) = s.scheduled.count (c, i))
  counted : ∀ r ∈ s.returns, r.ret.toNat = r.scheduled.length

section Apart

variable {env : CallEnv} {s : CallSystem}

/-- Nothing is counted for a caller that has no items in the pool. -/
theorem CallsInv.total_eq_zero (h : CallsInv env s) {c : Nat}
    (hsettled : (s.callers c).location.awaits = false) {f : WorkerView → List Collector}
    (hf : ∀ v : WorkerView, ∀ x ∈ f v, x ∈ v.1.pending) (i : Nat) : s.total f c i = 0 := by
  rw [CallSystem.total, Threads.total_eq_zero_iff]
  intro w hw
  rw [List.countP_eq_zero]
  intro x hx
  rw [h.settled c hsettled w hw x (hf _ x hx) i]
  exact Bool.false_ne_true

theorem mem_pending_of_mem_toRun (v : WorkerView) (x : Collector) (hx : x ∈ v.toRun) :
    x ∈ v.1.pending := by
  rw [v.pending_eq]
  exact List.mem_append_right _ hx

theorem mem_pending_of_mem_toReport (v : WorkerView) (x : Collector) (hx : x ∈ v.toReport) :
    x ∈ v.1.pending := by
  rw [v.pending_eq]
  exact List.mem_append_left _ hx

theorem CallsInv.apart (h : CallsInv env s) : CallsApart env s where
  own x hx := (List.mem_append.mp hx).elim (h.runs x) (h.reports x)
  once c i := by
    have hbalance := h.balance c i
    omega
  returned c hidle i := by
    have hsettled : (s.callers c).location.awaits = false := by rw [hidle]; rfl
    have hbalance := h.balance c i
    rw [h.total_eq_zero hsettled mem_pending_of_mem_toRun i, hidle] at hbalance
    have hrun : s.runs.countP (·.isFrom c i) = s.scheduled.count (c, i) := hbalance.symm
    refine ⟨hrun, fun hcallback => ?_⟩
    have hreported := h.reported c i hcallback
    rw [h.total_eq_zero hsettled mem_pending_of_mem_toReport i, hidle, hrun] at hreported
    exact hreported.symm
  counted := h.returns

/-- Callers that do not assign to entries of `collectors` that are in use are kept apart, as long as the
pool takes all items and the waits end with the event set. -/
theorem calls_apart_of_stepApart (hsize : ∀ c, (env.graphs c).sections.length < 2 ^ 32)
    {acts : List CallAct}
    (hapart : Machine.Meets (callMachine env) (fun s act => stepApart env s act = true) .initial acts) :
    Machine.Always (callMachine env) (CallsApart env) .initial acts := by
  refine Machine.Always.of_invariant (I := CallsInv env) (fun s h => h.apart) ?_ (.initial env) hapart
  rintro s act s' r h hstep ⟨⟩
  exact h.step hsize hstep

theorem callMachine_run (env : CallEnv) (s : CallSystem) (acts : List CallAct) :
    Machine.run (callMachine env) s acts =
      .ok (acts.foldl (callStep env) s, acts.map fun _ => ()) := by
  induction acts generalizing s with
  | nil => rfl
  | cons act acts ih => exact Machine.run_cons_ok rfl (ih _)

end Apart

/-- Two callers with graphs of two sections that run at the same time. -/
def twoCallers : CallEnv where
  numCallers := 2
  handles := fun _ => 1
  graphs := fun _ => ⟨[⟨1, false, 0⟩, ⟨1, false, 0⟩]⟩
  pNodes := fun c i => 2 * c + i
  cookies := fun c => c
  callbacks := fun _ => some 0

theorem twoCallers_length_lt (c : Nat) : (twoCallers.graphs c).sections.length < 2 ^ 32 := by
  simp [twoCallers]

/-- The steps of a caller from the call to the end of the loop that fills `collectors`. -/
def fillBoth (c : Nat) : List CallAct := .process c :: List.replicate 18 (.caller c)

/-- A caller that has filled `collectors` issues the items, and two workers run them. -/
def runBoth (c : Nat) : List CallAct :=
  List.replicate 5 (.caller c) ++ [.worker 0, .worker 1, .worker 0, .worker 1, .worker 0, .worker 1,
    .worker 0, .worker 1] ++ List.replicate 2 (.caller c)

/-- The first caller issues its items before the second one fills `collectors`, and the four workers run the items of
both before the callers return. -/
def callBoth : List CallAct :=
  fillBoth 0 ++ List.replicate 5 (.caller 0) ++ fillBoth 1 ++ List.replicate 5 (.caller 1) ++
    (List.replicate 8 [.worker 0, .worker 1, .worker 2, .worker 3]).flatten ++
    List.replicate 2 (.caller 0) ++ List.replicate 2 (.caller 1)

theorem calls_apart_of_stepApart_twoCallers :
    Machine.Always (callMachine twoCallers) (CallsApart twoCallers) .initial callBoth :=
  calls_apart_of_stepApart twoCallers_length_lt (Machine.check_eq_true_iff.mp (by decide +kernel))

/-- The second caller overwrites an entry that the first one has filled. -/
theorem collectors_mix :
    ¬∀ env : CallEnv, (∀ c, (env.graphs c).sections.length < 2 ^ 32) → ∀ acts,
      Machine.Always (callMachine env) (CallsApart env) .initial acts := by
  intro h
  have happart := (h twoCallers twoCallers_length_lt
    (fillBoth 0 ++ .process 1 :: List.replicate 4 (.caller 1) ++ runBoth 0)).last
    (callMachine_run twoCallers .initial _)
  obtain ⟨c, -, i, -, hfor⟩ := happart.own ⟨some 1, some 1, some (1, 0), 0, 0, some 0⟩
    (by decide +kernel)
  -- The graph is that of the second caller and the cookie that of the first.
  have hgraph : some 1 = some c := hfor.graph
  have hcookie : 0 = c := hfor.cookie
  cases hcookie
  cases hgraph

end DVP.Kgraph
