import DVP.Lib.Custody
import DVP.VisionEngine.Engine

/-!
# The engine conserves its frames

* `frames_conserved_iff`: in all states of a run every frame is in the queue, in the hands of the engine or back at
  the camera, exactly when five things do not happen: `DequeueImage` reads from a queue that was popped after its
  test of the length, it drops a frame without a buffer, the engine gets a frame of length zero, and one of
  the frames that are to be returned finds no camera.
-/

namespace DVP.VisionEngine

open DVP.Sosal

/-! ## What is expected -/

/-- The frame that a call of `ReceiveImage` has. -/
def ReceiveLocation.hands : ReceiveLocation → List Delivery
  | .writing d | .dropping d => [d]
  | _ => []

/-- The frame that the thread of the engine has. A frame that `queue_read` did not deliver is not its own. -/
def EngineLocation.hands : EngineLocation → List Delivery
  | .inspecting true (some d) => [d]
  | .discarding d => [d]
  | .dequeued (some d) => [d]
  | .processing d => [d]
  | .counting d _ => [d]
  | .returning d _ => [d]
  | _ => []

/-- `DequeueImage` is about to dereference what `queue_read` did not deliver. -/
def EngineLocation.misread : EngineLocation → Bool
  | .inspecting false _ => true
  | _ => false

/-- How often the engine and the camera have the frame of a delivery. -/
def EngineSystem.held (s : EngineSystem) (d : Delivery) : Nat :=
  s.framequeue.items.count d + (s.engine.hands.count d + (s.calls d.call).hands.count d) +
    s.returned.count d

/-- What is expected of the engine. -/
structure FramesConserved (s : EngineSystem) : Prop where
  /-- Every frame is in one place, once. -/
  conserved : ∀ d ∈ s.delivered, s.held d = 1
  exited : ∀ status, s.engine = .exited status → ∀ d ∈ s.taken, d ∈ s.returned
  dereferenced : s.engine.misread = false

/-- The step loses no frame and reads no other one. -/
def KeepsFrames (s : EngineSystem) : EngineAct → Prop
  | .engine _ =>
    match s.engine with
    | .reading _ => s.popped = false
    | .inspecting _ (some d) => d.frame.mFrameBuff ≠ 0
    | .dequeued (some d) => d.frame.mLength ≠ 0
    | .discarding _ | .returning _ _ => s.hasCam = true
    | _ => True
  | .call t =>
    match s.calls t with
    | .dropping _ => s.hasCam = true
    | _ => True
  | _ => True

instance (s : EngineSystem) : ∀ act, Decidable (KeepsFrames s act)
  | .engine _ => by
    unfold KeepsFrames
    dsimp only
    split <;> infer_instance
  | .call t => by
    unfold KeepsFrames
    dsimp only
    split <;> infer_instance
  | .receive .. | .stop => isTrue trivial

/-! ## The invariant -/

/-- The call is past its test of `m_running`. -/
def ReceiveLocation.tested : ReceiveLocation → Bool
  | .idle | .testing _ => false
  | _ => true

structure EngineInv (s : EngineSystem) : Prop where
  accounted : Custody.Accounted s.held s.delivered
  tested : ∀ d ∈ s.delivered, (s.calls d.call).tested = true
  own : ∀ t, ∀ d ∈ (s.calls t).hands, d.call = t
  taken : ∀ d ∈ s.taken, d ∈ s.engine.hands ∨ d ∈ s.returned
  inspecting : ∀ ret cameraFrame, s.engine = .inspecting ret cameraFrame →
    ret = true ∧ cameraFrame ≠ none

variable {s s' : EngineSystem} {d : Delivery} {t : Nat} {fileCam : Bool}

theorem engineInv_started {numFrames : Nat} : EngineInv (EngineSystem.started numFrames) where
  accounted := Custody.accounted_nil fun _ => rfl
  tested _ hd := absurd hd List.not_mem_nil
  own _ _ hd := absurd hd List.not_mem_nil
  taken _ hd := absurd hd List.not_mem_nil
  inspecting _ _ h := by cases h

/-- The invariant says that the frames are conserved. -/
theorem EngineInv.conserved (h : EngineInv s) : FramesConserved s where
  conserved d hd := h.accounted.once hd
  exited status hstatus d hd := by
    refine (h.taken d hd).resolve_left ?_
    rw [hstatus]
    exact List.not_mem_nil
  dereferenced := by
    cases hengine : s.engine with
    | inspecting ret cameraFrame =>
      rw [(h.inspecting ret cameraFrame hengine).1]
      rfl
    | _ => rfl

/-! ## The thread of the engine -/

/-- A step of the thread of the engine that moves a frame or none. -/
theorem EngineInv.of_held (h : EngineInv s) (hcalls : s'.calls = s.calls)
    (hdelivered : s'.delivered = s.delivered) (hheld : ∀ d, s'.held d = s.held d)
    (htaken : ∀ d ∈ s'.taken, d ∈ s'.engine.hands ∨ d ∈ s'.returned)
    (hinspecting : ∀ ret cameraFrame, s'.engine = .inspecting ret cameraFrame →
      ret = true ∧ cameraFrame ≠ none) : EngineInv s' where
  accounted := hdelivered ▸ h.accounted.congr hheld
  tested d hd := by
    rw [hcalls]
    exact h.tested d (hdelivered ▸ hd)
  own t d hd := by
    rw [hcalls] at hd
    exact h.own t d hd
  taken := htaken
  inspecting := hinspecting

/-- A step of the thread of the engine that leaves all frames where they are. -/
theorem EngineInv.quiet (h : EngineInv s) (hcalls : s'.calls = s.calls)
    (hdelivered : s'.delivered = s.delivered) (hitems : s'.framequeue = s.framequeue)
    (hreturned : s'.returned = s.returned) (htaken : s'.taken = s.taken)
    (hhands : s'.engine.hands = s.engine.hands)
    (hinspecting : ∀ ret cameraFrame, s'.engine = .inspecting ret cameraFrame →
      ret = true ∧ cameraFrame ≠ none) : EngineInv s' :=
  h.of_held hcalls hdelivered
    (fun d => by rw [EngineSystem.held, hitems, hhands, hcalls, hreturned, EngineSystem.held])
    (fun d hd => by
      rw [hhands, hreturned]
      exact h.taken d (htaken ▸ hd)) hinspecting

/-- `queue_read` takes a frame off the queue, unless the queue was popped. -/
theorem EngineSystem.queueRead_cases (s : EngineSystem) :
    s.queueRead = none ∨ (s.popped = true ∧ s.queueRead = some (s, none)) ∨
      ∃ d q, s.framequeue.items = d :: q.items ∧
        s.queueRead = some ({ s with
          framequeue := q
          taken := d :: s.taken }, some d) := by
  rw [EngineSystem.queueRead]
  by_cases hpopped : s.popped = true
  · rw [if_pos hpopped]
    exact .inr (.inl ⟨hpopped, rfl⟩)
  · rw [if_neg hpopped]
    cases hpop : s.framequeue.pop with
    | none => exact .inl rfl
    | some x =>
      obtain ⟨d, q⟩ := x
      exact .inr (.inr ⟨d, q, Fifo.items_of_pop hpop, rfl⟩)

/-- The engine gets a frame from the queue. -/
theorem EngineInv.read (h : EngineInv s) {q : Fifo Delivery} {location : EngineLocation}
    (hitems : s.framequeue.items = d :: q.items) (hempty : s.engine.hands = [])
    (hhands : location.hands = [d])
    (hinspecting : ∀ ret cameraFrame, location = .inspecting ret cameraFrame →
      ret = true ∧ cameraFrame ≠ none) :
    EngineInv ({ s with
      framequeue := q
      taken := d :: s.taken }.goto location) := by
  refine h.of_held rfl rfl (fun e => ?_) (fun e he => ?_) hinspecting
  · change q.items.count e + (location.hands.count e + (s.calls e.call).hands.count e) +
      s.returned.count e = _
    rw [EngineSystem.held, hitems, hempty, hhands, List.count_cons, List.count_cons, List.count_nil]
    omega
  · change e ∈ location.hands ∨ e ∈ s.returned
    rcases List.mem_cons.mp he with rfl | hold
    · rw [hhands]
      exact .inl List.mem_cons_self
    · refine .inr ((h.taken e hold).resolve_left ?_)
      rw [hempty]
      exact List.not_mem_nil

/-- The engine returns its frame to the camera. -/
theorem EngineInv.returnFrame (h : EngineInv s) {location : EngineLocation} (hcam : s.hasCam = true)
    (hhands : s.engine.hands = [d]) (hempty : location.hands = [])
    (hinspecting : ∀ ret cameraFrame, location ≠ .inspecting ret cameraFrame) :
    EngineInv ((s.returnFrame d).goto location) := by
  rw [EngineSystem.returnFrame, if_pos hcam]
  refine h.of_held rfl rfl (fun e => ?_) (fun e he => ?_) fun ret f heq => absurd heq (hinspecting ret f)
  · change s.framequeue.items.count e + (location.hands.count e + (s.calls e.call).hands.count e) +
      (d :: s.returned).count e = _
    rw [EngineSystem.held, hhands, hempty, List.count_cons, List.count_cons, List.count_nil]
    omega
  · change e ∈ location.hands ∨ e ∈ d :: s.returned
    refine .inr ?_
    rcases h.taken e he with hold | hold
    · rw [hhands] at hold
      exact List.mem_cons.mpr (.inl (List.mem_singleton.mp hold))
    · exact List.mem_cons_of_mem _ hold

theorem EngineSystem.countFrame_eq (s : EngineSystem) (d : Delivery) :
    ∃ running numFrames, s.countFrame d = { s with
      running := running
      numFrames := numFrames } := by
  rw [EngineSystem.countFrame]
  split
  · dsimp only
    split
    · exact ⟨_, _, rfl⟩
    · exact ⟨_, _, rfl⟩
  · exact ⟨_, _, rfl⟩

/-- A step of the engine that meets the condition keeps the invariant. -/
theorem EngineInv.step_engine (h : EngineInv s) {answer : EngineAnswer}
    (hkeeps : KeepsFrames s (.engine answer)) (hstep : engineStep fileCam s answer = .ok s') :
    EngineInv s' := by
  -- most steps move no frame, and only need that the engine holds what it held
  have hquiet : ∀ (running hasCam : Bool) (numFrames : Nat) (location : EngineLocation),
      location.hands = s.engine.hands →
      (∀ ret cameraFrame, location ≠ .inspecting ret cameraFrame) →
      EngineInv ({ s with
        running := running
        hasCam := hasCam
        numFrames := numFrames }.goto location) :=
    fun running hasCam numFrames location hhands hno =>
      h.quiet rfl rfl rfl rfl rfl hhands fun ret f heq => absurd heq (hno ret f)
  rw [KeepsFrames] at hkeeps
  rw [engineStep] at hstep
  cases hengine : s.engine with
  | setup =>
    rw [hengine] at hstep hquiet
    cases hstep
    split
    · exact hquiet s.running answer.hasCam s.numFrames _ rfl nofun
    · exact hquiet s.running answer.hasCam s.numFrames _ rfl nofun
  | loop status =>
    rw [hengine] at hstep hquiet
    cases hstep
    split
    · exact hquiet s.running s.hasCam s.numFrames _ rfl nofun
    · exact hquiet s.running s.hasCam s.numFrames _ rfl nofun
  | backlog cameraFrame =>
    rw [hengine] at hstep hquiet
    cases hstep
    split
    · exact hquiet s.running s.hasCam s.numFrames _ rfl nofun
    · exact hquiet s.running s.hasCam s.numFrames _ rfl nofun
  | reading cameraFrame =>
    rw [hengine] at hstep hkeeps
    dsimp only at hstep hkeeps
    rcases s.queueRead_cases with hread | ⟨hpopped, -⟩ | ⟨d, q, hitems, hread⟩
    · -- `queue_read` waits.
      rw [hread] at hstep
      cases hstep
      exact h
    · rw [hkeeps] at hpopped
      cases hpopped
    · rw [hread] at hstep
      cases hstep
      refine h.read hitems (by rw [hengine]; rfl) rfl ?_
      rintro ret f heq
      cases heq
      exact ⟨rfl, nofun⟩
  | inspecting ret cameraFrame =>
    -- The invariant has that `queue_read` delivered the frame.
    obtain ⟨hret, hsome⟩ := h.inspecting ret cameraFrame hengine
    subst hret
    rw [hengine] at hstep hkeeps hquiet
    cases cameraFrame with
    | none => exact absurd rfl hsome
    | some d =>
      dsimp only at hstep hkeeps
      rw [if_pos ⟨rfl, hkeeps⟩] at hstep
      cases hstep
      exact hquiet s.running s.hasCam s.numFrames _ rfl nofun
  -- the two steps that give a frame back to the camera are `discarding` and `returning`
  | discarding d =>
    rw [hengine] at hstep hkeeps
    cases hstep
    exact h.returnFrame hkeeps (by rw [hengine]; rfl) rfl nofun
  | stopped =>
    rw [hengine] at hstep hquiet
    cases hstep
    split
    · exact hquiet s.running s.hasCam s.numFrames _ rfl nofun
    · exact hquiet s.running s.hasCam s.numFrames _ rfl nofun
  | waiting =>
    rw [hengine] at hstep hquiet
    dsimp only at hstep
    rcases s.queueRead_cases with hread | ⟨-, hread⟩ | ⟨d, q, hitems, hread⟩
    · rw [hread] at hstep
      cases hstep
      exact h
    · -- Here a queue that was popped answers `NULL`, and the test that follows sees it.
      rw [hread] at hstep
      cases hstep
      exact hquiet s.running s.hasCam s.numFrames _ rfl nofun
    · rw [hread] at hstep
      cases hstep
      exact h.read hitems (by rw [hengine]; rfl) rfl nofun
  | dequeued cameraFrame =>
    rw [hengine] at hstep hkeeps hquiet
    cases cameraFrame with
    | none =>
      cases hstep
      exact hquiet false s.hasCam s.numFrames _ rfl nofun
    | some d =>
      dsimp only at hstep hkeeps
      rw [if_pos hkeeps] at hstep
      cases hstep
      exact hquiet s.running s.hasCam s.numFrames _ rfl nofun
  | processing d =>
    rw [hengine] at hstep hquiet
    cases hstep
    exact hquiet s.running s.hasCam s.numFrames _ rfl nofun
  | counting d status =>
    obtain ⟨running, numFrames, hcount⟩ := s.countFrame_eq d
    rw [hengine] at hstep hquiet
    dsimp only at hstep
    rw [hcount] at hstep
    cases hstep
    exact hquiet running s.hasCam numFrames _ rfl nofun
  | returning d status =>
    rw [hengine] at hstep hkeeps
    cases hstep
    exact h.returnFrame hkeeps (by rw [hengine]; rfl) rfl nofun
  | teardown status =>
    rw [hengine] at hstep hquiet
    cases hstep
    exact hquiet s.running false s.numFrames _ rfl nofun
  | exited status =>
    rw [hengine] at hstep
    cases hstep
    exact h

/-! ## The calls of `ReceiveImage` -/

/-- A step of a call that moves its frame or none. -/
theorem EngineInv.of_call (h : EngineInv s) {location : ReceiveLocation}
    (hcalls : s'.calls = Function.update s.calls t location) (hdelivered : s'.delivered = s.delivered)
    (hengine : s'.engine = s.engine) (htaken : s'.taken = s.taken)
    (hreturned : s.returned ⊆ s'.returned) (hheld : ∀ d, s'.held d = s.held d)
    (htested : (s.calls t).tested = true → location.tested = true)
    (hown : ∀ d ∈ location.hands, d.call = t) : EngineInv s' where
  accounted := hdelivered ▸ h.accounted.congr hheld
  tested d hd := by
    have hold := h.tested d (hdelivered ▸ hd)
    rw [hcalls]
    by_cases ht : d.call = t
    · rw [ht, Function.update_self]
      exact htested (ht ▸ hold)
    · rw [Function.update_of_ne ht]
      exact hold
  own u d hd := by
    rw [hcalls] at hd
    by_cases hu : u = t
    · subst hu
      rw [Function.update_self] at hd
      exact hown d hd
    · rw [Function.update_of_ne hu] at hd
      exact h.own u d hd
  taken d hd := by
    rw [hengine]
    exact (h.taken d (htaken ▸ hd)).imp_right fun hold => hreturned hold
  inspecting ret f heq := h.inspecting ret f (hengine ▸ heq)

/-- The hands of a call after a step of one of the calls. -/
theorem count_hands_update {calls : Nat → ReceiveLocation} {location : ReceiveLocation} {e : Delivery} :
    ((Function.update calls t location) e.call).hands.count e =
      if e.call = t then location.hands.count e else (calls e.call).hands.count e := by
  split
  · next heq => rw [heq, Function.update_self]
  · next hne => rw [Function.update_of_ne hne]

/-- A step of a call that leaves its frame where it is. -/
theorem EngineInv.call_quiet (h : EngineInv s) {location : ReceiveLocation}
    (hcalls : s'.calls = Function.update s.calls t location) (hdelivered : s'.delivered = s.delivered)
    (hengine : s'.engine = s.engine) (htaken : s'.taken = s.taken)
    (hitems : s'.framequeue = s.framequeue) (hreturned : s'.returned = s.returned)
    (hhands : location.hands = (s.calls t).hands)
    (htested : (s.calls t).tested = true → location.tested = true) : EngineInv s' := by
  refine h.of_call hcalls hdelivered hengine htaken (fun d hd => hreturned ▸ hd) (fun d => ?_) htested
    fun d hd => h.own t d (hhands ▸ hd)
  rw [EngineSystem.held, EngineSystem.held, hcalls, hengine, hitems, hreturned, count_hands_update,
    hhands]
  split
  · next heq => rw [heq]
  · rfl

/-- A frame comes while the engine is running. -/
theorem EngineInv.deliver (h : EngineInv s) {frame : VisionCamFrame}
    (hcall : s.calls t = .testing (some frame)) :
    EngineInv ({ s with delivered := ⟨t, frame⟩ :: s.delivered }.setCall t (.writing ⟨t, frame⟩)) := by
  -- A call that is at its test has not delivered anything yet.
  have hnew : ∀ d ∈ s.delivered, d.call ≠ t := fun d hd heq => by
    have hold := h.tested d hd
    rw [heq, hcall] at hold
    cases hold
  refine ⟨h.accounted.cons (fun hmem => hnew _ hmem rfl) fun d => ?_, fun d hd => ?_,
    fun u d hd => ?_, h.taken, h.inspecting⟩
  · change s.framequeue.items.count d + (s.engine.hands.count d +
      (Function.update s.calls t _ d.call).hands.count d) + s.returned.count d = _
    rw [count_hands_update, EngineSystem.held]
    by_cases ht : d.call = t
    · rw [if_pos ht, ht, hcall]
      change _ + (_ + [⟨t, frame⟩].count d) + _ = _ + (_ + ([] : List Delivery).count d) + _ + _
      rw [List.count_nil]
      omega
    · have hne : ((⟨t, frame⟩ : Delivery) == d) = false := beq_eq_false_iff_ne.mpr fun heq =>
        ht (congrArg Delivery.call heq).symm
      rw [if_neg ht, List.count_singleton, hne, if_neg Bool.false_ne_true, Nat.add_zero]
  · change (Function.update s.calls t _ d.call).tested = true
    by_cases ht : d.call = t
    · rw [ht, Function.update_self]
      rfl
    · rw [Function.update_of_ne ht]
      exact h.tested d ((List.mem_cons.mp hd).resolve_left fun heq => ht (heq ▸ rfl))
  · change d ∈ (Function.update s.calls t _ u).hands at hd
    by_cases hu : u = t
    · subst hu
      rw [Function.update_self] at hd
      rw [List.mem_singleton.mp hd]
    · rw [Function.update_of_ne hu] at hd
      exact h.own u d hd

/-- The frame of a call that goes elsewhere leaves its hands. -/
theorem EngineInv.held_call (h : EngineInv s) (hhands : (s.calls t).hands = [d]) (e : Delivery) :
    (s.calls e.call).hands.count e =
      ((Function.update s.calls t ReceiveLocation.done) e.call).hands.count e + [d].count e := by
  have hown : d.call = t := h.own t d (hhands ▸ List.mem_singleton_self d)
  rw [count_hands_update]
  split
  · next heq =>
    rw [heq, hhands]
    exact (Nat.zero_add _).symm
  · next hne =>
    have hde : d ≠ e := fun heq => hne (heq ▸ hown)
    rw [List.count_singleton, beq_eq_false_iff_ne.mpr hde]
    rfl

/-- `queue_write` puts the frame in the queue. -/
theorem EngineInv.write (h : EngineInv s) (hcall : s.calls t = .writing d) {q : Fifo Delivery}
    (hpush : s.framequeue.push d = some q) :
    EngineInv ({ s with framequeue := q }.setCall t .done) := by
  refine h.of_call rfl rfl rfl rfl (fun _ he => he) (fun e => ?_) (fun _ => rfl)
    fun _ he => absurd he List.not_mem_nil
  have hhands := h.held_call (t := t) (d := d) (by rw [hcall]; rfl) e
  change q.items.count e + (s.engine.hands.count e +
    (Function.update s.calls t ReceiveLocation.done e.call).hands.count e) + s.returned.count e = _
  rw [EngineSystem.held, hhands, Fifo.items_of_push hpush, List.count_append]
  omega

/-- The region for a frame that the queue refused. -/
theorem EngineSystem.dropFrame_eq (s : EngineSystem) (d : Delivery) :
    ∃ running popped numFrames, s.dropFrame d = { s.returnFrame d with
      running := running
      popped := popped
      numFrames := numFrames } := by
  rw [EngineSystem.dropFrame]
  dsimp only
  split
  · split
    · exact ⟨_, _, _, rfl⟩
    · exact ⟨_, _, _, rfl⟩
  · exact ⟨_, _, _, rfl⟩

/-- A frame that the queue refused goes back to the camera. -/
theorem EngineInv.drop (h : EngineInv s) (hcall : s.calls t = .dropping d) (hcam : s.hasCam = true) :
    EngineInv ((s.dropFrame d).setCall t .done) := by
  obtain ⟨running, popped, numFrames, hdrop⟩ := s.dropFrame_eq d
  rw [hdrop, EngineSystem.returnFrame, if_pos hcam]
  refine h.of_call rfl rfl rfl rfl (fun _ he => List.mem_cons_of_mem _ he) (fun e => ?_) (fun _ => rfl)
    fun _ he => absurd he List.not_mem_nil
  have hhands := h.held_call (t := t) (d := d) (by rw [hcall]; rfl) e
  change s.framequeue.items.count e + (s.engine.hands.count e +
    (Function.update s.calls t ReceiveLocation.done e.call).hands.count e) +
    (d :: s.returned).count e = _
  rw [EngineSystem.held, hhands, List.count_cons, List.count_singleton]
  omega

/-- A step of a call that meets the condition keeps the invariant. -/
theorem EngineInv.step_call (h : EngineInv s) (hkeeps : KeepsFrames s (.call t)) :
    EngineInv (s.receiveStep t) := by
  rw [KeepsFrames] at hkeeps
  rw [EngineSystem.receiveStep]
  cases hcall : s.calls t with
  | idle => exact h
  | testing cameraFrame =>
    have hrefused : EngineInv (s.setCall t .clearing) :=
      h.call_quiet rfl rfl rfl rfl rfl rfl (by rw [hcall]; rfl) fun _ => rfl
    cases cameraFrame with
    | none => exact hrefused
    | some frame =>
      cases hrunning : s.running with
      | false => exact hrefused
      | true =>
        dsimp only
        rw [← hrunning]
        exact h.deliver hcall
  | writing d =>
    have hrefused : EngineInv (s.setCall t (.dropping d)) :=
      h.call_quiet rfl rfl rfl rfl rfl rfl (by rw [hcall]; rfl) fun _ => rfl
    dsimp only
    by_cases hpopped : s.popped = true
    · rw [if_pos hpopped]
      exact hrefused
    · rw [if_neg hpopped]
      cases hpush : s.framequeue.push d with
      | none => exact hrefused
      | some q => exact h.write hcall hpush
  | dropping d =>
    rw [hcall] at hkeeps
    exact h.drop hcall hkeeps
  | clearing => exact h.call_quiet rfl rfl rfl rfl rfl rfl (by rw [hcall]; rfl) fun _ => rfl
  | popping => exact h.call_quiet rfl rfl rfl rfl rfl rfl (by rw [hcall]; rfl) fun _ => rfl
  | done => exact h

/-! ## Steps that break what is expected -/

/-- A frame that leaves the hands of the engine and goes nowhere is lost. -/
theorem EngineInv.lost (h : EngineInv s) (hdelivered : s'.delivered = s.delivered)
    (hheld : s.held d = s'.held d + 1) : ¬FramesConserved s' := fun hconserved =>
  h.accounted.not_once_of_lost s'.held hheld (hdelivered ▸ hconserved.conserved)

/-- The engine loses the frame that it has. -/
theorem EngineInv.engine_lost (h : EngineInv s) (hhands : s.engine.hands = [d])
    {location : EngineLocation} (running : Bool) (hempty : location.hands = []) :
    ¬FramesConserved ({ s with running := running }.goto location) := by
  refine h.lost (d := d) rfl ?_
  change _ = s.framequeue.items.count d + (location.hands.count d + (s.calls d.call).hands.count d) +
    s.returned.count d + 1
  rw [EngineSystem.held, hhands, hempty, List.count_singleton_self, List.count_nil]
  omega

/-- A frame that the queue refused is lost without a camera. -/
theorem EngineInv.broken_call (h : EngineInv s) (hbreaks : ¬KeepsFrames s (.call t)) :
    ¬FramesConserved (s.receiveStep t) := by
  rw [KeepsFrames] at hbreaks
  rw [EngineSystem.receiveStep]
  cases hcall : s.calls t with
  | dropping d =>
    rw [hcall] at hbreaks
    obtain ⟨running, popped, numFrames, hdrop⟩ := s.dropFrame_eq d
    dsimp only
    rw [hdrop, EngineSystem.returnFrame, if_neg hbreaks]
    -- The frame leaves the hands of the call, and nothing else gets it.
    refine h.lost (d := d) rfl ?_
    have hhands := h.held_call (t := t) (d := d) (by rw [hcall]; rfl) d
    change _ = s.framequeue.items.count d + (s.engine.hands.count d +
      (Function.update s.calls t ReceiveLocation.done d.call).hands.count d) + s.returned.count d + 1
    rw [EngineSystem.held, hhands, List.count_singleton_self]
    omega
  | _ =>
    rw [hcall] at hbreaks
    exact absurd trivial hbreaks

/-- A step of the engine that does not meet the condition loses its frame, or is about to read one that it does
not have. -/
theorem EngineInv.broken_engine (h : EngineInv s) (fileCam : Bool) {answer : EngineAnswer}
    (hbreaks : ¬KeepsFrames s (.engine answer)) :
    ∃ s', engineStep fileCam s answer = .ok s' ∧ ¬FramesConserved s' := by
  rw [KeepsFrames] at hbreaks
  rw [engineStep]
  cases hengine : s.engine with
  | reading cameraFrame =>
    rw [hengine] at hbreaks
    have hpopped : s.popped = true := by
      rw [← Bool.not_eq_false]
      exact hbreaks
    -- `queue_read` returns without a frame, and the variable has what it had.
    refine ⟨s.goto (.inspecting false cameraFrame), ?_, fun hconserved => by
      cases hconserved.dereferenced⟩
    dsimp only
    rw [EngineSystem.queueRead, if_pos hpopped]
  | inspecting ret cameraFrame =>
    obtain ⟨hret, hsome⟩ := h.inspecting ret cameraFrame hengine
    subst hret
    rw [hengine] at hbreaks
    cases cameraFrame with
    | none => exact absurd rfl hsome
    | some d =>
      -- A frame without a buffer ends the loop, and nothing returns it.
      refine ⟨{ s with running := false }.goto .stopped, ?_,
        h.engine_lost (d := d) (by rw [hengine]; rfl) false rfl⟩
      exact if_neg fun hand => hbreaks hand.2
  | discarding d =>
    rw [hengine] at hbreaks
    refine ⟨s.goto (.backlog (some d)), ?_,
      h.engine_lost (d := d) (by rw [hengine]; rfl) s.running rfl⟩
    dsimp only
    rw [EngineSystem.returnFrame, if_neg hbreaks]
  | dequeued cameraFrame =>
    rw [hengine] at hbreaks
    cases cameraFrame with
    | none => exact absurd trivial hbreaks
    | some d =>
      -- A frame of length zero ends the thread, and nothing returns it.
      refine ⟨{ s with running := false }.goto
          (.teardown (if fileCam then statusEndOfFile else statusNoResources)), ?_,
        h.engine_lost (d := d) (by rw [hengine]; rfl) false rfl⟩
      exact if_neg hbreaks
  | returning d status =>
    rw [hengine] at hbreaks
    refine ⟨s.goto (.loop status), ?_, h.engine_lost (d := d) (by rw [hengine]; rfl) s.running rfl⟩
    dsimp only
    rw [EngineSystem.returnFrame, if_neg hbreaks]
  | _ =>
    rw [hengine] at hbreaks
    exact absurd trivial hbreaks

/-- A step that does not meet the condition breaks what is expected. -/
theorem EngineInv.broken (h : EngineInv s) {act : EngineAct} (hbreaks : ¬KeepsFrames s act) :
    ∃ s' r, engineSystemStep fileCam s act = .ok (s', r) ∧ ¬FramesConserved s' := by
  cases act with
  | receive t cameraFrame => exact absurd trivial hbreaks
  | call t => exact ⟨_, (), rfl, h.broken_call hbreaks⟩
  | engine answer =>
    obtain ⟨s', hstep, hlost⟩ := h.broken_engine fileCam hbreaks
    refine ⟨s', (), ?_, hlost⟩
    rw [engineSystemStep, hstep]
    rfl
  | stop => exact absurd trivial hbreaks

/-! ## The main result -/

/-- A step that meets the condition keeps the invariant. -/
theorem EngineInv.step (h : EngineInv s) {act : EngineAct} {r : Unit} (hkeeps : KeepsFrames s act)
    (hstep : engineSystemStep fileCam s act = .ok (s', r)) : EngineInv s' := by
  cases act with
  | receive t cameraFrame =>
    rw [engineSystemStep] at hstep
    split at hstep
    · next hcall =>
      cases hstep
      refine h.call_quiet rfl rfl rfl rfl rfl rfl (by rw [hcall]; rfl) fun htested => ?_
      rw [hcall] at htested
      cases htested
    · cases hstep
      exact h
  | call t =>
    cases hstep
    exact h.step_call hkeeps
  | engine answer =>
    rw [engineSystemStep] at hstep
    cases hengine : engineStep fileCam s answer with
    | error fault =>
      rw [hengine] at hstep
      cases hstep
    | ok s₁ =>
      rw [hengine] at hstep
      cases hstep
      exact h.step_engine hkeeps hengine
  | stop =>
    cases hstep
    rw [stopStep]
    -- `Shutdown` moves no frame
    have hsame : ∀ (running popped : Bool) (stop : StopLocation), EngineInv { s with
        running := running
        popped := popped
        stop := stop } := fun running popped stop =>
      h.quiet rfl rfl rfl rfl rfl rfl h.inspecting
    split
    · exact hsame false s.popped .popping
    · exact hsame s.running true .done
    · exact h

/-- In all states of a run every frame that came while the engine was running is in the queue, in the hands of
the engine or back at the camera, once, the engine that has exited has returned the frames that it took, and
`DequeueImage` dereferences what `queue_read` delivered, exactly when every step meets the condition. -/
theorem frames_conserved_iff (fileCam : Bool) (numFrames : Nat) (acts : List EngineAct) :
    Machine.Always (engineSystemStep fileCam) FramesConserved (.started numFrames) acts ↔
      Machine.Meets (engineSystemStep fileCam) KeepsFrames (.started numFrames) acts :=
  Machine.always_iff_meets (I := EngineInv) (fun _ h => h.conserved)
    (fun _ _ _ _ h hkeeps hstep => h.step hkeeps hstep) (fun _ _ h hbreaks => h.broken hbreaks)
    engineInv_started

/-! ## Runs that lose a frame -/

/-- `n` steps of the engine, each with an answer that is a success. -/
def engineSteps (n : Nat) : List EngineAct := List.replicate n (.engine ⟨statusSuccess, true⟩)

/-- A frame comes and is written to the queue. -/
def deliverFrame (t : Nat) (frame : VisionCamFrame) : List EngineAct :=
  [.receive t (some frame), .call t, .call t]

/-- The engine gets a frame of length zero. -/
def zeroLength : List EngineAct := engineSteps 1 ++ deliverFrame 0 ⟨4096, 1, 0⟩ ++ engineSteps 5

/-- Two frames are waiting, and the first one has no buffer. -/
def noBuffer : List EngineAct :=
  engineSteps 1 ++ deliverFrame 0 ⟨0, 1, 64⟩ ++ deliverFrame 1 ⟨4096, 1, 64⟩ ++ engineSteps 4

/-- Two frames are waiting, and the engine is shut down between `queue_length` and `queue_read`. -/
def shutdownBetween : List EngineAct :=
  engineSteps 1 ++ deliverFrame 0 ⟨4096, 1, 64⟩ ++ deliverFrame 1 ⟨8192, 1, 64⟩ ++ engineSteps 2 ++
    [.stop, .stop] ++ engineSteps 1

/-- The last state of a run has lost a frame, or is about to dereference what was not delivered. -/
def LosesFrame (acts : List EngineAct) : Prop :=
  ∃ s ∈ Machine.checkedRun (engineSystemStep false) (fun _ _ => True) (.started 10) acts,
    (∃ d ∈ s.delivered, s.held d = 0) ∨ s.engine.misread = true

theorem engine_loses_frames :
    ¬Machine.Always (engineSystemStep false) FramesConserved (.started 10) zeroLength ∧
    ¬Machine.Always (engineSystemStep false) FramesConserved (.started 10) noBuffer ∧
    ¬Machine.Always (engineSystemStep false) FramesConserved (.started 10) shutdownBetween := by
  have hlost : ∀ acts, LosesFrame acts →
      ¬Machine.Always (engineSystemStep false) FramesConserved (.started 10) acts := by
    rintro acts ⟨s, hs, hbad⟩ halways
    obtain ⟨-, rs, hrun⟩ := Machine.checkedRun_eq_some hs
    have hconserved := halways.last hrun
    rcases hbad with ⟨d, hd, hzero⟩ | hmisread
    · cases hzero.symm.trans (hconserved.conserved d hd)
    · cases hmisread.symm.trans hconserved.dereferenced
  refine ⟨hlost _ ?_, hlost _ ?_, hlost _ ?_⟩ <;>
    exact ⟨_, rfl, by decide⟩

end DVP.VisionEngine
