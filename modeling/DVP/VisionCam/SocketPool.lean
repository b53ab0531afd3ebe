import DVP.Lib.Custody
import DVP.VisionCam.SocketCam

/-!
# The image pool of the socket camera

* `pool_closed_iff`: in all states of a run the pool holds images that `useBuffers` was given, and each of them
  is in the pool, in the hands of `RunThread` or with the client, exactly when no step does one of these: it
  returns a frame, it leaves the loop of `RunThread` with an image, it has no callback for an image, or it gives
  the pool an image that it knows or that it refuses.
-/

namespace DVP.VisionCam

open DVP.Sosal DVP.Kgraph

/-! ## What is expected -/

/-- The image that `RunThread` has. -/
def RunLocation.hands : RunLocation → List PoolPtr
  | .testing pImage | .length pImage | .data pImage | .delivering pImage => [pImage]
  | _ => []

/-- How often the pool, `RunThread` and the client have what a pointer points to. -/
def SocketCam.held (s : SocketCam) (ptr : PoolPtr) : Nat :=
  s.imgs.items.count ptr + s.runThread.hands.count ptr + s.outstanding.count ptr

/-- What is expected of the pool. -/
structure PoolClosed (s : SocketCam) : Prop where
  /-- What the pool holds are images that were given to `useBuffers`. -/
  images : ∀ ptr ∈ s.imgs.items, ∃ addr ∈ s.given, ptr = .image addr
  /-- Every image is in one place, once. -/
  owned : ∀ addr ∈ s.given, s.held (.image addr) = 1

/-- A write to the pool waits for room. -/
def SocketCam.Waits (s : SocketCam) : Prop :=
  s.popped = false ∧ s.imgs.capacity ≤ s.imgs.items.length

/-- The step loses no image and lets nothing else into the pool. -/
def KeepsPool (s : SocketCam) : SocketAct → Prop
  | .write =>
    match s.useBuffers with
    | .writing (pImage :: _) => s.Waits ∨ (s.popped = true ↔ pImage ∈ s.given)
    | _ => True
  | .returnFrame buff => buff ∈ s.outstanding → s.Waits
  | .run answer =>
    match s.runThread with
    | .testing _ => s.running = true ∧ s.frameData = true
    | .length _ => answer.ok = true ∧ answer.len ≠ 0
    | .data _ => answer.ok = true ∨ (s.running = true ∧ s.frameData = true)
    | .delivering _ => s.callback = true
    | _ => True
  | _ => True

/-! ## The invariant -/

/-- The images of the pool are accounted for. -/
def PoolInv (s : SocketCam) : Prop := Custody.Accounted s.held (s.given.map .image)

variable {s s' : SocketCam} {addr : Nat} {ptr buff : PoolPtr}

theorem image_injective : Function.Injective PoolPtr.image := fun _ _ h => PoolPtr.image.inj h

theorem poolInv_started {callback : Bool} : PoolInv (SocketCam.started callback) :=
  Custody.accounted_nil fun _ => rfl

theorem image_mem_iff : PoolPtr.image addr ∈ s.given.map PoolPtr.image ↔ addr ∈ s.given :=
  List.mem_map_of_injective image_injective

/-- What somebody has is an image. -/
theorem PoolInv.image_of_pos (h : PoolInv s) (hpos : 0 < s.held ptr) :
    ∃ addr ∈ s.given, ptr = .image addr := by
  obtain ⟨addr, haddr, heq⟩ := List.mem_map.mp (h.mem_of_pos hpos)
  exact ⟨addr, haddr, heq.symm⟩

theorem PoolInv.closed (h : PoolInv s) : PoolClosed s where
  images ptr hptr := h.image_of_pos <| by
    rw [SocketCam.held]
    exact Nat.add_pos_left (Nat.add_pos_left (List.count_pos_iff.mpr hptr) _) _
  owned addr haddr := h.once (image_mem_iff.mpr haddr)

/-- A step that hands an image on, or does nothing with the images. -/
theorem PoolInv.of_held (h : PoolInv s) (hgiven : s'.given = s.given)
    (hheld : ∀ ptr, s'.held ptr = s.held ptr) : PoolInv s' := by
  rw [PoolInv, hgiven]
  exact h.congr hheld

/-- A step that misses an image. -/
theorem PoolInv.lost (h : PoolInv s) (ptr : PoolPtr) (hgiven : s'.given = s.given)
    (hlost : s.held ptr = s'.held ptr + 1) : ¬PoolClosed s' := by
  intro hclosed
  refine h.not_once_of_lost s'.held hlost fun ptr' hptr' => ?_
  obtain ⟨addr, haddr, rfl⟩ := List.mem_map.mp hptr'
  exact hclosed.owned addr (hgiven ▸ haddr)

/-! ## Writes to the pool -/

/-- What `queue_write` does. -/
theorem SocketCam.queueWrite_cases (s : SocketCam) (ptr : PoolPtr) :
    (s.Waits ∧ s.queueWrite ptr = none) ∨ (s.popped = true ∧ s.queueWrite ptr = some s) ∨
      ∃ imgs, s.popped = false ∧ ¬s.Waits ∧ imgs.items = s.imgs.items ++ [ptr] ∧
        s.queueWrite ptr = some { s with imgs := imgs } := by
  rw [SocketCam.queueWrite]
  cases hpopped : s.popped with
  | true => exact .inr (.inl ⟨rfl, if_pos rfl⟩)
  | false =>
    rw [if_neg Bool.false_ne_true]
    cases hpush : s.imgs.push ptr with
    | none =>
      refine .inl ⟨⟨hpopped, ?_⟩, rfl⟩
      by_contra hroom
      obtain ⟨imgs, hsome⟩ := Fifo.exists_push (x := ptr) (Nat.lt_of_not_le hroom)
      cases hpush.symm.trans hsome
    | some imgs =>
      refine .inr (.inr ⟨imgs, rfl, fun hwaits => ?_, Fifo.items_of_push hpush, rfl⟩)
      have hbound := imgs.bound
      rw [Fifo.items_of_push hpush, Fifo.capacity_of_push hpush, List.length_append] at hbound
      exact absurd hwaits.2 (Nat.not_le_of_lt hbound)

theorem SocketCam.give_eq (s : SocketCam) (addr : Nat) :
    s.give addr = { s with given := if addr ∈ s.given then s.given else addr :: s.given } := by
  rw [SocketCam.give]
  split
  · rfl
  · rfl

/-- What `useBuffers` does with the image that is next: it waits, or the pool refuses the image, or takes it. -/
theorem SocketCam.useBuffersStep_cases {pImage : Nat} {pImages : List Nat}
    (huse : s.useBuffers = .writing (pImage :: pImages)) :
    (s.Waits ∧ s.useBuffersStep = s) ∨
      (s.popped = true ∧ s.useBuffersStep = { s with
        given := if pImage ∈ s.given then s.given else pImage :: s.given
        useBuffers := .writing pImages }) ∨
      ∃ imgs, s.popped = false ∧ ¬s.Waits ∧ imgs.items = s.imgs.items ++ [.image pImage] ∧
        s.useBuffersStep = { s with
          imgs := imgs
          given := if pImage ∈ s.given then s.given else pImage :: s.given
          useBuffers := .writing pImages } := by
  rw [SocketCam.useBuffersStep, huse]
  dsimp only
  rcases s.queueWrite_cases (.image pImage) with ⟨hwaits, hwrite⟩ | ⟨hpopped, hwrite⟩ |
    ⟨imgs, hpopped, hroom, hitems, hwrite⟩
  · exact .inl ⟨hwaits, by rw [hwrite]⟩
  · refine .inr (.inl ⟨hpopped, ?_⟩)
    rw [hwrite]
    dsimp only
    rw [SocketCam.give_eq]
  · refine .inr (.inr ⟨imgs, hpopped, hroom, hitems, ?_⟩)
    rw [hwrite]
    dsimp only
    rw [SocketCam.give_eq]

/-- A new image joins the pool. -/
theorem PoolInv.write (h : PoolInv s) {imgs : Fifo PoolPtr} {useBuffers : UseLocation}
    (hnew : addr ∉ s.given) (hitems : imgs.items = s.imgs.items ++ [.image addr]) :
    PoolInv { s with
      imgs := imgs
      given := addr :: s.given
      useBuffers := useBuffers } := by
  refine Custody.Accounted.cons h (fun hmem => hnew (image_mem_iff.mp hmem)) fun ptr => ?_
  change imgs.items.count ptr + s.runThread.hands.count ptr + s.outstanding.count ptr = _
  rw [hitems, List.count_append, SocketCam.held]
  omega

/-- A step of `useBuffers` that meets the condition keeps the invariant. -/
theorem PoolInv.step_write (h : PoolInv s) (hkeeps : KeepsPool s .write) : PoolInv s.useBuffersStep := by
  rw [KeepsPool] at hkeeps
  cases huse : s.useBuffers with
  | idle =>
    rw [SocketCam.useBuffersStep, huse]
    exact h
  | writing pImages =>
    cases pImages with
    | nil =>
      rw [SocketCam.useBuffersStep, huse]
      exact h.of_held rfl fun _ => rfl
    | cons pImage pImages =>
      rw [huse] at hkeeps
      dsimp only at hkeeps
      rcases SocketCam.useBuffersStep_cases huse with ⟨-, hstep⟩ | ⟨hpopped, hstep⟩ |
        ⟨imgs, hpopped, hroom, hitems, hstep⟩
      · rw [hstep]
        exact h
      · -- A pool that was popped refuses an image that it had before.
        have hknown : pImage ∈ s.given := by
          refine (hkeeps.resolve_left fun hwaits => ?_).mp hpopped
          cases hpopped.symm.trans hwaits.1
        rw [hstep, if_pos hknown]
        exact h.of_held rfl fun _ => rfl
      · have hnew : pImage ∉ s.given := fun hknown => by
          cases hpopped.symm.trans ((hkeeps.resolve_left hroom).mpr hknown)
        rw [hstep, if_neg hnew]
        exact h.write hnew hitems

/-- A step of `useBuffers` that does not meet the condition leaves an image outside the pool, or in it
twice. -/
theorem PoolInv.broken_write (h : PoolInv s) (hbreaks : ¬KeepsPool s .write) :
    ¬PoolClosed s.useBuffersStep := by
  rw [KeepsPool] at hbreaks
  cases huse : s.useBuffers with
  | idle =>
    rw [huse] at hbreaks
    exact absurd trivial hbreaks
  | writing pImages =>
    cases pImages with
    | nil =>
      rw [huse] at hbreaks
      exact absurd trivial hbreaks
    | cons pImage pImages =>
      rw [huse] at hbreaks
      obtain ⟨hroom, hiff⟩ := not_or.mp hbreaks
      rcases SocketCam.useBuffersStep_cases huse with ⟨hwaits, -⟩ | ⟨hpopped, hstep⟩ |
        ⟨imgs, hpopped, -, hitems, hstep⟩
      · exact absurd hwaits hroom
      · -- The image is new, and the pool that was popped does not take it.
        have hnew : pImage ∉ s.given := fun hknown => hiff (iff_of_true hpopped hknown)
        rw [hstep, if_neg hnew]
        intro hclosed
        have hone := hclosed.owned pImage List.mem_cons_self
        have hzero : s.held (.image pImage) = 0 := by
          rw [h.held_eq]
          exact List.count_eq_zero.mpr fun hmem => hnew (image_mem_iff.mp hmem)
        cases hzero.symm.trans hone
      · -- The pool takes the image a second time.
        have hknown : pImage ∈ s.given := by
          by_contra hnew
          refine hiff (iff_of_false (fun hpop => ?_) hnew)
          cases hpopped.symm.trans hpop
        rw [hstep, if_pos hknown]
        intro hclosed
        have htwo := hclosed.owned pImage hknown
        change imgs.items.count _ + s.runThread.hands.count _ + s.outstanding.count _ = 1 at htwo
        rw [hitems, List.count_append, List.count_singleton_self] at htwo
        have hone : s.held (.image pImage) = 1 := h.once (image_mem_iff.mpr hknown)
        rw [SocketCam.held] at hone
        omega

/-! ## Frames that are returned -/

/-- A frame that is returned is not kept. -/
theorem PoolInv.broken_return (h : PoolInv s) (hbuff : buff ∈ s.outstanding) (hroom : ¬s.Waits) :
    ¬PoolClosed (s.returnFrame buff) := by
  rw [SocketCam.returnFrame, if_pos hbuff]
  rcases s.queueWrite_cases .frame with ⟨hwaits, -⟩ | ⟨-, hwrite⟩ | ⟨imgs, -, -, hitems, hwrite⟩
  · exact absurd hwaits hroom
  · -- A queue that was popped refuses the pointer.
    rw [hwrite]
    refine h.lost buff rfl ?_
    change _ = s.imgs.items.count buff + s.runThread.hands.count buff +
      (s.outstanding.erase buff).count buff + 1
    have hpos := List.count_pos_iff.mpr hbuff
    rw [SocketCam.held, List.count_erase_self]
    omega
  · -- Otherwise the pool has the address of the frame.
    rw [hwrite]
    intro hclosed
    have hmem : PoolPtr.frame ∈ imgs.items := by
      rw [hitems]
      exact List.mem_append_right _ List.mem_cons_self
    obtain ⟨addr, -, heq⟩ := hclosed.images .frame hmem
    cases heq

/-- A frame that waits for room in the pool is still outstanding. -/
theorem PoolInv.step_return (h : PoolInv s) (hkeeps : KeepsPool s (.returnFrame buff)) :
    PoolInv (s.returnFrame buff) := by
  rw [SocketCam.returnFrame]
  split
  · next hbuff =>
    have hwaits : s.Waits := hkeeps hbuff
    rcases s.queueWrite_cases .frame with ⟨-, hwrite⟩ | ⟨hpopped, -⟩ | ⟨-, -, hroom, -⟩
    · rw [hwrite]
      exact h
    · cases hpopped.symm.trans hwaits.1
    · exact absurd hwaits hroom
  · exact h

/-! ## `RunThread` -/

/-- `RunThread` goes on with what it has. -/
theorem PoolInv.goto (h : PoolInv s) {location : RunLocation}
    (hhands : location.hands = s.runThread.hands) : PoolInv (s.goto location) :=
  h.of_held rfl fun ptr => by
    change s.imgs.items.count ptr + location.hands.count ptr + s.outstanding.count ptr = _
    rw [hhands, SocketCam.held]

/-- `RunThread` leaves its loop with an image. -/
theorem PoolInv.broken_goto (h : PoolInv s) (ptr : PoolPtr) {location : RunLocation}
    (hhands : s.runThread.hands = [ptr]) (hempty : location.hands = []) : ¬PoolClosed (s.goto location) := by
  refine h.lost ptr rfl ?_
  change _ = s.imgs.items.count ptr + location.hands.count ptr + s.outstanding.count ptr + 1
  rw [SocketCam.held, hhands, hempty, List.count_singleton_self, List.count_nil]
  omega

/-- A step of `RunThread` that meets the condition keeps the invariant. -/
theorem PoolInv.step_run (h : PoolInv s) {answer : SocketAnswer} (hkeeps : KeepsPool s (.run answer))
    (hstep : s.runStep answer = .ok s') : PoolInv s' := by
  rw [KeepsPool] at hkeeps
  rw [SocketCam.runStep] at hstep
  cases hrun : s.runThread with
  | connecting =>
    rw [hrun] at hstep
    cases hstep
    split
    · exact h.goto (by rw [hrun]; rfl)
    · exact h.goto (by rw [hrun]; rfl)
  | loop =>
    rw [hrun] at hstep
    cases hstep
    split
    · exact h.goto (by rw [hrun]; rfl)
    · exact h.goto (by rw [hrun]; rfl)
  | reading =>
    rw [hrun] at hstep
    dsimp only at hstep
    split at hstep
    · cases hstep
      exact h.goto (by rw [hrun]; rfl)
    · split at hstep
      · -- The thread waits for an image.
        cases hstep
        exact h
      -- the image moves from the queue to the hands of the thread
      · next pImage imgs hpop =>
        cases hstep
        refine h.of_held rfl fun ptr => ?_
        change imgs.items.count ptr + [pImage].count ptr + s.outstanding.count ptr = _
        rw [SocketCam.held, hrun, Fifo.items_of_pop hpop, List.count_singleton, List.count_cons]
        rfl
  | testing pImage =>
    rw [hrun] at hstep hkeeps
    dsimp only at hstep hkeeps
    rw [if_pos hkeeps] at hstep
    cases hstep
    exact h.goto (by rw [hrun]; rfl)
  | length pImage =>
    rw [hrun] at hstep hkeeps
    dsimp only at hstep hkeeps
    rw [if_pos hkeeps] at hstep
    cases hstep
    exact h.goto (by rw [hrun]; rfl)
  | data pImage =>
    rw [hrun] at hstep hkeeps
    dsimp only at hstep hkeeps
    rw [if_pos hkeeps] at hstep
    cases hstep
    exact h.goto (by rw [hrun]; rfl)
  | delivering pImage =>
    rw [hrun] at hstep hkeeps
    dsimp only at hstep hkeeps
    split at hstep
    · cases hstep
    · -- The callback hands the image to the client.
      rw [if_pos hkeeps] at hstep
      cases hstep
      refine h.of_held rfl fun ptr => ?_
      change s.imgs.items.count ptr + 0 + (_ :: s.outstanding).count ptr = _
      rw [SocketCam.held, hrun, RunLocation.hands, List.count_singleton, List.count_cons]
      omega
  | exited =>
    rw [hrun] at hstep
    cases hstep
    exact h

/-- A step of `RunThread` that does not meet the condition loses the image. -/
theorem PoolInv.broken_run (h : PoolInv s) {answer : SocketAnswer}
    (hbreaks : ¬KeepsPool s (.run answer)) :
    ∃ s', s.runStep answer = .ok s' ∧ ¬PoolClosed s' := by
  rw [KeepsPool] at hbreaks
  rw [SocketCam.runStep]
  cases hrun : s.runThread with
  | testing pImage =>
    rw [hrun] at hbreaks
    dsimp only at hbreaks ⊢
    rw [if_neg hbreaks]
    exact ⟨_, rfl, h.broken_goto pImage (by rw [hrun]; rfl) rfl⟩
  | length pImage =>
    rw [hrun] at hbreaks
    dsimp only at hbreaks ⊢
    rw [if_neg hbreaks]
    exact ⟨_, rfl, h.broken_goto pImage (by rw [hrun]; rfl) rfl⟩
  | data pImage =>
    rw [hrun] at hbreaks
    dsimp only at hbreaks ⊢
    rw [if_neg hbreaks]
    exact ⟨_, rfl, h.broken_goto pImage (by rw [hrun]; rfl) rfl⟩
  | delivering pImage =>
    rw [hrun] at hbreaks
    have hpos : 0 < s.held pImage := by
      rw [SocketCam.held, hrun]
      exact Nat.add_pos_left (Nat.add_pos_right _ (List.count_pos_iff.mpr List.mem_cons_self)) _
    obtain ⟨addr, -, rfl⟩ := h.image_of_pos hpos
    dsimp only at hbreaks ⊢
    rw [if_neg hbreaks]
    exact ⟨_, rfl, h.broken_goto (.image addr) (by rw [hrun]; rfl) rfl⟩
  | _ =>
    rw [hrun] at hbreaks
    exact absurd trivial hbreaks

/-! ## The main result -/

/-- A step that meets the condition keeps the invariant. -/
theorem PoolInv.step (h : PoolInv s) {act : SocketAct} {r : Unit} (hkeeps : KeepsPool s act)
    (hstep : socketStep s act = .ok (s', r)) : PoolInv s' := by
  cases act with
  | useBuffers color pImages calloc =>
    rw [socketStep] at hstep
    split at hstep
    · cases hstep
      rw [SocketCam.useBuffersStart]
      split
      · dsimp only
        split
        · exact h.of_held rfl fun _ => rfl
        · exact h.of_held rfl fun _ => rfl
      · exact h
    · cases hstep
      exact h
  | write =>
    cases hstep
    exact h.step_write hkeeps
  | returnFrame buff =>
    cases hstep
    exact h.step_return hkeeps
  | run answer =>
    rw [socketStep] at hstep
    cases hrun : s.runStep answer with
    | error fault =>
      rw [hrun] at hstep
      cases hstep
    | ok s₁ =>
      rw [hrun] at hstep
      cases hstep
      exact h.step_run hkeeps hrun
  | clear =>
    cases hstep
    exact h.of_held rfl fun _ => rfl
  | pop =>
    cases hstep
    exact h.of_held rfl fun _ => rfl

/-- A step that does not meet the condition breaks what is expected. -/
theorem PoolInv.broken (h : PoolInv s) {act : SocketAct} (hbreaks : ¬KeepsPool s act) :
    ∃ s' r, socketStep s act = .ok (s', r) ∧ ¬PoolClosed s' := by
  cases act with
  | useBuffers color pImages calloc => exact absurd trivial hbreaks
  | write => exact ⟨_, (), rfl, h.broken_write hbreaks⟩
  | returnFrame buff =>
    rw [KeepsPool] at hbreaks
    obtain ⟨hbuff, hroom⟩ := Classical.not_imp.mp hbreaks
    exact ⟨_, (), rfl, h.broken_return hbuff hroom⟩
  | run answer =>
    obtain ⟨s', hrun, hbroken⟩ := h.broken_run hbreaks
    refine ⟨s', (), ?_, hbroken⟩
    rw [socketStep, hrun]
    rfl
  | clear => exact absurd trivial hbreaks
  | pop => exact absurd trivial hbreaks

/-- In all states of a run the pool holds images that `useBuffers` was given, and every such image is in the pool, in
the hands of `RunThread` or with the client, once, exactly when every step meets the condition. -/
theorem pool_closed_iff (callback : Bool) (acts : List SocketAct) :
    Machine.Always socketStep PoolClosed (.started callback) acts ↔
      Machine.Meets socketStep KeepsPool (.started callback) acts :=
  Machine.always_iff_meets (I := PoolInv) (fun _ h => h.closed)
    (fun _ _ _ _ h hkeeps hstep => h.step hkeeps hstep) (fun _ _ h hbreaks => h.broken hbreaks)
    poolInv_started

/-! ## Runs that lose an image -/

/-- `useBuffers` gives one image to the pool, and `RunThread` has read it and tested that it may go on. -/
def oneImage : List SocketAct :=
  [.useBuffers fourccNv12 [4096] true, .write, .write] ++ List.replicate 4 (.run ⟨true, 64⟩)

/-- The image is delivered, and the client returns the frame. -/
def frameReturned : List SocketAct :=
  oneImage ++ List.replicate 3 (.run ⟨true, 64⟩) ++ [.returnFrame (.image 4096)]

/-- The length is not received. -/
def lengthFails : List SocketAct := oneImage ++ [.run ⟨false, 0⟩]

/-- The last state of a run has a frame in the pool, or nobody has the image. -/
def OpensPool (acts : List SocketAct) : Prop :=
  ∃ s ∈ Machine.checkedRun socketStep (fun _ _ => True) (.started true) acts,
    PoolPtr.frame ∈ s.imgs.items ∨ (4096 ∈ s.given ∧ s.held (.image 4096) = 0)

/-- `returnFrame` puts the address of the frame in the pool, and a receive that fails loses the image. -/
theorem socket_pool_opens :
    ¬Machine.Always socketStep PoolClosed (.started true) frameReturned ∧
    ¬Machine.Always socketStep PoolClosed (.started true) lengthFails := by
  have hopens : ∀ acts, OpensPool acts → ¬Machine.Always socketStep PoolClosed (.started true) acts := by
    rintro acts ⟨s, hs, hbad⟩ halways
    obtain ⟨-, rs, hrun⟩ := Machine.checkedRun_eq_some hs
    have hclosed := halways.last hrun
    rcases hbad with hframe | ⟨hgiven, hzero⟩
    · obtain ⟨addr, -, heq⟩ := hclosed.images .frame hframe
      cases heq
    · cases hzero.symm.trans (hclosed.owned 4096 hgiven)
  exact ⟨hopens _ ⟨_, rfl, by decide⟩, hopens _ ⟨_, rfl, by decide⟩⟩

end DVP.VisionCam
