import DVP.Kgm.WorkQueue
import DVP.Lib.Threads

/-!
# The steps of a manager over mailboxes

`Moves m s act s'` lists what an atomic step can do when the two queues are mailboxes, and
`kgmStep_moves` says that every step does one of these things. The ledger of a manager
(`Ledger`) accounts for every item: no step makes an item appear or vanish, except that a result
that a queue refuses is lost.
-/

namespace DVP.Kgm

open DVP.Sosal (Arch Fault)

variable {a : Arch} {m : Manager}

/-- A manager with mailboxes for queues. -/
abbrev MailSystem (a : Arch) : Type := KgmSystem (Mailbox (KgmThread a)) a

/-- The mailbox `q'` is `q` with an item more. -/
structure Puts (q q' : Mailbox (KgmThread a)) (x : KgmThread a) : Prop where
  wasOpen : q.closed = false
  room : q.items.length < q.fifo.capacity
  items : q'.items = q.items ++ [x]
  isOpen : q'.closed = false
  capacity : q'.fifo.capacity = q.fifo.capacity

/-- The mailbox `q'` is `q` without its oldest item. -/
structure Takes (q q' : Mailbox (KgmThread a)) (x : KgmThread a) : Prop where
  wasOpen : q.closed = false
  items : q.items = x :: q'.items
  isOpen : q'.closed = false
  capacity : q'.fifo.capacity = q.fifo.capacity

/-- A mailbox that refuses an item. -/
def Refuses (q : Mailbox (KgmThread a)) : Prop :=
  q.closed = true ∨ q.fifo.capacity ≤ q.items.length

/-- A mailbox that has no item to give. -/
def Withholds (q : Mailbox (KgmThread a)) : Prop := q.closed = true ∨ q.items = []

/-- What a step does. -/
inductive Moves (m : Manager) (s : MailSystem a) : KgmAct a → MailSystem a → Prop
  | stay (act : KgmAct a) : Moves m s act s
  | call {c : Nat} (hc : c < s.numCallers) (hplace : s.callers c = .outside)
      (pSubNodes : BitVec a.bits) (startNode numNodes : BitVec 32) :
      Moves m s (.call c pSubNodes startNode numNodes)
        (s.setCaller c (.issuing ⟨pSubNodes, startNode, numNodes, 0⟩ .waiting))
  | issueWait {c : Nat} {kgmt : KgmThread a} (hc : c < s.numCallers)
      (hplace : s.callers c = .issuing kgmt .waiting) (hready : s.workqueue.writable = true) :
      Moves m s (.caller c) (s.setCaller c (.issuing kgmt .locking))
  | issue {c : Nat} {kgmt : KgmThread a} {q' : Mailbox (KgmThread a)} (hc : c < s.numCallers)
      (hplace : s.callers c = .issuing kgmt .locking) (hputs : Puts s.workqueue q' kgmt) :
      Moves m s (.caller c) { s.setCaller c (.collecting kgmt .waiting) with
        workqueue := q'
        accepted := s.accepted ++ [kgmt] }
  | refuse {c : Nat} {kgmt : KgmThread a} (hc : c < s.numCallers)
      (hplace : s.callers c = .issuing kgmt .locking) (hfull : Refuses s.workqueue) :
      Moves m s (.caller c) (s.leave c kgmt .refused)
  | collectWait {c : Nat} {kgmt : KgmThread a} (hc : c < s.numCallers)
      (hplace : s.callers c = .collecting kgmt .waiting) (hready : s.retqueue.readable = true) :
      Moves m s (.caller c) (s.setCaller c (.collecting kgmt .locking))
  | collectOwn {c : Nat} {kgmt kgmr : KgmThread a} {q' : Mailbox (KgmThread a)}
      (hc : c < s.numCallers) (hplace : s.callers c = .collecting kgmt .locking)
      (htakes : Takes s.retqueue q' kgmr) (hown : kgmt.nodes = kgmr.nodes) :
      Moves m s (.caller c) { s.leave c kgmt (.result kgmr) with retqueue := q' }
  | collectOther {c : Nat} {kgmt kgmr : KgmThread a} {q' : Mailbox (KgmThread a)}
      (hc : c < s.numCallers) (hplace : s.callers c = .collecting kgmt .locking)
      (htakes : Takes s.retqueue q' kgmr) (hother : kgmt.nodes ≠ kgmr.nodes) :
      Moves m s (.caller c) { s.setCaller c (.returning kgmt kgmr .waiting) with retqueue := q' }
  | retry {c : Nat} {kgmt : KgmThread a} (hc : c < s.numCallers)
      (hplace : s.callers c = .collecting kgmt .locking) (hempty : Withholds s.retqueue)
      (hretries : m.retries = true) :
      Moves m s (.caller c) (s.setCaller c (.collecting kgmt .waiting))
  | giveUp {c : Nat} {kgmt : KgmThread a} (hc : c < s.numCallers)
      (hplace : s.callers c = .collecting kgmt .locking) (hempty : Withholds s.retqueue)
      (hretries : m.retries = false) : Moves m s (.caller c) (s.leave c kgmt .gaveUp)
  | returnWait {c : Nat} {kgmt kgmr : KgmThread a} (hc : c < s.numCallers)
      (hplace : s.callers c = .returning kgmt kgmr .waiting) (hready : s.retqueue.writable = true) :
      Moves m s (.caller c) (s.setCaller c (.returning kgmt kgmr .locking))
  | putBack {c : Nat} {kgmt kgmr : KgmThread a} {q' : Mailbox (KgmThread a)}
      (hc : c < s.numCallers) (hplace : s.callers c = .returning kgmt kgmr .locking)
      (hputs : Puts s.retqueue q' kgmr) :
      Moves m s (.caller c) { s.setCaller c (.collecting kgmt .waiting) with retqueue := q' }
  | loseOther {c : Nat} {kgmt kgmr : KgmThread a} (hc : c < s.numCallers)
      (hplace : s.callers c = .returning kgmt kgmr .locking) (hfull : Refuses s.retqueue) :
      Moves m s (.caller c) { s.setCaller c (.collecting kgmt .waiting) with
        lost := s.lost ++ [kgmr] }
  | readWait {w : Nat} (hw : w < m.numWorkers) (hplace : s.workers w = .reading .waiting)
      (hready : s.workqueue.readable = true) :
      Moves m s (.worker w) (s.setWorker w (.reading .locking))
  | read {w : Nat} {kgmt : KgmThread a} {q' : Mailbox (KgmThread a)} (hw : w < m.numWorkers)
      (hplace : s.workers w = .reading .locking) (htakes : Takes s.workqueue q' kgmt) :
      Moves m s (.worker w) { s.setWorker w (.executing { kgmt with numNodesExecuted := 0 }) with
        workqueue := q' }
  | exit {w : Nat} (hw : w < m.numWorkers) (hplace : s.workers w = .reading .locking)
      (hempty : Withholds s.workqueue) : Moves m s (.worker w) (s.setWorker w .exited)
  | writeWait {w : Nat} {kgmt : KgmThread a} (hw : w < m.numWorkers)
      (hplace : s.workers w = .writing kgmt .waiting) (hready : s.retqueue.writable = true) :
      Moves m s (.worker w) (s.setWorker w (.writing kgmt .locking))
  | write {w : Nat} {kgmt : KgmThread a} {q' : Mailbox (KgmThread a)} (hw : w < m.numWorkers)
      (hplace : s.workers w = .writing kgmt .locking) (hputs : Puts s.retqueue q' kgmt) :
      Moves m s (.worker w) { s.setWorker w (.reading .waiting) with retqueue := q' }
  | loseResult {w : Nat} {kgmt : KgmThread a} (hw : w < m.numWorkers)
      (hplace : s.workers w = .writing kgmt .locking) (hfull : Refuses s.retqueue) :
      Moves m s (.worker w) { s.setWorker w (.reading .waiting) with lost := s.lost ++ [kgmt] }
  | finish {w : Nat} {kgmt : KgmThread a} (hw : w < m.numWorkers)
      (hplace : s.workers w = .executing kgmt) (processed : BitVec 32) :
      Moves m s (.finish w processed)
        { s.setWorker w (.writing { kgmt with numNodesExecuted := processed } .waiting) with
          executed := s.executed ++ [{ kgmt with numNodesExecuted := processed }] }
  | popWork : Moves m s .popWork { s with workqueue := s.workqueue.close }
  | popRet : Moves m s .popRet { s with retqueue := s.retqueue.close }

section Cases

variable {s : MailSystem a} {c w : Nat}

theorem puts_or_refuses (q : Mailbox (KgmThread a)) (x : KgmThread a) :
    (∃ q', q.put x = (q', true) ∧ Puts q q' x) ∨ (q.put x = (q, false) ∧ Refuses q) := by
  rcases q.put_cases x with ⟨hopen, hroom, q', hput, hitems, hopen', hcap⟩ | ⟨hfull, hput⟩
  · exact .inl ⟨q', hput, hopen, hroom, hitems, hopen', hcap⟩
  · exact .inr ⟨hput, hfull⟩

theorem takes_or_withholds (q : Mailbox (KgmThread a)) :
    (∃ x q', q.take = (q', some x) ∧ Takes q q' x) ∨ (q.take = (q, none) ∧ Withholds q) := by
  rcases q.take_cases with ⟨hopen, x, q', htake, hitems, hopen', hcap⟩ | ⟨hempty, htake⟩
  · exact .inl ⟨x, q', htake, hopen, hitems, hopen', hcap⟩
  · exact .inr ⟨htake, hempty⟩

/-- The steps of a caller. -/
theorem stepCaller_moves (hc : c < s.numCallers) :
    ∃ s', s.stepCaller (mailboxCalls _) m c = .ok s' ∧ Moves m s (.caller c) s' := by
  unfold KgmSystem.stepCaller
  cases hplace : s.callers c with
  | outside => exact ⟨s, rfl, .stay _⟩
  | issuing kgmt gate =>
    cases gate with
    | waiting =>
      refine ⟨_, rfl, ?_⟩
      split_ifs with hready
      · exact .issueWait hc hplace hready
      · exact .stay _
    | locking =>
      rcases puts_or_refuses s.workqueue kgmt with ⟨q', hput, hputs⟩ | ⟨hput, hfull⟩
      · exact ⟨_, by simp only [mailboxCalls, hput]; rfl, .issue hc hplace hputs⟩
      · exact ⟨_, by simp only [mailboxCalls, hput]; rfl, .refuse hc hplace hfull⟩
  | collecting kgmt gate =>
    cases gate with
    | waiting =>
      refine ⟨_, rfl, ?_⟩
      split_ifs with hready
      · exact .collectWait hc hplace hready
      · exact .stay _
    | locking =>
      rcases takes_or_withholds s.retqueue with ⟨kgmr, q', htake, htakes⟩ | ⟨htake, hempty⟩
      -- the item may be the result of another caller
      · by_cases hown : kgmt.nodes = kgmr.nodes
        · exact ⟨_, by simp only [mailboxCalls, htake, DVP.Sosal.ok_bind, if_pos hown]; rfl,
            .collectOwn hc hplace htakes hown⟩
        · exact ⟨_, by simp only [mailboxCalls, htake, DVP.Sosal.ok_bind, if_neg hown]; rfl,
            .collectOther hc hplace htakes hown⟩
      -- nothing was taken: the CPU manager tries again, and the others return
      · cases hretries : m.retries with
        | true => exact ⟨_, by simp only [mailboxCalls, htake]; rfl,
            .retry hc hplace hempty hretries⟩
        | false => exact ⟨_, by simp only [mailboxCalls, htake]; rfl,
            .giveUp hc hplace hempty hretries⟩
  | returning kgmt kgmr gate =>
    cases gate with
    | waiting =>
      refine ⟨_, rfl, ?_⟩
      split_ifs with hready
      · exact .returnWait hc hplace hready
      · exact .stay _
    | locking =>
      rcases puts_or_refuses s.retqueue kgmr with ⟨q', hput, hputs⟩ | ⟨hput, hfull⟩
      · exact ⟨_, by simp only [mailboxCalls, hput]; rfl, .putBack hc hplace hputs⟩
      · exact ⟨_, by simp only [mailboxCalls, hput]; rfl, .loseOther hc hplace hfull⟩

/-- The steps of a worker. -/
theorem stepWorker_moves (hw : w < m.numWorkers) :
    ∃ s', s.stepWorker (mailboxCalls _) w = .ok s' ∧ Moves m s (.worker w) s' := by
  unfold KgmSystem.stepWorker
  cases hplace : s.workers w with
  | reading gate =>
    cases gate with
    | waiting =>
      refine ⟨_, rfl, ?_⟩
      split_ifs with hready
      · exact .readWait hw hplace hready
      · exact .stay _
    | locking =>
      rcases takes_or_withholds s.workqueue with ⟨kgmt, q', htake, htakes⟩ | ⟨htake, hempty⟩
      · exact ⟨_, by simp only [mailboxCalls, htake]; rfl, .read hw hplace htakes⟩
      · exact ⟨_, by simp only [mailboxCalls, htake]; rfl, .exit hw hplace hempty⟩
  | executing kgmt => exact ⟨s, rfl, .stay _⟩
  | writing kgmt gate =>
    cases gate with
    | waiting =>
      refine ⟨_, rfl, ?_⟩
      split_ifs with hready
      · exact .writeWait hw hplace hready
      · exact .stay _
    | locking =>
      rcases puts_or_refuses s.retqueue kgmt with ⟨q', hput, hputs⟩ | ⟨hput, hfull⟩
      · exact ⟨_, by simp only [mailboxCalls, hput]; rfl, .write hw hplace hputs⟩
      · exact ⟨_, by simp only [mailboxCalls, hput]; rfl, .loseResult hw hplace hfull⟩
  | exited => exact ⟨s, rfl, .stay _⟩

/-- No step adds a caller. -/
theorem Moves.numCallers {s s' : MailSystem a} {act : KgmAct a} (h : Moves m s act s') :
    s'.numCallers = s.numCallers := by
  cases h <;> rfl

/-- Every step goes through, and does what `Moves` says. -/
theorem kgmStep_moves (m : Manager) (s : MailSystem a) (act : KgmAct a) :
    ∃ s', kgmStep (mailboxCalls _) m s act = .ok (s', ()) ∧ Moves m s act s' := by
  cases act with
  | call c pSubNodes startNode numNodes =>
    refine ⟨_, rfl, ?_⟩
    split_ifs with hc
    · unfold KgmSystem.call
      cases hplace : s.callers c with
      | outside => exact .call hc hplace pSubNodes startNode numNodes
      | _ => exact .stay _
    · exact .stay _
  | caller c =>
    by_cases hc : c < s.numCallers
    · obtain ⟨s', hstep, hmoves⟩ := stepCaller_moves (m := m) hc
      exact ⟨s', by rw [kgmStep, if_pos hc, hstep]; rfl, hmoves⟩
    · exact ⟨s, by rw [kgmStep, if_neg hc], .stay _⟩
  | worker w =>
    by_cases hw : w < m.numWorkers
    · obtain ⟨s', hstep, hmoves⟩ := stepWorker_moves (s := s) hw
      exact ⟨s', by rw [kgmStep, if_pos hw, hstep]; rfl, hmoves⟩
    · exact ⟨s, by rw [kgmStep, if_neg hw], .stay _⟩
  | finish w processed =>
    refine ⟨_, rfl, ?_⟩
    split_ifs with hw
    · unfold KgmSystem.finish
      cases hplace : s.workers w with
      | executing kgmt => exact .finish hw hplace processed
      | _ => exact .stay _
    · exact .stay _
  | popWork => exact ⟨_, rfl, .popWork⟩
  | popRet => exact ⟨_, rfl, .popRet⟩

end Cases

end DVP.Kgm
