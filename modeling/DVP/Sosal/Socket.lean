import DVP.Lib.Bytes
import DVP.Sosal.Types

/-!
# Sockets

`socket_send` and `socket_recv` of `source/sosal/socket.c`, over every behaviour of the operating
system: a call of `send` or `recv` fails, or it takes or brings some of the bytes it is asked for,
and afterwards `errno` has any value. `socket_recv` makes its calls in a loop, whose rounds are
counted here; after any number of them it has returned or goes on.

The counters `bytesSend` and `bytesRecv`, which only the unit test prints, are left out, and so is
the choice of the descriptor.
-/

namespace DVP.Sosal

open Bytes

/-- The conversion to `ssize_t`. -/
def Arch.ssize (a : Arch) (n : Nat) : Int := (n : Int).bmod a.size

/-- The number of values of `ssize_t` that are not negative. -/
def Arch.ssizeBound (a : Arch) : Nat := 2 ^ (a.bits - 1)

namespace BsdSocket

variable {a : Arch}

/-- What a call of `send` does: it fails, or it takes up to this many bytes. -/
structure SendCall (a : Arch) where
  count : Option Nat
  fits : ∀ c ∈ count, c < a.ssizeBound

/-- What a call of `recv` does: it fails, or there are these bytes, of which it brings as many as
it is asked for. -/
structure RecvCall (a : Arch) where
  bytes : Option (List UInt8)
  fits : ∀ bs ∈ bytes, bs.length < a.ssizeBound
  errno : Int

/-- `send`: what it returns. -/
def SendCall.send (call : SendCall a) (len : Nat) : Int :=
  match call.count with
  | none => -1
  | some c => (min c len : Nat)

/-- `recv`: the bytes it writes, or `none` if it returns `-1`. -/
def RecvCall.recv (call : RecvCall a) (len : Nat) : Option (List UInt8) :=
  call.bytes.map (·.take len)

/-- `socket_send`: what it returns, and the bytes it has handed to the system. -/
def socketSend (call : SendCall a) (data : Nat → UInt8) (len : Nat) : Bool × List UInt8 :=
  if 0 < len then
    let sent := call.send len
    let handed := peek data 0 sent.toNat
    if sent = 0 then (false, handed)
    else if sent = -1 then (false, handed)
    -- a count other than `len` is only printed
    else (true, handed)
  else (false, [])

/-- The variables of `socket_recv`, the memory from `data` on, and the runs of bytes that `recv` has
written there. -/
structure RecvState where
  recvd : Int
  data : Nat → UInt8
  writes : List (Nat × Nat)

/-- A round of the loop of `socket_recv`. The value is the one it returns, if it does. -/
def recvRound (call : RecvCall a) (len : Nat) (s : RecvState) : RecvState × Option Bool :=
  match call.recv (a.sub len s.recvd.toNat) with
  | none => ({ s with recvd := -1 }, some false)
  | some bs =>
    if bs.length = 0 ∧ call.errno ≠ 0 then (s, some false)
    else
      let s' : RecvState :=
        { recvd := s.recvd + bs.length
          data := poke s.data s.recvd.toNat bs
          writes := s.writes ++ [(s.recvd.toNat, bs.length)] }
      if s'.recvd < a.ssize len then (s', none)
      else if s'.recvd = 0 then (s', some false)
      else if s'.recvd = -1 then (s', some false)
      -- a count other than `len` is only printed
      else (s', some true)

/-- The loop of `socket_recv` after at most so many rounds, from the call `i` on. -/
def recvLoop (calls : Nat → RecvCall a) (len : Nat) :
    Nat → Nat → RecvState → RecvState × Option Bool
  | 0, _, s => (s, none)
  | rounds + 1, i, s =>
    match recvRound (calls i) len s with
    | (s', some ret) => (s', some ret)
    | (s', none) => recvLoop calls len rounds (i + 1) s'

/-- `socket_recv` after at most so many rounds: its state, and what it returns if it does. -/
def socketRecv (calls : Nat → RecvCall a) (data : Nat → UInt8) (len rounds : Nat) :
    RecvState × Option Bool :=
  if 0 < len then recvLoop calls len rounds 0 { recvd := 0, data, writes := [] }
  else ({ recvd := 0, data, writes := [] }, some false)

/-- The bytes of a call, none if it fails. -/
def RecvCall.content (call : RecvCall a) : List UInt8 := call.bytes.getD []

theorem RecvCall.content_of_none {call : RecvCall a} (h : call.bytes = none) : call.content = [] := by
  rw [RecvCall.content, h]
  rfl

theorem RecvCall.content_of_some {call : RecvCall a} {bs : List UInt8} (h : call.bytes = some bs) :
    call.content = bs := by
  rw [RecvCall.content, h]
  rfl

theorem RecvCall.length_content_lt (call : RecvCall a) : call.content.length < a.ssizeBound := by
  unfold RecvCall.content
  cases h : call.bytes with
  | none => exact Nat.two_pow_pos _
  | some bs => exact call.fits bs h

/-- What the system brings in the first calls. -/
def incoming (calls : Nat → RecvCall a) (n : Nat) : List UInt8 :=
  (List.range n).flatMap fun i => (calls i).content

/-- The peer has closed the connection: from some call on there are no bytes. -/
def PeerCloses (calls : Nat → RecvCall a) : Prop := ∃ k, ∀ i ≥ k, (calls i).content = []

/-- The transfers of `len` bytes are all or nothing. -/
structure SendsAllOrNothing (send : SendCall a) (calls : Nat → RecvCall a) (len : Nat) : Prop where
  /-- What was sent was handed over as a whole. -/
  sends : ∀ data, (socketSend send data len).1 = true →
    (socketSend send data len).2 = peek data 0 len
  /-- What was received is there as a whole, and in order. -/
  receives : ∀ data rounds, (socketRecv calls data len rounds).2 = some true →
    len ≤ (incoming calls rounds).length ∧
      peek (socketRecv calls data len rounds).1.data 0 len = (incoming calls rounds).take len
  /-- No byte is written beyond them. -/
  inside : ∀ data rounds, ∀ w ∈ (socketRecv calls data len rounds).1.writes, w.1 + w.2 ≤ len
  /-- The loop ends once the peer has closed the connection. -/
  ends : PeerCloses calls → ∃ rounds, ∀ data, (socketRecv calls data len rounds).2.isSome

section Sizes

variable {len : Nat}

theorem two_mul_ssizeBound (a : Arch) : 2 * a.ssizeBound = a.size := by
  cases a <;> decide

theorem ssize_of_lt (h : len < a.ssizeBound) : a.ssize len = len := by
  have hsize := two_mul_ssizeBound a
  exact Int.bmod_eq_of_le (by omega) (by omega)

/-- A length that an `ssize_t` cannot count becomes negative. -/
theorem ssize_neg (h : a.ssizeBound ≤ len) (hlen : len < a.size) : a.ssize len < 0 := by
  have hsize := two_mul_ssizeBound a
  have hbmod : (len : Int).bmod a.size = ((len : Int) - a.size).bmod a.size := by simp
  rw [Arch.ssize, hbmod, Int.bmod_eq_of_le (by omega) (by omega)]
  omega

/-- A length that some count has not reached is one that an `ssize_t` can count. -/
theorem lt_ssizeBound_of_lt_ssize {n : Nat} (hlen : len < a.size) (h : n < a.ssize len) :
    len < a.ssizeBound := by
  by_contra hbig
  have hneg := ssize_neg (Nat.not_lt.mp hbig) hlen
  omega

end Sizes

/-! ## The loop -/

section Loop

variable {calls : Nat → RecvCall a} {data : Nat → UInt8} {len i : Nat} {s s' : RecvState}

@[simp]
theorem incoming_zero : incoming calls 0 = [] := rfl

theorem incoming_succ : incoming calls (i + 1) = incoming calls i ++ (calls i).content := by
  simp [incoming, List.range_succ]

theorem incoming_prefix {n m : Nat} (h : n ≤ m) : incoming calls n <+: incoming calls m := by
  induction h with
  | refl => exact List.prefix_rfl
  | step _ ih =>
    rw [incoming_succ]
    exact ih.trans (List.prefix_append _ _)

/-- The state at the start of a round: the bytes of the calls so far are there, and more are
needed. -/
structure RecvInv (calls : Nat → RecvCall a) (data : Nat → UInt8) (len i : Nat) (s : RecvState) :
    Prop where
  recvd : s.recvd = (incoming calls i).length
  data : s.data = poke data 0 (incoming calls i)
  inside : ∀ w ∈ s.writes, w.1 + w.2 ≤ len
  more : (incoming calls i).length < len

/-- The call `i` ends the loop: it fails, or it brings nothing and finds an error, or the bytes
are all there. -/
def StopsAt (calls : Nat → RecvCall a) (len i : Nat) : Prop :=
  (calls i).bytes = none ∨ ((calls i).content = [] ∧ (calls i).errno ≠ 0) ∨
    a.ssize len ≤ (incoming calls (i + 1)).length

/-- What a round that ends the loop leaves. -/
structure RecvEnd (calls : Nat → RecvCall a) (data : Nat → UInt8) (len i : Nat) (s : RecvState)
    (ret : Bool) : Prop where
  stops : StopsAt calls len i
  inside : ∀ w ∈ s.writes, w.1 + w.2 ≤ len
  received : ret = true → s.data = poke data 0 ((incoming calls (i + 1)).take len) ∧
    a.ssize len ≤ (incoming calls (i + 1)).length ∧ incoming calls (i + 1) ≠ []
  refused : ret = false → (calls i).content = []

section Receive

variable {bs : List UInt8}

/-- The bytes of a call are put behind those that came before, as far as there is room. -/
theorem RecvInv.poke_recvd (hs : RecvInv calls data len i s) (hbytes : (calls i).bytes = some bs) :
    poke s.data s.recvd.toNat (bs.take (len - (incoming calls i).length)) =
      poke data 0 ((incoming calls (i + 1)).take len) := by
  rw [incoming_succ, RecvCall.content_of_some hbytes, List.take_append,
    List.take_of_length_le hs.more.le, hs.data, hs.recvd, Int.toNat_natCast, poke_append,
    Nat.zero_add]

/-- They are written inside the `len` bytes. -/
theorem RecvInv.writes_inside (hs : RecvInv calls data len i s)
    (hroom : bs.length ≤ len - (incoming calls i).length) :
    ∀ w ∈ s.writes ++ [(s.recvd.toNat, bs.length)], w.1 + w.2 ≤ len := by
  have hmore := hs.more
  intro w hw
  rcases List.mem_append.mp hw with hw | hw
  · exact hs.inside w hw
  · rw [List.mem_singleton.mp hw, hs.recvd, Int.toNat_natCast]
    omega

end Receive

/-- A round goes on with the bytes of its call, or it ends the loop. -/
theorem recvRound_cases (hlen : len < a.size) (hs : RecvInv calls data len i s) :
    (∃ s', recvRound (calls i) len s = (s', none) ∧ RecvInv calls data len (i + 1) s' ∧
        ¬StopsAt calls len i) ∨
      ∃ s' ret, recvRound (calls i) len s = (s', some ret) ∧
        RecvEnd calls data len i s' ret := by
  have hmore := hs.more
  have hsub : a.sub len s.recvd.toNat = len - (incoming calls i).length := by
    rw [hs.recvd, Int.toNat_natCast, Arch.sub_of_le hmore.le hlen]
  unfold recvRound RecvCall.recv
  rw [hsub]
  cases hbytes : (calls i).bytes with
  | none =>
    exact .inr ⟨_, _, rfl, .inl hbytes, hs.inside, fun h => Bool.noConfusion h,
      fun _ => RecvCall.content_of_none hbytes⟩
  | some bs =>
    have hcontent := RecvCall.content_of_some hbytes
    have hdata := hs.poke_recvd hbytes
    have hlength : (incoming calls (i + 1)).length = (incoming calls i).length + bs.length := by
      rw [incoming_succ, hcontent, List.length_append]
    simp only [Option.map_some]
    generalize hbs' : bs.take (len - (incoming calls i).length) = bs' at hdata ⊢
    have hlen' : bs'.length = min (len - (incoming calls i).length) bs.length := by
      rw [← hbs', List.length_take]
    have hinside := hs.writes_inside (hlen' ▸ Nat.min_le_left _ _)
    have hrecvd : s.recvd + bs'.length = ((incoming calls i).length + bs'.length : Nat) := by
      rw [hs.recvd, Nat.cast_add]
    split_ifs with hzero hagain hnothing hminus
    · -- nothing came, and there is an error
      have hnil : bs = [] := List.length_eq_zero_iff.mp (by omega)
      exact .inr ⟨_, _, rfl, .inr (.inl ⟨hcontent.trans hnil, hzero.2⟩), hs.inside,
        fun h => Bool.noConfusion h, fun _ => hcontent.trans hnil⟩
    · -- more bytes are needed, so `len` is one that an `ssize_t` can count
      simp only [hrecvd] at hagain
      have hsmall := lt_ssizeBound_of_lt_ssize hlen hagain
      rw [ssize_of_lt hsmall] at hagain
      -- none of the bytes of the call was cut off
      have hall : bs'.length = bs.length := by omega
      refine .inl ⟨_, rfl, ⟨?_, ?_, hinside, ?_⟩, ?_⟩
      · rw [hlength, ← hall]
        exact hrecvd
      · rw [hdata, List.take_of_length_le]
        omega
      · omega
      · rintro (hfail | ⟨hnil, herr⟩ | hreached)
        · rw [hbytes] at hfail
          cases hfail
        · refine hzero ⟨?_, herr⟩
          rw [hall, ← hcontent, hnil]
          rfl
        · rw [ssize_of_lt hsmall] at hreached
          omega
    all_goals
      have hreached : a.ssize len ≤ (incoming calls (i + 1)).length := by
        simp only [hrecvd] at hagain
        omega
    · -- no byte has come at all
      simp only [hrecvd] at hnothing
      refine .inr ⟨_, _, rfl, .inr (.inr hreached), hinside, fun h => Bool.noConfusion h,
        fun _ => hcontent.trans (List.length_eq_zero_iff.mp ?_)⟩
      omega
    · -- a sum of counts is not negative
      simp only [hrecvd] at hminus
      omega
    · simp only [hrecvd] at hnothing
      refine .inr ⟨_, _, rfl, .inr (.inr hreached), hinside, fun _ => ⟨hdata, hreached, ?_⟩,
        fun h => Bool.noConfusion h⟩
      intro hnil
      rw [hnil] at hlength
      exact hnothing (by simp only [List.length_nil] at hlength; omega)

/-- After any number of rounds the loop goes on, or the call of one of them has ended it. -/
theorem recvLoop_cases (hlen : len < a.size) (rounds : Nat) (hs : RecvInv calls data len i s) :
    (∃ s', recvLoop calls len rounds i s = (s', none) ∧ RecvInv calls data len (i + rounds) s' ∧
        ∀ j < rounds, ¬StopsAt calls len (i + j)) ∨
      ∃ j < rounds, ∃ s' ret, recvLoop calls len rounds i s = (s', some ret) ∧
        RecvEnd calls data len (i + j) s' ret := by
  induction rounds generalizing i s with
  | zero => exact .inl ⟨s, rfl, hs, fun j hj => absurd hj (Nat.not_lt_zero j)⟩
  | succ rounds ih =>
    rcases recvRound_cases hlen hs with ⟨s', hround, hinv, hgo⟩ | ⟨s', ret, hround, hend⟩
    · have hloop : recvLoop calls len (rounds + 1) i s = recvLoop calls len rounds (i + 1) s' := by
        rw [recvLoop, hround]
      rw [hloop]
      rcases ih hinv with ⟨t, ht, hinv', hno⟩ | ⟨j, hj, t, ret, ht, hend⟩
      · refine .inl ⟨t, ht, by rwa [Nat.add_right_comm] at hinv', fun j hj => ?_⟩
        cases j with
        | zero => exact hgo
        | succ j =>
          rw [← Nat.add_assoc, Nat.add_right_comm]
          exact hno j (Nat.lt_of_succ_lt_succ hj)
      · rw [Nat.add_right_comm] at hend
        exact .inr ⟨j + 1, Nat.succ_lt_succ hj, t, ret, ht, hend⟩
    · refine .inr ⟨0, Nat.succ_pos _, s', ret, ?_, hend⟩
      rw [recvLoop, hround]

theorem recvInv_start (calls : Nat → RecvCall a) (data : Nat → UInt8) (hpos : 0 < len) :
    RecvInv calls data len 0 { recvd := 0, data, writes := [] } :=
  ⟨rfl, poke_nil.symm, fun _ hw => absurd hw List.not_mem_nil, hpos⟩

theorem socketRecv_eq (hpos : 0 < len) (rounds : Nat) :
    socketRecv calls data len rounds =
      recvLoop calls len rounds 0 { recvd := 0, data, writes := [] } :=
  if_pos hpos

/-- `socket_recv` returns exactly if some call ends its loop. -/
theorem socketRecv_isSome_iff (hlen : len < a.size) (hpos : 0 < len) (rounds : Nat) :
    (socketRecv calls data len rounds).2.isSome ↔ ∃ i < rounds, StopsAt calls len i := by
  rw [socketRecv_eq hpos]
  rcases recvLoop_cases hlen rounds (recvInv_start calls data hpos) with
    ⟨s, hs, -, hno⟩ | ⟨j, hj, s, ret, hs, hend⟩
  · rw [hs]
    refine iff_of_false (by simp) ?_
    rintro ⟨i, hi, hstops⟩
    exact hno i hi (by rwa [Nat.zero_add])
  · rw [hs]
    exact iff_of_true rfl ⟨j, hj, by simpa using hend.stops⟩

theorem socketRecv_inside (hlen : len < a.size) (hpos : 0 < len) (rounds : Nat) :
    ∀ w ∈ (socketRecv calls data len rounds).1.writes, w.1 + w.2 ≤ len := by
  rw [socketRecv_eq hpos]
  rcases recvLoop_cases hlen rounds (recvInv_start calls data hpos) with
    ⟨s, hs, hinv, -⟩ | ⟨j, -, s, ret, hs, hend⟩
  · rw [hs]
    exact hinv.inside
  · rw [hs]
    exact hend.inside

/-- What is received with a length that an `ssize_t` can count is all there. -/
theorem socketRecv_of_lt (hsmall : len < a.ssizeBound) (hpos : 0 < len) {rounds : Nat}
    (htrue : (socketRecv calls data len rounds).2 = some true) :
    len ≤ (incoming calls rounds).length ∧
      peek (socketRecv calls data len rounds).1.data 0 len = (incoming calls rounds).take len := by
  have hlen : len < a.size := by
    have hsize := two_mul_ssizeBound a
    omega
  rw [socketRecv_eq hpos] at htrue ⊢
  rcases recvLoop_cases hlen rounds (recvInv_start calls data hpos) with
    ⟨s, hs, -, -⟩ | ⟨j, hj, s, ret, hs, hend⟩
  · rw [hs] at htrue
    cases htrue
  · rw [hs] at htrue ⊢
    obtain ⟨hdata, hreached, -⟩ := hend.received (Option.some.inj htrue)
    rw [Nat.zero_add] at hdata hreached
    rw [ssize_of_lt hsmall] at hreached
    have hfull : len ≤ (incoming calls (j + 1)).length := by omega
    obtain ⟨rest, hrest⟩ : incoming calls (j + 1) <+: incoming calls rounds :=
      incoming_prefix (Nat.succ_le_of_lt hj)
    have htake : (incoming calls rounds).take len = (incoming calls (j + 1)).take len := by
      rw [← hrest, List.take_append_of_le_length hfull]
    refine ⟨hfull.trans ?_, ?_⟩
    · rw [← hrest, List.length_append]
      exact Nat.le_add_right _ _
    · have hlength : ((incoming calls (j + 1)).take len).length = len := by
        rw [List.length_take, min_eq_left hfull]
      rw [htake]
      show peek s.data 0 len = _
      have hpeek : peek (poke data 0 ((incoming calls (j + 1)).take len)) 0
          ((incoming calls (j + 1)).take len).length = (incoming calls (j + 1)).take len :=
        peek_poke_self
      rwa [hlength, ← hdata] at hpeek

/-- With a length that an `ssize_t` cannot count the first call ends the loop, and any bytes it has
brought are taken for all of them. -/
theorem socketRecv_of_ge (hbig : a.ssizeBound ≤ len) (hlen : len < a.size) {rounds : Nat} :
    (socketRecv calls data len (rounds + 1)).2 = some (decide ((calls 0).content ≠ [])) := by
  have hpos : 0 < len := lt_of_lt_of_le (Nat.two_pow_pos _) hbig
  have hneg := ssize_neg hbig hlen
  rw [socketRecv_eq hpos, recvLoop]
  rcases recvRound_cases hlen (recvInv_start calls data hpos) with
    ⟨s, -, -, hgo⟩ | ⟨s, ret, hs, hend⟩
  · exact absurd (.inr (.inr (by omega))) hgo
  · rw [hs]
    show some ret = _
    congr 1
    cases ret with
    | true =>
      obtain ⟨-, -, hne⟩ := hend.received rfl
      rw [incoming_succ, incoming_zero, List.nil_append] at hne
      exact (decide_eq_true hne).symm
    | false => exact (decide_eq_false (not_not.mpr (hend.refused rfl))).symm

end Loop

/-- The condition for transfers that are all or nothing: `send` takes all the bytes or none, an
`ssize_t` can count them or the first `recv` brings nothing, and if the peer closes the connection
some call of `recv` ends the loop. -/
structure TransfersWhole (send : SendCall a) (calls : Nat → RecvCall a) (len : Nat) : Prop where
  sent : ∀ c ∈ send.count, c = 0 ∨ len ≤ c
  counted : len < a.ssizeBound ∨ (calls 0).content = []
  stops : PeerCloses calls → ∃ i, StopsAt calls len i

section Results

variable {send : SendCall a} {calls : Nat → RecvCall a} {data : Nat → UInt8} {len : Nat}

/-- `send` takes a part of the bytes, and `socket_send` reports all of them as sent. -/
theorem socketSend_iff (data : Nat → UInt8) (hpos : 0 < len) :
    ((socketSend send data len).1 = true → (socketSend send data len).2 = peek data 0 len) ↔
      ∀ c ∈ send.count, c = 0 ∨ len ≤ c := by
  unfold socketSend
  rw [if_pos hpos]
  unfold SendCall.send
  cases send.count with
  | none => simp
  | some c =>
    simp only [Option.mem_def, Option.some.injEq, forall_eq']
    constructor
    · intro h
      by_contra hpart
      have hmin : min c len = c := min_eq_left (by omega)
      rw [hmin, if_neg (by omega), if_neg (by omega)] at h
      have hlength := congrArg List.length (h rfl)
      simp only [Int.toNat_natCast, length_peek] at hlength
      omega
    · rintro (rfl | hle)
      · simp
      · rw [min_eq_right hle]
        split_ifs <;> simp

theorem sendsAllOrNothing_iff (hpos : 0 < len) (hlen : len < a.size) :
    SendsAllOrNothing send calls len ↔ TransfersWhole send calls len := by
  constructor
  · intro h
    refine ⟨(socketSend_iff (fun _ => 0) hpos).mp (h.sends _), ?_, fun hclose => ?_⟩
    · by_contra hnot
      obtain ⟨hbig, hne⟩ := not_or.mp hnot
      have htrue : (socketRecv calls (fun _ => 0) len 1).2 = some true := by
        rw [socketRecv_of_ge (Nat.not_lt.mp hbig) hlen, decide_eq_true hne]
      have hle := (h.receives _ 1 htrue).1
      rw [incoming_succ, incoming_zero, List.nil_append] at hle
      have hcontent := (calls 0).length_content_lt
      omega
    · obtain ⟨rounds, hrounds⟩ := h.ends hclose
      obtain ⟨i, -, hi⟩ := (socketRecv_isSome_iff hlen hpos rounds).mp (hrounds fun _ => 0)
      exact ⟨i, hi⟩
  · intro h
    refine ⟨fun data => (socketSend_iff data hpos).mpr h.sent, fun data rounds htrue => ?_,
      fun data rounds => socketRecv_inside hlen hpos rounds, fun hclose => ?_⟩
    · by_cases hsmall : len < a.ssizeBound
      · exact socketRecv_of_lt hsmall hpos htrue
      · have hnil := h.counted.resolve_left hsmall
        cases rounds with
        | zero =>
          rw [socketRecv_eq hpos] at htrue
          cases htrue
        | succ rounds =>
          rw [socketRecv_of_ge (Nat.not_lt.mp hsmall) hlen, hnil] at htrue
          cases htrue
    · obtain ⟨i, hi⟩ := h.stops hclose
      exact ⟨i + 1, fun data =>
        (socketRecv_isSome_iff hlen hpos (i + 1)).mpr ⟨i, Nat.lt_succ_self i, hi⟩⟩

/-- A transfer of two bytes, each of which comes with a call of its own. -/
theorem sendsAllOrNothing_two :
    SendsAllOrNothing (a := .arch64) ⟨some 2, by decide⟩
      (fun i => ⟨some [UInt8.ofNat i], by simp [Arch.ssizeBound, Arch.bits], 0⟩) 2 := by
  refine (sendsAllOrNothing_iff (by decide) (by decide)).mpr ⟨by simp, .inl (by decide), fun _ => ?_⟩
  exact ⟨1, .inr (.inr (by decide))⟩

/-- `send` takes one byte of two, and the peer has closed the connection and `errno` is `0`. -/
theorem not_sendsAllOrNothing_partial :
    ¬SendsAllOrNothing (a := .arch64) ⟨some 1, by decide⟩ (fun _ => ⟨some [], by decide, 0⟩) 2 := by
  intro h
  have hsent := h.sends (fun _ => 0) rfl
  exact absurd hsent (by decide)

/-- The loop of that `socket_recv` never ends. -/
theorem socketRecv_forever (rounds : Nat) :
    (socketRecv (a := .arch64) (fun _ => ⟨some [], by decide, 0⟩) data 2 rounds).2 = none := by
  rw [← Option.not_isSome_iff_eq_none, socketRecv_isSome_iff (by decide) (by decide)]
  rintro ⟨i, -, hfail | ⟨-, herr⟩ | hreached⟩
  · cases hfail
  · exact herr rfl
  · rw [show incoming _ (i + 1) = [] from List.flatMap_eq_nil_iff.mpr fun _ _ => rfl] at hreached
    exact absurd hreached (by decide)

end Results

end BsdSocket

end DVP.Sosal
