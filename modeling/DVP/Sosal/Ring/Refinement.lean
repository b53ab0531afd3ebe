import DVP.Lib.Circular
import DVP.Lib.Run
import DVP.Sosal.Ring.Basic

/-!
# The ring buffer is a bounded FIFO

`RingAt start total f rb q` says that the ring `rb` over the buffer `[start, start + total)`
holds the bytes `q`, oldest first, the oldest of them at offset `f`. Reads and writes keep it
and act on `q` as `fifoStep` does, so every run of a ring answers as the bounded FIFO
(`ring_refines_fifo`).
-/

namespace DVP.Sosal

/-- The operations of a ring. -/
inductive RingOp where
  /-- `ring_write` of these bytes. -/
  | write (b : List UInt8)
  /-- `ring_read` of up to `len` bytes. -/
  | read (len : Nat)
  deriving DecidableEq, Repr

/-- A write is of at least one byte; a read may ask for any number. -/
def RingOp.Valid : RingOp → Prop
  | .write b => 1 ≤ b.length
  | .read _ => True

/-- What a ring call gives its caller: the number it returns, and the bytes it placed in the
caller's buffer. -/
structure RingAnswer where
  ret : Nat
  bytes : List UInt8
  deriving DecidableEq, Repr

/-- One call on a ring. -/
def ringStep (a : Arch) (rb : Ring) : RingOp → Except Fault (Ring × RingAnswer)
  | .write b => do
    let (n, rb) ← ringWrite a rb b
    return (rb, ⟨n, []⟩)
  | .read len => do
    let (bs, rb) ← ringRead a rb len
    return (rb, ⟨bs.length, bs⟩)

/-- A FIFO of at most `total` bytes: a write that fits is appended, one that does not is
refused, and a read removes the oldest bytes. -/
def fifoStep (total : Nat) (q : List UInt8) : RingOp → List UInt8 × RingAnswer
  | .write b => if b.length ≤ total - q.length then (q ++ b, ⟨b.length, []⟩) else (q, ⟨0, []⟩)
  | .read len => (q.drop len, ⟨min len q.length, q.take len⟩)

/-- The buffer, the counters and the bytes of a ring that holds `q` from offset `f` on. -/
structure RingHolds (start total f : Nat) (rb : Ring) (q : List UInt8) : Prop where
  mem_length : rb.mem.length = total
  total_eq : rb.totalNumBytes = total
  start_eq : rb.start = start
  end_eq : rb.endPtr = start + total
  used_eq : rb.numBytesUsed = q.length
  free_eq : rb.numBytesFree = total - q.length
  le_total : q.length ≤ total
  contents : rb.mem.circular f q.length = q

/-- The ring holds `q` from `front` on, and `back` lies behind it. -/
structure RingAt (start total f : Nat) (rb : Ring) (q : List UInt8) : Prop
    extends RingHolds start total f rb q where
  offset_lt : f < total
  front_eq : rb.front = start + f
  back_eq : rb.back = start + (f + q.length) % total

variable {a : Arch} {start total f : Nat} {rb : Ring} {q : List UInt8}

/-- A created ring is empty. -/
theorem ringAt_create (htotal : 1 ≤ total) (h : ringCreate total (some start) = some rb) :
    RingAt start total 0 rb [] := by
  cases h
  exact
    { mem_length := List.length_replicate
      total_eq := rfl
      start_eq := rfl
      end_eq := rfl
      used_eq := rfl
      free_eq := rfl
      le_total := Nat.zero_le _
      contents := List.circular_zero _ _
      offset_lt := htotal
      front_eq := rfl
      back_eq := by simp }

/-- An offset at most one turn ahead wraps at most once. -/
private theorem offset_mod {t u : Nat} (hf : f < t) (hu : u ≤ t) :
    (f + u) % t = if f + u < t then f + u else f + u - t := by
  split_ifs with h
  · exact Nat.mod_eq_of_lt h
  · rw [Nat.mod_eq_sub_mod (by omega), Nat.mod_eq_of_lt (by omega)]

/-- Appending moves the offset behind the contents by as many bytes. -/
private theorem offset_append {t : Nat} (q b : List UInt8) :
    (f + (q ++ b).length) % t = ((f + q.length) % t + b.length) % t := by
  rw [List.length_append, ← Nat.add_assoc, Nat.mod_add_mod]

/-- The pointers are not part of what the ring holds. -/
theorem RingHolds.setPointers (h : RingHolds start total f rb q) (x y : Nat) :
    RingHolds start total f { rb with front := x, back := y } q :=
  ⟨h.mem_length, h.total_eq, h.start_eq, h.end_eq, h.used_eq, h.free_eq, h.le_total, h.contents⟩

/-- Bytes that fit between `back` and the end of the buffer are appended. -/
theorem ringPut_spec (hsize : total < a.size) (h : RingHolds start total f rb q)
    (hback : rb.back = start + (f + q.length) % total) (bs : List UInt8)
    (hend : (f + q.length) % total + bs.length ≤ total) (hroom : q.length + bs.length ≤ total) :
    ∃ rb', ringPut a rb bs = .ok rb' ∧ RingHolds start total f rb' (q ++ bs) ∧
      rb'.front = rb.front ∧ rb'.back = rb.back + bs.length := by
  have hoff : rb.back - rb.start = (f + q.length) % rb.mem.length := by
    rw [hback, h.start_eq, h.mem_length, Nat.add_sub_cancel_left]
  have hin : rb.start ≤ rb.back ∧ rb.back + bs.length ≤ rb.start + rb.mem.length := by
    rw [hback, h.start_eq, h.mem_length]
    omega
  have hfit : rb.back - rb.start + bs.length ≤ rb.mem.length := by omega
  refine ⟨{ rb with
    mem := rb.mem.overwrite (rb.back - rb.start) bs
    back := rb.back + bs.length
    numBytesFree := a.sub rb.numBytesFree bs.length
    numBytesUsed := a.add rb.numBytesUsed bs.length }, ?_, ?_, rfl, rfl⟩
  · simp only [ringPut, Ring.store, if_pos hin]
    rfl
  exact
    { mem_length := (List.length_overwrite hfit).trans h.mem_length
      total_eq := h.total_eq
      start_eq := h.start_eq
      end_eq := h.end_eq
      used_eq := by
        rw [List.length_append, h.used_eq]
        exact Arch.add_of_lt (by omega)
      free_eq := by
        show a.sub rb.numBytesFree bs.length = _
        rw [List.length_append, h.free_eq, Arch.sub_of_le (by omega) (by omega)]
        omega
      le_total := by
        rw [List.length_append]
        exact hroom
      contents := by
        have hput := List.circular_overwrite hoff hfit (by rw [h.mem_length]; exact hroom)
        rw [List.length_append, hput, h.contents] }

/-- Bytes that lie between `front` and the end of the buffer are removed. -/
theorem ringTake_spec (hsize : total < a.size) (h : RingHolds start total f rb q)
    (hfront : rb.front = start + f) {n : Nat} (hend : f + n ≤ total) (hn : n ≤ q.length) :
    ∃ rb', ringTake a rb n = .ok (q.take n, rb') ∧
      RingHolds start total ((f + n) % total) rb' (q.drop n) ∧
      rb'.front = rb.front + n ∧ rb'.back = rb.back := by
  have hle := h.le_total
  have hin : rb.start ≤ rb.front ∧ rb.front + n ≤ rb.start + rb.mem.length := by
    rw [hfront, h.start_eq, h.mem_length]
    omega
  have hoff : rb.front - rb.start = f := by
    rw [hfront, h.start_eq, Nat.add_sub_cancel_left]
  have hfn : f + n ≤ rb.mem.length := by
    rw [h.mem_length]
    exact hend
  -- what is taken is the first part of the contents, which go round
  have hsplit : rb.mem.segment f n ++ rb.mem.circular ((f + n) % total) (q.length - n) = q := by
    rw [← h.mem_length, ← List.circular_eq_segment_append hfn hn (by rw [h.mem_length]; exact hle)]
    exact h.contents
  have hlen : (rb.mem.segment f n).length = n := List.length_segment hfn
  have htake : q.take n = rb.mem.segment f n := by
    rw [← hsplit, List.take_left' hlen]
  have hdrop : q.drop n = rb.mem.circular ((f + n) % total) (q.length - n) := by
    conv_lhs => rw [← hsplit]
    rw [List.drop_left' hlen]
  refine ⟨{ rb with
    front := rb.front + n
    numBytesFree := a.add rb.numBytesFree n
    numBytesUsed := a.sub rb.numBytesUsed n }, ?_, ?_, rfl, rfl⟩
  · simp only [ringTake, Ring.load, if_pos hin, hoff, htake]
    rfl
  · exact
      { mem_length := h.mem_length
        total_eq := h.total_eq
        start_eq := h.start_eq
        end_eq := h.end_eq
        used_eq := by
          rw [List.length_drop, h.used_eq]
          exact Arch.sub_of_le hn (by omega)
        free_eq := by
          show a.add rb.numBytesFree n = _
          rw [List.length_drop, h.free_eq, Arch.add_of_lt (by omega)]
          omega
        le_total := by
          rw [List.length_drop]
          omega
        contents := by
          rw [List.length_drop]
          exact hdrop.symm }

/-- A write that reaches the end of the buffer goes on at its start. -/
theorem ringPutWrapped_spec (hsize : total < a.size) (h : RingAt start total f rb q)
    {b : List UInt8} (hreach : rb.endPtr - rb.back ≤ b.length)
    (hroom : q.length + b.length ≤ total) :
    ∃ rb', ringPutWrapped a rb b (rb.endPtr - rb.back) = .ok rb' ∧
      RingAt start total f rb' (q ++ b) := by
  have hf := h.offset_lt
  have hmod := offset_mod hf h.le_total
  have hp : (f + q.length) % total < total := Nat.mod_lt _ (by omega)
  obtain ⟨e, he⟩ : ∃ e, e = rb.endPtr - rb.back := ⟨_, rfl⟩
  have hpe : (f + q.length) % total + e = total := by
    rw [he, h.end_eq, h.back_eq]
    omega
  have htake : (b.take e).length = e := by
    rw [List.length_take]
    omega
  -- first what fits up to the end of the buffer
  obtain ⟨rb₁, hput₁, hold₁, hfront₁, hback₁⟩ := ringPut_spec hsize h.toRingHolds h.back_eq
    (b.take e) (by omega) (by omega)
  have hwrap : (f + (q ++ b.take e).length) % total = 0 := by
    rw [offset_append, htake, hpe, Nat.mod_self]
  have hback : rb₁.start = start + (f + (q ++ b.take e).length) % total := by
    rw [hwrap, hold₁.start_eq, Nat.add_zero]
  have hold := hold₁.setPointers rb₁.front rb₁.start
  rw [← he, ringPutWrapped, hput₁]
  -- then the rest at its start, if there is any
  by_cases hleft : b.length - e > 0
  · obtain ⟨rb₂, hput₂, hold₂, hfront₂, hback₂⟩ := ringPut_spec hsize hold hback
      (b.drop e) (by rw [hwrap, List.length_drop]; omega)
      (by rw [List.length_append, htake, List.length_drop]; omega)
    refine ⟨rb₂, by simpa [hleft] using hput₂, ?_⟩
    rw [List.append_assoc, List.take_append_drop] at hold₂
    refine ⟨hold₂, hf, hfront₂.trans (hfront₁.trans h.front_eq), ?_⟩
    have hlen : (f + (q ++ b).length) % total = b.length - e := by
      rw [← List.take_append_drop e b, ← List.append_assoc, offset_append, hwrap, Nat.zero_add,
        List.length_drop, List.take_append_drop, Nat.mod_eq_of_lt (by omega)]
    rw [hback₂, hlen, List.length_drop, hold₁.start_eq]
  · have hall : b.take e = b := List.take_of_length_le (by omega)
    rw [hall] at hold hback hwrap
    refine ⟨_, by simp [hleft], hold, hf, hfront₁.trans h.front_eq, ?_⟩
    rw [hwrap]
    exact hold₁.start_eq

/-- A write that ends before the end of the buffer does not move the other pointer. -/
theorem ringPut_at (hsize : total < a.size) (h : RingAt start total f rb q) {b : List UInt8}
    (hend : rb.back + b.length < rb.endPtr) (hroom : q.length + b.length ≤ total) :
    ∃ rb', ringPut a rb b = .ok rb' ∧ RingAt start total f rb' (q ++ b) := by
  rw [h.back_eq, h.end_eq] at hend
  obtain ⟨rb', hput, hold, hfront, hback⟩ := ringPut_spec hsize h.toRingHolds h.back_eq
    b (by omega) hroom
  refine ⟨rb', hput, hold, h.offset_lt, hfront.trans h.front_eq, ?_⟩
  rw [hback, h.back_eq, offset_append,
    Nat.mod_eq_of_lt (show (f + q.length) % total + b.length < total by omega), Nat.add_assoc]

/-- `ring_write` appends all its bytes when they fit, and changes nothing otherwise. -/
theorem ringWrite_spec (hsize : total < a.size) (h : RingAt start total f rb q)
    {b : List UInt8} (hb : 1 ≤ b.length) :
    if b.length ≤ total - q.length then
      ∃ rb', ringWrite a rb b = .ok (b.length, rb') ∧ RingAt start total f rb' (q ++ b)
    else ringWrite a rb b = .ok (0, rb) := by
  have hf := h.offset_lt
  have hle := h.le_total
  have hmod := offset_mod hf hle
  have hp : (f + q.length) % total < total := Nat.mod_lt _ (by omega)
  have hback := h.back_eq
  have hfront := h.front_eq
  have hfree := h.free_eq
  have hend := h.end_eq
  split_ifs with hroom
  swap
  · rw [ringWrite, if_pos (by omega)]
  rw [ringWrite, if_neg (by omega)]
  by_cases hone : b.length = 1
  · -- one byte: `back` may come to rest at the end, and is then set to the start
    obtain ⟨rb', hput, hold, hfront', hback'⟩ := ringPut_spec hsize h.toRingHolds h.back_eq
      b (by omega) (by omega)
    refine ⟨{ rb' with back := if rb'.back = rb'.endPtr then rb'.start else rb'.back }, ?_,
      hold.setPointers _ _, hf, hfront'.trans hfront, ?_⟩
    · simp [hone, hput]
    · show (if rb'.back = rb'.endPtr then rb'.start else rb'.back) = _
      rw [hold.end_eq, hold.start_eq, hback', hback, offset_append, hone,
        offset_mod hp (by omega)]
      split_ifs <;> omega
  rw [if_neg hone]
  by_cases hnoninv : rb.back > rb.front
  · rw [if_pos hnoninv]
    by_cases hlt : rb.endPtr - rb.back > b.length
    · obtain ⟨rb', hput, hat⟩ := ringPut_at hsize h (b := b) (by omega) (by omega)
      exact ⟨rb', by simp [hlt, hput], hat⟩
    · obtain ⟨rb', hput, hat⟩ := ringPutWrapped_spec hsize h (b := b) (by omega) (by omega)
      exact ⟨rb', by simp [hlt, hput], hat⟩
  rw [if_neg hnoninv]
  by_cases hinv : rb.front > rb.back
  · -- the free bytes are those between `back` and `front`
    have hgap : b.length ≤ rb.front - rb.back := by
      split_ifs at hmod <;> omega
    obtain ⟨rb', hput, hat⟩ := ringPut_at hsize h (b := b) (by omega) (by omega)
    exact ⟨rb', by simp [hinv, hgap, hput], hat⟩
  rw [if_neg hinv, if_neg (by omega)]
  -- equal pointers and room for a byte: the ring is empty
  have hempty : rb.numBytesUsed = 0 := by
    rw [h.used_eq]
    split_ifs at hmod <;> omega
  rw [if_pos hempty, if_neg (by rw [h.total_eq]; omega)]
  by_cases hlt : b.length < rb.endPtr - rb.back
  · obtain ⟨rb', hput, hat⟩ := ringPut_at hsize h (b := b) (by omega) (by omega)
    exact ⟨rb', by simp [hlt, hput], hat⟩
  · obtain ⟨rb', hput, hat⟩ := ringPutWrapped_spec hsize h (b := b) (by omega) (by omega)
    exact ⟨rb', by simp [hlt, hput], hat⟩

/-- Moving `front` over removed bytes leaves the offset behind the contents where it is. -/
private theorem offset_drop {t n : Nat} (hn : n ≤ q.length) :
    ((f + n) % t + (q.drop n).length) % t = (f + q.length) % t := by
  rw [List.length_drop, Nat.mod_add_mod]
  congr 1
  omega

/-- A read that stays short of the end of the buffer. -/
theorem ringTake_at (hsize : total < a.size) (h : RingAt start total f rb q) {n : Nat}
    (hend : f + n < total) (hn : n ≤ q.length) :
    ∃ rb', ringTake a rb n = .ok (q.take n, rb') ∧
      RingAt start total (f + n) rb' (q.drop n) := by
  obtain ⟨rb', htake, hold, hfront, hback⟩ :=
    ringTake_spec hsize h.toRingHolds h.front_eq (n := n) (by omega) hn
  have hoff : (f + n) % total = f + n := Nat.mod_eq_of_lt hend
  have hdrop := offset_drop (f := f) (t := total) hn
  rw [hoff] at hold hdrop
  refine ⟨rb', htake, hold, hend, ?_, ?_⟩
  · rw [hfront, h.front_eq, Nat.add_assoc]
  · rw [hback, h.back_eq, hdrop]

/-- A read that reaches the end of the buffer goes on at its start. -/
theorem ringTakeWrapped_spec (hsize : total < a.size) (h : RingAt start total f rb q)
    {len : Nat} (hreach : rb.endPtr - rb.front ≤ len) (hwrap : total ≤ f + q.length) :
    ∃ rb' f', ringTakeWrapped a rb len (rb.endPtr - rb.front) = .ok (q.take len, rb') ∧
      RingAt start total f' rb' (q.drop len) := by
  have hf := h.offset_lt
  have hle := h.le_total
  have hp : (f + q.length) % total = f + q.length - total := by
    rw [Nat.mod_eq_sub_mod hwrap, Nat.mod_eq_of_lt (by omega)]
  obtain ⟨e, he⟩ : ∃ e, e = rb.endPtr - rb.front := ⟨_, rfl⟩
  have hfe : f + e = total := by
    rw [he, h.end_eq, h.front_eq]
    omega
  obtain ⟨rb₁, htake₁, hold₁, hfront₁, hback₁⟩ :=
    ringTake_spec hsize h.toRingHolds h.front_eq (n := e) (by omega) (by omega)
  rw [hfe, Nat.mod_self] at hold₁
  have hlen₁ : (q.drop e).length = q.length - e := List.length_drop
  have hstart₁ : rb₁.start = start + 0 := hold₁.start_eq
  have hbackoff : rb₁.back - rb₁.start = q.length - e := by
    rw [hback₁, h.back_eq, hold₁.start_eq, hp]
    omega
  have hback₁' : rb₁.back = start + (q.length - e) := by
    rw [hback₁, h.back_eq, hp]
    omega
  -- what is read from the start on, and how much of `q` that makes in all
  obtain ⟨m, hm⟩ : ∃ m, m = if len - e ≤ q.length - e then len - e else q.length - e := ⟨_, rfl⟩
  have hme : m ≤ q.length - e := by
    rw [hm]
    split_ifs <;> omega
  have htakeall : q.take (e + m) = q.take len := by
    rw [hm]
    split_ifs with hcase
    · congr 1
      omega
    · rw [List.take_of_length_le (by omega), List.take_of_length_le (by omega)]
  have hdropall : q.drop (e + m) = q.drop len := by
    rw [hm]
    split_ifs with hcase
    · congr 1
      omega
    · rw [List.drop_of_length_le (by omega), List.drop_of_length_le (by omega)]
  have hold := hold₁.setPointers rb₁.start rb₁.back
  rw [← he, ringTakeWrapped, htake₁, ← htakeall, ← hdropall]
  by_cases hm0 : m = 0
  · subst hm0
    refine ⟨_, 0, ?_, hold, by omega, hstart₁, ?_⟩
    · by_cases hleft : len - e > 0
      · simp only [ok_bind, if_pos hleft, hbackoff, ← hm, gt_iff_lt, lt_irrefl, if_false]
        rfl
      · simp [hleft]
    · show rb₁.back = _
      rw [hback₁', Nat.add_zero, hlen₁, Nat.zero_add, Nat.mod_eq_of_lt (by omega)]
  · have hleft : len - e > 0 := by
      by_contra hnot
      rw [if_pos (by omega)] at hm
      omega
    obtain ⟨rb₂, htake₂, hold₂, hfront₂, hback₂⟩ :=
      ringTake_spec hsize hold hstart₁ (n := m) (by omega) (by omega)
    rw [Nat.zero_add, Nat.mod_eq_of_lt (by omega), List.drop_drop] at hold₂
    refine ⟨rb₂, m, ?_, hold₂, by omega, ?_, ?_⟩
    · have hpos : m > 0 := by omega
      rw [List.take_add]
      simp only [ok_bind, if_pos hleft, hbackoff, ← hm, if_pos hpos, htake₂, pure_eq_ok]
    · rw [hfront₂]
      show rb₁.start + m = start + m
      rw [hold₁.start_eq]
    · rw [hback₂]
      show rb₁.back = _
      rw [hback₁', List.length_drop, Nat.mod_eq_of_lt (by omega)]
      omega

/-- `ring_read` removes and returns the oldest bytes. -/
theorem ringRead_spec (hsize : total < a.size) (h : RingAt start total f rb q) (len : Nat) :
    ∃ rb' f', ringRead a rb len = .ok (q.take len, rb') ∧
      RingAt start total f' rb' (q.drop len) := by
  have hf := h.offset_lt
  have hle := h.le_total
  have hmod := offset_mod hf hle
  have hback := h.back_eq
  have hfront := h.front_eq
  have hend := h.end_eq
  rw [ringRead]
  by_cases hempty : rb.numBytesUsed = 0
  · have hq : q = [] := List.length_eq_zero_iff.mp (h.used_eq ▸ hempty)
    subst hq
    exact ⟨rb, f, by simp [hempty], by simpa using h⟩
  have hused : q.length ≠ 0 := h.used_eq ▸ hempty
  rw [if_neg hempty]
  by_cases hone : len = 1
  · -- one byte: `front` may come to rest at the end, and is then set to the start
    subst hone
    obtain ⟨rb', htake, hold, hfront', hback'⟩ :=
      ringTake_spec hsize h.toRingHolds hfront (n := 1) (by omega) (by omega)
    have hdrop := offset_drop (f := f) (t := total) (q := q) (n := 1) (by omega)
    refine ⟨{ rb' with front := if rb'.front = rb'.endPtr then rb'.start else rb'.front },
      (f + 1) % total, by simp [htake], hold.setPointers _ _, Nat.mod_lt _ (by omega), ?_, ?_⟩
    · show (if rb'.front = rb'.endPtr then rb'.start else rb'.front) = _
      rw [hold.end_eq, hold.start_eq, hfront', hfront, offset_mod hf (by omega)]
      split_ifs <;> omega
    · show rb'.back = _
      rw [hback', hback, hdrop]
  rw [if_neg hone]
  by_cases hnoninv : rb.back > rb.front
  · have hgap : rb.back - rb.front = q.length := by
      split_ifs at hmod <;> omega
    rw [if_pos hnoninv, hgap]
    by_cases hlt : len < q.length
    · obtain ⟨rb', htake, hat⟩ := ringTake_at hsize h (n := len)
        (by split_ifs at hmod <;> omega) (by omega)
      exact ⟨rb', f + len, by simp [hlt, htake], hat⟩
    · obtain ⟨rb', htake, hat⟩ := ringTake_at hsize h (n := q.length)
        (by split_ifs at hmod <;> omega) le_rfl
      rw [List.take_length, List.drop_length] at *
      refine ⟨rb', f + q.length, ?_, ?_⟩
      · simp [hlt, htake, List.take_of_length_le (Nat.le_of_not_lt hlt)]
      · rwa [List.drop_of_length_le (Nat.le_of_not_lt hlt)]
  rw [if_neg hnoninv]
  -- wrapped or full: the contents reach the end of the buffer
  have hwrap : total ≤ f + q.length := by
    split_ifs at hmod <;> omega
  have hread : ∃ rb' f', (if len < rb.endPtr - rb.front then ringTake a rb len
      else ringTakeWrapped a rb len (rb.endPtr - rb.front)) = .ok (q.take len, rb') ∧
        RingAt start total f' rb' (q.drop len) := by
    split_ifs with hlt
    · obtain ⟨rb', htake, hat⟩ := ringTake_at hsize h (n := len) (by omega) (by omega)
      exact ⟨rb', f + len, htake, hat⟩
    · exact ringTakeWrapped_spec hsize h (by omega) hwrap
  by_cases hinv : rb.front > rb.back
  · rwa [if_pos hinv]
  · have hfull : rb.numBytesFree = 0 := by
      rw [h.free_eq]
      split_ifs at hmod <;> omega
    rwa [if_neg hinv, if_pos hfull]

/-- One call on a ring acts as one call on the FIFO. -/
theorem ringStep_spec (hsize : total < a.size) (h : ∃ f, RingAt start total f rb q) (op : RingOp)
    (hop : op.Valid) :
    ∃ rb', ringStep a rb op = .ok (rb', (fifoStep total q op).2) ∧
      ∃ f, RingAt start total f rb' (fifoStep total q op).1 := by
  obtain ⟨f, h⟩ := h
  cases op with
  | write b =>
    have hwrite := ringWrite_spec hsize h hop
    by_cases hroom : b.length ≤ total - q.length
    · rw [if_pos hroom] at hwrite
      obtain ⟨rb', hwrite, hat⟩ := hwrite
      exact ⟨rb', by simp [ringStep, fifoStep, hroom, hwrite], f, by simpa [fifoStep, hroom]⟩
    · rw [if_neg hroom] at hwrite
      exact ⟨rb, by simp [ringStep, fifoStep, hroom, hwrite], f, by simpa [fifoStep, hroom]⟩
  | read len =>
    obtain ⟨rb', f', hread, hat⟩ := ringRead_spec hsize h len
    exact ⟨rb', by simp [ringStep, fifoStep, hread], f', hat⟩

/-- The ring holds `q`, wherever its buffer and its pointers are. A buffer of no bytes, which
`calloc` may return for a product that wrapped to zero, holds nothing. -/
def RingRep (total : Nat) (rb : Ring) (q : List UInt8) : Prop :=
  ∃ start, (∃ f, RingAt start total f rb q) ∨ total = 0 ∧ RingHolds start total 0 rb q

theorem ringRep_create (h : ringCreate total (some start) = some rb) : RingRep total rb [] := by
  rcases Nat.eq_zero_or_pos total with h0 | hpos
  · subst h0
    cases h
    exact ⟨start, .inr ⟨rfl, rfl, rfl, rfl, rfl, rfl, rfl, le_rfl, rfl⟩⟩
  · exact ⟨start, .inl ⟨0, ringAt_create hpos h⟩⟩

theorem RingRep.used_eq (h : RingRep total rb q) : rb.numBytesUsed = q.length := by
  obtain ⟨start, ⟨f, h⟩ | ⟨-, h⟩⟩ := h <;> exact h.used_eq

theorem RingRep.free_eq (h : RingRep total rb q) : rb.numBytesFree = total - q.length := by
  obtain ⟨start, ⟨f, h⟩ | ⟨-, h⟩⟩ := h <;> exact h.free_eq

theorem RingRep.le_total (h : RingRep total rb q) : q.length ≤ total := by
  obtain ⟨start, ⟨f, h⟩ | ⟨-, h⟩⟩ := h <;> exact h.le_total

theorem RingRep.write (hsize : total < a.size) (h : RingRep total rb q) {b : List UInt8}
    (hb : 1 ≤ b.length) :
    if b.length ≤ total - q.length then
      ∃ rb', ringWrite a rb b = .ok (b.length, rb') ∧ RingRep total rb' (q ++ b)
    else ringWrite a rb b = .ok (0, rb) := by
  obtain ⟨start, ⟨f, h⟩ | ⟨h0, h⟩⟩ := h
  · have hwrite := ringWrite_spec hsize h hb
    split_ifs at hwrite ⊢
    · obtain ⟨rb', hwrite, hat⟩ := hwrite
      exact ⟨rb', hwrite, start, .inl ⟨f, hat⟩⟩
    · exact hwrite
  · rw [if_neg (by omega), ringWrite, if_pos (by rw [h.free_eq]; omega)]

theorem RingRep.read (hsize : total < a.size) (h : RingRep total rb q) (len : Nat) :
    ∃ rb', ringRead a rb len = .ok (q.take len, rb') ∧ RingRep total rb' (q.drop len) := by
  obtain ⟨start, ⟨f, h⟩ | ⟨h0, h⟩⟩ := h
  · obtain ⟨rb', f', hread, hat⟩ := ringRead_spec hsize h len
    exact ⟨rb', hread, start, .inl ⟨f', hat⟩⟩
  · have hle := h.le_total
    have hq : q = [] := List.length_eq_zero_iff.mp (by omega)
    subst hq
    exact ⟨rb, by simp [ringRead, h.used_eq], start, .inr ⟨h0, by simpa using h⟩⟩

/-- What the counters and the pointers of a ring say about its contents `q`. -/
structure RingSound (start total : Nat) (rb : Ring) (q : List UInt8) : Prop where
  used_add_free : rb.numBytesUsed + rb.numBytesFree = rb.totalNumBytes
  total_eq : rb.totalNumBytes = total
  used_eq : rb.numBytesUsed = q.length
  start_eq : rb.start = start
  end_eq : rb.endPtr = start + total
  front_mem : rb.start ≤ rb.front ∧ rb.front < rb.endPtr
  back_mem : rb.start ≤ rb.back ∧ rb.back < rb.endPtr
  back_eq : rb.back = rb.start + (rb.front - rb.start + rb.numBytesUsed) % rb.totalNumBytes
  contents : rb.mem.circular (rb.front - rb.start) rb.numBytesUsed = q

theorem RingAt.sound (h : RingAt start total f rb q) : RingSound start total rb q := by
  have hf := h.offset_lt
  have hle := h.le_total
  have hp : (f + q.length) % total < total := Nat.mod_lt _ (by omega)
  have hback := h.back_eq
  have hoff : rb.front - rb.start = f := by
    rw [h.front_eq, h.start_eq, Nat.add_sub_cancel_left]
  exact
    { used_add_free := by
        rw [h.used_eq, h.free_eq, h.total_eq]
        omega
      total_eq := h.total_eq
      used_eq := h.used_eq
      start_eq := h.start_eq
      end_eq := h.end_eq
      front_mem := by
        rw [h.front_eq, h.start_eq, h.end_eq]
        omega
      back_mem := by
        rw [hback, h.start_eq, h.end_eq]
        omega
      back_eq := by rw [hoff, h.start_eq, h.used_eq, h.total_eq, hback]
      contents := by rw [hoff, h.used_eq, h.contents] }

/-- A ring of at least one byte refines the bounded FIFO: over every run of writes and reads it
faults nowhere and answers as the FIFO does, its counters and pointers stay sound for the
FIFO's contents, and a write of more bytes than are free changes nothing. -/
theorem ring_refines_fifo {rb₀ : Ring} (htotal : 1 ≤ total) (hsize : total < a.size)
    (hcreate : ringCreate total (some start) = some rb₀) {ops : List RingOp}
    (hops : ∀ op ∈ ops, op.Valid) :
    ∃ rb, Machine.run (ringStep a) rb₀ ops
        = .ok (rb, (Machine.specRun (fifoStep total) [] ops).2) ∧
      RingSound start total rb (Machine.specRun (fifoStep total) [] ops).1 ∧
      ∀ b : List UInt8, rb.numBytesFree < b.length → ringWrite a rb b = .ok (0, rb) := by
  have hvalid : Machine.Meets (ringStep a) (fun _ op => op.Valid) rb₀ ops :=
    Machine.meets_of_forall fun _ => hops
  have hrel : ∃ f, RingAt start total f rb₀ [] := ⟨0, ringAt_create htotal hcreate⟩
  have hstep : ∀ rb q (op : RingOp), (∃ f, RingAt start total f rb q) → op.Valid →
      ∃ rb', ringStep a rb op = .ok (rb', (fifoStep total q op).2) ∧
        ∃ f, RingAt start total f rb' (fifoStep total q op).1 :=
    fun rb q op h hop => ringStep_spec hsize h op hop
  obtain ⟨rb, hrun, f, hat⟩ := Machine.run_refines hstep hrel hvalid
  exact ⟨rb, hrun, hat.sound, fun b hb => by rw [ringWrite, if_pos hb]⟩

/-- A ring of three bytes: a write that ends at the end of the buffer, a read, a write that
wraps, one that does not fit, and a read of more than there is. -/
theorem ring_refines_fifo_three :
    ∃ rb, Machine.run (ringStep .arch32)
        ⟨[0, 0, 0], 3, 0, 3, 4096, 4099, 4096, 4096⟩
        [.write [1, 2, 3], .read 2, .write [4, 5], .write [6], .read 9]
        = .ok (rb, [⟨3, []⟩, ⟨2, [1, 2]⟩, ⟨2, []⟩, ⟨0, []⟩, ⟨3, [3, 4, 5]⟩]) ∧
      RingSound 4096 3 rb [] ∧
      ∀ b : List UInt8, rb.numBytesFree < b.length → ringWrite .arch32 rb b = .ok (0, rb) :=
  @ring_refines_fifo .arch32 4096 3 _ (by decide) (by decide) rfl
    [.write [1, 2, 3], .read 2, .write [4, 5], .write [6], .read 9] (by simp [RingOp.Valid])

end DVP.Sosal
