import DVP.ImgFilter.Tap
import DVP.Lib.Fir
import DVP.Lib.Grid
import DVP.Lib.Transfer
import DVP.Sosal.Histogram

/-!
# The filter with three taps

`__3chan_tap_filter_image_3x1_c` in `libraries/public/imgfilter/imgFilter.c`. Positions are
`uint32_t` and wrap, the column of a tap is an `int32_t`, and the accumulator is an `int32_t` whose
overflow is undefined. The buffers lie in one memory, of which some bytes may be read and some may be
written; any other access gives `none`.

* `threeChanTapFilter_spec`: each channel of a pixel is the output of a filter with three taps, and
  the first one is copied.
* `threeChanTapFilter_row`: the function is a kernel of rows.
-/

namespace DVP.ImgFilter

open DVP.Sosal (saddInt32)

/-- The arguments of `__3chan_tap_filter_image_3x1_c`. -/
structure TapArgs where
  pSrc : Nat
  width : BitVec 32
  height : BitVec 32
  pDst : Nat
  srcStride : BitVec 32
  dstStride : BitVec 32
  coeff : Fin 3 → BitVec 16

/-- Multiplication of two `int32_t`. -/
def smulInt32 (x y : BitVec 32) : Option (BitVec 32) :=
  if BitVec.smulOverflow x y then none else some (x * y)

section Access

variable (p : Nat → Prop) [DecidablePred p]

/-- Reads a byte. -/
def readByte (m : Buffer) (a : Nat) : Option UInt8 := if p a then some (m a) else none

/-- Writes a byte. -/
def writeByte (m : Buffer) (a : Nat) (v : UInt8) : Option Buffer :=
  if p a then some (Function.update m a v) else none

end Access

/-- The column `l` of a tap. -/
def tapColumn (width x : BitVec 32) (n : Fin 3) : BitVec 32 :=
  let k := BitVec.ofInt 32 (n - 1)
  let l := x + k
  if l.slt 0 then 0 else if width.sle l then width - 1 else l

/-- The end of the accumulation: `acc` is rounded and clamped. -/
def tapClamp (acc : BitVec 32) : UInt8 :=
  let acc := acc.sshiftRight 8
  let acc := if (255 : BitVec 32).slt acc then 255 else if acc.slt 0 then 0 else acc
  UInt8.ofBitVec (acc.setWidth 8)

section Kernel

variable (readable writable : Nat → Prop) [DecidablePred readable] [DecidablePred writable]
  (args : TapArgs)

/-- A round of the loop of the taps, with the accumulator and `i`. -/
def tapRound (m : Buffer) (y x c : BitVec 32) (s : BitVec 32 × BitVec 32) (n : Fin 3) :
    Option (BitVec 32 × BitVec 32) := do
  let l := tapColumn args.width x n
  -- this is the `i` of the pixel, which the copied channel has used by now
  let i := y * args.srcStride + l * 4
  let byte ← readByte readable m (args.pSrc + (i + c).toNat)
  let product ← smulInt32 ((byte.toBitVec.setWidth 16).setWidth 32) ((args.coeff n).signExtend 32)
  let acc ← saddInt32 s.1 product
  return (acc, i)

/-- A round of the loop of the channels, with the memory and `i`. -/
def tapChannel (y x : BitVec 32) (s : Buffer × BitVec 32) (c : Nat) :
    Option (Buffer × BitVec 32) := do
  let (m, i) := s
  let j := y * args.dstStride + x * 4
  if c = 0 then
    -- no tap has changed `i` yet
    let byte ← readByte readable m (args.pSrc + i.toNat)
    let m ← writeByte writable m (args.pDst + j.toNat) byte
    return (m, i)
  else
    let c := BitVec.ofNat 32 c
    let (acc, i) ← (List.finRange 3).foldlM (tapRound readable args m y x c) (128, i)
    let m ← writeByte writable m (args.pDst + (j + c).toNat) (tapClamp acc)
    return (m, i)

/-- A round of the loop of the pixels of a row. -/
def tapPixel (y : BitVec 32) (m : Buffer) (x : Nat) : Option Buffer := do
  let x := BitVec.ofNat 32 x
  let i := y * args.srcStride + x * 4
  let (m, _) ← (List.range 4).foldlM (tapChannel readable writable args y x) (m, i)
  return m

/-- `__3chan_tap_filter_image_3x1_c`. -/
def threeChanTapFilterImage3x1C (m : Buffer) : Option Buffer :=
  (List.range args.height.toNat).foldlM
    (fun m y =>
      (List.range args.width.toNat).foldlM
        (tapPixel readable writable args (BitVec.ofNat 32 y)) m) m

end Kernel

/-! ## The buffers -/

namespace TapArgs

variable (args : TapArgs)

/-- The byte `c` of a pixel of the source. -/
def src (y x c : Nat) : Nat := args.pSrc + (y * args.srcStride.toNat + x * 4 + c)

/-- The byte `c` of a pixel of the destination. -/
def dst (y x c : Nat) : Nat := args.pDst + (y * args.dstStride.toNat + x * 4 + c)

/-- The byte is one of the pixels of a row of the source. -/
def SourceByte (a : Nat) : Prop :=
  ∃ y < args.height.toNat, ∃ b < 4 * args.width.toNat,
    a = args.pSrc + (y * args.srcStride.toNat + b)

/-- The byte is one of the first `4 * width` bytes of a row of the destination. -/
def DestByte (a : Nat) : Prop :=
  ∃ y < args.height.toNat, ∃ b < 4 * args.width.toNat,
    a = args.pDst + (y * args.dstStride.toNat + b)

instance : DecidablePred args.SourceByte := fun a =>
  inferInstanceAs (Decidable (∃ y < _, ∃ b < _, a = _))

instance : DecidablePred args.DestByte := fun a =>
  inferInstanceAs (Decidable (∃ y < _, ∃ b < _, a = _))

/-- The strides are large enough, the indexes of the bytes do not wrap, and the buffers are apart. -/
structure Valid : Prop where
  width_lt : args.width.toNat < 2 ^ 31
  le_srcStride : 4 * args.width.toNat ≤ args.srcStride.toNat
  le_dstStride : 4 * args.width.toNat ≤ args.dstStride.toNat
  src_lt : ∀ y < args.height.toNat, ∀ b < 4 * args.width.toNat,
    y * args.srcStride.toNat + b < 2 ^ 32
  dst_lt : ∀ y < args.height.toNat, ∀ b < 4 * args.width.toNat,
    y * args.dstStride.toNat + b < 2 ^ 32
  apart : ∀ a, args.SourceByte a → ¬args.DestByte a

end TapArgs

/-! ## A tap -/

section Arithmetic

variable {x y width i l c : BitVec 32} {n : Fin 3}

/-- A sum that 32 bits hold is the sum. -/
theorem saddInt32_eq_some (h : |x.toInt + y.toInt| < 2 ^ 31) :
    ∃ z, saddInt32 x y = some z ∧ z.toInt = x.toInt + y.toInt := by
  have hrange := abs_lt.mp h
  have hover : ¬BitVec.saddOverflow x y = true := by
    simp only [BitVec.saddOverflow, Bool.or_eq_true, decide_eq_true_eq]
    omega
  exact ⟨x + y, if_neg hover, BitVec.toInt_add_of_not_saddOverflow hover⟩

/-- A product that 32 bits hold is the product. -/
theorem smulInt32_eq_some (h : |x.toInt * y.toInt| < 2 ^ 31) :
    ∃ z, smulInt32 x y = some z ∧ z.toInt = x.toInt * y.toInt := by
  have hrange := abs_lt.mp h
  have hover : ¬BitVec.smulOverflow x y = true := by
    simp only [BitVec.smulOverflow, Bool.or_eq_true, decide_eq_true_eq]
    omega
  exact ⟨x * y, if_neg hover, BitVec.toInt_mul_of_not_smulOverflow hover⟩

/-- The column of a tap is the one in the image that is next to it. -/
theorem toNat_tapColumn (hx : x.toNat < width.toNat) (hwidth : width.toNat < 2 ^ 31) :
    (tapColumn width x n).toNat = Fir.nearest width.toNat (x.toNat + n - 1) := by
  have hk : (BitVec.ofInt 32 ((n : Nat) - 1)).toInt = (n : Nat) - 1 := by
    revert n
    decide
  have hxint : x.toInt = x.toNat := DVP.Sosal.toInt_of_lt (by omega)
  have hwint : width.toInt = width.toNat := DVP.Sosal.toInt_of_lt hwidth
  have hl : (x + BitVec.ofInt 32 ((n : Nat) - 1)).toInt = x.toNat + n - 1 := by
    rw [BitVec.toInt_add, hk, hxint, Int.bmod_eq_of_le]
    · omega
    · omega
    · omega
  have hzero : (0 : BitVec 32).toInt = 0 := rfl
  have hpos : 0 < width.toNat := Nat.zero_lt_of_lt hx
  -- the tests of the code, on numbers with a sign
  simp only [tapColumn, BitVec.slt_iff_toInt_lt, BitVec.sle_iff_toInt_le, hl, hwint, hzero]
  by_cases hneg : (x.toNat : Int) + n - 1 < 0
  · rw [if_pos hneg, Fir.nearest_of_neg hpos hneg]
    rfl
  rw [if_neg hneg]
  by_cases hge : (width.toNat : Int) ≤ x.toNat + n - 1
  · rw [if_pos hge, Fir.nearest_of_ge hpos hge, BitVec.toNat_sub_of_le]
    · rfl
    · exact hpos
  · rw [if_neg hge, Fir.nearest_of_mem (by omega) (by omega), ← hl]
    have hcond := BitVec.toInt_eq_toNat_cond (x + BitVec.ofInt 32 ((n : Nat) - 1))
    omega

/-- An index that does not wrap. -/
theorem toNat_index (h : y.toNat * i.toNat + l.toNat * 4 + c.toNat < 2 ^ 32) :
    (y * i + l * 4 + c).toNat = y.toNat * i.toNat + l.toNat * 4 + c.toNat := by
  have hmul : (y * i).toNat = y.toNat * i.toNat := by
    rw [BitVec.toNat_mul]
    exact Nat.mod_eq_of_lt (by omega)
  have hpixel : (l * 4).toNat = l.toNat * 4 := by
    rw [BitVec.toNat_mul]
    exact Nat.mod_eq_of_lt (by simp; omega)
  rw [BitVec.toNat_add, BitVec.toNat_add, hmul, hpixel]
  omega

/-- The byte of an accumulator. -/
theorem tapClamp_eq (acc : BitVec 32) :
    tapClamp acc = UInt8.ofNat (Fir.saturate 0 255 (acc.toInt / 2 ^ 8)).toNat := by
  have hshift : (acc.sshiftRight 8).toInt = acc.toInt / 2 ^ 8 := by
    rw [BitVec.toInt_sshiftRight, Int.shiftRight_eq_div_pow]
    rfl
  rw [Fir.saturate_eq_ite (by decide), ← hshift]
  simp only [tapClamp, BitVec.slt_iff_toInt_lt]
  generalize acc.sshiftRight 8 = v
  have hzero : (0 : BitVec 32).toInt = 0 := rfl
  have hmax : (255 : BitVec 32).toInt = 255 := rfl
  rw [hzero, hmax]
  by_cases hhi : 255 < v.toInt
  · rw [if_pos hhi, if_pos hhi]
    rfl
  rw [if_neg hhi, if_neg hhi]
  by_cases hlo : v.toInt < 0
  · rw [if_pos hlo, if_pos hlo]
    rfl
  · rw [if_neg hlo, if_neg hlo]
    -- the number fits a byte, and the conversion keeps it
    have hcond := BitVec.toInt_eq_toNat_cond v
    apply UInt8.toNat_inj.mp
    rw [UInt8.toNat_ofBitVec, BitVec.toNat_setWidth, UInt8.toNat_ofNat']
    omega

end Arithmetic

/-! ## What is stored -/

namespace TapArgs

variable (args : TapArgs) (m : Buffer) (y x c : Nat)

/-- A row of a channel of the source, as a signal. -/
def signal (i : Nat) : Int := (m (args.src y i c)).toNat

/-- The output of the filter with three taps, the first of which reads the pixel before. -/
def filtered : Int :=
  Fir.output (fun k => (args.coeff k).toInt) 1 8 0 255 args.width.toNat (args.signal m y c) x

/-- The byte of the destination. -/
def value : UInt8 :=
  if c = 0 then m (args.src y x 0) else UInt8.ofNat (args.filtered m y x c).toNat

/-- The stores of a pixel. -/
def pixelStores : List (Nat × UInt8) :=
  (List.range 4).flatMap fun c => [(args.dst y x c, args.value m y x c)]

end TapArgs

section Rounds

variable {args : TapArgs} {m m' : Buffer} {y x c : Nat}

/-- A pixel of the source is in the source. -/
theorem sourceByte_src (hy : y < args.height.toNat) (hx : x < args.width.toNat) (hc : c < 4) :
    args.SourceByte (args.src y x c) := by
  refine ⟨y, hy, x * 4 + c, by omega, ?_⟩
  rw [TapArgs.src, Nat.add_assoc (y * _)]

/-- A pixel of the destination is in the destination. -/
theorem destByte_dst (hy : y < args.height.toNat) (hx : x < args.width.toNat) (hc : c < 4) :
    args.DestByte (args.dst y x c) := by
  refine ⟨y, hy, x * 4 + c, by omega, ?_⟩
  rw [TapArgs.dst, Nat.add_assoc (y * _)]

/-- A place in the image is a number of 32 bits. -/
theorem toNat_ofNat_of_lt {n : BitVec 32} (h : y < n.toNat) : (BitVec.ofNat 32 y).toNat = y := by
  rw [BitVec.toNat_ofNat]
  exact Nat.mod_eq_of_lt (h.trans n.isLt)

/-- A channel is a number of 32 bits. -/
theorem toNat_channel (hc : c < 4) : (BitVec.ofNat 32 c).toNat = c := by
  rw [BitVec.toNat_ofNat]
  exact Nat.mod_eq_of_lt (by omega)

/-- The index of a byte of a pixel. -/
theorem toNat_pixel {n l : BitVec 32} (stride : BitVec 32) (hy : y < n.toNat) (hc : c < 4)
    (hlt : y * stride.toNat + (l.toNat * 4 + c) < 2 ^ 32) :
    (BitVec.ofNat 32 y * stride + l * 4 + BitVec.ofNat 32 c).toNat =
      y * stride.toNat + l.toNat * 4 + c := by
  rw [toNat_index, toNat_ofNat_of_lt hy, toNat_channel hc]
  rw [toNat_ofNat_of_lt hy, toNat_channel hc]
  omega

/-- A byte that is widened keeps its value. -/
theorem toInt_byte (b : UInt8) : ((b.toBitVec.setWidth 16).setWidth 32).toInt = b.toNat := by
  have hlt := b.toNat_lt
  have htoNat : ((b.toBitVec.setWidth 16).setWidth 32).toNat = b.toNat := by
    rw [BitVec.toNat_setWidth, BitVec.toNat_setWidth, UInt8.toNat_toBitVec]
    omega
  rw [DVP.Sosal.toInt_of_lt (by omega), htoNat]

/-- The term of a tap. -/
def TapArgs.term (args : TapArgs) (m : Buffer) (y x c : Nat) (n : Fin 3) : Int :=
  (args.coeff n).toInt * args.signal m y c (Fir.nearest args.width.toNat (x + n - 1))

/-- A term of the sum is at most a coefficient times 255. -/
theorem abs_term_le (n : Fin 3) : |args.term m y x c n| ≤ 2 ^ 15 * 255 := by
  rw [TapArgs.term, abs_mul]
  have hlo := BitVec.le_toInt (args.coeff n)
  have hhi := BitVec.toInt_lt (x := args.coeff n)
  have hbyte := (m (args.src y (Fir.nearest args.width.toNat (x + n - 1)) c)).toNat_lt
  apply mul_le_mul
  · exact abs_le.mpr ⟨by omega, by omega⟩
  · unfold TapArgs.signal
    exact abs_le.mpr ⟨by omega, by omega⟩
  · exact abs_nonneg _
  · decide

/-- A round adds its term when the sum does not overflow. -/
theorem tapRound_eq (h : args.Valid) (hy : y < args.height.toNat) (hx : x < args.width.toNat)
    (hc : c < 4) (hm : ∀ a, args.SourceByte a → m' a = m a) (n : Fin 3)
    (s : BitVec 32 × BitVec 32) (hs : |s.1.toInt + args.term m y x c n| < 2 ^ 31) :
    ∃ s', tapRound args.SourceByte args m' (BitVec.ofNat 32 y) (BitVec.ofNat 32 x)
        (BitVec.ofNat 32 c) s n = some s' ∧ s'.1.toInt = s.1.toInt + args.term m y x c n := by
  have hx' : (BitVec.ofNat 32 x).toNat = x := toNat_ofNat_of_lt hx
  have hcolumn := toNat_tapColumn (n := n) (by rwa [hx']) h.width_lt
  rw [hx'] at hcolumn
  have hnearest := Fir.nearest_lt (i := x + n - 1) (Nat.zero_lt_of_lt hx)
  have haddr : args.pSrc + (BitVec.ofNat 32 y * args.srcStride +
      tapColumn args.width (BitVec.ofNat 32 x) n * 4 + BitVec.ofNat 32 c).toNat =
        args.src y (Fir.nearest args.width.toNat (x + n - 1)) c := by
    rw [toNat_pixel _ hy hc, hcolumn, TapArgs.src]
    rw [hcolumn]
    exact h.src_lt y hy _ (by omega)
  have hsource := sourceByte_src hy hnearest hc
  have hterm : (((m (args.src y (Fir.nearest args.width.toNat (x + n - 1)) c)).toBitVec.setWidth
      16).setWidth 32).toInt * ((args.coeff n).signExtend 32).toInt = args.term m y x c n := by
    rw [toInt_byte, BitVec.toInt_signExtend_of_le (by decide), mul_comm]
    rfl
  obtain ⟨product, hproduct, hproductInt⟩ := smulInt32_eq_some (by
    rw [hterm]
    exact (abs_term_le n).trans_lt (by decide))
  rw [hterm] at hproductInt
  obtain ⟨acc, hacc, haccInt⟩ := saddInt32_eq_some (x := s.1) (y := product) (by rwa [hproductInt])
  rw [hproductInt] at haccInt
  refine ⟨(acc, BitVec.ofNat 32 y * args.srcStride +
    tapColumn args.width (BitVec.ofNat 32 x) n * 4), ?_, haccInt⟩
  simp only [tapRound, haddr, readByte, if_pos hsource, hm _ hsource, Option.bind_eq_bind,
    Option.bind_some, hproduct, hacc]
  rfl

/-- The accumulator after the taps. -/
theorem tapRounds_eq (h : args.Valid) (hy : y < args.height.toNat) (hx : x < args.width.toNat)
    (hc : c < 4) (hm : ∀ a, args.SourceByte a → m' a = m a) (i : BitVec 32) :
    ∃ s', (List.finRange 3).foldlM (tapRound args.SourceByte args m' (BitVec.ofNat 32 y)
        (BitVec.ofNat 32 x) (BitVec.ofNat 32 c)) (128, i) = some s' ∧
      UInt8.ofNat (args.filtered m y x c).toNat = tapClamp s'.1 := by
  -- three terms stay far below the range of the accumulator
  have hstart : |(128 : BitVec 32).toInt| + ((List.finRange 3).length : Int) * (2 ^ 15 * 255) <
      2 ^ 31 := by decide
  obtain ⟨s', hs', hacc⟩ := Fir.foldlM_acc
    (fun n _ s hs => tapRound_eq h hy hx hc hm n s hs) (fun n _ => abs_term_le n)
    (s := ((128 : BitVec 32), i)) hstart
  refine ⟨s', hs', ?_⟩
  rw [tapClamp_eq, hacc, ← Fin.sum_univ_def]
  rfl

/-- The stores of a round of the channels. -/
theorem writeByte_eq (m' : Buffer) (h : args.Valid) (hy : y < args.height.toNat) (hx : x < args.width.toNat)
    (hc : c < 4) (v : UInt8) :
    writeByte args.DestByte m' (args.pDst + (BitVec.ofNat 32 y * args.dstStride +
      BitVec.ofNat 32 x * 4 + BitVec.ofNat 32 c).toNat) v =
        some (Transfer.store m' [(args.dst y x c, v)]) := by
  have hx' : (BitVec.ofNat 32 x).toNat = x := toNat_ofNat_of_lt hx
  rw [toNat_pixel _ hy hc, hx', writeByte, if_pos]
  · rfl
  · exact destByte_dst hy hx hc
  · rw [hx']
    exact h.dst_lt y hy _ (by omega)

/-- The channel that is copied, when `i` is the index of the pixel. -/
theorem tapChannel_zero (h : args.Valid) (hy : y < args.height.toNat) (hx : x < args.width.toNat)
    (hm : ∀ a, args.SourceByte a → m' a = m a) :
    tapChannel args.SourceByte args.DestByte args (BitVec.ofNat 32 y) (BitVec.ofNat 32 x)
        (m', BitVec.ofNat 32 y * args.srcStride + BitVec.ofNat 32 x * 4) 0 =
      some (Transfer.store m' [(args.dst y x 0, args.value m y x 0)],
        BitVec.ofNat 32 y * args.srcStride + BitVec.ofNat 32 x * 4) := by
  have hx' : (BitVec.ofNat 32 x).toNat = x := toNat_ofNat_of_lt hx
  have hsource := sourceByte_src (c := 0) hy hx (by decide)
  have haddr : args.pSrc + (BitVec.ofNat 32 y * args.srcStride +
      BitVec.ofNat 32 x * 4).toNat = args.src y x 0 := by
    have hlt := h.src_lt y hy (x * 4 + 0) (by omega)
    have hpixel := toNat_pixel (c := 0) args.srcStride hy (by decide) (by rwa [hx'])
    rw [BitVec.add_zero, hx'] at hpixel
    rw [hpixel, TapArgs.src]
  have hwrite := writeByte_eq m' h hy hx (c := 0) (by decide) (m (args.src y x 0))
  rw [BitVec.add_zero] at hwrite
  simp only [tapChannel, if_true, haddr, readByte, if_pos hsource, hm _ hsource,
    Option.bind_eq_bind, Option.bind_some, hwrite]
  rfl

/-- A channel other than the first gets the filtered value. -/
theorem tapChannel_pos (h : args.Valid) (hy : y < args.height.toNat) (hx : x < args.width.toNat)
    (hc : c < 4) (hpos : 0 < c) (s : Buffer × BitVec 32)
    (hm : ∀ a, args.SourceByte a → s.1 a = m a) :
    ∃ s', tapChannel args.SourceByte args.DestByte args (BitVec.ofNat 32 y) (BitVec.ofNat 32 x) s c =
        some s' ∧ s'.1 = Transfer.store s.1 [(args.dst y x c, args.value m y x c)] := by
  obtain ⟨s', hs', hclamp⟩ := tapRounds_eq h hy hx hc hm s.2
  refine ⟨(_, s'.2), ?_, rfl⟩
  have hne : c ≠ 0 := hpos.ne'
  simp only [tapChannel, if_neg hne, hs', Option.bind_eq_bind, Option.bind_some, ← hclamp,
    writeByte_eq s.1 h hy hx hc, TapArgs.value]
  rfl

/-- The source is not written. -/
theorem not_sourceByte_dst (h : args.Valid) (hy : y < args.height.toNat)
    (hx : x < args.width.toNat) (hc : c < 4) : ¬args.SourceByte (args.dst y x c) :=
  fun hsource => h.apart _ hsource (destByte_dst hy hx hc)

/-- The channels that are filtered, which set `i` before they use it. -/
theorem tapChannels_eq (h : args.Valid) (hy : y < args.height.toNat) (hx : x < args.width.toNat)
    (s : Buffer × BitVec 32) (hm : ∀ a, args.SourceByte a → s.1 a = m a) :
    ∃ s', (List.range' 1 3).foldlM (tapChannel args.SourceByte args.DestByte args
        (BitVec.ofNat 32 y) (BitVec.ofNat 32 x)) s = some s' ∧
      s'.1 = Transfer.store s.1 ((List.range' 1 3).flatMap fun c =>
        [(args.dst y x c, args.value m y x c)]) := by
  apply Transfer.foldlM_store Prod.fst
  · intro c hc s hs
    rw [List.mem_range'_1] at hc
    exact tapChannel_pos h hy hx hc.2 hc.1 s hs
  · intro c hc
    rw [List.mem_range'_1] at hc
    exact List.forall_mem_singleton.mpr (not_sourceByte_dst h hy hx hc.2)
  · exact hm

/-- The four channels of a pixel are stored. -/
theorem tapPixel_eq (h : args.Valid) (hy : y < args.height.toNat) (hx : x < args.width.toNat)
    (hm : ∀ a, args.SourceByte a → m' a = m a) :
    tapPixel args.SourceByte args.DestByte args (BitVec.ofNat 32 y) m' x =
      some (Transfer.store m' (args.pixelStores m y x)) := by
  -- the store of the copied channel leaves the source as it was
  have hfirst : ∀ a, args.SourceByte a →
      Transfer.store m' [(args.dst y x 0, args.value m y x 0)] a = m a := by
    intro a ha
    rw [Transfer.store_of_notMem, hm a ha]
    intro hmem
    rw [List.map_singleton, List.mem_singleton] at hmem
    exact not_sourceByte_dst h hy hx (by decide) (hmem ▸ ha)
  obtain ⟨s', hs', hmem⟩ := tapChannels_eq h hy hx
    (Transfer.store m' [(args.dst y x 0, args.value m y x 0)],
      BitVec.ofNat 32 y * args.srcStride + BitVec.ofNat 32 x * 4) hfirst
  have hrange : List.range 4 = 0 :: List.range' 1 3 := rfl
  simp only [tapPixel, hrange, List.foldlM_cons, tapChannel_zero h hy hx hm, Option.bind_eq_bind,
    Option.bind_some, hs', TapArgs.pixelStores, List.flatMap_cons, Transfer.store_append]
  rw [← hmem]
  rfl

/-- What the filter stores, in order. -/
def TapArgs.stores (args : TapArgs) (m : Buffer) : List (Nat × UInt8) :=
  (List.range args.height.toNat).flatMap fun y =>
    (List.range args.width.toNat).flatMap (args.pixelStores m y)

/-- What is stored for a pixel are its four channels. -/
theorem mem_pixelStores {w : Nat × UInt8} :
    w ∈ args.pixelStores m y x ↔ ∃ c < 4, w = (args.dst y x c, args.value m y x c) := by
  simp only [TapArgs.pixelStores, List.mem_flatMap, List.mem_range, List.mem_singleton]

/-- What is stored for the image are the four channels of its pixels. -/
theorem mem_stores {w : Nat × UInt8} :
    w ∈ args.stores m ↔ ∃ y < args.height.toNat, ∃ x < args.width.toNat, ∃ c < 4,
      w = (args.dst y x c, args.value m y x c) := by
  simp only [TapArgs.stores, List.mem_flatMap, List.mem_range, mem_pixelStores]

/-- A row is stored. -/
theorem tapPixels_eq (h : args.Valid) (hy : y < args.height.toNat)
    (hm : ∀ a, args.SourceByte a → m' a = m a) :
    ∃ m'', (List.range args.width.toNat).foldlM (tapPixel args.SourceByte args.DestByte args
        (BitVec.ofNat 32 y)) m' = some m'' ∧
      m'' = Transfer.store m' ((List.range args.width.toNat).flatMap (args.pixelStores m y)) := by
  apply Transfer.foldlM_store (fun m => m) (m := m)
  · intro x hx m' hm
    exact ⟨_, tapPixel_eq h hy (List.mem_range.mp hx) hm, rfl⟩
  · intro x hx w hw
    obtain ⟨c, hc, rfl⟩ := mem_pixelStores.mp hw
    exact not_sourceByte_dst h hy (List.mem_range.mp hx) hc
  · exact hm

/-- The call returns, and has stored the bytes of all pixels. -/
theorem threeChanTapFilter_eq (h : args.Valid) :
    ∃ m', threeChanTapFilterImage3x1C args.SourceByte args.DestByte args m = some m' ∧
      m' = Transfer.store m (args.stores m) := by
  apply Transfer.foldlM_store (fun m => m) (m := m)
  · intro y hy m' hm
    exact tapPixels_eq h (List.mem_range.mp hy) hm
  · intro y hy w hw
    obtain ⟨x, hx, hw⟩ := List.mem_flatMap.mp hw
    obtain ⟨c, hc, rfl⟩ := mem_pixelStores.mp hw
    exact not_sourceByte_dst h (List.mem_range.mp hy) (List.mem_range.mp hx) hc
  · exact fun _ _ => rfl

/-! ## The destination -/

/-- Different bytes of pixels have different addresses. -/
theorem dst_inj (h : args.Valid) {y' x' c' : Nat} (hx : x < args.width.toNat)
    (hx' : x' < args.width.toNat) (hc : c < 4) (hc' : c' < 4)
    (heq : args.dst y x c = args.dst y' x' c') : y = y' ∧ x = x' ∧ c = c' := by
  let pixels : Grid := ⟨args.width.toNat, 4, args.dstStride.toNat, by
    have hle := h.le_dstStride
    omega⟩
  unfold TapArgs.dst at heq
  have hsame : y = y' ∧ x = x' := by
    by_contra hne
    have hapart : pixels.offset y x + 4 ≤ pixels.offset y' x' ∨
        pixels.offset y' x' + 4 ≤ pixels.offset y x := pixels.apart hx hx' (by omega)
    simp only [Grid.offset, pixels] at hapart
    omega
  obtain ⟨rfl, rfl⟩ := hsame
  exact ⟨rfl, rfl, by omega⟩

/-- A pixel of the destination has its value in the end. -/
theorem store_stores_dst (h : args.Valid) (hy : y < args.height.toNat) (hx : x < args.width.toNat)
    (hc : c < 4) : Transfer.store m (args.stores m) (args.dst y x c) = args.value m y x c := by
  apply Transfer.store_eq
  · intro w hw heq
    obtain ⟨y', hy', x', hx', c', hc', rfl⟩ := mem_stores.mp hw
    obtain ⟨rfl, rfl, rfl⟩ := dst_inj h hx' hx hc' hc heq
    rfl
  · left
    exact List.mem_map.mpr ⟨_, mem_stores.mpr ⟨y, hy, x, hx, c, hc, rfl⟩, rfl⟩

/-- Nothing but the destination changes. -/
theorem store_stores_of_not_destByte {a : Nat} (ha : ¬args.DestByte a) :
    Transfer.store m (args.stores m) a = m a := by
  apply Transfer.store_of_notMem
  intro hmem
  obtain ⟨w, hw, rfl⟩ := List.mem_map.mp hmem
  obtain ⟨y, hy, x, hx, c, hc, rfl⟩ := mem_stores.mp hw
  exact ha (destByte_dst hy hx hc)

/-- A channel other than the first is the filtered sum of three rows. -/
theorem toNat_value (hpos : 0 < c) : ((args.value m y x c).toNat : Int) = args.filtered m y x c := by
  have hle : 0 ≤ args.filtered m y x c := Fir.le_output
  have hlt : args.filtered m y x c ≤ 255 := Fir.output_le (by decide)
  rw [TapArgs.value, if_neg hpos.ne', UInt8.toNat_ofNat']
  omega

/-- Coefficients that sum up to 256 keep a row whose pixels are all equal. -/
theorem value_const (hsum : ∑ k, (args.coeff k).toInt = 256) (hx : x < args.width.toNat)
    (hrow : ∀ x < args.width.toNat, m (args.src y x c) = m (args.src y 0 c)) :
    args.value m y x c = m (args.src y x c) := by
  rcases Nat.eq_zero_or_pos c with rfl | hpos
  · exact if_pos rfl
  · have hfiltered : args.filtered m y x c = (m (args.src y x c)).toNat := by
      apply Fir.output_const (by decide) hsum (Nat.zero_lt_of_lt hx)
      · intro i hi
        rw [TapArgs.signal, hrow i hi, hrow x hx]
      · exact Int.natCast_nonneg _
      · have hlt := (m (args.src y x c)).toNat_lt
        omega
    apply UInt8.toNat_inj.mp
    rw [← toNat_value hpos] at hfiltered
    exact Int.natCast_inj.mp hfiltered

end Rounds

/-- The filter reads bytes of the source's rows and writes bytes of the destination's rows alone. It
copies the first channel, and each other channel receives the rounded and clamped sum of the taps,
of which the pixels beyond the ends of the row are those at its ends. -/
theorem threeChanTapFilter_spec (args : TapArgs) (h : args.Valid) (m : Buffer) :
    ∃ m', threeChanTapFilterImage3x1C args.SourceByte args.DestByte args m = some m' ∧
      (∀ a, ¬args.DestByte a → m' a = m a) ∧
      (∀ y < args.height.toNat, ∀ x < args.width.toNat,
        m' (args.dst y x 0) = m (args.src y x 0)) ∧
      (∀ y < args.height.toNat, ∀ x < args.width.toNat, ∀ c < 4, 0 < c →
        ((m' (args.dst y x c)).toNat : Int) =
          Fir.saturate 0 255 ((128 + ∑ k : Fin 3, (args.coeff k).toInt *
            (m (args.src y (Fir.nearest args.width.toNat (x + k - 1)) c)).toNat) / 256)) ∧
      (∑ k, (args.coeff k).toInt = 256 → ∀ y < args.height.toNat,
        (∀ x < args.width.toNat, ∀ c < 4, m (args.src y x c) = m (args.src y 0 c)) →
          ∀ x < args.width.toNat, ∀ c < 4, m' (args.dst y x c) = m (args.src y x c)) := by
  obtain ⟨_, hcall, rfl⟩ := threeChanTapFilter_eq (m := m) h
  refine ⟨_, hcall, fun a => store_stores_of_not_destByte, ?copied, ?filtered, ?kept⟩
  case copied =>
    intro y hy x hx
    exact store_stores_dst h hy hx (by decide)
  case filtered =>
    intro y hy x hx c hc hpos
    rw [store_stores_dst h hy hx hc, toNat_value hpos]
    rfl
  case kept =>
    intro hsum y hy hrow x hx c hc
    rw [store_stores_dst h hy hx hc]
    exact value_const hsum hx fun x hx => hrow x hx c hc

/-- Two pixels beside each other, and the coefficients of `main`. -/
def twoPixels : TapArgs where
  pSrc := 0
  width := 2
  height := 1
  pDst := 8
  srcStride := 8
  dstStride := 8
  coeff := ![-32, 320, -32]

/-- An image of two pixels. -/
theorem twoPixels_valid : twoPixels.Valid where
  width_lt := by decide
  le_srcStride := by decide
  le_dstStride := by decide
  src_lt := by decide
  dst_lt := by decide
  apart := by
    rintro _ ⟨y, hy, b, hb, rfl⟩ ⟨y', hy', b', hb', heq⟩
    have hb : b < 8 := hb
    have hy : y < 1 := hy
    have heq : 0 + (y * 8 + b) = 8 + (y' * 8 + b') := heq
    omega

/-- The byte 20 beside the byte 100 becomes 10. -/
theorem threeChanTapFilter_two :
    twoPixels.Valid ∧ ∃ m', threeChanTapFilterImage3x1C twoPixels.SourceByte twoPixels.DestByte
      twoPixels (fun a => UInt8.ofNat (20 * a)) = some m' ∧ m' 8 = 0 ∧ (m' 9).toNat = 10 := by
  obtain ⟨m', hcall, -, hcopied, hfiltered, -⟩ := threeChanTapFilter_spec twoPixels twoPixels_valid
    fun a => UInt8.ofNat (20 * a)
  refine ⟨twoPixels_valid, m', hcall, hcopied 0 (by decide) 0 (by decide), ?_⟩
  have hbyte := hfiltered 0 (by decide) 0 (by decide) 1 (by decide) (by decide)
  exact Int.natCast_inj.mp (hbyte.trans (by decide))

/-! ## A kernel of rows -/

/-- The filter, as a kernel of rows. -/
def tapKernel (coeff : Fin 3 → BitVec 16) : RowKernel where
  run row := (List.range row.length).map fun b =>
    if b % 4 = 0 then row.getD b 0
    else UInt8.ofNat (Fir.output (fun k => (coeff k).toInt) 1 8 0 255 (row.length / 4)
      (fun i => (row.getD (i * 4 + b % 4) 0).toNat) (b / 4)).toNat
  length_run row := by rw [List.length_map, List.length_range]

section Rows

variable {args : TapArgs} {m m' : Buffer} {y x c : Nat}

/-- A byte of a row of the source. -/
theorem getD_peek_src (hx : x < args.width.toNat) (hc : c < 4) :
    (Bytes.peek m (args.src y 0 0) (args.width.toNat * 4)).getD (x * 4 + c) 0 =
      m (args.src y x c) := by
  have hlt : x * 4 + c < args.width.toNat * 4 := by omega
  rw [Bytes.peek, List.getD_eq_getElem?_getD, List.getElem?_map, List.getElem?_range hlt,
    Option.map_some, Option.getD_some]
  congr 1
  unfold TapArgs.src
  omega

/-- A row of the destination is what the kernel computes from the row of the source. -/
theorem threeChanTapFilter_row (h : args.Valid)
    (hcall : threeChanTapFilterImage3x1C args.SourceByte args.DestByte args m = some m')
    (hy : y < args.height.toNat) :
    Bytes.peek m' (args.dst y 0 0) (args.width.toNat * 4) =
      (tapKernel args.coeff).run (Bytes.peek m (args.src y 0 0) (args.width.toNat * 4)) := by
  obtain ⟨_, hcall', rfl⟩ := threeChanTapFilter_eq (m := m) h
  rw [hcall'] at hcall
  cases hcall
  simp only [tapKernel, Bytes.length_peek]
  apply List.map_congr_left
  intro b hb
  rw [List.mem_range] at hb
  have hx : b / 4 < args.width.toNat := by omega
  have hc : b % 4 < 4 := Nat.mod_lt _ (by decide)
  have hdst : args.dst y 0 0 + b = args.dst y (b / 4) (b % 4) := by
    unfold TapArgs.dst
    omega
  rw [hdst, store_stores_dst h hy hx hc, TapArgs.value]
  by_cases hzero : b % 4 = 0
  · have hbyte : _ = m (args.src y (b / 4) (b % 4)) := getD_peek_src hx hc
    rw [Nat.div_add_mod', hzero] at hbyte
    rw [if_pos hzero, if_pos hzero, hbyte]
  · rw [if_neg hzero, if_neg hzero, TapArgs.filtered, Nat.mul_div_cancel _ (by decide)]
    congr 2
    apply Fir.output_congr (Nat.zero_lt_of_lt hx)
    intro i hi
    rw [getD_peek_src hi hc, TapArgs.signal]

end Rows

end DVP.ImgFilter
