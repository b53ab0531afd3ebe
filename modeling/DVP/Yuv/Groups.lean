import DVP.Yuv.Routines
import DVP.Lib.Arm.Walk

/-!
# What a routine does to a group of pixels

A routine goes through an image in groups of 16 pixels, and what it does to a group is a function of
the memory.
-/

namespace DVP.Yuv

open Arm Region

/-- The memory of the machine. -/
abbrev Memory := Word → Byte

/-! ## Pixels -/

/-- The luma of the pixel `k` of a group of UYVY data. -/
def luma (m : Memory) (p : Word) (k : Fin 16) : Byte := m (p + BitVec.ofNat 32 (2 * k + 1))

/-- The chroma of the pixel `k`, which it shares with the other pixel of its pair. -/
def cb (m : Memory) (p : Word) (k : Fin 16) : Byte := m (p + BitVec.ofNat 32 (4 * (k / 2)))

/-- The red difference of a pixel of a group. -/
def cr (m : Memory) (p : Word) (k : Fin 16) : Byte := m (p + BitVec.ofNat 32 (4 * (k / 2) + 2))

/-- The colours of a pixel, in the arithmetic of 16-bit lanes. -/
def red (y cr : Byte) : Byte :=
  saturate (((y.setWidth 16 - 16) * 74 + (cr.setWidth 16 - 128) * 102 : Half).toInt >>> (6 : Nat))

/-- Green as the lanes compute it. -/
def green (y cb cr : Byte) : Byte :=
  saturate (((y.setWidth 16 - 16) * 74 - (cr.setWidth 16 - 128) * 52 -
    (cb.setWidth 16 - 128) * 25 : Half).toInt >>> (6 : Nat))

/-- Blue as the lanes compute it. -/
def blue (y cb : Byte) : Byte :=
  saturate (((y.setWidth 16 - 16) * 74 + (cb.setWidth 16 - 128) * 129 : Half).toInt >>> (6 : Nat))

/-! ## Groups -/

/-- The colours of the pixels of the group at `p`. -/
def blues (m : Memory) (p : Word) (k : Fin 16) : Byte := blue (luma m p k) (cb m p k)

/-- Green of the pixels of a group. -/
def greens (m : Memory) (p : Word) (k : Fin 16) : Byte := green (luma m p k) (cb m p k) (cr m p k)

/-- Red of the pixels of a group. -/
def reds (m : Memory) (p : Word) (k : Fin 16) : Byte := red (luma m p k) (cr m p k)

/-- The three colours are computed before one of them is written. -/
def rgbpGroup (src r g b : Word) (m : Memory) : Memory :=
  write (write (write m b (blues m src)) g (greens m src)) r (reds m src)

/-- The luma of the group at `src`. -/
def lumaGroup (src y : Word) (m : Memory) : Memory := write m y (luma m src)

/-- The luma and the chroma of the group at `src`. -/
def yuv444pGroup (src y u v : Word) (m : Memory) : Memory :=
  write (write (write m y (luma m src)) u (cb m src)) v (cr m src)

/-- The luma twice, the chroma and the colours of the group at `src`, all computed before the first of
them is written. -/
def fusedGroup (src r g b l y u v : Word) (m : Memory) : Memory :=
  let yuv := write (write (write (write m l (luma m src)) y (luma m src)) u (cb m src)) v (cr m src)
  write (write (write yuv b (blues m src)) g (greens m src)) r (reds m src)

/-- The bytes that `__luma_to_uyvy_image` makes of the luma of two pixels. The shift is one of 16-bit
lanes, so the second pixel comes where the chroma is. -/
def pairBytes (y0 y1 : Byte) (k : Nat) : Byte :=
  if k = 0 then 0x80 else if k = 1 then y0 else if k = 2 then y1 ||| 0x80 else 0

/-- UYVY data from the luma of the group at `src`. -/
def uyvyGroup (src dst : Word) (m : Memory) : Memory :=
  write m dst fun k : Fin 32 =>
    pairBytes (m (src + BitVec.ofNat 32 (2 * (k / 4)))) (m (src + BitVec.ofNat 32 (2 * (k / 4) + 1)))
      (k % 4)

end DVP.Yuv
