import DVP.Lib.Transfer
import Mathlib.Tactic.Linarith

/-!
# Images

The images of `source/sosal/image.c` and their operations. Which bytes an operation moves depends on
the numbers of the images alone, so that an operation is the list of its transfers. The numbers are
natural numbers: the products that make a plane fit 32 bits.

The bytes of an image are places, by plane and index. `imageBack` says which places are one byte of
memory. The two conversions of a pixel compute with floating point numbers, and are parameters. The
pointers to images are not `NULL`.
-/

namespace DVP.Sosal

open Transfer

/-- The colours that `image_allocate` supports. -/
inductive Fourcc where
  | rgbp | yu24 | yv24
  | bgr | rgb
  | uyvy | yuy2
  | y800
  | nv12
  | iyuv | yv12
  deriving DecidableEq, Repr

/-- `plane_t`, without the pointer. -/
structure PlaneT where
  xdim : Nat
  ydim : Nat
  xscale : Nat
  yscale : Nat
  xstride : Nat
  ystride : Nat
  xstep : Nat
  numBytes : Nat
  deriving DecidableEq, Repr

/-- `image_t`, with the active planes. -/
structure ImageT where
  color : Fourcc
  planes : List PlaneT
  deriving DecidableEq, Repr

/-- `img->plane[p]`. What is not active is zero. -/
def ImageT.plane (img : ImageT) (p : Nat) : PlaneT := img.planes.getD p ⟨0, 0, 0, 0, 0, 0, 0, 0⟩

/-- `img->numPlanes`. -/
def ImageT.numPlanes (img : ImageT) : Nat := img.planes.length

/-! ## Allocation -/

/-- A plane as `image_allocate` fills it in. Its scales are the same in both directions. -/
def allocatePlane (xdim ydim xstep scale xstride : Nat) : PlaneT where
  xdim := xdim
  ydim := ydim
  xstep := xstep
  xscale := scale
  yscale := scale
  xstride := xstride
  ystride := xdim * xstride
  numBytes := ydim * (xdim * xstride)

/-- `image_allocate`. -/
def imageAllocate (width height : Nat) (color : Fourcc) : ImageT where
  color := color
  planes :=
    match color with
    -- easy planar formats
    | .rgbp | .yu24 | .yv24 => List.replicate 3 (allocatePlane width height 1 1 1)
    | .bgr | .rgb => [allocatePlane width height 1 1 3]
    | .uyvy | .yuy2 => [allocatePlane width height 2 1 2]
    | .y800 => [allocatePlane width height 1 1 1]
    | .nv12 => [allocatePlane width height 1 1 1, allocatePlane width height 1 2 2]
    -- the second dimension is the width, too
    | .iyuv | .yv12 => [allocatePlane width width 1 1 1,
        allocatePlane (width / 2) (width / 2) 1 2 1, allocatePlane (width / 2) (width / 2) 1 2 1]

/-! ## Places -/

/-- The images an operation is about. -/
inductive Side where
  | dst
  | src
  deriving DecidableEq, Repr

/-- A byte of a plane, or a local variable of `image_convert`. -/
inductive Place where
  | byte (side : Side) (p i : Nat)
  | u (i : Nat)
  | v (i : Nat)
  deriving DecidableEq, Repr

/-- The index of `image_pixel`. -/
def imagePixel (plane : PlaneT) (x y : Nat) : Nat :=
  plane.ystride * (y / plane.yscale) + plane.xstride * (x / plane.xscale)

/-- `image_back`: the allocated block and the offset in it of a byte of a plane. The second plane of
NV12 is a pointer into the block of the first. -/
def imageBack (img : ImageT) (p i : Nat) : Nat × Nat :=
  if img.color = .nv12 ∧ p = 1 then (0, (img.plane 0).ydim * (img.plane 0).ystride + i) else (p, i)

/-! ## Loops -/

/-- `for (x = 0; x < n; x += step)`. -/
def steps (n step : Nat) : List Nat := (List.range ((n + step - 1) / step)).map (· * step)

/-- The loops over the pixels of an image. -/
def forPixels (ydim ystep xdim xstep : Nat) (body : Nat → Nat → List (Transfer Place UInt8)) :
    List (Transfer Place UInt8) :=
  (steps ydim ystep).flatMap fun y => (steps xdim xstep).flatMap fun x => body x y

/-! ## Filling -/

/-- `*d = value`. -/
def setPlace (d : Place) (value : UInt8) : Transfer Place UInt8 := ⟨[], [(d, fun _ => value)]⟩

/-- The loops of `image_fill` over a plane, which store some bytes at every pixel. -/
def fillPlane (img : ImageT) (bytes : List UInt8) (p : Nat) : List (Transfer Place UInt8) :=
  forPixels (img.plane p).ydim 1 (img.plane p).xdim (img.plane p).xstep fun x y =>
    bytes.mapIdx fun k value => setPlace (.byte .dst p (imagePixel (img.plane p) x y + k)) value

/-- `image_fill`. -/
def imageFill (img : ImageT) (a b c : UInt8) : List (Transfer Place UInt8) :=
  match img.color with
  | .bgr => (List.range img.numPlanes).flatMap (fillPlane img [c, b, a])
  | .rgb => (List.range img.numPlanes).flatMap (fillPlane img [a, b, c])
  | .uyvy => (List.range img.numPlanes).flatMap (fillPlane img [b, a, c, a])
  | .yuy2 => (List.range img.numPlanes).flatMap (fillPlane img [a, b, a, c])
  | .nv12 => fillPlane img [a] 0 ++ fillPlane img [b, c] 1
  | .y800 => fillPlane img [a] 0
  | _ => []

/-! ## Copying -/

/-- The rows `image_copy` copies of a plane. -/
def copyPlane (dst src : ImageT) (p : Nat) : List (Transfer Place UInt8) :=
  (List.range (dst.plane p).ydim).flatMap fun y =>
    let l := (src.plane p).xstride * (src.plane p).xdim
    let i := y * (src.plane p).ystride
    copyRun (fun k => .byte .dst p (i + k)) (fun k => .byte .src p (i + k)) l

/-- `image_copy`, with the number of bytes it answers. -/
def imageCopy (dst src : ImageT) : List (Transfer Place UInt8) × Nat :=
  if dst.color = src.color then
    let planes := List.range (min dst.numPlanes src.numPlanes)
    (planes.flatMap (copyPlane dst src),
      (planes.map fun p => (dst.plane p).ydim * ((src.plane p).xstride * (src.plane p).xdim)).sum)
  else ([], 0)

/-! ## Converting -/

/-- `yuv_to_rgb_pixel` and `rgb_to_yuv_pixel`, from three bytes to three bytes. -/
structure Pixels where
  yuvToRgb : UInt8 → UInt8 → UInt8 → UInt8 × UInt8 × UInt8
  rgbToYuv : UInt8 → UInt8 → UInt8 → UInt8 × UInt8 × UInt8

/-- `saturate_to_uint8`. -/
def saturateToUint8 (a : Int) : UInt8 :=
  let a := if a > 255 then 255 else a
  let a := if a < 0 then 0 else a
  UInt8.ofNat a.toNat

/-- The conversions of a pixel in exact arithmetic. What `rgb_to_yuv_pixel` subtracts for `v` is a
product of two constants and `b`. -/
def Pixels.exact : Pixels where
  yuvToRgb y cb cr :=
    let y : Int := 1164 * (y.toNat - 16)
    let cb : Int := cb.toNat - 128
    let cr : Int := cr.toNat - 128
    (saturateToUint8 ((y + 1596 * cb).tdiv 1000),
      saturateToUint8 ((y - 813 * cr - 391 * cb).tdiv 1000),
      saturateToUint8 ((y + 2018 * cr).tdiv 1000))
  rgbToYuv r g b :=
    let r : Int := r.toNat
    let g : Int := g.toNat
    let b : Int := b.toNat
    (saturateToUint8 ((257 * r + 504 * g + 98 * b).tdiv 1000 + 16),
      saturateToUint8 ((-148 * r - 291 * g + 439 * b).tdiv 1000 + 128),
      saturateToUint8 ((439000 * r - 368 * -71 * b).tdiv 1000000 + 128))

/-- A function of three bytes that stores its three results. -/
def call (f : UInt8 → UInt8 → UInt8 → UInt8 × UInt8 × UInt8) (a b c r s t : Place) :
    Transfer Place UInt8 :=
  let result (vs : List UInt8) := f (vs.getD 0 0) (vs.getD 1 0) (vs.getD 2 0)
  ⟨[a, b, c],
    [(r, fun vs => (result vs).1), (s, fun vs => (result vs).2.1), (t, fun vs => (result vs).2.2)]⟩

/-- `*d` is the sum of some bytes, divided by their number. -/
def average (sources : List Place) (d : Place) : Transfer Place UInt8 :=
  ⟨sources, [(d, fun vs => UInt8.ofNat ((vs.map UInt8.toNat).sum / sources.length))]⟩

/-- The same, saturated. -/
def averageSaturated (sources : List Place) (d : Place) : Transfer Place UInt8 :=
  ⟨sources, [(d, fun vs => saturateToUint8 ((vs.map UInt8.toNat).sum / sources.length : Nat))]⟩

section Convert

variable (px : Pixels) (dst src : ImageT)

/-- Byte `k` from `image_pixel(src, p, x, y)` on. -/
def srcPixel (p x y k : Nat) : Place := .byte .src p (imagePixel (src.plane p) x y + k)

/-- Byte `k` from `image_pixel(dst, p, x, y)` on. -/
def dstPixel (p x y k : Nat) : Place := .byte .dst p (imagePixel (dst.plane p) x y + k)

/-- `BGR` from the macro pixels of `UYVY` or `YUY2`, with the bytes of the two lumas and of the
chroma. -/
def bgrFromPacked (y0 y1 u v : Nat) : List (Transfer Place UInt8) :=
  forPixels (src.plane 0).ydim 1 (src.plane 0).xdim (src.plane 0).xstep fun x y =>
    let uyvy := srcPixel src 0 x y
    let bgr := dstPixel dst 0 x y
    [call px.yuvToRgb (uyvy y0) (uyvy u) (uyvy v) (bgr 2) (bgr 1) (bgr 0),
      call px.yuvToRgb (uyvy y1) (uyvy u) (uyvy v) (bgr 5) (bgr 4) (bgr 3)]

/-- NV12 to BGR, pixel by pixel. -/
def bgrFromNv12 : List (Transfer Place UInt8) :=
  forPixels (src.plane 0).ydim 1 (src.plane 0).xdim (src.plane 0).xstep fun x y =>
    let luma := srcPixel src 0 x y
    let uv := srcPixel src 1 x y
    let bgr := dstPixel dst 0 x y
    [call px.yuvToRgb (luma 0) (uv 0) (uv 1) (bgr 2) (bgr 1) (bgr 0)]

/-- NV12 to UYVY, in pairs of pixels. -/
def uyvyFromNv12 : List (Transfer Place UInt8) :=
  forPixels (src.plane 0).ydim 1 (src.plane 0).xdim (dst.plane 0).xstep fun x y =>
    let luma := srcPixel src 0 x y
    let uv := srcPixel src 1 x y
    let uyvy := dstPixel dst 0 x y
    [copy (uyvy 0) (uv 0), copy (uyvy 1) (luma 0), copy (uyvy 2) (uv 1), copy (uyvy 3) (luma 1)]

/-- `BGR` from `YU24` or `YV24`, with the planes of the chroma. -/
def bgrFromPlanar (p1 p2 : Nat) : List (Transfer Place UInt8) :=
  forPixels (src.plane 0).ydim 1 (src.plane 0).xdim (src.plane 0).xstep fun x y =>
    let luma := srcPixel src 0 x y
    let cb := srcPixel src p1 x y
    let cr := srcPixel src p2 x y
    let bgr := dstPixel dst 0 x y
    [call px.yuvToRgb (luma 0) (cb 0) (cr 0) (bgr 2) (bgr 1) (bgr 0)]

/-- `UYVY` from `YU24` or `YV24`, with the planes of the chroma. -/
def uyvyFromPlanar (p1 p2 : Nat) : List (Transfer Place UInt8) :=
  forPixels (src.plane 0).ydim 1 (src.plane 0).xdim (dst.plane 0).xstep fun x y =>
    let luma := srcPixel src 0 x y
    let cb := srcPixel src p1 x y
    let cr := srcPixel src p2 x y
    let uyvy := dstPixel dst 0 x y
    [average [cb 0, cb 1] (uyvy 0), copy (uyvy 1) (luma 0), average [cr 0, cr 1] (uyvy 2),
      copy (uyvy 3) (luma 1)]

/-- Luma to BGR, pixel by pixel. -/
def bgrFromY800 : List (Transfer Place UInt8) :=
  forPixels (src.plane 0).ydim 1 (src.plane 0).xdim (src.plane 0).xstep fun x y =>
    let luma := srcPixel src 0 x y
    let bgr := dstPixel dst 0 x y
    [call (fun y _ _ => px.yuvToRgb y 128 128) (luma 0) (luma 0) (luma 0) (bgr 2) (bgr 1) (bgr 0)]

/-- RGB to BGR, pixel by pixel. -/
def bgrFromRgb : List (Transfer Place UInt8) :=
  forPixels (src.plane 0).ydim 1 (src.plane 0).xdim (src.plane 0).xstep fun x y =>
    let rgb := srcPixel src 0 x y
    let bgr := dstPixel dst 0 x y
    [copy (bgr 0) (rgb 2), copy (bgr 1) (rgb 1), copy (bgr 2) (rgb 0)]

/-- `UYVY` from `RGB` or `BGR`, with the bytes of the three colours. -/
def uyvyFromRgb (r g b : Nat) : List (Transfer Place UInt8) :=
  forPixels (src.plane 0).ydim 1 (src.plane 0).xdim ((src.plane 0).xstep * 2) fun x y =>
    let rgb := srcPixel src 0 x y
    let uyvy := dstPixel dst 0 x y
    [call px.rgbToYuv (rgb r) (rgb g) (rgb b) (uyvy 1) (.u 0) (.v 0),
      call px.rgbToYuv (rgb (r + 3)) (rgb (g + 3)) (rgb (b + 3)) (uyvy 3) (.u 1) (.v 1),
      averageSaturated [.u 0, .u 1] (uyvy 0), averageSaturated [.v 0, .v 1] (uyvy 2)]

/-- RGB to NV12, pixel by pixel. -/
def nv12FromRgb : List (Transfer Place UInt8) :=
  forPixels (src.plane 0).ydim 1 (src.plane 0).xdim (src.plane 0).xstep fun x y =>
    let rgb := srcPixel src 0 x y
    let luma := dstPixel dst 0 x y
    let uv := dstPixel dst 1 x y
    [call px.rgbToYuv (rgb 0) (rgb 1) (rgb 2) (luma 0) (uv 0) (uv 1)]

/-- The luma of two by two pixels of `BGR`, and their chroma in local variables. Three of the pixels
are those of the target. -/
def lumaFromBgr (x y : Nat) : List (Transfer Place UInt8) :=
  let bgr0 := srcPixel src 0 x y
  let bgr1 := dstPixel dst 0 (x + 1) y
  let bgr2 := dstPixel dst 0 x (y + 1)
  let bgr3 := dstPixel dst 0 (x + 1) (y + 1)
  let l0 := dstPixel dst 0 x y
  let l1 := dstPixel dst 0 (x + 1) y
  let l2 := dstPixel dst 0 x (y + 1)
  let l3 := dstPixel dst 0 (x + 1) (y + 1)
  [call px.rgbToYuv (bgr0 2) (bgr0 1) (bgr0 0) (l0 0) (.u 0) (.v 0),
    call px.rgbToYuv (bgr1 2) (bgr1 1) (bgr1 0) (l1 0) (.u 1) (.v 1),
    call px.rgbToYuv (bgr2 2) (bgr2 1) (bgr2 0) (l2 0) (.u 2) (.v 2),
    call px.rgbToYuv (bgr2 2) (bgr3 1) (bgr3 0) (l3 0) (.u 3) (.v 3)]

/-- The round of a pixel. -/
def nv12RoundFromBgr (x y : Nat) : List (Transfer Place UInt8) :=
  let uv := dstPixel dst 1 x y
  lumaFromBgr px dst src x y ++
    [average [.u 0, .u 1, .u 2, .u 3] (uv 0), average [.v 0, .v 1, .v 2, .v 3] (uv 1)]

/-- BGR to NV12, in blocks of two by two pixels. -/
def nv12FromBgr : List (Transfer Place UInt8) :=
  forPixels (src.plane 0).ydim 2 (src.plane 0).xdim 2 (nv12RoundFromBgr px dst src)

/-- `IYUV` or `YV12` from `BGR`, with the planes of the chroma. -/
def planarFromBgr (pu pv : Nat) : List (Transfer Place UInt8) :=
  forPixels (src.plane 0).ydim 2 (src.plane 0).xdim 2 fun x y =>
    let us := dstPixel dst pu x y
    let vs := dstPixel dst pv x y
    lumaFromBgr px dst src x y ++
      [average [.u 0, .u 1, .u 2, .u 3] (us 0), average [.v 0, .v 1, .v 2, .v 3] (vs 1)]

/-- `YU24` or `YV24` from `NV12`, with the planes of the chroma. -/
def planarFromNv12 (pu pv : Nat) : List (Transfer Place UInt8) :=
  forPixels (src.plane 0).ydim 2 (src.plane 0).xdim ((src.plane 0).xstep * 2) fun x y =>
    let str := (src.plane 0).ystride
    let l0 := srcPixel src 0 x y
    let uv := srcPixel src 1 x y
    let lo := dstPixel dst 0 x y
    let uo := dstPixel dst pu x y
    let vo := dstPixel dst pv x y
    [average [l0 0, l0 1, l0 str, l0 (str + 1)] (lo 0), copy (uo 0) (uv 0), copy (vo 0) (uv 1)]

/-- `RGBP` from `YU24` or `YV24`, with the planes of the chroma. -/
def rgbpFromPlanar (p1 p2 : Nat) : List (Transfer Place UInt8) :=
  forPixels (src.plane 0).ydim 1 (src.plane 0).xdim (src.plane 0).xstep fun x y =>
    let luma := srcPixel src 0 x y
    let cb := srcPixel src p1 x y
    let cr := srcPixel src p2 x y
    let r := dstPixel dst 0 x y
    let g := dstPixel dst 1 x y
    let b := dstPixel dst 2 x y
    [call px.yuvToRgb (luma 0) (cb 0) (cr 0) (r 0) (g 0) (b 0)]

/-- Luma to UYVY, in pairs of pixels. -/
def uyvyFromY800 : List (Transfer Place UInt8) :=
  forPixels (dst.plane 0).ydim 1 (dst.plane 0).xdim (dst.plane 0).xstep fun x y =>
    let luma := srcPixel src 0 x y
    let uyvy := dstPixel dst 0 x y
    [setPlace (uyvy 0) 0x80, copy (uyvy 1) (luma 0), setPlace (uyvy 2) 0x80,
      copy (uyvy 3) (luma 1)]

/-- `image_convert`. What is not converted is `none`, and then an error is printed. -/
def imageConvert : Option (List (Transfer Place UInt8)) :=
  if dst.color = src.color then some (imageCopy dst src).1
  else
    match dst.color, src.color with
    | .bgr, .uyvy => some (bgrFromPacked px dst src 1 3 0 2)
    | .bgr, .yuy2 => some (bgrFromPacked px dst src 0 2 1 3)
    | .bgr, .nv12 => some (bgrFromNv12 px dst src)
    | .uyvy, .nv12 => some (uyvyFromNv12 dst src)
    | .bgr, .yu24 => some (bgrFromPlanar px dst src 1 2)
    | .bgr, .yv24 => some (bgrFromPlanar px dst src 2 1)
    | .uyvy, .yu24 => some (uyvyFromPlanar dst src 1 2)
    | .uyvy, .yv24 => some (uyvyFromPlanar dst src 2 1)
    | .bgr, .y800 => some (bgrFromY800 px dst src)
    | .bgr, .rgb => some (bgrFromRgb dst src)
    | .uyvy, .rgb => some (uyvyFromRgb px dst src 0 1 2)
    | .nv12, .rgb => some (nv12FromRgb px dst src)
    | .uyvy, .bgr => some (uyvyFromRgb px dst src 2 1 0)
    | .nv12, .bgr => some (nv12FromBgr px dst src)
    | .iyuv, .bgr => some (planarFromBgr px dst src 1 2)
    | .yv12, .bgr => some (planarFromBgr px dst src 2 1)
    | .yu24, .nv12 => some (planarFromNv12 dst src 1 2)
    | .yv24, .nv12 => some (planarFromNv12 dst src 2 1)
    | .rgbp, .yu24 => some (rgbpFromPlanar px dst src 1 2)
    | .rgbp, .yv24 => some (rgbpFromPlanar px dst src 2 1)
    | .uyvy, .y800 => some (uyvyFromY800 dst src)
    | _, _ => none

end Convert

end DVP.Sosal
