import DVP.Lib.Arm.Rules

/-!
# Pixel routines

The code of routines of `libraries/public/yuv`, with the names the `.req` lines give to registers.
Each of them goes through the lines of an image, and through a line in groups of 16 pixels. The
macros of `yuv.inc` are lists of instructions.
-/

namespace DVP.Yuv

open Arm Instr

/-- The registers from `r0` to `r10`. -/
def r0ToR10 : List Reg := [.r0, .r1, .r2, .r3, .r4, .r5, .r6, .r7, .r8, .r9, .r10]

/-- The registers from `r0` to `r12`. -/
def r0ToR12 : List Reg := r0ToR10 ++ [.r11, .r12]

/-- `L2_LINE_SIZE`. -/
def l2LineSize : Word := 32

/-- `preload_L2_1x256bytes`. -/
def preloadL21x256bytes (address : Reg) : List Instr :=
  [pld address (.imm (l2LineSize * 0)), pld address (.imm (l2LineSize * 1)),
    pld address (.imm (l2LineSize * 2)), pld address (.imm (l2LineSize * 3))]

/-- `FILL_YCBCR_TO_RGB_BT601`. -/
def fillYcbcrToRgbBt601 (yk gk2 gk1 rk bk : Fin 16) (coff yoff : Fin 32) : List Instr :=
  [vmov_i16 yk 74, vmov_i16 gk2 25, vmov_i16 gk1 52, vmov_i16 rk 102, vmov_i16 bk 129,
    vmov_u8 coff 128, vmov_u8 yoff 16]

/-- The instructions from `vsubl.u8` to `vzip.8` that turn the pixels of UYVY data in `d0` to `d3`
into the bytes of the three colours. -/
def ycbcrToRgb : List Instr :=
  [vsubl_u8 2 1 20, vsubl_u8 3 3 20, vsubl_u8 0 0 21, vsubl_u8 1 2 21,
    vmul_s16 4 2 15, vmla_s16 4 1 12, vmul_s16 5 3 15, vmla_s16 5 1 12,
    vmul_s16 6 2 15, vmls_s16 6 1 13, vmls_s16 6 0 14,
    vmul_s16 7 3 15, vmls_s16 7 1 13, vmls_s16 7 0 14,
    vmul_s16 8 2 15, vmla_s16 8 0 11, vmul_s16 9 3 15, vmla_s16 9 0 11,
    vqshrun_s16 0 8 6, vqshrun_s16 3 9 6, vqshrun_s16 1 6 6, vqshrun_s16 4 7 6,
    vqshrun_s16 2 4 6, vqshrun_s16 5 5 6,
    vzip_8 0 3, vzip_8 1 4, vzip_8 2 5]

/-- The stores of the bytes after it. -/
def storeRgb (pR pG pB : Reg) : List Instr :=
  [vst1_8 0 pB .next, vst1_8 3 pB .next, vst1_8 1 pG .next, vst1_8 4 pG .next,
    vst1_8 2 pR .next, vst1_8 5 pR .next]

/-! ## `__uyvy_to_rgbp_image_bt601` -/

namespace UyvyToRgbp

/-- The width in pixels. -/
abbrev width : Reg := .r0

/-- The number of lines. -/
abbrev height : Reg := .r1

/-- Where the source is read. -/
abbrev pSrc : Reg := .r2

/-- From a line of the source to the next one. -/
abbrev srcStride : Reg := .r3

/-- From the end of a line of the source to the next line. -/
abbrev srcStep : Reg := .r3

/-- Where red is written. -/
abbrev pR : Reg := .r4

/-- Where green is written. -/
abbrev pG : Reg := .r5

/-- Where blue is written. -/
abbrev pB : Reg := .r6

/-- From a line of the destination to the next one. -/
abbrev dstStride : Reg := .r7

/-- From the end of a line of the destination to the next line. -/
abbrev dstStep : Reg := .r7

/-- The lines that are left. -/
abbrev linesLeft : Reg := .r8

/-- The pixels of the line that are left. -/
abbrev pixelsLeft : Reg := .r9

/-- A register for what lies between. -/
abbrev tmp : Reg := .r10

/-- Before the lines: the arguments from the stack, and the steps. -/
def entry : List Instr :=
  [ldrSp pR 14, ldrSp pG 15, ldrSp pB 16, ldrSp dstStride 17,
    add tmp width (.reg width), sub srcStep srcStride (.reg tmp), sub dstStep dstStride (.reg width),
    mov linesLeft (.reg height)] ++
  fillYcbcrToRgbBt601 15 14 13 12 11 21 20

/-- Before the pixels of a line. -/
def start : List Instr := [mov pixelsLeft (.reg width)]

/-- A group of 16 pixels. -/
def pixels : List Instr :=
  preloadL21x256bytes pSrc ++ [vld4_8 0 1 2 3 pSrc .next] ++ ycbcrToRgb ++ storeRgb pR pG pB ++
  [subs pixelsLeft pixelsLeft (.imm 16)]

/-- After the pixels of a line. -/
def lineEnd : List Instr :=
  [add pSrc pSrc (.reg srcStep), add pR pR (.reg dstStep), add pG pG (.reg dstStep),
    add pB pB (.reg dstStep), subs linesLeft linesLeft (.imm 1)]

end UyvyToRgbp

/-- `__uyvy_to_rgbp_image_bt601`. -/
def uyvyToRgbpImageBt601 : Code :=
  routine r0ToR12 (.seq (.block UyvyToRgbp.entry)
    (lines UyvyToRgbp.start UyvyToRgbp.pixels UyvyToRgbp.lineEnd .gt))

/-! ## `__uyvy_luma_extract` -/

namespace LumaExtract

/-- The width in pixels. -/
abbrev width : Reg := .r0

/-- The number of lines. -/
abbrev height : Reg := .r1

/-- Where the source is read. -/
abbrev pYUV : Reg := .r2

/-- From a line of the source to the next one. -/
abbrev srcStride : Reg := .r3

/-- Where luma is. -/
abbrev pY : Reg := .r4

/-- From a line of the destination to the next one. -/
abbrev dstStride : Reg := .r5

/-- The lines that are left. -/
abbrev linesLeft : Reg := .r6

/-- From the end of a line of the source to the next line. -/
abbrev srcStep : Reg := .r7

/-- From the end of a line of the destination to the next line. -/
abbrev dstStep : Reg := .r8

/-- A register for what lies between. -/
abbrev tmp : Reg := .r9

/-- The pixels of the line that are left. -/
abbrev pixelsLeft : Reg := .r10

/-- Before the lines: the arguments from the stack, and the steps. -/
def entry : List Instr :=
  [ldrSp pY 12, ldrSp dstStride 13, mov linesLeft (.reg height), add tmp width (.reg width),
    sub srcStep srcStride (.reg tmp), sub dstStep dstStride (.reg width)]

/-- Before the pixels of a line. -/
def start : List Instr :=
  [mov pixelsLeft (.reg width), pld pYUV (.imm 0), pld pYUV (.reg srcStride)]

/-- A group of 16 pixels. -/
def pixels : List Instr :=
  [pld pYUV (.imm l2LineSize), add tmp pYUV (.reg srcStride), pld tmp (.imm l2LineSize),
    vld4_8 0 1 2 3 pYUV .next, vst2_8 1 3 pY .next, subs pixelsLeft pixelsLeft (.imm 16)]

/-- After the pixels of a line. -/
def lineEnd : List Instr :=
  [add pYUV pYUV (.reg srcStep), add pY pY (.reg dstStep), subs linesLeft linesLeft (.imm 1)]

end LumaExtract

/-- `__uyvy_luma_extract`. -/
def uyvyLumaExtract : Code :=
  routine r0ToR10 (.seq (.block LumaExtract.entry)
    (lines LumaExtract.start LumaExtract.pixels LumaExtract.lineEnd .gt))

/-! ## `__uyvy_to_yuv444p_image` -/

namespace UyvyToYuv444p

/-- The width in pixels. -/
abbrev width : Reg := .r0

/-- The lines that are left. -/
abbrev linesLeft : Reg := .r1

/-- Where the source is read. -/
abbrev pYUV : Reg := .r2

/-- From a line of the source to the next one. -/
abbrev srcStride : Reg := .r3

/-- From the end of a line of the source to the next line. -/
abbrev srcStep : Reg := .r3

/-- Where luma is. -/
abbrev pY : Reg := .r4

/-- Where U is written. -/
abbrev pU : Reg := .r5

/-- Where V is written. -/
abbrev pV : Reg := .r6

/-- From a line of the destination to the next one. -/
abbrev dstStride : Reg := .r7

/-- From the end of a line of the destination to the next line. -/
abbrev dstStep : Reg := .r7

/-- The pixels of the line that are left. -/
abbrev pixelsLeft : Reg := .r8

/-- A register for what lies between. -/
abbrev tmp : Reg := .r9

/-- Before the lines: the arguments from the stack, and the steps. -/
def entry : List Instr :=
  [ldrSp pY 14, ldrSp pU 15, ldrSp pV 16, ldrSp dstStride 17, add tmp width (.reg width),
    sub dstStep dstStride (.reg width), sub srcStep srcStride (.reg tmp)]

/-- Before the pixels of a line. -/
def start : List Instr := [mov pixelsLeft (.reg width)]

/-- A group of 16 pixels. -/
def pixels : List Instr :=
  [pld pYUV (.imm l2LineSize), vld4_8 0 1 2 3 pYUV .next, vst2_8 1 3 pY .next,
    vmov 1 0, vst2_8 0 1 pU .next, vmov 3 2, vst2_8 2 3 pV .next,
    subs pixelsLeft pixelsLeft (.imm 16)]

/-- After the pixels of a line. -/
def lineEnd : List Instr :=
  [add pYUV pYUV (.reg srcStep), add pY pY (.reg dstStep), add pU pU (.reg dstStep),
    add pV pV (.reg dstStep), subs linesLeft linesLeft (.imm 1)]

end UyvyToYuv444p

/-- `__uyvy_to_yuv444p_image`. -/
def uyvyToYuv444pImage : Code :=
  routine r0ToR12 (.seq (.block UyvyToYuv444p.entry)
    (lines UyvyToYuv444p.start UyvyToYuv444p.pixels UyvyToYuv444p.lineEnd .gt))

/-! ## `__uyvy_to_rgbp_luma_yuv444p_image` -/

namespace UyvyToRgbpLumaYuv444p

/-- The width in pixels. -/
abbrev width : Reg := .r0

/-- The number of lines. -/
abbrev height : Reg := .r1

/-- Where the UYVY data are. -/
abbrev pUYVY : Reg := .r2

/-- From a line of the source to the next one. -/
abbrev srcStride : Reg := .r3

/-- From the end of a line of the source to the next line. -/
abbrev srcStep : Reg := .r3

/-- Where red is written. -/
abbrev pR : Reg := .r4

/-- Where green is written. -/
abbrev pG : Reg := .r5

/-- Where blue is written. -/
abbrev pB : Reg := .r6

/-- Where the luma image is written. -/
abbrev pL : Reg := .r7

/-- Where luma is. -/
abbrev pY : Reg := .r8

/-- Where U is written. -/
abbrev pU : Reg := .r9

/-- Where V is written. -/
abbrev pV : Reg := .r10

/-- A register for what lies between. -/
abbrev tmp : Reg := .r11

/-- The pixels of the line that are left. -/
abbrev pixelsLeft : Reg := .r12

/-- Before the lines: the arguments from the stack, and the steps. -/
def entry : List Instr :=
  [ldrSp pR 14, ldrSp pG 15, ldrSp pB 16, ldrSp pL 17, ldrSp pY 18, ldrSp pU 19, ldrSp pV 20,
    add tmp width (.reg width), sub srcStep srcStride (.reg tmp)] ++
  fillYcbcrToRgbBt601 15 14 13 12 11 21 20

/-- Before the pixels of a line. -/
def start : List Instr := [mov pixelsLeft (.reg width)]

/-- A group of 16 pixels. -/
def pixels : List Instr :=
  [vld4_8 0 1 2 3 pUYVY .next, vst2_8 1 3 pL .next, vst2_8 1 3 pY .next, vmov 5 0, vmov 4 0,
    vst2_8 4 5 pU .next, vmov 4 2, vst2_8 2 4 pV .next] ++ ycbcrToRgb ++ storeRgb pR pG pB ++
  [subs pixelsLeft pixelsLeft (.imm 16)]

/-- After the pixels of a line. -/
def lineEnd : List Instr :=
  [add pUYVY pUYVY (.reg srcStep), subs height height (.imm 1)]

end UyvyToRgbpLumaYuv444p

/-- `__uyvy_to_rgbp_luma_yuv444p_image`. -/
def uyvyToRgbpLumaYuv444pImage : Code :=
  routine r0ToR12 (.seq (.block UyvyToRgbpLumaYuv444p.entry)
    (lines UyvyToRgbpLumaYuv444p.start UyvyToRgbpLumaYuv444p.pixels UyvyToRgbpLumaYuv444p.lineEnd .gt))

/-! ## `__luma_to_uyvy_image` -/

namespace LumaToUyvy

/-- The width in pixels. -/
abbrev width : Reg := .r0

/-- The number of lines. -/
abbrev height : Reg := .r1

/-- Where luma is. -/
abbrev pY : Reg := .r2

/-- From a line of the source to the next one. -/
abbrev srcStride : Reg := .r3

/-- Where the UYVY data are. -/
abbrev pUYVY : Reg := .r4

/-- From a line of the destination to the next one. -/
abbrev dstStride : Reg := .r5

/-- The lines that are left. -/
abbrev linesLeft : Reg := .r6

/-- From the end of a line of the source to the next line. -/
abbrev srcStep : Reg := .r7

/-- From the end of a line of the destination to the next line. -/
abbrev dstStep : Reg := .r8

/-- A register for what lies between. -/
abbrev tmp : Reg := .r9

/-- The pixels of the line that are left. -/
abbrev pixelsLeft : Reg := .r10

/-- Before the lines: the arguments from the stack, and the steps. -/
def entry : List Instr :=
  [ldrSp pUYVY 12, ldrSp dstStride 13, mov linesLeft (.reg height), add tmp width (.reg width),
    sub srcStep srcStride (.reg width), sub dstStep dstStride (.reg tmp), vmov_i16 2 0x0080]

/-- Before the pixels of a line. -/
def start : List Instr :=
  [mov pixelsLeft (.reg width), pld pY (.imm 0), pld pY (.reg srcStride)]

/-- A group of 16 pixels. -/
def pixels : List Instr :=
  [pld pY (.imm l2LineSize), add tmp pY (.reg srcStride), pld tmp (.imm l2LineSize),
    vld1_8 0 pY .next, vld1_8 1 pY .next, vshll_u16 1 1 8, vshll_u16 0 0 8, vorr 1 1 2, vorr 0 0 2,
    vst1_8 0 pUYVY .next, vst1_8 1 pUYVY .next, vst1_8 2 pUYVY .next, vst1_8 3 pUYVY .next,
    subs pixelsLeft pixelsLeft (.imm 16)]

/-- After the pixels of a line. -/
def lineEnd : List Instr :=
  [add pY pY (.reg srcStep), add pUYVY pUYVY (.reg dstStep), subs linesLeft linesLeft (.imm 1)]

end LumaToUyvy

/-- `__luma_to_uyvy_image`. -/
def lumaToUyvyImage : Code :=
  routine r0ToR10 (.seq (.block LumaToUyvy.entry)
    (lines LumaToUyvy.start LumaToUyvy.pixels LumaToUyvy.lineEnd .gt))

end DVP.Yuv
