import DVP.Kgraph.ImageBuffer
import DVP.Lib.Windows
import DVP.Yuv.Conversions

/-!
# The kernels of the CPU manager

`DVP_KernelGraphManager_CPU` of `source/dvp/dvp_kgm_cpu/dvp_kgm_cpu.c` with the kernels that are
fused if it is built with `DVP_OPTIMIZED_KERNELS`. Three nodes in a row that convert UYVY data to
RGB, to luma and to YUV444 are one kernel then, in any of the six orders. There is code for two of
the six kernels, and the others come to the default case.

The other kernels are a parameter. What a call of a pixel routine does to the memory is what
`Calls` says of its code. The place of the first node and the number of nodes are `DVP_U32` in the source, and the
end of the section is their sum: the sections here are those with `startNode + numNodes < 2 ^ 32`.
-/

namespace DVP.Kgm.Cpu

open Arm Yuv Kgraph Windows

/-- The kernels a node can have. -/
inductive Kernel
  | noop
  | uyvyToRgbp
  | yuvUyvyToRgbp
  | xyxyToY800
  | yuvXyxyToY800
  | uyvyToYuv444p
  | yuvUyvyToYuv444p
  | other (kernel : BitVec 32)
  deriving DecidableEq

/-- `DVP_OptimizedKernels_e`. -/
inductive OptimizedKernel
  | uyvyToRgbpLumaYuv444p
  | uyvyToRgbpYuv444pLuma
  | uyvyToYuv444pLumaRgbp
  | uyvyToYuv444pRgbpLuma
  | uyvyToLumaYuv444pRgbp
  | uyvyToLumaRgbpYuv444p
  deriving DecidableEq

/-- `DVP_OptimizedKernels_t`. -/
structure OptimizedKernels where
  optkernel : OptimizedKernel
  kernels : List Kernel

/-- `optkerns`, in the order of the source. -/
def optkerns : List OptimizedKernels :=
  [⟨.uyvyToRgbpLumaYuv444p, [.uyvyToRgbp, .xyxyToY800, .uyvyToYuv444p]⟩,
    ⟨.uyvyToRgbpYuv444pLuma, [.uyvyToRgbp, .uyvyToYuv444p, .xyxyToY800]⟩,
    ⟨.uyvyToYuv444pLumaRgbp, [.uyvyToYuv444p, .xyxyToY800, .uyvyToRgbp]⟩,
    ⟨.uyvyToYuv444pRgbpLuma, [.uyvyToYuv444p, .uyvyToRgbp, .xyxyToY800]⟩,
    ⟨.uyvyToLumaYuv444pRgbp, [.xyxyToY800, .uyvyToYuv444p, .uyvyToRgbp]⟩,
    ⟨.uyvyToLumaRgbpYuv444p, [.xyxyToY800, .uyvyToRgbp, .uyvyToYuv444p]⟩]

/-- The fields of an image that the kernels use, with the addresses of its planes. -/
structure Image where
  width : Word
  height : Word
  yStride : Word
  color : BitVec 32
  pData : Fin 3 → Word

/-- `DVP_Transform_t`. -/
structure Transform where
  input : Image
  output : Image

/-- The fields of `DVP_KernelNode_t` that the manager reads. -/
structure Node where
  kernel : Kernel
  transform : Transform

/-- `DVP_SUCCESS`. -/
def success : Int := 1

/-- `DVP_ERROR_INVALID_PARAMETER`. -/
def errorInvalidParameter : Int := -8

/-- What the code of a kernel does: to the memory, to `processed`, and to the error of the node. -/
structure Outcome where
  mem : Memory
  processed : Int
  error : Int

/-- The state of the manager. -/
structure Run where
  mem : Memory
  error : Nat → Int
  processed : Int

/-! ## Calls of the routines -/

/-- The arguments for the conversion to RGBp. -/
def rgbpArgs (pT : Transform) : RgbpArgs :=
  { width := pT.input.width, height := pT.input.height, pSrc := pT.input.pData 0
    srcStride := pT.input.yStride, pR := pT.output.pData 0, pG := pT.output.pData 1
    pB := pT.output.pData 2, dstStride := pT.output.yStride }

/-- The arguments for the extraction of luma. -/
def lumaArgs (pT : Transform) : LumaArgs :=
  { width := pT.input.width, height := pT.input.height, pYUV := pT.input.pData 0
    srcStride := pT.input.yStride, pY := pT.output.pData 0, dstStride := pT.output.yStride }

/-- The arguments for the conversion to YUV444p. The planes of a YV24 image are in the order Y, V, U. -/
def yuv444pArgs (pT : Transform) : Yuv444pArgs :=
  let swapped := pT.output.color = fourccYv24
  { width := pT.input.width, height := pT.input.height, pYUV := pT.input.pData 0
    srcStride := pT.input.yStride, pY := pT.output.pData 0
    pU := if swapped then pT.output.pData 2 else pT.output.pData 1
    pV := if swapped then pT.output.pData 1 else pT.output.pData 2
    dstStride := pT.output.yStride }

/-- The arguments for the three together, which take the planes as they come. -/
def fusedArgs (pUYVY pRGB pLuma pYUV444p : Image) : FusedArgs :=
  { width := pUYVY.width, height := pUYVY.height, pUYVY := pUYVY.pData 0
    srcStride := pUYVY.yStride, pR := pRGB.pData 0, pG := pRGB.pData 1, pB := pRGB.pData 2
    pL := pLuma.pData 0, pY := pYUV444p.pData 0, pU := pYUV444p.pData 1, pV := pYUV444p.pData 2 }

/-! ## The manager -/

section Manager

variable (opts : List OptimizedKernels) (rest : BitVec 32 → Nat → Memory → Outcome)
  (pSubNodes : Nat → Node) (numNodes : Nat)

/-- The kernels of a chain from the second one on are those of the nodes from `k` on. The place of a
node is compared with the number of the nodes. -/
def chainFrom : List Kernel → Nat → Bool
  | [], _ => true
  | kernel :: kernels, k =>
    decide (k < numNodes) && (pSubNodes k).kernel == kernel && chainFrom kernels (k + 1)

/-- The chain starts at the node `n`. -/
def chainAt (n : Nat) : List Kernel → Bool
  | [] => false
  | kernel :: kernels => kernel == (pSubNodes n).kernel && chainFrom pSubNodes numNodes kernels (n + 1)

/-- The first optimized kernel that matches. -/
def optimized (n : Nat) : Option OptimizedKernels :=
  opts.find? fun o => chainAt pSubNodes numNodes n o.kernels

/-- The code of a kernel for the node `n`. -/
def switch (n : Nat) (m : Memory) : Outcome :=
  let pT := (pSubNodes n).transform
  match (pSubNodes n).kernel with
  | .noop => ⟨m, 0, success⟩
  | .uyvyToRgbp | .yuvUyvyToRgbp =>
    if pT.input.color = fourccUyvy ∧ pT.output.color = fourccRgbp then
      ⟨(UyvyToRgbp.walk (rgbpArgs pT)).image m, 0, success⟩
    else ⟨m, 0, success⟩
  | .xyxyToY800 | .yuvXyxyToY800 =>
    if pT.input.color = fourccUyvy then
      ⟨(LumaExtract.walk (lumaArgs pT)).image m, 0, success⟩
    else ⟨m, 0, success⟩
  | .uyvyToYuv444p | .yuvUyvyToYuv444p =>
    if pT.input.color = fourccUyvy ∧
        (pT.output.color = fourccYv24 ∨ pT.output.color = fourccYu24) then
      ⟨(UyvyToYuv444p.walk (yuv444pArgs pT)).image m, 0, success⟩
    else ⟨m, 0, success⟩
  | .other kernel => rest kernel n m

/-- The code of an optimized kernel whose last node is `n`. -/
def switchOptimized (n : Nat) (m : Memory) : OptimizedKernel → Outcome
  | .uyvyToRgbpLumaYuv444p =>
    let args := fusedArgs (pSubNodes (n - 2)).transform.input (pSubNodes (n - 2)).transform.output
      (pSubNodes (n - 1)).transform.output (pSubNodes n).transform.output
    ⟨(UyvyToRgbpLumaYuv444p.walk args).image m, 2, success⟩
  | .uyvyToYuv444pLumaRgbp =>
    let args := fusedArgs (pSubNodes (n - 2)).transform.input (pSubNodes n).transform.output
      (pSubNodes (n - 1)).transform.output (pSubNodes (n - 2)).transform.output
    ⟨(UyvyToRgbpLumaYuv444p.walk args).image m, 2, success⟩
  | _ => ⟨m, -1, errorInvalidParameter⟩

/-- A kernel is counted after its code. -/
def Run.record (s : Run) (n : Nat) (o : Outcome) : Run :=
  { mem := o.mem
    error := fun k => if k = n then o.error else s.error k
    processed := s.processed + o.processed + 1 }

/-- `DVP_KernelGraphManager_CPU` from the node `n` on. -/
def kernelGraphManagerCpu (stop : Nat) : Nat → Nat → Run → Run
  | 0, _, s => s
  | fuel + 1, n, s =>
    if n < stop then
      match optimized opts pSubNodes numNodes n with
      | some o =>
        let n := n + (o.kernels.length - 1)
        kernelGraphManagerCpu stop fuel (n + 1)
          (s.record n (switchOptimized pSubNodes n s.mem o.optkernel))
      | none =>
        kernelGraphManagerCpu stop fuel (n + 1) (s.record n (switch rest pSubNodes n s.mem))
    else s

/-- `DVP_KernelGraphManager_CPU`, for `startNode + numNodes < 2 ^ 32`. -/
def manage (startNode : Nat) (s : Run) : Run :=
  kernelGraphManagerCpu opts rest pSubNodes numNodes (startNode + numNodes) numNodes startNode s

/-! ## Windows of nodes -/

/-- How many nodes are taken together at the node `n`. -/
def window (n : Nat) : Nat :=
  match optimized opts pSubNodes numNodes n with
  | some o => o.kernels.length
  | none => 1

/-- The nodes where the manager starts to take nodes, for `startNode + numNodes < 2 ^ 32`. -/
def windows (startNode : Nat) : List Nat :=
  starts (window opts pSubNodes numNodes) (startNode + numNodes) numNodes startNode

/-- What is done with the nodes that are taken together. -/
def visit (s : Run) (n : Nat) : Run :=
  match optimized opts pSubNodes numNodes n with
  | some o =>
    let n := n + (o.kernels.length - 1)
    s.record n (switchOptimized pSubNodes n s.mem o.optkernel)
  | none => s.record n (switch rest pSubNodes n s.mem)

end Manager

variable {opts : List OptimizedKernels} {rest : BitVec 32 → Nat → Memory → Outcome}
  {pSubNodes : Nat → Node} {numNodes startNode n k : Nat} {s : Run} {o : OptimizedKernels}

/-- A chain has three kernels. -/
theorem length_kernels (h : o ∈ optkerns) : o.kernels.length = 3 := by
  revert o
  decide

/-- A chain that is found is at the nodes from `n` on, the last of which is in the section. -/
structure Found (pSubNodes : Nat → Node) (numNodes n : Nat) (o : OptimizedKernels) : Prop where
  mem : o ∈ optkerns
  lt : n + 2 < numNodes
  kernels : o.kernels = [(pSubNodes n).kernel, (pSubNodes (n + 1)).kernel, (pSubNodes (n + 2)).kernel]

/-- A chain of three is found by the kernels of three nodes of the section. -/
theorem chainAt_three {a b c : Kernel} : chainAt pSubNodes numNodes n [a, b, c] = true ↔
    n + 2 < numNodes ∧
      [a, b, c] = [(pSubNodes n).kernel, (pSubNodes (n + 1)).kernel, (pSubNodes (n + 2)).kernel] := by
  simp only [chainAt, chainFrom, Bool.and_eq_true, beq_iff_eq, decide_eq_true_eq, and_true,
    List.cons.injEq]
  constructor
  · rintro ⟨rfl, ⟨-, rfl⟩, hlt, rfl⟩
    exact ⟨hlt, rfl, rfl, rfl⟩
  · rintro ⟨hlt, rfl, rfl, rfl⟩
    exact ⟨rfl, ⟨Nat.lt_of_succ_lt hlt, rfl⟩, hlt, rfl⟩

/-- The search for a chain finds it where it is. -/
theorem chainAt_iff (h : o ∈ optkerns) :
    chainAt pSubNodes numNodes n o.kernels = true ↔ Found pSubNodes numNodes n o := by
  obtain ⟨a, b, c, habc⟩ := List.length_eq_three.mp (length_kernels h)
  rw [habc, chainAt_three]
  constructor
  · rintro ⟨hlt, hkernels⟩
    exact ⟨h, hlt, habc.trans hkernels⟩
  · intro hfound
    exact ⟨hfound.lt, habc.symm.trans hfound.kernels⟩

/-- What is found is there. -/
theorem found_of_optimized (h : optimized optkerns pSubNodes numNodes n = some o) :
    Found pSubNodes numNodes n o := by
  unfold optimized at h
  have hchain := List.find?_some h
  exact (chainAt_iff (List.mem_of_find?_eq_some h)).mp hchain

/-- Where nothing is found there is no chain. -/
theorem not_found_of_optimized (h : optimized optkerns pSubNodes numNodes n = none) :
    ¬Found pSubNodes numNodes n o := by
  intro hfound
  exact List.find?_eq_none.mp h o hfound.mem ((chainAt_iff hfound.mem).mpr hfound)

/-- Three nodes are taken where a chain is found. -/
theorem window_of_some (h : optimized optkerns pSubNodes numNodes n = some o) :
    window optkerns pSubNodes numNodes n = 3 := by
  rw [window, h]
  exact length_kernels (found_of_optimized h).mem

/-- Elsewhere one node is taken. -/
theorem window_of_none (h : optimized opts pSubNodes numNodes n = none) :
    window opts pSubNodes numNodes n = 1 := by
  rw [window, h]

/-- The nodes that are taken together are in the section. -/
theorem fits_window : Fits (window optkerns pSubNodes numNodes) (startNode + numNodes) where
  pos n := by
    cases h : optimized optkerns pSubNodes numNodes n with
    | none =>
      rw [window_of_none h]
      exact Nat.one_pos
    | some o =>
      rw [window_of_some h]
      exact Nat.succ_pos 2
  le n hn := by
    cases h : optimized optkerns pSubNodes numNodes n with
    | none =>
      rw [window_of_none h]
      exact hn
    | some o =>
      have hlt := (found_of_optimized h).lt
      rw [window_of_some h]
      omega

/-- The manager visits its windows. -/
theorem kernelGraphManagerCpu_eq (hopts : ∀ o ∈ opts, 0 < o.kernels.length) {stop fuel : Nat} :
    kernelGraphManagerCpu opts rest pSubNodes numNodes stop fuel n s =
      (starts (window opts pSubNodes numNodes) stop fuel n).foldl
        (visit opts rest pSubNodes numNodes) s := by
  induction fuel generalizing n s with
  | zero => rfl
  | succ fuel ih =>
    rw [kernelGraphManagerCpu, starts]
    split
    case isFalse => rfl
    case isTrue hn =>
      rw [List.foldl_cons, visit, window]
      cases h : optimized opts pSubNodes numNodes n with
      | none => exact ih
      | some o =>
        have hpos := hopts o (List.mem_of_find?_eq_some h)
        have hnext : n + (o.kernels.length - 1) + 1 = n + o.kernels.length := by omega
        simp only
        rw [ih, hnext]

/-- The manager visits the windows of its section. -/
theorem manage_eq : manage optkerns rest pSubNodes numNodes startNode s =
    (windows optkerns pSubNodes numNodes startNode).foldl
      (visit optkerns rest pSubNodes numNodes) s :=
  kernelGraphManagerCpu_eq fun o ho => by
    rw [length_kernels ho]
    exact Nat.succ_pos 2

/-- The windows are the nodes of the section, each once and in order. -/
theorem flatMap_windows : (windows optkerns pSubNodes numNodes startNode).flatMap
    (places (window optkerns pSubNodes numNodes)) = List.range' startNode numNodes := by
  refine (fits_window.flatMap_starts (Nat.le_add_right _ _) le_rfl).trans ?_
  rw [Nat.add_sub_cancel_left]

/-- The manager takes every node of the section once and in order, alone or in a chain of three that
is one of the optimized ones, and no node alone from which it could take a chain. The sections are those with
`startNode + numNodes < 2 ^ 32`. -/
theorem windows_tile :
    (windows optkerns pSubNodes numNodes startNode).flatMap
        (places (window optkerns pSubNodes numNodes)) = List.range' startNode numNodes ∧
      ∀ n ∈ windows optkerns pSubNodes numNodes startNode,
        (∃ o, Found pSubNodes numNodes n o ∧ window optkerns pSubNodes numNodes n = 3) ∨
          (∀ o, ¬Found pSubNodes numNodes n o) ∧ window optkerns pSubNodes numNodes n = 1 := by
  constructor
  · exact flatMap_windows
  · intro n _
    cases h : optimized optkerns pSubNodes numNodes n with
    | none => exact Or.inr ⟨fun o => not_found_of_optimized h, window_of_none h⟩
    | some o => exact Or.inl ⟨o, found_of_optimized h, window_of_some h⟩

/-! ## The optimized kernels and the plain ones -/

/-- Three nodes with one UYVY image as the input, whose outputs are RGBp, luma and YU24 planes with lines that follow
one another. With a YV24 output the kernel of a node alone exchanges the planes of U and V, and the optimized one does
not. -/
structure Fusable (rgb luma yuv : Transform) : Prop where
  luma_input : luma.input = rgb.input
  yuv_input : yuv.input = rgb.input
  color : rgb.input.color = fourccUyvy
  rgb_color : rgb.output.color = fourccRgbp
  yuv_color : yuv.output.color = fourccYu24
  rgb_stride : rgb.output.yStride = rgb.input.width
  luma_stride : luma.output.yStride = rgb.input.width
  yuv_stride : yuv.output.yStride = rgb.input.width
  apart : (fusedArgs rgb.input rgb.output luma.output yuv.output).picture.Apart

namespace Fusable

variable {rgb luma yuv : Transform}

/-- The conversion to RGBp gets the same planes. -/
theorem rgbp_eq (h : Fusable rgb luma yuv) :
    rgbpArgs rgb = (fusedArgs rgb.input rgb.output luma.output yuv.output).rgbp := by
  simp only [rgbpArgs, FusedArgs.rgbp, fusedArgs, h.rgb_stride]

/-- The extraction of luma gets the same planes. -/
theorem luma_eq (h : Fusable rgb luma yuv) :
    lumaArgs luma = (fusedArgs rgb.input rgb.output luma.output yuv.output).luma := by
  simp only [lumaArgs, FusedArgs.luma, fusedArgs, h.luma_input, h.luma_stride]

/-- The conversion to YUV444p gets the same planes, as the output is YU24. -/
theorem yuv444p_eq (h : Fusable rgb luma yuv) :
    yuv444pArgs yuv = (fusedArgs rgb.input rgb.output luma.output yuv.output).yuv444p := by
  have hswapped : yuv.output.color ≠ fourccYv24 := by
    rw [h.yuv_color]
    decide
  simp only [yuv444pArgs, FusedArgs.yuv444p, fusedArgs, h.yuv_input, h.yuv_stride, if_neg hswapped]

end Fusable

/-- The nodes that are executed of those that are taken together: none of a chain that comes to the
default case. -/
def executed (pSubNodes : Nat → Node) (numNodes n : Nat) : List Nat :=
  match optimized optkerns pSubNodes numNodes n with
  | none => [n]
  | some o =>
    match o.optkernel with
    | .uyvyToRgbpLumaYuv444p | .uyvyToYuv444pLumaRgbp => [n, n + 1, n + 2]
    | _ => []

/-- The chains there is code for have nodes that can be fused. -/
def Fuses (pSubNodes : Nat → Node) (numNodes n : Nat) : Prop :=
  let pT k := (pSubNodes k).transform
  (Found pSubNodes numNodes n
      ⟨.uyvyToRgbpLumaYuv444p, [.uyvyToRgbp, .xyxyToY800, .uyvyToYuv444p]⟩ →
    Fusable (pT n) (pT (n + 1)) (pT (n + 2))) ∧
  (Found pSubNodes numNodes n
      ⟨.uyvyToYuv444pLumaRgbp, [.uyvyToYuv444p, .xyxyToY800, .uyvyToRgbp]⟩ →
    Fusable (pT (n + 2)) (pT (n + 1)) (pT n))

/-- Two runs have done the same, but for the errors of the nodes. -/
structure Agree (s t : Run) : Prop where
  mem : s.mem = t.mem
  processed : s.processed = t.processed

/-- A node alone. -/
def Run.single (rest : BitVec 32 → Nat → Memory → Outcome) (pSubNodes : Nat → Node) (t : Run)
    (n : Nat) : Run :=
  t.record n (switch rest pSubNodes n t.mem)

section Switch

variable {m : Memory}

theorem switch_rgbp (hkernel : (pSubNodes n).kernel = .uyvyToRgbp)
    (hin : (pSubNodes n).transform.input.color = fourccUyvy)
    (hout : (pSubNodes n).transform.output.color = fourccRgbp) :
    switch rest pSubNodes n m =
      ⟨(UyvyToRgbp.walk (rgbpArgs (pSubNodes n).transform)).image m, 0, success⟩ := by
  simp only [switch, hkernel]
  exact if_pos ⟨hin, hout⟩

/-- A node for luma runs its routine on UYVY data. -/
theorem switch_luma (hkernel : (pSubNodes n).kernel = .xyxyToY800)
    (hin : (pSubNodes n).transform.input.color = fourccUyvy) :
    switch rest pSubNodes n m =
      ⟨(LumaExtract.walk (lumaArgs (pSubNodes n).transform)).image m, 0, success⟩ := by
  simp only [switch, hkernel]
  exact if_pos hin

/-- A node for YUV444p runs its routine on UYVY data and a YU24 output. -/
theorem switch_yuv444p (hkernel : (pSubNodes n).kernel = .uyvyToYuv444p)
    (hin : (pSubNodes n).transform.input.color = fourccUyvy)
    (hout : (pSubNodes n).transform.output.color = fourccYu24) :
    switch rest pSubNodes n m =
      ⟨(UyvyToYuv444p.walk (yuv444pArgs (pSubNodes n).transform)).image m, 0, success⟩ := by
  simp only [switch, hkernel]
  exact if_pos ⟨hin, Or.inr hout⟩

end Switch

variable (rest) in
/-- Three nodes that are executed one after the other. -/
theorem mem_three {a b c : Nat} {t : Run} {m₁ m₂ m₃ : Memory}
    (h₁ : switch rest pSubNodes a t.mem = ⟨m₁, 0, success⟩)
    (h₂ : switch rest pSubNodes b m₁ = ⟨m₂, 0, success⟩)
    (h₃ : switch rest pSubNodes c m₂ = ⟨m₃, 0, success⟩) :
    ([a, b, c].foldl (Run.single rest pSubNodes) t).mem = m₃ ∧
      ([a, b, c].foldl (Run.single rest pSubNodes) t).processed = t.processed + 3 := by
  simp only [List.foldl_cons, List.foldl_nil, Run.single, Run.record, h₁, h₂, h₃]
  exact ⟨trivial, by omega⟩

variable {t : Run}

/-- The kernel for the first order does what the three nodes do, -/
theorem agree_rgbpLumaYuv444p
    (hfound : Found pSubNodes numNodes n
      ⟨.uyvyToRgbpLumaYuv444p, [.uyvyToRgbp, .xyxyToY800, .uyvyToYuv444p]⟩)
    (hfuses : Fuses pSubNodes numNodes n) (h : Agree s t) :
    Agree (s.record (n + 2) (switchOptimized pSubNodes (n + 2) s.mem .uyvyToRgbpLumaYuv444p))
      ([n, n + 1, n + 2].foldl (Run.single rest pSubNodes) t) := by
  have hf := hfuses.1 hfound
  have hkernels := hfound.kernels
  simp only [List.cons.injEq, and_true] at hkernels
  obtain ⟨hrgb, hluma, hyuv⟩ := hkernels
  have hcolor : (pSubNodes (n + 1)).transform.input.color = fourccUyvy := by
    rw [hf.luma_input, hf.color]
  have hcolor' : (pSubNodes (n + 2)).transform.input.color = fourccUyvy := by
    rw [hf.yuv_input, hf.color]
  obtain ⟨hmem, hprocessed⟩ := mem_three rest (t := t)
    (switch_rgbp hrgb.symm hf.color hf.rgb_color) (switch_luma hluma.symm hcolor)
    (switch_yuv444p hyuv.symm hcolor' hf.yuv_color)
  constructor
  · rw [hmem, hf.rgbp_eq, hf.luma_eq, hf.yuv444p_eq, ← FusedArgs.image_eq hf.apart, ← h.mem]
    rfl
  · rw [hprocessed, ← h.processed]
    exact Int.add_assoc s.processed 2 1

/-- and so does the one for the reverse order. -/
theorem agree_yuv444pLumaRgbp
    (hfound : Found pSubNodes numNodes n
      ⟨.uyvyToYuv444pLumaRgbp, [.uyvyToYuv444p, .xyxyToY800, .uyvyToRgbp]⟩)
    (hfuses : Fuses pSubNodes numNodes n) (h : Agree s t) :
    Agree (s.record (n + 2) (switchOptimized pSubNodes (n + 2) s.mem .uyvyToYuv444pLumaRgbp))
      ([n, n + 1, n + 2].foldl (Run.single rest pSubNodes) t) := by
  have hf := hfuses.2 hfound
  have hkernels := hfound.kernels
  simp only [List.cons.injEq, and_true] at hkernels
  obtain ⟨hyuv, hluma, hrgb⟩ := hkernels
  have hcolor : (pSubNodes (n + 1)).transform.input.color = fourccUyvy := by
    rw [hf.luma_input, hf.color]
  have hcolor' : (pSubNodes n).transform.input.color = fourccUyvy := by
    rw [hf.yuv_input, hf.color]
  obtain ⟨hmem, hprocessed⟩ := mem_three rest (t := t)
    (switch_yuv444p hyuv.symm hcolor' hf.yuv_color) (switch_luma hluma.symm hcolor)
    (switch_rgbp hrgb.symm hf.color hf.rgb_color)
  have hargs : fusedArgs (pSubNodes n).transform.input (pSubNodes (n + 2)).transform.output
      (pSubNodes (n + 1)).transform.output (pSubNodes n).transform.output =
      fusedArgs (pSubNodes (n + 2)).transform.input (pSubNodes (n + 2)).transform.output
        (pSubNodes (n + 1)).transform.output (pSubNodes n).transform.output := by
    rw [hf.yuv_input]
  constructor
  · rw [hmem, hf.rgbp_eq, hf.luma_eq, hf.yuv444p_eq, ← FusedArgs.image_eq_reverse hf.apart, ← h.mem,
      ← hargs]
    rfl
  · rw [hprocessed, ← h.processed]
    exact Int.add_assoc s.processed 2 1

/-- What is done with the nodes that are taken together is what the executed ones do. -/
theorem visit_agree (hfuses : Fuses pSubNodes numNodes n) (h : Agree s t) :
    Agree (visit optkerns rest pSubNodes numNodes s n)
      ((executed pSubNodes numNodes n).foldl (Run.single rest pSubNodes) t) := by
  rw [visit, executed]
  cases ho : optimized optkerns pSubNodes numNodes n with
  | none =>
    constructor
    · simp only [List.foldl_cons, List.foldl_nil, Run.single, Run.record, h.mem]
    · simp only [List.foldl_cons, List.foldl_nil, Run.single, Run.record, h.mem, h.processed]
  | some o =>
    have hfound := found_of_optimized ho
    have hskipped : ∀ k, Agree (s.record k ⟨s.mem, -1, errorInvalidParameter⟩) t := fun k =>
      ⟨h.mem, (Int.neg_add_cancel_right s.processed 1).trans h.processed⟩
    have hmem := hfound.mem
    simp only [optkerns, List.mem_cons, List.not_mem_nil, or_false] at hmem
    rcases hmem with rfl | rfl | rfl | rfl | rfl | rfl
    · exact agree_rgbpLumaYuv444p hfound hfuses h
    · exact hskipped _
    · exact agree_yuv444pLumaRgbp hfound hfuses h
    · exact hskipped _
    · exact hskipped _
    · exact hskipped _

/-- Without optimized kernels, the manager does the nodes one by one. -/
theorem manage_plain : manage [] rest pSubNodes numNodes startNode s =
    (List.range' startNode numNodes).foldl (Run.single rest pSubNodes) s := by
  have hone : window [] pSubNodes numNodes = fun _ => 1 := rfl
  have hfits : Fits (fun _ => 1) (startNode + numNodes) :=
    ⟨fun _ => Nat.one_pos, fun _ hn => hn⟩
  have htile := hfits.flatMap_starts (n := startNode) (Nat.le_add_right _ _) le_rfl
  rw [Nat.add_sub_cancel_left] at htile
  rw [manage, kernelGraphManagerCpu_eq (by simp), hone, ← htile, List.foldl_flatMap]
  rfl

/-- Built with the optimized kernels, the manager leaves the memory and returns the number that it
does without them from the nodes that are executed. If no chain is found that there is no code for,
these are all the nodes, and the manager does what the plain one does. -/
theorem manage_agrees
    (hfuses : ∀ n ∈ windows optkerns pSubNodes numNodes startNode, Fuses pSubNodes numNodes n) :
    Agree (manage optkerns rest pSubNodes numNodes startNode s)
        (((windows optkerns pSubNodes numNodes startNode).flatMap (executed pSubNodes numNodes)).foldl
          (Run.single rest pSubNodes) s) ∧
      ((∀ n ∈ windows optkerns pSubNodes numNodes startNode,
          executed pSubNodes numNodes n = places (window optkerns pSubNodes numNodes) n) →
        Agree (manage optkerns rest pSubNodes numNodes startNode s)
          (manage [] rest pSubNodes numNodes startNode s)) := by
  have hagree : Agree (manage optkerns rest pSubNodes numNodes startNode s)
      (((windows optkerns pSubNodes numNodes startNode).flatMap (executed pSubNodes numNodes)).foldl
        (Run.single rest pSubNodes) s) := by
    rw [manage_eq]
    exact foldl_windows (fun n hn _ _ h => visit_agree (hfuses n hn) h) ⟨rfl, rfl⟩
  refine ⟨hagree, fun hexecuted => ?_⟩
  rw [List.flatMap_congr hexecuted, flatMap_windows] at hagree
  rwa [manage_plain]

/-- An image of 32 pixels. -/
theorem manage_agrees_small : ∃ pSubNodes : Nat → Node,
    (∀ n ∈ windows optkerns pSubNodes 3 0, Fuses pSubNodes 3 n) ∧ ∀ rest s,
      Agree (manage optkerns rest pSubNodes 3 0 s)
          (((windows optkerns pSubNodes 3 0).flatMap (executed pSubNodes 3)).foldl
            (Run.single rest pSubNodes) s) ∧
        ((∀ n ∈ windows optkerns pSubNodes 3 0,
            executed pSubNodes 3 n = places (window optkerns pSubNodes 3) n) →
          Agree (manage optkerns rest pSubNodes 3 0 s) (manage [] rest pSubNodes 3 0 s)) := by
  let input : Image := ⟨16, 2, 32, fourccUyvy, fun _ => 0x1000⟩
  let rgb : Transform := ⟨input, 16, 2, 16, fourccRgbp, fun i => 0x2000 + 0x20 * BitVec.ofNat 32 i⟩
  let luma : Transform := ⟨input, 16, 2, 16, fourccY800, fun _ => 0x3000⟩
  let yuv : Transform := ⟨input, 16, 2, 16, fourccYu24, fun i => 0x4000 + 0x20 * BitVec.ofNat 32 i⟩
  let pSubNodes (n : Nat) : Node :=
    if n = 0 then ⟨.uyvyToRgbp, rgb⟩ else if n = 1 then ⟨.xyxyToY800, luma⟩
    else ⟨.uyvyToYuv444p, yuv⟩
  have hplaced : (fusedArgs input rgb.output luma.output yuv.output).picture.Placed :=
    ⟨by decide, by decide, by decide, by decide, by decide⟩
  have hfuses : ∀ n ∈ windows optkerns pSubNodes 3 0, Fuses pSubNodes 3 n := by
    intro n hn
    have hzero : n = 0 := List.mem_singleton.mp hn
    subst hzero
    refine ⟨fun _ => ⟨rfl, rfl, rfl, rfl, rfl, rfl, rfl, rfl, hplaced.apart_of⟩, fun hfound => ?_⟩
    cases hfound.kernels
  exact ⟨pSubNodes, hfuses, fun rest s => manage_agrees hfuses⟩

end DVP.Kgm.Cpu
