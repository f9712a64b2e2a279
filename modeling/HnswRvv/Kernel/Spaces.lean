import HnswRvv.Kernel.X86Distance

/-!
# The spaces for x86

The constructors of `L2Space` and `InnerProductSpace` set the global kernel pointers from what the
processor can do and choose a distance function by the residue of the dimension. The distance is
later called with whatever the pointers hold by then.
-/

namespace HnswRvv

open Framework

/-- The macros of a build; each implies those before it. -/
inductive X86Build where
  | noSIMD | sse | avx | avx512
  deriving DecidableEq, Repr

/-- `AVXCapable()` and `AVX512Capable()` -/
structure Processor where
  avxCapable : Bool
  avx512Capable : Bool
  deriving DecidableEq, Repr

/-- The variants that a pointer to a kernel for blocks of sixteen may hold. -/
inductive Simd16 where
  | sse | avx | avx512
  deriving DecidableEq, Repr

inductive Simd4 where
  | sse | avx
  deriving DecidableEq, Repr

structure KernelPointers where
  L2SqrSIMD16Ext : Simd16
  InnerProductSIMD16Ext : Simd16
  InnerProductSIMD4Ext : Simd4
  InnerProductDistanceSIMD16Ext : Simd16
  InnerProductDistanceSIMD4Ext : Simd4
  deriving DecidableEq, Repr

def KernelPointers.initial : KernelPointers := ⟨.sse, .sse, .sse, .sse, .sse⟩

inductive L2Function where
  | L2Sqr
  | L2SqrSIMD16Ext (variant : Simd16)
  | L2SqrSIMD4Ext
  | L2SqrSIMD16ExtResiduals
  | L2SqrSIMD4ExtResiduals
  deriving DecidableEq, Repr

inductive InnerProductFunction where
  | InnerProductDistance
  | InnerProductDistanceSIMD16Ext (variant : Simd16)
  | InnerProductDistanceSIMD4Ext (variant : Simd4)
  | InnerProductDistanceSIMD16ExtResiduals
  | InnerProductDistanceSIMD4ExtResiduals
  deriving DecidableEq, Repr

section Calls

variable {R : Type} [CommRing R]

def Simd16.L2Sqr : Simd16 → List R → List R → Nat → Option R
  | sse => L2SqrSIMD16ExtSSE
  | avx => L2SqrSIMD16ExtAVX
  | avx512 => L2SqrSIMD16ExtAVX512

def Simd16.InnerProduct : Simd16 → List R → List R → Nat → Option R
  | sse => InnerProductSIMD16ExtSSE
  | avx => InnerProductSIMD16ExtAVX
  | avx512 => InnerProductSIMD16ExtAVX512

def Simd4.InnerProduct : Simd4 → List R → List R → Nat → Option R
  | sse => InnerProductSIMD4ExtSSE
  | avx => InnerProductSIMD4ExtAVX

/-- A kernel for whole blocks, and a scalar loop for the coordinates behind them. -/
def withTail (block : Nat) (kernel : Nat → Option R) (tail : Nat → Nat → Option R) (qty : Nat) :
    Option R := do
  let qtyBlocks := qty / block * block
  let res ← kernel qtyBlocks
  let qtyLeft := qty - qtyBlocks
  let resTail ← tail qtyBlocks qtyLeft
  return res + resTail

def L2Function.call (pointers : KernelPointers) (a b : List R) (qty : Nat) : L2Function → Option R
  | L2Sqr => L2SqrFrom a b 0 qty
  | L2SqrSIMD16Ext variant => variant.L2Sqr a b qty
  | L2SqrSIMD4Ext => HnswRvv.L2SqrSIMD4Ext a b qty
  | L2SqrSIMD16ExtResiduals =>
    withTail 16 (pointers.L2SqrSIMD16Ext.L2Sqr a b) (L2SqrFrom a b) qty
  | L2SqrSIMD4ExtResiduals => withTail 4 (HnswRvv.L2SqrSIMD4Ext a b) (L2SqrFrom a b) qty

/-- What the distance functions subtract from one. -/
def InnerProductFunction.inner (pointers : KernelPointers) (a b : List R) (qty : Nat) :
    InnerProductFunction → Option R
  | InnerProductDistance => InnerProductFrom a b 0 qty
  | InnerProductDistanceSIMD16Ext variant => variant.InnerProduct a b qty
  | InnerProductDistanceSIMD4Ext variant => variant.InnerProduct a b qty
  | InnerProductDistanceSIMD16ExtResiduals =>
    withTail 16 (pointers.InnerProductSIMD16Ext.InnerProduct a b) (InnerProductFrom a b) qty
  | InnerProductDistanceSIMD4ExtResiduals =>
    withTail 4 (pointers.InnerProductSIMD4Ext.InnerProduct a b) (InnerProductFrom a b) qty

def InnerProductFunction.call (pointers : KernelPointers) (a b : List R) (qty : Nat)
    (f : InnerProductFunction) : Option R :=
  (f.inner pointers a b qty).map fun x => 1 - x

end Calls

/-- The part of the L2 constructors before the dispatch. -/
def setL2Pointers (build : X86Build) (cpu : Processor) (g : KernelPointers) : KernelPointers :=
  match build with
  | .avx512 =>
    if cpu.avx512Capable then { g with L2SqrSIMD16Ext := .avx512 }
    else if cpu.avxCapable then { g with L2SqrSIMD16Ext := .avx }
    else g
  | .avx => if cpu.avxCapable then { g with L2SqrSIMD16Ext := .avx } else g
  | .sse => g
  | .noSIMD => g

def chooseL2 (build : X86Build) (dim : Nat) (g : KernelPointers) : L2Function :=
  if build = .noSIMD then .L2Sqr
  else if dim % 16 = 0 then .L2SqrSIMD16Ext g.L2SqrSIMD16Ext
  else if dim % 4 = 0 then .L2SqrSIMD4Ext
  else if 16 < dim then .L2SqrSIMD16ExtResiduals
  else if 4 < dim then .L2SqrSIMD4ExtResiduals
  else .L2Sqr

/-- The part of the inner-product constructors before the dispatch. -/
def setInnerProductPointers (build : X86Build) (cpu : Processor) (g : KernelPointers) :
    KernelPointers :=
  let g16 (variant : Simd16) : KernelPointers :=
    { g with InnerProductSIMD16Ext := variant, InnerProductDistanceSIMD16Ext := variant }
  let g4 (g : KernelPointers) : KernelPointers :=
    if cpu.avxCapable then
      { g with InnerProductSIMD4Ext := .avx, InnerProductDistanceSIMD4Ext := .avx }
    else g
  match build with
  | .avx512 => g4 (if cpu.avx512Capable then g16 .avx512 else if cpu.avxCapable then g16 .avx else g)
  | .avx => g4 (if cpu.avxCapable then g16 .avx else g)
  | .sse => g
  | .noSIMD => g

def chooseInnerProduct (build : X86Build) (dim : Nat) (g : KernelPointers) : InnerProductFunction :=
  if build = .noSIMD then .InnerProductDistance
  else if dim % 16 = 0 then .InnerProductDistanceSIMD16Ext g.InnerProductDistanceSIMD16Ext
  else if dim % 4 = 0 then .InnerProductDistanceSIMD4Ext g.InnerProductDistanceSIMD4Ext
  else if 16 < dim then .InnerProductDistanceSIMD16ExtResiduals
  else if 4 < dim then .InnerProductDistanceSIMD4ExtResiduals
  else .InnerProductDistance

structure L2Space where
  fstdistfunc : L2Function
  dataSize : Nat
  dim : Nat

structure InnerProductSpace where
  fstdistfunc : InnerProductFunction
  dataSize : Nat
  dim : Nat

/-- The constructor, with the pointers it leaves. -/
def L2Space.construct (build : X86Build) (cpu : Processor) (dim : Nat) (g : KernelPointers) :
    L2Space × KernelPointers :=
  let g := setL2Pointers build cpu g
  (⟨chooseL2 build dim g, dim * 4 % 2 ^ 64, dim⟩, g)

def InnerProductSpace.construct (build : X86Build) (cpu : Processor) (dim : Nat)
    (g : KernelPointers) : InnerProductSpace × KernelPointers :=
  let g := setInnerProductPointers build cpu g
  (⟨chooseInnerProduct build dim g, dim * 4 % 2 ^ 64, dim⟩, g)

variable {R : Type} [CommRing R]

/-- `get_dist_func()` called with `get_dist_func_param()`, under the pointers of that moment. -/
def L2Space.distance (space : L2Space) (g : KernelPointers) (a b : List R) : Option R :=
  space.fstdistfunc.call g a b space.dim

def InnerProductSpace.distance (space : InnerProductSpace) (g : KernelPointers) (a b : List R) :
    Option R :=
  space.fstdistfunc.call g a b space.dim

/-- The number of leading coordinates that a function reads. -/
def L2Function.covered (qty : Nat) : L2Function → Nat
  | L2SqrSIMD16Ext _ => qty / 16 * 16
  | L2SqrSIMD4Ext => qty / 4 * 4
  | _ => qty

def InnerProductFunction.covered (qty : Nat) : InnerProductFunction → Nat
  | InnerProductDistanceSIMD16Ext _ => qty / 16 * 16
  | InnerProductDistanceSIMD4Ext _ => qty / 4 * 4
  | _ => qty

section Sums

variable {a b : List R} {n : Nat} (ha : a.length = n) (hb : b.length = n)

private theorem sumsFrom_withTail {t : Nat → R} {block qty : Nat} {kernel : Nat → Option R}
    {tail : Nat → Nat → Option R}
    (hkernel : ∀ m, SumsFrom n t id 0 (m / block * block) 0 (kernel m))
    (htail : SumsFrom n t id (qty / block * block) (qty - qty / block * block) 0
      (tail (qty / block * block) (qty - qty / block * block))) :
    SumsFrom n t id 0 qty 0 (withTail block kernel tail qty) := by
  have hle : qty / block * block ≤ qty := Nat.div_mul_le_self qty block
  have hwhole := hkernel (qty / block * block)
  have hdiv : qty / block * block / block * block = qty / block * block := by
    rcases Nat.eq_zero_or_pos block with rfl | hpos
    · simp
    · rw [Nat.mul_div_cancel _ hpos]
  rw [hdiv] at hwhole
  rw [← Nat.zero_add (qty / block * block)] at htail
  have hall := hwhole.bind fun res => htail.addTo res
  rw [Nat.zero_add, Nat.add_sub_cancel' hle] at hall
  exact hall

include ha hb

private theorem sumsFrom_L2SqrFrom (p qty : Nat) :
    SumsFrom n (l2Term a b) id p qty 0 (L2SqrFrom a b p qty) := by
  apply sumsFrom_scalarLoop ha hb
  intro i
  rfl

private theorem sumsFrom_InnerProductFrom (p : Nat) {qty : Nat} (h : qty < 2 ^ 32) :
    SumsFrom n (ipTerm a b) id p qty 0 (InnerProductFrom a b p qty) := by
  rw [InnerProductFrom, if_pos h]
  apply sumsFrom_scalarLoop ha hb
  intro i
  rfl

private theorem Simd16.sumsFrom_L2Sqr (variant : Simd16) (qty : Nat) :
    SumsFrom n (l2Term a b) id 0 (qty / 16 * 16) 0 (variant.L2Sqr a b qty) := by
  cases variant with
  | sse => exact sumsFrom_blockKernel 4 rfl (by decide) (sumsFrom_l2Step ha hb 4) qty
  | avx => exact sumsFrom_blockKernel 2 rfl (by decide) (sumsFrom_l2Step ha hb 8) qty
  | avx512 => exact sumsFrom_blockKernel 1 rfl (by decide) (sumsFrom_l2Step ha hb 16) qty

private theorem sumsFrom_L2SqrSIMD4Ext (qty : Nat) :
    SumsFrom n (l2Term a b) id 0 (qty / 4 * 4) 0 (L2SqrSIMD4Ext a b qty) :=
  sumsFrom_blockKernel 1 rfl (by decide) (sumsFrom_l2Step ha hb 4) qty

private theorem Simd16.sumsFrom_InnerProduct (variant : Simd16) (qty : Nat) :
    SumsFrom n (ipTerm a b) id 0 (qty / 16 * 16) 0 (variant.InnerProduct a b qty) := by
  cases variant with
  | sse => exact sumsFrom_blockKernel 4 rfl (by decide) (sumsFrom_ipStep ha hb 4) qty
  | avx => exact sumsFrom_blockKernel 2 rfl (by decide) (sumsFrom_ipStep ha hb 8) qty
  | avx512 => exact sumsFrom_InnerProductSIMD16ExtAVX512 ha hb qty

private theorem Simd4.sumsFrom_InnerProduct (variant : Simd4) (qty : Nat) :
    SumsFrom n (ipTerm a b) id 0 (qty / 4 * 4) 0 (variant.InnerProduct a b qty) := by
  cases variant
  · exact sumsFrom_InnerProductSIMD4ExtSSE ha hb qty
  · exact sumsFrom_InnerProductSIMD4ExtAVX ha hb qty

theorem L2Function.sumsFrom_call (f : L2Function) (g : KernelPointers) (qty : Nat) :
    SumsFrom n (l2Term a b) id 0 (f.covered qty) 0 (f.call g a b qty) := by
  cases f with
  | L2Sqr => exact sumsFrom_L2SqrFrom ha hb 0 qty
  | L2SqrSIMD16Ext variant => exact variant.sumsFrom_L2Sqr ha hb qty
  | L2SqrSIMD4Ext => exact sumsFrom_L2SqrSIMD4Ext ha hb qty
  | L2SqrSIMD16ExtResiduals =>
    exact sumsFrom_withTail (g.L2SqrSIMD16Ext.sumsFrom_L2Sqr ha hb) (sumsFrom_L2SqrFrom ha hb _ _)
  | L2SqrSIMD4ExtResiduals =>
    exact sumsFrom_withTail (sumsFrom_L2SqrSIMD4Ext ha hb) (sumsFrom_L2SqrFrom ha hb _ _)

theorem InnerProductFunction.sumsFrom_inner (f : InnerProductFunction) (g : KernelPointers)
    {qty : Nat} (h : f = .InnerProductDistance → qty < 2 ^ 32) :
    SumsFrom n (ipTerm a b) id 0 (f.covered qty) 0 (f.inner g a b qty) := by
  cases f with
  | InnerProductDistance => exact sumsFrom_InnerProductFrom ha hb 0 (h rfl)
  | InnerProductDistanceSIMD16Ext variant => exact variant.sumsFrom_InnerProduct ha hb qty
  | InnerProductDistanceSIMD4Ext variant => exact variant.sumsFrom_InnerProduct ha hb qty
  | InnerProductDistanceSIMD16ExtResiduals =>
    apply sumsFrom_withTail (g.InnerProductSIMD16Ext.sumsFrom_InnerProduct ha hb)
    exact sumsFrom_InnerProductFrom ha hb _ (by omega)
  | InnerProductDistanceSIMD4ExtResiduals =>
    apply sumsFrom_withTail (g.InnerProductSIMD4Ext.sumsFrom_InnerProduct ha hb)
    exact sumsFrom_InnerProductFrom ha hb _ (by omega)

end Sums

theorem covered_chooseL2 (build : X86Build) (dim : Nat) (g : KernelPointers) :
    (chooseL2 build dim g).covered dim = dim := by
  unfold chooseL2
  split_ifs <;> simp only [L2Function.covered] <;> omega

private theorem covered_chooseInnerProduct (build : X86Build) (dim : Nat) (g : KernelPointers) :
    (chooseInnerProduct build dim g).covered dim = dim := by
  unfold chooseInnerProduct
  split_ifs <;> simp only [InnerProductFunction.covered] <;> omega

/-- The functions that the two spaces choose compute the scalar distances over all coordinates, on
every build and processor and whatever the pointers hold at the call, and read nothing past the last
coordinate. -/
theorem space_distance_eq {dim : Nat} (hdim : dim < 2 ^ 32) {a b : List R} (ha : a.length = dim)
    (hb : b.length = dim) (build : X86Build) (cpu : Processor) (g g' : KernelPointers) :
    (L2Space.construct build cpu dim g).1.distance g' a b =
        some (L2Sqr (fun i => a.getD i 0) (fun i => b.getD i 0) dim) ∧
      (InnerProductSpace.construct build cpu dim g).1.distance g' a b =
        some (InnerProductDistance (fun i => a.getD i 0) (fun i => b.getD i 0) dim) := by
  constructor
  · have h := (chooseL2 build dim (setL2Pointers build cpu g)).sumsFrom_call ha hb g' dim
    rw [covered_chooseL2] at h
    rw [L2Sqr_eq_sum]
    exact h.eq_sum le_rfl
  · have h := (chooseInnerProduct build dim (setInnerProductPointers build cpu g)).sumsFrom_inner
      ha hb g' (fun _ => hdim)
    rw [covered_chooseInnerProduct] at h
    rw [InnerProductDistance, InnerProduct_eq_sum, InnerProductSpace.distance,
      InnerProductFunction.call]
    exact congrArg (Option.map fun x => 1 - x) (h.eq_sum le_rfl)

/-- A dimension that leaves a residue, with the AVX-512 kernels on one side of the call. -/
theorem space_distance_eq_residual :
    (L2Space.construct .avx512 ⟨true, true⟩ 21 .initial).1.distance .initial
        ((List.range 21).map Int.ofNat) (List.replicate 21 1) = some 2471 ∧
      (InnerProductSpace.construct .avx512 ⟨true, true⟩ 21 .initial).1.distance .initial
        ((List.range 21).map Int.ofNat) (List.replicate 21 1) = some (-209) := by
  have h := @space_distance_eq Int _ 21 (by decide) ((List.range 21).map Int.ofNat)
    (List.replicate 21 1) (by decide) (by decide) .avx512 ⟨true, true⟩ .initial .initial
  exact ⟨h.1.trans (by decide), h.2.trans (by decide)⟩

end HnswRvv
