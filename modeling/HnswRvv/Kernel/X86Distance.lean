import HnswRvv.Framework.BlockSum
import HnswRvv.Kernel.RvvDistance

/-!
# The distance kernels for x86

Each kernel reads its two operands in blocks of 4, 8, 16 or 64 coordinates and drops what does not
fill a block; the constructors of the spaces choose a kernel by the residue of the dimension. The
wrappers for the remaining dimensions call a kernel through a global pointer that any constructor
may set. Arithmetic is exact, over a commutative ring, and a read past the end of an operand fails.
-/

namespace HnswRvv

open Framework

section Kernels

variable {R : Type} [CommRing R]

def InnerProduct (a b : Nat → R) (qty : Nat) : R :=
  (List.range qty).foldl (fun res i => res + a i * b i) 0

def InnerProductDistance (a b : Nat → R) (qty : Nat) : R := 1 - InnerProduct a b qty

theorem InnerProduct_eq_sum (a b : Nat → R) (qty : Nat) :
    InnerProduct a b qty = ∑ i ∈ Finset.range qty, a i * b i := by
  induction qty with
  | zero => rfl
  | succ n ih =>
    rw [InnerProduct, List.range_succ, List.foldl_append, Finset.sum_range_succ, ← ih]
    rfl

/-- A register of `w` lanes. -/
abbrev Lanes (w : Nat) (R : Type) := Fin w → R

/-- `_mm_loadu_ps(v + p)` and its wider forms. -/
def loadu (w : Nat) (v : List R) (p : Nat) : Option (Lanes w R) :=
  if p + w ≤ v.length then some fun j => v.getD (p + j) 0 else none

/-- The lanes of a register, stored and added up. -/
def sumLanes {w : Nat} (v : Lanes w R) : R := ∑ j, v j

/-- `_mm256_extractf128_ps(v, half)` -/
def extractf128 (v : Lanes 8 R) (half : Fin 2) : Lanes 4 R := fun j => v ⟨4 * half + j, by omega⟩

/-- `_mm512_fmadd_ps` -/
def fmadd {w : Nat} (x y z : Lanes w R) : Lanes w R := x * y + z

variable (a b : List R)

/-- Both operands loaded at `p` and combined with `sum`. -/
def loadStep (w : Nat) (combine : Lanes w R → Lanes w R → Lanes w R → Lanes w R) (p : Nat)
    (sum : Lanes w R) : Option (Lanes w R) := do
  let v1 ← loadu w a p
  let v2 ← loadu w b p
  return combine v1 v2 sum

def l2Step (w : Nat) : Nat → Lanes w R → Option (Lanes w R) :=
  loadStep a b w fun v1 v2 sum =>
    let diff := v1 - v2
    sum + diff * diff

def ipStep (w : Nat) : Nat → Lanes w R → Option (Lanes w R) :=
  loadStep a b w fun v1 v2 sum => sum + v1 * v2

/-- A scalar loop over `qty` coordinates, from the two pointers moved by `p`. -/
def scalarLoop (term : R → R → R) (p qty : Nat) : Option R :=
  repeatBlocks 1 (fun i res => do
    let x ← a[i]?
    let y ← b[i]?
    return res + term x y) qty p 0

/-- `L2Sqr(pVect1 + p, pVect2 + p, &qty)` with its reads checked. -/
def L2SqrFrom (p qty : Nat) : Option R :=
  scalarLoop a b (fun x y =>
    let t := x - y
    t * t) p qty

/-- `InnerProduct` likewise; its counter is an `unsigned`, which never reaches a larger `qty`. -/
def InnerProductFrom (p qty : Nat) : Option R :=
  if qty < 2 ^ 32 then scalarLoop a b (fun x y => x * y) p qty else none

/-- The kernels with a single loop: `unroll` registers of `w` lanes in each round. -/
def blockKernel (w unroll : Nat) (step : Nat → Lanes w R → Option (Lanes w R)) (qty : Nat) :
    Option R :=
  let block := unroll * w
  let pEnd1 := qty / block * block
  (whileBelow pEnd1 block (repeatBlocks w step unroll) 0 0).bind fun sum => some (sumLanes sum)

def L2SqrSIMD16ExtAVX512 (qty : Nat) : Option R := blockKernel 16 1 (l2Step a b 16) qty

def L2SqrSIMD16ExtAVX (qty : Nat) : Option R := blockKernel 8 2 (l2Step a b 8) qty

def L2SqrSIMD16ExtSSE (qty : Nat) : Option R := blockKernel 4 4 (l2Step a b 4) qty

def L2SqrSIMD4Ext (qty : Nat) : Option R := blockKernel 4 1 (l2Step a b 4) qty

def InnerProductSIMD16ExtAVX (qty : Nat) : Option R := blockKernel 8 2 (ipStep a b 8) qty

def InnerProductSIMD16ExtSSE (qty : Nat) : Option R := blockKernel 4 4 (ipStep a b 4) qty

/-- Two registers a round, and then single ones of half the width. -/
def InnerProductSIMD4ExtAVX (qty : Nat) : Option R := do
  let qty16 := qty / 16
  let qty4 := qty / 4
  let pEnd1 := 16 * qty16
  let pEnd2 := 4 * qty4
  let sum256 ← whileBelow pEnd1 16 (repeatBlocks 8 (ipStep a b 8) 2) 0 0
  let sumProd := extractf128 sum256 0 + extractf128 sum256 1
  let sumProd ← whileBelow pEnd2 4 (ipStep a b 4) pEnd1 sumProd
  return sumLanes sumProd

/-- Four registers a round, and then single ones. -/
def InnerProductSIMD4ExtSSE (qty : Nat) : Option R := do
  let qty16 := qty / 16
  let qty4 := qty / 4
  let pEnd1 := 16 * qty16
  let pEnd2 := 4 * qty4
  let sumProd ← whileBelow pEnd1 16 (repeatBlocks 4 (ipStep a b 4) 4) 0 0
  let sumProd ← whileBelow pEnd2 4 (ipStep a b 4) pEnd1 sumProd
  return sumLanes sumProd

/-- The body of the counted loop: eight loads, and then four fused additions. -/
def fmadd64 (p : Nat) (sum512 : Lanes 16 R) : Option (Lanes 16 R) := do
  let v1 ← loadu 16 a p
  let v2 ← loadu 16 b p
  let v3 ← loadu 16 a (p + 16)
  let v4 ← loadu 16 b (p + 16)
  let v5 ← loadu 16 a (p + 32)
  let v6 ← loadu 16 b (p + 32)
  let v7 ← loadu 16 a (p + 48)
  let v8 ← loadu 16 b (p + 48)
  return fmadd v7 v8 (fmadd v5 v6 (fmadd v3 v4 (fmadd v1 v2 sum512)))

def fmadd16 : Nat → Lanes 16 R → Option (Lanes 16 R) := loadStep a b 16 fmadd

def InnerProductSIMD16ExtAVX512 (qty : Nat) : Option R := do
  let qty16 := qty / 16
  let pEnd1 := 16 * qty16
  let loop := qty16 / 4
  let sum512 ← repeatBlocks 64 (fmadd64 a b) loop 0 0
  let sum512 ← whileBelow pEnd1 16 (fmadd16 a b) (64 * loop) sum512
  return sumLanes sum512

def l2Term (i : Nat) : R := (a.getD i 0 - b.getD i 0) * (a.getD i 0 - b.getD i 0)

def ipTerm (i : Nat) : R := a.getD i 0 * b.getD i 0

variable {a b} {n : Nat}

/-- The lanes that a load inside `v` gives. -/
def lanesAt (w : Nat) (v : List R) (p : Nat) : Lanes w R := fun j => v.getD (p + j) 0

private theorem loadu_of_le {w p : Nat} {v : List R} (h : p + w ≤ v.length) :
    loadu w v p = some (lanesAt w v p) := if_pos h

private theorem loadu_of_gt {w p : Nat} {v : List R} (h : v.length < p + w) : loadu w v p = none :=
  if_neg (by omega)

private theorem sumLanes_add {w : Nat} (x y : Lanes w R) : sumLanes (x + y) = sumLanes x + sumLanes y := by
  simp [sumLanes, Finset.sum_add_distrib]

@[simp] theorem sumLanes_zero (w : Nat) : sumLanes (0 : Lanes w R) = 0 := by simp [sumLanes]

private theorem sumLanes_terms (t : Nat → R) (p w : Nat) :
    sumLanes (fun j : Fin w => t (p + j)) = blockSum t p w := by
  rw [sumLanes, blockSum, Finset.sum_range]

section Sums

variable (ha : a.length = n) (hb : b.length = n)
include ha hb

private theorem sumsFrom_loadStep {t : Nat → R} {w : Nat}
    {combine : Lanes w R → Lanes w R → Lanes w R → Lanes w R}
    (hcombine : ∀ p sum, sumLanes (combine (lanesAt w a p) (lanesAt w b p) sum) =
      sumLanes sum + blockSum t p w) (p : Nat) (sum : Lanes w R) :
    SumsFrom n t sumLanes p w (sumLanes sum) (loadStep a b w combine p sum) where
  inside h := by
    refine ⟨_, ?_, hcombine p sum⟩
    rw [loadStep, loadu_of_le (by omega), loadu_of_le (by omega)]
    rfl
  outside _ h := by
    rw [loadStep, loadu_of_gt (by omega)]
    rfl

theorem sumsFrom_l2Step (w p : Nat) (sum : Lanes w R) :
    SumsFrom n (l2Term a b) sumLanes p w (sumLanes sum) (l2Step a b w p sum) := by
  apply sumsFrom_loadStep ha hb
  intro p sum
  rw [sumLanes_add, ← sumLanes_terms]
  rfl

theorem sumsFrom_ipStep (w p : Nat) (sum : Lanes w R) :
    SumsFrom n (ipTerm a b) sumLanes p w (sumLanes sum) (ipStep a b w p sum) := by
  apply sumsFrom_loadStep ha hb
  intro p sum
  rw [sumLanes_add, ← sumLanes_terms]
  rfl

private theorem sumsFrom_fmadd16 (p : Nat) (sum : Lanes 16 R) :
    SumsFrom n (ipTerm a b) sumLanes p 16 (sumLanes sum) (fmadd16 a b p sum) := by
  apply sumsFrom_loadStep ha hb
  intro p sum
  rw [fmadd, sumLanes_add, add_comm, ← sumLanes_terms]
  rfl

theorem sumsFrom_scalarLoop {t : Nat → R} {term : R → R → R}
    (hterm : ∀ i, term (a.getD i 0) (b.getD i 0) = t i) (p qty : Nat) :
    SumsFrom n t id p qty 0 (scalarLoop a b term p qty) := by
  have hstep : ∀ i (res : R), SumsFrom n t id i 1 res (do
      let x ← a[i]?
      let y ← b[i]?
      return res + term x y) := by
    intro i res
    constructor
    · intro hi
      refine ⟨res + t i, ?_, by simp [blockSum]⟩
      have hai : a[i]? = some (a.getD i 0) := by simp [List.getElem?_eq_getElem (show i < a.length by omega)]
      have hbi : b[i]? = some (b.getD i 0) := by simp [List.getElem?_eq_getElem (show i < b.length by omega)]
      rw [hai, hbi, ← hterm i]
      rfl
    · intro _ hi
      rw [List.getElem?_eq_none (by omega)]
      rfl
  have hloop := sumsFrom_repeatBlocks hstep qty p (0 : R)
  rwa [Nat.mul_one] at hloop

omit ha hb in
theorem sumsFrom_blockKernel {t : Nat → R} {w block : Nat}
    {step : Nat → Lanes w R → Option (Lanes w R)} (unroll : Nat) (hblock : unroll * w = block)
    (hpos : 0 < block) (hstep : ∀ p sum, SumsFrom n t sumLanes p w (sumLanes sum) (step p sum))
    (qty : Nat) :
    SumsFrom n t id 0 (qty / block * block) 0 (blockKernel w unroll step qty) := by
  subst hblock
  have hbody := fun p sum => sumsFrom_repeatBlocks hstep unroll p sum
  have hloop := sumsFrom_whileBelow hpos hbody (Nat.zero_add (qty / (unroll * w) * (unroll * w))).symm
    (0 : Lanes w R)
  rw [sumLanes_zero] at hloop
  exact hloop.finish

omit ha hb in
private theorem sumLanes_extractf128 (v : Lanes 8 R) :
    sumLanes (extractf128 v 0 + extractf128 v 1) = sumLanes v := by
  simp only [sumLanes, Fin.sum_univ_four, Fin.sum_univ_eight, Pi.add_apply, extractf128]
  change v 0 + v 4 + (v 1 + v 5) + (v 2 + v 6) + (v 3 + v 7) = _
  ring

omit ha hb in
private theorem fmadd64_eq (p : Nat) (sum : Lanes 16 R) :
    fmadd64 a b p sum = repeatBlocks 16 (fmadd16 a b) 4 p sum := by
  simp only [fmadd64, repeatBlocks, fmadd16, loadStep, bind, Option.bind_assoc, pure,
    Option.bind_some, Nat.add_assoc]

private theorem sumsFrom_quads {S : Type} {total : S → R} {first : Option S} {shrink : S → Lanes 4 R}
    (qty : Nat) (hfirst : SumsFrom n (ipTerm a b) total 0 (qty / 16 * 16) 0 first)
    (hshrink : ∀ s, sumLanes (shrink s) = total s) :
    SumsFrom n (ipTerm a b) id 0 (qty / 4 * 4) 0 (first.bind fun s =>
      (whileBelow (4 * (qty / 4)) 4 (ipStep a b 4) (16 * (qty / 16)) (shrink s)).bind
        fun sum => some (sumLanes sum)) := by
  rw [show qty / 4 * 4 = qty / 16 * 16 + (qty / 4 - qty / 16 * 4) * 4 by omega]
  apply hfirst.bind
  intro s
  rw [show 0 + qty / 16 * 16 = 16 * (qty / 16) by omega, ← hshrink s]
  exact (sumsFrom_whileBelow (by decide) (sumsFrom_ipStep ha hb 4) (by omega) (shrink s)).finish

private theorem sumsFrom_sixteens {w unroll : Nat} (h : unroll * w = 16) (qty : Nat) :
    SumsFrom n (ipTerm a b) sumLanes 0 (qty / 16 * 16) 0
      (whileBelow (16 * (qty / 16)) 16 (repeatBlocks w (ipStep a b w) unroll) 0 0) := by
  have hbody := fun p sum => sumsFrom_repeatBlocks (sumsFrom_ipStep ha hb w) unroll p sum
  rw [h] at hbody
  have hend : 16 * (qty / 16) = 0 + qty / 16 * 16 := by omega
  have hloop := sumsFrom_whileBelow (by decide) hbody hend (0 : Lanes w R)
  rwa [sumLanes_zero] at hloop

theorem sumsFrom_InnerProductSIMD4ExtSSE (qty : Nat) :
    SumsFrom n (ipTerm a b) id 0 (qty / 4 * 4) 0 (InnerProductSIMD4ExtSSE a b qty) :=
  sumsFrom_quads ha hb qty (sumsFrom_sixteens ha hb (by decide) qty) fun _ => rfl

theorem sumsFrom_InnerProductSIMD4ExtAVX (qty : Nat) :
    SumsFrom n (ipTerm a b) id 0 (qty / 4 * 4) 0 (InnerProductSIMD4ExtAVX a b qty) :=
  sumsFrom_quads ha hb qty (sumsFrom_sixteens ha hb (by decide) qty) sumLanes_extractf128

theorem sumsFrom_InnerProductSIMD16ExtAVX512 (qty : Nat) :
    SumsFrom n (ipTerm a b) id 0 (qty / 16 * 16) 0 (InnerProductSIMD16ExtAVX512 a b qty) := by
  have hbody : ∀ p sum, SumsFrom n (ipTerm a b) sumLanes p 64 (sumLanes sum)
      (fmadd64 a b p sum) := by
    intro p sum
    rw [fmadd64_eq]
    exact sumsFrom_repeatBlocks (sumsFrom_fmadd16 ha hb) 4 p sum
  have hloop := sumsFrom_repeatBlocks hbody (qty / 16 / 4) 0 (0 : Lanes 16 R)
  rw [sumLanes_zero] at hloop
  rw [show qty / 16 * 16 = qty / 16 / 4 * 64 + (qty / 16 - qty / 16 / 4 * 4) * 16 by omega]
  apply hloop.bind
  intro sum
  rw [show 0 + qty / 16 / 4 * 64 = 64 * (qty / 16 / 4) by omega]
  exact (sumsFrom_whileBelow (by decide) (sumsFrom_fmadd16 ha hb) (by omega) sum).finish

end Sums

end Kernels

end HnswRvv
