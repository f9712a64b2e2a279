import HnswRvv.Framework.BlockSum
import HnswRvv.Framework.ByteStream

/-!
# Distances between byte vectors

`L2SpaceI` chooses between a loop and its four-fold unrolling. Both add squared differences of
`unsigned char`s in an `int`. The operations on `int`s are a parameter: they wrap around, or they
check that the exact result is an `int` and fail where it is not.
-/

namespace HnswRvv

open Framework

/-- The operations of the kernels on `int`s. -/
structure IntOps where
  sub : BitVec 32 → BitVec 32 → Option (BitVec 32)
  mul : BitVec 32 → BitVec 32 → Option (BitVec 32)
  add : BitVec 32 → BitVec 32 → Option (BitVec 32)

namespace IntOps

def wrapping : IntOps where
  sub x y := some (x - y)
  mul x y := some (x * y)
  add x y := some (x + y)

def checked : IntOps where
  sub x y := if x.ssubOverflow y then none else some (x - y)
  mul x y := if x.smulOverflow y then none else some (x * y)
  add x y := if x.saddOverflow y then none else some (x + y)

end IntOps

section Kernels

variable (ops : IntOps) (a b : List Byte)

/-- `res += ((*a) - (*b)) * ((*a) - (*b))`, with the pointers moved by `i` and the reads checked. -/
def addSquare (i : Nat) (res : BitVec 32) : Option (BitVec 32) := do
  let x ← a[i]?
  let y ← b[i]?
  let d ← ops.sub (x.setWidth 32) (y.setWidth 32)
  let d' ← ops.sub (x.setWidth 32) (y.setWidth 32)
  let t ← ops.mul d d'
  ops.add res t

def L2SqrI4x (qty : Nat) : Option (BitVec 32) :=
  let qty := qty >>> 2
  repeatBlocks 4 (repeatBlocks 1 (addSquare ops a b) 4) qty 0 0

def L2SqrI (qty : Nat) : Option (BitVec 32) := repeatBlocks 1 (addSquare ops a b) qty 0 0

end Kernels

inductive L2FunctionI where
  | L2SqrI4x | L2SqrI
  deriving DecidableEq, Repr

def L2FunctionI.call (ops : IntOps) (a b : List Byte) (qty : Nat) :
    L2FunctionI → Option (BitVec 32)
  | L2SqrI4x => HnswRvv.L2SqrI4x ops a b qty
  | L2SqrI => HnswRvv.L2SqrI ops a b qty

structure L2SpaceI where
  fstdistfunc : L2FunctionI
  dataSize : Nat
  dim : Nat

namespace L2SpaceI

def construct (dim : Nat) : L2SpaceI where
  fstdistfunc := if dim % 4 = 0 then .L2SqrI4x else .L2SqrI
  dataSize := dim
  dim := dim

/-- `get_dist_func()(a, b, get_dist_func_param())` -/
def dist (space : L2SpaceI) (ops : IntOps) (a b : List Byte) : Option (BitVec 32) :=
  space.fstdistfunc.call ops a b space.dim

end L2SpaceI

private theorem L2SqrI4x_eq (ops : IntOps) (a b : List Byte) {qty : Nat} (h : qty % 4 = 0) :
    L2SqrI4x ops a b qty = L2SqrI ops a b qty := by
  have hqty : qty >>> 2 * 4 = qty := by
    rw [Nat.shiftRight_eq_div_pow]
    omega
  rw [L2SqrI4x, L2SqrI]
  simpa [hqty] using repeatBlocks_unroll 1 (addSquare ops a b) 4 (qty >>> 2) 0 0

private theorem L2SpaceI.dist_construct (ops : IntOps) (a b : List Byte) (dim : Nat) :
    (construct dim).dist ops a b = L2SqrI ops a b dim := by
  by_cases h : dim % 4 = 0
  · simp [dist, construct, h, L2FunctionI.call, L2SqrI4x_eq ops a b h]
  · simp [dist, construct, h, L2FunctionI.call]

def sqrDiff (x y : Byte) : Int := ((x.toNat : Int) - y.toNat) ^ 2

private theorem sqrDiff_nonneg (x y : Byte) : 0 ≤ sqrDiff x y := sq_nonneg _

private theorem sqrDiff_le (x y : Byte) : sqrDiff x y ≤ 65025 := by
  have hx := x.isLt
  have hy := y.isLt
  have habs : |(x.toNat : Int) - y.toNat| ≤ 255 := by
    rw [abs_le]
    omega
  exact (sq_le_sq' (by linarith [neg_abs_le ((x.toNat : Int) - y.toNat)])
    ((le_abs_self _).trans habs)).trans_eq (by norm_num)

private theorem toInt_setWidth_byte (x : Byte) : (x.setWidth 32).toInt = x.toNat := by
  have hx := x.isLt
  rw [BitVec.toInt_setWidth]
  exact Int.bmod_eq_of_le (by omega) (by omega)

private theorem not_ssubOverflow_byte (x y : Byte) :
    ¬ (x.setWidth 32).ssubOverflow (y.setWidth 32) = true := by
  have hx := x.isLt
  have hy := y.isLt
  simp only [BitVec.ssubOverflow, toInt_setWidth_byte, Bool.or_eq_true, decide_eq_true_eq]
  omega

private theorem toInt_sub_byte (x y : Byte) :
    (x.setWidth 32 - y.setWidth 32).toInt = (x.toNat : Int) - y.toNat := by
  rw [BitVec.toInt_sub_of_not_ssubOverflow (not_ssubOverflow_byte x y), toInt_setWidth_byte,
    toInt_setWidth_byte]

private theorem not_smulOverflow_byte (x y : Byte) : ¬ (x.setWidth 32 - y.setWidth 32).smulOverflow
    (x.setWidth 32 - y.setWidth 32) = true := by
  have hle := sqrDiff_le x y
  have hge := sqrDiff_nonneg x y
  rw [sqrDiff, sq] at hle hge
  simp only [BitVec.smulOverflow, toInt_sub_byte, Bool.or_eq_true, decide_eq_true_eq]
  omega

def squareTerm (x y : Byte) : BitVec 32 :=
  (x.setWidth 32 - y.setWidth 32) * (x.setWidth 32 - y.setWidth 32)

private theorem toInt_squareTerm (x y : Byte) : (squareTerm x y).toInt = sqrDiff x y := by
  rw [squareTerm, BitVec.toInt_mul_of_not_smulOverflow (not_smulOverflow_byte x y), toInt_sub_byte,
    sqrDiff, sq]

section Rounds

variable {a b : List Byte} {i : Nat} (ha : i < a.length) (hb : i < b.length) (res : BitVec 32)
include ha hb

private theorem addSquare_wrapping :
    addSquare .wrapping a b i res = some (res + squareTerm a[i] b[i]) := by
  simp [addSquare, IntOps.wrapping, squareTerm, ha, hb]

private theorem addSquare_checked :
    addSquare .checked a b i res = IntOps.checked.add res (squareTerm a[i] b[i]) := by
  simp [addSquare, IntOps.checked, squareTerm, ha, hb, not_ssubOverflow_byte, not_smulOverflow_byte]

end Rounds

namespace IntOps

variable {x y : BitVec 32}

private theorem checked_add_of_lt (hx : 0 ≤ x.toInt) (hy : 0 ≤ y.toInt) (h : x.toInt + y.toInt < 2 ^ 31) :
    checked.add x y = some (x + y) ∧ (x + y).toInt = x.toInt + y.toInt := by
  have hov : ¬ x.saddOverflow y = true := by
    simp only [BitVec.saddOverflow, Bool.or_eq_true, decide_eq_true_eq]
    omega
  exact ⟨if_neg hov, BitVec.toInt_add_of_not_saddOverflow hov⟩

private theorem checked_add_of_le (h : 2 ^ 31 ≤ x.toInt + y.toInt) : checked.add x y = none := by
  have hov : x.saddOverflow y = true := by
    simp only [BitVec.saddOverflow, Bool.or_eq_true, decide_eq_true_eq]
    omega
  exact if_pos hov

end IntOps

/-- The squared difference of coordinate `i`. -/
def sqrDiffAt (a b : List Byte) (i : Nat) : Int := sqrDiff (a.getD i 0) (b.getD i 0)

private theorem toInt_squareTerm_getElem {a b : List Byte} {i : Nat} (ha : i < a.length)
    (hb : i < b.length) : (squareTerm a[i] b[i]).toInt = sqrDiffAt a b i := by
  rw [toInt_squareTerm, sqrDiffAt, List.getD_eq_getElem a 0 ha, List.getD_eq_getElem b 0 hb]

private theorem blockSum_sqrDiffAt_nonneg (a b : List Byte) (p n : Nat) :
    0 ≤ blockSum (sqrDiffAt a b) p n := Finset.sum_nonneg fun _ _ => sqrDiff_nonneg _ _

private theorem blockSum_sqrDiffAt_le (a b : List Byte) (p n : Nat) :
    blockSum (sqrDiffAt a b) p n ≤ n * 65025 := by
  calc blockSum (sqrDiffAt a b) p n ≤ ∑ _j ∈ Finset.range n, (65025 : Int) :=
        Finset.sum_le_sum fun _ _ => sqrDiff_le _ _
    _ = n * 65025 := by simp

section Loops

variable {a b : List Byte} {n p : Nat}

private theorem repeatBlocks_wrapping (ha : p + n ≤ a.length) (hb : p + n ≤ b.length) (res : BitVec 32) :
    repeatBlocks 1 (addSquare .wrapping a b) n p res =
      some (res + BitVec.ofInt 32 (blockSum (sqrDiffAt a b) p n)) := by
  induction n generalizing p res with
  | zero => simp [repeatBlocks]
  | succ n ih =>
    have hterm : squareTerm a[p] b[p] = BitVec.ofInt 32 (sqrDiffAt a b p) := by
      rw [← toInt_squareTerm_getElem, BitVec.ofInt_toInt]
    rw [repeatBlocks, addSquare_wrapping (by omega) (by omega), Option.bind_some,
      ih (by omega) (by omega), hterm, blockSum_succ, BitVec.ofInt_add, add_assoc]

/-- With checks a loop from a number that is not negative ends exactly if the last sum, and with it
every earlier one, is an `int`. -/
theorem repeatBlocks_checked (ha : p + n ≤ a.length) (hb : p + n ≤ b.length) {res : BitVec 32}
    (hres : 0 ≤ res.toInt) : (repeatBlocks 1 (addSquare .checked a b) n p res).isSome ↔
      res.toInt + blockSum (sqrDiffAt a b) p n < 2 ^ 31 := by
  induction n generalizing p res with
  | zero =>
    have := BitVec.toInt_lt (x := res)
    simpa [repeatBlocks] using this
  | succ n ih =>
    have hterm : (squareTerm a[p] b[p]).toInt = sqrDiffAt a b p :=
      toInt_squareTerm_getElem (by omega) (by omega)
    have hpos : 0 ≤ sqrDiffAt a b p := sqrDiff_nonneg _ _
    have hrest := blockSum_sqrDiffAt_nonneg a b (p + 1) n
    rw [repeatBlocks, addSquare_checked (by omega) (by omega), blockSum_succ]
    by_cases hlt : res.toInt + sqrDiffAt a b p < 2 ^ 31
    · obtain ⟨hadd, hsum⟩ := IntOps.checked_add_of_lt hres (hterm ▸ hpos) (hterm ▸ hlt)
      rw [hadd, Option.bind_some, ih (by omega) (by omega) (by omega), hsum, hterm, add_assoc]
    · rw [IntOps.checked_add_of_le (by omega)]
      simp only [Option.bind_none, Option.isSome_none, Bool.false_eq_true, false_iff]
      omega

end Loops

namespace L2SpaceI

variable {dim : Nat}

def squaredDistance (a b : Vector Byte dim) : Int := ∑ i : Fin dim, sqrDiff (a.get i) (b.get i)

private theorem blockSum_toList (a b : Vector Byte dim) :
    blockSum (sqrDiffAt a.toList b.toList) 0 dim = squaredDistance a b := by
  rw [blockSum, squaredDistance, Finset.sum_range]
  apply Finset.sum_congr rfl
  intro i _
  simp [sqrDiffAt, Vector.get_eq_getElem]

private theorem dist_checked_isSome (a b : Vector Byte dim) :
    ((construct dim).dist .checked a.toList b.toList).isSome ↔ squaredDistance a b < 2 ^ 31 := by
  rw [dist_construct, L2SqrI, repeatBlocks_checked (by simp) (by simp) (by decide), blockSum_toList]
  simp

private theorem squaredDistance_extreme (dim : Nat) :
    squaredDistance (Vector.replicate dim 255) (Vector.replicate dim 0) = dim * 65025 := by
  simp [squaredDistance, sqrDiff]

/-- The distance is computed modulo `2 ^ 32`; in every dimension up to 33025, and in no other, no
operation overflows on any input, and the distance is the exact one. -/
theorem dist_exact_iff (dim : Nat) :
    (∀ a b : Vector Byte dim, (construct dim).dist .wrapping a.toList b.toList =
      some (BitVec.ofInt 32 (squaredDistance a b))) ∧
    ((∀ a b : Vector Byte dim, ((construct dim).dist .checked a.toList b.toList).isSome) ↔
      dim ≤ 33025) ∧
    (dim ≤ 33025 → ∀ a b : Vector Byte dim, ∃ r,
      (construct dim).dist .wrapping a.toList b.toList = some r ∧ r.toInt = squaredDistance a b) := by
  have hwrap : ∀ a b : Vector Byte dim, (construct dim).dist .wrapping a.toList b.toList =
      some (BitVec.ofInt 32 (squaredDistance a b)) := by
    intro a b
    rw [dist_construct, L2SqrI, repeatBlocks_wrapping (by simp) (by simp), blockSum_toList]
    simp
  have hbound : dim ≤ 33025 → ∀ a b : Vector Byte dim, squaredDistance a b < 2 ^ 31 := by
    intro hdim a b
    have hle := blockSum_sqrDiffAt_le a.toList b.toList 0 dim
    rw [blockSum_toList] at hle
    omega
  refine ⟨hwrap, ⟨fun hall => ?_, fun hdim a b => ?_⟩, fun hdim a b => ?_⟩
  · have hworst := (dist_checked_isSome _ _).mp (hall (Vector.replicate dim 255) (Vector.replicate dim 0))
    rw [squaredDistance_extreme] at hworst
    omega
  · exact (dist_checked_isSome a b).mpr (hbound hdim a b)
  · have hpos : 0 ≤ squaredDistance a b := Finset.sum_nonneg fun _ _ => sqrDiff_nonneg _ _
    have hlt := hbound hdim a b
    refine ⟨_, hwrap a b, ?_⟩
    rw [BitVec.toInt_ofInt]
    exact Int.bmod_eq_of_le (by omega) (by omega)

end L2SpaceI

end HnswRvv
