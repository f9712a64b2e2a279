import HnswRvv.Index.Storage
import HnswRvv.Kernel.Spaces

/-!
# The spaces for documents of several vectors

A data point is a vector followed by the id of its document. The constructor for inner products
sets every field except `dim_`, which keeps whatever its storage held.
-/

namespace HnswRvv

open Framework

/-- The exact values of the `float`s that four bytes may hold. -/
structure FloatValues (R : Type) [CommRing R] where
  value : List Byte → R
  zero : List Byte
  one : List Byte
  length_zero : zero.length = 4
  length_one : one.length = 4
  value_zero : value zero = 0
  value_one : value one = 1

/-- The instruction sets that the constructors distinguish. -/
inductive Target where
  | rvv (unit : VectorUnit)
  | x86 (build : X86Build)

inductive MultiVectorL2Function where
  | L2SqrSIMDExtRVV (unit : VectorUnit)
  | x86 (f : L2Function)

structure MultiVectorL2Space where
  fstdistfunc : MultiVectorL2Function
  dataSize : Nat
  vectorSize : Nat
  dim : Nat

structure MultiVectorInnerProductSpace where
  fstdistfunc : InnerProductFunction
  dataSize : Nat
  vectorSize : Nat
  dim : Nat

/-- The constructor, with the pointers it leaves; `idSize` is `sizeof(DOCIDTYPE)`. -/
def MultiVectorL2Space.construct (target : Target) (cpu : Processor) (idSize dim : Nat)
    (g : KernelPointers) : MultiVectorL2Space × KernelPointers :=
  let vectorSize := dim * 4 % 2 ^ 64
  let dataSize := (vectorSize + idSize) % 2 ^ 64
  match target with
  | .rvv unit => (⟨.L2SqrSIMDExtRVV unit, dataSize, vectorSize, dim⟩, g)
  | .x86 build =>
    let g := setL2Pointers build cpu g
    (⟨.x86 (chooseL2 build dim g), dataSize, vectorSize, dim⟩, g)

/-- The constructor does not assign `dim_`, whose storage holds `dimBefore`; a build for RVV has
none of the macros that it tests. -/
def MultiVectorInnerProductSpace.construct (target : Target) (cpu : Processor) (idSize dim : Nat)
    (dimBefore : Nat) (g : KernelPointers) : MultiVectorInnerProductSpace × KernelPointers :=
  let vectorSize := dim * 4 % 2 ^ 64
  let dataSize := (vectorSize + idSize) % 2 ^ 64
  match target with
  | .rvv _ => (⟨.InnerProductDistance, dataSize, vectorSize, dimBefore⟩, g)
  | .x86 build =>
    let g := setInnerProductPointers build cpu g
    (⟨chooseInnerProduct build dim g, dataSize, vectorSize, dimBefore⟩, g)

section DocIds

variable {D : Type} {idSize : Nat} (C : VectorBytes D idSize) (vectorSize : Nat) (x : List Byte)

/-- The read and the write through `datapoint + vector_size_`, inside the data point. -/
def docIdAt : Option D :=
  if vectorSize + idSize ≤ x.length then some (C.decode (fieldAt x vectorSize idSize)) else none

def withDocId (id : D) : Option (List Byte) :=
  if vectorSize + idSize ≤ x.length then
    some (x.take vectorSize ++ C.encode id ++ x.drop (vectorSize + idSize))
  else none

end DocIds

/-- The members that a user of a space calls. -/
structure BaseMultiVectorSpace (R D : Type) where
  dataSize : Nat
  distance : List Byte → List Byte → Option R
  getDocId : List Byte → Option D
  setDocId : List Byte → D → Option (List Byte)

section Points

variable {R : Type} [CommRing R] (F : FloatValues R)

namespace FloatValues

def coordinate (x : List Byte) (i : Nat) : R := F.value (fieldAt x (4 * i) 4)

/-- The `float`s that may be read from a data point; the last ones overlap the id. -/
def cells (x : List Byte) : List R := (List.range (x.length / 4)).map (F.coordinate x)

@[simp] theorem length_cells (x : List Byte) : (F.cells x).length = x.length / 4 := by
  simp [cells]

private theorem getD_cells {x : List Byte} {i : Nat} (hi : i < x.length / 4) :
    (F.cells x).getD i 0 = F.coordinate x i := by
  simp [cells, hi]

end FloatValues

def MultiVectorL2Function.call (tail : TailLanes R) (pointers : KernelPointers) (a b : List R)
    (qty : Nat) : MultiVectorL2Function → Option R
  | L2SqrSIMDExtRVV unit =>
    if qty ≤ a.length ∧ qty ≤ b.length then
      some (HnswRvv.L2SqrSIMDExtRVV unit tail (fun i => a.getD i 0) (fun i => b.getD i 0) qty)
    else none
  | x86 f => f.call pointers a b qty

variable {D : Type} {idSize : Nat} (C : VectorBytes D idSize)

/-- The space in use, while the pointers are `g` and the tail lanes read as `tail`. -/
def MultiVectorL2Space.base (space : MultiVectorL2Space) (g : KernelPointers) (tail : TailLanes R) :
    BaseMultiVectorSpace R D where
  dataSize := space.dataSize
  distance x y := space.fstdistfunc.call tail g (F.cells x) (F.cells y) space.dim
  getDocId := docIdAt C space.vectorSize
  setDocId := withDocId C space.vectorSize

def MultiVectorInnerProductSpace.base (space : MultiVectorInnerProductSpace) (g : KernelPointers) :
    BaseMultiVectorSpace R D where
  dataSize := space.dataSize
  distance x y := space.fstdistfunc.call g (F.cells x) (F.cells y) space.dim
  getDocId := docIdAt C space.vectorSize
  setDocId := withDocId C space.vectorSize

/-- The distance is `plain` on the first `dim` coordinates, and an id that is stored comes back and
disturbs neither a coordinate nor a distance. -/
structure MeasuresVectorPart (plain : (Nat → R) → (Nat → R) → Nat → R) (dim : Nat)
    (space : BaseMultiVectorSpace R D) : Prop where
  distance : ∀ x y : List Byte, x.length = space.dataSize → y.length = space.dataSize →
    space.distance x y = some (plain (F.coordinate x) (F.coordinate y) dim)
  stored : ∀ (x : List Byte) (id : D), x.length = space.dataSize → ∃ x',
    space.setDocId x id = some x' ∧ x'.length = space.dataSize ∧ space.getDocId x' = some id ∧
      (∀ i < dim, F.coordinate x' i = F.coordinate x i) ∧
      ∀ y : List Byte, y.length = space.dataSize →
        space.distance x' y = space.distance x y ∧ space.distance y x' = space.distance y x

variable {F C}

private theorem coordinate_append {v x post : List Byte} {dim i : Nat} (hv : v.length = dim * 4)
    (hx : x.take (dim * 4) = v) (hi : i < dim) : F.coordinate (v ++ post) i = F.coordinate x i := by
  have hcut : ∀ z : List Byte, fieldAt z (4 * i) 4 = fieldAt (z.take (dim * 4)) (4 * i) 4 := by
    intro z
    rw [fieldAt, fieldAt, List.drop_take, List.take_take, Nat.min_eq_left (by omega)]
  rw [FloatValues.coordinate, FloatValues.coordinate, hcut, hcut x, hx, ← hv, List.take_left]

variable (C) in
/-- A space whose sizes did not wrap around. -/
def unwrappedSpace (dim : Nat) (distance : List Byte → List Byte → Option R) :
    BaseMultiVectorSpace R D :=
  ⟨dim * 4 + idSize, distance, docIdAt C (dim * 4), withDocId C (dim * 4)⟩

private theorem measuresVectorPart_iff {plain : (Nat → R) → (Nat → R) → Nat → R} {dim : Nat}
    (hplain : ∀ a a' b b' : Nat → R, (∀ i < dim, a i = a' i) → (∀ i < dim, b i = b' i) →
      plain a b dim = plain a' b' dim)
    (distance : List Byte → List Byte → Option R) :
    MeasuresVectorPart F plain dim (unwrappedSpace C dim distance) ↔
      ∀ x y : List Byte, x.length = dim * 4 + idSize → y.length = dim * 4 + idSize →
        distance x y = some (plain (F.coordinate x) (F.coordinate y) dim) := by
  constructor
  · exact MeasuresVectorPart.distance
  · intro hdist
    refine ⟨hdist, fun x id hx => ?_⟩
    change x.length = dim * 4 + idSize at hx
    have hlen : (x.take (dim * 4)).length = dim * 4 := by
      rw [List.length_take]
      omega
    have hx' : (x.take (dim * 4) ++ C.encode id).length = dim * 4 + idSize := by
      rw [List.length_append, hlen, C.length_encode]
    have hsame : ∀ i < dim, F.coordinate (x.take (dim * 4) ++ C.encode id) i = F.coordinate x i :=
      fun i hi => coordinate_append hlen rfl hi
    refine ⟨x.take (dim * 4) ++ C.encode id, ?_, hx', ?_, hsame, fun y hy => ⟨?_, ?_⟩⟩
    · change withDocId C (dim * 4) x id = _
      rw [withDocId, if_pos (by omega), List.drop_eq_nil_of_le (by omega), List.append_nil]
    · change docIdAt C (dim * 4) _ = _
      have hfield := @fieldAt_append (x.take (dim * 4)) (C.encode id) [] _ _ hlen (C.length_encode id)
      rw [List.append_nil] at hfield
      rw [docIdAt, if_pos (by omega), hfield, C.decode_encode]
    · exact (hdist _ y hx' hy).trans
        ((congrArg some (hplain _ _ _ _ hsame fun _ _ => rfl)).trans (hdist x y hx hy).symm)
    · exact (hdist y _ hy hx').trans
        ((congrArg some (hplain _ _ _ _ (fun _ _ => rfl) hsame)).trans (hdist y x hy hx).symm)

private theorem L2Sqr_congr {a a' b b' : Nat → R} {dim : Nat} (ha : ∀ i < dim, a i = a' i)
    (hb : ∀ i < dim, b i = b' i) : L2Sqr a b dim = L2Sqr a' b' dim := by
  rw [L2Sqr_eq_sum, L2Sqr_eq_sum]
  apply Finset.sum_congr rfl
  intro i hi
  rw [ha i (Finset.mem_range.mp hi), hb i (Finset.mem_range.mp hi)]

private theorem InnerProductDistance_congr {a a' b b' : Nat → R} {dim : Nat} (ha : ∀ i < dim, a i = a' i)
    (hb : ∀ i < dim, b i = b' i) : InnerProductDistance a b dim = InnerProductDistance a' b' dim := by
  rw [InnerProductDistance, InnerProductDistance, InnerProduct_eq_sum, InnerProduct_eq_sum]
  congr 1
  apply Finset.sum_congr rfl
  intro i hi
  rw [ha i (Finset.mem_range.mp hi), hb i (Finset.mem_range.mp hi)]

private theorem getD_cells_of_lt {x : List Byte} {dim i : Nat} (hx : x.length = dim * 4 + idSize)
    (hi : i < dim) : (F.cells x).getD i 0 = F.coordinate x i :=
  F.getD_cells (by omega)

/-- The strips of an RVV kernel are all full. -/
def Target.WholeStrips (dim : Nat) : Target → Prop
  | rvv unit => unit.vlmax ∣ dim
  | x86 _ => True

/-- What the constructor chooses for the target. -/
def Target.L2Function (cpu : Processor) (dim : Nat) (g : KernelPointers) :
    Target → MultiVectorL2Function
  | rvv unit => .L2SqrSIMDExtRVV unit
  | x86 build => .x86 (chooseL2 build dim (setL2Pointers build cpu g))

private theorem MultiVectorL2Space.base_construct (target : Target) (cpu : Processor) {dim : Nat}
    (hfit : dim * 4 + idSize < 2 ^ 64) (g g' : KernelPointers) (tail : TailLanes R) :
    (MultiVectorL2Space.construct target cpu idSize dim g).1.base F C g' tail =
      unwrappedSpace C dim fun x y =>
        (target.L2Function cpu dim g).call tail g' (F.cells x) (F.cells y) dim := by
  have hv : dim * 4 % 2 ^ 64 = dim * 4 := Nat.mod_eq_of_lt (by omega)
  cases target <;>
    simp only [construct, base, unwrappedSpace, Target.L2Function, hv, Nat.mod_eq_of_lt hfit]

private theorem MultiVectorL2Function.call_eq_iff [Nontrivial R] (target : Target) (cpu : Processor)
    (dim : Nat) (g g' : KernelPointers) :
    (∀ (tail : TailLanes R) (x y : List Byte), x.length = dim * 4 + idSize →
      y.length = dim * 4 + idSize →
        (target.L2Function cpu dim g).call tail g' (F.cells x) (F.cells y) dim =
          some (L2Sqr (F.coordinate x) (F.coordinate y) dim)) ↔ target.WholeStrips dim := by
  have hcells : ∀ x y : List Byte, x.length = dim * 4 + idSize → y.length = dim * 4 + idSize →
      L2Sqr (fun i => (F.cells x).getD i 0) (fun i => (F.cells y).getD i 0) dim =
        L2Sqr (F.coordinate x) (F.coordinate y) dim := fun x y hx hy =>
    L2Sqr_congr (fun i hi => getD_cells_of_lt hx hi) fun i hi => getD_cells_of_lt hy hi
  cases target with
  | rvv unit =>
    have hcall : ∀ (tail : TailLanes R) (x y : List Byte), x.length = dim * 4 + idSize →
        y.length = dim * 4 + idSize →
        (MultiVectorL2Function.L2SqrSIMDExtRVV unit).call tail g' (F.cells x) (F.cells y) dim =
          some (HnswRvv.L2SqrSIMDExtRVV unit tail (fun i => (F.cells x).getD i 0)
            (fun i => (F.cells y).getD i 0) dim) := by
      intro tail x y hx hy
      exact if_pos ⟨by rw [F.length_cells]; omega, by rw [F.length_cells]; omega⟩
    constructor
    · intro hall
      by_contra hnd
      obtain ⟨zeros, hlen⟩ : ∃ x : List Byte, x.length = dim * 4 + idSize :=
        ⟨List.replicate _ 0, List.length_replicate⟩
      obtain ⟨tail, hne⟩ := L2SqrSIMDExtRVV_ne_of_not_dvd unit (fun i => (F.cells zeros).getD i 0)
        (fun i => (F.cells zeros).getD i 0) hnd (L2Sqr (F.coordinate zeros) (F.coordinate zeros) dim)
      have h := hall tail zeros zeros hlen hlen
      rw [Target.L2Function, hcall tail zeros zeros hlen hlen] at h
      exact hne (Option.some.inj h)
    · intro hdvd tail x y hx hy
      rw [Target.L2Function, hcall tail x y hx hy, L2SqrSIMDExtRVV_of_dvd unit tail _ _ hdvd,
        hcells x y hx hy]
  | x86 build =>
    refine iff_of_true (fun tail x y hx hy => ?_) trivial
    have hsum := (chooseL2 build dim (setL2Pointers build cpu g)).sumsFrom_call
      (F.length_cells x) ((F.length_cells y).trans (by rw [hx, hy])) g' dim
    rw [covered_chooseL2] at hsum
    rw [← hcells x y hx hy, L2Sqr_eq_sum]
    exact hsum.eq_sum (by omega)

/-- What the constructor chooses for the target. -/
def Target.innerProductFunction (cpu : Processor) (dim : Nat) (g : KernelPointers) :
    Target → InnerProductFunction
  | rvv _ => .InnerProductDistance
  | x86 build => chooseInnerProduct build dim (setInnerProductPointers build cpu g)

private theorem MultiVectorInnerProductSpace.base_construct (target : Target) (cpu : Processor) {dim : Nat}
    (hfit : dim * 4 + idSize < 2 ^ 64) (dimBefore : Nat) (g g' : KernelPointers) :
    (MultiVectorInnerProductSpace.construct target cpu idSize dim dimBefore g).1.base F C g' =
      unwrappedSpace C dim fun x y =>
        (target.innerProductFunction cpu dim g).call g' (F.cells x) (F.cells y) dimBefore := by
  have hv : dim * 4 % 2 ^ 64 = dim * 4 := Nat.mod_eq_of_lt (by omega)
  cases target <;>
    simp only [construct, base, unwrappedSpace, Target.innerProductFunction, hv,
      Nat.mod_eq_of_lt hfit]

/-- A data point with a one in cell `k` and zeros in the others. -/
def FloatValues.unitPoint (F : FloatValues R) (size k : Nat) : List Byte :=
  ((List.range (size / 4)).flatMap fun i => if i = k then F.one else F.zero) ++
    List.replicate (size % 4) 0

private theorem FloatValues.length_cell (k i : Nat) : (if i = k then F.one else F.zero).length = 4 := by
  split
  · exact F.length_one
  · exact F.length_zero

private theorem FloatValues.length_unitPoint (size k : Nat) : (F.unitPoint size k).length = size := by
  rw [unitPoint, List.length_append, length_records (F.length_cell k), List.length_range,
    List.length_replicate]
  omega

private theorem FloatValues.coordinate_unitPoint {size k i : Nat} (hi : i < size / 4) :
    F.coordinate (F.unitPoint size k) i = if i = k then 1 else 0 := by
  have hi' : i < (List.range (size / 4)).length := by rwa [List.length_range]
  rw [coordinate, unitPoint, Nat.mul_comm, fieldAt_records (F.length_cell k) hi', List.getElem_range]
  split
  · exact F.value_one
  · exact F.value_zero

private theorem sum_unit {a : Nat → R} {n k m : Nat} (ha : ∀ i < n, a i = if i = k then 1 else 0)
    (hm : m ≤ n) : ∑ i ∈ Finset.range m, a i * a i = if k < m then 1 else 0 := by
  have hterm : ∀ i ∈ Finset.range m, a i * a i = if k = i then 1 else 0 := by
    intro i hi
    rw [ha i ((Finset.mem_range.mp hi).trans_le hm)]
    by_cases hik : i = k
    · simp [hik]
    · simp [hik, Ne.symm hik]
  rw [Finset.sum_congr rfl hterm, Finset.sum_ite_eq]
  simp only [Finset.mem_range]

/-- A function that is right about every point with a single one covers the vector part: such a
point has its one in the first cell that is counted on one side only. -/
theorem InnerProductFunction.covered_of_call [Nontrivial R] {f : InnerProductFunction}
    {g : KernelPointers} {dim dimBefore : Nat} (hends : f = .InnerProductDistance → dimBefore < 2 ^ 32)
    (hall : ∀ x : List Byte, x.length = dim * 4 + idSize →
      f.call g (F.cells x) (F.cells x) dimBefore =
        some (HnswRvv.InnerProductDistance (F.coordinate x) (F.coordinate x) dim)) :
    f.covered dimBefore = dim := by
  by_contra hne
  generalize hk : min (f.covered dimBefore) dim = k
  generalize hx : F.unitPoint (dim * 4 + idSize) k = x
  have hlen : x.length = dim * 4 + idSize := by rw [← hx, F.length_unitPoint]
  have hcoord : ∀ i < (dim * 4 + idSize) / 4, F.coordinate x i = if i = k then 1 else 0 := by
    intro i hi
    rw [← hx, F.coordinate_unitPoint hi]
  have hcell : ∀ i < (dim * 4 + idSize) / 4, (F.cells x).getD i 0 = if i = k then 1 else 0 := by
    intro i hi
    rw [F.getD_cells (by rwa [hlen]), hcoord i hi]
  have hsum := f.sumsFrom_inner (F.length_cells x) (F.length_cells x) g hends
  rw [hlen] at hsum
  have h := hall x hlen
  rw [call, HnswRvv.InnerProductDistance, InnerProduct_eq_sum, sum_unit hcoord (by omega)] at h
  rcases Nat.lt_or_ge ((dim * 4 + idSize) / 4) (f.covered dimBefore) with hout | hin
  · rw [hsum.outside (Nat.zero_le _) (by omega)] at h
    exact Option.some_ne_none _ h.symm
  · rw [hsum.eq_sum hin] at h
    have hs := (sum_unit hcell hin).symm.trans (sub_right_injective (Option.some.inj h))
    rcases Nat.lt_or_ge (f.covered dimBefore) dim with hlt | hge
    · rw [if_neg (by omega), if_pos (by omega)] at hs
      exact zero_ne_one hs
    · rw [if_pos (by omega), if_neg (by omega)] at hs
      exact one_ne_zero hs

/-- A function for inner products is right about every pair of points exactly when it covers the
vector part and ends. -/
theorem InnerProductFunction.call_eq_iff [Nontrivial R] (f : InnerProductFunction)
    (g : KernelPointers) (dim dimBefore : Nat) :
    (∀ x y : List Byte, x.length = dim * 4 + idSize → y.length = dim * 4 + idSize →
      f.call g (F.cells x) (F.cells y) dimBefore =
        some (HnswRvv.InnerProductDistance (F.coordinate x) (F.coordinate y) dim)) ↔
      f.covered dimBefore = dim ∧ (f = .InnerProductDistance → dimBefore < 2 ^ 32) := by
  constructor
  · intro hall
    have hends : f = .InnerProductDistance → dimBefore < 2 ^ 32 := by
      rintro rfl
      by_contra hge
      have hlen := F.length_unitPoint (dim * 4 + idSize) 0
      have h := hall _ _ hlen hlen
      rw [call, inner, InnerProductFrom, if_neg hge] at h
      exact Option.some_ne_none _ h.symm
    exact ⟨covered_of_call hends fun x hx => hall x x hx hx, hends⟩
  · rintro ⟨hcov, hends⟩ x y hx hy
    have hsum := f.sumsFrom_inner (F.length_cells x) ((F.length_cells y).trans (by rw [hx, hy])) g
      hends
    have hcells : HnswRvv.InnerProductDistance (F.coordinate x) (F.coordinate y) dim =
        HnswRvv.InnerProductDistance (fun i => (F.cells x).getD i 0)
          (fun i => (F.cells y).getD i 0) dim :=
      InnerProductDistance_congr (fun i hi => (getD_cells_of_lt hx hi).symm)
        fun i hi => (getD_cells_of_lt hy hi).symm
    rw [hcov] at hsum
    rw [call, hsum.eq_sum (by omega), hcells, HnswRvv.InnerProductDistance, InnerProduct_eq_sum]
    rfl

/-- The coordinates that the chosen kernel takes in one round, or one if it has a scalar tail. -/
def Target.roundSize (dim : Nat) : Target → Nat
  | rvv _ => 1
  | x86 .noSIMD => 1
  | x86 _ => if dim % 16 = 0 then 16 else if dim % 4 = 0 then 4 else 1

/-- Only the scalar function counts in an `unsigned`. -/
def Target.CountsUpTo (dim : Nat) : Target → Prop
  | rvv _ => dim < 2 ^ 32
  | x86 .noSIMD => dim < 2 ^ 32
  | x86 _ => True

private theorem covered_innerProductFunction (target : Target) (cpu : Processor) (dim dimBefore : Nat)
    (g : KernelPointers) :
    ((target.innerProductFunction cpu dim g).covered dimBefore = dim ∧
      (target.innerProductFunction cpu dim g = .InnerProductDistance → dimBefore < 2 ^ 32)) ↔
      dimBefore / target.roundSize dim = dim / target.roundSize dim ∧ target.CountsUpTo dim := by
  -- without SIMD, the scalar function takes all of `dimBefore`
  have hscalar : (dimBefore = dim ∧ (True → dimBefore < 2 ^ 32)) ↔
      (dimBefore / 1 = dim / 1 ∧ dim < 2 ^ 32) := by
    rw [true_imp_iff]
    omega
  cases target with
  | rvv unit =>
    simpa only [Target.innerProductFunction, InnerProductFunction.covered, Target.roundSize,
      Target.CountsUpTo] using hscalar
  | x86 build =>
    cases build
    case noSIMD =>
      simpa only [Target.innerProductFunction, chooseInnerProduct, if_true,
        InnerProductFunction.covered, Target.roundSize, Target.CountsUpTo] using hscalar
    all_goals
      simp only [Target.innerProductFunction, chooseInnerProduct, Target.roundSize,
        Target.CountsUpTo, reduceCtorEq, if_false]
      split_ifs <;>
        simp only [InnerProductFunction.covered, Nat.div_one, false_imp_iff, forall_const,
          and_true] <;>
        omega

/-- Both spaces measure the vector part exactly when the strips of the squared distance are full and
the value that happens to be in `dim_` ends in the same round as the dimension. -/
theorem multiVector_measures_iff [Nontrivial R] (F : FloatValues R) (C : VectorBytes D idSize)
    (target : Target) (cpu : Processor) {dim : Nat} (hfit : dim * 4 + idSize < 2 ^ 64)
    (dimBefore : Nat) (g g' : KernelPointers) :
    (∀ tail : TailLanes R,
      MeasuresVectorPart F L2Sqr dim
          ((MultiVectorL2Space.construct target cpu idSize dim g).1.base F C g' tail) ∧
        MeasuresVectorPart F InnerProductDistance dim
          ((MultiVectorInnerProductSpace.construct target cpu idSize dim dimBefore g).1.base F C g'))
      ↔ target.WholeStrips dim ∧
        dimBefore / target.roundSize dim = dim / target.roundSize dim ∧ target.CountsUpTo dim := by
  rw [forall_and_right]
  apply and_congr
  · simp only [MultiVectorL2Space.base_construct target cpu hfit,
      measuresVectorPart_iff fun _ _ _ _ => L2Sqr_congr]
    exact MultiVectorL2Function.call_eq_iff target cpu dim g g'
  · rw [MultiVectorInnerProductSpace.base_construct target cpu hfit,
      measuresVectorPart_iff fun _ _ _ _ => InnerProductDistance_congr,
      InnerProductFunction.call_eq_iff, covered_innerProductFunction]

end Points

/-- Single precision, with every exponent read as that of a number. -/
def float32 : FloatValues ℚ where
  value bytes :=
    let v : Nat := leValue bytes
    let exponent : Nat := v / 2 ^ 23 % 256
    let fraction : Nat := v % 2 ^ 23
    (if v / 2 ^ 31 = 0 then 1 else -1) *
      (if exponent = 0 then (fraction : ℚ) / 2 ^ 149
        else (2 ^ 23 + fraction : ℚ) * 2 ^ exponent / 2 ^ 150)
  zero := [0, 0, 0, 0]
  one := [0, 0, 128, 63]
  length_zero := rfl
  length_one := rfl
  value_zero := by decide +kernel
  value_one := by decide +kernel

/-- Four coordinates in front of a one-byte id: five in `dim_` do no harm, none at all do. -/
theorem multiVector_measures_fourCoordinates :
    (∀ tail, MeasuresVectorPart float32 L2Sqr 4
        ((MultiVectorL2Space.construct (.x86 .sse) ⟨false, false⟩ 1 4 .initial).1.base float32
          singleByte .initial tail) ∧
      MeasuresVectorPart float32 InnerProductDistance 4
        ((MultiVectorInnerProductSpace.construct (.x86 .sse) ⟨false, false⟩ 1 4 5 .initial).1.base
          float32 singleByte .initial)) ∧
    ¬ ∀ tail, MeasuresVectorPart float32 L2Sqr 4
        ((MultiVectorL2Space.construct (.x86 .sse) ⟨false, false⟩ 1 4 .initial).1.base float32
          singleByte .initial tail) ∧
      MeasuresVectorPart float32 InnerProductDistance 4
        ((MultiVectorInnerProductSpace.construct (.x86 .sse) ⟨false, false⟩ 1 4 0 .initial).1.base
          float32 singleByte .initial) := by
  constructor
  · exact (multiVector_measures_iff float32 singleByte (.x86 .sse) ⟨false, false⟩ (by decide) 5
      .initial .initial).mpr ⟨trivial, rfl, trivial⟩
  · intro h
    have := ((multiVector_measures_iff float32 singleByte (.x86 .sse) ⟨false, false⟩ (by decide) 0
      .initial .initial).mp h).2.1
    exact absurd this (by decide)

/-- The vector `(1, 0, 0, 0)` of document 7, compared with itself while `dim_` holds zero: nothing is
read and the answer is 1 instead of 0. -/
theorem multiVectorInnerProduct_unset_dim :
    let x : List Byte := [0, 0, 128, 63, 0, 0, 0, 0, 0, 0, 0, 0, 0, 0, 0, 0, 7]
    ((MultiVectorInnerProductSpace.construct (.x86 .sse) ⟨false, false⟩ 1 4 0 .initial).1.base
        float32 singleByte .initial).distance x x = some 1 ∧
      InnerProductDistance (float32.coordinate x) (float32.coordinate x) 4 = 0 := by
  decide +kernel

end HnswRvv
