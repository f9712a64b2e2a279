import HnswRvv.Bindings.ParallelFor
import HnswRvv.Index.Insert

/-!
# The index object of the Python module

The class `Index` of the bindings: what it keeps beside the `HierarchicalNSW` it owns, and how
`add_items` reads its arguments. A vector is the list of its coordinates; the space a vector lives
in is the `Platform` that every operation takes. The texts of the exceptions are left out.
-/

namespace HnswRvv.Bindings

variable {F D : Type}

/-- A contiguous `numpy` array: its extents, and its entries in C order. -/
structure NdArray (F : Type) where
  shape : List Nat
  data : List F
  length_eq : data.length = shape.prod

/-- The entries from `items.data(row)` on, as many as a row has. -/
def NdArray.row (a : NdArray F) (features row : Nat) : List F :=
  (a.data.drop (row * features)).take features

/-- What the object can throw: its own exceptions, the range check of `numpy` arrays, and what the
index throws. -/
inductive PyError where
  | wrongShape (ndim : Nat)
  | labelShape (ndim featureRows : Nat)
  | wrongDimensionality
  | spaceName
  | alreadyInitiated
  | outOfBounds
  | index (e : Failure)
  deriving DecidableEq, Repr

/-- `get_input_array_shapes` -/
def getInputArrayShapes (buffer : NdArray F) : Except PyError (Nat × Nat) :=
  match buffer.shape with
  | [rows, features] => .ok (rows, features)
  | [features] => .ok (1, features)
  | shape => .error (.wrongShape shape.length)

/-- `get_input_ids_and_check_shapes`; an array of one axis or none is copied as it is. -/
def getInputIdsAndCheckShapes (ids : Option (NdArray LabelType)) (featureRows : Nat) :
    Except PyError (List LabelType) :=
  match ids with
  | none => .ok []
  | some items =>
    if items.shape = [featureRows] ∨ items.shape = [] ∧ featureRows = 1 then .ok items.data
    else .error (.labelShape items.shape.length featureRows)

/-- The operations of `float` in `normalize_vector`; `scale` is `1.0f / (sqrtf(norm) + 1e-30f)`. -/
structure FloatOps (F : Type) where
  zero : F
  add : F → F → F
  mul : F → F → F
  scale : F → F

def normalizeVector (O : FloatOps F) (data : List F) : List F :=
  let norm := O.scale (data.foldl (fun norm x => O.add norm (O.mul x x)) O.zero)
  data.map fun x => O.mul x norm

inductive SpaceName where
  | l2
  | ip
  | cosine
  deriving DecidableEq, Repr

/-- The comparisons of the constructor. -/
def SpaceName.parse (s : String) : Option SpaceName :=
  if s = "l2" then some l2
  else if s = "ip" then some ip
  else if s = "cosine" then some cosine
  else none

/-- The fields of `Index` that are read below. A vector has an entry. -/
structure PyIndex (F : Type) where
  dim : Nat
  dim_pos : 0 < dim
  defaultEf : Nat
  epAdded : Bool
  normalize : Bool
  numThreadsDefault : Int
  curL : LabelType
  apprAlg : Option (Index (List F))

namespace PyIndex

/-- `Index(space_name, dim)`. The constructor does not set `cur_l`. -/
def new (space : String) (dim : Nat) (hdim : 0 < dim) (hardwareConcurrency : Nat) (curL : LabelType) :
    Except PyError (PyIndex F) :=
  match SpaceName.parse space with
  | none => .error .spaceName
  | some name => .ok
    { dim := dim
      dim_pos := hdim
      defaultEf := 10
      epAdded := true
      normalize := name = .cosine
      numThreadsDefault := hardwareConcurrency
      curL := curL
      apprAlg := none }

/-- `init_new_index`, for vectors of `dim` floats. -/
def initNewIndex [LinearOrder D] (P : Platform (List F) D) (x : PyIndex F)
    (maxElements M efConstruction : Nat) (allowReplaceDeleted mallocLevel0 mallocLinkLists : Bool) :
    Except PyError Unit × PyIndex F :=
  if x.apprAlg.isSome then (.error .alreadyInitiated, x)
  else
    let x := { x with curL := 0 }
    match Index.construct P (x.dim * 4) maxElements M efConstruction allowReplaceDeleted
        mallocLevel0 mallocLinkLists with
    | .error e => (.error (.index e), x)
    | .ok s => (.ok (), { x with apprAlg := some (s.setEf x.defaultEf), epAdded := false })

end PyIndex

/-- What `add_items` works with once its arguments have been checked. -/
structure Items (F : Type) where
  rows : Nat
  numThreads : Int
  vector : Nat → List F
  label : Nat → LabelType

/-- The first part of `add_items`. The number of rows is compared with four times the number of
threads as a `size_t`. -/
def PyIndex.items (O : FloatOps F) (x : PyIndex F) (input : NdArray F)
    (ids : Option (NdArray LabelType)) (numThreads : Int) : Except PyError (Items F) := do
  let numThreads := if numThreads ≤ 0 then x.numThreadsDefault else numThreads
  let (rows, features) ← getInputArrayShapes input
  if features ≠ x.dim then throw .wrongDimensionality
  let numThreads := if (rows : Int) ≤ numThreads * 4 % sizeT then 1 else numThreads
  let ids ← getInputIdsAndCheckShapes ids rows
  let vector := fun row =>
    if x.normalize then normalizeVector O (input.row features row) else input.row features row
  let label := fun row => if ids.length ≠ 0 then ids.getD row 0 else (x.curL + row) % sizeT
  pure ⟨rows, numThreads, vector, label⟩

end HnswRvv.Bindings
