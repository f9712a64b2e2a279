import HnswRvv.Index.Search

/-!
# The brute-force index

`BruteforceSearch` keeps its elements in the first `cur_element_count` records of one block and a
dictionary from labels to records. A slot number passes through an `int` on its way into the
dictionary, and a removal moves the last record into the hole.

The block has one record for each of `maxelements_`: the `size_t` that the constructor passes to
`malloc`, `maxElements * size_per_element_`, is taken not to wrap.

What undefined behaviour there is ends a call: an access outside the block, and a loop counter of
type `int` that overflows. The lookup of the erased entry's slot number in `removePoint` reads the
number it had.
-/

namespace HnswRvv

open Framework

/-- One record of `data_`. -/
structure BruteforceRecord (V : Type) where
  data : V
  label : LabelType
  deriving DecidableEq, Repr

instance {V : Type} [Inhabited V] : Inhabited (BruteforceRecord V) := ⟨⟨default, 0⟩⟩

/-- The `std::runtime_error`s of the brute-force index. -/
inductive BruteforceExn where
  | allocateData
  | capacityExceeded
  | loadIndexData
  deriving DecidableEq, Repr

inductive BruteforceFailure where
  | thrown (e : BruteforceExn)
  | assertion
  | outOfBounds
  | overflow
  deriving DecidableEq, Repr

/-- Whether the program goes on after the failure. -/
def BruteforceFailure.isThrown : BruteforceFailure → Bool
  | thrown _ => true
  | _ => false

structure BruteforceSearch (V : Type) where
  data : Memory (BruteforceRecord V)
  maxElements : Nat
  curElementCount : Nat
  dictExternalToInternal : LabelType → Option Nat

structure BruteforcePlatform (V D : Type) [LinearOrder D] where
  fstdistfunc : V → V → D
  maxDist : D
  answers : PriorityQueue (D × LabelType) LexLess

/-- A `size_t` stored in an `int`. -/
def intOfSize (n : Nat) : Int := (BitVec.ofNat 32 n).toInt

private theorem intOfSize_of_lt {n : Nat} (h : n < 2 ^ 31) : intOfSize n = n := by
  rw [intOfSize, BitVec.toInt_eq_toNat_of_lt (by rw [BitVec.toNat_ofNat]; omega),
    BitVec.toNat_ofNat, Nat.mod_eq_of_lt (by omega)]

namespace BruteforceSearch

variable {V : Type} [Inhabited V]

abbrev BruteforceM (V : Type) := EStateM BruteforceFailure (BruteforceSearch V)

/-- An object that has just been built around an allocated block. -/
def built (maxElements : Nat) (block : Memory (BruteforceRecord V)) : BruteforceSearch V where
  data := block
  maxElements := maxElements
  curElementCount := 0
  dictExternalToInternal := fun _ => none

/-- The constructor; `block` is what the allocation holds, and `none` a failed one. -/
def construct (maxElements : Nat) (block : Option (Memory (BruteforceRecord V))) :
    Except BruteforceFailure (BruteforceSearch V) :=
  match block with
  | none => .error (.thrown .allocateData)
  | some block => .ok (built maxElements block)

def setEntry (s : BruteforceSearch V) (label : LabelType) (slot : Nat) : BruteforceSearch V :=
  { s with dictExternalToInternal := Function.update s.dictExternalToInternal label (some slot) }

def eraseEntry (s : BruteforceSearch V) (label : LabelType) : BruteforceSearch V :=
  { s with dictExternalToInternal := Function.update s.dictExternalToInternal label none }

/-- The two `memcpy`s at the end of `addPoint`. -/
def copyRecord (datapoint : V) (label : LabelType) (idx : Int) : BruteforceM V Unit := do
  let s ← get
  if 0 ≤ idx ∧ idx < s.maxElements then
    set { s with data := s.data.write idx.toNat ⟨datapoint, label⟩ }
  else throw .outOfBounds

def addPoint (datapoint : V) (label : LabelType) : BruteforceM V Unit := do
  let s ← get
  match s.dictExternalToInternal label with
  | some slot => copyRecord datapoint label (intOfSize slot)
  | none =>
    if s.maxElements ≤ s.curElementCount then throw (.thrown .capacityExceeded)
    else
      let idx := intOfSize s.curElementCount
      -- a negative `idx` becomes a slot number near `2 ^ 64`
      set { s.setEntry label (BitVec.ofInt 64 idx).toNat with
        curElementCount := s.curElementCount + 1 }
      copyRecord datapoint label idx

def removePoint (curExternal : LabelType) : BruteforceM V Unit := do
  let s ← get
  match s.dictExternalToInternal curExternal with
  | none => pure ()
  | some curC =>
    -- `cur_element_count - 1` wraps around at zero
    if s.curElementCount = 0 ∨ s.maxElements < s.curElementCount ∨ s.maxElements ≤ curC then
      throw .outOfBounds
    else
      let last := s.data.read (s.curElementCount - 1)
      set { (s.eraseEntry curExternal).setEntry last.label curC with
        data := s.data.write curC last
        curElementCount := s.curElementCount - 1 }

inductive Update (V : Type) where
  | addPoint (datapoint : V) (label : LabelType)
  | removePoint (curExternal : LabelType)

def Update.run : Update V → BruteforceM V Unit
  | .addPoint datapoint label => BruteforceSearch.addPoint datapoint label
  | .removePoint curExternal => BruteforceSearch.removePoint curExternal

section Calls

variable {s : BruteforceSearch V} {x : V} {label : LabelType} {slot : Nat}

theorem addPoint_update (h : s.dictExternalToInternal label = some slot)
    (hmax : slot < s.maxElements) (hint : slot < 2 ^ 31) :
    addPoint x label s = .ok () { s with data := s.data.write slot ⟨x, label⟩ } := by
  simp [addPoint, copyRecord, h, intOfSize_of_lt hint, hmax, get, getThe, MonadStateOf.get,
    EStateM.get, bind, EStateM.bind, set, EStateM.set]

theorem addPoint_full (h : s.dictExternalToInternal label = none)
    (hfull : s.maxElements ≤ s.curElementCount) :
    addPoint x label s = .error (.thrown .capacityExceeded) s := by
  simp [addPoint, h, hfull, get, getThe, MonadStateOf.get, EStateM.get, bind, EStateM.bind, throw,
    throwThe, MonadExceptOf.throw, EStateM.throw]

theorem addPoint_insert (h : s.dictExternalToInternal label = none)
    (hroom : s.curElementCount < s.maxElements) :
    addPoint x label s = copyRecord x label (intOfSize s.curElementCount)
      { s.setEntry label (BitVec.ofInt 64 (intOfSize s.curElementCount)).toNat with
        curElementCount := s.curElementCount + 1 } := by
  simp [addPoint, h, hroom.not_ge, get, getThe, MonadStateOf.get, EStateM.get, bind, EStateM.bind,
    set, EStateM.set]

theorem addPoint_new (h : s.dictExternalToInternal label = none)
    (hroom : s.curElementCount < s.maxElements) (hint : s.curElementCount < 2 ^ 31) :
    addPoint x label s = .ok () { s.setEntry label s.curElementCount with
      data := s.data.write s.curElementCount ⟨x, label⟩
      curElementCount := s.curElementCount + 1 } := by
  have hslot : (BitVec.ofInt 64 (s.curElementCount : Int)).toNat = s.curElementCount := by
    rw [BitVec.ofInt_natCast, BitVec.toNat_ofNat, Nat.mod_eq_of_lt (by omega)]
  rw [addPoint_insert h hroom, intOfSize_of_lt hint, hslot]
  simp [copyRecord, setEntry, hroom, get, getThe, MonadStateOf.get, EStateM.get, bind, EStateM.bind,
    set, EStateM.set]

theorem removePoint_absent (h : s.dictExternalToInternal label = none) :
    removePoint label s = .ok () s := by
  simp [removePoint, h, get, getThe, MonadStateOf.get, EStateM.get, bind, EStateM.bind, pure,
    EStateM.pure]

theorem removePoint_empty (h : s.dictExternalToInternal label = some slot)
    (hzero : s.curElementCount = 0) : removePoint label s = .error .outOfBounds s := by
  simp [removePoint, h, hzero, get, getThe, MonadStateOf.get, EStateM.get, bind, EStateM.bind, throw,
    throwThe, MonadExceptOf.throw, EStateM.throw]

theorem removePoint_present (h : s.dictExternalToInternal label = some slot)
    (hpos : 0 < s.curElementCount) (hcount : s.curElementCount ≤ s.maxElements)
    (hmax : slot < s.maxElements) :
    removePoint label s = .ok ()
      { (s.eraseEntry label).setEntry (s.data.read (s.curElementCount - 1)).label slot with
        data := s.data.write slot (s.data.read (s.curElementCount - 1))
        curElementCount := s.curElementCount - 1 } := by
  simp [removePoint, h, hpos.ne', hcount.not_gt, hmax.not_ge, get, getThe, MonadStateOf.get,
    EStateM.get, bind, EStateM.bind, set, EStateM.set]

end Calls

section Search

variable {D : Type} [LinearOrder D] (P : BruteforcePlatform V D) (s : BruteforceSearch V)
  (queryData : V) (k : Nat) (isIdAllowed : Option (LabelType → Bool))

/-- The pair that a query sees in a slot. -/
def pairAt (i : Nat) : D × LabelType :=
  (P.fstdistfunc queryData (s.data.read i).data, (s.data.read i).label)

/-- `if ((!isIdAllowed) || (*isIdAllowed)(label)) topResults.emplace(dist, label)` -/
def emplaceAllowed (topResults : P.answers.Carrier) (i : Nat) : P.answers.Carrier :=
  if accepts isIdAllowed (s.data.read i).label then P.answers.push topResults (pairAt P s queryData i)
  else topResults

def scanSlot (acc : P.answers.Carrier × D) (i : Nat) : P.answers.Carrier × D :=
  if (pairAt P s queryData i).1 ≤ acc.2 then
    let topResults := emplaceAllowed P s queryData isIdAllowed acc.1 i
    let topResults := if k < P.answers.size topResults then P.answers.pop topResults else topResults
    (topResults, ((P.answers.top topResults).map (·.1)).getD acc.2)
  else acc

def searchKnn : Except BruteforceFailure P.answers.Carrier :=
  if s.curElementCount < k then .error .assertion
  else if s.curElementCount = 0 then .ok P.answers.empty
  else if 2 ^ 31 ≤ s.curElementCount then .error .overflow
  else
    let topResults := (List.range k).foldl (emplaceAllowed P s queryData isIdAllowed) P.answers.empty
    let lastdist := ((P.answers.top topResults).map (·.1)).getD P.maxDist
    .ok ((List.range' k (s.curElementCount - k)).foldl (scanSlot P s queryData k isIdAllowed)
      (topResults, lastdist)).1

end Search

end BruteforceSearch

end HnswRvv
