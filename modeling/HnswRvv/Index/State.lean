import HnswRvv.Framework.Memory

/-!
# The state of an index

An element owns a record of the level-0 block (a link list, a vector, a label) and one link list
for every upper level. A link list is a count word followed by its entries. The low half of the
word is the count; bit 16 of the word at level 0 is the delete mark.

Internal ids are natural numbers that do not wrap. The source keeps them in a `tableint`, and
`searchBaseLayerST` in an `int` (`candidate_id`), so a statement about an index is one about the
source as long as there are fewer than `2 ^ 31` elements; the statements do not repeat this.
`enterpoint_node_ = -1` is `none`, and a null pointer to upper lists is an empty memory.
-/

namespace HnswRvv

open Framework

abbrev TableInt := Nat
abbrev LabelType := Nat

/-- A `linklistsizeint` and the entries behind it. -/
structure LinkList where
  word : BitVec 32
  data : Memory TableInt
  deriving DecidableEq, Repr

namespace LinkList

/-- The list that `memset` leaves: a zero word, and entries that read as zero. -/
instance : Inhabited LinkList := ⟨⟨0, default⟩⟩

/-- The word read as an `unsigned short`. -/
def getListCount (ll : LinkList) : Nat := (ll.word.setWidth 16).toNat

/-- An `unsigned short` stored over the low half of the word. -/
def setListCount (ll : LinkList) (size : Nat) : LinkList :=
  { ll with word := ll.word &&& 0xFFFF0000#32 ||| (BitVec.ofNat 16 size).setWidth 32 }

/-- The third byte of the word against `DELETE_MARK = 0x01`: bit 16 of the word. -/
def isMarked (ll : LinkList) : Bool := ll.word.getLsbD 16

def setMark (ll : LinkList) : LinkList := { ll with word := ll.word ||| 0x00010000#32 }

def clearMark (ll : LinkList) : LinkList := { ll with word := ll.word &&& ~~~0x00010000#32 }

def connections (ll : LinkList) : List TableInt := ll.data.slice ll.getListCount

/-- `data[idx] = id; data[idx + 1] = …` -/
def writeEntries (ll : LinkList) : Nat → List TableInt → LinkList
  | _, [] => ll
  | idx, id :: ids => writeEntries { ll with data := ll.data.write idx id } (idx + 1) ids

@[simp] theorem getListCount_setListCount (ll : LinkList) {n : Nat} (h : n < 65536) :
    (ll.setListCount n).getListCount = n := by
  have hw : (ll.setListCount n).word.setWidth 16 = BitVec.ofNat 16 n := by
    ext i hi
    have hbit : (0xFFFF0000#32).getLsbD i = false := by interval_cases i <;> rfl
    simp only [setListCount, BitVec.getElem_setWidth, BitVec.getLsbD_or, BitVec.getLsbD_and,
      BitVec.getLsbD_setWidth, hbit, Bool.and_false, Bool.false_or, show i < 32 by omega,
      decide_true, Bool.true_and]
    exact BitVec.getLsbD_eq_getElem hi
  rw [getListCount, hw, BitVec.toNat_ofNat, Nat.mod_eq_of_lt h]

@[simp] theorem isMarked_setListCount (ll : LinkList) (n : Nat) :
    (ll.setListCount n).isMarked = ll.isMarked := by
  simp [isMarked, setListCount]

@[simp] theorem isMarked_setMark (ll : LinkList) : ll.setMark.isMarked = true := by
  simp [isMarked, setMark]

@[simp] theorem isMarked_clearMark (ll : LinkList) : ll.clearMark.isMarked = false := by
  simp [isMarked, clearMark]

private theorem setWidth_eq_of_low {v w : BitVec 32}
    (h : ∀ i, i < 16 → v.getLsbD i = w.getLsbD i) : v.setWidth 16 = w.setWidth 16 := by
  ext i hi
  simpa [BitVec.getElem_setWidth] using h i hi

@[simp] theorem getListCount_setMark (ll : LinkList) : ll.setMark.getListCount = ll.getListCount := by
  rw [getListCount, getListCount]
  refine congrArg BitVec.toNat (setWidth_eq_of_low fun i hi => ?_)
  have hbit : (0x00010000#32).getLsbD i = false := by interval_cases i <;> rfl
  rw [setMark, BitVec.getLsbD_or, hbit, Bool.or_false]

@[simp] theorem getListCount_clearMark (ll : LinkList) :
    ll.clearMark.getListCount = ll.getListCount := by
  rw [getListCount, getListCount]
  refine congrArg BitVec.toNat (setWidth_eq_of_low fun i hi => ?_)
  have hbit : (~~~0x00010000#32).getLsbD i = true := by interval_cases i <;> rfl
  rw [clearMark, BitVec.getLsbD_and, hbit, Bool.and_true]

@[simp] theorem connections_setMark (ll : LinkList) : ll.setMark.connections = ll.connections := by
  rw [connections, connections, getListCount_setMark]
  rfl

@[simp] theorem connections_clearMark (ll : LinkList) :
    ll.clearMark.connections = ll.connections := by
  rw [connections, connections, getListCount_clearMark]
  rfl

@[simp] theorem connections_default : (default : LinkList).connections = [] := rfl

@[simp] theorem isMarked_default : (default : LinkList).isMarked = false := rfl

@[simp] theorem word_writeEntries (ll : LinkList) (idx : Nat) (ids : List TableInt) :
    (ll.writeEntries idx ids).word = ll.word := by
  induction ids generalizing ll idx with
  | nil => rfl
  | cons id ids ih => rw [writeEntries, ih]

@[simp] theorem isMarked_writeEntries (ll : LinkList) (idx : Nat) (ids : List TableInt) :
    (ll.writeEntries idx ids).isMarked = ll.isMarked := by
  rw [isMarked, isMarked, word_writeEntries]

private theorem slice_writeEntries (ll : LinkList) (idx : Nat) (ids : List TableInt) :
    (ll.writeEntries idx ids).data.slice (idx + ids.length) = ll.data.slice idx ++ ids := by
  induction ids generalizing ll idx with
  | nil => simp [writeEntries]
  | cons id ids ih =>
    rw [writeEntries, List.length_cons, show idx + (ids.length + 1) = idx + 1 + ids.length by omega,
      ih, Memory.slice_write_end, List.append_assoc]
    rfl

/-- Entries written from the start, and then the count set to their number. -/
theorem connections_writeEntries (ll : LinkList) {ids : List TableInt} (h : ids.length < 65536) :
    ((ll.writeEntries 0 ids).setListCount ids.length).connections = ids := by
  have hslice := slice_writeEntries ll 0 ids
  rw [Nat.zero_add, Memory.slice_zero, List.nil_append] at hslice
  rw [connections, getListCount_setListCount _ h]
  exact hslice

theorem connections_setListCount_writeEntries (ll : LinkList) {ids : List TableInt}
    (h : ids.length < 65536) :
    ((ll.setListCount ids.length).writeEntries 0 ids).connections = ids := by
  have hslice := slice_writeEntries (ll.setListCount ids.length) 0 ids
  rw [Nat.zero_add, Memory.slice_zero, List.nil_append] at hslice
  rw [connections, getListCount, word_writeEntries, ← getListCount,
    getListCount_setListCount _ h]
  exact hslice

theorem connections_push (ll : LinkList) (id : TableInt) (h : ll.getListCount + 1 < 65536) :
    ((ll.writeEntries ll.getListCount [id]).setListCount (ll.getListCount + 1)).connections =
      ll.connections ++ [id] := by
  rw [connections, getListCount_setListCount _ h]
  exact slice_writeEntries ll ll.getListCount [id]

@[simp] theorem length_connections (ll : LinkList) : ll.connections.length = ll.getListCount := by
  rw [connections, Memory.length_slice]

end LinkList

/-- The `std::runtime_error`s of the index. -/
inductive Exn where
  | notEnoughMemory
  | notEnoughMemoryLinklists
  | tooManyCandidates
  | nonBlankLinkList
  | memoryCorruption
  | nonExistentLevel
  | badListSize
  | selfConnection
  | cannotResize
  | resizeBaseLayer
  | resizeOtherLayers
  | labelNotFound
  | alreadyDeleted
  | notDeleted
  | replacementDisabled
  | levelAboveMax
  | updateDeleted
  | capacityExceeded
  | addPointLinklist
  | candError
  | levelError
  | cannotOpenFile
  | corruptedIndex
  | loadIndexLevel0
  | loadIndexLinklists
  | loadIndexLinklist
  deriving DecidableEq, Repr

/-- How a call ends without a result: by an exception, by a failed `assert`, by undefined
behaviour (`back()` of an empty vector, `top()` of an empty queue, an access through a null pointer
or behind the end of an array), or not at all. -/
inductive Failure where
  | thrown (e : Exn)
  | assertion
  | emptyBack
  | emptyTop
  | nullPointer
  | outOfBounds
  | unfinished
  deriving DecidableEq, Repr

/-- One record of `data_level0_memory_`. -/
structure Element (V : Type) where
  linklist0 : LinkList
  data : V
  label : LabelType
  deriving DecidableEq, Repr

instance {V : Type} [Inhabited V] : Inhabited (Element V) := ⟨⟨default, default, 0⟩⟩

/-- Byte sizes and offsets of a record, fixed when an index is built or loaded. -/
structure Layout where
  dataSize : Nat
  sizeLinksLevel0 : Nat
  sizeDataPerElement : Nat
  offsetData : Nat
  labelOffset : Nat
  offsetLevel0 : Nat
  sizeLinksPerElement : Nat
  deriving DecidableEq, Repr

/-- The number of elements each per-element array has room for. -/
structure Capacities where
  visitedList : Nat
  elementLevels : Nat
  linkListLocks : Nat
  dataLevel0Memory : Nat
  linkLists : Nat
  deriving DecidableEq, Repr

/-- The length of the visited lists: `VisitedListPool` takes it as an `int`, and a `VisitedList`
turns that into an `unsigned int`. -/
def visitedListLength (maxElements : Nat) : Nat := maxElements % 2 ^ 32

/-- The elements in a block of `n * bytes` bytes, a product of `size_t`s that may wrap. -/
def blockLength (bytes n : Nat) : Nat := n * bytes % 2 ^ 64 / bytes

/-- What arrays for `n` elements have room for once they are allocated. -/
def Capacities.allocated (sizeDataPerElement n : Nat) : Capacities :=
  ⟨visitedListLength n, n, n, blockLength sizeDataPerElement n, blockLength 8 n⟩

/-- The fields of `HierarchicalNSW` that its methods read; `mult` is the bit pattern of `mult_`. -/
structure Index (V : Type) where
  maxElements : Nat
  curElementCount : Nat
  numDeleted : Nat
  M : Nat
  maxM : Nat
  maxM0 : Nat
  efConstruction : Nat
  ef : Nat
  mult : BitVec 64
  maxlevel : Int
  enterpointNode : Option TableInt
  layout : Layout
  capacities : Capacities
  dataLevel0Memory : Memory (Element V)
  linkLists : Memory (Memory LinkList)
  elementLevels : Memory Nat
  labelLookup : LabelType → Option TableInt
  allowReplaceDeleted : Bool
  deletedElements : Finset TableInt

namespace Index

variable {V : Type} [Inhabited V]

def getExternalLabel (s : Index V) (i : TableInt) : LabelType := (s.dataLevel0Memory.read i).label

def setExternalLabel (s : Index V) (i : TableInt) (label : LabelType) : Index V :=
  { s with dataLevel0Memory :=
      s.dataLevel0Memory.write i { s.dataLevel0Memory.read i with label := label } }

def getDataByInternalId (s : Index V) (i : TableInt) : V := (s.dataLevel0Memory.read i).data

/-- `memcpy(getDataByInternalId(i), dataPoint, data_size_)` -/
def setData (s : Index V) (i : TableInt) (x : V) : Index V :=
  { s with dataLevel0Memory :=
      s.dataLevel0Memory.write i { s.dataLevel0Memory.read i with data := x } }

def level (s : Index V) (i : TableInt) : Nat := s.elementLevels.read i

def getLinklistAtLevel (s : Index V) (i : TableInt) (level : Nat) : LinkList :=
  if level = 0 then (s.dataLevel0Memory.read i).linklist0
  else (s.linkLists.read i).read (level - 1)

/-- Store a link list where `get_linklist_at_level` points. -/
def setLinklistAtLevel (s : Index V) (i : TableInt) (level : Nat) (ll : LinkList) : Index V :=
  if level = 0 then
    { s with dataLevel0Memory :=
        s.dataLevel0Memory.write i { s.dataLevel0Memory.read i with linklist0 := ll } }
  else
    { s with linkLists := s.linkLists.write i ((s.linkLists.read i).write (level - 1) ll) }

/-- `linkLists_[i]` is null although the element has upper levels. -/
abbrev LacksLists (s : Index V) (i : TableInt) : Prop := s.level i ≠ 0 ∧ s.linkLists.read i = default

def isMarkedDeleted (s : Index V) (i : TableInt) : Bool := (s.getLinklistAtLevel i 0).isMarked

/-- `getConnectionsWithLock`: the links of `i` at a level. -/
def connections (s : Index V) (i : TableInt) (level : Nat) : List TableInt :=
  (s.getLinklistAtLevel i level).connections

/-- `enterpoint_node_` as the number it is, `-1` included. -/
def entry (s : Index V) : TableInt := s.enterpointNode.getD 0xFFFFFFFF

/-- The links an element may hold at a level. -/
def maxLinks (s : Index V) (level : Nat) : Nat := if level = 0 then s.maxM0 else s.maxM

theorem getLinklistAtLevel_set (s : Index V) (i j : TableInt) (l l' : Nat) (ll : LinkList) :
    (s.setLinklistAtLevel i l ll).getLinklistAtLevel j l' =
      if j = i ∧ l' = l then ll else s.getLinklistAtLevel j l' := by
  unfold setLinklistAtLevel getLinklistAtLevel
  rcases Nat.eq_zero_or_pos l with rfl | hl <;> rcases Nat.eq_zero_or_pos l' with rfl | hl'
  · by_cases h : j = i <;> simp [Memory.read_write, h]
  · simp [hl'.ne']
  · simp [hl.ne', hl.ne]
  · simp only [hl.ne', hl'.ne', if_false, Memory.read_write]
    by_cases h : j = i
    · subst h
      simp only [if_true, Memory.read_write, true_and]
      simp only [show l' - 1 = l - 1 ↔ l' = l by omega]
    · simp [h]

@[simp] theorem getLinklistAtLevel_set_self (s : Index V) (i : TableInt) (l : Nat) (ll : LinkList) :
    (s.setLinklistAtLevel i l ll).getLinklistAtLevel i l = ll := by
  simp [getLinklistAtLevel_set]

theorem read_setLinklistAtLevel (s : Index V) (i j : TableInt) (l : Nat) (ll : LinkList) :
    ((s.setLinklistAtLevel i l ll).dataLevel0Memory.read j).data = (s.dataLevel0Memory.read j).data ∧
      ((s.setLinklistAtLevel i l ll).dataLevel0Memory.read j).label =
        (s.dataLevel0Memory.read j).label := by
  unfold setLinklistAtLevel
  split
  · by_cases h : j = i <;> simp [Memory.read_write, h]
  · exact ⟨rfl, rfl⟩

end Index

end HnswRvv
