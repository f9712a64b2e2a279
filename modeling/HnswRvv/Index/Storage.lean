import HnswRvv.Framework.ByteStream
import HnswRvv.Index.Insert

/-!
# The index file

`saveIndex` writes a header, the level-0 block and, for every element, the byte length of its
upper lists and these lists. `loadIndex` checks the lengths against the size of the file and then
reads everything into an object that may have been in use. A load that fails keeps what it has
read by then.
-/

namespace HnswRvv

open Framework

/-- The bytes of the vectors of a space, `get_data_size()` of them for each. -/
structure VectorBytes (V : Type) (dataSize : Nat) where
  encode : V → List Byte
  decode : List Byte → V
  length_encode : ∀ x, (encode x).length = dataSize
  decode_encode : ∀ x, decode (encode x) = x

def singleByte : VectorBytes Byte 1 where
  encode x := [x]
  decode l := l.headD 0
  length_encode _ := rfl
  decode_encode _ := rfl

namespace LinkList

def bytes (maxLinks : Nat) (ll : LinkList) : List Byte :=
  leBytes 4 ll.word.toNat ++ (ll.data.slice maxLinks).flatMap (leBytes 4)

def ofBytes (maxLinks : Nat) (block : List Byte) (offset : Nat) : LinkList where
  word := BitVec.ofNat 32 (leValue (fieldAt block offset 4))
  data := ⟨(List.range maxLinks).map fun j => leValue (fieldAt block (offset + 4 + j * 4) 4)⟩

end LinkList

namespace Index

variable {V : Type} [Inhabited V] {dataSize : Nat}

/-- A record of the level-0 block as the constructor lays it out. -/
def recordBytes (C : VectorBytes V dataSize) (maxM0 : Nat) (e : Element V) : List Byte :=
  e.linklist0.bytes maxM0 ++ (C.encode e.data ++ leBytes 8 e.label)

/-- `linkListSize`, an `unsigned int`. -/
def linkListSize (s : Index V) (i : TableInt) : Nat :=
  (if 0 < s.level i then s.layout.sizeLinksPerElement * s.level i else 0) % 2 ^ 32

/-- The bytes that `linkLists_[i]` points to. -/
def linkListsBytes (s : Index V) (i : TableInt) : List Byte :=
  ((s.linkLists.read i).slice (s.level i)).flatMap (LinkList.bytes s.maxM)

def headerBytes (s : Index V) : List Byte :=
  leBytes 8 s.layout.offsetLevel0 ++ leBytes 8 s.maxElements ++ leBytes 8 s.curElementCount ++
  leBytes 8 s.layout.sizeDataPerElement ++ leBytes 8 s.layout.labelOffset ++
  leBytes 8 s.layout.offsetData ++ leBytes 4 (BitVec.ofInt 32 s.maxlevel).toNat ++
  leBytes 4 s.entry ++ leBytes 8 s.maxM ++ leBytes 8 s.maxM0 ++ leBytes 8 s.M ++
  leBytes 8 s.mult.toNat ++ leBytes 8 s.efConstruction

def level0Bytes (C : VectorBytes V dataSize) (s : Index V) : List Byte :=
  (s.dataLevel0Memory.slice s.curElementCount).flatMap (recordBytes C s.maxM0)

/-- One round of the last loop of `saveIndex`. -/
def elementListsBytes (s : Index V) (i : TableInt) : List Byte :=
  leBytes 4 (s.linkListSize i) ++ (s.linkListsBytes i).take (s.linkListSize i)

def saveIndex (C : VectorBytes V dataSize) (s : Index V) : List Byte :=
  s.headerBytes ++ (s.level0Bytes C ++ (List.range s.curElementCount).flatMap s.elementListsBytes)

def indexFileSize (s : Index V) : Nat :=
  8 + 8 + 8 + 8 + 8 + 8 + 4 + 4 + 8 + 8 + 8 + 8 + 8 +
    s.curElementCount * s.layout.sizeDataPerElement +
    ((List.range s.curElementCount).map fun i => 4 + s.linkListSize i).sum

/-- An object that no constructor but the one from a space has touched. -/
def unloaded (allowReplaceDeleted : Bool) : Index V where
  maxElements := 0
  curElementCount := 0
  numDeleted := 0
  M := 0
  maxM := 0
  maxM0 := 0
  efConstruction := 0
  ef := 0
  mult := 0
  maxlevel := 0
  enterpointNode := some 0
  layout := ⟨0, 0, 0, 0, 0, 0, 0⟩
  capacities := ⟨0, 0, 0, 0, 0⟩
  dataLevel0Memory := default
  linkLists := default
  elementLevels := default
  labelLookup := fun _ => none
  allowReplaceDeleted := allowReplaceDeleted
  deletedElements := ∅

/-- `clear()`: labels, levels and the count of deleted elements stay. -/
def clear (s : Index V) : Index V :=
  { s with
    curElementCount := 0
    dataLevel0Memory := default
    linkLists := default
    capacities := { s.capacities with visitedList := 0, dataLevel0Memory := 0, linkLists := 0 } }

abbrev LoadM (V : Type) := EStateM Failure (Index V × InStream)

/-- A field of the object read from the file. -/
def readBinaryPOD (n : Nat) (old : Index V → Nat) (put : Nat → Index V → Index V) : LoadM V Unit :=
  modify fun p => (put (p.2.readField n (old p.1)).1 p.1, (p.2.readField n (old p.1)).2)

def modifyIndex (f : Index V → Index V) : LoadM V Unit := modify fun p => (f p.1, p.2)

def modifyInput (f : InStream → InStream) : LoadM V Unit := modify fun p => (p.1, f p.2)

def loadHeader (maxElementsI : Nat) : LoadM V Unit := do
  readBinaryPOD 8 (·.layout.offsetLevel0)
    fun x s => { s with layout := { s.layout with offsetLevel0 := x } }
  readBinaryPOD 8 (·.maxElements) fun x s => { s with maxElements := x }
  readBinaryPOD 8 (·.curElementCount) fun x s => { s with curElementCount := x }
  modifyIndex fun s => { s with
    maxElements := if maxElementsI < s.curElementCount then s.maxElements else maxElementsI }
  readBinaryPOD 8 (·.layout.sizeDataPerElement)
    fun x s => { s with layout := { s.layout with sizeDataPerElement := x } }
  readBinaryPOD 8 (·.layout.labelOffset)
    fun x s => { s with layout := { s.layout with labelOffset := x } }
  readBinaryPOD 8 (·.layout.offsetData)
    fun x s => { s with layout := { s.layout with offsetData := x } }
  readBinaryPOD 4 (fun s => (BitVec.ofInt 32 s.maxlevel).toNat)
    fun x s => { s with maxlevel := (BitVec.ofNat 32 x).toInt }
  readBinaryPOD 4 (·.entry)
    fun x s => { s with enterpointNode := if x = 0xFFFFFFFF then none else some x }
  readBinaryPOD 8 (·.maxM) fun x s => { s with maxM := x }
  readBinaryPOD 8 (·.maxM0) fun x s => { s with maxM0 := x }
  readBinaryPOD 8 (·.M) fun x s => { s with M := x }
  readBinaryPOD 8 (·.mult.toNat) fun x s => { s with mult := BitVec.ofNat 64 x }
  readBinaryPOD 8 (·.efConstruction) fun x s => { s with efConstruction := x }

/-- One round of the check: skip the lists of an element. -/
def checkLinkList (totalFilesize : Nat) : LoadM V Unit := do
  let p ← get
  if p.2.tellg < 0 ∨ (totalFilesize : Int) ≤ p.2.tellg then throw (.thrown .corruptedIndex)
  else
    set (p.1, if (p.2.readField 4 0).1 ≠ 0 then
      (p.2.readField 4 0).2.seekCur (p.2.readField 4 0).1 else (p.2.readField 4 0).2)

/-- The size of the level-0 block as a `size_t`. -/
def level0Size (s : Index V) : BitVec 64 :=
  BitVec.ofNat 64 (s.curElementCount * s.layout.sizeDataPerElement)

/-- `/// Optional - check if index is ok:` -/
def checkFile (totalFilesize : Nat) : LoadM V Unit := do
  let p ← get
  modifyInput (·.seekCur p.1.level0Size.toInt)
  forM (List.range p.1.curElementCount) fun _ => checkLinkList totalFilesize
  let p ← get
  if p.2.tellg ≠ totalFilesize then throw (.thrown .corruptedIndex)
  else modifyInput InStream.clear

/-- Record `i` of a level-0 block, at the offsets that were read. -/
def recordOfBytes (C : VectorBytes V dataSize) (s : Index V) (block : List Byte) (i : TableInt) :
    Element V where
  linklist0 := LinkList.ofBytes s.maxM0 block
    (i * s.layout.sizeDataPerElement + s.layout.offsetLevel0)
  data := C.decode
    (fieldAt block (i * s.layout.sizeDataPerElement + s.layout.offsetData) dataSize)
  label := leValue (fieldAt block (i * s.layout.sizeDataPerElement + s.layout.labelOffset) 8)

/-- `data_level0_memory_` filled with a block. -/
def withLevel0 (C : VectorBytes V dataSize) (block : List Byte) (s : Index V) : Index V :=
  { s with dataLevel0Memory := ⟨(List.range s.curElementCount).map (s.recordOfBytes C block)⟩ }

def loadLevel0 (C : VectorBytes V dataSize) : LoadM V Unit := do
  let p ← get
  set (p.1.withLevel0 C (p.2.read p.1.level0Size.toNat).1, (p.2.read p.1.level0Size.toNat).2)

/-- The lists in the block of an element of level `level`. -/
def linkListsOfBytes (s : Index V) (block : List Byte) (level : Nat) : Memory LinkList :=
  ⟨(List.range level).map fun l =>
    LinkList.ofBytes s.maxM block (l * s.layout.sizeLinksPerElement)⟩

/-- One round of the loop that reads the lists of the elements. -/
def loadElement (malloc : Bool) (i : TableInt) : LoadM V Unit := do
  modifyIndex fun s => { s with
    labelLookup := fun l => if l = s.getExternalLabel i then some i else s.labelLookup l }
  let p ← get
  let linkListSize := (p.2.readField 4 0).1
  let input := (p.2.readField 4 0).2
  if linkListSize = 0 then
    set ({ p.1 with
      elementLevels := p.1.elementLevels.write i 0
      linkLists := p.1.linkLists.write i default }, input)
  else do
    let level := linkListSize / p.1.layout.sizeLinksPerElement
    set ({ p.1 with elementLevels := p.1.elementLevels.write i level }, input)
    if malloc = false then throw (.thrown .loadIndexLinklist)
    else
      modify fun p =>
        ({ p.1 with
          linkLists :=
            p.1.linkLists.write i (p.1.linkListsOfBytes (p.2.read linkListSize).1 level) },
          (p.2.read linkListSize).2)

/-- One round of the loop over the delete marks. -/
def countDeleted (i : TableInt) : LoadM V Unit :=
  modifyIndex fun s =>
    if s.isMarkedDeleted i then
      { s with
        numDeleted := s.numDeleted + 1
        deletedElements :=
          if s.allowReplaceDeleted then insert i s.deletedElements else s.deletedElements }
    else s

/-- `data_size_ = s->get_data_size()` -/
def withDataSize (dataSize : Nat) (s : Index V) : Index V :=
  { s with layout := { s.layout with dataSize := dataSize } }

/-- The sizes of link lists, the locks and the visited lists, after the level-0 block. -/
def withLinkSizes (s : Index V) : Index V :=
  { s with
    layout := { s.layout with
      sizeLinksPerElement := s.maxM * 4 + 4
      sizeLinksLevel0 := s.maxM0 * 4 + 4 }
    capacities := { s.capacities with
      dataLevel0Memory := blockLength s.layout.sizeDataPerElement s.maxElements
      linkListLocks := s.maxElements
      visitedList := visitedListLength s.maxElements } }

/-- Room for the upper lists and the levels. -/
def withListPointers (s : Index V) : Index V :=
  { s with
    capacities := { s.capacities with
      linkLists := blockLength 8 s.maxElements
      elementLevels := s.maxElements }
    linkLists := default
    elementLevels := default
    ef := 10 }

/-- The two loops at the end of `loadIndex`. -/
def loadElements (malloc : Bool) : LoadM V Unit := do
  let p ← get
  forM (List.range p.1.curElementCount) (loadElement malloc)
  forM (List.range p.1.curElementCount) countDeleted

/-- `loadIndex` behind its check. -/
def loadBody (C : VectorBytes V dataSize) (mallocLevel0 mallocLinkLists malloc : Bool) :
    LoadM V Unit := do
  if mallocLevel0 = false then throw (.thrown .loadIndexLevel0)
  loadLevel0 C
  modifyIndex withLinkSizes
  if mallocLinkLists = false then throw (.thrown .loadIndexLinklists)
  modifyIndex withListPointers
  loadElements malloc

/-- `loadIndex` on an open file; the flags say whether the three allocations succeed. -/
def loadFrom (C : VectorBytes V dataSize) (maxElementsI : Nat)
    (mallocLevel0 mallocLinkLists malloc : Bool) : LoadM V Unit := do
  let p ← get
  loadHeader maxElementsI
  modifyIndex (withDataSize dataSize)
  let header ← get
  checkFile p.2.contents.length
  modifyInput (·.seekBeg header.2.tellg.toNat)
  loadBody C mallocLevel0 mallocLinkLists malloc

def loadIndex (C : VectorBytes V dataSize) (file : Option (List Byte)) (maxElementsI : Nat)
    (mallocLevel0 mallocLinkLists malloc : Bool) : IndexM V Unit := fun s =>
  match file with
  | none => .error (.thrown .cannotOpenFile) s
  | some contents =>
    match loadFrom C maxElementsI mallocLevel0 mallocLinkLists malloc
        (s.clear, InStream.opened contents) with
    | .ok _ p => .ok () p.1
    | .error e p => .error e p.1

end Index

end HnswRvv
