import HnswRvv.Framework.WeakestPre
import HnswRvv.Index.Search

/-!
# Building and changing an index

The constructor, `addPoint` in both forms, `updatePoint` with its repair, the delete marks,
`resizeIndex` and `getDataByLabel`. A call runs in a monad that keeps the state at a failure, so
a call that throws leaves behind what it had written by then.
-/

namespace HnswRvv

open Framework OrderDual

/-- What a call does not determine by itself: the drawn level, the draws of `updatePoint` (by layer
and position), the order in which an `unordered_set` is traversed, its first element, and whether
allocations succeed. -/
structure Choices where
  randomLevel : Nat
  skipNeighbor : Nat → Nat → Bool
  traversal : List TableInt → List TableInt
  traversal_perm : ∀ l, (traversal l).Perm l
  begin_ : Finset TableInt → TableInt
  begin_mem : ∀ d : Finset TableInt, d.Nonempty → begin_ d ∈ d
  malloc : Bool
  reallocLevel0 : Bool
  reallocLinkLists : Bool

abbrev IndexM (V : Type) := EStateM Failure (Index V)

namespace Index

variable {V D : Type} [Inhabited V] [LinearOrder D]

/-- The constructor; the flags say whether its two allocations succeed. -/
def construct (P : Platform V D) (dataSize maxElements M efConstruction : Nat)
    (allowReplaceDeleted : Bool) (mallocLevel0 mallocLinkLists : Bool) : Except Failure (Index V) :=
  let M := if M ≤ 10000 then M else 10000
  let maxM := M
  let maxM0 := M * 2
  let sizeLinksLevel0 := maxM0 * 4 + 4
  if !mallocLevel0 then .error (.thrown .notEnoughMemory)
  else if !mallocLinkLists then .error (.thrown .notEnoughMemoryLinklists)
  else .ok
    { maxElements := maxElements
      curElementCount := 0
      numDeleted := 0
      M := M
      maxM := maxM
      maxM0 := maxM0
      efConstruction := max efConstruction M
      ef := 10
      mult := P.invLog M
      maxlevel := -1
      enterpointNode := none
      layout :=
        { dataSize := dataSize
          sizeLinksLevel0 := sizeLinksLevel0
          sizeDataPerElement := sizeLinksLevel0 + dataSize + 8
          offsetData := sizeLinksLevel0
          labelOffset := sizeLinksLevel0 + dataSize
          offsetLevel0 := 0
          sizeLinksPerElement := maxM * 4 + 4 }
      capacities := .allocated (sizeLinksLevel0 + dataSize + 8) maxElements
      dataLevel0Memory := default
      linkLists := default
      elementLevels := default
      labelLookup := fun _ => none
      allowReplaceDeleted := allowReplaceDeleted
      deletedElements := ∅ }

section Links

variable (P : Platform V D)

/-- The selection loop: `rest` in the order of `queue_closest`, `kept` is `return_list`. -/
def selectClosest (s : Index V) (M : Nat) :
    List (Dᵒᵈ × TableInt) → List (Dᵒᵈ × TableInt) → List (Dᵒᵈ × TableInt)
  | [], kept => kept
  | cur :: rest, kept =>
    if M ≤ kept.length then kept
    else if kept.any fun second => decide
        (P.fstdistfunc (s.getDataByInternalId second.2) (s.getDataByInternalId cur.2) <
          ofDual cur.1) then
      selectClosest s M rest kept
    else selectClosest s M rest (kept ++ [cur])

def getNeighborsByHeuristic2 (s : Index V) (topCandidates : P.queues.far.Carrier) (M : Nat) :
    P.queues.far.Carrier :=
  if P.queues.far.size topCandidates < M then topCandidates
  else
    let queueClosest := P.closest.pushAll P.closest.empty
      ((P.queues.far.drain topCandidates).map fun p => (toDual p.1, p.2))
    let returnList := selectClosest P s M (P.closest.drain queueClosest) []
    P.queues.far.pushAll (P.queues.far.popTo 0 topCandidates)
      (returnList.map fun p => (ofDual p.1, p.2))

/-- The ids of a queue in the order in which they are popped. -/
def poppedIds (q : P.queues.far.Carrier) : List TableInt := (P.queues.far.drain q).map Prod.snd

/-- The entries of the new list of `curC`, one by one. -/
def writeForwardLinks (curC : TableInt) (level : Nat) (isUpdate : Bool) :
    Nat → List TableInt → IndexM V Unit
  | _, [] => pure ()
  | idx, id :: ids => do
    let s ← get
    let ll := s.getLinklistAtLevel curC level
    if ll.data.read idx ≠ 0 ∧ isUpdate = false then throw (.thrown .memoryCorruption)
    else if s.level id < level then throw (.thrown .nonExistentLevel)
    else do
      set (s.setLinklistAtLevel curC level (ll.writeEntries idx [id]))
      writeForwardLinks curC level isUpdate (idx + 1) ids

def setForwardLinks (curC : TableInt) (level : Nat) (isUpdate : Bool)
    (selectedNeighbors : List TableInt) : IndexM V Unit := do
  let s ← get
  let ll := s.getLinklistAtLevel curC level
  if ll.word ≠ 0 ∧ isUpdate = false then throw (.thrown .nonBlankLinkList)
  else do
    set (s.setLinklistAtLevel curC level (ll.setListCount selectedNeighbors.length))
    writeForwardLinks curC level isUpdate 0 selectedNeighbors

/-- The candidates for the list of `other` when it is full: `curC` and the present links. -/
def backLinkCandidates (s : Index V) (curC other : TableInt) (links : List TableInt) :
    P.queues.far.Carrier :=
  P.queues.far.pushAll P.queues.far.empty ((curC :: links).map fun id =>
    (P.fstdistfunc (s.getDataByInternalId id) (s.getDataByInternalId other), id))

/-- Link `other` back to `curC`. -/
def setBackLink (curC : TableInt) (level : Nat) (isUpdate : Bool) (other : TableInt) :
    IndexM V Unit := do
  let s ← get
  let ll := s.getLinklistAtLevel other level
  if s.maxLinks level < ll.getListCount then throw (.thrown .badListSize)
  else if other = curC then throw (.thrown .selfConnection)
  else if s.level other < level then throw (.thrown .nonExistentLevel)
  -- only an update can find `cur_c` among the links already
  else if isUpdate = true ∧ curC ∈ ll.connections then pure ()
  else if ll.getListCount < s.maxLinks level then
    set (s.setLinklistAtLevel other level
      ((ll.writeEntries ll.getListCount [curC]).setListCount (ll.getListCount + 1)))
  else
    let candidates := backLinkCandidates P s curC other ll.connections
    let ids := poppedIds P (getNeighborsByHeuristic2 P s candidates (s.maxLinks level))
    set (s.setLinklistAtLevel other level ((ll.writeEntries 0 ids).setListCount ids.length))

def mutuallyConnectNewElement (curC : TableInt) (topCandidates : P.queues.far.Carrier)
    (level : Nat) (isUpdate : Bool) : IndexM V TableInt := do
  let s ← get
  let topCandidates := getNeighborsByHeuristic2 P s topCandidates s.M
  if s.M < P.queues.far.size topCandidates then throw (.thrown .tooManyCandidates)
  else
    let selectedNeighbors := poppedIds P topCandidates
    -- `selectedNeighbors.back()` is read before any list is written
    match selectedNeighbors.getLast? with
    | none => throw .emptyBack
    | some nextClosestEntryPoint => do
      setForwardLinks curC level isUpdate selectedNeighbors
      forM selectedNeighbors (setBackLink P curC level isUpdate)
      return nextClosestEntryPoint

/-- `filteredTopCandidates` or `top_candidates` with a deleted entry point added to it. -/
def addEntryPoint (s : Index V) (dataPoint : V) (entryPoint : TableInt)
    (topCandidates : P.queues.far.Carrier) : P.queues.far.Carrier :=
  if s.isMarkedDeleted entryPoint then
    let topCandidates := P.queues.far.push topCandidates
      (P.fstdistfunc dataPoint (s.getDataByInternalId entryPoint), entryPoint)
    if s.efConstruction < P.queues.far.size topCandidates then P.queues.far.pop topCandidates
    else topCandidates
  else topCandidates

/-- One level of the repair; returns the start of the next level. -/
def repairLevel (dataPoint : V) (entryPoint dataPointId : TableInt) (level : Nat)
    (currObj : TableInt) : IndexM V TableInt := do
  let s ← get
  let topCandidates ← readOnly (searchBaseLayer P s currObj dataPoint level)
  let filtered := P.queues.far.pushAll P.queues.far.empty
    ((P.queues.far.drain topCandidates).filter fun p => p.2 ≠ dataPointId)
  if 0 < P.queues.far.size filtered then
    mutuallyConnectNewElement P dataPointId (addEntryPoint P s dataPoint entryPoint filtered)
      level true
  else pure currObj

def repairLevels (dataPoint : V) (entryPoint dataPointId : TableInt) :
    List Nat → TableInt → IndexM V Unit
  | [], _ => pure ()
  | level :: rest, currObj => do
    let currObj ← repairLevel P dataPoint entryPoint dataPointId level currObj
    repairLevels dataPoint entryPoint dataPointId rest currObj

def repairConnectionsForUpdate (dataPoint : V) (entryPoint dataPointId : TableInt)
    (dataPointLevel : Nat) (maxLevel : Int) : IndexM V Unit := do
  let s ← get
  let cur ← readOnly (descend P s dataPoint false (levelsDown maxLevel.toNat dataPointLevel)
    (P.fstdistfunc dataPoint (s.getDataByInternalId entryPoint), entryPoint))
  -- the descent has already run when the levels are compared
  if maxLevel < dataPointLevel then throw (.thrown .levelAboveMax)
  else
    repairLevels P dataPoint entryPoint dataPointId (List.range (dataPointLevel + 1)).reverse cur.2

/-- `sCand` and `sNeigh` after the one-hop links from position `idx` on. -/
def gatherCandidates (c : Choices) (s : Index V) (layer : Nat) :
    Nat → List TableInt → List TableInt × List TableInt → List TableInt × List TableInt
  | _, [], sets => sets
  | idx, oneHop :: rest, (sCand, sNeigh) =>
    let sCand := sCand.insert oneHop
    if c.skipNeighbor layer idx then gatherCandidates c s layer (idx + 1) rest (sCand, sNeigh)
    else gatherCandidates c s layer (idx + 1) rest
      ((s.connections oneHop layer).foldl (fun l twoHop => l.insert twoHop) sCand,
        sNeigh.insert oneHop)

/-- The `elementsToKeep` elements of `sCand` nearest to `neigh`. -/
def keepClosest (s : Index V) (neigh : TableInt) (elementsToKeep : Nat) :
    List TableInt → P.queues.far.Carrier → Except Failure P.queues.far.Carrier
  | [], candidates => .ok candidates
  | cand :: rest, candidates =>
    if cand = neigh then keepClosest s neigh elementsToKeep rest candidates
    else
      let distance := P.fstdistfunc (s.getDataByInternalId neigh) (s.getDataByInternalId cand)
      if P.queues.far.size candidates < elementsToKeep then
        keepClosest s neigh elementsToKeep rest (P.queues.far.push candidates (distance, cand))
      else match P.queues.far.top candidates with
        | none => .error .emptyTop
        | some top =>
          if distance < top.1 then
            keepClosest s neigh elementsToKeep rest
              (P.queues.far.push (P.queues.far.pop candidates) (distance, cand))
          else keepClosest s neigh elementsToKeep rest candidates

/-- Choose the links of one neighbour anew. -/
def rewireNeighbor (c : Choices) (layer : Nat) (sCand : List TableInt) (neigh : TableInt) :
    IndexM V Unit := do
  let s ← get
  -- the neighbour itself is no candidate: `sCand.find(neigh) == sCand.end()`
  let size := if neigh ∈ sCand then sCand.length - 1 else sCand.length
  let candidates ← readOnly (keepClosest P s neigh (min s.efConstruction size)
    (c.traversal sCand) P.queues.far.empty)
  let ids := poppedIds P (getNeighborsByHeuristic2 P s candidates (s.maxLinks layer))
  set (s.setLinklistAtLevel neigh layer
    (((s.getLinklistAtLevel neigh layer).setListCount ids.length).writeEntries 0 ids))

def rewireLayer (c : Choices) (internalId : TableInt) (layer : Nat) : IndexM V Unit := do
  let s ← get
  let listOneHop := s.connections internalId layer
  if listOneHop = [] then pure ()
  else
    let (sCand, sNeigh) := gatherCandidates c s layer 0 listOneHop ([internalId], [])
    forM (c.traversal sNeigh) (rewireNeighbor P c layer sCand)

def updatePoint (c : Choices) (dataPoint : V) (internalId : TableInt) : IndexM V Unit := do
  modify fun s => s.setData internalId dataPoint
  let s ← get
  if s.entry = internalId ∧ s.curElementCount = 1 then pure ()
  -- the loop over the levels reads through `linkLists_[internalId]`
  else if s.LacksLists internalId then throw .nullPointer
  else do
    forM (List.range (s.level internalId + 1)) (rewireLayer P c internalId)
    repairConnectionsForUpdate P dataPoint s.entry internalId (s.level internalId) s.maxlevel

end Links

/-- The mark set, the counter raised, the id noted as vacant if vacancies are kept. -/
def withMark (s : Index V) (internalId : TableInt) : Index V :=
  { s.setLinklistAtLevel internalId 0 (s.getLinklistAtLevel internalId 0).setMark with
    numDeleted := s.numDeleted + 1
    deletedElements :=
      if s.allowReplaceDeleted then insert internalId s.deletedElements else s.deletedElements }

/-- The mark cleared, the counter lowered, the id no longer vacant. -/
def withoutMark (s : Index V) (internalId : TableInt) : Index V :=
  { s.setLinklistAtLevel internalId 0 (s.getLinklistAtLevel internalId 0).clearMark with
    numDeleted := s.numDeleted - 1
    deletedElements :=
      if s.allowReplaceDeleted then s.deletedElements.erase internalId else s.deletedElements }

def markDeletedInternal (internalId : TableInt) : IndexM V Unit := do
  let s ← get
  if s.curElementCount ≤ internalId then throw .assertion
  else if s.isMarkedDeleted internalId then throw (.thrown .alreadyDeleted)
  else
    set (s.withMark internalId)

def unmarkDeletedInternal (internalId : TableInt) : IndexM V Unit := do
  let s ← get
  if s.curElementCount ≤ internalId then throw .assertion
  else if s.isMarkedDeleted internalId then set (s.withoutMark internalId)
  else throw (.thrown .notDeleted)

def markDelete (label : LabelType) : IndexM V Unit := do
  match (← get).labelLookup label with
  | none => throw (.thrown .labelNotFound)
  | some internalId => markDeletedInternal internalId

def unmarkDelete (label : LabelType) : IndexM V Unit := do
  match (← get).labelLookup label with
  | none => throw (.thrown .labelNotFound)
  | some internalId => unmarkDeletedInternal internalId

def getDataByLabel (label : LabelType) : IndexM V V := do
  let s ← get
  match s.labelLookup label with
  | none => throw (.thrown .labelNotFound)
  | some internalId =>
    if s.isMarkedDeleted internalId then throw (.thrown .labelNotFound)
    else pure (s.getDataByInternalId internalId)

section Insertion

variable (P : Platform V D)

/-- The new element of `addPoint`: its label is known, its record and its lists are blank. -/
def appendElement (s : Index V) (dataPoint : V) (label : LabelType) (curlevel : Nat) : Index V :=
  { s with
    curElementCount := s.curElementCount + 1
    labelLookup := fun l => if l = label then some s.curElementCount else s.labelLookup l
    elementLevels := s.elementLevels.write s.curElementCount curlevel
    dataLevel0Memory := s.dataLevel0Memory.write s.curElementCount ⟨default, dataPoint, label⟩ }

/-- `linkLists_[cur_c] = malloc(…)` and the `memset` that follows -/
def allocateLinkLists (s : Index V) (curC : TableInt) (curlevel : Nat) : Index V :=
  { s with linkLists := s.linkLists.write curC (Memory.fill curlevel default) }

/-- The levels from `min(curlevel, maxlevelcopy)` down to `0`. -/
def insertLevels (dataPoint : V) (curC entryPoint : TableInt) (maxlevelcopy : Int) :
    List Nat → TableInt → IndexM V Unit
  | [], _ => pure ()
  | level :: rest, currObj => do
    let s ← get
    if maxlevelcopy < level then throw (.thrown .levelError)
    else do
      let topCandidates ← readOnly (searchBaseLayer P s currObj dataPoint level)
      let currObj ← mutuallyConnectNewElement P curC
        (addEntryPoint P s dataPoint entryPoint topCandidates) level false
      insertLevels dataPoint curC entryPoint maxlevelcopy rest currObj

/-- Link the new element below the entry point. -/
def linkNewElement (dataPoint : V) (curC entryPoint : TableInt) (curlevel : Nat)
    (maxlevelcopy : Int) : IndexM V Unit := do
  let s ← get
  let currObj ← readOnly (descentEnd P s dataPoint true curlevel)
  insertLevels P dataPoint curC entryPoint maxlevelcopy
    (List.range (min (curlevel : Int) maxlevelcopy + 1).toNat).reverse currObj

/-- The part of `addPoint` behind the label lookup, for a label that is new. -/
def insertNew (c : Choices) (dataPoint : V) (label : LabelType) (curlevel : Nat) :
    IndexM V TableInt := do
  let s ← get
  let curC := s.curElementCount
  set (s.appendElement dataPoint label curlevel)
  -- the label and the count are already in place when the allocation fails
  if curlevel ≠ 0 ∧ c.malloc = false then throw (.thrown .addPointLinklist)
  else do
    modify fun t => if curlevel = 0 then t else t.allocateLinkLists curC curlevel
    match s.enterpointNode with
    | some entryPoint => linkNewElement P dataPoint curC entryPoint curlevel s.maxlevel
    | none => modify fun t => { t with enterpointNode := some 0, maxlevel := curlevel }
    modify fun t =>
      if s.maxlevel < curlevel then { t with enterpointNode := some curC, maxlevel := curlevel }
      else t
    return curC

/-- `addPoint(data_point, label, int level)` -/
def addPointLevel (c : Choices) (dataPoint : V) (label : LabelType) (level : Int) :
    IndexM V TableInt := do
  let s ← get
  match s.labelLookup label with
  | some existingInternalId =>
    if s.allowReplaceDeleted ∧ s.isMarkedDeleted existingInternalId then
      throw (.thrown .updateDeleted)
    else do
      if s.isMarkedDeleted existingInternalId then unmarkDeletedInternal existingInternalId
      else pure ()
      updatePoint P c dataPoint existingInternalId
      return existingInternalId
  | none =>
    if s.maxElements ≤ s.curElementCount then throw (.thrown .capacityExceeded)
    else insertNew P c dataPoint label (if 0 < level then level.toNat else c.randomLevel)

/-- A vacant slot taken over by `label`: the slot is no longer vacant, its record carries the new
label, and the map forgets the old label before it learns the new one. -/
def relabel (s : Index V) (internalIdReplaced : TableInt) (label : LabelType) : Index V :=
  { s.setExternalLabel internalIdReplaced label with
    deletedElements := s.deletedElements.erase internalIdReplaced
    labelLookup := fun l =>
      if l = label then some internalIdReplaced
      else if l = s.getExternalLabel internalIdReplaced then none
      else s.labelLookup l }

/-- `addPoint(data_point, label, bool replace_deleted)` -/
def addPoint (c : Choices) (dataPoint : V) (label : LabelType) (replaceDeleted : Bool) :
    IndexM V Unit := do
  let s ← get
  if s.allowReplaceDeleted = false ∧ replaceDeleted = true then
    throw (.thrown .replacementDisabled)
  else if replaceDeleted = false ∨ s.deletedElements = ∅ then do
    let _ ← addPointLevel P c dataPoint label (-1)
    pure ()
  else do
    let internalIdReplaced := c.begin_ s.deletedElements
    -- `label` is not looked up first: it may name another element already
    set (s.relabel internalIdReplaced label)
    unmarkDeletedInternal internalIdReplaced
    updatePoint P c dataPoint internalIdReplaced

end Insertion

/-- `resizeIndex`; the arrays are replaced one after the other. A `realloc` that returns null
leaves the block as it was, unless it was asked for no bytes: then the block is gone. -/
def resizeIndex (c : Choices) (newMaxElements : Nat) : IndexM V Unit := do
  let s ← get
  let sizeData := s.layout.sizeDataPerElement
  if newMaxElements < s.curElementCount then throw (.thrown .cannotResize)
  else do
    modify fun t => { t with capacities := { t.capacities with
      visitedList := visitedListLength newMaxElements
      elementLevels := newMaxElements
      linkListLocks := newMaxElements } }
    if c.reallocLevel0 = false then do
      modify fun t => if newMaxElements * sizeData % 2 ^ 64 = 0 then
        { t with capacities := { t.capacities with dataLevel0Memory := 0 } } else t
      throw (.thrown .resizeBaseLayer)
    else do
      modify fun t => { t with capacities := { t.capacities with
        dataLevel0Memory := blockLength sizeData newMaxElements } }
      if c.reallocLinkLists = false then do
        modify fun t => if newMaxElements * 8 % 2 ^ 64 = 0 then
          { t with capacities := { t.capacities with linkLists := 0 } } else t
        throw (.thrown .resizeOtherLayers)
      else modify fun t =>
        { t with
          capacities := { t.capacities with linkLists := blockLength 8 newMaxElements }
          maxElements := newMaxElements }

end Index

end HnswRvv
