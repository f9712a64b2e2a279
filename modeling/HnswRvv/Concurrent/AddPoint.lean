import HnswRvv.Framework.RelyGuarantee
import HnswRvv.Index.Insert

/-!
# Adding points from several threads

`addPoint` as a program of atomic steps. A step is one access to memory, or one critical section in
which the source takes no further lock: `label_lookup_lock`, `deleted_elements_lock`, and a lock of
`link_list_locks_` around the scan or the rewriting of one list. Copies are accesses: the `memset`
and the two `memcpy`s that fill the record of a new element are one step (`initRecord`), and so are
the `memcpy` that overwrites a vector (`setData`) and the reading of one. The locks that are held while
other locks are taken are explicit: the lock of the label, the lock of the new element, and
`global`, which an insertion keeps only if its level is above `maxlevel_`. `enterpoint_node_`,
`maxlevel_`, marks, levels and vectors are read without a lock, as in the source.

Memory is sequentially consistent, and the vectors that one call of the heuristic compares are read
in one step. The loops take a bound on their rounds; `unfinished` is what is left when it is used up.
-/

namespace HnswRvv.Concurrent

open Framework OrderDual

inductive Lock where
  | label (slot : Nat)
  | element (i : TableInt)
  | global
  deriving DecidableEq, Repr

/-- `MAX_LABEL_OPERATION_LOCKS` -/
def maxLabelOperationLocks : Nat := 65536

/-- `getLabelOpMutex`; the mask keeps the low bits of the label. -/
def getLabelOpMutex (label : LabelType) : Lock := .label (label % maxLabelOperationLocks)

/-- The index and the thread that holds each lock. -/
structure Shared (V T : Type) where
  index : Index V
  held : Lock → Option T

abbrev Task (V T : Type) := ExceptT Failure (Prog (Shared V T))

section Steps

variable {V T α : Type}

/-- The result of a call on the index inside a larger state. -/
def Shared.apply (m : IndexM V α) (σ : Shared V T) : Except Failure α × Shared V T :=
  match m σ.index with
  | .ok a s => (.ok a, { σ with index := s })
  | .error e s => (.error e, { σ with index := s })

def Shared.isFree (k : Lock) (σ : Shared V T) : Bool := (σ.held k).isNone

def access (m : IndexM V α) : Task V T α := ExceptT.mk (Prog.atomic (fun _ => true) (Shared.apply m))

/-- A critical section of the lock `k`. -/
def locking (k : Lock) (m : IndexM V α) : Task V T α :=
  ExceptT.mk (Prog.atomic (Shared.isFree k) (Shared.apply m))

def acquire (t : T) (k : Lock) : Prog (Shared V T) Unit :=
  Prog.atomic (Shared.isFree k) fun σ => ((), { σ with held := Function.update σ.held k (some t) })

def release (k : Lock) : Prog (Shared V T) Unit :=
  Prog.atomic (fun _ => true) fun σ => ((), { σ with held := Function.update σ.held k none })

/-- A `unique_lock` on `k` around `m`; an exception releases it too. -/
def withLock (t : T) (k : Lock) (m : Task V T α) : Task V T α := ExceptT.mk do
  acquire t k
  (Prog.ensuring m (release k)).run

end Steps

variable {V D T : Type} [Inhabited V] [LinearOrder D] (P : Platform V D)

/-- `while (changed) …` on one level; the list of the current element is scanned under its lock. -/
def greedyLevel (q : V) (checked : Bool) (level : Nat) : Nat → D × TableInt → Task V T (D × TableInt)
  | 0, _ => throw .unfinished
  | fuel + 1, cur => do
    let (cur, changed) ← locking (.element cur.2) do
      let s ← get
      readOnly (s.greedyScan P q checked (s.connections cur.2 level) cur false)
    if changed then greedyLevel q checked level fuel cur else pure cur

def descend (fuel : Nat) (q : V) (checked : Bool) : List Nat → D × TableInt → Task V T (D × TableInt)
  | [], cur => pure cur
  | level :: rest, cur => do
    let cur ← greedyLevel P q checked level fuel cur
    descend fuel q checked rest cur

/-- The descent from `start` through the levels above `lo`. -/
def descendFrom (fuel : Nat) (q : V) (checked : Bool) (hi lo : Nat) (start : TableInt) :
    Task V T TableInt := do
  let s ← access get
  let cur ← descend P fuel q checked (Index.levelsDown hi lo)
    (P.fstdistfunc q (s.getDataByInternalId start), start)
  pure cur.2

/-- The graph of one layer as a search by an insertion sees it. -/
def searchView (s : Index V) (dataPoint : V) (layer : Nat) : SearchGraph TableInt D :=
  s.layerGraph P dataPoint layer fun i => !s.isMarkedDeleted i

/-- The loop of `searchBaseLayer`: the links of a popped node are offered under its lock. -/
def searchLoop (efConstruction : Nat) (dataPoint : V) (layer : Nat) :
    Nat → Beam P.queues Bool → Task V T P.queues.far.Carrier
  | fuel, b =>
    match BestFirst.next P.queues (Index.layerPolicy efConstruction) b with
    | .inl b => pure b.topCandidates
    | .inr (c, b) => match fuel with
      | 0 => throw .unfinished
      | fuel + 1 => do
        let b ← locking (.element c) do
          let s ← get
          readOnly (Index.liftAbort (BestFirst.expand P.queues (searchView P s dataPoint layer)
            (Index.layerPolicy efConstruction) (s.connections c layer) b))
        searchLoop efConstruction dataPoint layer fuel b

def searchBaseLayer (fuel : Nat) (epId : TableInt) (dataPoint : V) (layer : Nat) :
    Task V T P.queues.far.Carrier := do
  let s ← access get
  searchLoop P s.efConstruction dataPoint layer fuel
    (BestFirst.start P.queues (searchView P s dataPoint layer) (Index.layerPolicy s.efConstruction)
      P.maxDist epId false)

/-- The list of `curC` is written under its lock: an insertion holds it already, an update takes it
here. -/
def mutuallyConnectNewElement (curC : TableInt) (topCandidates : P.queues.far.Carrier)
    (level : Nat) (isUpdate : Bool) : Task V T TableInt := do
  let s ← access get
  let topCandidates := s.getNeighborsByHeuristic2 P topCandidates s.M
  if s.M < P.queues.far.size topCandidates then throw (.thrown .tooManyCandidates)
  else
    let selectedNeighbors := Index.poppedIds P topCandidates
    match selectedNeighbors.getLast? with
    | none => throw .emptyBack
    | some nextClosestEntryPoint => do
      if isUpdate then
        locking (.element curC) (Index.setForwardLinks curC level isUpdate selectedNeighbors)
      else access (Index.setForwardLinks curC level isUpdate selectedNeighbors)
      forM selectedNeighbors fun other =>
        locking (.element other) (Index.setBackLink P curC level isUpdate other)
      return nextClosestEntryPoint

/-- `top_candidates` with the entry point added to it if that is deleted. -/
def withEntryPoint (epDeleted : Bool) (dataPoint : V) (entryPoint : TableInt)
    (topCandidates : P.queues.far.Carrier) : Task V T P.queues.far.Carrier :=
  if epDeleted then do
    let s ← access get
    let topCandidates := P.queues.far.push topCandidates
      (P.fstdistfunc dataPoint (s.getDataByInternalId entryPoint), entryPoint)
    pure (if s.efConstruction < P.queues.far.size topCandidates then P.queues.far.pop topCandidates
      else topCandidates)
  else pure topCandidates

/-- One level of the repair; whether the entry point is deleted is looked up after the search. -/
def repairLevel (fuel : Nat) (dataPoint : V) (entryPoint dataPointId : TableInt) (level : Nat)
    (currObj : TableInt) : Task V T TableInt := do
  let topCandidates ← searchBaseLayer P fuel currObj dataPoint level
  let filtered := P.queues.far.pushAll P.queues.far.empty
    ((P.queues.far.drain topCandidates).filter fun p => p.2 ≠ dataPointId)
  if 0 < P.queues.far.size filtered then do
    let s ← access get
    let filtered ← withEntryPoint P (s.isMarkedDeleted entryPoint) dataPoint entryPoint filtered
    mutuallyConnectNewElement P dataPointId filtered level true
  else pure currObj

def repairLevels (fuel : Nat) (dataPoint : V) (entryPoint dataPointId : TableInt) :
    List Nat → TableInt → Task V T Unit
  | [], _ => pure ()
  | level :: rest, currObj => do
    let currObj ← repairLevel P fuel dataPoint entryPoint dataPointId level currObj
    repairLevels fuel dataPoint entryPoint dataPointId rest currObj

def repairConnectionsForUpdate (fuel : Nat) (dataPoint : V) (entryPoint dataPointId : TableInt)
    (dataPointLevel : Nat) (maxLevel : Int) : Task V T Unit := do
  let currObj ← descendFrom P fuel dataPoint false maxLevel.toNat dataPointLevel entryPoint
  if maxLevel < dataPointLevel then throw (.thrown .levelAboveMax)
  else
    repairLevels P fuel dataPoint entryPoint dataPointId (List.range (dataPointLevel + 1)).reverse
      currObj

def getConnectionsWithLock (internalId : TableInt) (level : Nat) : Task V T (List TableInt) :=
  locking (.element internalId) do
    let s ← get
    pure (s.connections internalId level)

/-- `sCand` and `sNeigh` after the one-hop links from position `idx` on. -/
def gatherCandidates (c : Choices) (layer : Nat) :
    Nat → List TableInt → List TableInt × List TableInt → Task V T (List TableInt × List TableInt)
  | _, [], sets => pure sets
  | idx, oneHop :: rest, (sCand, sNeigh) =>
    let sCand := sCand.insert oneHop
    if c.skipNeighbor layer idx then gatherCandidates c layer (idx + 1) rest (sCand, sNeigh)
    else do
      let listTwoHop ← getConnectionsWithLock oneHop layer
      gatherCandidates c layer (idx + 1) rest
        (listTwoHop.foldl (fun l twoHop => l.insert twoHop) sCand, sNeigh.insert oneHop)

/-- The candidates for `neigh` are chosen without a lock; only its list is written under one. -/
def rewireNeighbor (c : Choices) (layer : Nat) (sCand : List TableInt) (neigh : TableInt) :
    Task V T Unit := do
  let s ← access get
  let size := if neigh ∈ sCand then sCand.length - 1 else sCand.length
  let candidates ← ExceptT.mk (pure (s.keepClosest P neigh (min s.efConstruction size)
    (c.traversal sCand) P.queues.far.empty))
  let ids := Index.poppedIds P (s.getNeighborsByHeuristic2 P candidates (s.maxLinks layer))
  locking (.element neigh) (modify fun s => s.setLinklistAtLevel neigh layer
    (((s.getLinklistAtLevel neigh layer).setListCount ids.length).writeEntries 0 ids))

def rewireLayer (c : Choices) (internalId : TableInt) (layer : Nat) : Task V T Unit := do
  let listOneHop ← getConnectionsWithLock internalId layer
  if listOneHop = [] then pure ()
  else do
    let (sCand, sNeigh) ← gatherCandidates c layer 0 listOneHop ([internalId], [])
    forM (c.traversal sNeigh) (rewireNeighbor P c layer sCand)

def updatePoint (fuel : Nat) (c : Choices) (dataPoint : V) (internalId : TableInt) :
    Task V T Unit := do
  access (modify fun s => s.setData internalId dataPoint)
  let maxLevelCopy ← access do return (← get).maxlevel
  let entryPointCopy ← access do return (← get).entry
  let count ← access do return (← get).curElementCount
  if entryPointCopy = internalId ∧ count = 1 then pure ()
  else do
    let elemLevel ← access do return (← get).level internalId
    -- the loop over the levels reads through `linkLists_[internalId]`
    let lacksLists ← access do return decide ((← get).LacksLists internalId)
    if lacksLists then throw .nullPointer
    else do
      forM (List.range (elemLevel + 1)) (rewireLayer P c internalId)
      repairConnectionsForUpdate P fuel dataPoint entryPointCopy internalId elemLevel maxLevelCopy

/-- The levels from `min(curlevel, maxlevelcopy)` down to `0`. -/
def insertLevels (fuel : Nat) (dataPoint : V) (curC entryPoint : TableInt) (epDeleted : Bool)
    (maxlevelcopy : Int) : List Nat → TableInt → Task V T Unit
  | [], _ => pure ()
  | level :: rest, currObj =>
    if maxlevelcopy < level then throw (.thrown .levelError)
    else do
      let topCandidates ← searchBaseLayer P fuel currObj dataPoint level
      let topCandidates ← withEntryPoint P epDeleted dataPoint entryPoint topCandidates
      let currObj ← mutuallyConnectNewElement P curC topCandidates level false
      insertLevels fuel dataPoint curC entryPoint epDeleted maxlevelcopy rest currObj

/-- `element_levels_[cur_c] = curlevel` -/
def setLevel (curC : TableInt) (curlevel : Nat) (s : Index V) : Index V :=
  { s with elementLevels := s.elementLevels.write curC curlevel }

/-- The record of the new element: blank links, the vector and the label. -/
def initRecord (dataPoint : V) (label : LabelType) (curC : TableInt) (s : Index V) : Index V :=
  { s with dataLevel0Memory := s.dataLevel0Memory.write curC ⟨default, dataPoint, label⟩ }

def setEnterpoint (ep : TableInt) (s : Index V) : Index V := { s with enterpointNode := some ep }

def setMaxlevel (level : Nat) (s : Index V) : Index V := { s with maxlevel := level }

/-- The record, and the lists of the upper levels if there are any. -/
def writeRecord (c : Choices) (dataPoint : V) (label : LabelType) (curC : TableInt)
    (curlevel : Nat) : Task V T Unit := do
  access (modify (initRecord dataPoint label curC))
  if curlevel ≠ 0 then
    if c.malloc = false then throw (.thrown .addPointLinklist)
    else access (modify fun s => s.allocateLinkLists curC curlevel)
  else pure ()

/-- The branches of `if ((signed)currObj != -1)`. -/
def linkBelow (fuel : Nat) (dataPoint : V) (curC : TableInt) (curlevel : Nat) (maxlevelcopy : Int)
    (enterpointCopy : TableInt) : Option TableInt → Task V T Unit
  | some currObj => do
    let currObj ← descendFrom P fuel dataPoint true maxlevelcopy.toNat curlevel currObj
    let epDeleted ← access do return (← get).isMarkedDeleted enterpointCopy
    insertLevels P fuel dataPoint curC enterpointCopy epDeleted maxlevelcopy
      (List.range (min (curlevel : Int) maxlevelcopy + 1).toNat).reverse currObj
  | none => do
    access (modify (setEnterpoint 0))
    access (modify (setMaxlevel curlevel))

/-- `if (curlevel > maxlevelcopy) …` -/
def raiseEnterpoint (curC : TableInt) (curlevel : Nat) (maxlevelcopy : Int) : Task V T Unit :=
  if maxlevelcopy < curlevel then do
    access (modify (setEnterpoint curC))
    access (modify (setMaxlevel curlevel))
  else pure ()

/-- The part of `addPoint` behind the lookup of `maxlevel_`. -/
def linkElement (fuel : Nat) (c : Choices) (dataPoint : V) (label : LabelType) (curC : TableInt)
    (curlevel : Nat) (maxlevelcopy : Int) : Task V T Unit := do
  let currObj ← access do return (← get).enterpointNode
  let enterpointCopy ← access do return (← get).entry
  writeRecord c dataPoint label curC curlevel
  linkBelow P fuel dataPoint curC curlevel maxlevelcopy enterpointCopy currObj
  raiseEnterpoint curC curlevel maxlevelcopy

/-- The part of `addPoint` under the lock of the new element. `templock` is released early if the
new element does not rise above the others. -/
def insertNew (t : T) (fuel : Nat) (c : Choices) (dataPoint : V) (label : LabelType)
    (curC : TableInt) (curlevel : Nat) : Task V T TableInt := do
  access (modify (setLevel curC curlevel))
  ExceptT.lift (acquire t .global)
  let maxlevelcopy ← access do return (← get).maxlevel
  if curlevel ≤ maxlevelcopy then do
    ExceptT.lift (release .global)
    linkElement P fuel c dataPoint label curC curlevel maxlevelcopy
  else
    Prog.ensuring (linkElement P fuel c dataPoint label curC curlevel maxlevelcopy)
      (release .global)
  return curC

/-- The critical section of `label_lookup_lock`: the id the label has, or the next id and the label
registered for it. -/
def lookupOrReserve (label : LabelType) : IndexM V (TableInt ⊕ TableInt) := do
  let s ← get
  match s.labelLookup label with
  | some existingInternalId =>
    if s.allowReplaceDeleted ∧ s.isMarkedDeleted existingInternalId then
      throw (.thrown .updateDeleted)
    else pure (.inl existingInternalId)
  | none =>
    if s.maxElements ≤ s.curElementCount then throw (.thrown .capacityExceeded)
    else do
      set { s with
        curElementCount := s.curElementCount + 1
        labelLookup := fun l => if l = label then some s.curElementCount else s.labelLookup l }
      pure (.inr s.curElementCount)

/-- `addPoint(data_point, label, int level)` -/
def addPointLevel (t : T) (fuel : Nat) (c : Choices) (dataPoint : V) (label : LabelType)
    (level : Int) : Task V T TableInt := do
  match ← access (lookupOrReserve label) with
  | .inl existingInternalId => do
    let marked ← access do return (← get).isMarkedDeleted existingInternalId
    if marked then access (Index.unmarkDeletedInternal existingInternalId) else pure ()
    updatePoint P fuel c dataPoint existingInternalId
    return existingInternalId
  | .inr curC =>
    withLock t (.element curC)
      (insertNew P t fuel c dataPoint label curC (if 0 < level then level.toNat else c.randomLevel))

/-- The critical section of `deleted_elements_lock`: a vacant id is taken out, if there is one. -/
def takeVacant (c : Choices) : IndexM V (Option TableInt) := do
  let s ← get
  if s.deletedElements = ∅ then pure none
  else do
    let internalIdReplaced := c.begin_ s.deletedElements
    set { s with deletedElements := s.deletedElements.erase internalIdReplaced }
    pure (some internalIdReplaced)

/-- `label_lookup_.erase(label_replaced); label_lookup_[label] = internal_id_replaced` -/
def moveLabel (labelReplaced label : LabelType) (internalIdReplaced : TableInt) (s : Index V) :
    Index V :=
  { s with labelLookup := fun l =>
      if l = label then some internalIdReplaced
      else if l = labelReplaced then none
      else s.labelLookup l }

/-- `addPoint(data_point, label, bool replace_deleted)` -/
def addPoint (t : T) (fuel : Nat) (c : Choices) (dataPoint : V) (label : LabelType)
    (replaceDeleted : Bool) : Task V T Unit := do
  let s ← access get
  if s.allowReplaceDeleted = false ∧ replaceDeleted = true then
    throw (.thrown .replacementDisabled)
  else withLock t (getLabelOpMutex label) do
    if replaceDeleted = false then do
      let _ ← addPointLevel P t fuel c dataPoint label (-1)
      pure ()
    else match ← access (takeVacant c) with
      | none => do
        let _ ← addPointLevel P t fuel c dataPoint label (-1)
        pure ()
      | some internalIdReplaced => do
        let labelReplaced ← access do return (← get).getExternalLabel internalIdReplaced
        access (modify fun s => s.setExternalLabel internalIdReplaced label)
        access (modify (moveLabel labelReplaced label internalIdReplaced))
        access (Index.unmarkDeletedInternal internalIdReplaced)
        updatePoint P fuel c dataPoint internalIdReplaced

/-- `getDataByLabel`; the vector is read after `label_lookup_lock` has been released. -/
def getDataByLabel (t : T) (label : LabelType) : Task V T V :=
  withLock t (getLabelOpMutex label) do
    let internalId ← access do
      let s ← get
      match s.labelLookup label with
      | none => throw (.thrown .labelNotFound)
      | some internalId =>
        if s.isMarkedDeleted internalId then throw (.thrown .labelNotFound) else pure internalId
    access do return (← get).getDataByInternalId internalId

end HnswRvv.Concurrent
