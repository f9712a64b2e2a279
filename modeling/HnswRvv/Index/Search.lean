import HnswRvv.Framework.NearestBeam
import HnswRvv.Index.State

/-!
# Searching an index

A search walks greedily through the upper levels and then runs a best-first search on level 0.
`searchBaseLayer`, which insertion uses, and `searchBaseLayerST`, which queries use, are two sets
of rules for the same loop; `-dist`, by which the source turns a max-queue around, is the order
dual. The visited list of a search is the set of ids that carry its tag; it is taken to be long
enough, and `searchKnnTagged` says what happens if it is not.
-/

namespace HnswRvv

open Framework OrderDual

/-- What an index runs on: the distance function, `numeric_limits<dist_t>::max()`, the bits of
`1 / log(M)` and the priority queues of the standard library. -/
structure Platform (V D : Type) [LinearOrder D] where
  fstdistfunc : V → V → D
  maxDist : D
  invLog : Nat → BitVec 64
  queues : BeamQueues TableInt D
  closest : PriorityQueue (Dᵒᵈ × TableInt) LexLess
  answers : PriorityQueue (D × LabelType) LexLess

/-- An implementation of `BaseSearchStopCondition`: its methods may change its own state `σ`, and
`filter_results` may drop pairs from the answer. -/
structure StopCondition (V D σ : Type) where
  addPointToResult : σ → LabelType → V → D → σ
  removePointFromResult : σ → LabelType → V → D → σ
  shouldStopSearch : σ → D → D → Bool × σ
  shouldConsiderCandidate : σ → D → D → Bool × σ
  shouldRemoveExtra : σ → Bool × σ
  filterResults : σ → List (D × LabelType) → List (D × LabelType) × σ
  filterResults_sublist : ∀ st l, (filterResults st l).1.Sublist l

/-- `(!isIdAllowed) || (*isIdAllowed)(label)` -/
def accepts (isIdAllowed : Option (LabelType → Bool)) (label : LabelType) : Bool :=
  match isIdAllowed with
  | none => true
  | some f => f label

namespace Index

variable {V D σ : Type} [Inhabited V] [LinearOrder D] (P : Platform V D) (s : Index V)

/-- One pass over a list of links. A search and an insertion check the ids they read, the repair
after an update does not. -/
def greedyScan (q : V) (checked : Bool) :
    List TableInt → D × TableInt → Bool → Except Failure ((D × TableInt) × Bool)
  | [], cur, changed => .ok (cur, changed)
  | cand :: rest, cur, changed =>
    if checked && decide (s.maxElements < cand) then .error (.thrown .candError)
    else if P.fstdistfunc q (s.getDataByInternalId cand) < cur.1 then
      greedyScan q checked rest (P.fstdistfunc q (s.getDataByInternalId cand), cand) true
    else greedyScan q checked rest cur changed

/-- `while (changed) …` on one level -/
def greedyLevel (q : V) (checked : Bool) (level : Nat) :
    Nat → D × TableInt → Except Failure (D × TableInt)
  | 0, _ => .error .unfinished
  | fuel + 1, cur =>
    match greedyScan P s q checked (s.connections cur.2 level) cur false with
    | .error e => .error e
    | .ok (cur, changed) => if changed then greedyLevel q checked level fuel cur else .ok cur

def descend (q : V) (checked : Bool) : List Nat → D × TableInt → Except Failure (D × TableInt)
  | [], cur => .ok cur
  | level :: rest, cur =>
    match greedyLevel P s q checked level s.curElementCount cur with
    | .error e => .error e
    | .ok cur => descend q checked rest cur

/-- `hi, hi - 1, …, lo + 1` -/
def levelsDown (hi lo : Nat) : List Nat := (List.range' (lo + 1) (hi - lo)).reverse

/-- The element where a descent from the entry point to just above level `lo` ends. -/
def descentEnd (q : V) (checked : Bool) (lo : Nat) : Except Failure TableInt :=
  match descend P s q checked (levelsDown s.maxlevel.toNat lo)
      (P.fstdistfunc q (s.getDataByInternalId s.entry), s.entry) with
  | .error e => .error e
  | .ok cur => .ok cur.2

def liftAbort {α : Type} : Except SearchAbort α → Except Failure α
  | .ok a => .ok a
  | .error .emptyQueue => .error .emptyTop
  | .error .fuel => .error .unfinished

/-- The links of one layer, seen from `q`. -/
def layerGraph (q : V) (layer : Nat) (eligible : TableInt → Bool) : SearchGraph TableInt D where
  links i := s.connections i layer
  dist i := P.fstdistfunc q (s.getDataByInternalId i)
  eligible := eligible

/-- The rules of `searchBaseLayer`: at most one result is shed for each candidate, and the flag
says that this has happened. -/
def layerPolicy (efConstruction : Nat) : SearchPolicy TableInt D Bool where
  shouldStop st size d lowerBound := (decide (lowerBound < d) && size == efConstruction, st)
  shouldConsider _ size d lowerBound :=
    (decide (size < efConstruction) || decide (d < lowerBound), false)
  shouldRemove popped size := (!popped && decide (efConstruction < size), popped)
  added st _ _ := st
  removed _ _ _ := true

def searchBaseLayer (epId : TableInt) (dataPoint : V) (layer : Nat) :
    Except Failure P.queues.far.Carrier :=
  match liftAbort (BestFirst.search P.queues
      (layerGraph P s dataPoint layer fun i => !s.isMarkedDeleted i)
      (layerPolicy s.efConstruction) s.curElementCount P.maxDist epId false) with
  | .error e => .error e
  | .ok b => .ok b.topCandidates

/-- The rules of `searchBaseLayerST`. The point removed last is reported with the distance of the
candidate that displaced it. -/
def searchPolicy (bareBone : Bool) (ef : Nat) (stopCondition : Option (StopCondition V D σ)) :
    SearchPolicy TableInt D σ :=
  match stopCondition with
  | none => efPolicy bareBone ef
  | some c =>
    if bareBone then efPolicy true ef
    else
      { shouldStop := fun st _ d lowerBound => c.shouldStopSearch st d lowerBound
        shouldConsider := fun st _ d lowerBound => c.shouldConsiderCandidate st d lowerBound
        shouldRemove := fun st _ => c.shouldRemoveExtra st
        added := fun st i d =>
          c.addPointToResult st (s.getExternalLabel i) (s.getDataByInternalId i) d
        removed := fun st i d =>
          c.removePointFromResult st (s.getExternalLabel i) (s.getDataByInternalId i) d }

/-- May `searchBaseLayerST` return the element? -/
def returnable (bareBone : Bool) (isIdAllowed : Option (LabelType → Bool)) (i : TableInt) : Bool :=
  bareBone || (!s.isMarkedDeleted i && accepts isIdAllowed (s.getExternalLabel i))

/-- `searchBaseLayerST` with everything it holds when its loop ends. -/
def searchBaseLayerSTBeam (bareBone : Bool) (epId : TableInt) (dataPoint : V) (ef : Nat)
    (isIdAllowed : Option (LabelType → Bool)) (stopCondition : Option (StopCondition V D σ))
    (st : σ) : Except Failure (Beam P.queues σ) :=
  liftAbort (BestFirst.search P.queues
    (layerGraph P s dataPoint 0 (s.returnable bareBone isIdAllowed))
    (searchPolicy s bareBone ef stopCondition) s.curElementCount P.maxDist epId st)

def searchBaseLayerST (bareBone : Bool) (epId : TableInt) (dataPoint : V) (ef : Nat)
    (isIdAllowed : Option (LabelType → Bool)) (stopCondition : Option (StopCondition V D σ))
    (st : σ) : Except Failure (P.queues.far.Carrier × σ) :=
  match searchBaseLayerSTBeam P s bareBone epId dataPoint ef isIdAllowed stopCondition st with
  | .error e => .error e
  | .ok b => .ok (b.topCandidates, b.state)

def setEf (ef : Nat) : Index V := { s with ef := ef }

/-- `!num_deleted_ && !isIdAllowed` -/
def bareBoneSearch (isIdAllowed : Option (LabelType → Bool)) : Bool :=
  s.numDeleted == 0 && isIdAllowed.isNone

/-- The last part of `searchKnn`: cut to `k` results and translate ids into labels. -/
def knnAnswer (topCandidates : P.queues.far.Carrier) (k : Nat) : P.answers.Carrier :=
  P.answers.pushAll P.answers.empty
    ((P.queues.far.drain (P.queues.far.popTo k topCandidates)).map fun rez =>
      (rez.1, s.getExternalLabel rez.2))

def searchKnn (queryData : V) (k : Nat) (isIdAllowed : Option (LabelType → Bool)) :
    Except Failure P.answers.Carrier :=
  if s.curElementCount = 0 then .ok P.answers.empty
  else match descentEnd P s queryData true 0 with
    | .error e => .error e
    | .ok currObj =>
      match searchBaseLayerST P s (s.bareBoneSearch isIdAllowed) currObj queryData (max s.ef k)
          isIdAllowed (none : Option (StopCondition V D Unit)) () with
      | .error e => .error e
      | .ok (topCandidates, _) => .ok (knnAnswer P s topCandidates k)

/-- `searchKnn` with the length of its visited list. Every id it meets is tagged there; an id behind
the end of the list is written out of bounds. -/
def searchKnnTagged (queryData : V) (k : Nat) (isIdAllowed : Option (LabelType → Bool)) :
    Except Failure P.answers.Carrier :=
  if s.curElementCount = 0 then .ok P.answers.empty
  else match descentEnd P s queryData true 0 with
    | .error e => .error e
    | .ok currObj =>
      match searchBaseLayerSTBeam P s (s.bareBoneSearch isIdAllowed) currObj queryData (max s.ef k)
          isIdAllowed (none : Option (StopCondition V D Unit)) () with
      | .error e => .error e
      | .ok b =>
        if ∀ i ∈ b.visited, i < s.capacities.visitedList then
          .ok (knnAnswer P s b.topCandidates k)
        else .error .outOfBounds

def searchKnnCloserFirst (queryData : V) (k : Nat) (isIdAllowed : Option (LabelType → Bool)) :
    Except Failure (List (D × LabelType)) :=
  match searchKnn P s queryData k isIdAllowed with
  | .error e => .error e
  | .ok ret => .ok (P.answers.drain ret).reverse

/-- The pairs handed to `filter_results` are those of the base-layer search as they are. -/
def searchStopConditionClosest (queryData : V) (stopCondition : StopCondition V D σ) (st : σ)
    (isIdAllowed : Option (LabelType → Bool)) :
    Except Failure (List (D × LabelType) × σ) :=
  if s.curElementCount = 0 then .ok ([], st)
  else match descentEnd P s queryData true 0 with
    | .error e => .error e
    | .ok currObj =>
      match searchBaseLayerST P s false currObj queryData 0 isIdAllowed (some stopCondition) st with
      | .error e => .error e
      | .ok (topCandidates, st) =>
        .ok (stopCondition.filterResults st (P.queues.far.drain topCandidates).reverse)

end Index

end HnswRvv
