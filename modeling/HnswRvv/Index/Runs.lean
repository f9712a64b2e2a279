import HnswRvv.Index.Footprint
import HnswRvv.Index.Insertion

/-!
# Runs of an index

A run builds an index with `2 ≤ M` and then makes calls one after the other. A call that throws
is part of a run; one that ends in undefined behaviour is not. `wp_runOp` says once what a call
can do to a well-formed index if it gets the memory it asks for, and everything about the runs of
such calls follows from it.
-/

namespace HnswRvv

open Framework OrderDual
set_option linter.unusedSectionVars false

/-- The calls that change an index, and `getDataByLabel`. -/
inductive Op (V : Type) where
  | addPointLevel (dataPoint : V) (label : LabelType) (level : Int)
  | addPoint (dataPoint : V) (label : LabelType) (replaceDeleted : Bool)
  | markDelete (label : LabelType)
  | unmarkDelete (label : LabelType)
  | resizeIndex (newMaxElements : Nat)
  | getDataByLabel (label : LabelType)

def Choices.Allocates (c : Choices) : Prop :=
  c.malloc = true ∧ c.reallocLevel0 = true ∧ c.reallocLinkLists = true

namespace Index

variable {V D : Type} [Inhabited V] [LinearOrder D] {P : Platform V D} {s s' : Index V}
  {c : Choices} {x : V} {label : LabelType} {i : TableInt}

/-- A call; `getDataByLabel` returns a vector, the others nothing. -/
def runOp (P : Platform V D) (c : Choices) : Op V → IndexM V (Option V)
  | .addPointLevel x label level => do
    let _ ← addPointLevel P c x label level
    return none
  | .addPoint x label replaceDeleted => do
    addPoint P c x label replaceDeleted
    return none
  | .markDelete label => do
    markDelete label
    return none
  | .unmarkDelete label => do
    unmarkDelete label
    return none
  | .resizeIndex n => do
    resizeIndex c n
    return none
  | .getDataByLabel label => do
    let x ← getDataByLabel label
    return some x

/-- The state a call leaves, if it returns or throws. -/
def afterOp (P : Platform V D) (c : Choices) (op : Op V) (s : Index V) : Option (Index V) :=
  match runOp P c op s with
  | .ok _ s' => some s'
  | .error (.thrown _) s' => some s'
  | .error _ _ => none

/-- The states of the runs that start with an index that meets `start` and whose calls all meet
`may`. Allocations fail or not, as the choices of a call say. -/
inductive Attempted (P : Platform V D) (start : Index V → Prop)
    (may : Index V → Op V → Choices → Prop) : Index V → Prop
  | built (dataSize maxElements M efConstruction : Nat) (allowReplaceDeleted : Bool) {s : Index V} :
      2 ≤ M → start s →
      construct P dataSize maxElements M efConstruction allowReplaceDeleted true true = .ok s →
      Attempted P start may s
  | call {s s' : Index V} {op : Op V} {c : Choices} :
      Attempted P start may s → may s op c → afterOp P c op s = some s' →
      Attempted P start may s'

/-- The record changes of `addPoint` without replacement. -/
inductive Stored (s : Index V) (x : V) (label : LabelType) : Index V → Prop
  | inserted (curlevel : Nat) : s.labelLookup label = none →
      s.curElementCount < s.maxElements → Stored s x label (s.inserted x label curlevel)
  | updated {i : TableInt} : s.labelLookup label = some i → s.isMarkedDeleted i = false →
      Stored s x label (s.setData i x)
  | revived {i : TableInt} : s.labelLookup label = some i → s.allowReplaceDeleted = false →
      s.isMarkedDeleted i = true → Stored s x label ((s.withoutMark i).setData i x)

/-- The slot `i` taken over by a vector and its label. -/
def replaced (s : Index V) (i : TableInt) (x : V) (label : LabelType) : Index V :=
  ((s.relabel i label).withoutMark i).setData i x

theorem replaced_fields (s : Index V) (i : TableInt) (x : V) (label : LabelType) :
    s.replaced i x label =
      { s with
        dataLevel0Memory := (s.replaced i x label).dataLevel0Memory
        numDeleted := (s.replaced i x label).numDeleted
        labelLookup := (s.replaced i x label).labelLookup
        deletedElements := (s.replaced i x label).deletedElements } := by
  rw [Index.replaced, withoutMark_fields]
  rfl

/-- The result and the record changes of a call that returns; links may change besides. -/
inductive Effect (s : Index V) (c : Choices) : Op V → Option V → Index V → Prop
  | addPointLevel {x : V} {label : LabelType} {level : Int} {t : Index V} :
      Stored s x label t → Effect s c (.addPointLevel x label level) none t
  | addPoint {x : V} {label : LabelType} {replaceDeleted : Bool} {t : Index V} :
      replaceDeleted = false ∨ s.allowReplaceDeleted = true ∧ s.deletedElements = ∅ →
      Stored s x label t → Effect s c (.addPoint x label replaceDeleted) none t
  | replaced {x : V} {label : LabelType} : s.allowReplaceDeleted = true →
      s.deletedElements.Nonempty →
      Effect s c (.addPoint x label true) none (s.replaced (c.begin_ s.deletedElements) x label)
  | markDelete {label : LabelType} {i : TableInt} : s.labelLookup label = some i →
      s.isMarkedDeleted i = false → Effect s c (.markDelete label) none (s.withMark i)
  | unmarkDelete {label : LabelType} {i : TableInt} : s.labelLookup label = some i →
      s.isMarkedDeleted i = true → Effect s c (.unmarkDelete label) none (s.withoutMark i)
  | resizeIndex {n : Nat} : s.curElementCount ≤ n →
      Effect s c (.resizeIndex n) none
        { s with maxElements := n, capacities := .allocated s.layout.sizeDataPerElement n }
  | getDataByLabel {label : LabelType} {i : TableInt} : s.labelLookup label = some i →
      s.isMarkedDeleted i = false →
      Effect s c (.getDataByLabel label) (some (s.getDataByInternalId i)) s

/-- The exceptions of `addPoint` without replacement. -/
inductive StoreThrows (s : Index V) (label : LabelType) : Exn → Prop
  | updateDeleted {i : TableInt} : s.labelLookup label = some i → s.allowReplaceDeleted = true →
      s.isMarkedDeleted i = true → StoreThrows s label .updateDeleted
  | capacityExceeded : s.labelLookup label = none → s.maxElements ≤ s.curElementCount →
      StoreThrows s label .capacityExceeded

/-- The exceptions a call can end with. -/
inductive Throws (s : Index V) : Op V → Exn → Prop
  | addPointLevel {x : V} {label : LabelType} {level : Int} {e : Exn} :
      StoreThrows s label e → Throws s (.addPointLevel x label level) e
  | addPoint {x : V} {label : LabelType} {replaceDeleted : Bool} {e : Exn} :
      replaceDeleted = false ∨ s.allowReplaceDeleted = true ∧ s.deletedElements = ∅ →
      StoreThrows s label e → Throws s (.addPoint x label replaceDeleted) e
  | replacementDisabled {x : V} {label : LabelType} : s.allowReplaceDeleted = false →
      Throws s (.addPoint x label true) .replacementDisabled
  | markUnknown {label : LabelType} : s.labelLookup label = none →
      Throws s (.markDelete label) .labelNotFound
  | markDeleted {label : LabelType} {i : TableInt} : s.labelLookup label = some i →
      s.isMarkedDeleted i = true → Throws s (.markDelete label) .alreadyDeleted
  | unmarkUnknown {label : LabelType} : s.labelLookup label = none →
      Throws s (.unmarkDelete label) .labelNotFound
  | unmarkLive {label : LabelType} {i : TableInt} : s.labelLookup label = some i →
      s.isMarkedDeleted i = false → Throws s (.unmarkDelete label) .notDeleted
  | cannotResize {n : Nat} : n < s.curElementCount → Throws s (.resizeIndex n) .cannotResize
  | readUnknown {label : LabelType} : s.labelLookup label = none →
      Throws s (.getDataByLabel label) .labelNotFound
  | readDeleted {label : LabelType} {i : TableInt} : s.labelLookup label = some i →
      s.isMarkedDeleted i = true → Throws s (.getDataByLabel label) .labelNotFound

/-- The call inserts the vector of a new label, at `curlevel`. -/
inductive Inserts (s : Index V) (c : Choices) : Op V → V → Nat → Prop
  | addPointLevel {x : V} {label : LabelType} {level : Int} : s.labelLookup label = none →
      s.curElementCount < s.maxElements →
      Inserts s c (.addPointLevel x label level) x (if 0 < level then level.toNat else c.randomLevel)
  | addPoint {x : V} {label : LabelType} {replaceDeleted : Bool} :
      replaceDeleted = false ∨ s.allowReplaceDeleted = true ∧ s.deletedElements = ∅ →
      s.labelLookup label = none → s.curElementCount < s.maxElements →
      Inserts s c (.addPoint x label replaceDeleted) x c.randomLevel

/-- The call inserts a vector above level 0 and gets no memory for the lists there. -/
def ListsDenied (s : Index V) (c : Choices) (op : Op V) : Prop :=
  c.malloc = false ∧ ∃ x curlevel, Inserts s c op x curlevel ∧ curlevel ≠ 0

/-- The call gets the memory it asks for: an insertion its upper lists, a resizing both blocks. -/
structure Granted (s : Index V) (c : Choices) (op : Op V) : Prop where
  lists : ¬ListsDenied s c op
  blocks : ∀ n, op = .resizeIndex n → c.reallocLevel0 = true ∧ c.reallocLinkLists = true

theorem granted_of_allocates (hc : c.Allocates) (op : Op V) : Granted s c op :=
  ⟨fun h => Bool.false_ne_true (h.1.symm.trans hc.1), fun _ _ => hc.2⟩

/-- The states of the runs whose calls all meet `may` and get the memory they ask for. -/
abbrev Reachable (P : Platform V D) (may : Index V → Op V → Choices → Prop) : Index V → Prop :=
  Attempted P (fun _ => True) fun s op c => may s op c ∧ Granted s c op

theorem Reachable.built {may : Index V → Op V → Choices → Prop}
    (dataSize maxElements M efConstruction : Nat) (allowReplaceDeleted : Bool) (hM : 2 ≤ M)
    (hs : construct P dataSize maxElements M efConstruction allowReplaceDeleted true true = .ok s) :
    Reachable P may s :=
  Attempted.built dataSize maxElements M efConstruction allowReplaceDeleted hM trivial hs

theorem Reachable.call {may : Index V → Op V → Choices → Prop} {op : Op V} (h : Reachable P may s)
    (hmay : may s op c) (hg : Granted s c op) (hs' : afterOp P c op s = some s') :
    Reachable P may s' :=
  Attempted.call h ⟨hmay, hg⟩ hs'

/-- The call inserts a vector and strands on its way. -/
def Faults (P : Platform V D) (s : Index V) (c : Choices) (op : Op V) : Prop :=
  ∃ x curlevel, Inserts s c op x curlevel ∧ InsertFault P s x curlevel

/-- What `addPoint` without replacement does to the links of level 0. -/
structure BaseStored (P : Platform V D) (s s' : Index V) (x : V) (label : LabelType) : Prop where
  inserted : s.labelLookup label = none → ∃ curlevel, BaseInserted P s s' x label curlevel
  updated : ∀ i, s.labelLookup label = some i → s.isMarkedDeleted i = false →
    BaseUpdated (s.setData i x) s' i

private theorem BaseStored.of_new {curlevel : Nat} (hnew : s.labelLookup label = none)
    (h : BaseInserted P s s' x label curlevel) : BaseStored P s s' x label where
  inserted _ := ⟨curlevel, h⟩
  updated i hi := by cases hnew.symm.trans hi

private theorem BaseStored.of_known (hi : s.labelLookup label = some i)
    (h : s.isMarkedDeleted i = false → BaseUpdated (s.setData i x) s' i) :
    BaseStored P s s' x label where
  inserted hnew := by cases hi.symm.trans hnew
  updated j hj := by
    cases hi.symm.trans hj
    exact h

/-- What a call that stores a vector does to the links of level 0, if no element can be replaced. -/
def BaseEffect (P : Platform V D) (s s' : Index V) : Op V → Prop
  | .addPointLevel x label _ => BaseStored P s s' x label
  | .addPoint x label _ => s.deletedElements = ∅ → BaseStored P s s' x label
  | _ => True

private theorem faults_addPointLevel_iff {level : Int} (hnew : s.labelLookup label = none)
    (hroom : s.curElementCount < s.maxElements) : Faults P s c (.addPointLevel x label level) ↔
      InsertFault P s x (if 0 < level then level.toNat else c.randomLevel) := by
  constructor
  · rintro ⟨_, _, ⟨⟩, hfault⟩
    exact hfault
  · intro hfault
    exact ⟨x, _, Inserts.addPointLevel hnew hroom, hfault⟩

private theorem not_faults_addPointLevel {level : Int} (hi : s.labelLookup label = some i) :
    ¬Faults P s c (.addPointLevel x label level) := by
  rintro ⟨_, _, hins, -⟩
  cases hins with
  | addPointLevel hnew _ => cases hi.symm.trans hnew

private theorem faults_addPoint_iff {replaceDeleted : Bool}
    (hplain : replaceDeleted = false ∨ s.allowReplaceDeleted = true ∧ s.deletedElements = ∅) :
    Faults P s c (.addPoint x label replaceDeleted) ↔ Faults P s c (.addPointLevel x label (-1)) := by
  constructor
  · rintro ⟨_, _, hins, hfault⟩
    cases hins with
    | addPoint _ hnew hroom => exact ⟨x, _, Inserts.addPointLevel hnew hroom, hfault⟩
  · rintro ⟨_, _, hins, hfault⟩
    cases hins with
    | addPointLevel hnew hroom => exact ⟨x, _, Inserts.addPoint hplain hnew hroom, hfault⟩

private theorem listsDenied_addPoint_iff {replaceDeleted : Bool}
    (hplain : replaceDeleted = false ∨ s.allowReplaceDeleted = true ∧ s.deletedElements = ∅) :
    ListsDenied s c (.addPoint x label replaceDeleted) ↔
      ListsDenied s c (.addPointLevel x label (-1)) := by
  refine and_congr_right fun _ => ⟨?_, ?_⟩
  · rintro ⟨_, _, hins, hlevel⟩
    cases hins with
    | addPoint _ hnew hroom => exact ⟨x, _, Inserts.addPointLevel hnew hroom, hlevel⟩
  · rintro ⟨_, _, hins, hlevel⟩
    cases hins with
    | addPointLevel hnew hroom => exact ⟨x, _, Inserts.addPoint hplain hnew hroom, hlevel⟩

private theorem wp_unmarkDeletedInternal (hi : i < s.curElementCount) (hm : s.isMarkedDeleted i = true) :
    wp (unmarkDeletedInternal i) (fun _ s' => s' = s.withoutMark i) (fun _ _ => False) s := by
  simp only [unmarkDeletedInternal, wp_bind, wp_get]
  rw [if_neg (not_le.mpr hi), if_pos hm, wp_set]

private theorem wp_addPointLevel {level : Int} (h : s.WellFormed)
    (hb : ∀ i, i < s.curElementCount → ¬s.LacksLists i)
    (hlists : ¬ListsDenied s c (.addPointLevel x label level)) :
    wp (addPointLevel P c x label level)
      (fun _ s' => ((∃ t, Stored s x label t ∧ LinksOnly t s') ∧
        ¬Faults P s c (.addPointLevel x label level)) ∧ BaseStored P s s' x label)
      (fun e s' => (∃ exn, e = .thrown exn ∧ s' = s ∧ StoreThrows s label exn) ∨
        e = .emptyBack ∧ Faults P s c (.addPointLevel x label level)) s := by
  simp only [addPointLevel, wp_bind, wp_get]
  cases hlookup : s.labelLookup label with
  | none =>
    dsimp only
    split
    · next hfull =>
      exact Or.inl ⟨_, rfl, rfl, StoreThrows.capacityExceeded hlookup hfull⟩
    · next hroom =>
      rw [not_le] at hroom
      rw [faults_addPointLevel_iff hlookup hroom]
      have hmalloc := fun hlevel => Bool.eq_true_of_not_eq_false fun hm =>
        hlists ⟨hm, x, _, Inserts.addPointLevel hlookup hroom, hlevel⟩
      exact wp_mono (wp_insertNew h hmalloc)
        (fun _ s' h' => ⟨⟨⟨_, Stored.inserted _ hlookup hroom, h'.1.1.2⟩, h'.1.2⟩,
          BaseStored.of_new hlookup h'.2⟩) fun _ _ he => Or.inr he
  | some i =>
    have hi := h.lookup label i hlookup
    have hsafe : ¬Faults P s c (.addPointLevel x label level) := not_faults_addPointLevel hlookup
    dsimp only
    split
    · next hthrow =>
      exact Or.inl ⟨_, rfl, rfl, StoreThrows.updateDeleted hlookup hthrow.1 hthrow.2⟩
    · next hgo =>
      cases hm : s.isMarkedDeleted i with
      | false =>
        simp only [Bool.false_eq_true, if_false, wp_bind]
        exact wp_mono (wp_updatePoint h.graph h.params h.cap h.entry hi hm (hb i hi))
          (fun _ s' h' => ⟨⟨⟨_, Stored.updated hlookup hm, h'.1⟩, hsafe⟩,
            BaseStored.of_known hlookup fun _ => h'.2⟩) fun _ _ he => he.elim
      | true =>
        have hallow : s.allowReplaceDeleted = false := by
          by_contra ha
          exact hgo ⟨Bool.eq_true_of_not_eq_false ha, hm⟩
        have hw := h.unmark hi hm
        simp only [if_true, wp_bind]
        refine wp_mono (wp_unmarkDeletedInternal hi hm) ?_ fun _ _ he => he.elim
        rintro _ _ rfl
        rw [wp_bind]
        refine wp_mono (wp_updatePoint hw.graph hw.params hw.cap hw.entry hi ?_ (hb i hi))
          (fun _ s' h' => ⟨⟨⟨_, Stored.revived hlookup hallow hm, h'.1⟩, hsafe⟩,
            BaseStored.of_known hlookup fun hlive => by cases hm.symm.trans hlive⟩)
          fun _ _ he => he.elim
        rw [isMarkedDeleted_withoutMark, if_pos rfl]

theorem wp_addPoint_vacant (h : s.WellFormed)
    (hb : ∀ i, i < s.curElementCount → ¬s.LacksLists i) (hallow : s.allowReplaceDeleted = true)
    (hne : s.deletedElements.Nonempty) :
    wp (addPoint P c x label true)
      (fun _ s' => LinksOnly (s.replaced (c.begin_ s.deletedElements) x label) s')
      (fun _ _ => False) s := by
  have hmem := c.begin_mem s.deletedElements hne
  obtain ⟨hlt, hm⟩ := h.mem_deleted hmem
  have hw := h.takeOver hmem label
  have hm' : (s.relabel (c.begin_ s.deletedElements) label).isMarkedDeleted
      (c.begin_ s.deletedElements) = true := by
    rw [isMarkedDeleted, getLinklistAtLevel_relabel]
    exact hm
  simp only [addPoint, wp_bind, wp_get]
  rw [if_neg (by simp [hallow]), if_neg (by simp [hne.ne_empty])]
  simp only [wp_bind, wp_set]
  refine wp_mono (wp_unmarkDeletedInternal hlt hm') ?_ fun _ _ he => he
  rintro _ _ rfl
  refine wp_mono (wp_updatePoint hw.graph hw.params hw.cap hw.entry hlt ?_ (hb _ hlt))
    (fun _ _ h' => h'.1) fun _ _ he => he
  rw [isMarkedDeleted_withoutMark, if_pos rfl]

theorem wp_addPoint {replaceDeleted : Bool} (h : s.WellFormed)
    (hb : ∀ i, i < s.curElementCount → ¬s.LacksLists i)
    (hlists : ¬ListsDenied s c (.addPoint x label replaceDeleted)) :
    wp (addPoint P c x label replaceDeleted)
      (fun _ s' => ((∃ t, Effect s c (.addPoint x label replaceDeleted) none t ∧ LinksOnly t s') ∧
        ¬Faults P s c (.addPoint x label replaceDeleted)) ∧
        BaseEffect P s s' (.addPoint x label replaceDeleted))
      (fun e s' => (∃ exn, e = .thrown exn ∧ s' = s ∧
          Throws s (.addPoint x label replaceDeleted) exn) ∨
        e = .emptyBack ∧ Faults P s c (.addPoint x label replaceDeleted)) s := by
  by_cases hvacant : replaceDeleted = true ∧ s.allowReplaceDeleted = true ∧ s.deletedElements.Nonempty
  · obtain ⟨rfl, hallow, hne⟩ := hvacant
    have hsafe : ¬Faults P s c (.addPoint x label true) := by
      rintro ⟨_, _, hins, -⟩
      cases hins with
      | addPoint hplain _ _ => exact hne.ne_empty (hplain.resolve_left Bool.true_eq_false.mp).2
    exact wp_mono (wp_addPoint_vacant h hb hallow hne)
      (fun _ s' h' => ⟨⟨⟨_, Effect.replaced hallow hne, h'⟩, hsafe⟩,
        fun hempty => absurd hempty hne.ne_empty⟩) fun _ _ he => he.elim
  · simp only [addPoint, wp_bind, wp_get]
    split
    · next hoff =>
      obtain ⟨hallow, rfl⟩ := hoff
      exact Or.inl ⟨_, rfl, rfl, Throws.replacementDisabled hallow⟩
    · next hon =>
      have hplain : replaceDeleted = false ∨
          s.allowReplaceDeleted = true ∧ s.deletedElements = ∅ := by
        cases replaceDeleted with
        | false => exact Or.inl rfl
        | true =>
          have hallow : s.allowReplaceDeleted = true := by simpa using hon
          exact Or.inr ⟨hallow, Finset.not_nonempty_iff_eq_empty.mp fun hne =>
            hvacant ⟨rfl, hallow, hne⟩⟩
      rw [if_pos (hplain.imp_right And.right), wp_bind, faults_addPoint_iff hplain]
      rw [listsDenied_addPoint_iff hplain] at hlists
      refine wp_mono (wp_addPointLevel h hb hlists)
        (fun _ s' ⟨⟨⟨t, ht, h'⟩, hsafe⟩, hbase⟩ =>
          ⟨⟨⟨t, Effect.addPoint hplain ht, h'⟩, hsafe⟩, fun _ => hbase⟩) fun e s' he => ?_
      rcases he with ⟨exn, he, hs, ht⟩ | he
      · exact Or.inl ⟨exn, he, hs, Throws.addPoint hplain ht⟩
      · exact Or.inr he

/-- A call on a well-formed index that is given the memory it asks for returns with one of its
effects, throws one of its exceptions and leaves the index alone, or strands and takes the last of
no neighbours. -/
theorem wp_runOp (op : Op V) (h : s.WellFormed) (hb : s.Backed) (hg : Granted s c op) :
    wp (runOp P c op)
      (fun r s' => ((∃ t, Effect s c op r t ∧ LinksOnly t s') ∧ ¬Faults P s c op) ∧
        BaseEffect P s s' op)
      (fun e s' => (∃ exn, e = .thrown exn ∧ s' = s ∧ Throws s op exn) ∨
        e = .emptyBack ∧ Faults P s c op) s := by
  have hself : ∀ t : Index V, t.GraphInv → LinksOnly t t := fun t ht => ⟨SameRecords.refl t, ht⟩
  cases op with
  | addPointLevel x label level =>
    simp only [runOp, wp_bind]
    refine wp_mono (wp_addPointLevel h hb.lists hg.lists)
      (fun _ s' ⟨⟨⟨t, ht, h'⟩, hsafe⟩, hbase⟩ =>
        ⟨⟨⟨t, Effect.addPointLevel ht, h'⟩, hsafe⟩, hbase⟩) fun e s' he => ?_
    rcases he with ⟨exn, he, hs, ht⟩ | he
    · exact Or.inl ⟨exn, he, hs, Throws.addPointLevel ht⟩
    · exact Or.inr he
  | addPoint x label replaceDeleted =>
    simp only [runOp, wp_bind]
    exact wp_addPoint h hb.lists hg.lists
  | markDelete label =>
    simp only [runOp, markDelete, wp_bind, wp_get]
    cases hlookup : s.labelLookup label with
    | none => exact Or.inl ⟨_, rfl, rfl, Throws.markUnknown hlookup⟩
    | some i =>
      have hi := h.lookup label i hlookup
      simp only [markDeletedInternal, wp_bind, wp_get]
      rw [if_neg (not_le.mpr hi)]
      cases hm : s.isMarkedDeleted i with
      | true => exact Or.inl ⟨_, rfl, rfl, Throws.markDeleted hlookup hm⟩
      | false =>
        exact ⟨⟨⟨_, Effect.markDelete hlookup hm, hself _ (h.withMark hi hm).graph⟩, nofun⟩, trivial⟩
  | unmarkDelete label =>
    simp only [runOp, unmarkDelete, wp_bind, wp_get]
    cases hlookup : s.labelLookup label with
    | none => exact Or.inl ⟨_, rfl, rfl, Throws.unmarkUnknown hlookup⟩
    | some i =>
      have hi := h.lookup label i hlookup
      simp only [unmarkDeletedInternal, wp_bind, wp_get]
      rw [if_neg (not_le.mpr hi)]
      cases hm : s.isMarkedDeleted i with
      | false => exact Or.inl ⟨_, rfl, rfl, Throws.unmarkLive hlookup hm⟩
      | true =>
        exact ⟨⟨⟨_, Effect.unmarkDelete hlookup hm, hself _ (h.unmark hi hm).graph⟩, nofun⟩, trivial⟩
  | resizeIndex n =>
    simp only [runOp, resizeIndex, wp_bind, wp_get]
    split
    · next hlt => exact Or.inl ⟨_, rfl, rfl, Throws.cannotResize hlt⟩
    · next hge =>
      obtain ⟨hlevel0, hlinkLists⟩ := hg.blocks n rfl
      simp only [hlevel0, hlinkLists, Bool.true_eq_false, if_false, wp_bind, wp_modify]
      exact ⟨⟨⟨_, Effect.resizeIndex (not_lt.mp hge), SameRecords.refl _,
        h.graph.congr rfl (fun _ => rfl) (fun _ => rfl) fun _ _ => rfl⟩, nofun⟩, trivial⟩
  | getDataByLabel label =>
    simp only [runOp, getDataByLabel, wp_bind, wp_get]
    cases hlookup : s.labelLookup label with
    | none => exact Or.inl ⟨_, rfl, rfl, Throws.readUnknown hlookup⟩
    | some i =>
      dsimp only
      cases hm : s.isMarkedDeleted i with
      | true => exact Or.inl ⟨_, rfl, rfl, Throws.readDeleted hlookup hm⟩
      | false => exact ⟨⟨⟨_, Effect.getDataByLabel hlookup hm, hself _ h.graph⟩, nofun⟩, trivial⟩

/-- The state a call leaves: unchanged after an exception, otherwise one of the call's effects. -/
theorem afterOp_effects {op : Op V} (h : s.WellFormed) (hb : s.Backed) (hg : Granted s c op)
    (hs' : afterOp P c op s = some s') :
    (s' = s ∧ ∃ exn, Throws s op exn) ∨
      (∃ r t, Effect s c op r t ∧ LinksOnly t s') ∧ BaseEffect P s s' op := by
  obtain ⟨hok, herror⟩ := wp_def.mp (wp_runOp (P := P) op h hb hg)
  unfold afterOp at hs'
  split at hs'
  · next r t hrun =>
    cases hs'
    exact Or.inr ⟨⟨r, (hok r _ hrun).1.1⟩, (hok r _ hrun).2⟩
  · next e t hrun =>
    cases hs'
    rcases herror _ _ hrun with ⟨exn, -, rfl, hthrow⟩ | ⟨he, -⟩
    · exact Or.inl ⟨rfl, exn, hthrow⟩
    · cases he
  · cases hs'

theorem afterOp_cases {op : Op V} (h : s.WellFormed) (hb : s.Backed) (hg : Granted s c op)
    (hs' : afterOp P c op s = some s') :
    (s' = s ∧ ∃ exn, Throws s op exn) ∨ ∃ r t, Effect s c op r t ∧ LinksOnly t s' :=
  (afterOp_effects h hb hg hs').imp_right And.left

theorem Stored.wellFormed {t : Index V} (hst : Stored s x label t) (h : s.WellFormed) :
    t.WellFormed := by
  cases hst with
  | inserted curlevel hnew hroom => exact h.inserted hroom
  | updated hlookup hm => exact h.setData _ x
  | revived hlookup hallow hm => exact (h.unmark (h.lookup label _ hlookup) hm).setData _ x

private theorem WellFormed.resized (h : s.WellFormed) {n : Nat} (hle : s.curElementCount ≤ n)
    (caps : Capacities) : { s with maxElements := n, capacities := caps }.WellFormed :=
  ⟨⟨h.params.1, h.params.2, h.params.3, h.params.4, h.params.5⟩, hle,
    h.graph.congr rfl (fun _ => rfl) (fun _ => rfl) fun _ _ => rfl,
    h.entry.congr rfl (fun _ => rfl) rfl rfl, h.lookup, h.numDeleted, h.deleted⟩

theorem Effect.wellFormed {op : Op V} {r : Option V} {t : Index V} (he : Effect s c op r t)
    (h : s.WellFormed) :
    t.WellFormed := by
  cases he with
  | addPointLevel hst => exact hst.wellFormed h
  | addPoint _ hst => exact hst.wellFormed h
  | replaced _ hne => exact (h.takeOver (c.begin_mem _ hne) _).setData _ _
  | markDelete hlookup hm => exact h.withMark (h.lookup _ _ hlookup) hm
  | unmarkDelete hlookup hm => exact h.unmark (h.lookup _ _ hlookup) hm
  | resizeIndex hle => exact h.resized hle _
  | getDataByLabel _ _ => exact h

theorem construct_wellFormed {dataSize maxElements M efConstruction : Nat}
    {allowReplaceDeleted : Bool} (hM : 2 ≤ M)
    (hs : construct P dataSize maxElements M efConstruction allowReplaceDeleted true true = .ok s) :
    s.WellFormed := by
  cases hs
  have hcap : 2 ≤ (if M ≤ 10000 then M else 10000) ∧ (if M ≤ 10000 then M else 10000) ≤ 10000 := by
    split <;> omega
  refine ⟨⟨hcap.1, hcap.2, rfl, rfl, le_max_right _ _⟩, Nat.zero_le _, ?_,
    ⟨fun _ => ⟨rfl, rfl⟩, nofun, nofun, ?_⟩, nofun, rfl, ?_⟩
  · intro i l hi
    exact absurd hi.1 (Nat.not_lt_zero i)
  · intro i hi
    exact absurd hi (Nat.not_lt_zero i)
  · exact (ite_self ∅).symm

/-- An insertion that gets no memory for its upper lists throws with the new element counted. -/
theorem wp_runOp_denied {op : Op V} (h : ListsDenied s c op) :
    wp (runOp P c op) (fun _ _ => False)
      (fun e s' => e = .thrown .addPointLinklist ∧
        s'.curElementCount = s.curElementCount + 1) s := by
  obtain ⟨hmalloc, x, curlevel, hins, hlevel⟩ := h
  have hdenied : ∀ label, wp (insertNew P c x label curlevel) (fun _ _ => False)
      (fun e s' => e = .thrown .addPointLinklist ∧
        s'.curElementCount = s.curElementCount + 1) s := by
    intro label
    refine wp_mono (wp_insertNew_denied hlevel hmalloc) (fun _ _ hf => hf) ?_
    rintro e s' ⟨he, rfl⟩
    exact ⟨he, rfl⟩
  cases hins with
  | addPointLevel hnew hroom =>
    simp only [runOp, addPointLevel, wp_bind, wp_get, hnew]
    rw [if_neg (not_le.mpr hroom)]
    exact wp_mono (hdenied _) (fun _ _ hf => hf.elim) fun _ _ he => he
  | @addPoint _ _ replaceDeleted hplain hnew hroom =>
    have hon : ¬(s.allowReplaceDeleted = false ∧ replaceDeleted = true) := by
      rintro ⟨hoff, hreplace⟩
      rcases hplain with hr | ⟨hallow, -⟩
      · exact Bool.false_ne_true (hr.symm.trans hreplace)
      · exact Bool.false_ne_true (hoff.symm.trans hallow)
    simp only [runOp, addPoint, wp_bind, wp_get]
    rw [if_neg hon, if_pos (hplain.imp_right And.right)]
    simp only [addPointLevel, wp_bind, wp_get, hnew]
    rw [if_neg (not_le.mpr hroom)]
    exact wp_mono (hdenied _) (fun _ _ hf => hf.elim) fun _ _ he => he

private theorem construct_backed {dataSize maxElements M efConstruction : Nat} {allowReplaceDeleted : Bool}
    (hs : construct P dataSize maxElements M efConstruction allowReplaceDeleted true true = .ok s) :
    s.Backed := by
  cases hs
  exact ⟨Nat.zero_le _, fun i hi => absurd hi (Nat.not_lt_zero i)⟩

theorem wp_resizeIndex (s : Index V) (c : Choices) (n : Nat) :
    wp (resizeIndex c n)
      (fun _ s' => s.curElementCount ≤ n ∧ (c.reallocLevel0 = true ∧ c.reallocLinkLists = true) ∧
        s' = { s with maxElements := n, capacities := .allocated s.layout.sizeDataPerElement n })
      (fun e s' => n < s.curElementCount ∧ e = .thrown .cannotResize ∧ s' = s ∨
        s.curElementCount ≤ n ∧ c.reallocLevel0 = false ∧ e = .thrown .resizeBaseLayer ∧
          s' = { s with capacities :=
            ⟨visitedListLength n, n, n,
              if n * s.layout.sizeDataPerElement % 2 ^ 64 = 0 then 0
              else s.capacities.dataLevel0Memory,
              s.capacities.linkLists⟩ } ∨
        s.curElementCount ≤ n ∧ (c.reallocLevel0 = true ∧ c.reallocLinkLists = false) ∧
          e = .thrown .resizeOtherLayers ∧
          s' = { s with capacities :=
            ⟨visitedListLength n, n, n, blockLength s.layout.sizeDataPerElement n,
              if n * 8 % 2 ^ 64 = 0 then 0 else s.capacities.linkLists⟩ }) s := by
  simp only [resizeIndex, wp_bind, wp_get]
  split
  · next hlt => exact Or.inl ⟨hlt, rfl, rfl⟩
  · next hge =>
    simp only [wp_bind, wp_modify]
    split
    · next hlevel0 =>
      refine Or.inr (Or.inl ⟨not_lt.mp hge, hlevel0, rfl, ?_⟩)
      split <;> rfl
    · next hlevel0 =>
      simp only [wp_bind, wp_modify]
      split
      · next hlinkLists =>
        refine Or.inr (Or.inr ⟨not_lt.mp hge,
          ⟨Bool.eq_true_of_not_eq_false hlevel0, hlinkLists⟩, rfl, ?_⟩)
        split <;> rfl
      · next hlinkLists =>
        exact ⟨not_lt.mp hge, ⟨Bool.eq_true_of_not_eq_false hlevel0,
          Bool.eq_true_of_not_eq_false hlinkLists⟩, rfl⟩

section Footprint

variable {R : Index V → Index V → Prop}

theorem WriteClosed.addPointLevel (hR : WriteClosed R) {level : Int} {curlevel : Nat}
    (hlevel : curlevel = if 0 < level then level.toNat else c.randomLevel)
    (hnew : s.labelLookup label = none → s.curElementCount < s.maxElements →
      R s (s.withNewElement x label curlevel) ∧
        (curlevel ≠ 0 → c.malloc = false → R s (s.appendElement x label curlevel))) :
    wp (Index.addPointLevel P c x label level) (fun _ s' => R s s') (fun _ s' => R s s') s := by
  simp only [Index.addPointLevel, wp_bind, wp_get]
  split
  · split
    · exact hR.refl s
    · have hupdate : ∀ i, Keeps R (Index.updatePoint P c x i >>= fun _ => pure i) := fun i =>
        hR.bind (hR.updatePoint i x) fun _ => keeps_pure hR.refl i
      split
      · exact hR.bind (hR.unmarkDeletedInternal _) (fun _ => hupdate _) s
      · exact hupdate _ s
  · next hlookup =>
    split
    · exact hR.refl s
    · next hroom =>
      obtain ⟨hnew, hdenied⟩ := hnew hlookup (not_le.mp hroom)
      subst hlevel
      exact hR.insertNew x label hnew hdenied

theorem WriteClosed.addPoint (hR : WriteClosed R) {replaceDeleted : Bool}
    (hnew : replaceDeleted = false ∨ s.allowReplaceDeleted = true ∧ s.deletedElements = ∅ →
      s.labelLookup label = none → s.curElementCount < s.maxElements →
      R s (s.withNewElement x label c.randomLevel) ∧ (c.randomLevel ≠ 0 → c.malloc = false →
        R s (s.appendElement x label c.randomLevel))) :
    wp (Index.addPoint P c x label replaceDeleted) (fun _ s' => R s s') (fun _ s' => R s s') s := by
  simp only [Index.addPoint, wp_bind, wp_get]
  split
  · exact hR.refl s
  · next hon =>
    split
    · next hplain =>
      have hplain' : replaceDeleted = false ∨
          s.allowReplaceDeleted = true ∧ s.deletedElements = ∅ := by
        cases replaceDeleted with
        | false => exact Or.inl rfl
        | true => exact Or.inr ⟨by simpa using hon, hplain.resolve_left nofun⟩
      rw [wp_bind]
      exact wp_mono (hR.addPointLevel rfl (hnew hplain')) (fun _ _ h => h) fun _ _ h => h
    · rw [wp_bind, wp_set]
      exact hR.wp_keeps (hR.relabel s _ label)
        (hR.bind (hR.unmarkDeletedInternal _) fun _ => hR.updatePoint _ x)

/-- Every call but `resizeIndex` keeps what its writes keep, in whatever state it is made. -/
theorem WriteClosed.runOp (hR : WriteClosed R) {op : Op V} (hop : ∀ n, op ≠ .resizeIndex n)
    (hnew : ∀ x label curlevel, Inserts s c op x curlevel →
      R s (s.withNewElement x label curlevel))
    (hdenied : ListsDenied s c op → ∀ x label curlevel, Inserts s c op x curlevel →
      R s (s.appendElement x label curlevel)) :
    wp (Index.runOp P c op) (fun _ s' => R s s') (fun _ s' => R s s') s := by
  cases op with
  | addPointLevel x label level =>
    rw [Index.runOp, wp_bind]
    refine wp_mono (hR.addPointLevel rfl fun hlookup hroom => ?_) (fun _ _ h => h) fun _ _ h => h
    have hins : Inserts s c (.addPointLevel x label level) x _ := .addPointLevel hlookup hroom
    exact ⟨hnew x label _ hins, fun hl hm => hdenied ⟨hm, x, _, hins, hl⟩ x label _ hins⟩
  | addPoint x label replaceDeleted =>
    rw [Index.runOp, wp_bind]
    refine wp_mono (hR.addPoint fun hplain hlookup hroom => ?_) (fun _ _ h => h) fun _ _ h => h
    have hins : Inserts s c (.addPoint x label replaceDeleted) x _ := .addPoint hplain hlookup hroom
    exact ⟨hnew x label _ hins, fun hl hm => hdenied ⟨hm, x, _, hins, hl⟩ x label _ hins⟩
  | markDelete label =>
    refine hR.bind (keeps_get fun s => ?_) (fun _ => keeps_pure hR.refl _) s
    split
    · exact hR.refl s
    · exact hR.markDeletedInternal _ s
  | unmarkDelete label =>
    refine hR.bind (keeps_get fun s => ?_) (fun _ => keeps_pure hR.refl _) s
    split
    · exact hR.refl s
    · exact hR.unmarkDeletedInternal _ s
  | resizeIndex n => exact absurd rfl (hop n)
  | getDataByLabel label =>
    refine hR.bind (keeps_get fun s => ?_) (fun _ => keeps_pure hR.refl _) s
    split
    · exact hR.refl s
    · split <;> exact hR.refl s

end Footprint

theorem Backed.runOp (h : s.Backed) {op : Op V} (hlists : ¬ListsDenied s c op) :
    wp (runOp P c op) (fun _ s' => s'.Backed) (fun _ s' => s'.Backed) s := by
  by_cases hop : ∃ n, op = .resizeIndex n
  · obtain ⟨n, rfl⟩ := hop
    rw [Index.runOp, wp_bind]
    refine wp_mono (wp_resizeIndex s c n) ?_ ?_
    · rintro _ _ ⟨-, -, rfl⟩
      exact ⟨h.records, h.lists⟩
    · rintro _ _ (⟨-, -, rfl⟩ | ⟨-, -, -, rfl⟩ | ⟨-, -, -, rfl⟩) <;> exact ⟨h.records, h.lists⟩
  · exact wp_mono (writeClosed_backed.runOp (fun n hn => hop ⟨n, hn⟩)
      (fun x label curlevel _ hs => hs.withNewElement x label curlevel) fun hd => absurd hd hlists)
      (fun _ _ h' => h' h) fun _ _ h' => h' h

/-- What a call establishes when it returns and when it throws, the state it leaves has. -/
theorem of_afterOp {op : Op V} {Q : Index V → Prop}
    (h : wp (runOp P c op) (fun _ => Q) (fun e s' => ∀ exn, e = .thrown exn → Q s') s)
    (hs' : afterOp P c op s = some s') : Q s' := by
  obtain ⟨hok, herror⟩ := wp_def.mp h
  unfold afterOp at hs'
  split at hs'
  · next hrun =>
    cases hs'
    exact hok _ _ hrun
  · next hrun =>
    cases hs'
    exact herror _ _ hrun _ rfl
  · cases hs'

theorem WellFormed.afterOp {op : Op V} (h : s.WellFormed) (hb : s.Backed)
    (hlists : ¬ListsDenied s c op) (hs' : afterOp P c op s = some s') : s'.WellFormed := by
  refine of_afterOp ?_ hs'
  by_cases hop : ∃ n, op = .resizeIndex n
  · obtain ⟨n, rfl⟩ := hop
    rw [runOp, wp_bind]
    refine wp_mono (wp_resizeIndex s c n) ?_ ?_
    · rintro _ _ ⟨hle, -, rfl⟩
      exact h.resized hle _
    · rintro e s'' (⟨-, -, rfl⟩ | ⟨-, -, -, rfl⟩ | ⟨-, -, -, rfl⟩) exn -
      · exact h
      · exact h.resized h.cap _
      · exact h.resized h.cap _
  · refine wp_mono (wp_runOp op h hb ⟨hlists, fun n hn => absurd ⟨n, hn⟩ hop⟩) ?_ ?_
    · rintro r s'' ⟨⟨⟨t, heffect, hlinks⟩, -⟩, -⟩
      exact (heffect.wellFormed h).linksOnly hlinks
    · rintro e s'' (⟨-, -, rfl, -⟩ | ⟨rfl, -⟩) exn he
      · exact h
      · cases he

/-- As long as no insertion is denied its lists, the invariant holds, whatever becomes of the
blocks. -/
theorem Attempted.sound {start : Index V → Prop} {may : Index V → Op V → Choices → Prop}
    (h : Attempted P start may s) (hmay : ∀ {s op c}, may s op c → ¬ListsDenied s c op) :
    s.WellFormed ∧ s.Backed := by
  induction h with
  | built _ _ _ _ _ hM _ hs => exact ⟨construct_wellFormed hM hs, construct_backed hs⟩
  | call _ hcall hs' ih =>
    have hlists := hmay hcall
    exact ⟨ih.1.afterOp ih.2 hlists hs', of_afterOp (wp_mono (ih.2.runOp hlists) (fun _ _ h => h)
      fun _ _ h _ _ => h) hs'⟩

theorem Reachable.wellFormed {may : Index V → Op V → Choices → Prop} (h : Reachable P may s) :
    s.WellFormed := (h.sound fun hcall => hcall.2.lists).1

theorem Reachable.backed {may : Index V → Op V → Choices → Prop} (h : Reachable P may s) :
    s.Backed := (h.sound fun hcall => hcall.2.lists).2

/-- What holds of a new index and is kept by every effect of a call, and by a change of links
alone, holds along every run. -/
theorem Reachable.invariant {may : Index V → Op V → Choices → Prop} {I : Index V → Prop}
    (h : Reachable P may s)
    (hbuilt : ∀ dataSize maxElements M efConstruction allowReplaceDeleted s,
      construct P dataSize maxElements M efConstruction allowReplaceDeleted true true = .ok s → I s)
    (heffect : ∀ s op c r t, s.WellFormed → may s op c → Effect s c op r t → I s → I t)
    (hlinks : ∀ t s', LinksOnly t s' → I t → I s') : I s := by
  induction h with
  | built _ _ _ _ _ _ _ hs => exact hbuilt _ _ _ _ _ _ hs
  | @call s s' op c hr hcall hs' ih =>
    have hw := Reachable.wellFormed hr
    rcases afterOp_cases hw (Reachable.backed hr) hcall.2 hs' with ⟨rfl, -⟩ | ⟨r, t, he, hl⟩
    · exact ih
    · exact hlinks t s' hl (heffect s op c r t hw hcall.1 he ih)

theorem Reachable.mono {may may' : Index V → Op V → Choices → Prop} (h : Reachable P may s)
    (hmay : ∀ {s op c}, s.WellFormed → may s op c → may' s op c) : Reachable P may' s := by
  induction h with
  | built _ _ _ _ _ hM _ hs => exact Reachable.built _ _ _ _ _ hM hs
  | call hr hcall hs' ih =>
    exact Reachable.call ih (hmay (Reachable.wellFormed hr) hcall.1) hcall.2 hs'

def afterOps (P : Platform V D) : List (Op V × Choices) → Index V → Option (Index V)
  | [], s => some s
  | (op, c) :: rest, s => (afterOp P c op s).bind (afterOps P rest)

theorem Attempted.afterOps {start : Index V → Prop} {may : Index V → Op V → Choices → Prop}
    {ops : List (Op V × Choices)} (h : Attempted P start may s)
    (hmay : ∀ p ∈ ops, ∀ t, may t p.1 p.2) (hs' : afterOps P ops s = some s') :
    Attempted P start may s' := by
  induction ops generalizing s with
  | nil =>
    cases hs'
    exact h
  | cons p ops ih =>
    obtain ⟨hp, hrest⟩ := List.forall_mem_cons.mp hmay
    obtain ⟨t, ht, hs'⟩ := Option.bind_eq_some_iff.mp hs'
    exact ih (h.call (hp s) ht) hrest hs'

theorem Reachable.afterOps {may : Index V → Op V → Choices → Prop} {ops : List (Op V × Choices)}
    (h : Reachable P may s) (hmay : ∀ p ∈ ops, (∀ t, may t p.1 p.2) ∧ p.2.Allocates)
    (hs' : afterOps P ops s = some s') : Reachable P may s' :=
  Attempted.afterOps h (fun p hp t => ⟨(hmay p hp).1 t, granted_of_allocates (hmay p hp).2 _⟩) hs'

theorem Attempted.exists_run {start : Index V → Prop} {may : Index V → Op V → Choices → Prop}
    {ops : List (Op V × Choices)} (h : Attempted P start may s)
    (hmay : ∀ p ∈ ops, ∀ t, may t p.1 p.2) (Q : Index V → Prop) [DecidablePred Q]
    (hrun : (Index.afterOps P ops s).any fun s => decide (Q s)) :
    ∃ s', Attempted P start may s' ∧ Q s' := by
  obtain ⟨s', hs', hQ⟩ := (Option.any_eq_true _ _).mp hrun
  exact ⟨s', h.afterOps hmay hs', of_decide_eq_true hQ⟩

theorem Reachable.exists_afterOps {may : Index V → Op V → Choices → Prop}
    {ops : List (Op V × Choices)} {Q : Index V → Prop} (h : Reachable P may s)
    (hmay : ∀ p ∈ ops, (∀ t, may t p.1 p.2) ∧ p.2.Allocates)
    (hrun : ∃ s', Index.afterOps P ops s = some s' ∧ Q s') : ∃ s', Reachable P may s' ∧ Q s' := by
  obtain ⟨s', hs', hQ⟩ := hrun
  exact ⟨s', h.afterOps hmay hs', hQ⟩

/-- The state after a list of calls, if each meets `may` when it is made. -/
def afterOpsWhile (P : Platform V D) (may : Index V → Op V → Choices → Prop)
    [∀ s op c, Decidable (may s op c)] : List (Op V × Choices) → Index V → Option (Index V)
  | [], s => some s
  | (op, c) :: rest, s =>
    if may s op c then (afterOp P c op s).bind (afterOpsWhile P may rest) else none

theorem Reachable.afterOpsWhile {may : Index V → Op V → Choices → Prop}
    [∀ s op c, Decidable (may s op c)] {ops : List (Op V × Choices)} (h : Reachable P may s)
    (hc : ∀ p ∈ ops, p.2.Allocates) (hs' : afterOpsWhile P may ops s = some s') :
    Reachable P may s' := by
  induction ops generalizing s with
  | nil =>
    cases hs'
    exact h
  | cons p ops ih =>
    obtain ⟨hp, hrest⟩ := List.forall_mem_cons.mp hc
    rw [Index.afterOpsWhile] at hs'
    split at hs'
    · next hmay =>
      obtain ⟨t, ht, hs'⟩ := Option.bind_eq_some_iff.mp hs'
      exact ih (Reachable.call h hmay (granted_of_allocates hp _) ht) hrest hs'
    · cases hs'

/-- A platform that can be run, with its queues kept as lists. -/
def listPlatform (fstdistfunc : V → V → D) (maxDist : D) : Platform V D where
  fstdistfunc := fstdistfunc
  maxDist := maxDist
  invLog _ := 0
  queues :=
    ⟨listQueue FstLess fstLess_asymm not_fstLess_trans,
      listQueue FstLess fstLess_asymm not_fstLess_trans⟩
  closest := listQueue LexLess lexLess_asymm not_lexLess_trans
  answers := listQueue LexLess lexLess_asymm not_lexLess_trans

/-- Choices that can be run: a given level, no neighbour skipped, sets traversed as listed and
beginning with their least element, every allocation successful. -/
def plainChoices (level : Nat) : Choices where
  randomLevel := level
  skipNeighbor _ _ := false
  traversal l := l
  traversal_perm := List.Perm.refl
  begin_ d := if h : d.Nonempty then d.min' h else 0
  begin_mem d h := by
    rw [dif_pos h]
    exact d.min'_mem h
  malloc := true
  reallocLevel0 := true
  reallocLinkLists := true

theorem plainChoices_allocates (level : Nat) : (plainChoices level).Allocates := ⟨rfl, rfl, rfl⟩

/-- Squared distances between points of three coordinates. -/
def pointPlatform : Platform (ℤ × ℤ × ℤ) ℤ :=
  listPlatform (fun a b => (a.1 - b.1) ^ 2 + (a.2.1 - b.2.1) ^ 2 + (a.2.2 - b.2.2) ^ 2) 1000000

/-- An empty index of points with `M = 2` and room for ten. -/
def emptyPoints (allowReplaceDeleted : Bool) : Index (ℤ × ℤ × ℤ) :=
  { maxElements := 10
    curElementCount := 0
    numDeleted := 0
    M := 2
    maxM := 2
    maxM0 := 4
    efConstruction := 2
    ef := 10
    mult := 0
    maxlevel := -1
    enterpointNode := none
    layout := ⟨12, 20, 40, 20, 32, 0, 12⟩
    capacities := ⟨10, 10, 10, 10, 10⟩
    dataLevel0Memory := default
    linkLists := default
    elementLevels := default
    labelLookup := fun _ => none
    allowReplaceDeleted := allowReplaceDeleted
    deletedElements := ∅ }

theorem emptyPoints_attempted (start : Index (ℤ × ℤ × ℤ) → Prop)
    (may : Index (ℤ × ℤ × ℤ) → Op (ℤ × ℤ × ℤ) → Choices → Prop) {allowReplaceDeleted : Bool}
    (hstart : start (emptyPoints allowReplaceDeleted)) :
    Attempted pointPlatform start may (emptyPoints allowReplaceDeleted) :=
  Attempted.built 12 10 2 2 allowReplaceDeleted le_rfl hstart rfl

theorem emptyPoints_reachable (may : Index (ℤ × ℤ × ℤ) → Op (ℤ × ℤ × ℤ) → Choices → Prop)
    (allowReplaceDeleted : Bool) :
    Reachable pointPlatform may (emptyPoints allowReplaceDeleted) :=
  emptyPoints_attempted _ _ trivial

/-- In every state of every run in which no insertion is denied its lists, the lists of all levels are
short enough, free of repetitions and of loops, and lead to elements of their level; the entry point
has the highest level of all. -/
theorem reachable_graph
    (h : Attempted P (fun _ => True) (fun s op c => ¬ListsDenied s c op) s) :
    (∀ i l, i < s.curElementCount → l ≤ s.level i →
      (s.connections i l).length ≤ (if l = 0 then s.maxM0 else s.maxM) ∧
      (s.connections i l).Nodup ∧
      ∀ j ∈ s.connections i l, j < s.curElementCount ∧ j ≠ i ∧ l ≤ s.level j) ∧
    (0 < s.curElementCount → ∃ ep, s.enterpointNode = some ep ∧ ep < s.curElementCount ∧
      (s.level ep : Int) = s.maxlevel ∧
      ∀ i, i < s.curElementCount → (s.level i : Int) ≤ s.maxlevel) := by
  obtain ⟨hw, -⟩ := h.sound fun hcall => hcall
  refine ⟨fun i l hi hl => ?_, fun hpos => ?_⟩
  · have hfit := hw.graph i l ⟨hi, hl⟩
    refine ⟨hfit.length_le, hfit.nodup, fun j hj => ?_⟩
    obtain ⟨⟨hlt, hle⟩, hne⟩ := hfit.valid j hj
    exact ⟨hlt, hne, hle⟩
  · obtain ⟨ep, hep⟩ := hw.entry.exists_entry hpos
    exact ⟨ep, hep, hw.entry.lt ep hep, hw.entry.level ep hep, hw.entry.le⟩

/-- Four insertions on up to three levels, an update and a deletion. -/
def sampleCalls : List (Op (ℤ × ℤ × ℤ) × Choices) :=
  [(.addPoint (0, 0, 0) 7 false, plainChoices 1), (.addPoint (5, 0, 0) 8 false, plainChoices 0),
    (.addPoint (9, 0, 0) 9 false, plainChoices 1), (.addPoint (4, 3, 0) 10 false, plainChoices 2),
    (.addPoint (1, 1, 0) 8 false, plainChoices 0), (.markDelete 9, plainChoices 0)]

theorem sampleCalls_granted :
    ∀ p ∈ sampleCalls, ∀ t : Index (ℤ × ℤ × ℤ), Granted t p.2 p.1 := by
  simp [sampleCalls, granted_of_allocates, plainChoices_allocates]

theorem exists_sample (start : Index (ℤ × ℤ × ℤ) → Prop)
    (may : Index (ℤ × ℤ × ℤ) → Op (ℤ × ℤ × ℤ) → Choices → Prop) (Q : Index (ℤ × ℤ × ℤ) → Prop)
    [DecidablePred Q] (hstart : start (emptyPoints false))
    (hmay : ∀ p ∈ sampleCalls, ∀ t, may t p.1 p.2)
    (hrun : (afterOps pointPlatform sampleCalls (emptyPoints false)).any fun s => decide (Q s)) :
    ∃ s, Attempted pointPlatform start may s ∧ Q s :=
  (emptyPoints_attempted start may hstart).exists_run hmay Q hrun

theorem exists_sample_reachable (Q : Index (ℤ × ℤ × ℤ) → Prop) [DecidablePred Q]
    (hrun : (afterOps pointPlatform sampleCalls (emptyPoints false)).any fun s => decide (Q s)) :
    ∃ s, Reachable pointPlatform (fun _ _ _ => True) s ∧ Q s :=
  exists_sample _ (fun s op c => True ∧ Granted s c op) Q trivial
    (fun p hp t => ⟨trivial, sampleCalls_granted p hp t⟩) hrun

private theorem exists_sample_granted (Q : Index (ℤ × ℤ × ℤ) → Prop) [DecidablePred Q]
    (hrun : (afterOps pointPlatform sampleCalls (emptyPoints false)).any fun s => decide (Q s)) :
    ∃ s, Attempted pointPlatform (fun _ => True) (fun s op c => ¬ListsDenied s c op) s ∧ Q s :=
  exists_sample _ (fun s op c => ¬ListsDenied s c op) Q trivial
    (fun p hp t => (sampleCalls_granted p hp t).lists) hrun

theorem reachable_graph_points : ∃ s : Index (ℤ × ℤ × ℤ),
    Attempted pointPlatform (fun _ => True) (fun s op c => ¬ListsDenied s c op) s ∧
    (s.curElementCount = 4 ∧ s.maxlevel = 2 ∧ s.connections 0 1 = [2, 3] ∧ s.numDeleted = 1) ∧
    (∀ i l, i < s.curElementCount → l ≤ s.level i →
      (s.connections i l).length ≤ (if l = 0 then s.maxM0 else s.maxM) ∧
      (s.connections i l).Nodup ∧
      ∀ j ∈ s.connections i l, j < s.curElementCount ∧ j ≠ i ∧ l ≤ s.level j) ∧
    (0 < s.curElementCount → ∃ ep, s.enterpointNode = some ep ∧ ep < s.curElementCount ∧
      (s.level ep : Int) = s.maxlevel ∧
      ∀ i, i < s.curElementCount → (s.level i : Int) ≤ s.maxlevel) := by
  obtain ⟨s, hreach, hvalues⟩ := exists_sample_granted (fun s => s.curElementCount = 4 ∧
    s.maxlevel = 2 ∧ s.connections 0 1 = [2, 3] ∧ s.numDeleted = 1) (by decide +kernel)
  exact ⟨s, hreach, hvalues, reachable_graph hreach⟩

/-- `plainChoices` for an element of level 1 whose list is not allocated. -/
def deniedListChoices : Choices := { plainChoices 1 with malloc := false }

/-- The state that the first insertion leaves if it is denied its list: it has thrown, but its
element is counted. -/
theorem denied_attempted (label : LabelType) {start : Index (ℤ × ℤ × ℤ) → Prop}
    {may : Index (ℤ × ℤ × ℤ) → Op (ℤ × ℤ × ℤ) → Choices → Prop} (hstart : start (emptyPoints false))
    (hmay : may (emptyPoints false) (.addPoint (0, 0, 0) label false) deniedListChoices) :
    Attempted pointPlatform start may ((emptyPoints false).appendElement (0, 0, 0) label 1) :=
  (emptyPoints_attempted start may hstart).call hmay rfl

/-- After a first insertion that is denied its list there is an element, but no entry point. -/
theorem addPoint_denied_noEntry : ∃ s : Index (ℤ × ℤ × ℤ),
    Attempted pointPlatform (fun _ => True) (fun _ op _ => ∃ x label, op = .addPoint x label false)
      s ∧
    s.curElementCount = 1 ∧ s.level 0 = 1 ∧ s.maxlevel = -1 ∧ s.enterpointNode = none :=
  ⟨_, denied_attempted 7 trivial ⟨_, _, rfl⟩, rfl, rfl, rfl, rfl⟩

/-- The exceptions that report an index in disorder. -/
def inconsistencies : List Exn :=
  [.tooManyCandidates, .nonBlankLinkList, .memoryCorruption, .nonExistentLevel, .badListSize,
    .selfConnection, .levelError, .candError, .levelAboveMax]

private theorem Throws.notMem_inconsistencies {op : Op V} {e : Exn} (h : Throws s op e) :
    e ∉ inconsistencies := by
  have hstored : ∀ {label : LabelType}, StoreThrows s label e → e ∉ inconsistencies := by
    intro label hst
    cases hst <;> decide
  cases h with
  | addPointLevel hst => exact hstored hst
  | addPoint _ hst => exact hstored hst
  | _ => decide

/-- In a run in which no insertion is denied its lists, no call reports an index in disorder. -/
theorem runOp_consistent (h : Attempted P (fun _ => True) (fun s op c => ¬ListsDenied s c op) s)
    (c : Choices) (op : Op V) (e : Exn) (he : e ∈ inconsistencies) (s' : Index V) :
    runOp P c op s ≠ .error (.thrown e) s' := by
  intro hrun
  obtain ⟨hw, hbacked⟩ := h.sound fun hcall => hcall
  by_cases hdenied : ListsDenied s c op
  · obtain ⟨heq, -⟩ := (wp_def.mp (wp_runOp_denied (P := P) hdenied)).2 _ s' hrun
    cases heq
    exact absurd he (by decide)
  by_cases hop : ∃ n, op = .resizeIndex n
  · obtain ⟨n, rfl⟩ := hop
    have hwp : wp (runOp P c (.resizeIndex n)) (fun _ _ => True)
        (fun f _ => f ≠ .thrown e) s := by
      rw [runOp, wp_bind]
      refine wp_mono (wp_resizeIndex s c n) (fun _ _ _ => trivial) ?_
      rintro f s'' (⟨-, rfl, -⟩ | ⟨-, -, rfl, -⟩ | ⟨-, -, rfl, -⟩) heq <;> cases heq <;>
        exact absurd he (by decide)
    exact (wp_def.mp hwp).2 _ s' hrun rfl
  have hgranted : Granted s c op := ⟨hdenied, fun n hn => absurd ⟨n, hn⟩ hop⟩
  rcases (wp_def.mp (wp_runOp (P := P) op hw hbacked hgranted)).2 _ s' hrun with
    ⟨exn, heq, -, hthrows⟩ | ⟨heq, -⟩
  · cases heq
    exact hthrows.notMem_inconsistencies he
  · cases heq

/-- An update, which rewires the neighbours on three levels and repairs the links of its element. -/
theorem runOp_consistent_points : ∃ s : Index (ℤ × ℤ × ℤ),
    Attempted pointPlatform (fun _ => True) (fun s op c => ¬ListsDenied s c op) s ∧
    (s.labelLookup 10 = some 3 ∧ s.level 3 = 2 ∧ s.connections 3 0 = [0, 1] ∧
      s.connections 3 1 = [2, 0]) ∧
    ∀ e ∈ inconsistencies, ∀ s', runOp pointPlatform (plainChoices 0)
      (.addPoint (8, 1, 0) 10 false) s ≠ .error (.thrown e) s' := by
  obtain ⟨s, hreach, hvalues⟩ := exists_sample_granted (fun s => s.labelLookup 10 = some 3 ∧
    s.level 3 = 2 ∧ s.connections 3 0 = [0, 1] ∧ s.connections 3 1 = [2, 0])
    (by decide +kernel)
  exact ⟨s, hreach, hvalues, fun e he s' => runOp_consistent hreach _ _ e he s'⟩

end Index

end HnswRvv
