import HnswRvv.Index.Runs

/-!
# An index is a finite map

`LabelMap` says what an index is for: it maps every known label to a vector and a flag that says
whether the label is deleted. `LabelMap.Step` gives the calls their meaning on that map. In the
runs in which a vacant slot is never reused for a label that is present, an index refines it.
-/

namespace HnswRvv

open Framework OrderDual
set_option linter.unusedSectionVars false

/-- The known labels, each with its vector and whether it is deleted. -/
@[ext] structure LabelMap (V : Type) where
  entries : LabelType → Option (V × Bool)
  count : Nat
  capacity : Nat
  replaces : Bool

inductive Reply (V : Type) where
  | returned (value : Option V)
  | threw (e : Exn)

namespace LabelMap

variable {V : Type}

def put (m : LabelMap V) (label : LabelType) (x : V) (deleted : Bool) : LabelMap V :=
  { m with entries := fun l => if l = label then some (x, deleted) else m.entries l }

def forget (m : LabelMap V) (label : LabelType) : LabelMap V :=
  { m with entries := fun l => if l = label then none else m.entries l }

def AllLive (m : LabelMap V) : Prop := ∀ label x, m.entries label ≠ some (x, true)

/-- Storing a vector without replacing an entry. -/
inductive Store (m : LabelMap V) (x : V) (label : LabelType) : Reply V → LabelMap V → Prop
  | add : m.entries label = none → m.count < m.capacity →
      Store m x label (.returned none) { m.put label x false with count := m.count + 1 }
  | full : m.entries label = none → m.capacity ≤ m.count →
      Store m x label (.threw .capacityExceeded) m
  | update {y : V} {deleted : Bool} : m.entries label = some (y, deleted) →
      (deleted = true → m.replaces = false) → Store m x label (.returned none) (m.put label x false)
  | refuse {y : V} : m.entries label = some (y, true) → m.replaces = true →
      Store m x label (.threw .updateDeleted) m

inductive Step (m : LabelMap V) : Op V → Reply V → LabelMap V → Prop
  | addPointLevel {x : V} {label : LabelType} {level : Int} {r : Reply V} {m' : LabelMap V} :
      Store m x label r m' → Step m (.addPointLevel x label level) r m'
  | addPoint {x : V} {label : LabelType} {replaceDeleted : Bool} {r : Reply V} {m' : LabelMap V} :
      replaceDeleted = false ∨ m.replaces = true ∧ m.AllLive → Store m x label r m' →
      Step m (.addPoint x label replaceDeleted) r m'
  | replace {x y : V} {label old : LabelType} : m.replaces = true →
      m.entries old = some (y, true) → m.entries label = none →
      Step m (.addPoint x label true) (.returned none) ((m.forget old).put label x false)
  | replacementDisabled {x : V} {label : LabelType} : m.replaces = false →
      Step m (.addPoint x label true) (.threw .replacementDisabled) m
  | mark {label : LabelType} {y : V} : m.entries label = some (y, false) →
      Step m (.markDelete label) (.returned none) (m.put label y true)
  | markUnknown {label : LabelType} : m.entries label = none →
      Step m (.markDelete label) (.threw .labelNotFound) m
  | markDeleted {label : LabelType} {y : V} : m.entries label = some (y, true) →
      Step m (.markDelete label) (.threw .alreadyDeleted) m
  | unmark {label : LabelType} {y : V} : m.entries label = some (y, true) →
      Step m (.unmarkDelete label) (.returned none) (m.put label y false)
  | unmarkUnknown {label : LabelType} : m.entries label = none →
      Step m (.unmarkDelete label) (.threw .labelNotFound) m
  | unmarkLive {label : LabelType} {y : V} : m.entries label = some (y, false) →
      Step m (.unmarkDelete label) (.threw .notDeleted) m
  | resize {n : Nat} : m.count ≤ n →
      Step m (.resizeIndex n) (.returned none) { m with capacity := n }
  | cannotResize {n : Nat} : n < m.count → Step m (.resizeIndex n) (.threw .cannotResize) m
  | read {label : LabelType} {y : V} : m.entries label = some (y, false) →
      Step m (.getDataByLabel label) (.returned (some y)) m
  | readUnknown {label : LabelType} : m.entries label = none →
      Step m (.getDataByLabel label) (.threw .labelNotFound) m
  | readDeleted {label : LabelType} {y : V} : m.entries label = some (y, true) →
      Step m (.getDataByLabel label) (.threw .labelNotFound) m

/-- The maps that calls make out of an empty one. -/
inductive Reachable : LabelMap V → Prop
  | empty (capacity : Nat) (replaces : Bool) : Reachable ⟨fun _ => none, 0, capacity, replaces⟩
  | step {m m' : LabelMap V} {op : Op V} {r : Reply V} :
      Reachable m → Step m op r m' → Reachable m'

end LabelMap

namespace Index

variable {V D : Type} [Inhabited V] [LinearOrder D] {P : Platform V D} {s s' t : Index V}
  {c : Choices} {x : V} {label : LabelType} {i j : TableInt}

def view (s : Index V) : LabelMap V where
  entries label :=
    (s.labelLookup label).map fun i => (s.getDataByInternalId i, s.isMarkedDeleted i)
  count := s.curElementCount
  capacity := s.maxElements
  replaces := s.allowReplaceDeleted

private theorem view_linksOnly (h : LinksOnly t s') : s'.view = t.view := by
  obtain ⟨⟨hf, hd, -, hm⟩, -⟩ := h
  have hlookup : s'.labelLookup = t.labelLookup := by rw [hf]
  unfold view
  simp only [hlookup, hd, hm]
  rw [hf]

/-- `label_lookup_` and the labels in the records are inverse to each other. -/
structure Labelled (s : Index V) : Prop where
  label : ∀ label i, s.labelLookup label = some i → s.getExternalLabel i = label
  lookup : ∀ i, i < s.curElementCount → s.labelLookup (s.getExternalLabel i) = some i

theorem Labelled.injective (h : s.Labelled) {l l' : LabelType} (hl : s.labelLookup l = some i)
    (hl' : s.labelLookup l' = some i) : l = l' := by
  rw [← h.label l i hl, ← h.label l' i hl']

theorem Labelled.linksOnly (h : t.Labelled) (hl : LinksOnly t s') : s'.Labelled := by
  obtain ⟨hrec, -⟩ := hl
  have hlookup : s'.labelLookup = t.labelLookup := by rw [hrec.fields]
  constructor
  · intro label i hi
    rw [hrec.label]
    apply h.label
    rw [← hlookup]
    exact hi
  · intro i hi
    rw [hrec.curElementCount] at hi
    rw [hrec.label, hlookup]
    exact h.lookup i hi

private theorem view_put {deleted : Bool} (h : s.Labelled) (hi : s.labelLookup label = some i)
    (hlookup : t.labelLookup = s.labelLookup) (hcount : t.curElementCount = s.curElementCount)
    (hcap : t.maxElements = s.maxElements) (hrep : t.allowReplaceDeleted = s.allowReplaceDeleted)
    (hdata : ∀ j, t.getDataByInternalId j = if j = i then x else s.getDataByInternalId j)
    (hmark : ∀ j, t.isMarkedDeleted j = if j = i then deleted else s.isMarkedDeleted j) :
    t.view = s.view.put label x deleted := by
  unfold view LabelMap.put
  simp only [hlookup, hcount, hcap, hrep, LabelMap.mk.injEq, and_true]
  funext l
  by_cases hl : l = label
  · subst hl
    simp [hi, hdata, hmark]
  · cases hj : s.labelLookup l with
    | none => simp [hl]
    | some j =>
      have hne : j ≠ i := fun he => hl (h.injective (he ▸ hj) hi)
      simp [hl, hdata, hmark, hne]

private theorem view_setData (h : s.Labelled) (hi : s.labelLookup label = some i)
    (hm : s.isMarkedDeleted i = false) : (s.setData i x).view = s.view.put label x false := by
  apply view_put (t := s.setData i x) h hi rfl rfl rfl rfl (getDataByInternalId_setData s i · x)
  intro j
  by_cases hj : j = i <;> simp [hj, hm]

private theorem view_withMark (h : s.Labelled) (hi : s.labelLookup label = some i) :
    (s.withMark i).view = s.view.put label (s.getDataByInternalId i) true := by
  apply view_put (t := s.withMark i) h hi rfl rfl rfl rfl _ fun j => isMarkedDeleted_withMark
  intro j
  by_cases hj : j = i <;> simp [hj, getDataByInternalId_withMark]

private theorem view_withoutMark (h : s.Labelled) (hi : s.labelLookup label = some i) :
    (s.withoutMark i).view = s.view.put label (s.getDataByInternalId i) false := by
  apply view_put (t := s.withoutMark i) h hi rfl rfl rfl rfl _ fun j => isMarkedDeleted_withoutMark
  intro j
  by_cases hj : j = i <;> simp [hj, getDataByInternalId_withoutMark]

private theorem view_revived (h : s.Labelled) (hi : s.labelLookup label = some i) :
    ((s.withoutMark i).setData i x).view = s.view.put label x false := by
  apply view_put (t := (s.withoutMark i).setData i x) h hi rfl rfl rfl rfl
  · intro j
    rw [getDataByInternalId_setData, getDataByInternalId_withoutMark]
  · intro j
    rw [isMarkedDeleted_setData, isMarkedDeleted_withoutMark]

private theorem view_inserted (h : s.WellFormed) {curlevel : Nat} :
    (s.inserted x label curlevel).view =
      { s.view.put label x false with count := s.curElementCount + 1 } := by
  unfold view LabelMap.put
  simp only [labelLookup_inserted, curElementCount_inserted, maxElements_inserted,
    allowReplaceDeleted_inserted, LabelMap.mk.injEq, and_true]
  funext l
  by_cases hl : l = label
  · simp [hl, getDataByInternalId_inserted, isMarkedDeleted_inserted]
  · cases hj : s.labelLookup l with
    | none => simp [hl]
    | some j =>
      have hne : j ≠ s.curElementCount := (h.lookup l j hj).ne
      simp [hl, getDataByInternalId_inserted, isMarkedDeleted_inserted, hne]

private theorem isMarkedDeleted_relabel : (s.relabel i label).isMarkedDeleted j = s.isMarkedDeleted j := by
  rw [isMarkedDeleted, isMarkedDeleted, getLinklistAtLevel_relabel]

theorem labelLookup_replaced (l : LabelType) : (s.replaced i x label).labelLookup l =
    if l = label then some i else if l = s.getExternalLabel i then none else s.labelLookup l := rfl

theorem curElementCount_replaced :
    (s.replaced i x label).curElementCount = s.curElementCount := by
  simp [replaced, setData, withoutMark, relabel, setExternalLabel, setLinklistAtLevel]

theorem getExternalLabel_replaced : (s.replaced i x label).getExternalLabel j =
    if j = i then label else s.getExternalLabel j := by
  rw [replaced, getExternalLabel_setData, getExternalLabel_withoutMark, getExternalLabel_relabel]

theorem getDataByInternalId_replaced : (s.replaced i x label).getDataByInternalId j =
    if j = i then x else s.getDataByInternalId j := by
  rw [replaced, getDataByInternalId_setData, getDataByInternalId_withoutMark,
    getDataByInternalId_relabel]

theorem isMarkedDeleted_replaced : (s.replaced i x label).isMarkedDeleted j =
    if j = i then false else s.isMarkedDeleted j := by
  rw [replaced, isMarkedDeleted_setData, isMarkedDeleted_withoutMark, isMarkedDeleted_relabel]

private theorem view_replaced (h : s.Labelled) (hi : i < s.curElementCount) :
    (s.replaced i x label).view =
      (s.view.forget (s.getExternalLabel i)).put label x false := by
  have hold := h.lookup i hi
  refine LabelMap.ext ?_ rfl rfl rfl
  funext l
  simp only [view, labelLookup_replaced, getDataByInternalId_replaced, isMarkedDeleted_replaced,
    LabelMap.put, LabelMap.forget]
  by_cases hl : l = label
  · simp [hl]
  · by_cases hl' : l = s.getExternalLabel i
    · simp [hl']
    · cases hj : s.labelLookup l with
      | none => simp [hl, hl']
      | some j =>
        have hne : j ≠ i := fun he => hl' (h.injective (he ▸ hj) hold)
        simp [hl, hl', hne]

/-- A vacant slot is reused for absent labels only. -/
def FreshReplacement (s : Index V) (op : Op V) (_ : Choices) : Prop :=
  ∀ x label, op = .addPoint x label true →
    (∃ i, i < s.curElementCount ∧ s.isMarkedDeleted i = true) → s.labelLookup label = none

/-- A vacant slot is reused for absent labels, or for the label that it holds. -/
def OwnSlotReplacement (s : Index V) (op : Op V) (c : Choices) : Prop :=
  ∀ x label, op = .addPoint x label true → s.deletedElements.Nonempty →
    ∀ i, s.labelLookup label = some i → i = c.begin_ s.deletedElements

private theorem FreshReplacement.ownSlot {op : Op V} (h : FreshReplacement s op c) (hw : s.WellFormed) :
    OwnSlotReplacement s op c := by
  rintro x label hop ⟨d, hd⟩ i hi
  rw [h x label hop ⟨d, hw.mem_deleted hd⟩] at hi
  cases hi

theorem Labelled.congr (h : s.Labelled) (hlookup : t.labelLookup = s.labelLookup)
    (hcount : t.curElementCount = s.curElementCount)
    (hlabel : ∀ j, t.getExternalLabel j = s.getExternalLabel j) : t.Labelled := by
  constructor
  · intro l i hi
    rw [hlookup] at hi
    rw [hlabel]
    exact h.label l i hi
  · intro i hi
    rw [hcount] at hi
    rw [hlabel, hlookup]
    exact h.lookup i hi

theorem Labelled.inserted (h : s.Labelled) (hw : s.WellFormed) {curlevel : Nat}
    (hnew : s.labelLookup label = none) : (s.inserted x label curlevel).Labelled := by
  constructor
  · intro l i hi
    rw [labelLookup_inserted] at hi
    rw [getExternalLabel_inserted]
    by_cases hl : l = label
    · rw [if_pos hl] at hi
      cases hi
      rw [if_pos rfl, hl]
    · rw [if_neg hl] at hi
      rw [if_neg (hw.lookup l i hi).ne]
      exact h.label l i hi
  · intro i hi
    rw [curElementCount_inserted] at hi
    rw [labelLookup_inserted, getExternalLabel_inserted]
    by_cases hc : i = s.curElementCount
    · simp [hc]
    · have hold := h.lookup i (lt_of_le_of_ne (Nat.lt_succ_iff.mp hi) hc)
      rw [if_neg hc, if_neg, hold]
      intro he
      rw [he, hnew] at hold
      cases hold

theorem Labelled.replaced (h : s.Labelled) (hi : i < s.curElementCount)
    (hown : ∀ j, s.labelLookup label = some j → j = i) : (s.replaced i x label).Labelled := by
  constructor
  · intro l j hj
    rw [labelLookup_replaced] at hj
    rw [getExternalLabel_replaced]
    by_cases hl : l = label
    · rw [if_pos hl] at hj
      cases hj
      rw [if_pos rfl, hl]
    · rw [if_neg hl] at hj
      by_cases hl' : l = s.getExternalLabel i
      · simp [hl'] at hj
      · rw [if_neg hl'] at hj
        have hne : j ≠ i := fun he => hl' (h.injective (he ▸ hj) (h.lookup i hi))
        rw [if_neg hne]
        exact h.label l j hj
  · intro j hj
    rw [curElementCount_replaced] at hj
    rw [labelLookup_replaced, getExternalLabel_replaced]
    by_cases hc : j = i
    · simp [hc]
    · have hold := h.lookup j hj
      have hne : s.getExternalLabel j ≠ label := fun he => hc (hown j (he ▸ hold))
      have hne' : s.getExternalLabel j ≠ s.getExternalLabel i := by
        intro he
        have hlook := h.lookup i hi
        rw [← he, hold] at hlook
        exact hc (Option.some.inj hlook)
      rw [if_neg hc, if_neg hne, if_neg hne']
      exact hold

theorem Stored.labelled (hst : Stored s x label t) (h : s.Labelled) (hw : s.WellFormed) :
    t.Labelled := by
  cases hst with
  | inserted curlevel hnew hroom => exact h.inserted hw hnew
  | updated hlookup hm => exact h.congr rfl rfl fun j => getExternalLabel_setData s _ j x
  | revived hlookup hallow hm =>
    refine h.congr rfl rfl fun j => ?_
    rw [getExternalLabel_setData, getExternalLabel_withoutMark]

theorem Effect.labelled {op : Op V} {r : Option V} (he : Effect s c op r t) (h : s.Labelled)
    (hw : s.WellFormed) (hown : OwnSlotReplacement s op c) : t.Labelled := by
  cases he with
  | addPointLevel hst => exact hst.labelled h hw
  | addPoint _ hst => exact hst.labelled h hw
  | replaced _ hne =>
    exact h.replaced (hw.mem_deleted (c.begin_mem _ hne)).1 (hown _ _ rfl hne)
  | markDelete hlookup hm => exact h.congr rfl rfl fun j => getExternalLabel_withMark
  | unmarkDelete hlookup hm => exact h.congr rfl rfl fun j => getExternalLabel_withoutMark
  | resizeIndex hle => exact h.congr rfl rfl fun j => rfl
  | getDataByLabel _ _ => exact h

theorem Reachable.labelled_of_ownSlot (h : Reachable P OwnSlotReplacement s) : s.Labelled := by
  apply h.invariant
  · intro _ _ _ _ _ s hs
    cases hs
    exact ⟨nofun, fun i hi => absurd hi (Nat.not_lt_zero i)⟩
  · exact fun s op c r t hw hown he hs => he.labelled hs hw hown
  · exact fun t s' hl ht => ht.linksOnly hl

theorem Reachable.labelled (h : Reachable P FreshReplacement s) : s.Labelled :=
  (h.mono fun hw hfresh => hfresh.ownSlot hw).labelled_of_ownSlot

theorem view_entries_none (h : s.labelLookup label = none) : s.view.entries label = none := by
  simp [view, h]

theorem view_entries_some (h : s.labelLookup label = some i) :
    s.view.entries label = some (s.getDataByInternalId i, s.isMarkedDeleted i) := by
  simp [view, h]

private theorem view_allLive (hw : s.WellFormed) (hallow : s.allowReplaceDeleted = true)
    (hempty : s.deletedElements = ∅) : s.view.AllLive := by
  intro l x hx
  obtain ⟨i, hi, he⟩ := Option.map_eq_some_iff.mp hx
  have hmem : i ∈ s.deletedElements := by
    rw [hw.deleted, if_pos hallow, mem_markedIds]
    exact ⟨hw.lookup l i hi, (Prod.mk.inj he).2⟩
  rw [hempty] at hmem
  exact absurd hmem (Finset.notMem_empty i)

theorem Stored.store (hst : Stored s x label t) (h : s.Labelled) (hw : s.WellFormed) :
    s.view.Store x label (.returned none) t.view := by
  cases hst with
  | inserted curlevel hnew hroom =>
    rw [view_inserted hw]
    exact .add (view_entries_none hnew) hroom
  | updated hlookup hm =>
    rw [view_setData h hlookup hm]
    refine .update (view_entries_some hlookup) ?_
    simp [hm]
  | revived hlookup hallow hm =>
    rw [view_revived h hlookup]
    exact .update (view_entries_some hlookup) fun _ => hallow

theorem StoreThrows.store {e : Exn} (ht : StoreThrows s label e) :
    s.view.Store x label (.threw e) s.view := by
  cases ht with
  | @updateDeleted i hlookup hallow hm =>
    refine .refuse (y := s.getDataByInternalId i) ?_ hallow
    rw [view_entries_some hlookup, hm]
  | capacityExceeded hnew hfull => exact .full (view_entries_none hnew) hfull

theorem Effect.step {op : Op V} {r : Option V} (he : Effect s c op r t) (h : s.Labelled)
    (hw : s.WellFormed) (hfresh : FreshReplacement s op c) :
    s.view.Step op (.returned r) t.view := by
  cases he with
  | addPointLevel hst => exact .addPointLevel (hst.store h hw)
  | addPoint hplain hst =>
    refine .addPoint ?_ (hst.store h hw)
    exact hplain.imp_right fun hp => ⟨hp.1, view_allLive hw hp.1 hp.2⟩
  | @replaced x label hallow hne =>
    obtain ⟨hi, hm⟩ := hw.mem_deleted (c.begin_mem _ hne)
    rw [view_replaced h hi]
    refine .replace (y := s.getDataByInternalId (c.begin_ s.deletedElements)) hallow ?_
      (view_entries_none (hfresh x label rfl ⟨_, hi, hm⟩))
    rw [view_entries_some (h.lookup _ hi), hm]
  | markDelete hlookup hm =>
    rw [view_withMark h hlookup]
    exact .mark (by rw [view_entries_some hlookup, hm])
  | unmarkDelete hlookup hm =>
    rw [view_withoutMark h hlookup]
    exact .unmark (by rw [view_entries_some hlookup, hm])
  | resizeIndex hle => exact .resize hle
  | getDataByLabel hlookup hm => exact .read (by rw [view_entries_some hlookup, hm])

theorem Throws.step {op : Op V} {e : Exn} (ht : Throws s op e) (hw : s.WellFormed) : s.view.Step op (.threw e) s.view := by
  cases ht with
  | addPointLevel hst => exact .addPointLevel hst.store
  | addPoint hplain hst =>
    refine .addPoint ?_ hst.store
    exact hplain.imp_right fun hp => ⟨hp.1, view_allLive hw hp.1 hp.2⟩
  | replacementDisabled hallow => exact .replacementDisabled hallow
  | markUnknown hnew => exact .markUnknown (view_entries_none hnew)
  | markDeleted hlookup hm => exact .markDeleted (by rw [view_entries_some hlookup, hm])
  | unmarkUnknown hnew => exact .unmarkUnknown (view_entries_none hnew)
  | unmarkLive hlookup hm => exact .unmarkLive (by rw [view_entries_some hlookup, hm])
  | cannotResize hlt => exact .cannotResize hlt
  | readUnknown hnew => exact .readUnknown (view_entries_none hnew)
  | readDeleted hlookup hm => exact .readDeleted (by rw [view_entries_some hlookup, hm])

/-- A call on an index whose labels are in order does to the index what it does to its map. -/
theorem runOp_step (h : s.Labelled) (hw : s.WellFormed) (hb : s.Backed) {op : Op V}
    (hfresh : FreshReplacement s op c) (hg : Granted s c op) :
    match runOp P c op s with
    | .ok r s' => s.view.Step op (.returned r) s'.view
    | .error (.thrown e) s' => s.view.Step op (.threw e) s'.view
    | .error f _ => f = .emptyBack := by
  obtain ⟨hok, herror⟩ := wp_def.mp (wp_runOp (P := P) op hw hb hg)
  split
  · next r s' hrun =>
    obtain ⟨⟨⟨t, he, hl⟩, -⟩, -⟩ := hok r s' hrun
    rw [view_linksOnly hl]
    exact he.step h hw hfresh
  · next e s' hrun =>
    rcases herror _ _ hrun with ⟨exn, heq, rfl, ht⟩ | ⟨heq, -⟩
    · cases heq
      exact ht.step hw
    · cases heq
  · next f s' hne hrun =>
    rcases herror _ _ hrun with ⟨exn, heq, -, -⟩ | ⟨heq, -⟩
    · exact absurd heq (hne exn)
    · exact heq

/-- What it means that an index stands for its map. -/
structure RefinesMap (P : Platform V D) (s : Index V) : Prop where
  /-- Known labels lead to elements that carry them. -/
  known : ∀ label i, s.labelLookup label = some i →
    i < s.curElementCount ∧ s.getExternalLabel i = label
  /-- Every element is known by its label. -/
  onto : ∀ i, i < s.curElementCount → s.labelLookup (s.getExternalLabel i) = some i
  numDeleted : s.numDeleted =
    ((Finset.range s.curElementCount).filter fun i => s.isMarkedDeleted i = true).card
  deleted : s.allowReplaceDeleted = true →
    ∀ i, i ∈ s.deletedElements ↔ i < s.curElementCount ∧ s.isMarkedDeleted i = true
  /-- The map is one that the calls on maps lead to. -/
  map : s.view.Reachable
  /-- A further call does to the map what it should, or throws as it should, or faults. -/
  call : ∀ op c, FreshReplacement s op c → Granted s c op →
    match runOp P c op s with
    | .ok r s' => s.view.Step op (.returned r) s'.view
    | .error (.thrown e) s' => s.view.Step op (.threw e) s'.view
    | .error f _ => f = .emptyBack

private theorem Reachable.view_reachable (h : Reachable P FreshReplacement s) : s.view.Reachable := by
  induction h with
  | built _ _ _ _ _ _ _ hs =>
    cases hs
    exact LabelMap.Reachable.empty _ _
  | @call s s' op c hr hcall hs' ih =>
    have hstep := runOp_step (P := P) (Reachable.labelled hr) (Reachable.wellFormed hr)
      (Reachable.backed hr) hcall.1 hcall.2
    unfold afterOp at hs'
    cases hrun : runOp P c op s with
    | ok r t =>
      rw [hrun] at hs' hstep
      cases hs'
      exact ih.step hstep
    | error f t =>
      rw [hrun] at hs' hstep
      cases f with
      | thrown e =>
        cases hs'
        exact ih.step hstep
      | _ => cases hs'

/-- Every run that reuses vacant slots for absent labels only is a run of a finite map. -/
theorem reachable_refinesMap (h : Reachable P FreshReplacement s) : RefinesMap P s := by
  have hw := h.wellFormed
  have hl := h.labelled
  refine ⟨fun label i hi => ⟨hw.lookup label i hi, hl.label label i hi⟩, hl.lookup, hw.numDeleted,
    fun hallow i => ?_, h.view_reachable, fun op c hfresh hg => runOp_step hl hw h.backed hfresh hg⟩
  rw [hw.deleted, if_pos hallow, mem_markedIds]

/-- Two insertions, a deletion and an insertion into the vacant slot. -/
theorem reachable_refinesMap_points : ∃ s : Index (ℤ × ℤ × ℤ),
    (s.curElementCount, s.labelLookup 3, s.labelLookup 4) = (2, some 0, none) ∧
    Reachable pointPlatform FreshReplacement s ∧ RefinesMap pointPlatform s := by
  have hrun : ∃ s, afterOps pointPlatform
      [(.addPoint (0, 0, 0) 4 false, plainChoices 1), (.addPoint (5, 0, 0) 5 false, plainChoices 0),
        (.markDelete 4, plainChoices 0)] (emptyPoints true) = some s ∧
      (s.labelLookup 3, (afterOp pointPlatform (plainChoices 0) (.addPoint (1, 1, 1) 3 true) s).map
        fun t => (t.curElementCount, t.labelLookup 3, t.labelLookup 4)) =
        (none, some (2, some 0, none)) :=
    Option.map_eq_some_iff.mp (by decide +kernel)
  obtain ⟨s, hreach, hlast⟩ := (emptyPoints_reachable FreshReplacement true).exists_afterOps
    (by simp [plainChoices_allocates, FreshReplacement]) hrun
  obtain ⟨habsent, hlast⟩ := Prod.mk.inj hlast
  obtain ⟨t, ht, hvalues⟩ := Option.map_eq_some_iff.mp hlast
  have hreach' : Reachable pointPlatform FreshReplacement t := by
    refine Reachable.call hreach ?_ (granted_of_allocates (plainChoices_allocates 0) _) ht
    intro x label he _
    cases he
    exact habsent
  exact ⟨t, hvalues, hreach', reachable_refinesMap hreach'⟩

/-- The label of an insertion that was denied its list is known, and live. To store another vector
under it reads the list. -/
theorem addPoint_denied_known : ∃ s t : Index (ℤ × ℤ × ℤ),
    Attempted pointPlatform (fun _ => True) (fun _ op _ => ∃ x label, op = .addPoint x label false)
      s ∧
    s.labelLookup 7 = some 0 ∧ s.isMarkedDeleted 0 = false ∧
    runOp pointPlatform (plainChoices 0) (.addPoint (1, 1, 1) 7 false) s = .error .nullPointer t :=
  ⟨_, _, denied_attempted 7 trivial ⟨_, _, rfl⟩, rfl, rfl, rfl⟩

end Index

end HnswRvv
