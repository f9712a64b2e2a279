import HnswRvv.Index.Update

/-!
# The invariant of an index

`WellFormed` is what every operation may rely on and has to leave behind. An operation changes
records in one of a few ways, each of which keeps the invariant, and then works on links only.
-/

namespace HnswRvv.Index

open Framework OrderDual
set_option linter.unusedSectionVars false

variable {V D : Type} [Inhabited V] [LinearOrder D] {P : Platform V D} {s s' : Index V} {x : V}
  {i j : TableInt} {l : Nat} {label : LabelType}

/-- The ids that carry the delete mark. -/
def markedIds (s : Index V) : Finset TableInt :=
  (Finset.range s.curElementCount).filter fun i => s.isMarkedDeleted i = true

theorem mem_markedIds : i ∈ s.markedIds ↔ i < s.curElementCount ∧ s.isMarkedDeleted i = true := by
  rw [markedIds, Finset.mem_filter, Finset.mem_range]

structure WellFormed (s : Index V) : Prop where
  params : s.Params
  cap : s.curElementCount ≤ s.maxElements
  graph : s.GraphInv
  entry : s.EntryInv
  lookup : ∀ label i, s.labelLookup label = some i → i < s.curElementCount
  numDeleted : s.numDeleted = s.markedIds.card
  deleted : s.deletedElements = if s.allowReplaceDeleted then s.markedIds else ∅

theorem WellFormed.mem_deleted (h : s.WellFormed) (hi : i ∈ s.deletedElements) :
    i < s.curElementCount ∧ s.isMarkedDeleted i = true := by
  rw [h.deleted] at hi
  split at hi
  · exact mem_markedIds.mp hi
  · exact absurd hi (Finset.notMem_empty i)

private theorem markedIds_congr (hcur : s'.curElementCount = s.curElementCount)
    (hmark : ∀ i, s'.isMarkedDeleted i = s.isMarkedDeleted i) : s'.markedIds = s.markedIds := by
  ext i
  rw [mem_markedIds, mem_markedIds, hcur, hmark]

theorem WellFormed.linksOnly (h : s.WellFormed) (hl : LinksOnly s s') : s'.WellFormed := by
  obtain ⟨hrec, hg⟩ := hl
  have hids : s'.markedIds = s.markedIds := markedIds_congr hrec.curElementCount hrec.mark
  refine ⟨hrec.params h.params, ?_, hg, ?_, ?_, ?_, ?_⟩
  · rw [hrec.curElementCount, hrec.maxElements]
    exact h.cap
  · have hent : s'.enterpointNode = s.enterpointNode ∧ s'.maxlevel = s.maxlevel := by
      rw [hrec.fields]
      exact ⟨rfl, rfl⟩
    refine ⟨?_, ?_, ?_, ?_⟩ <;> simp only [hent, hrec.curElementCount, hrec.level]
    · exact h.entry.none
    · exact h.entry.lt
    · exact h.entry.level
    · exact h.entry.le
  · intro label i hi
    rw [hrec.curElementCount]
    exact h.lookup label i (by rw [hrec.fields] at hi; exact hi)
  · rw [hids, ← h.numDeleted, hrec.fields]
  · rw [hids, hrec.fields]
    exact h.deleted

@[simp] theorem isMarkedDeleted_setData (s : Index V) (i j : TableInt) (x : V) :
    (s.setData i x).isMarkedDeleted j = s.isMarkedDeleted j := by
  simp [isMarkedDeleted]

theorem getDataByInternalId_setData (s : Index V) (i j : TableInt) (x : V) :
    (s.setData i x).getDataByInternalId j = if j = i then x else s.getDataByInternalId j := by
  unfold getDataByInternalId setData
  by_cases h : j = i <;> simp [Memory.read_write, h]

@[simp] theorem getExternalLabel_setData (s : Index V) (i j : TableInt) (x : V) :
    (s.setData i x).getExternalLabel j = s.getExternalLabel j := by
  unfold getExternalLabel setData
  by_cases h : j = i <;> simp [Memory.read_write, h]

theorem WellFormed.setData (h : s.WellFormed) (i : TableInt) (x : V) : (s.setData i x).WellFormed :=
  have hids : (s.setData i x).markedIds = s.markedIds :=
    markedIds_congr rfl (isMarkedDeleted_setData s i · x)
  ⟨⟨h.params.1, h.params.2, h.params.3, h.params.4, h.params.5⟩, h.cap, h.graph.setData i x,
    ⟨h.entry.none, h.entry.lt, h.entry.level, h.entry.le⟩, h.lookup,
    by rw [hids]; exact h.numDeleted, by rw [hids]; exact h.deleted⟩

private theorem connections_setLinklist0 {ll : LinkList}
    (h : ll.connections = (s.getLinklistAtLevel i 0).connections) :
    (s.setLinklistAtLevel i 0 ll).connections j l = s.connections j l := by
  rw [connections, connections, getLinklistAtLevel_set]
  split
  · next he =>
    obtain ⟨rfl, rfl⟩ := he
    exact h
  · rfl

private theorem isMarkedDeleted_setLinklist0 (ll : LinkList) :
    (s.setLinklistAtLevel i 0 ll).isMarkedDeleted j =
      if j = i then ll.isMarked else s.isMarkedDeleted j := by
  rw [isMarkedDeleted, getLinklistAtLevel_set]
  simp only [and_true]
  split <;> rfl

theorem isMarkedDeleted_withMark :
    (s.withMark i).isMarkedDeleted j = if j = i then true else s.isMarkedDeleted j :=
  (isMarkedDeleted_setLinklist0 _).trans (by simp)

theorem isMarkedDeleted_withoutMark :
    (s.withoutMark i).isMarkedDeleted j = if j = i then false else s.isMarkedDeleted j :=
  (isMarkedDeleted_setLinklist0 _).trans (by simp)

private theorem connections_withMark : (s.withMark i).connections j l = s.connections j l :=
  connections_setLinklist0 (by simp)

private theorem connections_withoutMark : (s.withoutMark i).connections j l = s.connections j l :=
  connections_setLinklist0 (by simp)

theorem getDataByInternalId_withMark :
    (s.withMark i).getDataByInternalId j = s.getDataByInternalId j :=
  (read_setLinklistAtLevel s i j 0 _).1

theorem getDataByInternalId_withoutMark :
    (s.withoutMark i).getDataByInternalId j = s.getDataByInternalId j :=
  (read_setLinklistAtLevel s i j 0 _).1

theorem getExternalLabel_withMark : (s.withMark i).getExternalLabel j = s.getExternalLabel j :=
  (read_setLinklistAtLevel s i j 0 _).2

theorem getExternalLabel_withoutMark : (s.withoutMark i).getExternalLabel j = s.getExternalLabel j :=
  (read_setLinklistAtLevel s i j 0 _).2

/-- The parts of the invariant that do not concern marks, for a state with the same fields. -/
theorem EntryInv.congr (h : s.EntryInv) (hcur : s'.curElementCount = s.curElementCount)
    (hlevel : ∀ i, s'.level i = s.level i) (hep : s'.enterpointNode = s.enterpointNode)
    (hmax : s'.maxlevel = s.maxlevel) : s'.EntryInv := by
  refine ⟨?_, ?_, ?_, ?_⟩ <;> simp only [hcur, hlevel, hep, hmax]
  · exact h.none
  · exact h.lt
  · exact h.level
  · exact h.le

theorem WellFormed.withMark (h : s.WellFormed) (hi : i < s.curElementCount)
    (hm : s.isMarkedDeleted i = false) : (s.withMark i).WellFormed := by
  have hids : (s.withMark i).markedIds = insert i s.markedIds := by
    ext j
    rw [mem_markedIds, isMarkedDeleted_withMark, Finset.mem_insert, mem_markedIds]
    by_cases hj : j = i
    · subst hj
      exact ⟨fun _ => Or.inl rfl, fun _ => ⟨hi, if_pos rfl⟩⟩
    · simp only [hj, if_false, false_or]
      rfl
  have hnot : i ∉ s.markedIds := fun hmem => by
    rw [(mem_markedIds.mp hmem).2] at hm
    exact Bool.false_ne_true hm.symm
  refine ⟨⟨h.params.1, h.params.2, h.params.3, h.params.4, h.params.5⟩, h.cap,
    h.graph.congr rfl (fun _ => rfl) (fun _ => rfl) fun _ _ => connections_withMark,
    h.entry.congr rfl (fun _ => rfl) rfl rfl, h.lookup, ?_, ?_⟩
  · rw [hids, Finset.card_insert_of_notMem hnot]
    exact congrArg (· + 1) h.numDeleted
  · change (if s.allowReplaceDeleted then insert i s.deletedElements else s.deletedElements) =
      if s.allowReplaceDeleted then (s.withMark i).markedIds else ∅
    rw [hids, h.deleted]
    split <;> rfl

/-- Clearing a mark keeps the invariant even when the id has left the vacant ones already. -/
theorem WellFormed.withoutMark (h : s.WellFormed) (hi : i ∈ s.markedIds) {t : Index V}
    (hfields : t = { s with
      dataLevel0Memory := t.dataLevel0Memory
      labelLookup := t.labelLookup
      deletedElements := t.deletedElements })
    (hlinks : ∀ j l, t.connections j l = s.connections j l)
    (hmarks : ∀ j, t.isMarkedDeleted j = s.isMarkedDeleted j)
    (hlookup : ∀ label j, t.labelLookup label = some j → j < s.curElementCount)
    (hdel : t.deletedElements = s.deletedElements ∨ t.deletedElements = s.deletedElements.erase i) :
    (t.withoutMark i).WellFormed := by
  have hcur : (t.withoutMark i).curElementCount = s.curElementCount := by
    rw [hfields]
    rfl
  have hids : (t.withoutMark i).markedIds = s.markedIds.erase i := by
    ext j
    rw [mem_markedIds, hcur, isMarkedDeleted_withoutMark, hmarks, Finset.mem_erase, mem_markedIds]
    by_cases hj : j = i <;> simp [hj]
  refine ⟨?_, ?_, ?_, ?_, ?_, ?_, ?_⟩
  · rw [hfields]
    exact ⟨h.params.1, h.params.2, h.params.3, h.params.4, h.params.5⟩
  · rw [hfields]
    exact h.cap
  · refine h.graph.congr hcur (fun j => ?_) (fun l => ?_) fun j l =>
      connections_withoutMark.trans (hlinks j l)
    · rw [hfields]
      rfl
    · rw [hfields]
      rfl
  · refine h.entry.congr hcur (fun j => ?_) ?_ ?_ <;> rw [hfields] <;> rfl
  · intro label j hj
    rw [hcur]
    exact hlookup label j hj
  · rw [hids, Finset.card_erase_of_mem hi, ← h.numDeleted]
    change t.numDeleted - 1 = s.numDeleted - 1
    rw [hfields]
  · have hallow : t.allowReplaceDeleted = s.allowReplaceDeleted := by rw [hfields]
    change (if t.allowReplaceDeleted then t.deletedElements.erase i else t.deletedElements) =
      if t.allowReplaceDeleted then (t.withoutMark i).markedIds else ∅
    rw [hids, hallow]
    cases ha : s.allowReplaceDeleted with
    | false =>
      have hempty : s.deletedElements = ∅ := by
        rw [h.deleted, ha]
        rfl
      rcases hdel with hdel | hdel <;> simp [hdel, hempty]
    | true =>
      have hall : s.deletedElements = s.markedIds := by
        rw [h.deleted, ha]
        rfl
      rcases hdel with hdel | hdel <;> simp [hdel, hall]

theorem withoutMark_fields (s : Index V) (i : TableInt) :
    s.withoutMark i =
      { s with
        dataLevel0Memory := (s.withoutMark i).dataLevel0Memory
        numDeleted := (s.withoutMark i).numDeleted
        deletedElements := (s.withoutMark i).deletedElements } := rfl

@[simp] theorem getLinklistAtLevel_setExternalLabel (s : Index V) (i j : TableInt)
    (label : LabelType) (l : Nat) :
    (s.setExternalLabel i label).getLinklistAtLevel j l = s.getLinklistAtLevel j l := by
  unfold getLinklistAtLevel setExternalLabel
  split
  · by_cases h : j = i <;> simp [Memory.read_write, h]
  · rfl

@[simp] theorem getDataByInternalId_setExternalLabel (s : Index V) (i j : TableInt)
    (label : LabelType) :
    (s.setExternalLabel i label).getDataByInternalId j = s.getDataByInternalId j := by
  unfold getDataByInternalId setExternalLabel
  by_cases h : j = i <;> simp [Memory.read_write, h]

theorem getExternalLabel_setExternalLabel (s : Index V) (i j : TableInt) (label : LabelType) :
    (s.setExternalLabel i label).getExternalLabel j =
      if j = i then label else s.getExternalLabel j := by
  unfold getExternalLabel setExternalLabel
  by_cases h : j = i <;> simp [Memory.read_write, h]

@[simp] theorem getLinklistAtLevel_relabel :
    (s.relabel i label).getLinklistAtLevel j l = s.getLinklistAtLevel j l :=
  getLinklistAtLevel_setExternalLabel s i j label l

theorem getDataByInternalId_relabel :
    (s.relabel i label).getDataByInternalId j = s.getDataByInternalId j :=
  getDataByInternalId_setExternalLabel s i j label

theorem getExternalLabel_relabel :
    (s.relabel i label).getExternalLabel j = if j = i then label else s.getExternalLabel j :=
  getExternalLabel_setExternalLabel s i j label

/-- The records of a deleted element that comes back to life under its own label or a new one. -/
theorem WellFormed.unmark (h : s.WellFormed) (hi : i < s.curElementCount)
    (hm : s.isMarkedDeleted i = true) : (s.withoutMark i).WellFormed :=
  h.withoutMark (mem_markedIds.mpr ⟨hi, hm⟩) rfl (fun _ _ => rfl) (fun _ => rfl) h.lookup
    (Or.inl rfl)

theorem WellFormed.takeOver (h : s.WellFormed) (hi : i ∈ s.deletedElements) (label : LabelType) :
    ((s.relabel i label).withoutMark i).WellFormed := by
  obtain ⟨hlt, hm⟩ := h.mem_deleted hi
  refine h.withoutMark (mem_markedIds.mpr ⟨hlt, hm⟩) rfl ?_ ?_ ?_ (Or.inr rfl)
  · intro j l
    rw [connections, connections, getLinklistAtLevel_relabel]
  · intro j
    rw [isMarkedDeleted, isMarkedDeleted, getLinklistAtLevel_relabel]
  · intro l' j hj
    simp only [relabel] at hj
    split at hj
    · cases hj
      exact hlt
    · split at hj
      · cases hj
      · exact h.lookup l' j hj

/-- The state in which `addPoint` starts to link a new element. -/
def withNewElement (s : Index V) (x : V) (label : LabelType) (curlevel : Nat) : Index V :=
  if curlevel = 0 then s.appendElement x label curlevel
  else (s.appendElement x label curlevel).allocateLinkLists s.curElementCount curlevel

theorem withNewElement_fields (s : Index V) (x : V) (label : LabelType) (curlevel : Nat) :
    s.withNewElement x label curlevel =
      { s.appendElement x label curlevel with
        linkLists := (s.withNewElement x label curlevel).linkLists } := by
  unfold withNewElement
  split <;> rfl

section NewElement

variable {curlevel : Nat}

@[simp] theorem curElementCount_withNewElement :
    (s.withNewElement x label curlevel).curElementCount = s.curElementCount + 1 := by
  rw [withNewElement_fields]
  rfl

theorem maxLinks_withNewElement (l : Nat) :
    (s.withNewElement x label curlevel).maxLinks l = s.maxLinks l := by
  rw [withNewElement_fields]
  rfl

theorem level_withNewElement : (s.withNewElement x label curlevel).level i =
    if i = s.curElementCount then curlevel else s.level i := by
  rw [withNewElement_fields]
  exact Memory.read_write _ _ _ _

theorem getDataByInternalId_withNewElement :
    (s.withNewElement x label curlevel).getDataByInternalId i =
      if i = s.curElementCount then x else s.getDataByInternalId i := by
  rw [withNewElement_fields]
  change ((s.dataLevel0Memory.write _ _).read i).data = _
  rw [Memory.read_write]
  split <;> rfl

theorem getExternalLabel_withNewElement :
    (s.withNewElement x label curlevel).getExternalLabel i =
      if i = s.curElementCount then label else s.getExternalLabel i := by
  rw [withNewElement_fields]
  change ((s.dataLevel0Memory.write _ _).read i).label = _
  rw [Memory.read_write]
  split <;> rfl

private theorem getLinklistAtLevel_withNewElement_of_ne (h : i ≠ s.curElementCount) :
    (s.withNewElement x label curlevel).getLinklistAtLevel i l = s.getLinklistAtLevel i l := by
  unfold withNewElement appendElement allocateLinkLists getLinklistAtLevel
  by_cases h0 : curlevel = 0 <;> by_cases hl : l = 0 <;> simp [h0, hl, Memory.read_write_of_ne, h]

theorem getLinklistAtLevel_withNewElement_self (h : l ≤ curlevel) :
    (s.withNewElement x label curlevel).getLinklistAtLevel s.curElementCount l = default := by
  unfold withNewElement appendElement allocateLinkLists getLinklistAtLevel
  by_cases hl : l = 0
  · by_cases h0 : curlevel = 0 <;> simp [h0, hl]
  · have h0 : curlevel ≠ 0 := by omega
    simp [h0, hl]

theorem isMarkedDeleted_withNewElement : (s.withNewElement x label curlevel).isMarkedDeleted i =
    if i = s.curElementCount then false else s.isMarkedDeleted i := by
  rw [isMarkedDeleted]
  split
  · next h =>
    rw [h, getLinklistAtLevel_withNewElement_self (Nat.zero_le _), LinkList.isMarked_default]
  · next h => rw [getLinklistAtLevel_withNewElement_of_ne h, isMarkedDeleted]

theorem connections_withNewElement_of_ne (h : i ≠ s.curElementCount) :
    (s.withNewElement x label curlevel).connections i l = s.connections i l := by
  rw [connections, connections, getLinklistAtLevel_withNewElement_of_ne h]

private theorem connections_withNewElement_self (h : l ≤ curlevel) :
    (s.withNewElement x label curlevel).connections s.curElementCount l = [] := by
  rw [connections, getLinklistAtLevel_withNewElement_self h, LinkList.connections_default]

private theorem atLevel_withNewElement_of_ne (h : i ≠ s.curElementCount) :
    (s.withNewElement x label curlevel).AtLevel l i ↔ s.AtLevel l i := by
  rw [AtLevel, AtLevel, curElementCount_withNewElement, level_withNewElement, if_neg h]
  have := Nat.lt_succ_iff_lt_or_eq (m := i) (n := s.curElementCount)
  tauto

theorem AtLevel.withNewElement (h : s.AtLevel l i) :
    (s.withNewElement x label curlevel).AtLevel l i :=
  (atLevel_withNewElement_of_ne h.1.ne).mpr h

theorem GraphInv.withNewElement (hg : s.GraphInv) (x : V) (label : LabelType) (curlevel : Nat) :
    (s.withNewElement x label curlevel).GraphInv := by
  intro i l hi
  by_cases h : i = s.curElementCount
  · subst h
    have hl : l ≤ curlevel := by
      have := hi.2
      rwa [level_withNewElement, if_pos rfl] at this
    rw [connections_withNewElement_self hl]
    exact ⟨Nat.zero_le _, List.nodup_nil, by simp⟩
  · have hfit := hg i l ((atLevel_withNewElement_of_ne h).mp hi)
    rw [connections_withNewElement_of_ne h]
    refine ⟨?_, hfit.nodup, fun j hj => ⟨(hfit.valid j hj).1.withNewElement, (hfit.valid j hj).2⟩⟩
    rw [withNewElement_fields]
    exact hfit.length_le

theorem notMem_connections_withNewElement (hg : s.GraphInv)
    (hi : (s.withNewElement x label curlevel).AtLevel l i) :
    s.curElementCount ∉ (s.withNewElement x label curlevel).connections i l := by
  by_cases h : i = s.curElementCount
  · subst h
    have hl : l ≤ curlevel := by
      have := hi.2
      rwa [level_withNewElement, if_pos rfl] at this
    rw [connections_withNewElement_self hl]
    simp
  · rw [connections_withNewElement_of_ne h]
    intro hmem
    exact lt_irrefl _ ((hg i l ((atLevel_withNewElement_of_ne h).mp hi)).valid _ hmem).1.1

end NewElement

end HnswRvv.Index
