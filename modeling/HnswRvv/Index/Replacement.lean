import HnswRvv.Index.FiniteMap

/-!
# Reusing vacant slots

A replacing insertion takes the first vacant slot and gives it the new label, without a look at the
slot that the label may have already. Labels stay unique as long as this slot is the one taken.
-/

namespace HnswRvv.Index

open Framework OrderDual
set_option linter.unusedSectionVars false

variable {V D : Type} [Inhabited V] [LinearOrder D] {P : Platform V D} {s s' t : Index V}
  {c : Choices} {x : V} {label : LabelType} {i : TableInt}

/-- Exactly one element carries the label; it is live, known by the label, and holds `x`. -/
def SoleOwner (s : Index V) (label : LabelType) (x : V) : Prop :=
  ∃ i, s.labelLookup label = some i ∧ s.isMarkedDeleted i = false ∧ s.getDataByInternalId i = x ∧
    ∀ j, j < s.curElementCount ∧ s.getExternalLabel j = label ↔ j = i

theorem SoleOwner.linksOnly (hl : LinksOnly t s') :
    s'.SoleOwner label x ↔ t.SoleOwner label x := by
  have hlookup : s'.labelLookup = t.labelLookup := by rw [hl.1.fields]
  simp only [SoleOwner, hlookup, hl.1.mark, hl.1.data, hl.1.label, hl.1.curElementCount]

/-- A known label has a single owner after its insertion into slot `d` if `d` was its own slot. -/
theorem soleOwner_replaced_iff (h : s.Labelled) {d : TableInt} (hd : d < s.curElementCount)
    (hi : s.labelLookup label = some i) (hlt : i < s.curElementCount) :
    (s.replaced d x label).SoleOwner label x ↔ i = d := by
  have howner : (s.replaced d x label).labelLookup label = some d := by
    rw [labelLookup_replaced, if_pos rfl]
  constructor
  · rintro ⟨j, hj, -, -, hall⟩
    obtain rfl : d = j := Option.some.inj (howner.symm.trans hj)
    rw [← hall, curElementCount_replaced, getExternalLabel_replaced, h.label label i hi]
    exact ⟨hlt, ite_self label⟩
  · rintro rfl
    refine ⟨i, howner, ?_, ?_, fun j => ?_⟩
    · rw [isMarkedDeleted_replaced, if_pos rfl]
    · rw [getDataByInternalId_replaced, if_pos rfl]
    rw [curElementCount_replaced, getExternalLabel_replaced]
    constructor
    · rintro ⟨hj, hlabel⟩
      by_contra hne
      rw [if_neg hne] at hlabel
      have hlook := h.lookup j hj
      rw [hlabel, hi] at hlook
      exact hne (Option.some.inj hlook).symm
    · rintro rfl
      exact ⟨hlt, if_pos rfl⟩

private theorem WellFormed.deleted_nonempty (h : s.WellFormed) (hallow : s.allowReplaceDeleted = true)
    (hdeleted : ∃ d < s.curElementCount, s.isMarkedDeleted d = true) :
    s.deletedElements.Nonempty := by
  obtain ⟨d, hd, hm⟩ := hdeleted
  rw [h.deleted, if_pos hallow]
  exact ⟨d, mem_markedIds.mpr ⟨hd, hm⟩⟩

private theorem runOp_replace (P : Platform V D) (c : Choices) (x : V) (label : LabelType)
    (h : s.WellFormed) (hb : s.Backed) (hallow : s.allowReplaceDeleted = true)
    (hne : s.deletedElements.Nonempty) :
    ∃ s', runOp P c (.addPoint x label true) s = .ok none s' ∧
      LinksOnly (s.replaced (c.begin_ s.deletedElements) x label) s' := by
  have hwp : wp (runOp P c (.addPoint x label true))
      (fun r s' => r = none ∧ LinksOnly (s.replaced (c.begin_ s.deletedElements) x label) s')
      (fun _ _ => False) s := by
    rw [runOp, wp_bind]
    refine wp_mono (wp_addPoint_vacant h hb.lists hallow hne) (fun _ s' hs' => ?_) fun _ _ he => he
    rw [wp_pure]
    exact ⟨rfl, hs'⟩
  obtain ⟨_, s', hrun, rfl, hs'⟩ := exists_ok_of_wp hwp
  exact ⟨s', hrun, hs'⟩

private theorem labelLookup_after_replace (h : s.Labelled) (hw : s.WellFormed) (hb : s.Backed)
    {other : LabelType} (hg : Granted s c (.addPoint x other true)) (hne : other ≠ label)
    (hi : s.labelLookup label = some i) (hlive : s.isMarkedDeleted i = false) (hs' : afterOp P c (.addPoint x other true) s = some s') :
    s'.labelLookup label = some i := by
  rcases afterOp_cases hw hb hg hs' with ⟨rfl, -⟩ | ⟨r, t, he, hl⟩
  · exact hi
  · have hlookup : s'.labelLookup = t.labelLookup := by rw [hl.1.fields]
    rw [hlookup]
    cases he with
    | addPoint _ hst =>
      cases hst with
      | inserted curlevel hnew hroom => rw [labelLookup_inserted, if_neg hne.symm, hi]
      | updated hlookup hm => exact hi
      | revived hlookup hallow hm => exact hi
    | replaced _ hvacant =>
      obtain ⟨hd, hm⟩ := hw.mem_deleted (c.begin_mem _ hvacant)
      have hkeep : label ≠ s.getExternalLabel (c.begin_ s.deletedElements) := by
        intro heq
        have hlook := h.lookup _ hd
        rw [← heq, hi] at hlook
        rw [← Option.some.inj hlook, hlive] at hm
        cases hm
      rw [labelLookup_replaced, if_neg hne.symm, if_neg hkeep, hi]

/-- In a run that reuses vacant slots for absent labels and for their own only, a known label that
is inserted again has a single owner exactly if the slot taken is its own. No replacing insertion
of another label takes a live label away. -/
theorem replacement_soleOwner_iff (h : Reachable P OwnSlotReplacement s)
    (hallow : s.allowReplaceDeleted = true) :
    (∀ label i, s.labelLookup label = some i →
      (∃ d < s.curElementCount, s.isMarkedDeleted d = true) → ∀ (c : Choices) (x : V),
        ∃ s', runOp P c (.addPoint x label true) s = .ok none s' ∧
          (s'.SoleOwner label x ↔ i = c.begin_ s.deletedElements)) ∧
    (∀ label i, s.labelLookup label = some i → s.isMarkedDeleted i = false →
      ∀ (c : Choices) (x : V) (other : LabelType) (s' : Index V), other ≠ label →
        Granted s c (.addPoint x other true) → afterOp P c (.addPoint x other true) s = some s' →
          s'.labelLookup label = some i) := by
  have hw := h.wellFormed
  have hl := h.labelled_of_ownSlot
  refine ⟨fun label i hi hdeleted c x => ?_, fun label i hi hlive c x other s' hne hg hs' =>
    labelLookup_after_replace hl hw h.backed hg hne hi hlive hs'⟩
  have hvacant := hw.deleted_nonempty hallow hdeleted
  obtain ⟨s', hrun, hlinks⟩ := runOp_replace P c x label hw h.backed hallow hvacant
  refine ⟨s', hrun, ?_⟩
  rw [SoleOwner.linksOnly hlinks]
  exact soleOwner_replaced_iff hl (hw.mem_deleted (c.begin_mem _ hvacant)).1 hi (hw.lookup label i hi)

/-- Two labels, the first deleted and inserted again into its own slot. -/
theorem replacement_soleOwner_points : ∃ s s' : Index (ℤ × ℤ × ℤ),
    Reachable pointPlatform OwnSlotReplacement s ∧ s.allowReplaceDeleted = true ∧
    s.labelLookup 1 = some 0 ∧ s.isMarkedDeleted 0 = true ∧
    runOp pointPlatform (plainChoices 0) (.addPoint (7, 7, 7) 1 true) s = .ok none s' ∧
    s'.SoleOwner 1 (7, 7, 7) := by
  have hrun : ∃ s, afterOps pointPlatform
      [(.addPoint (0, 0, 0) 1 false, plainChoices 1), (.addPoint (5, 0, 0) 2 false, plainChoices 0),
        (.markDelete 1, plainChoices 0)] (emptyPoints true) = some s ∧
      (s.allowReplaceDeleted, s.labelLookup 1, s.isMarkedDeleted 0, s.curElementCount,
        (plainChoices 0).begin_ s.deletedElements) = (true, some 0, true, 2, 0) :=
    Option.map_eq_some_iff.mp (by decide +kernel)
  obtain ⟨s, hreach, hvalues⟩ := (emptyPoints_reachable OwnSlotReplacement true).exists_afterOps
    (by simp [plainChoices_allocates, OwnSlotReplacement]) hrun
  simp only [Prod.mk.injEq] at hvalues
  obtain ⟨hallow, hlookup, hm, hcount, hbegin⟩ := hvalues
  obtain ⟨s', hok, hiff⟩ := (replacement_soleOwner_iff hreach hallow).1 1 0 hlookup
    ⟨0, hcount ▸ Nat.zero_lt_two, hm⟩ (plainChoices 0) (7, 7, 7)
  exact ⟨s, s', hreach, hallow, hlookup, hm, hok, hiff.mpr hbegin.symm⟩

/-- `plainChoices` for a set that begins with its greatest element. -/
def lastFirstChoices : Choices :=
  { plainChoices 0 with
    begin_ := fun d => if h : d.Nonempty then d.max' h else 0
    begin_mem := fun d h => by
      rw [dif_pos h]
      exact d.max'_mem h }

/-- Two labels, both deleted. The first is inserted again into the slot of the second, so that both
slots carry it; the next insertion takes its old slot, and the live label is forgotten. -/
theorem replacement_forgets_label : ∃ s s₁ s₂ : Index (ℤ × ℤ × ℤ),
    Reachable pointPlatform (fun _ _ _ => True) s ∧ s.allowReplaceDeleted = true ∧
    s.labelLookup 1 = some 0 ∧ s.isMarkedDeleted 0 = true ∧
    runOp pointPlatform lastFirstChoices (.addPoint (7, 7, 7) 1 true) s = .ok none s₁ ∧
    (s₁.curElementCount, s₁.getExternalLabel 0, s₁.getExternalLabel 1) = (2, 1, 1) ∧
    (s₁.labelLookup 1, s₁.isMarkedDeleted 1) = (some 1, false) ∧
    afterOp pointPlatform (plainChoices 0) (.addPoint (9, 9, 9) 3 true) s₁ = some s₂ ∧
    s₂.labelLookup 1 = none := by
  have hrun : (afterOps pointPlatform
      [(.addPoint (0, 0, 0) 1 false, plainChoices 1), (.addPoint (5, 0, 0) 2 false, plainChoices 0),
        (.markDelete 1, plainChoices 0), (.markDelete 2, plainChoices 0)] (emptyPoints true)).any
      fun s => decide ((s.allowReplaceDeleted, s.labelLookup 1, s.isMarkedDeleted 0) =
          (true, some 0, true)) &&
        (afterOp pointPlatform lastFirstChoices (.addPoint (7, 7, 7) 1 true) s).any fun s₁ =>
          decide ((s₁.curElementCount, s₁.getExternalLabel 0, s₁.getExternalLabel 1) = (2, 1, 1)) &&
          decide ((s₁.labelLookup 1, s₁.isMarkedDeleted 1) = (some 1, false)) &&
          (afterOp pointPlatform (plainChoices 0) (.addPoint (9, 9, 9) 3 true) s₁).any fun s₂ =>
            decide (s₂.labelLookup 1 = none) := by
    decide +kernel
  simp only [Option.any_eq_true, Bool.and_eq_true, decide_eq_true_eq] at hrun
  obtain ⟨s, hreach, hvalues, s₁, hs₁, ⟨hlabels, howner⟩, s₂, hs₂, hgone⟩ :=
    (emptyPoints_reachable (fun _ _ _ => True) true).exists_afterOps
      (by simp [plainChoices_allocates]) hrun
  simp only [Prod.mk.injEq] at hvalues
  obtain ⟨hallow, hlookup, hm⟩ := hvalues
  have hw := hreach.wellFormed
  obtain ⟨s₁', hok, -⟩ := runOp_replace pointPlatform lastFirstChoices (7, 7, 7) 1 hw
    hreach.backed hallow (hw.deleted_nonempty hallow ⟨0, hw.lookup 1 0 hlookup, hm⟩)
  obtain rfl : s₁' = s₁ := by
    rw [afterOp, hok] at hs₁
    exact Option.some.inj hs₁
  exact ⟨s, s₁', s₂, hreach, hallow, hlookup, hm, hok, hlabels, howner, hs₂, hgone⟩

end HnswRvv.Index
