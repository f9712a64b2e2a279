import HnswRvv.Index.Query

/-!
# Answers of the stop-condition search

`searchKnn` translates the elements of its answer into labels, `searchStopConditionClosest` hands
out the numbers of the elements as they are. Its answer is right as long as the number of every
element that it can return is also a label, of a vector at the same distance.
-/

namespace HnswRvv.Index

open Framework OrderDual
set_option linter.unusedSectionVars false

variable {V D σ : Type} [Inhabited V] [LinearOrder D] {P : Platform V D} {s : Index V} {q : V}

/-- The label is known, and the vector stored under it is at this distance. -/
def Answers (P : Platform V D) (s : Index V) (q : V) (p : D × LabelType) : Prop :=
  ∃ i, s.labelLookup p.2 = some i ∧ p.1 = P.fstdistfunc q (s.getDataByInternalId i)

/-- The stop condition that never stops and never sheds. -/
def keepAllCondition (V D : Type) : StopCondition V D Unit where
  addPointToResult st _ _ _ := st
  removePointFromResult st _ _ _ := st
  shouldStopSearch st _ _ := (false, st)
  shouldConsiderCandidate st _ _ := (true, st)
  shouldRemoveExtra st := (false, st)
  filterResults st l := (l, st)
  filterResults_sublist _ l := List.Sublist.refl l

private theorem searchPolicy_keepAllCondition (s : Index V) :
    searchPolicy s false 0 (some (keepAllCondition V D)) = BestFirst.keepAll := rfl

/-- A descent from the entry point of an index that is not empty. -/
theorem WellFormed.exists_descentEnd (h : s.WellFormed) (hpos : 0 < s.curElementCount)
    (P : Platform V D) (q : V) :
    ∃ ep start, s.enterpointNode = some ep ∧ descentEnd P s q true 0 = .ok start ∧
      s.AtLevel 0 start ∧ DescendsTo P s q 0 ep start := by
  obtain ⟨ep, hep⟩ := h.entry.exists_entry hpos
  have hlevel := h.entry.level ep hep
  obtain ⟨start, hstart, hat⟩ := descentEnd_ok (P := P) (q := q) true h.graph h.cap hep
    (h.entry.lt ep hep) (by omega) 0
  rw [Nat.min_zero] at hat
  exact ⟨ep, start, hep, hstart, hat, descentEnd_descendsTo hep hstart⟩

private theorem mem_searchStopConditionClosest {stop : StopCondition V D σ} {st st' : σ}
    {isIdAllowed : Option (LabelType → Bool)} {result : List (D × LabelType)} {start : TableInt}
    (hstart : descentEnd P s q true 0 = .ok start)
    (h : searchStopConditionClosest P s q stop st isIdAllowed = .ok (result, st'))
    (hne : s.curElementCount ≠ 0) {p : D × LabelType} (hp : p ∈ result) :
    s.LinkReach 0 start p.2 ∧ s.isMarkedDeleted p.2 = false ∧
      p.1 = P.fstdistfunc q (s.getDataByInternalId p.2) := by
  rw [searchStopConditionClosest, if_neg hne, hstart] at h
  dsimp only at h
  split at h
  · cases h
  · next top st₁ hsearch =>
    rw [searchBaseLayerST] at hsearch
    split at hsearch
    · cases hsearch
    · next b hb =>
      cases hsearch
      obtain rfl : (stop.filterResults b.state (P.queues.far.drain b.topCandidates).reverse).1 =
          result := congrArg Prod.fst (Except.ok.inj h)
      have hmem := (stop.filterResults_sublist _ _).subset hp
      rw [List.mem_reverse, PriorityQueue.mem_drain] at hmem
      have hsound := searchBaseLayerSTBeam_sound hb
      obtain ⟨hvisited, hreturnable, hdist⟩ := hsound.result p hmem
      simp only [layerGraph, returnable, Bool.false_or, Bool.and_eq_true, Bool.not_eq_true']
        at hreturnable
      exact ⟨hsound.reach p.2 hvisited, hreturnable.1, hdist⟩

private theorem searchStopConditionClosest_keepAll (h : s.WellFormed) (hne : s.curElementCount ≠ 0)
    {start : TableInt} (hstart : descentEnd P s q true 0 = .ok start) (hat : s.AtLevel 0 start) :
    ∃ result, searchStopConditionClosest P s q (keepAllCondition V D) () none = .ok (result, ()) ∧
      ∀ i, s.LinkReach 0 start i → s.isMarkedDeleted i = false →
        (P.fstdistfunc q (s.getDataByInternalId i), i) ∈ result := by
  obtain ⟨b, hb, hall⟩ := BestFirst.search_keepAll (Q := P.queues)
    (G := layerGraph P s q 0 (s.returnable false none)) (levelElements_closed h.graph 0)
    (mem_levelElements.mpr hat) (card_levelElements_le s 0) P.maxDist ()
  have hbeam : searchBaseLayerSTBeam P s false start q 0 none (some (keepAllCondition V D)) () =
      .ok b := by
    rw [searchBaseLayerSTBeam, searchPolicy_keepAllCondition, hb]
    rfl
  refine ⟨(P.queues.far.drain b.topCandidates).reverse, ?_, fun i hi hlive => ?_⟩
  · rw [searchStopConditionClosest, if_neg hne, hstart]
    simp only [searchBaseLayerST, hbeam]
    rfl
  · rw [List.mem_reverse, PriorityQueue.mem_drain]
    apply hall i hi
    simp [layerGraph, returnable, accepts, hlive]

/-- Every answer to a query is right, for every stop condition and every filter, exactly if every
live element that links of level 0 lead to from the end of the descent has for its number a label
that is known, of a vector at the same distance. -/
theorem searchStopConditionClosest_labels_iff (h : Reachable P (fun _ _ _ => True) s) (q : V) :
    (∀ (σ : Type) (stop : StopCondition V D σ) (st st' : σ)
      (isIdAllowed : Option (LabelType → Bool)) (result : List (D × LabelType)),
      searchStopConditionClosest P s q stop st isIdAllowed = .ok (result, st') →
        ∀ p ∈ result, Answers P s q p) ↔
      ∀ ep start i, s.enterpointNode = some ep → DescendsTo P s q 0 ep start →
        s.LinkReach 0 start i → s.isMarkedDeleted i = false →
          Answers P s q (P.fstdistfunc q (s.getDataByInternalId i), i) := by
  have hw := h.wellFormed
  constructor
  · intro hright ep start i hep hstart hi hlive
    have hpos := Nat.zero_lt_of_lt (hw.entry.lt ep hep)
    obtain ⟨ep', start', hep', hdescent, hat, hstart'⟩ := hw.exists_descentEnd hpos P q
    obtain rfl : ep = ep' := Option.some.inj (hep.symm.trans hep')
    obtain rfl := hstart.unique hstart'
    obtain ⟨result, hresult, hall⟩ := searchStopConditionClosest_keepAll hw hpos.ne' hdescent hat
    exact hright Unit _ () () none result hresult _ (hall i hi hlive)
  · intro hnumbers σ stop st st' isIdAllowed result hresult p hp
    rcases Nat.eq_zero_or_pos s.curElementCount with hzero | hpos
    · rw [searchStopConditionClosest, if_pos hzero] at hresult
      cases hresult
      cases hp
    · obtain ⟨ep, start, hep, hdescent, -, hstart⟩ := hw.exists_descentEnd hpos P q
      obtain ⟨hi, hlive, hdist⟩ := mem_searchStopConditionClosest hdescent hresult hpos.ne' hp
      obtain ⟨j, hj, hsame⟩ := hnumbers ep start p.2 hep hstart hi hlive
      exact ⟨j, hj, hdist.trans hsame⟩

/-- Two vectors whose labels are the numbers of their elements. -/
theorem searchStopConditionClosest_labels_points : ∃ s : Index (ℤ × ℤ × ℤ),
    Reachable pointPlatform (fun _ _ _ => True) s ∧ s.curElementCount = 2 ∧
    ∀ (σ : Type) (stop : StopCondition (ℤ × ℤ × ℤ) ℤ σ) (st st' : σ)
      (isIdAllowed : Option (LabelType → Bool)) (result : List (ℤ × LabelType)),
      searchStopConditionClosest pointPlatform s (4, 0, 0) stop st isIdAllowed = .ok (result, st') →
        ∀ p ∈ result, Answers pointPlatform s (4, 0, 0) p := by
  have hrun : ∃ s, afterOps pointPlatform
      [(.addPoint (0, 0, 0) 0 false, plainChoices 0), (.addPoint (5, 0, 0) 1 false, plainChoices 0)]
      (emptyPoints false) = some s ∧
      (s.curElementCount, s.labelLookup 0, s.labelLookup 1) = (2, some 0, some 1) :=
    Option.map_eq_some_iff.mp (by decide +kernel)
  obtain ⟨s, hs, hvalues⟩ := hrun
  simp only [Prod.mk.injEq] at hvalues
  obtain ⟨hcount, hzero, hone⟩ := hvalues
  have hreach := (emptyPoints_reachable (fun _ _ _ => True) false).afterOps
    (by simp [plainChoices_allocates]) hs
  have hw := hreach.wellFormed
  refine ⟨s, hreach, hcount, (searchStopConditionClosest_labels_iff hreach (4, 0, 0)).mpr ?_⟩
  intro ep start i hep hstart hi _
  obtain ⟨ep', start', hep', -, hat, hstart'⟩ := hw.exists_descentEnd
    (hcount ▸ Nat.zero_lt_two) pointPlatform (4, 0, 0)
  obtain rfl : ep = ep' := Option.some.inj (hep.symm.trans hep')
  obtain rfl := hstart.unique hstart'
  have hlt : i < 2 := hcount ▸ (LinkReach.atLevel hi hw.graph hat).1
  rcases Nat.le_one_iff_eq_zero_or_eq_one.mp (Nat.lt_succ_iff.mp hlt) with rfl | rfl
  · exact ⟨0, hzero, rfl⟩
  · exact ⟨1, hone, rfl⟩

/-- One vector under the label 7. The search answers with the label 0, which nobody has given. -/
theorem searchStopConditionClosest_returns_number : ∃ s : Index (ℤ × ℤ × ℤ),
    Reachable pointPlatform (fun _ op _ => ∃ x label, op = .addPoint x label false) s ∧
    searchStopConditionClosest pointPlatform s (4, 0, 0) (keepAllCondition (ℤ × ℤ × ℤ) ℤ) () none =
      .ok ([(16, 0)], ()) ∧
    s.labelLookup 7 = some 0 ∧ s.labelLookup 0 = none := by
  have hrun : (afterOps pointPlatform [(.addPoint (0, 0, 0) 7 false, plainChoices 0)]
      (emptyPoints false)).any fun s =>
        decide (searchStopConditionClosest pointPlatform s (4, 0, 0)
          (keepAllCondition (ℤ × ℤ × ℤ) ℤ) () none = .ok ([(16, 0)], ())) &&
        decide ((s.labelLookup 7, s.labelLookup 0) = (some 0, none)) := by
    decide +kernel
  rw [Option.any_eq_true] at hrun
  obtain ⟨s, hs, hvalues⟩ := hrun
  rw [Bool.and_eq_true, decide_eq_true_eq, decide_eq_true_eq, Prod.mk.injEq] at hvalues
  obtain ⟨hanswer, hseven, hzero⟩ := hvalues
  refine ⟨s, (emptyPoints_reachable _ false).afterOps ?_ hs, hanswer, hseven, hzero⟩
  simp [plainChoices_allocates]

end HnswRvv.Index
