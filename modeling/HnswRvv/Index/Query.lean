import HnswRvv.Index.FiniteMap

/-!
# What a query answers

The base-layer search of a query comes in two versions. The bare one looks at neither delete marks
nor a filter and is chosen when the index counts no deleted element; it then does the same as the
other one, so that one account of the search covers both.
-/

namespace HnswRvv.Index

open Framework OrderDual
set_option linter.unusedSectionVars false

variable {V D σ : Type} [Inhabited V] [LinearOrder D] {P : Platform V D} {s : Index V} {q : V}
  {ep : TableInt} {ef k : Nat} {isIdAllowed : Option (LabelType → Bool)} {st : σ}

private theorem GraphInv.links_lt (hg : s.GraphInv) :
    ∀ i < s.curElementCount, ∀ j ∈ s.connections i 0, j < s.curElementCount :=
  fun i hi j hj => ((hg i 0 ⟨hi, Nat.zero_le _⟩).valid j hj).1.1

private theorem WellFormed.live_of_numDeleted (h : s.WellFormed) (hzero : s.numDeleted = 0) {i : TableInt}
    (hi : i < s.curElementCount) : s.isMarkedDeleted i = false := by
  rw [h.numDeleted, Finset.card_eq_zero] at hzero
  have hnot : i ∉ s.markedIds := hzero ▸ Finset.notMem_empty i
  simpa [mem_markedIds, hi] using hnot

private theorem liftAbort_eq_ok {α : Type} {x : Except SearchAbort α} {a : α} :
    liftAbort x = .ok a ↔ x = .ok a := by
  cases x with
  | ok b => simp [liftAbort]
  | error e => cases e <;> simp [liftAbort]

private theorem searchBaseLayerSTBeam_bare_eq (q : V) (ef : Nat) (st : σ)
    (hlive : ∀ i, s.LinkReach 0 ep i → s.isMarkedDeleted i = false) :
    searchBaseLayerSTBeam P s true ep q ef none (none : Option (StopCondition V D σ)) st =
      searchBaseLayerSTBeam P s false ep q ef none none st := by
  have hgraph : layerGraph P s q 0 (s.returnable true none) =
      { layerGraph P s q 0 (s.returnable false none) with eligible := fun _ => true } := rfl
  rw [searchBaseLayerSTBeam, hgraph]
  apply congrArg liftAbort
  apply BestFirst.search_bare_eq
  intro i hi
  simp [layerGraph, returnable, accepts, hlive i hi]

/-- Links that stay among the elements keep a search there, and fuel for every element is
enough. -/
theorem searchBaseLayerSTBeam_exists (P : Platform V D) (bareBone : Bool) (q : V) (ef : Nat)
    (isIdAllowed : Option (LabelType → Bool)) (st : σ)
    (hlinks : ∀ i < s.curElementCount, ∀ j ∈ s.connections i 0, j < s.curElementCount)
    (hep : ep < s.curElementCount) :
    ∃ b, searchBaseLayerSTBeam P s bareBone ep q ef isIdAllowed
      (none : Option (StopCondition V D σ)) st = .ok b := by
  obtain ⟨b, hb⟩ := BestFirst.search_efPolicy_exists (Q := P.queues)
    (G := layerGraph P s q 0 (s.returnable bareBone isIdAllowed)) bareBone ef
    (U := Finset.range s.curElementCount) (by simpa [layerGraph] using hlinks)
    (Finset.mem_range.mpr hep) (Finset.card_range _).le P.maxDist st
  exact ⟨b, by rw [searchBaseLayerSTBeam, searchPolicy, hb]; rfl⟩

theorem searchBaseLayerSTBeam_sound {bareBone : Bool} {stopCondition : Option (StopCondition V D σ)}
    {b : Beam P.queues σ}
    (h : searchBaseLayerSTBeam P s bareBone ep q ef isIdAllowed stopCondition st = .ok b) :
    BestFirst.Sound P.queues (layerGraph P s q 0 (s.returnable bareBone isIdAllowed)) ep b := by
  apply BestFirst.search_sound
  exact liftAbort_eq_ok.mp h

/-- With nothing deleted and no filter, both versions hold the same when their loops end, so the
bare one has not stopped earlier; and on a graph of elements both do end. -/
theorem searchBaseLayerST_bareBone_eq (ef : Nat) (q : V) (st : σ)
    (hlive : ∀ i, s.LinkReach 0 ep i → s.isMarkedDeleted i = false) :
    searchBaseLayerSTBeam P s true ep q ef none (none : Option (StopCondition V D σ)) st =
        searchBaseLayerSTBeam P s false ep q ef none none st ∧
      searchBaseLayerST P s true ep q ef none (none : Option (StopCondition V D σ)) st =
        searchBaseLayerST P s false ep q ef none none st ∧
      ((∀ i < s.curElementCount, ∀ j ∈ s.connections i 0, j < s.curElementCount) →
        ep < s.curElementCount →
        ∃ top, searchBaseLayerST P s false ep q ef none (none : Option (StopCondition V D σ)) st =
          .ok top) := by
  have hbeam := searchBaseLayerSTBeam_bare_eq (P := P) q ef st hlive
  refine ⟨hbeam, ?_, fun hlinks hep => ?_⟩
  · rw [searchBaseLayerST, searchBaseLayerST, hbeam]
  · obtain ⟨b, hb⟩ := searchBaseLayerSTBeam_exists P false q ef none st hlinks hep
    exact ⟨(b.topCandidates, b.state), by rw [searchBaseLayerST, hb]⟩

private theorem exists_points (delete : Bool) : ∃ s : Index (ℤ × ℤ × ℤ),
    Reachable pointPlatform FreshReplacement s ∧ s.curElementCount = 3 ∧
      s.numDeleted = if delete then 1 else 0 := by
  have hrun : ∃ s, afterOps pointPlatform
      ([(.addPoint (0, 0, 0) 7 false, plainChoices 1), (.addPoint (5, 0, 0) 8 false, plainChoices 0),
        (.addPoint (9, 0, 0) 9 false, plainChoices 1)] ++
        if delete then [(.markDelete 9, plainChoices 0)] else []) (emptyPoints false) = some s ∧
      (s.curElementCount, s.numDeleted) = (3, if delete then 1 else 0) :=
    Option.map_eq_some_iff.mp (by cases delete <;> decide +kernel)
  obtain ⟨s, hreach, hcounts⟩ := (emptyPoints_reachable FreshReplacement false).exists_afterOps
    (by cases delete <;> simp [plainChoices_allocates, FreshReplacement]) hrun
  exact ⟨s, hreach, Prod.mk.inj hcounts⟩

/-- A search from the first of three elements, none of them deleted. -/
theorem searchBaseLayerST_bareBone_eq_points : ∃ s : Index (ℤ × ℤ × ℤ), s.curElementCount = 3 ∧
    (∀ i, s.LinkReach 0 0 i → s.isMarkedDeleted i = false) ∧
    ∃ top, searchBaseLayerST pointPlatform s true 0 (4, 0, 0) 1 none
        (none : Option (StopCondition (ℤ × ℤ × ℤ) ℤ Unit)) () = .ok top ∧
      searchBaseLayerST pointPlatform s false 0 (4, 0, 0) 1 none
        (none : Option (StopCondition (ℤ × ℤ × ℤ) ℤ Unit)) () = .ok top := by
  obtain ⟨s, hreach, hcount, hzero⟩ := exists_points false
  have hw := hreach.wellFormed
  have h0 : s.AtLevel 0 0 := ⟨hcount ▸ Nat.zero_lt_succ 2, Nat.zero_le _⟩
  have hlive : ∀ i, s.LinkReach 0 0 i → s.isMarkedDeleted i = false :=
    fun i hi => hw.live_of_numDeleted hzero (LinkReach.atLevel hi hw.graph h0).1
  obtain ⟨-, heq, hends⟩ := searchBaseLayerST_bareBone_eq (P := pointPlatform) 1 (4, 0, 0) () hlive
  obtain ⟨top, htop⟩ := hends hw.graph.links_lt h0.1
  exact ⟨s, hcount, hlive, top, heq.trans htop, htop⟩

/-- What `searchBaseLayerST` holds at its end when it looks at marks and the filter. -/
structure QueryBeam (P : Platform V D) (s : Index V) (q : V) (ef : Nat)
    (isIdAllowed : Option (LabelType → Bool)) (ep : TableInt) (b : Beam P.queues σ) : Prop where
  sound : BestFirst.Sound P.queues (layerGraph P s q 0 (s.returnable false isIdAllowed)) ep b
  nearest : 0 < ef →
    BestFirst.Nearest P.queues (layerGraph P s q 0 (s.returnable false isIdAllowed)) ef b
  all : 0 < ef → P.queues.far.size b.topCandidates < ef →
    ∀ i, s.LinkReach 0 ep i → i ∈ b.visited

private theorem searchBaseLayerSTBeam_ok (P : Platform V D) (q : V) (ef : Nat)
    (isIdAllowed : Option (LabelType → Bool)) (st : σ) (hg : s.GraphInv) (hep : s.AtLevel 0 ep) :
    ∃ b, searchBaseLayerSTBeam P s false ep q ef isIdAllowed
      (none : Option (StopCondition V D σ)) st = .ok b ∧ QueryBeam P s q ef isIdAllowed ep b := by
  rcases Nat.eq_zero_or_pos ef with rfl | hef
  · obtain ⟨b, hb⟩ := searchBaseLayerSTBeam_exists P false q 0 isIdAllowed st
      hg.links_lt hep.1
    exact ⟨b, hb, searchBaseLayerSTBeam_sound hb, fun h => absurd h (Nat.lt_irrefl 0),
      fun h => absurd h (Nat.lt_irrefl 0)⟩
  · obtain ⟨b, hb, hsound, hnear, hall⟩ := BestFirst.search_nearest (Q := P.queues)
      (G := layerGraph P s q 0 (s.returnable false isIdAllowed))
      (BestFirst.efPolicy_keepsNearest P.queues ef) hef (levelElements_closed hg 0)
      (mem_levelElements.mpr hep) (card_levelElements_le s 0) P.maxDist st
    exact ⟨b, by rw [searchBaseLayerSTBeam, searchPolicy, hb]; rfl, hsound, fun _ => hnear,
      fun _ => hall⟩

/-- A count of zero deleted elements is right, so the bare search is chosen where it is the same
as the other one. -/
theorem WellFormed.bareBone_eq (h : s.WellFormed) (hep : s.AtLevel 0 ep) :
    searchBaseLayerSTBeam P s (s.bareBoneSearch isIdAllowed) ep q ef isIdAllowed
        (none : Option (StopCondition V D σ)) st =
      searchBaseLayerSTBeam P s false ep q ef isIdAllowed none st := by
  cases hbare : s.bareBoneSearch isIdAllowed with
  | false => rfl
  | true =>
    rw [bareBoneSearch, Bool.and_eq_true, beq_iff_eq, Option.isNone_iff_eq_none] at hbare
    obtain ⟨hzero, rfl⟩ := hbare
    apply searchBaseLayerSTBeam_bare_eq
    exact fun i hi => h.live_of_numDeleted hzero (LinkReach.atLevel hi h.graph hep).1

/-- A query of an index that is not empty, from the descent to the answer. -/
structure KnnRun (P : Platform V D) (s : Index V) (q : V) (k : Nat)
    (isIdAllowed : Option (LabelType → Bool)) (e : TableInt) (b : Beam P.queues Unit) : Prop where
  descent : descentEnd P s q true 0 = .ok e
  start : s.AtLevel 0 e
  search : searchBaseLayerSTBeam P s (s.bareBoneSearch isIdAllowed) e q (max s.ef k) isIdAllowed
    (none : Option (StopCondition V D Unit)) () = .ok b
  beam : QueryBeam P s q (max s.ef k) isIdAllowed e b
  met : ∀ i ∈ b.visited, i < s.curElementCount
  answer : searchKnn P s q k isIdAllowed = .ok (knnAnswer P s b.topCandidates k)

private theorem WellFormed.knnRun (h : s.WellFormed) (hpos : 0 < s.curElementCount) (P : Platform V D)
    (q : V) (k : Nat) (isIdAllowed : Option (LabelType → Bool)) :
    ∃ e b, KnnRun P s q k isIdAllowed e b := by
  obtain ⟨ep, hep⟩ := h.entry.exists_entry hpos
  have hlevel := h.entry.level ep hep
  obtain ⟨e, hdescent, he⟩ := descentEnd_ok (P := P) (q := q) true h.graph h.cap hep
    (h.entry.lt ep hep) (by omega) 0
  rw [Nat.min_zero] at he
  obtain ⟨b, hb, hbeam⟩ := searchBaseLayerSTBeam_ok P q (max s.ef k) isIdAllowed ()
    h.graph he
  have hsearch := (h.bareBone_eq he).trans hb
  refine ⟨e, b, hdescent, he, hsearch, hbeam,
    fun i hi => (LinkReach.atLevel (hbeam.sound.reach i hi) h.graph he).1, ?_⟩
  rw [searchKnn, if_neg hpos.ne', hdescent]
  simp only [searchBaseLayerST, hsearch]

theorem WellFormed.searchKnnTagged_eq (h : s.WellFormed)
    (hlist : s.curElementCount ≤ s.capacities.visitedList) (P : Platform V D) (q : V) (k : Nat)
    (isIdAllowed : Option (LabelType → Bool)) :
    searchKnnTagged P s q k isIdAllowed = searchKnn P s q k isIdAllowed := by
  rcases Nat.eq_zero_or_pos s.curElementCount with h0 | hpos
  · rw [searchKnn, searchKnnTagged, if_pos h0, if_pos h0]
  · obtain ⟨e, b, hrun⟩ := h.knnRun hpos P q k isIdAllowed
    have htags : ∀ i ∈ b.visited, i < s.capacities.visitedList := fun i hi =>
      (hrun.met i hi).trans_le hlist
    rw [hrun.answer, searchKnnTagged, if_neg hpos.ne', hrun.descent]
    simp only [hrun.search]
    rw [if_pos htags]

@[simp] theorem elems_knnAnswer (P : Platform V D) (s : Index V) (top : P.queues.far.Carrier)
    (k : Nat) :
    P.answers.elems (knnAnswer P s top k) = (P.queues.far.elems (P.queues.far.popTo k top)).map
      fun rez => (rez.1, s.getExternalLabel rez.2) := by
  rw [knnAnswer, PriorityQueue.elems_pushAll, PriorityQueue.elems_empty, add_zero,
    ← Multiset.map_coe, PriorityQueue.coe_drain]

private theorem size_knnAnswer_le (P : Platform V D) (s : Index V) (top : P.queues.far.Carrier) (k : Nat) :
    P.answers.size (knnAnswer P s top k) ≤ k := by
  obtain ⟨-, -, hsize, -⟩ := P.queues.far.popTo_spec k top
  rw [PriorityQueue.size, elems_knnAnswer, Multiset.card_map, ← PriorityQueue.size, hsize]
  exact min_le_left _ _

theorem WellFormed.setEf (h : s.WellFormed) (ef : Nat) : (s.setEf ef).WellFormed :=
  ⟨⟨h.params.1, h.params.2, h.params.3, h.params.4, h.params.5⟩, h.cap,
    h.graph.congr rfl (fun _ => rfl) (fun _ => rfl) fun _ _ => rfl,
    h.entry.congr rfl (fun _ => rfl) rfl rfl, h.lookup, h.numDeleted, h.deleted⟩

/-- The elements behind an answer: distinct, live, accepted, at their distances and under their
labels. -/
structure Hits (P : Platform V D) (s : Index V) (q : V) (k : Nat)
    (isIdAllowed : Option (LabelType → Bool)) (answer : P.answers.Carrier)
    (ids : List TableInt) : Prop where
  nodup : ids.Nodup
  length_le : ids.length ≤ k
  pairs : P.answers.elems answer = (ids.map fun i =>
    (P.fstdistfunc q (s.getDataByInternalId i), s.getExternalLabel i) : List (D × LabelType))
  lt : ∀ i ∈ ids, i < s.curElementCount
  live : ∀ i ∈ ids, s.isMarkedDeleted i = false
  accepted : ∀ i ∈ ids, accepts isIdAllowed (s.getExternalLabel i) = true

theorem KnnRun.result {e : TableInt} {b : Beam P.queues Unit}
    (hrun : KnnRun P s q k isIdAllowed e b) :
    ∀ p ∈ P.queues.far.drain (P.queues.far.popTo k b.topCandidates),
      s.LinkReach 0 e p.2 ∧ s.returnable false isIdAllowed p.2 = true ∧
        p.1 = P.fstdistfunc q (s.getDataByInternalId p.2) := by
  intro p hp
  have hmem := Multiset.mem_of_le (P.queues.far.popTo_le k b.topCandidates)
    (P.queues.far.mem_drain.mp hp)
  obtain ⟨hvisited, hresult⟩ := hrun.beam.sound.result p hmem
  exact ⟨hrun.beam.sound.reach p.2 hvisited, hresult⟩

private theorem KnnRun.hits {e : TableInt} {b : Beam P.queues Unit} (hg : s.GraphInv)
    (hrun : KnnRun P s q k isIdAllowed e b) :
    ∃ ids, Hits P s q k isIdAllowed (knnAnswer P s b.topCandidates k) ids := by
  obtain ⟨-, -, hsize, -⟩ := P.queues.far.popTo_spec k b.topCandidates
  refine ⟨(P.queues.far.drain (P.queues.far.popTo k b.topCandidates)).map Prod.snd,
    ?_, ?_, ?_, ?_, ?_, ?_⟩
  · rw [PriorityQueue.nodup_map_drain]
    exact Multiset.nodup_of_le (Multiset.map_le_map (P.queues.far.popTo_le k b.topCandidates))
      hrun.beam.sound.nodup
  · rw [List.length_map, PriorityQueue.length_drain, hsize]
    exact min_le_left _ _
  · rw [elems_knnAnswer, ← PriorityQueue.coe_drain, Multiset.map_coe, List.map_map]
    refine congrArg _ (List.map_congr_left fun p hp => ?_)
    rw [(hrun.result p hp).2.2]
    rfl
  · intro i hi
    obtain ⟨p, hp, rfl⟩ := List.mem_map.mp hi
    exact ((hrun.result p hp).1.atLevel hg hrun.start).1
  · intro i hi
    obtain ⟨p, hp, rfl⟩ := List.mem_map.mp hi
    have hret := (hrun.result p hp).2.1
    simp only [returnable, Bool.false_or, Bool.and_eq_true, Bool.not_eq_true'] at hret
    exact hret.1
  · intro i hi
    obtain ⟨p, hp, rfl⟩ := List.mem_map.mp hi
    have hret := (hrun.result p hp).2.1
    simp only [returnable, Bool.false_or, Bool.and_eq_true] at hret
    exact hret.2

private theorem WellFormed.searchKnn_hits (h : s.WellFormed) (P : Platform V D) (q : V) (k : Nat)
    (isIdAllowed : Option (LabelType → Bool)) :
    ∃ answer ids, searchKnn P s q k isIdAllowed = .ok answer ∧ Hits P s q k isIdAllowed answer ids := by
  rcases Nat.eq_zero_or_pos s.curElementCount with h0 | hpos
  · refine ⟨P.answers.empty, [], by rw [searchKnn, if_pos h0], ?_⟩
    constructor <;> simp
  · obtain ⟨e, b, hrun⟩ := h.knnRun hpos P q k isIdAllowed
    obtain ⟨ids, hids⟩ := hrun.hits h.graph
    exact ⟨_, ids, hrun.answer, hids⟩

private theorem searchKnnCloserFirst_of_searchKnn {answer : P.answers.Carrier}
    (h : searchKnn P s q k isIdAllowed = .ok answer) :
    ∃ sorted, searchKnnCloserFirst P s q k isIdAllowed = .ok sorted ∧
      (sorted : Multiset (D × LabelType)) = P.answers.elems answer ∧
      sorted.Pairwise fun a b => a.1 ≤ b.1 := by
  refine ⟨(P.answers.drain answer).reverse, by rw [searchKnnCloserFirst, h], ?_, ?_⟩
  · rw [Multiset.coe_reverse, PriorityQueue.coe_drain]
  · rw [List.pairwise_reverse]
    exact drain_lexLess_descending P.answers answer

/-- In every state of a run, a query with any `ef_` returns at most `k` pairs. They belong to
distinct live elements that the filter accepts, and give the distance of the vector stored under
their label. -/
theorem searchKnn_sound (h : Reachable P FreshReplacement s) (ef : Nat) (q : V) (k : Nat)
    (isIdAllowed : Option (LabelType → Bool)) :
    ∃ (answer : P.answers.Carrier) (ids : List TableInt),
      searchKnn P (s.setEf ef) q k isIdAllowed = .ok answer ∧
      ids.Nodup ∧ ids.length ≤ k ∧
      P.answers.elems answer = (ids.map fun i =>
        (P.fstdistfunc q (s.getDataByInternalId i), s.getExternalLabel i) : List (D × LabelType)) ∧
      (∀ i ∈ ids, s.labelLookup (s.getExternalLabel i) = some i ∧ s.isMarkedDeleted i = false ∧
        accepts isIdAllowed (s.getExternalLabel i) = true) ∧
      ∃ sorted, searchKnnCloserFirst P (s.setEf ef) q k isIdAllowed = .ok sorted ∧
        (sorted : Multiset (D × LabelType)) = P.answers.elems answer ∧
        sorted.Pairwise fun a b => a.1 ≤ b.1 := by
  obtain ⟨answer, ids, hok, hids⟩ := (h.wellFormed.setEf ef).searchKnn_hits P q k isIdAllowed
  refine ⟨answer, ids, hok, hids.nodup, hids.length_le, hids.pairs, fun i hi => ?_,
    searchKnnCloserFirst_of_searchKnn hok⟩
  exact ⟨h.labelled.lookup i (hids.lt i hi), hids.live i hi, hids.accepted i hi⟩

/-- A query of three elements, one of them deleted, with a filter. -/
theorem searchKnn_sound_points : ∃ (s : Index (ℤ × ℤ × ℤ)) (answer : pointPlatform.answers.Carrier)
    (ids : List TableInt), s.numDeleted = 1 ∧ Reachable pointPlatform FreshReplacement s ∧
      searchKnn pointPlatform (s.setEf 1) (4, 0, 0) 2 (some fun label => label != 7) = .ok answer ∧
      ids.Nodup ∧ ids.length ≤ 2 ∧ ∀ i ∈ ids, s.labelLookup (s.getExternalLabel i) = some i ∧
        s.isMarkedDeleted i = false ∧ (s.getExternalLabel i != 7) = true := by
  obtain ⟨s, hreach, -, hdeleted⟩ := exists_points true
  obtain ⟨answer, ids, hok, hnodup, hlen, -, hids, -⟩ := searchKnn_sound hreach 1 (4, 0, 0) 2
    (some fun label => label != 7)
  exact ⟨s, answer, ids, hdeleted, hreach, hok, hnodup, hlen, hids⟩

/-- After a first insertion that is denied its list, a query reads the record of an entry point that
is not there, and answers with the label it finds. -/
theorem searchKnn_denied_unknown : ∃ (s : Index (ℤ × ℤ × ℤ)) (answer : pointPlatform.answers.Carrier),
    Attempted pointPlatform (fun _ => True) (fun _ op _ => ∃ x label, op = .addPoint x label false)
      s ∧
    (s.curElementCount = 1 ∧ s.enterpointNode = none ∧ s.entry = 0xFFFFFFFF) ∧
    searchKnn pointPlatform s (4, 0, 0) 1 none = .ok answer ∧
    pointPlatform.answers.drain answer = [(16, 0)] ∧ s.labelLookup 0 = none := by
  refine ⟨_, _, denied_attempted 7 trivial ⟨_, _, rfl⟩, ⟨rfl, rfl, rfl⟩, rfl, ?_, rfl⟩
  decide +kernel

private theorem met_layerGraph (b : Beam P.queues σ) :
    BestFirst.met (layerGraph P s q 0 (s.returnable false isIdAllowed)) b =
      b.visited.filter fun i =>
        s.isMarkedDeleted i = false ∧ accepts isIdAllowed (s.getExternalLabel i) = true := by
  apply Finset.filter_congr
  intro i _
  simp [layerGraph, returnable]

open Classical in
private theorem exists_reached (hg : s.GraphInv) (hep : s.AtLevel 0 ep)
    (isIdAllowed : Option (LabelType → Bool)) :
    ∃ R : Finset TableInt, ∀ i, i ∈ R ↔ s.LinkReach 0 ep i ∧ s.isMarkedDeleted i = false ∧
      accepts isIdAllowed (s.getExternalLabel i) = true := by
  refine ⟨(Finset.range s.curElementCount).filter fun i => s.LinkReach 0 ep i ∧
    s.isMarkedDeleted i = false ∧ accepts isIdAllowed (s.getExternalLabel i) = true, fun i => ?_⟩
  rw [Finset.mem_filter, Finset.mem_range, and_iff_right_iff_imp]
  exact fun hi => (LinkReach.atLevel hi.1 hg hep).1

/-- The answer has `k` pairs, or as many as there are live accepted elements in reach. Its distances
are the least of all that the search has evaluated, and the least of all in reach if these fit
into the queue. -/
theorem searchKnn_complete (h : s.WellFormed) (hpos : 0 < s.curElementCount) (P : Platform V D)
    (q : V) (k : Nat) (isIdAllowed : Option (LabelType → Bool)) :
    ∃ (e : TableInt) (b : Beam P.queues Unit) (answer : P.answers.Carrier) (R : Finset TableInt),
      descentEnd P s q true 0 = .ok e ∧
      searchBaseLayerSTBeam P s (s.bareBoneSearch isIdAllowed) e q (max s.ef k) isIdAllowed
        (none : Option (StopCondition V D Unit)) () = .ok b ∧
      searchKnn P s q k isIdAllowed = .ok answer ∧
      (∀ i, i ∈ R ↔ s.LinkReach 0 e i ∧ s.isMarkedDeleted i = false ∧
        accepts isIdAllowed (s.getExternalLabel i) = true) ∧
      P.answers.size answer = min k R.card ∧
      (P.answers.elems answer).map Prod.fst = smallest k ((b.visited.filter fun i =>
          s.isMarkedDeleted i = false ∧ accepts isIdAllowed (s.getExternalLabel i) = true).val.map
        fun i => P.fstdistfunc q (s.getDataByInternalId i)) ∧
      (R.card ≤ max s.ef k → (P.answers.elems answer).map Prod.fst =
        smallest k (R.val.map fun i => P.fstdistfunc q (s.getDataByInternalId i))) := by
  obtain ⟨e, b, hrun⟩ := h.knnRun hpos P q k isIdAllowed
  obtain ⟨R, hR⟩ := exists_reached h.graph hrun.start isIdAllowed
  refine ⟨e, b, _, R, hrun.descent, hrun.search, hrun.answer, hR, ?_⟩
  have hdists : (P.answers.elems (knnAnswer P s b.topCandidates k)).map Prod.fst =
      (P.queues.far.elems (P.queues.far.popTo k b.topCandidates)).map Prod.fst := by
    rw [elems_knnAnswer, Multiset.map_map]
    rfl
  have hcard : P.answers.size (knnAnswer P s b.topCandidates k) =
      ((P.answers.elems (knnAnswer P s b.topCandidates k)).map Prod.fst).card := by
    rw [Multiset.card_map, PriorityQueue.size]
  rw [hcard, ← met_layerGraph]
  rcases Nat.eq_zero_or_pos (max s.ef k) with h0 | hef
  · -- nothing is asked for
    obtain rfl : k = 0 := by omega
    have hnone : ∀ t : Multiset D, smallest 0 t = 0 := fun t => by
      rw [← Multiset.card_eq_zero, card_smallest, Nat.zero_min]
    have hzero := Nat.le_zero.mp (size_knnAnswer_le P s b.topCandidates 0)
    rw [PriorityQueue.size, Multiset.card_eq_zero] at hzero
    rw [hzero, hnone, hnone]
    simp
  · have hnear := hrun.beam.nearest hef
    have hreach : ∀ i, i ∈ R ↔ BestFirst.Reach
        (layerGraph P s q 0 (s.returnable false isIdAllowed)) e i ∧
        (layerGraph P s q 0 (s.returnable false isIdAllowed)).eligible i = true := by
      intro i
      rw [hR]
      simp [layerGraph, returnable, LinkReach, BestFirst.Reach]
    obtain ⟨hsub, hmet⟩ := hnear.met_eq hrun.beam.sound (hrun.beam.all hef) hreach
    have hle := Finset.card_le_card hsub
    rw [hdists, hnear.popTo_smallest hrun.beam.sound (le_max_right _ _)]
    refine ⟨?_, rfl, fun hfits => by rw [hmet (Or.inr hfits)]; rfl⟩
    rw [card_smallest, Multiset.card_map, Finset.card_val]
    rcases Nat.lt_or_ge (BestFirst.met
      (layerGraph P s q 0 (s.returnable false isIdAllowed)) b).card (max s.ef k) with hlt | hge
    · rw [hmet (Or.inl hlt)]
    · omega

/-- A query of three elements, one of them deleted. -/
theorem searchKnn_complete_points : ∃ (s : Index (ℤ × ℤ × ℤ)) (e : TableInt)
    (answer : pointPlatform.answers.Carrier) (R : Finset TableInt),
      s.WellFormed ∧ s.curElementCount = 3 ∧ s.numDeleted = 1 ∧
      descentEnd pointPlatform s (4, 0, 0) true 0 = .ok e ∧
      searchKnn pointPlatform s (4, 0, 0) 2 none = .ok answer ∧
      (∀ i, i ∈ R ↔ s.LinkReach 0 e i ∧ s.isMarkedDeleted i = false) ∧
      pointPlatform.answers.size answer = min 2 R.card := by
  obtain ⟨s, hreach, hcount, hdeleted⟩ := exists_points true
  obtain ⟨e, b, answer, R, hdescent, -, hok, hR, hsize, -⟩ := searchKnn_complete hreach.wellFormed
    (by omega) pointPlatform (4, 0, 0) 2 none
  exact ⟨s, e, answer, R, hreach.wellFormed, hcount, hdeleted, hdescent, hok,
    by simpa [accepts] using hR, hsize⟩

/-- `t` has the elements of `s`, with everything that a query looks at. -/
structure SameElements (s t : Index V) : Prop where
  count : t.curElementCount = s.curElementCount
  numDeleted : t.numDeleted = s.numDeleted
  maxlevel : t.maxlevel = s.maxlevel
  enterpointNode : t.enterpointNode = s.enterpointNode
  data : ∀ i < s.curElementCount, t.getDataByInternalId i = s.getDataByInternalId i
  label : ∀ i < s.curElementCount, t.getExternalLabel i = s.getExternalLabel i
  mark : ∀ i < s.curElementCount, t.isMarkedDeleted i = s.isMarkedDeleted i
  links : ∀ i l, s.AtLevel l i → t.connections i l = s.connections i l

theorem SameElements.setEf {t : Index V} (h : SameElements s t) (ef : Nat) :
    SameElements (s.setEf ef) (t.setEf ef) :=
  ⟨h.count, h.numDeleted, h.maxlevel, h.enterpointNode, h.data, h.label, h.mark, h.links⟩

private theorem SameElements.searchBeam_eq {t : Index V} (h : SameElements s t) (hg : s.GraphInv)
    (hep : s.AtLevel 0 ep) (bareBone : Bool) :
    searchBaseLayerSTBeam P t bareBone ep q ef isIdAllowed (none : Option (StopCondition V D σ)) st =
      searchBaseLayerSTBeam P s bareBone ep q ef isIdAllowed none st := by
  have hat : ∀ i, s.LinkReach 0 ep i → s.AtLevel 0 i := fun i hi => hi.atLevel hg hep
  rw [searchBaseLayerSTBeam, searchBaseLayerSTBeam, h.count]
  apply congrArg liftAbort
  apply BestFirst.search_congr
  · exact fun i hi => h.links i 0 (hat i hi)
  · intro i hi
    simp only [layerGraph, h.data i (hat i hi).1]
  · intro i hi
    simp only [layerGraph, returnable, h.mark i (hat i hi).1, h.label i (hat i hi).1]

theorem SameElements.searchKnnTagged_eq {t : Index V} (h : SameElements s t) (hw : s.WellFormed)
    (hcap : s.curElementCount ≤ t.maxElements) (hef : t.ef = s.ef)
    (hs : s.curElementCount ≤ s.capacities.visitedList)
    (ht : s.curElementCount ≤ t.capacities.visitedList) (P : Platform V D) (q : V)
    (k : Nat) (isIdAllowed : Option (LabelType → Bool)) :
    searchKnnTagged P t q k isIdAllowed = searchKnnTagged P s q k isIdAllowed := by
  rw [hw.searchKnnTagged_eq hs]
  rcases Nat.eq_zero_or_pos s.curElementCount with h0 | hpos
  · rw [searchKnnTagged, searchKnn, if_pos h0, if_pos (h.count.trans h0)]
  · obtain ⟨e, b, hrun⟩ := hw.knnRun hpos P q k isIdAllowed
    obtain ⟨ep, hep⟩ := hw.entry.exists_entry hpos
    have hlevel := hw.entry.level ep hep
    have hextends : Extends s t :=
      ⟨fun _ => hcap, h.count.ge, h.data, fun l i hi => h.links i l hi⟩
    have hdescent : descentEnd P t q true 0 = .ok e := by
      rw [hextends.descentEnd_eq hw.graph hw.cap hep h.enterpointNode h.maxlevel
        (hw.entry.lt ep hep) (by omega), hrun.descent]
    have hbare : t.bareBoneSearch isIdAllowed = s.bareBoneSearch isIdAllowed := by
      rw [bareBoneSearch, bareBoneSearch, h.numDeleted]
    have htags : ∀ i ∈ b.visited, i < t.capacities.visitedList := fun i hi => (hrun.met i hi).trans_le ht
    rw [hrun.answer, searchKnnTagged, if_neg (by rw [h.count]; exact hpos.ne'), hdescent]
    simp only [h.searchBeam_eq hw.graph hrun.start, hbare, hef, hrun.search]
    rw [if_pos htags]
    -- the labels of the results are those of elements
    rw [knnAnswer, knnAnswer]
    refine congrArg _ (congrArg _ (List.map_congr_left fun p hp => ?_))
    rw [h.label p.2 ((hrun.result p hp).1.atLevel hw.graph hrun.start).1]

end HnswRvv.Index
