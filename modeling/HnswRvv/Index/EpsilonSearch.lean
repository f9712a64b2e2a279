import HnswRvv.Framework.Accounting
import HnswRvv.Index.StopCondition

/-!
# Search within a distance

`EpsilonSearchStopCondition` counts the results of the base-layer search that it steers, and cuts
what is too far away off the answer. The count agrees with the queue whenever it is used. If the
search is not to stop before it has seen as many elements as there are to be found, the answer holds
every one of them that is near enough.
-/

namespace HnswRvv.Index

open Framework OrderDual
set_option linter.unusedSectionVars false

variable {V D F : Type} [Inhabited V] [LinearOrder D] [LinearOrder F] {P : Platform V D}
  {s : Index V} {q : V} {isIdAllowed : Option (LabelType → Bool)}

/-- `EpsilonSearchStopCondition`, with `curr_num_items_` as its state. A distance is converted to
the type of `epsilon_` before the two are compared. -/
def epsilonSearchStopCondition (V : Type) (toFloat : D →o F) (epsilon : F)
    (minNumCandidates maxNumCandidates : Nat) : StopCondition V D Nat where
  addPointToResult currNumItems _ _ _ := currNumItems + 1
  removePointFromResult currNumItems _ _ _ := currNumItems - 1
  shouldStopSearch currNumItems candidateDist lowerBound :=
    (if lowerBound < candidateDist ∧ currNumItems = maxNumCandidates then true
      else decide (epsilon < toFloat candidateDist ∧ minNumCandidates ≤ currNumItems), currNumItems)
  shouldConsiderCandidate currNumItems candidateDist lowerBound :=
    (decide (currNumItems < maxNumCandidates ∨ candidateDist < lowerBound), currNumItems)
  shouldRemoveExtra currNumItems := (decide (maxNumCandidates < currNumItems), currNumItems)
  filterResults currNumItems candidates :=
    ((candidates.rdropWhile fun p => decide (epsilon < toFloat p.1)).take maxNumCandidates,
      currNumItems)
  filterResults_sublist _ _ :=
    (List.take_sublist _ _).trans (List.rdropWhile_prefix _ _).sublist

section Search

variable {toFloat : D →o F} {epsilon : F} {minNumCandidates maxNumCandidates : Nat}
  {ep : TableInt}

variable (P s q isIdAllowed toFloat epsilon minNumCandidates maxNumCandidates) in
private theorem epsilon_accounts (ep : TableInt) :
    BestFirst.Accounts P.queues (layerGraph P s q 0 (s.returnable false isIdAllowed))
      (searchPolicy s false 0 (some (epsilonSearchStopCondition V toFloat epsilon minNumCandidates
        maxNumCandidates))) ep
      (fun b => b.state = P.queues.far.size b.topCandidates)
      (fun _ _ top currNumItems => currNumItems = P.queues.far.size top) where
  next b c b' hcount hn := by
    rw [BestFirst.next_inr_state (fun _ _ _ _ => rfl) hn, (BestFirst.next_inr hn).1]
    exact hcount
  pass b c hcount _ _ := hcount
  admits b c hcount _ _ _ _ := by
    unfold BestFirst.admitted
    split
    · rw [P.queues.far.size_push, ← hcount]
      rfl
    · exact hcount
  shed b c top currNumItems hcount hremove := by
    have hmore : maxNumCandidates < currNumItems := of_decide_eq_true hremove
    obtain ⟨p, hp⟩ := P.queues.far.exists_top (q := top) fun hnone => by
      rw [PriorityQueue.size, hnone, Multiset.card_zero] at hcount
      omega
    refine ⟨p, hp, ?_⟩
    have hpop := P.queues.far.size_pop hp
    change currNumItems - 1 = _
    omega
  settle b c top currNumItems hcount _ := hcount

variable (P s q isIdAllowed toFloat epsilon minNumCandidates maxNumCandidates) in
private theorem epsilon_start (maxDist : D) (ep : TableInt) :
    (BestFirst.start P.queues (layerGraph P s q 0 (s.returnable false isIdAllowed))
      (searchPolicy s false 0 (some (epsilonSearchStopCondition V toFloat epsilon minNumCandidates
        maxNumCandidates))) maxDist ep 0).state =
    P.queues.far.size (BestFirst.start P.queues
      (layerGraph P s q 0 (s.returnable false isIdAllowed))
      (searchPolicy s false 0 (some (epsilonSearchStopCondition V toFloat epsilon minNumCandidates
        maxNumCandidates))) maxDist ep 0).topCandidates := by
  unfold BestFirst.start
  split
  · rw [P.queues.far.size_push, P.queues.far.size_empty]
    rfl
  · exact P.queues.far.size_empty.symm

/-- While there is something to be found that is not in the queue, the search goes on and loses
nothing. -/
theorem epsilon_completes (hle : minNumCandidates ≤ maxNumCandidates) {R : Finset TableInt}
    (hR : R.card ≤ minNumCandidates) :
    BestFirst.Completes R
      (searchPolicy s false 0 (some (epsilonSearchStopCondition V toFloat epsilon minNumCandidates
        maxNumCandidates)))
      (fun b : Beam P.queues Nat => b.state = P.queues.far.size b.topCandidates)
      (fun _ _ top currNumItems => currNumItems = P.queues.far.size top) where
  stop b d hcount hstop := by
    rw [← hcount]
    simp only [searchPolicy, epsilonSearchStopCondition, Bool.false_eq_true, if_false] at hstop
    split at hstop
    · next hfull => omega
    · have hseen := (of_decide_eq_true hstop).2
      omega
  follow b d hcount hroom := by
    apply decide_eq_true
    rw [← hcount] at hroom
    exact .inl (by omega)
  keep b c top currNumItems hcount hroom := by
    apply decide_eq_false
    omega

end Search

/-- Cutting off the back of a list whose entries get worse leaves those that are good. -/
theorem mem_rdropWhile {α : Type} {bad : α → Bool} {l : List α}
    (hl : l.Pairwise fun a b => bad a = true → bad b = true) {x : α} :
    x ∈ l.rdropWhile bad ↔ x ∈ l ∧ bad x = false := by
  induction l using List.reverseRecOn with
  | nil => simp
  | append_singleton l a ih =>
    obtain ⟨hfront, -, hlast⟩ := List.pairwise_append.mp hl
    rw [List.rdropWhile_concat]
    split
    · next hbad =>
      rw [ih hfront, List.mem_append, List.mem_singleton]
      constructor
      · exact fun hx => ⟨.inl hx.1, hx.2⟩
      · rintro ⟨hx | rfl, hgood⟩
        · exact ⟨hx, hgood⟩
        · exact absurd (hgood.symm.trans hbad) Bool.false_ne_true
    · next hgood =>
      constructor
      · intro hx
        refine ⟨hx, ?_⟩
        rcases List.mem_append.mp hx with hx | hx
        · by_contra hbad
          exact hgood (hlast x hx a (List.mem_singleton_self a) (Bool.not_eq_false _ ▸ hbad))
        · rw [List.mem_singleton.mp hx]
          exact Bool.not_eq_true _ ▸ hgood
      · exact fun hx => hx.1

private theorem mem_rdropWhile_epsilon (toFloat : D →o F) (epsilon : F) {held : List (D × TableInt)}
    (hascending : held.Pairwise fun a b => a.1 ≤ b.1) (p : D × TableInt) :
    (p ∈ held.rdropWhile fun p => decide (epsilon < toFloat p.1)) ↔
      p ∈ held ∧ toFloat p.1 ≤ epsilon := by
  rw [mem_rdropWhile, decide_eq_false_iff_not, not_lt]
  exact hascending.imp fun hab hbad => decide_eq_true
    ((of_decide_eq_true hbad).trans_le (toFloat.monotone hab))

/-- The elements that an answer may hold: live ones that the filter accepts, where links of level 0
lead from `start`. -/
def Findable (s : Index V) (isIdAllowed : Option (LabelType → Bool)) (start i : TableInt) : Prop :=
  s.LinkReach 0 start i ∧ s.isMarkedDeleted i = false ∧
    accepts isIdAllowed (s.getExternalLabel i) = true

theorem findable_iff {start i : TableInt} : s.Findable isIdAllowed start i ↔
    BestFirst.Reach (layerGraph P s q 0 (s.returnable false isIdAllowed)) start i ∧
      (layerGraph P s q 0 (s.returnable false isIdAllowed)).eligible i = true := by
  simp only [Findable, layerGraph, returnable, Bool.false_or, Bool.and_eq_true, Bool.not_eq_true']
  rfl

/-- What is asked of the answer to a search within `epsilon`. -/
structure EpsilonAnswer (P : Platform V D) (s : Index V) (q : V)
    (isIdAllowed : Option (LabelType → Bool)) (toFloat : D →o F) (epsilon : F)
    (minNumCandidates maxNumCandidates : Nat) (result : List (D × LabelType)) : Prop where
  distinct : (result.map Prod.snd).Nodup
  live : ∀ p ∈ result, p.2 < s.curElementCount ∧ s.isMarkedDeleted p.2 = false
  accepted : ∀ p ∈ result, accepts isIdAllowed (s.getExternalLabel p.2) = true
  dist : ∀ p ∈ result, p.1 = P.fstdistfunc q (s.getDataByInternalId p.2)
  ascending : result.Pairwise fun a b => a.1 ≤ b.1
  within : ∀ p ∈ result, toFloat p.1 ≤ epsilon
  length_le : result.length ≤ maxNumCandidates
  /-- If the search may not stop before it has seen all there is to find, it finds all. -/
  complete : s.curElementCount ≠ 0 → ∀ start, descentEnd P s q true 0 = .ok start →
    ∀ R : Finset TableInt, (∀ i, i ∈ R ↔ s.Findable isIdAllowed start i) →
      R.card ≤ minNumCandidates → ∀ i, i ∈ result.map Prod.snd ↔
        i ∈ R ∧ toFloat (P.fstdistfunc q (s.getDataByInternalId i)) ≤ epsilon

private theorem epsilonAnswer_of_beam {toFloat : D →o F} {epsilon : F}
    {minNumCandidates maxNumCandidates : Nat} {start : TableInt} {b : Beam P.queues Nat}
    (hg : s.GraphInv) (hat : s.AtLevel 0 start) (hstart : descentEnd P s q true 0 = .ok start)
    (hsound : BestFirst.Sound P.queues (layerGraph P s q 0 (s.returnable false isIdAllowed)) start b)
    (hle : minNumCandidates ≤ maxNumCandidates)
    (hall : ∀ R : Finset TableInt, (∀ i, i ∈ R ↔ s.Findable isIdAllowed start i) →
      R.card ≤ minNumCandidates → ∀ i ∈ R,
        (P.fstdistfunc q (s.getDataByInternalId i), i) ∈ P.queues.far.elems b.topCandidates) :
    EpsilonAnswer P s q isIdAllowed toFloat epsilon minNumCandidates maxNumCandidates
      (((P.queues.far.drain b.topCandidates).reverse.rdropWhile
        fun p => decide (epsilon < toFloat p.1)).take maxNumCandidates) := by
  set held := (P.queues.far.drain b.topCandidates).reverse with hheld
  set near := held.rdropWhile fun p => decide (epsilon < toFloat p.1) with hnear
  have hascending : held.Pairwise fun a b => a.1 ≤ b.1 := by
    rw [hheld, List.pairwise_reverse]
    exact drain_fstLess_descending P.queues.far _
  have hmem : ∀ p, p ∈ held ↔ p ∈ P.queues.far.elems b.topCandidates := by
    intro p
    rw [hheld, List.mem_reverse, PriorityQueue.mem_drain]
  have hkept : ∀ p, p ∈ near ↔ p ∈ held ∧ toFloat p.1 ≤ epsilon :=
    mem_rdropWhile_epsilon toFloat epsilon hascending
  have hsub : (near.take maxNumCandidates).Sublist held :=
    (List.take_sublist _ _).trans (List.rdropWhile_prefix _ _).sublist
  have hresult : ∀ p ∈ near.take maxNumCandidates, s.Findable isIdAllowed start p.2 ∧
      p.1 = P.fstdistfunc q (s.getDataByInternalId p.2) := by
    intro p hp
    obtain ⟨hvisited, heligible, hdist⟩ := hsound.result p ((hmem p).mp (hsub.subset hp))
    exact ⟨findable_iff.mpr ⟨hsound.reach p.2 hvisited, heligible⟩, hdist⟩
  have hnodup : (held.map Prod.snd).Nodup := by
    rw [hheld, List.map_reverse, List.nodup_reverse, PriorityQueue.nodup_map_drain]
    exact hsound.nodup
  constructor
  · exact hnodup.sublist (hsub.map Prod.snd)
  · intro p hp
    obtain ⟨⟨hreach, hlive, -⟩, -⟩ := hresult p hp
    exact ⟨(LinkReach.atLevel hreach hg hat).1, hlive⟩
  · exact fun p hp => (hresult p hp).1.2.2
  · exact fun p hp => (hresult p hp).2
  · exact hascending.sublist hsub
  · exact fun p hp => ((hkept p).mp (List.mem_of_mem_take hp)).2
  · exact List.length_take_le _ _
  · intro _ start' hstart' R hR hcard i
    obtain rfl : start = start' := Except.ok.inj (hstart.symm.trans hstart')
    -- all of `R` is held, so that nothing is cut for want of room
    have hroom : near.length ≤ maxNumCandidates := by
      have hlength := Finset.card_le_card
        (hsound.resultIds_subset fun i => (hR i).trans findable_iff)
      rw [hsound.card_resultIds, ← P.queues.far.length_drain, ← List.length_reverse, ← hheld] at hlength
      have hcut : near.length ≤ held.length := (List.rdropWhile_prefix _ _).length_le
      omega
    rw [List.take_of_length_le hroom, List.mem_map]
    constructor
    · rintro ⟨p, hp, rfl⟩
      have hp' : p ∈ near.take maxNumCandidates := by rwa [List.take_of_length_le hroom]
      obtain ⟨hfind, hdist⟩ := hresult p hp'
      exact ⟨(hR p.2).mpr hfind, hdist ▸ ((hkept p).mp hp).2⟩
    · rintro ⟨hi, hwithin⟩
      exact ⟨_, (hkept _).mpr ⟨(hmem _).mpr (hall R hR hcard i hi), hwithin⟩, rfl⟩

/-- The search within `epsilon` answers, its answer is right, and its count agrees with the result
queue at every decision. -/
theorem epsilonSearch_correct (h : s.WellFormed) (P : Platform V D) (q : V)
    (isIdAllowed : Option (LabelType → Bool)) (toFloat : D →o F) (epsilon : F)
    {minNumCandidates maxNumCandidates : Nat} (hle : minNumCandidates ≤ maxNumCandidates) :
    (∃ result currNumItems,
      searchStopConditionClosest P s q (epsilonSearchStopCondition V toFloat epsilon
        minNumCandidates maxNumCandidates) 0 isIdAllowed = .ok (result, currNumItems) ∧
      EpsilonAnswer P s q isIdAllowed toFloat epsilon minNumCandidates maxNumCandidates result) ∧
    ∀ start, BestFirst.SearchAsks P.queues (layerGraph P s q 0 (s.returnable false isIdAllowed))
      (searchPolicy s false 0 (some (epsilonSearchStopCondition V toFloat epsilon minNumCandidates
        maxNumCandidates)))
      (fun topCandidates currNumItems => currNumItems = P.queues.far.size topCandidates)
      s.curElementCount P.maxDist start 0 := by
  refine ⟨?_, fun start => ?_⟩
  · by_cases hempty : s.curElementCount = 0
    · refine ⟨[], 0, by rw [searchStopConditionClosest, if_pos hempty], ?_⟩
      exact ⟨List.nodup_nil, by simp, by simp, by simp, List.Pairwise.nil, by simp, Nat.zero_le _,
        fun hne => absurd hempty hne⟩
    · obtain ⟨ep, start, -, hstart, hat, -⟩ := h.exists_descentEnd (Nat.pos_of_ne_zero hempty) P q
      have haccounts := epsilon_accounts P s q isIdAllowed toFloat epsilon minNumCandidates
        maxNumCandidates start
      have hcount := epsilon_start P s q isIdAllowed toFloat epsilon minNumCandidates
        maxNumCandidates P.maxDist start
      obtain ⟨b, b₀, hsearch, -, -⟩ := haccounts.search (levelElements_closed h.graph 0)
        (mem_levelElements.mpr hat) (card_levelElements_le s 0) hcount
      have hbeam : searchBaseLayerSTBeam P s false start q 0 isIdAllowed
          (some (epsilonSearchStopCondition V toFloat epsilon minNumCandidates maxNumCandidates)) 0 =
          .ok b := by
        rw [searchBaseLayerSTBeam, hsearch]
        rfl
      refine ⟨_, b.state, ?_, epsilonAnswer_of_beam h.graph hat hstart
        (searchBaseLayerSTBeam_sound hbeam) hle fun R hR hcard i hi => ?_⟩
      · rw [searchStopConditionClosest, if_neg hempty, hstart]
        simp only [searchBaseLayerST, hbeam]
        rfl
      · have hgraph : ∀ i, i ∈ R ↔
            BestFirst.Reach (layerGraph P s q 0 (s.returnable false isIdAllowed)) start i ∧
              (layerGraph P s q 0 (s.returnable false isIdAllowed)).eligible i = true :=
          fun i => (hR i).trans findable_iff
        exact (epsilon_completes hle hcard).search haccounts hgraph hcount hsearch hi
  · apply (epsilon_accounts P s q isIdAllowed toFloat epsilon minNumCandidates maxNumCandidates
      start).searchAsks
    · exact fun _ hcount => hcount
    · exact fun _ _ _ _ hcount => hcount
    · exact epsilon_start P s q isIdAllowed toFloat epsilon minNumCandidates maxNumCandidates _ _

/-- Three points at the distances 16, 1 and 25, of which two are within 20. -/
theorem epsilonSearch_correct_points : ∃ s : Index (ℤ × ℤ × ℤ), s.WellFormed ∧
    s.curElementCount = 3 ∧ 3 ≤ 4 ∧
    searchStopConditionClosest pointPlatform s (4, 0, 0)
      (epsilonSearchStopCondition (ℤ × ℤ × ℤ) OrderHom.id 20 3 4) 0 none =
        .ok ([(1, 1), (16, 0)], 3) ∧
    EpsilonAnswer pointPlatform s (4, 0, 0) none OrderHom.id (20 : ℤ) 3 4 [(1, 1), (16, 0)] := by
  have hrun : (afterOps pointPlatform
      [(.addPoint (0, 0, 0) 7 false, plainChoices 1), (.addPoint (5, 0, 0) 8 false, plainChoices 0),
        (.addPoint (9, 0, 0) 9 false, plainChoices 1)] (emptyPoints false)).any fun s =>
        decide (searchStopConditionClosest pointPlatform s (4, 0, 0)
          (epsilonSearchStopCondition (ℤ × ℤ × ℤ) OrderHom.id 20 3 4) 0 none =
            .ok ([(1, 1), (16, 0)], 3)) && decide (s.curElementCount = 3) := by
    decide +kernel
  obtain ⟨s, hreach, hvalues⟩ := (emptyPoints_reachable (fun _ _ _ => True) false).exists_afterOps
    (by simp [plainChoices_allocates]) ((Option.any_eq_true _ _).mp hrun)
  rw [Bool.and_eq_true, decide_eq_true_eq, decide_eq_true_eq] at hvalues
  obtain ⟨hanswer, hcount⟩ := hvalues
  have hw := hreach.wellFormed
  obtain ⟨⟨result, n, hresult, hright⟩, -⟩ := epsilonSearch_correct hw pointPlatform (4, 0, 0) none
    OrderHom.id (20 : ℤ) (show 3 ≤ 4 by decide)
  obtain rfl : [(1, 1), (16, 0)] = result :=
    congrArg Prod.fst (Except.ok.inj (hanswer.symm.trans hresult))
  exact ⟨s, hw, hcount, by decide, hanswer, hright⟩

end HnswRvv.Index
