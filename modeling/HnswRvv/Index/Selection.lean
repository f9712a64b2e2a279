import HnswRvv.Index.Runs

/-!
# Selecting neighbours

`getNeighborsByHeuristic2` tries its candidates from the nearest on and takes one unless an earlier
choice is nearer to it than the query is. What it selects is a matter of the candidates alone; the
heaps it works with leave no trace. `mutuallyConnectNewElement` writes one such selection for the
element and at most one for each neighbour, and touches nothing else.
-/

namespace HnswRvv.Index

open Framework OrderDual
set_option linter.unusedSectionVars false

variable {V D : Type} [Inhabited V] [LinearOrder D] {P : Platform V D} {s s' : Index V}

/-- Candidates are tried by distance, and at equal distance the larger id first. -/
def TriedBefore (a b : D × TableInt) : Prop := a.1 < b.1 ∨ a.1 = b.1 ∧ b.2 < a.2

instance : DecidableRel (TriedBefore : D × TableInt → D × TableInt → Prop) :=
  fun a b => inferInstanceAs (Decidable (a.1 < b.1 ∨ a.1 = b.1 ∧ b.2 < a.2))

theorem TriedBefore.asymm {a b : D × TableInt} (h : TriedBefore a b) : ¬ TriedBefore b a := by
  rintro (h' | ⟨h', hid'⟩)
  · rcases h with h | ⟨h, -⟩
    · exact lt_asymm h h'
    · exact h'.ne h.symm
  · rcases h with h | ⟨-, hid⟩
    · exact h.ne h'.symm
    · exact lt_asymm hid hid'

/-- A candidate as it was before its distance was turned around. -/
def unturned (p : Dᵒᵈ × TableInt) : D × TableInt := (ofDual p.1, p.2)

private theorem lexLess_iff_triedBefore {a b : Dᵒᵈ × TableInt} :
    LexLess b a ↔ TriedBefore (unturned a) (unturned b) :=
  or_congr Iff.rfl (and_congr_left' eq_comm)

private theorem coe_unturned_closestOrder (top : P.queues.far.Carrier) :
    (((closestOrder P top).map unturned : List (D × TableInt)) : Multiset (D × TableInt)) =
      P.queues.far.elems top := coe_closestOrder P top

private theorem closestOrder_pairwise {top : P.queues.far.Carrier} (hids : (queueIds P top).Nodup) :
    (closestOrder P top).Pairwise fun a b => TriedBefore (unturned a) (unturned b) := by
  have hsorted : (closestOrder P top).Pairwise fun a b => ¬ LexLess a b := P.closest.drain_pairwise _
  have hdistinct : (closestOrder P top).Pairwise fun a b => a.2 ≠ b.2 := by
    rw [queueIds, ← coe_unturned_closestOrder, Multiset.map_coe, List.map_map,
      Multiset.coe_nodup] at hids
    exact List.pairwise_map.mp hids
  refine (hsorted.and hdistinct).imp fun {a b} h => lexLess_iff_triedBefore.mp ?_
  rcases (not_lexLess_iff a b).mp h.1 with hlt | ⟨heq, hle⟩
  · exact Or.inl hlt
  · exact Or.inr ⟨heq.symm, lt_of_le_of_ne hle h.2.symm⟩

private theorem closestOrder_congr {P' : Platform V D} {top : P.queues.far.Carrier}
    {top' : P'.queues.far.Carrier} (h : P'.queues.far.elems top' = P.queues.far.elems top) :
    closestOrder P' top' = closestOrder P top := by
  have hperm : (closestOrder P' top').Perm (closestOrder P top) := by
    have hmap : ((closestOrder P' top').map unturned).Perm ((closestOrder P top).map unturned) := by
      rw [← Multiset.coe_eq_coe, coe_unturned_closestOrder, coe_unturned_closestOrder, h]
    have hback := hmap.map fun p : D × TableInt => ((toDual p.1, p.2) : Dᵒᵈ × TableInt)
    simpa [List.map_map, Function.comp_def, unturned] using hback
  refine hperm.eq_of_pairwise ?_ (P'.closest.drain_pairwise _) (P.closest.drain_pairwise _)
  intro a b _ _ hab hba
  rcases (not_lexLess_iff a b).mp hab with hlt | ⟨heq, hle⟩
  · rcases (not_lexLess_iff b a).mp hba with hlt' | ⟨heq', -⟩
    · exact absurd hlt' (lt_asymm hlt)
    · exact absurd heq' hlt.ne
  · rcases (not_lexLess_iff b a).mp hba with hlt' | ⟨-, hle'⟩
    · exact absurd heq hlt'.ne
    · exact Prod.ext heq (le_antisymm hle' hle)

/-- The distance between two candidates. -/
def candidateDist (P : Platform V D) (s : Index V) (r e : TableInt) : D :=
  P.fstdistfunc (s.getDataByInternalId r) (s.getDataByInternalId e)

private theorem selectClosest_selected (M : Nat) (rest kept : List (Dᵒᵈ × TableInt))
    (hkept : kept.Pairwise fun r e => ofDual e.1 ≤ candidateDist P s r.2 e.2) :
    (selectClosest P s M rest kept).Pairwise fun r e => ofDual e.1 ≤ candidateDist P s r.2 e.2 := by
  induction rest generalizing kept with
  | nil => exact hkept
  | cons cur rest ih =>
    rw [selectClosest]
    split
    · exact hkept
    · split
      · exact ih kept hkept
      · next hgood =>
        refine ih (kept ++ [cur]) (List.pairwise_append.mpr ⟨hkept, List.pairwise_singleton _ _, ?_⟩)
        intro r hr e he
        rw [List.mem_singleton] at he
        subst he
        by_contra hlt
        exact hgood (List.any_eq_true.mpr ⟨r, hr, decide_eq_true (not_le.mp hlt)⟩)

private theorem selectClosest_unselected {M : Nat} {rest kept : List (Dᵒᵈ × TableInt)}
    (hsorted : (kept ++ rest).Pairwise fun a b => TriedBefore (unturned a) (unturned b))
    {e : Dᵒᵈ × TableInt} (he : e ∈ rest) (hnot : e ∉ selectClosest P s M rest kept) :
    (∃ r ∈ selectClosest P s M rest kept, TriedBefore (unturned r) (unturned e) ∧
      candidateDist P s r.2 e.2 < ofDual e.1) ∨
    M ≤ ((selectClosest P s M rest kept).filter fun r =>
      decide (TriedBefore (unturned r) (unturned e))).length := by
  induction rest generalizing kept with
  | nil => exact absurd he List.not_mem_nil
  | cons cur rest ih =>
    have hbefore : ∀ r ∈ kept, TriedBefore (unturned r) (unturned e) := fun r hr =>
      (List.pairwise_append.mp hsorted).2.2 r hr e he
    rw [selectClosest] at hnot ⊢
    split at hnot
    · next hfull =>
      rw [if_pos hfull, List.filter_eq_self.mpr fun r hr => decide_eq_true (hbefore r hr)]
      exact Or.inr hfull
    · next hroom =>
      rw [if_neg hroom]
      split at hnot
      · next hbad =>
        rw [if_pos hbad]
        rcases List.mem_cons.mp he with rfl | he
        · obtain ⟨r, hr, hlt⟩ := List.any_eq_true.mp hbad
          obtain ⟨l, hsel, -⟩ := selectClosest_spec P s M rest kept
          refine Or.inl ⟨r, ?_, hbefore r hr, of_decide_eq_true hlt⟩
          rw [hsel]
          exact List.mem_append_left l hr
        · exact ih (hsorted.sublist ((List.sublist_cons_self cur rest).append_left kept)) he hnot
      · next hgood =>
        rw [if_neg hgood]
        rcases List.mem_cons.mp he with rfl | he
        · obtain ⟨l, hsel, -⟩ := selectClosest_spec P s M rest (kept ++ [e])
          exact absurd (by rw [hsel]; simp) hnot
        · exact ih (by rwa [List.append_assoc, List.singleton_append]) he hnot

/-- A selection of at most `M` candidates in the sense of the heuristic. -/
structure HeuristicSelection (P : Platform V D) (s : Index V) (M : Nat)
    (candidates selection : Multiset (D × TableInt)) : Prop where
  subset : selection ≤ candidates
  pos : 1 ≤ selection.card
  le : selection.card ≤ M
  nearest : ∃ p ∈ selection, ∀ r ∈ candidates, p.1 ≤ r.1
  selected : ∀ e ∈ selection, ∀ r ∈ selection, TriedBefore r e → e.1 ≤ candidateDist P s r.2 e.2
  unselected : ∀ e ∈ candidates, e ∉ selection →
    (∃ r ∈ selection, TriedBefore r e ∧ candidateDist P s r.2 e.2 < e.1) ∨
      M ≤ (selection.filter fun r => TriedBefore r e).card

private theorem heuristicSelection {top : P.queues.far.Carrier} {M : Nat} (hM : 1 ≤ M)
    (hids : (queueIds P top).Nodup) (hsize : M ≤ P.queues.far.size top) :
    HeuristicSelection P s M (P.queues.far.elems top)
      (P.queues.far.elems (getNeighborsByHeuristic2 P s top M)) := by
  have hne : P.queues.far.elems top ≠ 0 := Multiset.card_pos.mp (Nat.lt_of_lt_of_le hM hsize)
  have hsorted := closestOrder_pairwise hids
  have hsel : P.queues.far.elems (getNeighborsByHeuristic2 P s top M) =
      ((selectClosest P s M (closestOrder P top) []).map unturned : List (D × TableInt)) :=
    elems_heuristic P s top M hsize
  obtain ⟨p, -, hmin, hp⟩ := exists_nearest_heuristic P s hM hne
  refine ⟨elems_heuristic_le P s top M, ?_, size_heuristic_le P s top M, ⟨p, hp, hmin⟩, ?_, ?_⟩
  · exact Multiset.card_pos.mpr (heuristic_ne_zero P s hM hne)
  · intro e he r hr hbefore
    rw [hsel, Multiset.mem_coe, List.mem_map] at he hr
    obtain ⟨e, he, rfl⟩ := he
    obtain ⟨r, hr, rfl⟩ := hr
    -- what is selected is listed in the order of the trials
    obtain ⟨l, hl, hsub, -⟩ := selectClosest_spec P s M (closestOrder P top) []
    have hordered := hsorted.sublist hsub
    rw [List.nil_append] at hl
    rw [← hl] at hordered
    have hgood := selectClosest_selected (P := P) (s := s) M (closestOrder P top) []
      List.Pairwise.nil
    refine List.Pairwise.forall_of_forall_of_flip
      (R := fun r e => TriedBefore (unturned r) (unturned e) →
        ofDual e.1 ≤ candidateDist P s r.2 e.2)
      (fun _ _ h => absurd h h.asymm) ?_ ?_ hr he hbefore
    · exact hgood.imp fun {a b} h (_ : TriedBefore (unturned a) (unturned b)) => h
    · exact hordered.imp fun {a b} h (h' : TriedBefore (unturned b) (unturned a)) =>
        absurd h' h.asymm
  · intro e he hnot
    rw [← coe_unturned_closestOrder, Multiset.mem_coe, List.mem_map] at he
    obtain ⟨e, he, rfl⟩ := he
    rw [hsel] at hnot ⊢
    have hnotin : e ∉ selectClosest P s M (closestOrder P top) [] := fun hmem =>
      hnot (Multiset.mem_coe.mpr (List.mem_map_of_mem hmem))
    rcases selectClosest_unselected hsorted he hnotin with ⟨r, hr, hbefore, hlt⟩ | hfull
    · exact Or.inl ⟨unturned r, Multiset.mem_coe.mpr (List.mem_map_of_mem hr), hbefore, hlt⟩
    · refine Or.inr ?_
      rw [Multiset.filter_coe, List.filter_map, Multiset.coe_card, List.length_map]
      exact hfull

private theorem elems_heuristic_congr {P' : Platform V D} (hdist : P'.fstdistfunc = P.fstdistfunc) {M : Nat}
    {top : P.queues.far.Carrier} {top' : P'.queues.far.Carrier}
    (h : P'.queues.far.elems top' = P.queues.far.elems top) :
    P'.queues.far.elems (getNeighborsByHeuristic2 P' s top' M) =
      P.queues.far.elems (getNeighborsByHeuristic2 P s top M) := by
  have hselect : ∀ rest kept, selectClosest P' s M rest kept = selectClosest P s M rest kept := by
    intro rest
    induction rest with
    | nil => exact fun kept => rfl
    | cons cur rest ih =>
      intro kept
      rw [selectClosest, selectClosest, hdist, ih, ih]
  have hsize : P'.queues.far.size top' = P.queues.far.size top := congrArg Multiset.card h
  rcases Nat.lt_or_ge (P.queues.far.size top) M with hlt | hge
  · rw [getNeighborsByHeuristic2, if_pos (hsize ▸ hlt), getNeighborsByHeuristic2, if_pos hlt, h]
  · rw [elems_heuristic P' s top' M (hsize ▸ hge), elems_heuristic P s top M hge,
      closestOrder_congr h, hselect]

/-- The heuristic leaves fewer than `M` candidates alone and selects from more by its two rules;
two heaps with the same candidates get the same selection. -/
theorem getNeighborsByHeuristic2_selects (P : Platform V D) (s : Index V)
    (top : P.queues.far.Carrier) (M : Nat) (hM : 1 ≤ M) (hids : (queueIds P top).Nodup) :
    (P.queues.far.size top < M → getNeighborsByHeuristic2 P s top M = top) ∧
    (M ≤ P.queues.far.size top → HeuristicSelection P s M (P.queues.far.elems top)
      (P.queues.far.elems (getNeighborsByHeuristic2 P s top M))) ∧
    ∀ (P' : Platform V D) (top' : P'.queues.far.Carrier), P'.fstdistfunc = P.fstdistfunc →
      P'.queues.far.elems top' = P.queues.far.elems top →
      P'.queues.far.elems (getNeighborsByHeuristic2 P' s top' M) =
        P.queues.far.elems (getNeighborsByHeuristic2 P s top M) := by
  refine ⟨fun hlt => ?_, heuristicSelection hM hids, fun P' top' hdist h =>
    elems_heuristic_congr hdist h⟩
  rw [getNeighborsByHeuristic2, if_pos hlt]

private theorem exists_linePoints : ∃ s : Index (ℤ × ℤ × ℤ),
    Reachable pointPlatform (fun _ _ _ => True) s ∧ s.curElementCount = 3 := by
  have hrun : ∃ s, afterOps pointPlatform
      [(.addPoint (2, 0, 0) 7 false, plainChoices 0), (.addPoint (-3, 0, 0) 8 false, plainChoices 0),
        (.addPoint (4, 0, 0) 9 false, plainChoices 0)] (emptyPoints false) = some s ∧
      s.curElementCount = 3 := Option.map_eq_some_iff.mp (by decide +kernel)
  exact (emptyPoints_reachable (fun _ _ _ => True) false).exists_afterOps
    (by simp [plainChoices_allocates]) hrun

/-- Two of three candidates on a line, the nearest and the one on its other side. -/
theorem getNeighborsByHeuristic2_selects_points : ∃ (s : Index (ℤ × ℤ × ℤ)),
    s.curElementCount = 3 ∧
    HeuristicSelection pointPlatform s 2 {(4, 0), (9, 1), (16, 2)}
      (pointPlatform.queues.far.elems
        (getNeighborsByHeuristic2 pointPlatform s [(4, 0), (9, 1), (16, 2)] 2)) := by
  obtain ⟨s, -, hcount⟩ := exists_linePoints
  exact ⟨s, hcount, (getNeighborsByHeuristic2_selects pointPlatform s [(4, 0), (9, 1), (16, 2)] 2
    (by decide) (by decide)).2.1 (by decide)⟩

/-- Mutual linking gives `curC` the neighbours the heuristic selects, each of them a link back
within its limit, and changes nothing else; it returns a nearest candidate. -/
theorem mutuallyConnectNewElement_effect (h : s.WellFormed) (l : Nat) (curC : TableInt)
    (isUpdate : Bool) (q : P.queues.far.Carrier) (hq : CandidatesFit P s curC l q)
    (hne : P.queues.far.elems q ≠ 0)
    (hblank : isUpdate = false → BlankList (s.getLinklistAtLevel curC l) s.M) :
    ∃ next s', mutuallyConnectNewElement P curC q l isUpdate s = .ok next s' ∧
      s'.connections curC l = selectedNeighbors P s q ∧
      (selectedNeighbors P s q).length ≤ s.M ∧
      (∀ o ∈ selectedNeighbors P s q, s'.connections o l =
        if isUpdate = true ∧ curC ∈ s.connections o l then s.connections o l
        else if (s.connections o l).length < s.maxLinks l then s.connections o l ++ [curC]
        else poppedIds P (getNeighborsByHeuristic2 P s
          (backLinkCandidates P s curC o (s.connections o l)) (s.maxLinks l))) ∧
      (∀ j l', j ≠ curC ∧ j ∉ selectedNeighbors P s q ∨ l' ≠ l →
        s'.getLinklistAtLevel j l' = s.getLinklistAtLevel j l') ∧
      (∀ j, s'.isMarkedDeleted j = s.isMarkedDeleted j ∧
        s'.getExternalLabel j = s.getExternalLabel j ∧
        s'.getDataByInternalId j = s.getDataByInternalId j ∧ s'.level j = s.level j) ∧
      s' = { s with dataLevel0Memory := s'.dataLevel0Memory, linkLists := s'.linkLists } ∧
      ∃ d, (d, next) ∈ P.queues.far.elems q ∧ ∀ r ∈ P.queues.far.elems q, d ≤ r.1 := by
  have hwp := wp_mutuallyConnectNewElement_linked h.graph h.params hq hblank
  obtain ⟨next, s', hrun, hlinked, hnearest⟩ :=
    exists_ok_of_wp (wp_mono hwp (fun _ _ hok => hok) fun _ _ he => hne he.2.2)
  have hrec := hlinked.records
  refine ⟨next, s', hrun, hlinked.forward, ?_, hlinked.back, hlinked.frame, fun j => ?_, hrec.fields,
    hnearest⟩
  · rw [selectedNeighbors, length_poppedIds]
    exact size_heuristic_le P s q s.M
  · exact ⟨hrec.mark j, hrec.label j, hrec.data j, hrec.level j⟩

/-- The third of three points linked anew to the other two. -/
theorem mutuallyConnectNewElement_effect_points : ∃ (s s' : Index (ℤ × ℤ × ℤ)) (next : TableInt),
    s.curElementCount = 3 ∧
    mutuallyConnectNewElement pointPlatform 2 [(4, 0), (49, 1)] 0 true s = .ok next s' ∧
    s'.connections 2 0 = selectedNeighbors pointPlatform s [(4, 0), (49, 1)] := by
  obtain ⟨s, hreach, hcount⟩ := exists_linePoints
  have hfit : CandidatesFit pointPlatform s 2 0 [(4, 0), (49, 1)] := by
    refine ⟨by decide, fun j hj => ?_⟩
    have hj : j = 0 ∨ j = 1 := by
      rw [← List.mem_pair]
      exact hj
    rcases hj with rfl | rfl <;> exact ⟨⟨by rw [hcount]; decide, Nat.zero_le _⟩, by decide⟩
  obtain ⟨next, s', hok, hforward, -⟩ := mutuallyConnectNewElement_effect (P := pointPlatform)
    hreach.wellFormed 0 2 true [(4, 0), (49, 1)] hfit (by decide) nofun
  exact ⟨s, s', next, hcount, hok, hforward⟩

end HnswRvv.Index
