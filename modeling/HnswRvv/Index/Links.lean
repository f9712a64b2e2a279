import HnswRvv.Index.Insert

/-!
# Writing links

Every link list an operation writes fits its element: not too long, without repetitions, and only
to other elements that exist at the level. `GraphInv` says so of all lists. The operations of this
module change lists and nothing else (`SameRecords`), and only on the level they work on.
-/

namespace HnswRvv.Index

open Framework OrderDual
set_option linter.unusedSectionVars false

variable {V D : Type} [Inhabited V] [LinearOrder D]

def AtLevel (s : Index V) (l : Nat) (i : TableInt) : Prop := i < s.curElementCount ∧ l ≤ s.level i

/-- A list of links that element `i` may hold at level `l`. -/
structure LinksFit (s : Index V) (i : TableInt) (l : Nat) (links : List TableInt) : Prop where
  length_le : links.length ≤ s.maxLinks l
  nodup : links.Nodup
  valid : ∀ j ∈ links, s.AtLevel l j ∧ j ≠ i

theorem length_lt_of_valid {s : Index V} {i : TableInt} {l : Nat} {links : List TableInt}
    (hnodup : links.Nodup) (hvalid : ∀ j ∈ links, s.AtLevel l j ∧ j ≠ i)
    (hi : i < s.curElementCount) : links.length < s.curElementCount := by
  have hsub : links.toFinset ⊆ (Finset.range s.curElementCount).erase i := by
    intro j hj
    obtain ⟨hat, hne⟩ := hvalid j (List.mem_toFinset.mp hj)
    exact Finset.mem_erase.mpr ⟨hne, Finset.mem_range.mpr hat.1⟩
  have hle := Finset.card_le_card hsub
  rw [List.toFinset_card_of_nodup hnodup, Finset.card_erase_of_mem (Finset.mem_range.mpr hi),
    Finset.card_range] at hle
  exact hle.trans_lt (Nat.sub_lt (Nat.zero_lt_of_lt hi) Nat.one_pos)

def GraphInv (s : Index V) : Prop := ∀ i l, s.AtLevel l i → s.LinksFit i l (s.connections i l)

/-- The parameters that the constructor sets when `2 ≤ M`. -/
structure Params (s : Index V) : Prop where
  two_le : 2 ≤ s.M
  le_cap : s.M ≤ 10000
  maxM : s.maxM = s.M
  maxM0 : s.maxM0 = s.M * 2
  efConstruction : s.M ≤ s.efConstruction

theorem Params.M_le {s : Index V} (h : s.Params) (l : Nat) : s.M ≤ s.maxLinks l := by
  have := h.maxM
  have := h.maxM0
  unfold maxLinks
  split <;> omega

theorem Params.maxLinks_lt {s : Index V} (h : s.Params) (l : Nat) : s.maxLinks l < 65536 := by
  have := h.maxM
  have := h.maxM0
  have := h.le_cap
  unfold maxLinks
  split <;> omega

theorem Params.efConstruction_pos {s : Index V} (h : s.Params) : 0 < s.efConstruction :=
  lt_of_lt_of_le (lt_of_lt_of_le Nat.zero_lt_two h.two_le) h.efConstruction

structure SameRecords (s s' : Index V) : Prop where
  fields : s' = { s with dataLevel0Memory := s'.dataLevel0Memory, linkLists := s'.linkLists }
  data : ∀ i, s'.getDataByInternalId i = s.getDataByInternalId i
  label : ∀ i, s'.getExternalLabel i = s.getExternalLabel i
  mark : ∀ i, s'.isMarkedDeleted i = s.isMarkedDeleted i

namespace SameRecords

variable {s s' s'' : Index V}

theorem refl (s : Index V) : SameRecords s s := ⟨rfl, fun _ => rfl, fun _ => rfl, fun _ => rfl⟩

theorem trans (h : SameRecords s s') (h' : SameRecords s' s'') : SameRecords s s'' := by
  refine ⟨?_, fun i => (h'.data i).trans (h.data i), fun i => (h'.label i).trans (h.label i),
    fun i => (h'.mark i).trans (h.mark i)⟩
  conv_lhs => rw [h'.fields, h.fields]

theorem curElementCount (h : SameRecords s s') : s'.curElementCount = s.curElementCount := by
  rw [h.fields]

theorem maxElements (h : SameRecords s s') : s'.maxElements = s.maxElements := by rw [h.fields]

theorem level (h : SameRecords s s') (i : TableInt) : s'.level i = s.level i := by
  rw [h.fields]
  rfl

theorem maxLinks (h : SameRecords s s') (l : Nat) : s'.maxLinks l = s.maxLinks l := by
  rw [h.fields]
  rfl

theorem M (h : SameRecords s s') : s'.M = s.M := by rw [h.fields]

theorem params (h : SameRecords s s') (hp : s.Params) : s'.Params := by
  rw [h.fields]
  exact ⟨hp.two_le, hp.le_cap, hp.maxM, hp.maxM0, hp.efConstruction⟩

theorem atLevel (h : SameRecords s s') {l : Nat} {i : TableInt} : s'.AtLevel l i ↔ s.AtLevel l i := by
  rw [AtLevel, AtLevel, h.curElementCount, h.level]

private theorem linksFit (h : SameRecords s s') {i : TableInt} {l : Nat} {links : List TableInt}
    (hf : s.LinksFit i l links) : s'.LinksFit i l links :=
  ⟨by rw [h.maxLinks]; exact hf.length_le, hf.nodup,
    fun j hj => ⟨h.atLevel.mpr (hf.valid j hj).1, (hf.valid j hj).2⟩⟩

end SameRecords

/-- `s'` is `s` with `ll` as the list of `i` at level `l`. -/
structure Replaced (s s' : Index V) (i : TableInt) (l : Nat) (ll : LinkList) : Prop where
  records : SameRecords s s'
  get_self : s'.getLinklistAtLevel i l = ll
  get_ne : ∀ j l', j ≠ i ∨ l' ≠ l → s'.getLinklistAtLevel j l' = s.getLinklistAtLevel j l'
  lists : ∀ j, s.linkLists.read j ≠ default → s'.linkLists.read j ≠ default

namespace Replaced

variable {s s' s'' : Index V} {i : TableInt} {l : Nat} {ll ll' : LinkList}

theorem refl (s : Index V) (i : TableInt) (l : Nat) :
    Replaced s s i l (s.getLinklistAtLevel i l) :=
  ⟨SameRecords.refl s, rfl, fun _ _ _ => rfl, fun _ => id⟩

theorem trans (h : Replaced s s' i l ll) (h' : Replaced s' s'' i l ll') :
    Replaced s s'' i l ll' :=
  ⟨h.records.trans h'.records, h'.get_self, fun j l' hne =>
    (h'.get_ne j l' hne).trans (h.get_ne j l' hne), fun j => h'.lists j ∘ h.lists j⟩

theorem set (s : Index V) (i : TableInt) (l : Nat) (ll : LinkList)
    (hmark : ll.isMarked = (s.getLinklistAtLevel i l).isMarked) :
    Replaced s (s.setLinklistAtLevel i l ll) i l ll := by
  have hmarks : ∀ j, (s.setLinklistAtLevel i l ll).isMarkedDeleted j = s.isMarkedDeleted j := by
    intro j
    rw [isMarkedDeleted, isMarkedDeleted, getLinklistAtLevel_set]
    split
    · next h =>
      obtain ⟨rfl, rfl⟩ := h
      exact hmark
    · rfl
  refine ⟨⟨?_, fun j => (read_setLinklistAtLevel s i j l ll).1,
    fun j => (read_setLinklistAtLevel s i j l ll).2, hmarks⟩, by simp, fun j l' hne => ?_,
    fun j hj => ?_⟩
  · unfold setLinklistAtLevel
    split <;> rfl
  · rw [getLinklistAtLevel_set, if_neg (by tauto)]
  · unfold setLinklistAtLevel
    split
    · exact hj
    · rw [Memory.read_write]
      split
      · exact Memory.write_ne_default _ _ _
      · exact hj

theorem lacksLists (h : Replaced s s' i l ll) {j : TableInt} (hj : ¬s.LacksLists j) :
    ¬s'.LacksLists j := by
  rintro ⟨hlevel, hnull⟩
  rw [h.records.level] at hlevel
  exact h.lists j (fun hnone => hj ⟨hlevel, hnone⟩) hnull

theorem connections_self (h : Replaced s s' i l ll) : s'.connections i l = ll.connections := by
  rw [connections, h.get_self]

theorem connections_ne (h : Replaced s s' i l ll) {j : TableInt} {l' : Nat} (hne : j ≠ i ∨ l' ≠ l) :
    s'.connections j l' = s.connections j l' := by
  rw [connections, connections, h.get_ne j l' hne]

theorem graphInv (h : Replaced s s' i l ll) (hg : s.GraphInv)
    (hfit : s.LinksFit i l ll.connections) : s'.GraphInv := by
  intro j l' hj
  by_cases heq : j = i ∧ l' = l
  · obtain ⟨rfl, rfl⟩ := heq
    rw [h.connections_self]
    exact h.records.linksFit hfit
  · rw [h.connections_ne (by tauto)]
    exact h.records.linksFit (hg j l' (h.records.atLevel.mp hj))

end Replaced

section Heuristic

variable (P : Platform V D)

/-- The selection extends what is kept by candidates in their order, up to `M` in all. -/
theorem selectClosest_spec (s : Index V) (M : Nat) (rest kept : List (Dᵒᵈ × TableInt)) :
    ∃ l, selectClosest P s M rest kept = kept ++ l ∧ l.Sublist rest ∧
      (kept.length ≤ M → (kept ++ l).length ≤ M) := by
  induction rest generalizing kept with
  | nil => exact ⟨[], by simp [selectClosest], List.Sublist.slnil, by simp⟩
  | cons cur rest ih =>
    rw [selectClosest]
    split
    · exact ⟨[], by simp, List.nil_sublist _, by simp⟩
    · next hlt =>
      split
      · obtain ⟨l, he, hsub, hlen⟩ := ih kept
        exact ⟨l, he, hsub.cons cur, hlen⟩
      · obtain ⟨l, he, hsub, hlen⟩ := ih (kept ++ [cur])
        refine ⟨cur :: l, by simpa using he, hsub.cons_cons cur, fun _ => ?_⟩
        have h1 : (kept ++ [cur]).length = kept.length + 1 := by simp
        simpa using hlen (by omega)

private theorem head_mem_selectClosest (s : Index V) {M : Nat} (hM : 0 < M) (cur : Dᵒᵈ × TableInt)
    (rest : List (Dᵒᵈ × TableInt)) : cur ∈ selectClosest P s M (cur :: rest) [] := by
  obtain ⟨l, he, -⟩ := selectClosest_spec P s M rest ([] ++ [cur])
  rw [selectClosest, if_neg (by simpa using hM.ne'), if_neg (by simp), he]
  simp

/-- The queue that `getNeighborsByHeuristic2` selects from, nearest candidate first. -/
def closestOrder (top : P.queues.far.Carrier) : List (Dᵒᵈ × TableInt) :=
  P.closest.drain (P.closest.pushAll P.closest.empty
    ((P.queues.far.drain top).map fun p => (toDual p.1, p.2)))

theorem coe_closestOrder (top : P.queues.far.Carrier) :
    ((closestOrder P top).map fun p => (ofDual p.1, p.2) : Multiset (D × TableInt)) =
      P.queues.far.elems top := by
  rw [← Multiset.map_coe, closestOrder, P.closest.coe_drain, P.closest.elems_pushAll,
    P.closest.elems_empty, add_zero, ← Multiset.map_coe, P.queues.far.coe_drain, Multiset.map_map]
  exact Multiset.map_id _

private theorem elems_popTo_zero (top : P.queues.far.Carrier) :
    P.queues.far.elems (P.queues.far.popTo 0 top) = 0 := by
  obtain ⟨-, -, hs, -⟩ := P.queues.far.popTo_spec 0 top
  exact Multiset.card_eq_zero.mp (by simpa [PriorityQueue.size] using hs)

theorem elems_heuristic (s : Index V) (top : P.queues.far.Carrier) (M : Nat)
    (h : M ≤ P.queues.far.size top) :
    P.queues.far.elems (getNeighborsByHeuristic2 P s top M) =
      ((selectClosest P s M (closestOrder P top) []).map fun p => (ofDual p.1, p.2) :
        List (D × TableInt)) := by
  rw [getNeighborsByHeuristic2, if_neg (not_lt.mpr h)]
  simp only [P.queues.far.elems_pushAll, elems_popTo_zero, add_zero]
  rfl

theorem elems_heuristic_le (s : Index V) (top : P.queues.far.Carrier) (M : Nat) :
    P.queues.far.elems (getNeighborsByHeuristic2 P s top M) ≤ P.queues.far.elems top := by
  rcases Nat.lt_or_ge (P.queues.far.size top) M with hlt | hge
  · rw [getNeighborsByHeuristic2, if_pos hlt]
  · obtain ⟨l, he, hsub, -⟩ := selectClosest_spec P s M (closestOrder P top) []
    rw [elems_heuristic P s top M hge, he, ← coe_closestOrder P top]
    exact Multiset.coe_le.mpr (hsub.map _).subperm

theorem size_heuristic_le (s : Index V) (top : P.queues.far.Carrier) (M : Nat) :
    P.queues.far.size (getNeighborsByHeuristic2 P s top M) ≤ M := by
  rcases Nat.lt_or_ge (P.queues.far.size top) M with hlt | hge
  · rw [getNeighborsByHeuristic2, if_pos hlt]
    exact hlt.le
  · obtain ⟨l, he, -, hlen⟩ := selectClosest_spec P s M (closestOrder P top) []
    rw [PriorityQueue.size, elems_heuristic P s top M hge, he]
    simpa using hlen (Nat.zero_le M)

theorem heuristic_ne_zero (s : Index V) {top : P.queues.far.Carrier} {M : Nat} (hM : 0 < M)
    (h : P.queues.far.elems top ≠ 0) :
    P.queues.far.elems (getNeighborsByHeuristic2 P s top M) ≠ 0 := by
  rcases Nat.lt_or_ge (P.queues.far.size top) M with hlt | hge
  · rw [getNeighborsByHeuristic2, if_pos hlt]
    exact h
  · rw [elems_heuristic P s top M hge]
    cases horder : closestOrder P top with
    | nil =>
      rw [← coe_closestOrder P top, horder] at h
      exact absurd rfl h
    | cons cur rest =>
      have hmem := head_mem_selectClosest P s hM cur rest
      intro hnil
      rw [Multiset.coe_eq_zero, List.map_eq_nil_iff] at hnil
      rw [hnil] at hmem
      exact absurd hmem List.not_mem_nil

theorem exists_nearest_heuristic (s : Index V) {top : P.queues.far.Carrier} {M : Nat} (hM : 0 < M)
    (h : P.queues.far.elems top ≠ 0) :
    ∃ p ∈ P.queues.far.elems top, (∀ r ∈ P.queues.far.elems top, p.1 ≤ r.1) ∧
      p ∈ P.queues.far.elems (getNeighborsByHeuristic2 P s top M) := by
  have hcoe := coe_closestOrder P top
  cases horder : closestOrder P top with
  | nil =>
    rw [← hcoe, horder] at h
    exact absurd rfl h
  | cons cur rest =>
    rw [horder] at hcoe
    have hmem : (ofDual cur.1, cur.2) ∈ P.queues.far.elems top := by
      rw [← hcoe]
      simp
    have hsorted := P.closest.drain_pairwise (P.closest.pushAll P.closest.empty
      ((P.queues.far.drain top).map fun p => (toDual p.1, p.2)))
    rw [← closestOrder, horder, List.pairwise_cons] at hsorted
    refine ⟨_, hmem, fun r hr => ?_, ?_⟩
    · rw [← hcoe, Multiset.mem_coe, List.map_cons, List.mem_cons] at hr
      rcases hr with rfl | hr
      · exact le_rfl
      · obtain ⟨b, hb, rfl⟩ := List.mem_map.mp hr
        exact not_lt.mp fun hlt => hsorted.1 b hb (Or.inl hlt)
    · rcases Nat.lt_or_ge (P.queues.far.size top) M with hlt | hge
      · rw [getNeighborsByHeuristic2, if_pos hlt]
        exact hmem
      · rw [elems_heuristic P s top M hge, horder]
        exact Multiset.mem_coe.mpr
          (List.mem_map.mpr ⟨cur, head_mem_selectClosest P s hM cur rest, rfl⟩)

end Heuristic

section Connect

variable (P : Platform V D)

def queueIds (q : P.queues.far.Carrier) : Multiset TableInt :=
  (P.queues.far.elems q).map Prod.snd

theorem coe_poppedIds (q : P.queues.far.Carrier) :
    (poppedIds P q : Multiset TableInt) = queueIds P q := by
  rw [poppedIds, ← Multiset.map_coe, P.queues.far.coe_drain]
  rfl

theorem length_poppedIds (q : P.queues.far.Carrier) :
    (poppedIds P q).length = P.queues.far.size q := by
  rw [poppedIds, List.length_map, P.queues.far.length_drain]

/-- Candidates for the list of `i` at level `l`: distinct other elements of that level. -/
structure CandidatesFit (s : Index V) (i : TableInt) (l : Nat) (q : P.queues.far.Carrier) : Prop where
  nodup : (queueIds P q).Nodup
  valid : ∀ j ∈ queueIds P q, s.AtLevel l j ∧ j ≠ i

variable {P} {s s' : Index V} {i curC other : TableInt} {l : Nat} {isUpdate : Bool}

theorem CandidatesFit.mono {q q' : P.queues.far.Carrier} (h : CandidatesFit P s i l q)
    (hle : P.queues.far.elems q' ≤ P.queues.far.elems q) : CandidatesFit P s i l q' :=
  ⟨Multiset.nodup_of_le (Multiset.map_le_map hle) h.nodup,
    fun j hj => h.valid j (Multiset.mem_of_le (Multiset.map_le_map hle) hj)⟩

theorem CandidatesFit.size_lt {q : P.queues.far.Carrier} (h : CandidatesFit P s i l q)
    (hi : i < s.curElementCount) : P.queues.far.size q < s.curElementCount := by
  rw [← length_poppedIds]
  refine length_lt_of_valid ?_ (fun j hj => h.valid j ?_) hi
  · rw [← Multiset.coe_nodup, coe_poppedIds]
    exact h.nodup
  · rw [← coe_poppedIds]
    exact hj

private theorem CandidatesFit.linksFit {q : P.queues.far.Carrier} (h : CandidatesFit P s i l q)
    (hsize : P.queues.far.size q ≤ s.maxLinks l) : s.LinksFit i l (poppedIds P q) := by
  refine ⟨by rw [length_poppedIds]; exact hsize, ?_, fun j hj => h.valid j ?_⟩
  · rw [← Multiset.coe_nodup, coe_poppedIds]
    exact h.nodup
  · rw [← coe_poppedIds]
    exact hj

theorem CandidatesFit.linksFit_heuristic {q : P.queues.far.Carrier} (h : CandidatesFit P s i l q)
    {M : Nat} (hM : M ≤ s.maxLinks l) :
    s.LinksFit i l (poppedIds P (getNeighborsByHeuristic2 P s q M)) :=
  (h.mono (elems_heuristic_le P s q M)).linksFit ((size_heuristic_le P s q M).trans hM)

variable (P) in
/-- The list of `other` after it has been linked back to `curC`. -/
def newBackLinks (s : Index V) (curC : TableInt) (l : Nat) (isUpdate : Bool) (other : TableInt) :
    List TableInt :=
  if isUpdate = true ∧ curC ∈ s.connections other l then s.connections other l
  else if (s.connections other l).length < s.maxLinks l then s.connections other l ++ [curC]
  else poppedIds P (getNeighborsByHeuristic2 P s
    (backLinkCandidates P s curC other (s.connections other l)) (s.maxLinks l))

theorem queueIds_backLinkCandidates (s : Index V) (curC other : TableInt) (links : List TableInt) :
    queueIds P (backLinkCandidates P s curC other links) = (curC :: links : List TableInt) := by
  rw [queueIds, backLinkCandidates, P.queues.far.elems_pushAll, P.queues.far.elems_empty, add_zero,
    Multiset.map_coe, List.map_map]
  simp [Function.comp_def]

private theorem newBackLinks_fit (hg : s.GraphInv) (hcur : s.AtLevel l curC) (hother : s.AtLevel l other)
    (hne : other ≠ curC) (hnew : isUpdate = false → curC ∉ s.connections other l) :
    s.LinksFit other l (newBackLinks P s curC l isUpdate other) := by
  have hold := hg other l hother
  unfold newBackLinks
  split
  · exact hold
  · next hpresent =>
    have hnotin : curC ∉ s.connections other l := by
      cases isUpdate with
      | false => exact hnew rfl
      | true => exact fun hm => hpresent ⟨rfl, hm⟩
    have hnodup : (curC :: s.connections other l).Nodup := List.nodup_cons.mpr ⟨hnotin, hold.nodup⟩
    have hvalid : ∀ j ∈ curC :: s.connections other l, s.AtLevel l j ∧ j ≠ other := by
      intro j hj
      rcases List.mem_cons.mp hj with rfl | hj
      · exact ⟨hcur, hne.symm⟩
      · exact hold.valid j hj
    have hperm := List.perm_append_singleton curC (s.connections other l)
    split
    · next hroom =>
      refine ⟨by rw [List.length_append]; exact hroom, hperm.nodup_iff.mpr hnodup, fun j hj => ?_⟩
      exact hvalid j (hperm.mem_iff.mp hj)
    · refine CandidatesFit.linksFit_heuristic ⟨?_, fun j hj => ?_⟩ le_rfl
      · rw [queueIds_backLinkCandidates]
        exact Multiset.coe_nodup.mpr hnodup
      · rw [queueIds_backLinkCandidates] at hj
        exact hvalid j hj

theorem wp_setBackLink (hp : s.Params) (hlen : (s.connections other l).length ≤ s.maxLinks l)
    (hlevel : l ≤ s.level other) (hne : other ≠ curC) :
    wp (setBackLink P curC l isUpdate other)
      (fun _ s' => ∃ ll, Replaced s s' other l ll ∧
        ll.connections = newBackLinks P s curC l isUpdate other)
      (fun _ _ => False) s := by
  have hcap := hp.maxLinks_lt l
  rw [connections, LinkList.length_connections] at hlen
  simp only [setBackLink, wp_bind, wp_get]
  rw [if_neg (by omega), if_neg hne, if_neg (not_lt.mpr hlevel)]
  unfold newBackLinks
  rw [connections, LinkList.length_connections]
  split
  · rw [wp_pure]
    exact ⟨_, Replaced.refl s other l, rfl⟩
  · split
    · next hroom =>
      rw [wp_set]
      exact ⟨_, Replaced.set s other l _ (by simp), LinkList.connections_push _ _ (by omega)⟩
    · rw [wp_set]
      refine ⟨_, Replaced.set s other l _ (by simp), LinkList.connections_writeEntries _ ?_⟩
      rw [length_poppedIds]
      exact (size_heuristic_le P s _ _).trans_lt hcap

private theorem heuristic_congr (hdata : s'.getDataByInternalId = s.getDataByInternalId)
    (q : P.queues.far.Carrier) (M : Nat) :
    getNeighborsByHeuristic2 P s' q M = getNeighborsByHeuristic2 P s q M := by
  have hselect : ∀ rest kept, selectClosest P s' M rest kept = selectClosest P s M rest kept := by
    intro rest
    induction rest with
    | nil => exact fun kept => rfl
    | cons cur rest ih =>
      intro kept
      rw [selectClosest, selectClosest, hdata, ih, ih]
  simp only [getNeighborsByHeuristic2, hselect]

theorem newBackLinks_congr (hdata : s'.getDataByInternalId = s.getDataByInternalId)
    (hmax : s'.maxLinks l = s.maxLinks l)
    (hlinks : s'.connections other l = s.connections other l) :
    newBackLinks P s' curC l isUpdate other = newBackLinks P s curC l isUpdate other := by
  have hcands : ∀ links, backLinkCandidates P s' curC other links =
      backLinkCandidates P s curC other links := fun links => by
    rw [backLinkCandidates, backLinkCandidates, hdata]
  unfold newBackLinks
  rw [hlinks, hmax, hcands, heuristic_congr hdata]

private theorem SameRecords.newBackLinks_eq (h : SameRecords s s')
    (hlinks : s'.connections other l = s.connections other l) :
    newBackLinks P s' curC l isUpdate other = newBackLinks P s curC l isUpdate other :=
  newBackLinks_congr (funext h.data) (h.maxLinks l) hlinks

theorem mem_newBackLinks {k : TableInt} (hk : k ∈ s.connections other l)
    (h : isUpdate = true ∧ curC ∈ s.connections other l ∨
      (s.connections other l).length < s.maxLinks l) :
    k ∈ newBackLinks P s curC l isUpdate other := by
  unfold newBackLinks
  split
  · exact hk
  · next hpresent =>
    rw [if_pos (h.resolve_left hpresent)]
    exact List.mem_append_left [curC] hk

private theorem wp_setBackLinks (others : List TableInt) (hp : s.Params)
    (hothers : ∀ o ∈ others, (s.connections o l).length ≤ s.maxLinks l ∧ l ≤ s.level o ∧ o ≠ curC)
    (hnodup : others.Nodup) :
    wp (forM others (setBackLink P curC l isUpdate))
      (fun _ s' => SameRecords s s' ∧
        (∀ o ∈ others, s'.connections o l = newBackLinks P s curC l isUpdate o) ∧
        ∀ j l', j ∉ others ∨ l' ≠ l → s'.getLinklistAtLevel j l' = s.getLinklistAtLevel j l')
      (fun _ _ => False) s := by
  induction others generalizing s with
  | nil =>
    rw [List.forM_nil, wp_pure]
    exact ⟨SameRecords.refl s, by simp, fun _ _ _ => rfl⟩
  | cons o others ih =>
    obtain ⟨⟨hlen, hlevel, hne⟩, hrest⟩ := List.forall_mem_cons.mp hothers
    obtain ⟨hnotin, hnodup⟩ := List.nodup_cons.mp hnodup
    rw [List.forM_cons, wp_bind]
    refine wp_mono (wp_setBackLink (P := P) hp hlen hlevel hne) (fun _ s₁ hs₁ => ?_) fun _ _ he => he
    obtain ⟨ll, hrep, hll⟩ := hs₁
    have hsame : ∀ o' ∈ others, s₁.connections o' l = s.connections o' l := fun o' ho' =>
      hrep.connections_ne (Or.inl fun he => hnotin (he ▸ ho'))
    have hrest₁ : ∀ o' ∈ others,
        (s₁.connections o' l).length ≤ s₁.maxLinks l ∧ l ≤ s₁.level o' ∧ o' ≠ curC := by
      intro o' ho'
      rw [hsame o' ho', hrep.records.maxLinks, hrep.records.level]
      exact hrest o' ho'
    refine wp_mono (ih (hrep.records.params hp) hrest₁ hnodup) (fun _ s₂ hs₂ => ?_) fun _ _ he => he
    obtain ⟨hrec, hback, hframe⟩ := hs₂
    refine ⟨hrep.records.trans hrec, ?_, ?_⟩
    · intro o' ho'
      rcases List.mem_cons.mp ho' with rfl | ho'
      · rw [connections, hframe o' l (Or.inl hnotin), ← connections, hrep.connections_self, hll]
      · rw [hback o' ho', hrep.records.newBackLinks_eq (hsame o' ho')]
    · intro j l' hj
      rw [hframe j l' (by simp only [List.mem_cons, not_or] at hj; tauto),
        hrep.get_ne j l' (by simp only [List.mem_cons, not_or] at hj; tauto)]

private theorem wp_writeForwardLinks (idx : Nat) (ids : List TableInt) (hids : ∀ id ∈ ids, l ≤ s.level id)
    (hblank : isUpdate = false → ∀ k, idx ≤ k → k < idx + ids.length →
      (s.getLinklistAtLevel curC l).data.read k = 0) :
    wp (writeForwardLinks curC l isUpdate idx ids)
      (fun _ s' => Replaced s s' curC l ((s.getLinklistAtLevel curC l).writeEntries idx ids))
      (fun _ _ => False) s := by
  induction ids generalizing s idx with
  | nil =>
    rw [writeForwardLinks, wp_pure]
    exact Replaced.refl s curC l
  | cons id ids ih =>
    obtain ⟨hid, hrest⟩ := List.forall_mem_cons.mp hids
    rw [List.length_cons] at hblank
    simp only [writeForwardLinks, wp_bind, wp_get]
    rw [if_neg fun h => h.1 (hblank h.2 idx le_rfl (by omega)), if_neg (not_lt.mpr hid), wp_bind,
      wp_set]
    have hrep := Replaced.set s curC l ((s.getLinklistAtLevel curC l).writeEntries idx [id])
      (by simp)
    refine wp_mono (ih (idx + 1) (fun id' h => by rw [hrep.records.level]; exact hrest id' h) ?_)
      (fun _ s' hs' => ?_) fun _ _ he => he
    · intro hu k hk hk'
      rw [hrep.get_self, LinkList.writeEntries, LinkList.writeEntries,
        Memory.read_write_of_ne _ _ (by omega)]
      exact hblank hu k (by omega) (by omega)
    · rw [hrep.get_self] at hs'
      exact hrep.trans hs'

/-- A list without entries or mark, and with room for `n` entries that read as zero. -/
def BlankList (ll : LinkList) (n : Nat) : Prop := ll.word = 0 ∧ ∀ k < n, ll.data.read k = 0

theorem wp_setForwardLinks (ids : List TableInt) (hids : ∀ id ∈ ids, l ≤ s.level id)
    (hcap : ids.length < 65536)
    (hblank : isUpdate = false → BlankList (s.getLinklistAtLevel curC l) ids.length) :
    wp (setForwardLinks curC l isUpdate ids)
      (fun _ s' => ∃ ll, Replaced s s' curC l ll ∧ ll.connections = ids) (fun _ _ => False) s := by
  simp only [setForwardLinks, wp_bind, wp_get]
  rw [if_neg (fun h => h.1 (hblank h.2).1), wp_bind, wp_set]
  have hrep := Replaced.set s curC l
    ((s.getLinklistAtLevel curC l).setListCount ids.length) (by simp)
  refine wp_mono (wp_writeForwardLinks 0 ids (fun id h => by rw [hrep.records.level]; exact hids id h)
    ?_) (fun _ s' hs' => ⟨_, hrep.trans hs', ?_⟩) fun _ _ he => he
  · intro hu k _ hk
    rw [hrep.get_self]
    exact (hblank hu).2 k (by omega)
  · rw [hrep.get_self, LinkList.connections_setListCount_writeEntries _ hcap]

variable (P) in
/-- The neighbours that the heuristic selects for a new or updated element. -/
def selectedNeighbors (s : Index V) (q : P.queues.far.Carrier) : List TableInt :=
  poppedIds P (getNeighborsByHeuristic2 P s q s.M)

theorem mem_selectedNeighbors {q : P.queues.far.Carrier} {j : TableInt} :
    j ∈ selectedNeighbors P s q ↔ j ∈ queueIds P (getNeighborsByHeuristic2 P s q s.M) := by
  rw [selectedNeighbors, ← Multiset.mem_coe, coe_poppedIds]

theorem mem_selectedNeighbors_of_lt {q : P.queues.far.Carrier} (h : P.queues.far.size q < s.M)
    {j : TableInt} : j ∈ selectedNeighbors P s q ↔ j ∈ queueIds P q := by
  rw [mem_selectedNeighbors, getNeighborsByHeuristic2, if_pos h]

private theorem getLast_selectedNeighbors_nearest {q : P.queues.far.Carrier} {next : TableInt}
    (hM : 0 < s.M) (hnext : (selectedNeighbors P s q).getLast? = some next) :
    ∃ d, (d, next) ∈ P.queues.far.elems q ∧ ∀ r ∈ P.queues.far.elems q, d ≤ r.1 := by
  rw [selectedNeighbors, poppedIds, List.getLast?_map, Option.map_eq_some_iff] at hnext
  obtain ⟨⟨d, _⟩, hlast, rfl⟩ := hnext
  obtain ⟨front, hfront⟩ := List.getLast?_eq_some_iff.mp hlast
  have hsub := elems_heuristic_le P s q s.M
  have hmem : (d, _) ∈ P.queues.far.elems q :=
    Multiset.mem_of_le hsub (P.queues.far.mem_drain.mp (List.mem_of_getLast? hlast))
  refine ⟨d, hmem, fun r hr => ?_⟩
  have hne : P.queues.far.elems q ≠ 0 := fun h0 => Multiset.notMem_zero _ (h0 ▸ hmem)
  obtain ⟨p, -, hmin, hp⟩ := exists_nearest_heuristic P s hM hne
  -- a nearest candidate is popped no later than the last
  have hsorted := P.queues.far.drain_pairwise (getNeighborsByHeuristic2 P s q s.M)
  rw [← P.queues.far.mem_drain, hfront, List.mem_append, List.mem_singleton] at hp
  rw [hfront, List.pairwise_append] at hsorted
  have hle : d ≤ p.1 := by
    rcases hp with hp | rfl
    · exact not_lt.mp (hsorted.2.2 p hp _ (List.mem_singleton_self _))
    · exact le_rfl
  exact hle.trans (hmin r hr)

variable (P) in
/-- The lists that `mutuallyConnectNewElement` writes, and those it leaves alone. -/
structure Linked (s s' : Index V) (curC : TableInt) (q : P.queues.far.Carrier) (l : Nat)
    (isUpdate : Bool) : Prop where
  records : SameRecords s s'
  forward : s'.connections curC l = selectedNeighbors P s q
  back : ∀ o ∈ selectedNeighbors P s q,
    s'.connections o l = newBackLinks P s curC l isUpdate o
  frame : ∀ j l', j ≠ curC ∧ j ∉ selectedNeighbors P s q ∨ l' ≠ l →
    s'.getLinklistAtLevel j l' = s.getLinklistAtLevel j l'

/-- Mutual linking fails only if there is no candidate, and then before it writes anything. -/
theorem wp_mutuallyConnectNewElement_linked {q : P.queues.far.Carrier} (hg : s.GraphInv)
    (hp : s.Params) (hq : CandidatesFit P s curC l q)
    (hblank : isUpdate = false → BlankList (s.getLinklistAtLevel curC l) s.M) :
    wp (mutuallyConnectNewElement P curC q l isUpdate)
      (fun next s' => Linked P s s' curC q l isUpdate ∧
        ∃ d, (d, next) ∈ P.queues.far.elems q ∧ ∀ r ∈ P.queues.far.elems q, d ≤ r.1)
      (fun e s' => e = .emptyBack ∧ s' = s ∧ P.queues.far.elems q = 0) s := by
  have hfit : s.LinksFit curC l (selectedNeighbors P s q) := hq.linksFit_heuristic (hp.M_le l)
  have hM : 0 < s.M := lt_of_lt_of_le Nat.zero_lt_two hp.two_le
  have hlen : (selectedNeighbors P s q).length ≤ s.M := by
    rw [selectedNeighbors, length_poppedIds]
    exact size_heuristic_le P s q s.M
  simp only [mutuallyConnectNewElement, wp_bind, wp_get]
  rw [if_neg (not_lt.mpr (size_heuristic_le P s q s.M))]
  rw [show poppedIds P (getNeighborsByHeuristic2 P s q s.M) = selectedNeighbors P s q from rfl]
  split
  · next hnone =>
    rw [wp_throw]
    refine ⟨rfl, rfl, ?_⟩
    by_contra hne
    have hsel := heuristic_ne_zero P s hM hne
    have hlen := length_poppedIds P (getNeighborsByHeuristic2 P s q s.M)
    rw [show poppedIds P (getNeighborsByHeuristic2 P s q s.M) = [] from
      List.getLast?_eq_none_iff.mp hnone] at hlen
    exact hsel (Multiset.card_eq_zero.mp hlen.symm)
  · next next hnext =>
    rw [wp_bind]
    refine wp_mono (wp_setForwardLinks _ (fun id h => (hfit.valid id h).1.2)
      (hfit.length_le.trans_lt (hp.maxLinks_lt l))
      fun hu => ⟨(hblank hu).1, fun k hk => (hblank hu).2 k (hk.trans_le hlen)⟩)
      (fun _ s₁ hs₁ => ?_) fun _ _ he => he.elim
    obtain ⟨ll, hrep, hll⟩ := hs₁
    have hrec := hrep.records
    have hsame : ∀ o ∈ selectedNeighbors P s q, s₁.connections o l = s.connections o l :=
      fun o ho => hrep.connections_ne (Or.inl (hfit.valid o ho).2)
    have hothers : ∀ o ∈ selectedNeighbors P s q,
        (s₁.connections o l).length ≤ s₁.maxLinks l ∧ l ≤ s₁.level o ∧ o ≠ curC := by
      intro o ho
      rw [hsame o ho, hrec.maxLinks, hrec.level]
      exact ⟨(hg o l (hfit.valid o ho).1).length_le, (hfit.valid o ho).1.2, (hfit.valid o ho).2⟩
    rw [wp_bind]
    refine wp_mono (wp_setBackLinks _ (hrec.params hp) hothers hfit.nodup) (fun _ s₂ hs₂ => ?_)
      fun _ _ he => he.elim
    obtain ⟨hrec₂, hback, hframe⟩ := hs₂
    have hself : curC ∉ selectedNeighbors P s q := fun h => (hfit.valid curC h).2 rfl
    rw [wp_pure]
    refine ⟨⟨hrec.trans hrec₂, ?_, ?_, ?_⟩, getLast_selectedNeighbors_nearest hM hnext⟩
    · rw [connections, hframe curC l (Or.inl hself), hrep.get_self, hll, selectedNeighbors]
    · intro o ho
      rw [hback o ho, hrec.newBackLinks_eq (hsame o ho)]
    · intro j l' hj
      rw [hframe j l' (hj.imp_left And.right), hrep.get_ne j l' (hj.imp_left And.left)]

variable (P) in
/-- The effect of `mutuallyConnectNewElement`. -/
structure Connected (s s' : Index V) (curC : TableInt) (q : P.queues.far.Carrier) (l : Nat)
    (isUpdate : Bool) : Prop where
  records : SameRecords s s'
  graph : s'.GraphInv
  forward : s'.connections curC l = selectedNeighbors P s q
  back : ∀ o ∈ selectedNeighbors P s q,
    s'.connections o l = newBackLinks P s curC l isUpdate o
  frame : ∀ j l', j ≠ curC ∧ j ∉ selectedNeighbors P s q ∨ l' ≠ l →
    s'.getLinklistAtLevel j l' = s.getLinklistAtLevel j l'

private theorem Linked.connected {q : P.queues.far.Carrier} (h : Linked P s s' curC q l isUpdate)
    (hg : s.GraphInv) (hp : s.Params) (hcur : s.AtLevel l curC) (hq : CandidatesFit P s curC l q)
    (hnew : isUpdate = false → ∀ o, s.AtLevel l o → curC ∉ s.connections o l) :
    Connected P s s' curC q l isUpdate := by
  have hfit : s.LinksFit curC l (selectedNeighbors P s q) := hq.linksFit_heuristic (hp.M_le l)
  refine ⟨h.records, fun j l' hj => h.records.linksFit ?_, h.forward, h.back, h.frame⟩
  have hj := h.records.atLevel.mp hj
  by_cases hl : l' = l
  · subst hl
    by_cases hc : j = curC
    · rw [hc, h.forward]
      exact hfit
    · by_cases hsel : j ∈ selectedNeighbors P s q
      · rw [h.back j hsel]
        exact newBackLinks_fit hg hcur hj hc fun hu => hnew hu j hj
      · rw [connections, h.frame j l' (Or.inl ⟨hc, hsel⟩)]
        exact hg j l' hj
  · rw [connections, h.frame j l' (Or.inr hl)]
    exact hg j l' hj

theorem wp_mutuallyConnectNewElement {q : P.queues.far.Carrier} (hg : s.GraphInv) (hp : s.Params)
    (hcur : s.AtLevel l curC) (hq : CandidatesFit P s curC l q)
    (hblank : isUpdate = false → s.getLinklistAtLevel curC l = default ∧
      ∀ o, s.AtLevel l o → curC ∉ s.connections o l) :
    wp (mutuallyConnectNewElement P curC q l isUpdate)
      (fun next s' => Connected P s s' curC q l isUpdate ∧ next ∈ queueIds P q)
      (fun e s' => e = .emptyBack ∧ s' = s ∧ P.queues.far.elems q = 0) s := by
  have hblank' : isUpdate = false → BlankList (s.getLinklistAtLevel curC l) s.M := by
    intro hu
    rw [(hblank hu).1]
    exact ⟨rfl, fun _ _ => rfl⟩
  refine wp_mono (wp_mutuallyConnectNewElement_linked hg hp hq hblank') (fun next s' h => ?_)
    fun _ _ he => he
  obtain ⟨hlinked, d, hmem, -⟩ := h
  exact ⟨hlinked.connected hg hp hcur hq fun hu => (hblank hu).2, Multiset.mem_map_of_mem Prod.snd hmem⟩

end Connect

end HnswRvv.Index
