import HnswRvv.Index.MultiDocument

/-!
# When a search for documents is right

The condition's own queue holds the distances and documents of everything that was ever added, but
for the largest pairs, one for each result that was shed: the `names` of the ledger. So
`filter_results` counts documents down in the order of these names, while the elements leave in the
order of the result queue. The answer is right if and only if the two countdowns end together.
-/

namespace HnswRvv

open Framework

section Search

open BestFirst OrderDual

variable {ι D DocId : Type} [LinearOrder D] [LinearOrder DocId]
  {R : PriorityQueue (D × DocId) LexLess} {Q : BeamQueues ι D} {G : SearchGraph ι D}
  {doc : ι → DocId} {ef : Nat} {top : Q.far.Carrier} {st : DocState R} {l : Ledger ι}

/-- Beside what the own queue holds, `popped` was in it once. -/
structure Popped (G : SearchGraph ι D) (doc : ι → DocId) (ef : Nat) (l : Ledger ι)
    (popped pairs : Multiset (D × DocId)) : Prop where
  all : popped + pairs = ((l.held ++ l.lost).map fun i => (G.dist i, doc i) : List (D × DocId))
  dist : pairs.map Prod.fst = (l.held.map G.dist : List D)
  order : ef ≠ 0 → ∀ a ∈ popped, ∀ b ∈ pairs, ¬ LexLess a b

/-- The result queue and the condition while a visit sheds, as the ledger has them. -/
structure Booked (G : SearchGraph ι D) (doc : ι → DocId) (ef : Nat) (top : Q.far.Carrier)
    (st : DocState R) (l : Ledger ι) : Prop where
  held : Q.far.elems top = (l.held.map fun i => (G.dist i, i) : List (D × ι))
  counts : st.Counts (l.held.map doc : List DocId)
  fault : st.fault = none
  full : l.lost ≠ [] → ef ≤ classCount doc l.held
  own : ∃ popped, Popped G doc ef l popped (R.elems st.searchResults)

structure Closed (G : SearchGraph ι D) (doc : ι → DocId) (ef : Nat) (top : Q.far.Carrier) (lb : D)
    (st : DocState R) (l : Ledger ι) : Prop extends Booked G doc ef top st l where
  lowerBound : ∀ t, Q.far.top top = some t → lb = t.1
  few : classCount doc l.held ≤ ef ∨ l.lost = [] ∧ l.held.length ≤ 1

theorem Booked.currNumDocs (h : Booked G doc ef top st l) :
    st.currNumDocs = classCount doc l.held := h.counts.docs

variable {popped pairs : Multiset (D × DocId)}

private theorem Popped.card_eq (h : Popped G doc ef l popped pairs) :
    pairs.card = l.held.length ∧ popped.card = l.lost.length := by
  have hheld := congrArg Multiset.card h.dist
  have hall := congrArg Multiset.card h.all
  rw [Multiset.card_map, Multiset.coe_card, List.length_map] at hheld
  rw [Multiset.card_add, Multiset.coe_card, List.length_map, List.length_append] at hall
  omega

private theorem Popped.eq_zero (h : Popped G doc ef l popped pairs) (hlost : l.lost = []) : popped = 0 := by
  rw [← Multiset.card_eq_zero, h.card_eq.2, hlost, List.length_nil]

theorem Popped.push (h : Popped G doc ef l popped pairs) {c : ι}
    (hnear : ef ≠ 0 → ∀ a ∈ popped, G.dist c < a.1) :
    Popped G doc ef ⟨c :: l.held, l.lost⟩ popped ((G.dist c, doc c) ::ₘ pairs) := by
  refine ⟨?_, ?_, fun hef a ha b hb => ?_⟩
  · rw [Multiset.add_cons, h.all]
    rfl
  · rw [Multiset.map_cons, h.dist]
    rfl
  · rcases Multiset.mem_cons.mp hb with rfl | hb
    · rw [not_lexLess_iff]
      exact .inl (hnear hef a ha)
    · exact h.order hef a ha b hb

/-- Once a result was shed, a node is followed only if it is nearer than all that was popped. -/
theorem Closed.nearer {lb : D} (h : Closed G doc ef top lb st l)
    (hown : Popped G doc ef l popped (R.elems st.searchResults)) {c : ι}
    (hwant : classCount doc l.held < ef ∨ G.dist c < lb) (hef : ef ≠ 0) :
    ∀ a ∈ popped, G.dist c < a.1 := by
  intro a ha
  have hlost : l.lost ≠ [] := fun hnone => Multiset.notMem_zero a (hown.eq_zero hnone ▸ ha)
  have hnear : G.dist c < lb := hwant.resolve_left (not_lt.mpr (h.full hlost))
  have hne : Q.far.elems top ≠ 0 := by
    intro hnone
    rw [h.held, Multiset.coe_eq_zero, List.map_eq_nil_iff] at hnone
    have hfull := h.full hlost
    rw [hnone] at hfull
    exact hef (Nat.le_zero.mp hfull)
  obtain ⟨t, ht⟩ := Q.far.exists_top hne
  have hmem : t.1 ∈ (R.elems st.searchResults).map Prod.fst := by
    have hmem := Q.far.top_mem ht
    rw [h.held, Multiset.mem_coe] at hmem
    obtain ⟨i, hi, rfl⟩ := List.mem_map.mp hmem
    rw [hown.dist]
    exact Multiset.mem_coe.mpr (List.mem_map_of_mem hi)
  obtain ⟨b, hb, hbt⟩ := Multiset.mem_map.mp hmem
  rw [h.lowerBound t ht, ← hbt] at hnear
  rcases (not_lexLess_iff a b).mp (hown.order hef a ha b hb) with hlt | ⟨heq, -⟩
  · exact hnear.trans hlt
  · exact hnear.trans_eq heq.symm

theorem Booked.push (h : Booked G doc ef top st l) {c : ι}
    (hnear : ∀ popped, Popped G doc ef l popped (R.elems st.searchResults) → ef ≠ 0 →
      ∀ a ∈ popped, G.dist c < a.1) :
    Booked G doc ef (Q.far.push top (G.dist c, c)) (st.addPoint (doc c) (G.dist c))
      ⟨c :: l.held, l.lost⟩ := by
  obtain ⟨popped, hown⟩ := h.own
  refine ⟨?_, ?_, h.fault, fun hlost => ?_, popped, ?_⟩
  · rw [Q.far.elems_push, h.held]
    rfl
  · exact h.counts.addPoint (doc c) (G.dist c)
  · exact (h.full hlost).trans (classCount_le_cons doc c l.held)
  · have hpush := hown.push (hnear popped hown)
    rwa [← R.elems_push] at hpush

private theorem Booked.coe_docs (h : Booked G doc ef top st l) :
    ((Q.far.drain top).map fun p => doc p.2 : List DocId) = (l.held.map doc : Multiset DocId) := by
  rw [← Multiset.map_coe, Q.far.coe_drain, h.held, Multiset.map_coe, List.map_map]
  rfl

private theorem Closed.drain_eq {lb : D} (h : Closed G doc ef top lb st l) :
    R.drain st.searchResults = l.names G.dist doc := by
  obtain ⟨popped, hown⟩ := h.own
  have hcard : (R.drain st.searchResults).length = l.held.length := by
    rw [R.length_drain, PriorityQueue.size, hown.card_eq.1]
  have hall := hown.all
  rw [← R.coe_drain] at hall
  refine (Ledger.names_eq hall hcard (R.drain_pairwise _) fun a ha b hb => ?_).symm
  rcases eq_or_ne ef 0 with rfl | hef
  · -- with no class to collect, nothing is held once something was shed
    have hnone : l.held = [] := by
      rcases h.few with hfew | ⟨hlost, -⟩
      · rw [Nat.le_zero, classCount, Finset.card_eq_zero, List.toFinset_eq_empty_iff,
          List.map_eq_nil_iff] at hfew
        exact hfew
      · exact absurd (hown.eq_zero hlost ▸ ha) (Multiset.notMem_zero a)
    rw [hnone, List.length_nil] at hcard
    exact absurd (List.eq_nil_of_length_eq_zero hcard ▸ hb) List.not_mem_nil
  · exact hown.order hef a ha b (R.mem_drain.mp hb)

variable [DecidableEq ι]

theorem Popped.shed {res : D × DocId} (h : Popped G doc ef l popped (res ::ₘ pairs)) {i : ι}
    (hi : i ∈ l.held) (hfar : ∀ j ∈ l.held, G.dist j ≤ G.dist i)
    (hmax : ∀ b ∈ res ::ₘ pairs, ¬ LexLess res b) :
    Popped G doc ef ⟨l.held.erase i, i :: l.lost⟩ (res ::ₘ popped) pairs := by
  have hperm := List.perm_cons_erase hi
  have hdist : (l.held.map G.dist : Multiset D) =
      G.dist i ::ₘ ((l.held.erase i).map G.dist : List D) :=
    Multiset.coe_eq_coe.mpr (hperm.map G.dist)
  -- both are at the largest distance of all
  have hsame : res.1 = G.dist i := by
    apply le_antisymm
    · have hmem : res.1 ∈ (l.held.map G.dist : List D) := by
        rw [← Multiset.mem_coe, ← h.dist]
        exact Multiset.mem_map_of_mem _ (Multiset.mem_cons_self res pairs)
      obtain ⟨j, hj, hjd⟩ := List.mem_map.mp hmem
      exact hjd ▸ hfar j hj
    · have hmem : G.dist i ∈ (res ::ₘ pairs).map Prod.fst := by
        rw [h.dist]
        exact Multiset.mem_coe.mpr (List.mem_map_of_mem hi)
      obtain ⟨b, hb, hbd⟩ := Multiset.mem_map.mp hmem
      rw [← hbd]
      rcases (not_lexLess_iff res b).mp (hmax b hb) with hlt | ⟨heq, -⟩
      · exact hlt.le
      · exact heq.ge
  refine ⟨?_, ?_, fun hef a ha b hb => ?_⟩
  · rw [Multiset.cons_add, ← Multiset.add_cons, h.all]
    apply Multiset.coe_eq_coe.mpr
    apply List.Perm.map
    exact (hperm.append_right l.lost).trans List.perm_middle.symm
  · have hcons := h.dist
    rw [hdist, Multiset.map_cons, hsame, Multiset.cons_inj_right] at hcons
    exact hcons
  · rcases Multiset.mem_cons.mp ha with rfl | ha
    · exact hmax b (Multiset.mem_cons_of_mem hb)
    · exact h.order hef a ha b (Multiset.mem_cons_of_mem hb)

theorem Booked.shed (h : Booked G doc ef top st l) (hover : ef < classCount doc l.held) :
    ∃ p, Q.far.top top = some p ∧ Booked G doc ef (Q.far.pop top) (st.removePoint (doc p.2))
      ⟨l.held.erase p.2, p.2 :: l.lost⟩ := by
  obtain ⟨popped, hown⟩ := h.own
  have hpos : 0 < l.held.length := (Nat.zero_le ef).trans_lt hover |>.trans_le
    (classCount_le_length doc l.held)
  obtain ⟨p, hp⟩ := Q.far.exists_top (q := top) fun hnone => by
    rw [h.held, Multiset.coe_eq_zero, List.map_eq_nil_iff] at hnone
    rw [hnone] at hpos
    exact absurd hpos (lt_irrefl 0)
  obtain ⟨res, hres⟩ := R.exists_top (q := st.searchResults) fun hnone => by
    rw [← hown.card_eq.1, hnone] at hpos
    exact absurd hpos (lt_irrefl 0)
  have hmem := Q.far.top_mem hp
  rw [h.held, Multiset.mem_coe] at hmem
  obtain ⟨i, hi, rfl⟩ := List.mem_map.mp hmem
  have hperm := List.perm_cons_erase hi
  have hcounts := h.counts
  rw [Multiset.coe_eq_coe.mpr (hperm.map doc), List.map_cons, ← Multiset.cons_coe] at hcounts
  obtain ⟨hcounts', hafter, hfault⟩ := hcounts.removePoint hres
  have hle := classCount_cons_le doc i (l.held.erase i)
  rw [← classCount_perm doc hperm] at hle
  refine ⟨_, hp, ?_, hcounts', hfault.trans h.fault, fun _ => Nat.le_of_lt_succ (hover.trans_le hle),
    res ::ₘ popped, ?_⟩
  · have helems := Q.far.elems_of_top_some top _ hp
    rw [h.held, Multiset.coe_eq_coe.mpr (hperm.map _), List.map_cons, ← Multiset.cons_coe,
      Multiset.cons_inj_right] at helems
    exact helems.symm
  · rw [hafter]
    rw [R.elems_of_top_some _ _ hres] at hown
    refine hown.shed hi (fun j hj => ?_) fun b hb => ?_
    · refine not_lt.mp (Q.far.top_max top _ hp (G.dist j, j) ?_)
      rw [h.held]
      exact Multiset.mem_coe.mpr (List.mem_map_of_mem hj)
    · rw [← R.elems_of_top_some _ _ hres] at hb
      exact R.top_max _ res hres b hb

private theorem doc_lockstep (Q : BeamQueues ι D) (R : PriorityQueue (D × DocId) LexLess)
    (G : SearchGraph ι D) (doc : ι → DocId) (ef : Nat) :
    Lockstep Q G (docPolicy R doc ef) (classPolicy doc ef) (Closed G doc ef) (Booked G doc ef) where
  steady := ⟨fun _ _ _ _ => rfl, fun _ _ _ _ => rfl, fun _ _ => rfl⟩
  steady' := ⟨fun _ _ _ _ => rfl, fun _ _ _ _ => rfl, fun _ _ => rfl⟩
  stop top lb st l d h := by
    simp only [docPolicy, classPolicy, h.currNumDocs]
  consider top lb st l d h := by
    simp only [docPolicy, classPolicy, h.currNumDocs]
  remove top st l h := by
    simp only [docPolicy, classPolicy, h.currNumDocs]
  admits top lb st l c h hwant := by
    have hwant : st.currNumDocs < ef ∨ G.dist c < lb := of_decide_eq_true hwant
    rw [h.currNumDocs] at hwant
    unfold admitted
    split
    · exact h.push fun popped hown => h.nearer hown hwant
    · exact h.toBooked
  shed top st l d h hremove := by
    have hover : ef < st.currNumDocs := of_decide_eq_true hremove
    rw [h.currNumDocs] at hover
    exact h.shed hover
  settle top lb st l h hkeep := by
    have hfew : ¬ ef < st.currNumDocs := of_decide_eq_false hkeep
    rw [h.currNumDocs] at hfew
    refine ⟨h, fun t ht => ?_, .inl (not_lt.mp hfew)⟩
    rw [ht]
    rfl

private theorem closed_start (maxDist : D) (ep : ι) :
    Closed G doc ef (start Q G (docPolicy R doc ef) maxDist ep (DocState.fresh R)).topCandidates
      (start Q G (docPolicy R doc ef) maxDist ep (DocState.fresh R)).lowerBound
      (start Q G (docPolicy R doc ef) maxDist ep (DocState.fresh R)).state
      (start Q G (classPolicy doc ef) maxDist ep ⟨[], []⟩).state := by
  have hempty : Booked G doc ef Q.far.empty (DocState.fresh R) ⟨[], []⟩ := by
    refine ⟨Q.far.elems_empty, DocState.counts_fresh R, rfl, fun hlost => absurd rfl hlost, 0, ?_⟩
    rw [show R.elems (DocState.fresh R).searchResults = 0 from R.elems_empty]
    exact ⟨rfl, rfl, fun _ a ha => absurd ha (Multiset.notMem_zero a)⟩
  unfold start
  split
  · refine ⟨hempty.push fun popped hown _ a ha => ?_, fun t ht => ?_, .inr ⟨rfl, le_rfl⟩⟩
    · exact absurd (hown.eq_zero rfl ▸ ha) (Multiset.notMem_zero a)
    · have hmem := Q.far.top_mem ht
      rw [Q.far.elems_push, Q.far.elems_empty] at hmem
      rw [Multiset.mem_singleton.mp hmem]
  · refine ⟨hempty, fun t ht => ?_, .inr ⟨rfl, Nat.zero_le _⟩⟩
    have hmem := Q.far.top_mem ht
    rw [Q.far.elems_empty] at hmem
    exact absurd hmem (Multiset.notMem_zero t)

private theorem Closed.cutAlike_iff {Q : BeamQueues TableInt D} {G : SearchGraph TableInt D}
    {doc : TableInt → DocId} {top : Q.far.Carrier} {l : Ledger TableInt} {lb : D}
    (h : Closed G doc ef top lb st l) (numDocsToSearch : Nat) :
    ((st.filterResults numDocsToSearch (Q.far.drain top).reverse).2.fault = none ∧
      LatestCut doc numDocsToSearch (Q.far.drain top).reverse
        (st.filterResults numDocsToSearch (Q.far.drain top).reverse).1) ↔
    CutAlike numDocsToSearch ((Q.far.drain top).map fun p => doc p.2)
      ((l.names G.dist doc).map Prod.snd) := by
  obtain ⟨popped, hown⟩ := h.own
  have hcounts : st.Counts ((Q.far.drain top).map fun p => doc p.2 : List DocId) := by
    rw [h.coe_docs]
    exact h.counts
  have hfst : (R.drain st.searchResults).map Prod.fst = (Q.far.drain top).map Prod.fst := by
    apply map_fst_eq_of_perm _ (drain_fstLess_descending Q.far top) (drain_lexLess_descending R _)
    rw [← Multiset.coe_eq_coe, ← Multiset.map_coe, ← Multiset.map_coe, R.coe_drain, Q.far.coe_drain,
      hown.dist, h.held, Multiset.map_coe, List.map_map]
    rfl
  rw [filterResults_iff h.fault hcounts hfst, h.drain_eq]

end Search

namespace Index

variable {V D DocId : Type} [Inhabited V] [LinearOrder D] [LinearOrder DocId] {P : Platform V D}
  {s : Index V} {q : V} {isIdAllowed : Option (LabelType → Bool)} {getDocId : V → DocId}

/-- The search at the bottom layer, with a ledger in place of the counters and of the own queue. -/
def collect (P : Platform V D) (s : Index V) (q : V) (isIdAllowed : Option (LabelType → Bool))
    (getDocId : V → DocId) (ef : Nat) (start : TableInt) :
    Except SearchAbort (Beam P.queues (Ledger TableInt)) :=
  BestFirst.search P.queues (layerGraph P s q 0 (s.returnable false isIdAllowed))
    (classPolicy (s.docOf getDocId) ef) s.curElementCount P.maxDist start ⟨[], []⟩

/-- The documents of what a search holds, farthest element first. -/
def heldDocs (s : Index V) (getDocId : V → DocId) (b : Beam P.queues (Ledger TableInt)) :
    List DocId :=
  (P.queues.far.drain b.topCandidates).map fun p => s.docOf getDocId p.2

/-- The documents in the order in which the condition's own queue gives them up. -/
def namedDocs (P : Platform V D) (s : Index V) (q : V) (getDocId : V → DocId)
    (b : Beam P.queues (Ledger TableInt)) : List DocId :=
  (b.state.names (fun i => P.fstdistfunc q (s.getDataByInternalId i)) (s.docOf getDocId)).map Prod.snd

private theorem WellFormed.findsDocs_iff_cutAlike (h : s.WellFormed) (hne : s.curElementCount ≠ 0)
    {start : TableInt} (hstart : descentEnd P s q true 0 = .ok start)
    (isIdAllowed : Option (LabelType → Bool)) (getDocId : V → DocId)
    (R : PriorityQueue (D × DocId) LexLess) (numDocsToSearch efCollection : Nat) :
    ∃ b, collect P s q isIdAllowed getDocId (max efCollection numDocsToSearch) start = .ok b ∧
      ((s.heldDocs getDocId b).toFinset.card ≤ max efCollection numDocsToSearch ∨
        (s.heldDocs getDocId b).toFinset.card ≤ 1) ∧
      (FindsDocs P s q isIdAllowed getDocId R numDocsToSearch efCollection ↔
        CutAlike numDocsToSearch (s.heldDocs getDocId b) (namedDocs P s q getDocId b)) := by
  obtain ⟨-, start', -, hstart', hat, -⟩ := h.exists_descentEnd (Nat.pos_of_ne_zero hne) P q
  obtain rfl : start = start' := Except.ok.inj (hstart.symm.trans hstart')
  obtain ⟨b, l, hsearch, hcollect, hclosed⟩ := (doc_lockstep P.queues R
      (layerGraph P s q 0 (s.returnable false isIdAllowed)) (s.docOf getDocId)
      (max efCollection numDocsToSearch)).search (levelElements_closed h.graph 0)
    (mem_levelElements.mpr hat) (card_levelElements_le s 0) (closed_start P.maxDist start)
  refine ⟨_, hcollect, ?_, ?_⟩
  · have hdocs : (s.heldDocs getDocId (BestFirst.withState b l)).toFinset.card =
        classCount (s.docOf getDocId) l.held :=
      congrArg (fun m => m.toFinset.card) hclosed.coe_docs
    rw [hdocs]
    exact hclosed.few.imp_right fun hone => (classCount_le_length _ _).trans hone.2
  · rw [findsDocs_iff_of_search hne hstart hsearch]
    exact hclosed.cutAlike_iff numDocsToSearch

/-- Points of the plane with a document id behind them, which the distance does not read. Among
equals, the point that came first is on top of the result queue. -/
def pagePlatform : Platform (ℤ × ℤ × ℤ) ℤ :=
  { listPlatform (fun a b => (a.1 - b.1) ^ 2 + (a.2.1 - b.2.1) ^ 2) 1000000 with
    queues := ⟨tieQueue fun i => i, listQueue FstLess fstLess_asymm not_fstLess_trans⟩ }

def pageOf (v : ℤ × ℤ × ℤ) : ℤ := v.2.2

def pageResults : PriorityQueue (ℤ × ℤ) LexLess :=
  listQueue LexLess lexLess_asymm not_lexLess_trans

theorem emptyPages_reachable : Reachable pagePlatform (fun _ _ _ => True) (emptyPoints false) :=
  Reachable.built 12 10 2 2 false le_rfl rfl

/-- Two points of different documents at distance 4, and a nearer one in a third document. -/
def tiedPages : List (Op (ℤ × ℤ × ℤ) × Choices) :=
  [(.addPoint (2, 0, 1) 7 false, plainChoices 0), (.addPoint (-2, 0, 2) 8 false, plainChoices 0),
    (.addPoint (1, 0, 3) 9 false, plainChoices 0)]

/-- If no more documents are collected than asked for, nothing is cut, and ties do no harm. -/
theorem findsDocs_of_le (h : s.WellFormed) (P : Platform V D) (q : V)
    (isIdAllowed : Option (LabelType → Bool)) (getDocId : V → DocId)
    (R : PriorityQueue (D × DocId) LexLess) {numDocsToSearch efCollection : Nat}
    (hpos : 0 < numDocsToSearch) (hle : efCollection ≤ numDocsToSearch) :
    FindsDocs P s q isIdAllowed getDocId R numDocsToSearch efCollection := by
  by_cases hempty : s.curElementCount = 0
  · exact findsDocs_of_empty hempty R _ _
  · obtain ⟨-, start, -, hstart, -, -⟩ := h.exists_descentEnd (Nat.pos_of_ne_zero hempty) P q
    obtain ⟨b, -, hfew, hiff⟩ := h.findsDocs_iff_cutAlike hempty hstart isIdAllowed getDocId R
      numDocsToSearch efCollection
    rw [hiff]
    apply cutAlike_of_le
    rcases hfew with hfew | hfew
    · exact hfew.trans (max_le hle le_rfl)
    · exact hfew.trans hpos

/-- The tied points again, with all three documents asked for. -/
theorem findsDocs_of_le_pages : ∃ s : Index (ℤ × ℤ × ℤ), s.WellFormed ∧
    afterOps pagePlatform tiedPages (emptyPoints false) = some s ∧
    FindsDocs pagePlatform s (0, 0, 0) none pageOf pageResults 3 3 := by
  obtain ⟨s, hs⟩ := Option.isSome_iff_exists.mp
    (show (afterOps pagePlatform tiedPages (emptyPoints false)).isSome by decide +kernel)
  have hw : s.WellFormed :=
    (emptyPages_reachable.afterOps (by simp [tiedPages, plainChoices_allocates]) hs).wellFormed
  exact ⟨s, hw, hs, findsDocs_of_le hw _ _ _ _ _ (by decide) le_rfl⟩

end Index

end HnswRvv
