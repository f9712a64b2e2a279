import HnswRvv.Framework.Accounting
import HnswRvv.Framework.ClassSearch
import HnswRvv.Index.EpsilonSearch

/-!
# Search for documents of several vectors

`MultiVectorSearchStopCondition` counts the vectors of each document among the results, and keeps
the results once more in a queue of its own, by distance and document. When the search sheds a
result it pops that queue too, and `filter_results` decrements the counter of the document on its
top, not that of the document whose vector it drops. The two queues order equals differently, so
that both may name different documents where vectors of different documents are equally far away.
-/

namespace HnswRvv

open Framework

/-- What ends `filter_results` early, or shows in a counter. -/
inductive DocFault where
  | zeroCounter
  | emptyBack
  | emptyResults
  | assertion
  deriving DecidableEq, Repr

/-- A `size_t` counted down. -/
def sizePred (n : Nat) : Nat := if n = 0 then 2 ^ 64 - 1 else n - 1

/-- The fields of `MultiVectorSearchStopCondition` that its methods change, and the first fault. -/
structure DocState {D DocId : Type} [LinearOrder D] [LinearOrder DocId]
    (R : PriorityQueue (D × DocId) LexLess) where
  currNumDocs : Nat
  docCounter : DocId → Nat
  searchResults : R.Carrier
  fault : Option DocFault

namespace DocState

variable {D DocId : Type} [LinearOrder D] [LinearOrder DocId]
  {R : PriorityQueue (D × DocId) LexLess}

/-- A condition that has just been built. -/
def fresh (R : PriorityQueue (D × DocId) LexLess) : DocState R := ⟨0, fun _ => 0, R.empty, none⟩

def fail (e : DocFault) (st : DocState R) : DocState R := { st with fault := st.fault.or (some e) }

/-- `search_results_.pop()` -/
def popResults (st : DocState R) : DocState R :=
  match R.top st.searchResults with
  | none => st.fail .emptyResults
  | some _ => { st with searchResults := R.pop st.searchResults }

/-- `doc_counter_[doc_id] -= 1; if (doc_counter_[doc_id] == 0) curr_num_docs_ -= 1` -/
def dropDoc (docId : DocId) (st : DocState R) : DocState R :=
  let st := if st.docCounter docId = 0 then st.fail .zeroCounter else st
  let count := sizePred (st.docCounter docId)
  { st with
    docCounter := Function.update st.docCounter docId count
    currNumDocs := if count = 0 then sizePred st.currNumDocs else st.currNumDocs }

def addPoint (docId : DocId) (dist : D) (st : DocState R) : DocState R :=
  { st with
    currNumDocs := if st.docCounter docId = 0 then st.currNumDocs + 1 else st.currNumDocs
    searchResults := R.push st.searchResults (dist, docId)
    docCounter := Function.update st.docCounter docId (st.docCounter docId + 1) }

def removePoint (docId : DocId) (st : DocState R) : DocState R := (st.dropDoc docId).popResults

/-- The loop of `filter_results`, on the candidates from the back. -/
def filterLoop (numDocsToSearch : Nat) :
    List (D × LabelType) → DocState R → List (D × LabelType) × DocState R
  | [], st => if numDocsToSearch < st.currNumDocs then ([], st.fail .emptyBack) else ([], st)
  | cand :: rest, st =>
    if numDocsToSearch < st.currNumDocs then
      match R.top st.searchResults with
      | none => (cand :: rest, st.fail .emptyResults)
      | some res =>
        if cand.1 ≠ res.1 then (cand :: rest, st.fail .assertion)
        else filterLoop numDocsToSearch rest (st.dropDoc res.2).popResults
    else (cand :: rest, st)

private theorem filterLoop_suffix (numDocsToSearch : Nat) (l : List (D × LabelType)) (st : DocState R) :
    (filterLoop numDocsToSearch l st).1 <:+ l := by
  induction l generalizing st with
  | nil =>
    rw [filterLoop]
    split <;> exact List.suffix_rfl
  | cons cand rest ih =>
    rw [filterLoop]
    split
    · split
      · exact List.suffix_rfl
      · split
        · exact List.suffix_rfl
        · exact (ih _).trans (List.suffix_cons cand rest)
    · exact List.suffix_rfl

def filterResults (numDocsToSearch : Nat) (st : DocState R) (candidates : List (D × LabelType)) :
    List (D × LabelType) × DocState R :=
  let (kept, st) := filterLoop numDocsToSearch candidates.reverse st
  (kept.reverse, st)

private theorem filterResults_prefix (numDocsToSearch : Nat) (st : DocState R)
    (candidates : List (D × LabelType)) :
    (st.filterResults numDocsToSearch candidates).1 <+: candidates := by
  have hsuffix := filterLoop_suffix numDocsToSearch candidates.reverse st
  rw [← List.reverse_prefix, List.reverse_reverse] at hsuffix
  exact hsuffix

end DocState

/-- `MultiVectorSearchStopCondition`; its constructor makes `ef_collection_` at least as large as
the number of documents. -/
def multiVectorSearchStopCondition {V D DocId : Type} [LinearOrder D] [LinearOrder DocId]
    (R : PriorityQueue (D × DocId) LexLess) (getDocId : V → DocId)
    (numDocsToSearch efCollection : Nat) : StopCondition V D (DocState R) where
  addPointToResult st _ datapoint dist := st.addPoint (getDocId datapoint) dist
  removePointFromResult st _ datapoint _ := st.removePoint (getDocId datapoint)
  shouldStopSearch st candidateDist lowerBound :=
    (decide (lowerBound < candidateDist ∧ st.currNumDocs = max efCollection numDocsToSearch), st)
  shouldConsiderCandidate st candidateDist lowerBound :=
    (decide (st.currNumDocs < max efCollection numDocsToSearch ∨ candidateDist < lowerBound), st)
  shouldRemoveExtra st := (decide (max efCollection numDocsToSearch < st.currNumDocs), st)
  filterResults st candidates := st.filterResults numDocsToSearch candidates
  filterResults_sublist st candidates :=
    (DocState.filterResults_prefix numDocsToSearch st candidates).sublist

namespace DocState

variable {D DocId : Type} [LinearOrder D] [LinearOrder DocId]
  {R : PriorityQueue (D × DocId) LexLess} {st : DocState R} {docs : Multiset DocId}
  {pairs : Multiset (D × DocId)} {docId : DocId}

/-- The counters of a multiset of documents. -/
structure Counts (st : DocState R) (docs : Multiset DocId) : Prop where
  counter : ∀ docId, st.docCounter docId = docs.count docId
  docs : st.currNumDocs = docs.toFinset.card

theorem counts_fresh (R : PriorityQueue (D × DocId) LexLess) : (fresh R).Counts 0 :=
  ⟨fun _ => rfl, rfl⟩

theorem Counts.addPoint (h : st.Counts docs) (docId : DocId) (dist : D) :
    (st.addPoint docId dist).Counts (docId ::ₘ docs) := by
  constructor
  · intro other
    rw [DocState.addPoint]
    dsimp only
    rw [Function.update_apply, Multiset.count_cons, h.counter, h.counter]
    split
    · next heq => rw [heq]
    · rfl
  · rw [DocState.addPoint]
    dsimp only
    rw [h.counter, h.docs, Multiset.toFinset_cons]
    split
    · next hnone =>
      rw [Finset.card_insert_of_notMem]
      rw [Multiset.mem_toFinset]
      exact Multiset.count_eq_zero.mp hnone
    · next hsome =>
      rw [Finset.insert_eq_of_mem]
      rw [Multiset.mem_toFinset]
      exact Multiset.count_ne_zero.mp hsome

theorem Counts.dropDoc (h : st.Counts (docId ::ₘ docs)) :
    (st.dropDoc docId).Counts docs ∧ (st.dropDoc docId).fault = st.fault ∧
      (st.dropDoc docId).searchResults = st.searchResults := by
  have hcount : st.docCounter docId = docs.count docId + 1 := by
    rw [h.counter, Multiset.count_cons_self]
  have hpred : sizePred (docs.count docId + 1) = docs.count docId := by simp [sizePred]
  simp only [DocState.dropDoc, hcount, Nat.succ_ne_zero, if_false, hpred]
  refine ⟨⟨fun other => ?_, ?_⟩, trivial, trivial⟩
  · dsimp only
    rw [Function.update_apply, h.counter, Multiset.count_cons]
    split
    · next heq => rw [heq]
    · rfl
  · dsimp only
    rw [h.docs, Multiset.toFinset_cons]
    split
    · next hnone =>
      have hnot : docId ∉ docs.toFinset := by
        rw [Multiset.mem_toFinset]
        exact Multiset.count_eq_zero.mp hnone
      rw [Finset.card_insert_of_notMem hnot, sizePred, if_neg (Nat.succ_ne_zero _)]
      rfl
    · next hsome =>
      rw [Finset.insert_eq_of_mem]
      rw [Multiset.mem_toFinset]
      exact Multiset.count_ne_zero.mp hsome

theorem Counts.removePoint {res : D × DocId} (h : st.Counts (docId ::ₘ docs))
    (htop : R.top st.searchResults = some res) :
    (st.removePoint docId).Counts docs ∧
      (st.removePoint docId).searchResults = R.pop st.searchResults ∧
      (st.removePoint docId).fault = st.fault := by
  obtain ⟨hcounts, hfault, hresults⟩ := h.dropDoc
  rw [DocState.removePoint, popResults, hresults, htop]
  exact ⟨⟨hcounts.counter, hcounts.docs⟩, rfl, hfault⟩

/-- Counters for `docs`, and `pairs` in the queue; after a tie the two need not agree. -/
structure Tracks (st : DocState R) (docs : Multiset DocId) (pairs : Multiset (D × DocId)) :
    Prop where
  counts : st.Counts docs
  results : R.elems st.searchResults = pairs

theorem tracks_fresh : (fresh R).Tracks 0 0 := ⟨counts_fresh R, R.elems_empty⟩

theorem Tracks.addPoint (h : st.Tracks docs pairs) (docId : DocId) (dist : D) :
    (st.addPoint docId dist).Tracks (docId ::ₘ docs) ((dist, docId) ::ₘ pairs) := by
  constructor
  · exact h.counts.addPoint docId dist
  · rw [← h.results]
    exact R.elems_push _ _

theorem Tracks.top {res : D × DocId} (h : st.Tracks docs (res ::ₘ pairs))
    (hmax : ∀ p ∈ pairs, p ≠ res → LexLess p res) : R.top st.searchResults = some res := by
  apply R.top_eq_of_forall_less
  · rw [h.results]
    exact Multiset.mem_cons_self _ _
  · intro p hp hne
    rw [h.results] at hp
    exact hmax p ((Multiset.mem_cons.mp hp).resolve_left hne) hne

/-- The counter of the named document goes down, and the largest pair leaves the queue. -/
theorem Tracks.removePoint {res : D × DocId} (h : st.Tracks (docId ::ₘ docs) (res ::ₘ pairs))
    (hmax : ∀ p ∈ pairs, p ≠ res → LexLess p res) :
    (st.removePoint docId).Tracks docs pairs ∧ (st.removePoint docId).fault = st.fault := by
  have htop := h.top hmax
  obtain ⟨hcounts, hresults, hfault⟩ := h.counts.removePoint htop
  refine ⟨⟨hcounts, ?_⟩, hfault⟩
  have hleft := R.elems_of_top_some _ _ htop
  rw [h.results, Multiset.cons_inj_right] at hleft
  rw [hresults]
  exact hleft.symm

/-- The number of documents in a list of pairs. -/
def numDocs (l : List (D × DocId)) : Nat := (l.map Prod.snd).toFinset.card

theorem fault_fail (e : DocFault) (st : DocState R) : (st.fail e).fault ≠ none := by
  cases h : st.fault <;> simp [fail, h]

private theorem fault_dropDoc (h : st.fault ≠ none) : (st.dropDoc docId).fault ≠ none := by
  rw [dropDoc]
  dsimp only
  split
  · exact fault_fail _ st
  · exact h

theorem fault_dropDoc_of_zero (h : st.docCounter docId = 0) : (st.dropDoc docId).fault ≠ none := by
  rw [dropDoc]
  dsimp only
  rw [if_pos h]
  exact fault_fail _ st

theorem fault_popResults (h : st.fault ≠ none) : st.popResults.fault ≠ none := by
  rw [popResults]
  split
  · exact fault_fail _ st
  · exact h

theorem fault_filterLoop (numDocsToSearch : Nat) {l : List (D × LabelType)} (h : st.fault ≠ none) :
    (filterLoop numDocsToSearch l st).2.fault ≠ none := by
  induction l generalizing st with
  | nil =>
    rw [filterLoop]
    split
    · exact fault_fail _ st
    · exact h
  | cons cand rest ih =>
    rw [filterLoop]
    split
    · split
      · exact fault_fail _ st
      · split
        · exact fault_fail _ st
        · exact ih (fault_popResults (fault_dropDoc h))
    · exact h

/-- The loop drops a candidate for every name that the countdown takes from the own queue, and
faults if the countdown fails. -/
theorem filterLoop_countdown (numDocsToSearch : Nat) {candidates : List (D × LabelType)}
    (hfst : (R.drain st.searchResults).map Prod.fst = candidates.map Prod.fst)
    (hcounts : st.Counts docs) :
    (∀ k, countdown numDocsToSearch docs ((R.drain st.searchResults).map Prod.snd) = some k →
      (filterLoop numDocsToSearch candidates st).1 = candidates.drop k ∧
        (filterLoop numDocsToSearch candidates st).2.fault = st.fault) ∧
    (countdown numDocsToSearch docs ((R.drain st.searchResults).map Prod.snd) = none →
      (filterLoop numDocsToSearch candidates st).2.fault ≠ none) := by
  induction candidates generalizing st docs with
  | nil =>
    rw [List.map_eq_nil_iff.mp hfst, List.map_nil, countdown, filterLoop, hcounts.docs]
    by_cases hfew : docs.toFinset.card ≤ numDocsToSearch
    · rw [if_pos hfew, if_neg (not_lt.mpr hfew)]
      exact ⟨fun k _ => ⟨(List.drop_nil ..).symm, rfl⟩, fun h => absurd h (Option.some_ne_none 0)⟩
    · rw [if_neg hfew, if_pos (not_le.mp hfew)]
      exact ⟨fun k h => absurd h.symm (Option.some_ne_none k), fun _ => fault_fail _ st⟩
  | cons cand rest ih =>
    by_cases hfew : docs.toFinset.card ≤ numDocsToSearch
    · rw [countdown_of_le hfew, filterLoop, hcounts.docs, if_neg (not_lt.mpr hfew)]
      refine ⟨fun k hk => ?_, fun h => absurd h (Option.some_ne_none 0)⟩
      rw [← Option.some.inj hk]
      exact ⟨rfl, rfl⟩
    · cases htop : R.top st.searchResults with
      | none =>
        rw [R.drain_of_top_none htop] at hfst
        exact absurd hfst (List.cons_ne_nil _ _).symm
      | some res =>
        rw [R.drain_of_top_some htop, List.map_cons, List.map_cons, List.cons.injEq] at hfst
        have hloop : filterLoop numDocsToSearch (cand :: rest) st =
            filterLoop numDocsToSearch rest (st.removePoint res.2) := by
          rw [filterLoop, hcounts.docs, if_pos (not_le.mp hfew), htop]
          exact if_neg (not_not.mpr hfst.1.symm)
        rw [R.drain_of_top_some htop, List.map_cons, countdown, if_neg hfew, hloop]
        by_cases hmem : res.2 ∈ docs
        · rw [if_pos hmem]
          rw [← Multiset.cons_erase hmem] at hcounts
          obtain ⟨hcounts', hafter, hfault⟩ := hcounts.removePoint htop
          rw [← hafter] at hfst ⊢
          obtain ⟨hsome, hnone⟩ := ih hfst.2 hcounts'
          refine ⟨fun k hk => ?_, fun hk => hnone (Option.map_eq_none_iff.mp hk)⟩
          obtain ⟨k', hk', rfl⟩ := Option.map_eq_some_iff.mp hk
          rw [← hfault]
          exact hsome k' hk'
        · rw [if_neg hmem]
          refine ⟨fun k h => absurd h.symm (Option.some_ne_none k),
            fun _ => fault_filterLoop _ (fault_popResults (fault_dropDoc_of_zero ?_))⟩
          rw [hcounts.counter]
          exact Multiset.count_eq_zero.mpr hmem

/-- With counters for what the own queue holds, the loop drops as many candidates as have to leave
that queue, and takes none from an empty list. -/
theorem filterLoop_spec (numDocsToSearch : Nat) {candidates : List (D × LabelType)}
    {st : DocState R}
    (hfst : (R.drain st.searchResults).map Prod.fst = candidates.map Prod.fst)
    (hcounts : st.Counts ((R.drain st.searchResults).map Prod.snd : List DocId)) :
    ∃ k, (filterLoop numDocsToSearch candidates st).1 = candidates.drop k ∧
      (filterLoop numDocsToSearch candidates st).2.fault = st.fault ∧
      numDocs ((R.drain st.searchResults).drop k) ≤ numDocsToSearch ∧
      ∀ j < k, numDocsToSearch < numDocs ((R.drain st.searchResults).drop j) := by
  obtain ⟨k, hk⟩ := exists_countdown_self numDocsToSearch ((R.drain st.searchResults).map Prod.snd)
  obtain ⟨hkept, hfault⟩ := (filterLoop_countdown numDocsToSearch hfst hcounts).1 k hk
  obtain ⟨-, hle, hlt⟩ := countdown_self_iff.mp hk
  simp only [← List.map_drop] at hle hlt
  exact ⟨k, hkept, hfault, hle, hlt⟩

end DocState

section Search

open BestFirst OrderDual

variable {ι D DocId : Type} [LinearOrder D] [LinearOrder DocId]
  {R : PriorityQueue (D × DocId) LexLess} {Q : BeamQueues ι D} {G : SearchGraph ι D}
  {doc : ι → DocId} {ef : Nat} {top : Q.far.Carrier} {st : DocState R} {ep c : ι}

/-- The rules of a search for documents, for nodes of any kind. -/
def docPolicy (R : PriorityQueue (D × DocId) LexLess) (doc : ι → DocId) (ef : Nat) :
    SearchPolicy ι D (DocState R) where
  shouldStop st _ d lb := (decide (lb < d ∧ st.currNumDocs = ef), st)
  shouldConsider st _ d lb := (decide (st.currNumDocs < ef ∨ d < lb), st)
  shouldRemove st _ := (decide (ef < st.currNumDocs), st)
  added st i d := st.addPoint (doc i) d
  removed st i _ := st.removePoint (doc i)

/-- The condition knows the documents of the result queue, and its own queue holds them too. -/
structure Mirror (doc : ι → DocId) (top : Q.far.Carrier) (st : DocState R) : Prop
    extends DocState.Tracks st ((Q.far.elems top).map fun p => doc p.2)
      ((Q.far.elems top).map fun p => (p.1, doc p.2)) where
  fault : st.fault = none

private theorem mirror_fresh : Mirror doc Q.far.empty (DocState.fresh R) := by
  refine ⟨?_, rfl⟩
  rw [Q.far.elems_empty, Multiset.map_zero, Multiset.map_zero]
  exact DocState.tracks_fresh

theorem Mirror.push (h : Mirror doc top st) (d : D) (c : ι) :
    Mirror doc (Q.far.push top (d, c)) (st.addPoint (doc c) d) := by
  refine ⟨?_, h.fault⟩
  rw [Q.far.elems_push, Multiset.map_cons, Multiset.map_cons]
  exact h.toTracks.addPoint (doc c) d

theorem Mirror.shed (h : Mirror doc top st) {p : D × ι} (hp : Q.far.top top = some p)
    (hsame : ∀ p' ∈ Q.far.elems top, p'.1 = p.1 → doc p'.2 = doc p.2) :
    Mirror doc (Q.far.pop top) (st.removePoint (doc p.2)) := by
  have htracks := h.toTracks
  rw [Q.far.elems_of_top_some top p hp, Multiset.map_cons, Multiset.map_cons] at htracks
  obtain ⟨htracks', hfault⟩ := htracks.removePoint fun r hr hne => by
    obtain ⟨p', hp', rfl⟩ := Multiset.mem_map.mp hr
    have hmem := Multiset.mem_of_le (Q.far.pop_le hp) hp'
    rcases (not_lt.mp (Q.far.top_max _ p hp p' hmem) : p'.1 ≤ p.1).lt_or_eq with hlt | heq
    · exact .inl hlt
    · exact absurd (by rw [heq, hsame p' hmem heq]) hne
  exact ⟨htracks', hfault.trans h.fault⟩

/-- The nodes that a search may return. -/
def Candidates (G : SearchGraph ι D) (ep : ι) : Set ι := {i | Reach G ep i ∧ G.eligible i = true}

private theorem candidates_of_sound {σ : Type} {b : Beam Q σ} (hs : Sound Q G ep b) :
    ∀ p ∈ Q.far.elems b.topCandidates, p.2 ∈ Candidates G ep ∧ p.1 = G.dist p.2 := by
  intro p hp
  obtain ⟨hvisited, heligible, hdist⟩ := hs.result p hp
  exact ⟨⟨hs.reach p.2 hvisited, heligible⟩, hdist⟩

/-- Between two visits. Only the first result may be one document too many. -/
structure DocBeam (G : SearchGraph ι D) (doc : ι → DocId) (ef : Nat) (b : Beam Q (DocState R)) :
    Prop where
  mirror : Mirror doc b.topCandidates b.state
  lowerBound : ∀ t, Q.far.top b.topCandidates = some t → b.lowerBound = t.1
  few : b.state.currNumDocs ≤ ef ∨ Q.far.size b.topCandidates ≤ 1

/-- While a visit of `c` sheds. As long as there is a document too many, the queue has at most one
result, or `c` is nearer than a node `t` that is still there, at least with its document. -/
structure DocShed (G : SearchGraph ι D) (doc : ι → DocId) (ef : Nat) (ep c : ι)
    (top : Q.far.Carrier) (st : DocState R) : Prop where
  mirror : Mirror doc top st
  listed : ∀ p ∈ Q.far.elems top, p.2 ∈ Candidates G ep ∧ p.1 = G.dist p.2
  excess : ef < st.currNumDocs → Q.far.size top ≤ 1 ∨
    c ∈ Candidates G ep ∧ ∃ t ∈ Candidates G ep, G.dist c < G.dist t ∧
      (Q.far.size top ≤ 2 ∧ (G.dist t, t) ∈ Q.far.elems top ∨
        st.currNumDocs ≤ ef + 1 ∧ ∃ u ∈ Q.far.elems top, doc u.2 = doc t)

private theorem eq_of_size_le_one {p p' : D × ι} (hsize : Q.far.size top ≤ 1)
    (hp : Q.far.top top = some p) (hp' : p' ∈ Q.far.elems top) : p' = p := by
  have helems := Q.far.elems_of_top_some top p hp
  have hnone : Q.far.elems (Q.far.pop top) = 0 := by
    rw [PriorityQueue.size, helems, Multiset.card_cons] at hsize
    exact Multiset.card_eq_zero.mp (by omega)
  rw [helems, hnone] at hp'
  exact Multiset.mem_singleton.mp hp'

private theorem DocShed.same_doc (h : DocShed G doc ef ep c top st)
    (hties : HarmlessTies G.dist doc (Candidates G ep)) (hover : ef < st.currNumDocs)
    {p : D × ι} (hp : Q.far.top top = some p) :
    ∀ p' ∈ Q.far.elems top, p'.1 = p.1 → doc p'.2 = doc p.2 := by
  intro p' hp' hdist
  rcases h.excess hover with hsize | ⟨hc, t, ht, hct, hwhere⟩
  · rw [eq_of_size_le_one hsize hp hp']
  · by_contra hne
    have hmem := Q.far.top_mem hp
    obtain ⟨hpS, hpd⟩ := h.listed p hmem
    obtain ⟨hpS', hpd'⟩ := h.listed p' hp'
    have htie : G.dist p.2 = G.dist p'.2 := by rw [← hpd, ← hpd', hdist]
    have hharm := hties p.2 hpS p'.2 hpS' htie (Ne.symm hne)
    -- nothing is nearer than the two, so `t` is farther and has gone
    have hleast : ∀ i ∈ Candidates G ep, G.dist p.2 ≤ G.dist i := by
      intro i hi
      rcases eq_or_ne i p.2 with rfl | hip
      · exact le_rfl
      · rcases eq_or_ne i p'.2 with rfl | hip'
        · exact htie.le
        · exact (hharm i hi hip hip').1
    have hflat : ∀ u ∈ Q.far.elems top, G.dist u.2 = G.dist p.2 := by
      intro u hu
      obtain ⟨huS, hud⟩ := h.listed u hu
      apply le_antisymm _ (hleast u.2 huS)
      rw [← hud, ← hpd]
      exact not_lt.mp (Q.far.top_max _ p hp u hu)
    have hfar : G.dist p.2 < G.dist t := (hleast c hc).trans_lt hct
    rcases hwhere with ⟨-, hthere⟩ | ⟨-, u, hu, hdoc⟩
    · exact absurd (hflat _ hthere) hfar.ne'
    · obtain ⟨huS, -⟩ := h.listed u hu
      have hut : u.2 ≠ t := fun heq => absurd (heq ▸ hflat u hu) hfar.ne'
      have hpt : t ≠ p.2 := fun heq => absurd (congrArg G.dist heq) hfar.ne'
      have hpt' : t ≠ p'.2 := fun heq => absurd ((congrArg G.dist heq).trans htie.symm) hfar.ne'
      obtain ⟨-, htp, htp'⟩ := hharm t ht hpt hpt'
      have hup : doc u.2 ≠ doc p.2 := hdoc ▸ htp
      exact (hties u.2 huS p.2 hpS (hflat u hu) hup t ht hut.symm hpt).2.1 hdoc.symm

theorem DocShed.shed (h : DocShed G doc ef ep c top st)
    (hties : HarmlessTies G.dist doc (Candidates G ep)) (hover : ef < st.currNumDocs) :
    ∃ p, Q.far.top top = some p ∧
      DocShed G doc ef ep c (Q.far.pop top) (st.removePoint (doc p.2)) := by
  obtain ⟨p, hp⟩ := Q.far.exists_top (q := top) fun hnone => by
    have hdocs := h.mirror.counts.docs
    rw [hnone, Multiset.map_zero, Multiset.toFinset_zero, Finset.card_empty] at hdocs
    omega
  have hmirror := h.mirror.shed hp (h.same_doc hties hover hp)
  have helems := Q.far.elems_of_top_some top p hp
  have hsize := Q.far.size_pop hp
  refine ⟨p, hp, hmirror, ?_, fun hover' => ?_⟩
  · exact fun p' hp' => h.listed p' (Multiset.mem_of_le (Q.far.pop_le hp) hp')
  · rcases h.excess hover with hone | ⟨hc, t, ht, hct, ⟨htwo, -⟩ | ⟨hdocs, u, hu, hdoc⟩⟩
    · exact .inl (by omega)
    · exact .inl (by omega)
    · -- the number of documents has not gone down, so that of `p` is still there
      right
      have hbefore := h.mirror.counts.docs
      have hafter := hmirror.counts.docs
      rw [helems, Multiset.map_cons, Multiset.toFinset_cons] at hbefore
      have hstill : doc p.2 ∈ (Q.far.elems (Q.far.pop top)).map fun p => doc p.2 := by
        by_contra hgone
        rw [Finset.card_insert_of_notMem (by rwa [Multiset.mem_toFinset])] at hbefore
        omega
      have hle : (st.removePoint (doc p.2)).currNumDocs ≤ ef + 1 := by
        rw [Finset.insert_eq_of_mem (by rwa [Multiset.mem_toFinset])] at hbefore
        omega
      refine ⟨hc, t, ht, hct, .inr ⟨hle, ?_⟩⟩
      rw [helems] at hu
      rcases Multiset.mem_cons.mp hu with rfl | hu
      · obtain ⟨u', hu', heq⟩ := Multiset.mem_map.mp hstill
        exact ⟨u', hu', heq.trans hdoc⟩
      · exact ⟨u, hu, hdoc⟩

private theorem docBeam_start (maxDist : D) :
    DocBeam G doc ef (start Q G (docPolicy R doc ef) maxDist ep (DocState.fresh R)) := by
  unfold start
  split
  · refine ⟨mirror_fresh.push _ _, fun t ht => ?_, .inr ?_⟩
    · have hmem := Q.far.top_mem ht
      rw [Q.far.elems_push, Q.far.elems_empty] at hmem
      rw [Multiset.mem_singleton.mp hmem]
    · rw [Q.far.size_push, Q.far.size_empty]
  · refine ⟨mirror_fresh, fun t ht => ?_, .inl (Nat.zero_le _)⟩
    have hmem := Q.far.top_mem ht
    rw [Q.far.elems_empty] at hmem
    exact absurd hmem (Multiset.notMem_zero t)

theorem DocBeam.admits {b : Beam Q (DocState R)} (h : DocBeam G doc ef b) (hs : Sound Q G ep b)
    (hc : Reach G ep c) (hwant : (consider Q G (docPolicy R doc ef) c b).1 = true) :
    DocShed G doc ef ep c (admitted Q G (docPolicy R doc ef) c b.topCandidates b.state).1
      (admitted Q G (docPolicy R doc ef) c b.topCandidates b.state).2 := by
  have hlisted := candidates_of_sound hs
  have hwant : b.state.currNumDocs < ef ∨ G.dist c < b.lowerBound := of_decide_eq_true hwant
  unfold admitted
  split
  · next heligible =>
    have hmirror := h.mirror.push (G.dist c) c
    refine ⟨hmirror, fun p hp => ?_, fun hover => ?_⟩
    · rw [Q.far.elems_push] at hp
      rcases Multiset.mem_cons.mp hp with rfl | hp
      · exact ⟨⟨hc, heligible⟩, rfl⟩
      · exact hlisted p hp
    · have hover : ef < (b.state.addPoint (doc c) (G.dist c)).currNumDocs := hover
      have hgrow : (b.state.addPoint (doc c) (G.dist c)).currNumDocs ≤ b.state.currNumDocs + 1 := by
        rw [DocState.addPoint]
        dsimp only
        split <;> omega
      cases ht : Q.far.top b.topCandidates with
      | none =>
        left
        rw [Q.far.size_push, PriorityQueue.size, Q.far.elems_of_top_none _ ht, Multiset.card_zero]
      | some t =>
        right
        have hmem := Q.far.top_mem ht
        obtain ⟨htS, htd⟩ := hlisted t hmem
        have hnear : G.dist c < G.dist t.2 := by
          rw [← htd, ← h.lowerBound t ht]
          exact hwant.resolve_left (by omega)
        refine ⟨⟨hc, heligible⟩, t.2, htS, hnear, ?_⟩
        rw [Q.far.elems_push, Q.far.size_push]
        rcases h.few with hfew | hone
        · exact .inr ⟨by change (b.state.addPoint _ _).currNumDocs ≤ _; omega, t,
            Multiset.mem_cons_of_mem hmem, rfl⟩
        · exact .inl ⟨by omega, Multiset.mem_cons_of_mem (htd ▸ hmem)⟩
  · refine ⟨h.mirror, hlisted, fun hover => .inl ?_⟩
    rcases h.few with hfew | hone
    · exact absurd hover (not_lt.mpr hfew)
    · exact hone

variable [DecidableEq ι]

private theorem doc_accounts (hties : HarmlessTies G.dist doc (Candidates G ep)) :
    Accounts Q G (docPolicy R doc ef) ep (DocBeam G doc ef)
      (fun _ c top st => DocShed G doc ef ep c top st) where
  next b c b' h hn := by
    obtain ⟨htop, -, hlb, -⟩ := next_inr hn
    have hstate := next_inr_state (fun _ _ _ _ => rfl) hn
    refine ⟨?_, ?_, ?_⟩
    · rw [htop, hstate]
      exact h.mirror
    · rw [htop, hlb]
      exact h.lowerBound
    · rw [htop, hstate]
      exact h.few
  pass b c h _ _ := ⟨h.mirror, h.lowerBound, h.few⟩
  admits b c h hs hc _ hwant := h.admits hs hc hwant
  shed b c top st h hremove := h.shed hties (of_decide_eq_true hremove)
  settle b c top st h hkeep := by
    refine ⟨h.mirror, fun t ht => ?_, .inl (not_lt.mp (of_decide_eq_false hkeep))⟩
    simp only [settled] at ht ⊢
    rw [ht]
    rfl

end Search

section Answer

variable {ι D DocId : Type} [LinearOrder DocId]

/-- The number of documents that own the elements of a list. -/
def docsOf (doc : ι → DocId) (l : List (D × ι)) : Nat := (l.map fun p => doc p.2).toFinset.card

theorem docsOf_reverse (doc : ι → DocId) (l : List (D × ι)) :
    docsOf doc l.reverse = docsOf doc l := by
  rw [docsOf, docsOf, List.map_reverse, List.toFinset_reverse]

variable [LinearOrder D]

/-- The elements come nearest first, and are cut as late as the number of documents permits. -/
structure LatestCut (doc : ι → DocId) (numDocsToSearch : Nat) (held result : List (D × ι)) :
    Prop where
  ascending : held.Pairwise fun a b => a.1 ≤ b.1
  cut : result <+: held
  docs_le : docsOf doc result ≤ numDocsToSearch
  latest : ∀ longer, longer <+: held → result.length < longer.length →
    numDocsToSearch < docsOf doc longer

/-- A cut is the latest one if and only if the countdown of the elements themselves ends there. -/
theorem latestCut_iff {ι D DocId : Type} [LinearOrder D] [LinearOrder DocId] {doc : ι → DocId}
    {numDocsToSearch k : Nat} {elems : List (D × ι)}
    (hdescending : elems.Pairwise fun a b => b.1 ≤ a.1) (hk : k ≤ elems.length) :
    LatestCut doc numDocsToSearch elems.reverse (elems.drop k).reverse ↔
      countdown numDocsToSearch (elems.map fun p => doc p.2 : List DocId)
        (elems.map fun p => doc p.2) = some k := by
  rw [countdown_self_iff, List.length_map]
  simp only [← List.map_drop]
  constructor
  · intro h
    refine ⟨hk, (docsOf_reverse doc _).symm.le.trans h.docs_le, fun j hj => ?_⟩
    have hlatest := h.latest (elems.drop j).reverse
      (List.reverse_prefix.mpr (List.drop_suffix j elems))
      (by rw [List.length_reverse, List.length_reverse, List.length_drop, List.length_drop]; omega)
    rwa [docsOf_reverse] at hlatest
  · rintro ⟨-, hle, hlt⟩
    refine ⟨List.pairwise_reverse.mpr hdescending,
      List.reverse_prefix.mpr (List.drop_suffix k elems), (docsOf_reverse doc _).le.trans hle, ?_⟩
    rintro longer ⟨rest, hrest⟩ hlength
    have hdrop : elems.drop rest.length = longer.reverse := by
      have hrev := congrArg List.reverse hrest
      rw [List.reverse_append, List.reverse_reverse] at hrev
      rw [← hrev, ← List.length_reverse, List.drop_left]
    have htotal := congrArg List.length hrest
    rw [List.length_append, List.length_reverse] at htotal
    rw [List.length_reverse, List.length_drop] at hlength
    rw [← docsOf_reverse, ← hdrop]
    exact hlt rest.length (by omega)

/-- The filter cuts where it should, without a fault, exactly if the own queue counts the documents of
the elements down as the elements themselves do. -/
theorem filterResults_iff {R : PriorityQueue (D × DocId) LexLess} {Q : BeamQueues TableInt D}
    {doc : TableInt → DocId} {top : Q.far.Carrier} {st : DocState R} (hnone : st.fault = none)
    (hcounts : st.Counts ((Q.far.drain top).map fun p => doc p.2 : List DocId))
    (hfst : (R.drain st.searchResults).map Prod.fst = (Q.far.drain top).map Prod.fst)
    (numDocsToSearch : Nat) :
    ((st.filterResults numDocsToSearch (Q.far.drain top).reverse).2.fault = none ∧
      LatestCut doc numDocsToSearch (Q.far.drain top).reverse
        (st.filterResults numDocsToSearch (Q.far.drain top).reverse).1) ↔
    CutAlike numDocsToSearch ((Q.far.drain top).map fun p => doc p.2)
      ((R.drain st.searchResults).map Prod.snd) := by
  obtain ⟨hsome, hfails⟩ := DocState.filterLoop_countdown numDocsToSearch hfst hcounts
  simp only [DocState.filterResults, List.reverse_reverse, CutAlike]
  constructor
  · rintro ⟨hfault, hcut⟩
    cases hk : countdown numDocsToSearch ((Q.far.drain top).map fun p => doc p.2 : List DocId)
        ((R.drain st.searchResults).map Prod.snd) with
    | none => exact absurd hfault (hfails hk)
    | some k =>
      have hle := countdown_le_length hk
      have hlength := congrArg List.length hfst
      rw [List.length_map, List.length_map] at hlength
      rw [List.length_map, hlength] at hle
      rw [(hsome k hk).1, latestCut_iff (drain_fstLess_descending Q.far top) hle] at hcut
      exact hcut.symm
  · intro hsame
    obtain ⟨k, hk⟩ := exists_countdown_self numDocsToSearch ((Q.far.drain top).map fun p => doc p.2)
    obtain ⟨hkept, hfault⟩ := hsome k (hsame.trans hk)
    rw [hkept, hfault]
    have hle := countdown_le_length hk
    rw [List.length_map] at hle
    exact ⟨hnone, (latestCut_iff (drain_fstLess_descending Q.far top) hle).mpr hk⟩

theorem Mirror.filterResults {R : PriorityQueue (D × DocId) LexLess} {Q : BeamQueues TableInt D}
    {dist : TableInt → D} {doc : TableInt → DocId} {S : Set TableInt} {top : Q.far.Carrier}
    {st : DocState R} (h : Mirror doc top st) (hties : HarmlessTies dist doc S)
    (hlisted : ∀ p ∈ Q.far.elems top, p.2 ∈ S ∧ p.1 = dist p.2)
    (hnodup : ((Q.far.elems top).map Prod.snd).Nodup) (numDocsToSearch : Nat) :
    (st.filterResults numDocsToSearch (Q.far.drain top).reverse).2.fault = none ∧
      LatestCut doc numDocsToSearch (Q.far.drain top).reverse
        (st.filterResults numDocsToSearch (Q.far.drain top).reverse).1 := by
  have hcounts : st.Counts ((Q.far.drain top).map fun p => doc p.2 : List DocId) := by
    rw [← Multiset.map_coe, Q.far.coe_drain]
    exact h.counts
  have hperm := drain_perm h.results
  refine (filterResults_iff h.fault hcounts (fst_drain_eq h.results) numDocsToSearch).mpr ?_
  refine cutAlike_of_perm ?_ fun j => ?_
  · have hnames := hperm.symm.map Prod.snd
    rwa [List.map_map] at hnames
  · -- dropping from either queue leaves the same number of documents
    rw [← List.map_drop, ← List.map_drop]
    exact hties.card_classes_drop (fun p hp => hlisted p (Q.far.mem_drain.mp hp))
      ((Q.far.nodup_map_drain _ _).mpr hnodup) hperm (drain_fstLess_descending _ _)
      (drain_lexLess_descending _ _) j

end Answer

namespace Index

variable {V D DocId : Type} [Inhabited V] [LinearOrder D] [LinearOrder DocId]

def docOf (s : Index V) (getDocId : V → DocId) (i : TableInt) : DocId :=
  getDocId (s.getDataByInternalId i)

/-- What `searchStopConditionClosest` hands to `filter_results`. -/
def heldElements {σ : Type} (P : Platform V D) (s : Index V) (queryData : V)
    (stopCondition : StopCondition V D σ) (st : σ) (isIdAllowed : Option (LabelType → Bool)) :
    Except Failure (List (D × LabelType)) :=
  if s.curElementCount = 0 then .ok []
  else match descentEnd P s queryData true 0 with
    | .error e => .error e
    | .ok currObj =>
      match searchBaseLayerST P s false currObj queryData 0 isIdAllowed (some stopCondition) st with
      | .error e => .error e
      | .ok (topCandidates, _) => .ok (P.queues.far.drain topCandidates).reverse

/-- A search for documents ends without a fault, and cuts what it holds where it should. -/
def FindsDocs (P : Platform V D) (s : Index V) (q : V) (isIdAllowed : Option (LabelType → Bool))
    (getDocId : V → DocId) (R : PriorityQueue (D × DocId) LexLess)
    (numDocsToSearch efCollection : Nat) : Prop :=
  let stop := multiVectorSearchStopCondition R getDocId numDocsToSearch efCollection
  ∃ held result st,
    heldElements P s q stop (DocState.fresh R) isIdAllowed = .ok held ∧
    searchStopConditionClosest P s q stop (DocState.fresh R) isIdAllowed = .ok (result, st) ∧
    st.fault = none ∧ LatestCut (s.docOf getDocId) numDocsToSearch held result

variable {P : Platform V D} {s : Index V} {q : V} {isIdAllowed : Option (LabelType → Bool)}
  {getDocId : V → DocId}

theorem findsDocs_of_empty (hempty : s.curElementCount = 0) (R : PriorityQueue (D × DocId) LexLess)
    (numDocsToSearch efCollection : Nat) :
    FindsDocs P s q isIdAllowed getDocId R numDocsToSearch efCollection := by
  refine ⟨[], [], DocState.fresh R, ?_, ?_, rfl, ?_⟩
  · rw [heldElements, if_pos hempty]
  · rw [searchStopConditionClosest, if_pos hempty]
  · refine ⟨List.Pairwise.nil, List.prefix_rfl, Nat.zero_le _, fun longer hlonger hlength => ?_⟩
    rw [List.prefix_nil.mp hlonger] at hlength
    exact absurd hlength (lt_irrefl _)

theorem findsDocs_iff_of_search {R : PriorityQueue (D × DocId) LexLess}
    {numDocsToSearch efCollection : Nat} {start : TableInt} {b : Beam P.queues (DocState R)}
    (hne : s.curElementCount ≠ 0) (hstart : descentEnd P s q true 0 = .ok start)
    (hsearch : BestFirst.search P.queues (layerGraph P s q 0 (s.returnable false isIdAllowed))
      (docPolicy R (s.docOf getDocId) (max efCollection numDocsToSearch)) s.curElementCount P.maxDist
      start (DocState.fresh R) = .ok b) :
    FindsDocs P s q isIdAllowed getDocId R numDocsToSearch efCollection ↔
      (b.state.filterResults numDocsToSearch
        (P.queues.far.drain b.topCandidates).reverse).2.fault = none ∧
      LatestCut (s.docOf getDocId) numDocsToSearch (P.queues.far.drain b.topCandidates).reverse
        (b.state.filterResults numDocsToSearch (P.queues.far.drain b.topCandidates).reverse).1 := by
  have hbeam : searchBaseLayerSTBeam P s false start q 0 isIdAllowed
      (some (multiVectorSearchStopCondition R getDocId numDocsToSearch efCollection))
      (DocState.fresh R) = .ok b := by
    rw [searchBaseLayerSTBeam]
    exact congrArg _ hsearch
  have hheld : heldElements P s q (multiVectorSearchStopCondition R getDocId numDocsToSearch
      efCollection) (DocState.fresh R) isIdAllowed =
      .ok (P.queues.far.drain b.topCandidates).reverse := by
    rw [heldElements, if_neg hne, hstart]
    simp only [searchBaseLayerST, hbeam]
  have hanswer : searchStopConditionClosest P s q (multiVectorSearchStopCondition R getDocId
      numDocsToSearch efCollection) (DocState.fresh R) isIdAllowed =
      .ok (b.state.filterResults numDocsToSearch (P.queues.far.drain b.topCandidates).reverse) := by
    rw [searchStopConditionClosest, if_neg hne, hstart]
    simp only [searchBaseLayerST, hbeam]
    rfl
  constructor
  · rintro ⟨held, result, st, hheld', hanswer', hfault, hcut⟩
    obtain rfl := Except.ok.inj (hheld.symm.trans hheld')
    rw [Except.ok.inj (hanswer.symm.trans hanswer')]
    exact ⟨hfault, hcut⟩
  · rintro ⟨hfault, hcut⟩
    exact ⟨_, _, _, hheld, hanswer, hfault, hcut⟩

theorem findsDocs_of_harmlessTies (h : s.WellFormed)
    (hties : s.curElementCount ≠ 0 → ∀ start, descentEnd P s q true 0 = .ok start →
      HarmlessTies (fun i => P.fstdistfunc q (s.getDataByInternalId i)) (s.docOf getDocId)
        {i | s.Findable isIdAllowed start i})
    (R : PriorityQueue (D × DocId) LexLess) (numDocsToSearch efCollection : Nat) :
    FindsDocs P s q isIdAllowed getDocId R numDocsToSearch efCollection := by
  by_cases hempty : s.curElementCount = 0
  · exact findsDocs_of_empty hempty R numDocsToSearch efCollection
  · obtain ⟨ep, start, -, hstart, hat, -⟩ := h.exists_descentEnd (Nat.pos_of_ne_zero hempty) P q
    set G := layerGraph P s q 0 (s.returnable false isIdAllowed) with hG
    have hcandidates : {i | s.Findable isIdAllowed start i} = Candidates G start :=
      Set.ext fun i => findable_iff
    have hties := hties hempty start hstart
    rw [hcandidates] at hties
    have haccounts : BestFirst.Accounts P.queues G
        (docPolicy R (s.docOf getDocId) (max efCollection numDocsToSearch)) start
        (DocBeam G (s.docOf getDocId) (max efCollection numDocsToSearch)) _ :=
      doc_accounts hties
    obtain ⟨b, b₀, hsearch, hdocs, hnext⟩ := haccounts.search (levelElements_closed h.graph 0)
      (mem_levelElements.mpr hat) (card_levelElements_le s 0)
      (docBeam_start P.maxDist)
    have hmirror : Mirror (s.docOf getDocId) b.topCandidates b.state := by
      rw [(BestFirst.next_inl hnext).1, BestFirst.next_inl_state (fun _ _ _ _ => rfl) hnext]
      exact hdocs.mirror
    have hsound := BestFirst.search_sound hsearch
    rw [findsDocs_iff_of_search hempty hstart hsearch]
    exact hmirror.filterResults hties (candidates_of_sound hsound) hsound.nodup numDocsToSearch

end Index

end HnswRvv
