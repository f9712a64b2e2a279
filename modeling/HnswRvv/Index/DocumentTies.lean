import HnswRvv.Index.DocumentSearch

/-!
# Ties that spoil a search for documents

Whatever the elements are, a harmful tie among them spoils the search in some index of these
elements. The index is a star: the search meets its hub first and then two leaves, in the order of
the links. The result queue takes equals out in the order opposite to that of the condition's own
queue. Then either a document is counted down that has no vector left, or the cut is misplaced.
-/

namespace HnswRvv

open Framework

namespace DocState

variable {D DocId : Type} [LinearOrder D] [LinearOrder DocId]
  {R : PriorityQueue (D × DocId) LexLess} {st : DocState R} {docs : Multiset DocId}
  {pairs : Multiset (D × DocId)} {docId : DocId}

/-- To cut with a document on top that has no vector is a fault, whatever there is to cut. -/
theorem fault_of_zero_top {numDocsToSearch : Nat} (l : List (D × LabelType)) {res : D × DocId}
    (hmore : numDocsToSearch < st.currNumDocs) (htop : R.top st.searchResults = some res)
    (hzero : st.docCounter res.2 = 0) : (filterLoop numDocsToSearch l st).2.fault ≠ none := by
  cases l with
  | nil =>
    rw [filterLoop, if_pos hmore]
    exact fault_fail _ st
  | cons cand rest =>
    rw [filterLoop, if_pos hmore, htop]
    dsimp only
    split
    · exact fault_fail _ st
    · exact fault_filterLoop _ (fault_popResults (fault_dropDoc_of_zero hzero))

theorem Tracks.fault {dist : D} (h : st.Tracks docs ((dist, docId) ::ₘ pairs))
    (hmax : ∀ p ∈ pairs, p ≠ (dist, docId) → LexLess p (dist, docId)) (hgone : docId ∉ docs)
    {numDocsToSearch : Nat} (hmore : numDocsToSearch < docs.toFinset.card)
    (l : List (D × LabelType)) : (st.filterResults numDocsToSearch l).2.fault ≠ none := by
  apply fault_of_zero_top l.reverse (h.counts.docs ▸ hmore) (h.top hmax)
  rw [h.counts.counter]
  exact Multiset.count_eq_zero.mpr hgone

/-- One candidate goes. If that is enough for one queue and not for the other, the cut is wrong. -/
theorem not_latestCut_of_tail {doc : TableInt → DocId} {numDocsToSearch : Nat}
    {cand : D × TableInt} {cands : List (D × TableInt)} {res : D × DocId} {rest : List (D × DocId)}
    (hdrain : R.drain st.searchResults = res :: rest)
    (hfst : (res :: rest).map Prod.fst = (cand :: cands).map Prod.fst)
    (hcounts : st.Counts ((res :: rest).map Prod.snd : List DocId))
    (hmore : numDocsToSearch < numDocs (res :: rest))
    (hdiffer : numDocs rest ≤ numDocsToSearch ∧ numDocsToSearch < docsOf doc cands ∨
      numDocsToSearch < numDocs rest ∧ docsOf doc cands ≤ numDocsToSearch) :
    ¬ LatestCut doc numDocsToSearch (cand :: cands).reverse
      (st.filterResults numDocsToSearch (cand :: cands).reverse).1 := by
  intro hcut
  have hlength : rest.length = cands.length := by
    have hlength := congrArg List.length hfst
    rwa [List.length_map, List.length_map, List.length_cons, List.length_cons,
      Nat.add_right_cancel_iff] at hlength
  rw [← hdrain] at hfst hcounts
  obtain ⟨k, hkept, -, hle, hlt⟩ := filterLoop_spec numDocsToSearch hfst hcounts
  rw [hdrain] at hle hlt
  simp only [filterResults, List.reverse_reverse, hkept] at hcut
  have hk : k ≠ 0 := by
    rintro rfl
    exact absurd hmore (not_lt.mpr hle)
  rcases hdiffer with ⟨hfew, hmany⟩ | ⟨hmany, hfew⟩
  · have hone : k = 1 := by
      by_contra hne
      exact absurd (hlt 1 (by omega)) (not_lt.mpr hfew)
    have hdocs := hcut.docs_le
    rw [hone, docsOf_reverse] at hdocs
    exact absurd hmany (not_lt.mpr hdocs)
  · have hone : k = 1 := by
      by_contra hne
      have hpos : 0 < rest.length := by
        apply List.length_pos_of_ne_nil
        rintro rfl
        exact absurd hmany (Nat.not_lt_zero _)
      have hlatest := hcut.latest cands.reverse (List.reverse_prefix.mpr (List.suffix_cons cand cands))
        (by rw [List.length_reverse, List.length_reverse, List.length_drop, List.length_cons]; omega)
      rw [docsOf_reverse] at hlatest
      exact absurd hlatest (not_lt.mpr hfew)
    rw [hone] at hle
    exact absurd hmany (not_lt.mpr hle)

end DocState

section Star

open BestFirst OrderDual

variable {D DocId : Type} [LinearOrder D] [LinearOrder DocId]
  {R : PriorityQueue (D × DocId) LexLess} {doc : TableInt → DocId}
  {near : PriorityQueue (Dᵒᵈ × TableInt) FstLess} {G : SearchGraph TableInt D} {ef : Nat}

/-- Queues in which the lesser document is on top among equals. -/
def tieQueues (doc : TableInt → DocId) (near : PriorityQueue (Dᵒᵈ × TableInt) FstLess) :
    BeamQueues TableInt D :=
  ⟨tieQueue doc, near⟩

variable {top top' : (tieQueues doc near).far.Carrier} {st st' : DocState R}
  {docs : Multiset DocId} {pairs : Multiset (D × DocId)} {nodes : Multiset (D × TableInt)}
  {p : D × TableInt} {c : TableInt}

private theorem trim_keep {d : D} {n : Nat} (hst : st.Tracks docs pairs) (hfit : docs.toFinset.card ≤ ef)
    (h : trim (tieQueues doc near) (docPolicy R doc ef) d n top st = .ok (top', st')) :
    top' = top ∧ st' = st := by
  have hkeep : ((docPolicy R doc ef).shouldRemove st ((tieQueues doc near).far.size top)).1 =
      false := by
    apply decide_eq_false
    rw [hst.counts.docs]
    exact not_lt.mpr hfit
  rw [trim_of_keep hkeep] at h
  obtain ⟨rfl, rfl⟩ := Prod.mk.inj (Except.ok.inj h)
  exact ⟨rfl, rfl⟩

private theorem trim_shed {d : D} {res : D × DocId} (hnodes : (tieQueues doc near).far.elems top = p ::ₘ nodes)
    (hst : st.Tracks (doc p.2 ::ₘ docs) (res ::ₘ pairs))
    (hp : ∀ p' ∈ nodes, p' ≠ p → p'.1 < p.1 ∨ (p'.1 = p.1 ∧ doc p.2 < doc p'.2))
    (hres : ∀ r ∈ pairs, r ≠ res → LexLess r res)
    (hover : ef < (doc p.2 ::ₘ docs).toFinset.card)
    (h : trim (tieQueues doc near) (docPolicy R doc ef) d ((tieQueues doc near).far.size top) top st =
      .ok (top', st')) :
    ∃ top₁ st₁, (tieQueues doc near).far.elems top₁ = nodes ∧ DocState.Tracks st₁ docs pairs ∧
      trim (tieQueues doc near) (docPolicy R doc ef) d ((tieQueues doc near).far.size top₁) top₁ st₁ =
        .ok (top', st') := by
  have htop : (tieQueues doc near).far.top top = some p := by
    apply tieQueue_top_eq
    · exact hnodes ▸ Multiset.mem_cons_self p nodes
    · intro p' hp' hne
      change p' ∈ (tieQueues doc near).far.elems top at hp'
      rw [hnodes] at hp'
      exact hp p' ((Multiset.mem_cons.mp hp').resolve_left hne) hne
  have hleft := (tieQueues doc near).far.elems_of_top_some top p htop
  rw [hnodes, Multiset.cons_inj_right] at hleft
  refine ⟨_, _, hleft.symm, (hst.removePoint hres).1, ?_⟩
  have hremove : ((docPolicy R doc ef).shouldRemove st ((tieQueues doc near).far.size top)).1 =
      true :=
    decide_eq_true (hst.counts.docs ▸ hover)
  rw [(tieQueues doc near).far.size_pop htop, trim_of_remove hremove htop] at h
  exact h

private theorem visit_new {b b' : Beam (tieQueues doc near) (DocState R)}
    (h : visit (tieQueues doc near) G (docPolicy R doc ef) c b = .ok b') (hnew : c ∉ b.visited)
    (heligible : G.eligible c = true)
    (hwant : b.state.currNumDocs < ef ∨ G.dist c < b.lowerBound) :
    ∃ top₁, (tieQueues doc near).far.elems top₁ =
        (G.dist c, c) ::ₘ (tieQueues doc near).far.elems b.topCandidates ∧
      trim (tieQueues doc near) (docPolicy R doc ef) (G.dist c)
        ((tieQueues doc near).far.size top₁) top₁ (b.state.addPoint (doc c) (G.dist c)) =
          .ok (b'.topCandidates, b'.state) ∧
      b'.visited = insert c b.visited ∧
      b'.lowerBound =
        (((tieQueues doc near).far.top b'.topCandidates).map Prod.fst).getD b.lowerBound := by
  have hconsider : (consider (tieQueues doc near) G (docPolicy R doc ef) c b).1 = true :=
    decide_eq_true hwant
  rcases visit_cases h with ⟨hold, -⟩ | ⟨-, hnot, -⟩ | ⟨-, -, mid, top, st, rfl, htrim, rfl⟩
  · exact absurd hold hnew
  · exact absurd (hconsider.symm.trans hnot) Bool.false_ne_true.symm
  · rw [admitted, if_pos heligible] at htrim
    exact ⟨_, (tieQueues doc near).far.elems_push _ _, htrim, rfl, rfl⟩

/-- A hub with two leaves, all of them eligible. -/
structure IsStar (G : SearchGraph TableInt D) (hub i j : TableInt) : Prop where
  links : G.links hub = [i, j]
  leaves : G.links i = [] ∧ G.links j = []
  eligible : G.eligible hub = true ∧ G.eligible i = true ∧ G.eligible j = true
  distinct : i ≠ hub ∧ j ≠ hub ∧ j ≠ i

/-- What a beam has in its result queue, in its counters and in the queue of the condition. -/
structure Shows (b : Beam (tieQueues doc near) (DocState R)) (nodes : Multiset (D × TableInt))
    (docs : Multiset DocId) (pairs : Multiset (D × DocId)) : Prop where
  nodes : (tieQueues doc near).far.elems b.topCandidates = nodes
  tracks : b.state.Tracks docs pairs

variable {b b' : Beam (tieQueues doc near) (DocState R)}

theorem IsStar.search {hub i j : TableInt} (hstar : IsStar G hub i j) {fuel : Nat} {maxDist : D}
    (h : BestFirst.search (tieQueues doc near) G (docPolicy R doc ef) fuel maxDist hub
      (DocState.fresh R) = .ok b) :
    ∃ b₀ b₁ b₂, Shows b₀ {(G.dist hub, hub)} {doc hub} {(G.dist hub, doc hub)} ∧
      b₀.visited = {hub} ∧ b₀.lowerBound = G.dist hub ∧
      visit (tieQueues doc near) G (docPolicy R doc ef) i b₀ = .ok b₁ ∧
      visit (tieQueues doc near) G (docPolicy R doc ef) j b₁ = .ok b₂ ∧
      b.topCandidates = b₂.topCandidates ∧ b.state = b₂.state := by
  have hleaves : ∀ k ∈ G.links hub, G.links k = [] := by
    rw [hstar.links]
    simp [hstar.leaves]
  have hgo : ((docPolicy R doc ef).shouldStop ((docPolicy R doc ef).added (DocState.fresh R) hub
      (G.dist hub)) 1 (G.dist hub) (G.dist hub)).1 = false :=
    decide_eq_false fun hstop => lt_irrefl _ hstop.1
  obtain ⟨b₀, b₂, htop, hvisited, hlb, hstate, hexpand, hsame⟩ :=
    search_star (fun _ _ _ _ => rfl) hstar.eligible.1 hleaves hgo h
  rw [hstar.links, expand] at hexpand
  split at hexpand
  · cases hexpand
  · next b₁ hfirst =>
    rw [expand] at hexpand
    split at hexpand
    · cases hexpand
    · next _ hsecond =>
      cases hexpand
      refine ⟨b₀, b₁, b₂, ⟨?_, ?_⟩, hvisited, hlb, hfirst, hsecond, hsame⟩
      · rw [htop, (tieQueues doc near).far.elems_push, (tieQueues doc near).far.elems_empty]
        rfl
      · rw [hstate]
        exact DocState.tracks_fresh.addPoint (doc hub) (G.dist hub)

private theorem Shows.visit_keep (h : Shows b nodes docs pairs)
    (hvisit : visit (tieQueues doc near) G (docPolicy R doc ef) c b = .ok b')
    (hnew : c ∉ b.visited) (heligible : G.eligible c = true)
    (hwant : docs.toFinset.card < ef ∨ G.dist c < b.lowerBound)
    (hfit : (doc c ::ₘ docs).toFinset.card ≤ ef) :
    Shows b' ((G.dist c, c) ::ₘ nodes) (doc c ::ₘ docs) ((G.dist c, doc c) ::ₘ pairs) ∧
      b'.visited = insert c b.visited ∧
      ∀ p ∈ (G.dist c, c) ::ₘ nodes, (∀ p' ∈ (G.dist c, c) ::ₘ nodes, p'.1 ≤ p.1) →
        b'.lowerBound = p.1 := by
  rw [← h.tracks.counts.docs] at hwant
  obtain ⟨top₁, hnodes, htrim, hvisited, hlb⟩ := visit_new hvisit hnew heligible hwant
  have hadded := h.tracks.addPoint (doc c) (G.dist c)
  obtain ⟨htop, hstate⟩ := trim_keep hadded hfit htrim
  rw [h.nodes, ← htop] at hnodes
  rw [← hstate] at hadded
  refine ⟨⟨hnodes, hadded⟩, hvisited, fun p hp hmax => ?_⟩
  rw [← hnodes] at hp
  obtain ⟨t, ht⟩ := (tieQueues doc near).far.exists_top_of_mem hp
  have hle := hmax t (hnodes ▸ (tieQueues doc near).far.top_mem ht)
  have hge : p.1 ≤ t.1 := not_lt.mp ((tieQueues doc near).far.top_max _ t ht p hp)
  rw [hlb, ht]
  exact le_antisymm hle hge

private theorem cons_singleton_swap {α : Type} (a b : α) : a ::ₘ ({b} : Multiset α) = b ::ₘ {a} :=
  Multiset.pair_comm a b

private theorem cons_cons_singleton_rotate {α : Type} (a b c : α) :
    a ::ₘ b ::ₘ ({c} : Multiset α) = c ::ₘ a ::ₘ {b} := by
  rw [← Multiset.cons_zero c, ← Multiset.cons_zero b, Multiset.cons_swap b c, Multiset.cons_swap a c]

/-- Two elements of different documents at one distance, and a third that is nearer or shares a
document with one of them. -/
structure HarmfulTie (dist : TableInt → D) (doc : TableInt → DocId) (x y z : TableInt) : Prop where
  tie : dist y = dist z
  less : doc y < doc z
  distinct : x ≠ y ∧ x ≠ z ∧ y ≠ z
  harm : dist x < dist y ∨ doc x = doc y ∨ doc x = doc z

theorem HarmfulTie.congr {dist dist' : TableInt → D} {doc doc' : TableInt → DocId} {x y z : TableInt}
    (h : HarmfulTie dist doc x y z)
    (hsame : ∀ k, k = x ∨ k = y ∨ k = z → dist' k = dist k ∧ doc' k = doc k) :
    HarmfulTie dist' doc' x y z := by
  obtain ⟨hdx, hcx⟩ := hsame x (.inl rfl)
  obtain ⟨hdy, hcy⟩ := hsame y (.inr (.inl rfl))
  obtain ⟨hdz, hcz⟩ := hsame z (.inr (.inr rfl))
  constructor
  · rw [hdy, hdz]
    exact h.tie
  · rw [hcy, hcz]
    exact h.less
  · exact h.distinct
  · rw [hdx, hdy, hcx, hcy, hcz]
    exact h.harm

/-- The third is nearer and has a document of its own. The result queue sheds `y` for it, and the
condition's own queue the pair of `z`. -/
theorem fault_of_nearer {x y z : TableInt} (htie : HarmfulTie G.dist doc x y z)
    (hnear : G.dist x < G.dist y) (hxy : doc x ≠ doc y) (hxz : doc x ≠ doc z)
    (hstar : IsStar G y z x) {fuel : Nat} {maxDist : D}
    (h : BestFirst.search (tieQueues doc near) G (docPolicy R doc 2) fuel maxDist y
      (DocState.fresh R) = .ok b) (l : List (D × LabelType)) :
    (b.state.filterResults 1 l).2.fault ≠ none := by
  obtain ⟨b₀, b₁, b₂, hshows, hvisited, -, hfirst, hsecond, -, hstate⟩ := hstar.search h
  have hyz := htie.less.ne
  obtain ⟨hshows₁, hvisited₁, hlb⟩ := hshows.visit_keep hfirst
    (by rw [hvisited]; simpa using hstar.distinct.1) hstar.eligible.2.1 (.inl (by simp))
    (by simp [hyz.symm])
  have hlb : b₁.lowerBound = G.dist y := by
    apply hlb (G.dist y, y)
    · simp
    · simp [htie.tie]
  obtain ⟨top₁, hnodes, htrim, -⟩ := visit_new hsecond
    (by rw [hvisited₁, hvisited]; simpa using ⟨hstar.distinct.2.2, hstar.distinct.2.1⟩)
    hstar.eligible.2.2 (.inr (hlb ▸ hnear))
  have hnear' : G.dist x < G.dist z := htie.tie ▸ hnear
  rw [hshows₁.nodes, cons_cons_singleton_rotate] at hnodes
  have htracks := hshows₁.tracks.addPoint (doc x) (G.dist x)
  rw [cons_cons_singleton_rotate, Multiset.cons_swap (G.dist x, doc x)] at htracks
  obtain ⟨top₂, st₂, -, htracks₂, htrim₂⟩ := trim_shed hnodes htracks
    (by simp [hnear', htie.tie, htie.less]) (by simp [LexLess, hnear', htie.tie, htie.less])
    (by simp [hxy.symm, hxz, hyz]) htrim
  obtain ⟨-, rfl⟩ := trim_keep htracks₂ (by simp [hxz]) htrim₂
  rw [hstate]
  rw [cons_singleton_swap (G.dist x, doc x)] at htracks₂
  apply htracks₂.fault
  · simp [LexLess, hnear]
  · simp [hxy.symm, hyz]
  · simp [hxz]

/-- Of two elements that tie, the result queue sheds one and the own queue the pair of the other. -/
theorem fault_of_tie {v w : TableInt} (htie : G.dist v = G.dist w) (hne : doc v ≠ doc w) {d : D}
    (hnodes : (tieQueues doc near).far.elems top = (G.dist v, v) ::ₘ {(G.dist w, w)})
    (hst : st.Tracks (doc v ::ₘ {doc w}) ((G.dist v, doc v) ::ₘ {(G.dist w, doc w)}))
    (h : trim (tieQueues doc near) (docPolicy R doc 1) d ((tieQueues doc near).far.size top) top st =
      .ok (top', st')) (l : List (D × LabelType)) : (st'.filterResults 0 l).2.fault ≠ none := by
  have hmany : 1 < (doc v ::ₘ {doc w}).toFinset.card := by simp [hne]
  rcases hne.lt_or_gt with hlt | hlt
  · rw [cons_singleton_swap (G.dist v, doc v)] at hst
    obtain ⟨top₁, st₁, -, hst₁, htrim⟩ := trim_shed hnodes hst
      (by simp [htie, hlt]) (by simp [LexLess, htie, hlt]) hmany h
    obtain ⟨-, rfl⟩ := trim_keep hst₁ (by simp) htrim
    exact hst₁.fault (by simp) (by simpa using hne) (by simp) l
  · rw [cons_singleton_swap (doc v)] at hst hmany
    rw [cons_singleton_swap (G.dist v, v)] at hnodes
    obtain ⟨top₁, st₁, -, hst₁, htrim⟩ := trim_shed hnodes hst
      (by simp [htie, hlt]) (by simp [LexLess, htie, hlt]) hmany h
    obtain ⟨-, rfl⟩ := trim_keep hst₁ (by simp) htrim
    exact hst₁.fault (by simp) (by simpa using hne.symm) (by simp) l

/-- The third is farther and shares its document with one of the two. Both queues shed it first. -/
theorem fault_of_farther {x v w : TableInt} (htie : G.dist v = G.dist w) (hne : doc v ≠ doc w)
    (hfar : G.dist w < G.dist x) (hw : doc w = doc x) (hstar : IsStar G x w v) {fuel : Nat}
    {maxDist : D}
    (h : BestFirst.search (tieQueues doc near) G (docPolicy R doc 1) fuel maxDist x
      (DocState.fresh R) = .ok b) (l : List (D × LabelType)) :
    (b.state.filterResults 0 l).2.fault ≠ none := by
  obtain ⟨b₀, b₁, b₂, hshows, hvisited, hlb₀, hfirst, hsecond, -, hstate⟩ := hstar.search h
  have hvx : doc v ≠ doc x := hw ▸ hne
  obtain ⟨hshows₁, hvisited₁, hlb⟩ := hshows.visit_keep hfirst
    (by rw [hvisited]; simpa using hstar.distinct.1) hstar.eligible.2.1
    (.inr (hlb₀ ▸ hfar)) (by simp [hw])
  have hlb : b₁.lowerBound = G.dist x := by
    apply hlb (G.dist x, x)
    · simp
    · simp [hfar.le]
  obtain ⟨top₁, hnodes, htrim, -⟩ := visit_new hsecond
    (by rw [hvisited₁, hvisited]; simpa using ⟨hstar.distinct.2.2, hstar.distinct.2.1⟩)
    hstar.eligible.2.2 (.inr (by rw [hlb, htie]; exact hfar))
  rw [hshows₁.nodes, cons_cons_singleton_rotate] at hnodes
  have htracks := hshows₁.tracks.addPoint (doc v) (G.dist v)
  rw [cons_cons_singleton_rotate (doc v), cons_cons_singleton_rotate (G.dist v, doc v)] at htracks
  obtain ⟨top₂, st₂, hnodes₂, htracks₂, htrim₂⟩ := trim_shed hnodes htracks
    (by simp [htie, hfar]) (by simp [LexLess, htie, hfar]) (by simp [hw, hvx]) htrim
  rw [hstate]
  exact fault_of_tie htie hne hnodes₂ htracks₂ htrim₂ l

private theorem Shows.top_doc {x y z : TableInt} (htie : HarmfulTie G.dist doc x y z)
    (hnear : G.dist x ≤ G.dist y) (hshared : doc x = doc y ∨ doc x = doc z)
    (h : Shows b ((G.dist z, z) ::ₘ (G.dist y, y) ::ₘ {(G.dist x, x)}) docs pairs) :
    ∃ p, (tieQueues doc near).far.top b.topCandidates = some p ∧ doc p.2 = doc y := by
  have hy : (G.dist y, y) ∈ (tieQueues doc near).far.elems b.topCandidates := by
    rw [h.nodes]
    simp
  obtain ⟨p, hp⟩ := (tieQueues doc near).far.exists_top_of_mem hy
  refine ⟨p, hp, ?_⟩
  have hmem := (tieQueues doc near).far.top_mem hp
  have hmax := tieQueue_top_max doc hp hy
  rw [h.nodes, Multiset.mem_cons, Multiset.mem_cons, Multiset.mem_singleton] at hmem
  rcases hmem with rfl | rfl | rfl
  · rcases hmax with hlt | ⟨-, hle⟩
    · exact absurd htie.tie hlt.ne
    · exact absurd htie.less (not_lt.mpr hle)
  · rfl
  · rcases hmax with hlt | ⟨-, hle⟩
    · exact absurd hlt (not_lt.mpr hnear)
    · exact hshared.resolve_right fun heq => absurd htie.less (not_lt.mpr (heq ▸ hle))

private theorem Shows.top_pair {x y z : TableInt} (htie : HarmfulTie G.dist doc x y z)
    (hnear : G.dist x ≤ G.dist y) (hshared : doc x = doc y ∨ doc x = doc z)
    (h : Shows b nodes docs ((G.dist z, doc z) ::ₘ (G.dist y, doc y) ::ₘ {(G.dist x, doc x)})) :
    R.top b.state.searchResults = some (G.dist z, doc z) := by
  apply h.tracks.top
  intro r hr hne
  rw [Multiset.mem_cons, Multiset.mem_singleton] at hr
  rcases hr with rfl | rfl
  · exact .inr ⟨htie.tie, htie.less⟩
  · rcases (htie.tie ▸ hnear).lt_or_eq with hlt | heq
    · exact .inl hlt
    · refine .inr ⟨heq, ?_⟩
      rcases hshared with hxy | hxz
      · exact hxy ▸ htie.less
      · exact absurd (Prod.ext heq hxz) hne

/-- With the documents of `x`, `y` and `z` held, the two queues disagree on which to give up. -/
theorem Shows.not_latestCut {x y z : TableInt} (htie : HarmfulTie G.dist doc x y z)
    (hnear : G.dist x ≤ G.dist y) (hshared : doc x = doc y ∨ doc x = doc z)
    (h : Shows b ((G.dist z, z) ::ₘ (G.dist y, y) ::ₘ {(G.dist x, x)})
      (doc z ::ₘ doc y ::ₘ {doc x})
      ((G.dist z, doc z) ::ₘ (G.dist y, doc y) ::ₘ {(G.dist x, doc x)})) :
    ¬ LatestCut doc 1 ((tieQueues doc near).far.drain b.topCandidates).reverse
      (b.state.filterResults 1 ((tieQueues doc near).far.drain b.topCandidates).reverse).1 := by
  intro hcut
  have hyz := htie.less.ne
  have hdocs : 1 < (doc z ::ₘ doc y ::ₘ {doc x}).toFinset.card := by
    rcases hshared with heq | heq <;> simp [heq, hyz, hyz.symm]
  obtain ⟨p, hp, hdoc⟩ := h.top_doc htie hnear hshared
  have hres := h.top_pair htie hnear hshared
  have hnodes := (tieQueues doc near).far.drain_of_top_some hp
  have hpairs := R.drain_of_top_some hres
  have hresults : R.elems b.state.searchResults =
      ((tieQueues doc near).far.elems b.topCandidates).map fun p => (p.1, doc p.2) := by
    rw [h.tracks.results, h.nodes]
    simp
  have hfst := fst_drain_eq hresults
  have hsnd : ((R.drain b.state.searchResults).map Prod.snd : Multiset DocId) =
      doc z ::ₘ doc y ::ₘ {doc x} := by
    rw [← Multiset.map_coe, R.coe_drain, h.tracks.results]
    simp
  have hcls : (((tieQueues doc near).far.drain b.topCandidates).map fun p => doc p.2 :
      Multiset DocId) = doc y ::ₘ doc z ::ₘ {doc x} := by
    rw [← Multiset.map_coe, (tieQueues doc near).far.coe_drain, h.nodes, Multiset.cons_swap]
    simp
  rw [hnodes] at hcut hcls hfst
  rw [hpairs] at hsnd hfst
  refine DocState.not_latestCut_of_tail hpairs hfst (hsnd ▸ h.tracks.counts) ?_ ?_ hcut
  · exact hdocs.trans_eq (congrArg (fun m => m.toFinset.card) hsnd).symm
  · rw [List.map_cons, ← Multiset.cons_coe, Multiset.cons_inj_right] at hsnd
    rw [List.map_cons, ← Multiset.cons_coe, hdoc, Multiset.cons_inj_right] at hcls
    have hsnd' : DocState.numDocs (R.drain (R.pop b.state.searchResults)) =
        (doc y ::ₘ {doc x}).toFinset.card := congrArg (fun m => m.toFinset.card) hsnd
    have hcls' : docsOf doc ((tieQueues doc near).far.drain
        ((tieQueues doc near).far.pop b.topCandidates)) = (doc z ::ₘ {doc x}).toFinset.card :=
      congrArg (fun m => m.toFinset.card) hcls
    rw [hsnd', hcls']
    rcases hshared with heq | heq
    · left
      simp [heq, hyz.symm]
    · right
      simp [heq, hyz]

/-- The third is not farther and shares its document with one of the two. Everything is held, and
of the farthest the result queue takes `y` out first, the condition's own queue the pair of `z`. -/
theorem not_latestCut_of_shared {x y z : TableInt} (htie : HarmfulTie G.dist doc x y z)
    (hnear : G.dist x ≤ G.dist y) (hshared : doc x = doc y ∨ doc x = doc z)
    (hstar : IsStar G x y z) {fuel : Nat} {maxDist : D}
    (h : BestFirst.search (tieQueues doc near) G (docPolicy R doc 3) fuel maxDist x
      (DocState.fresh R) = .ok b) :
    ¬ LatestCut doc 1 ((tieQueues doc near).far.drain b.topCandidates).reverse
      (b.state.filterResults 1 ((tieQueues doc near).far.drain b.topCandidates).reverse).1 := by
  obtain ⟨b₀, b₁, b₂, hshows, hvisited, -, hfirst, hsecond, htop, hstate⟩ := hstar.search h
  have hyz := htie.less.ne
  have htwo : (doc y ::ₘ {doc x}).toFinset.card ≤ 2 :=
    (Multiset.toFinset_card_le _).trans (by simp)
  have hthree : (doc z ::ₘ doc y ::ₘ {doc x}).toFinset.card ≤ 3 :=
    (Multiset.toFinset_card_le _).trans (by simp)
  obtain ⟨hshows₁, hvisited₁, -⟩ := hshows.visit_keep hfirst
    (by rw [hvisited]; simpa using hstar.distinct.1) hstar.eligible.2.1 (.inl (by simp)) (by omega)
  obtain ⟨⟨hnodes, htracks⟩, -⟩ := hshows₁.visit_keep hsecond
    (by rw [hvisited₁, hvisited]; simpa using ⟨hstar.distinct.2.2, hstar.distinct.2.1⟩)
    hstar.eligible.2.2 (.inl (by omega)) hthree
  rw [← htop] at hnodes
  rw [← hstate] at htracks
  exact Shows.not_latestCut htie hnear hshared ⟨hnodes, htracks⟩

end Star

namespace Index

variable {V D DocId : Type} [Inhabited V] {s s' : Index V}

/-- The same vectors with the same labels and marks; the links may differ. -/
structure SameData (s s' : Index V) : Prop where
  curElementCount : s'.curElementCount = s.curElementCount
  data : ∀ i < s.curElementCount, s'.getDataByInternalId i = s.getDataByInternalId i
  label : ∀ i < s.curElementCount, s'.getExternalLabel i = s.getExternalLabel i
  mark : ∀ i < s.curElementCount, s'.isMarkedDeleted i = s.isMarkedDeleted i

theorem SameData.returnable (h : SameData s s') (isIdAllowed : Option (LabelType → Bool))
    {i : TableInt} (hi : i < s.curElementCount) :
    s'.returnable false isIdAllowed i = s.returnable false isIdAllowed i := by
  rw [Index.returnable, Index.returnable, h.mark i hi, h.label i hi]

theorem SameData.docOf (h : SameData s s') (getDocId : V → DocId) {i : TableInt}
    (hi : i < s.curElementCount) : s'.docOf getDocId i = s.docOf getDocId i := by
  rw [Index.docOf, Index.docOf, h.data i hi]

/-- All elements at level 0, and no links but those of the hub. -/
def starIndex (s : Index V) (hub : TableInt) (links : List TableInt) : Index V :=
  { s with
    maxlevel := 0
    enterpointNode := some hub
    linkLists := default
    elementLevels := default
    dataLevel0Memory := ⟨(List.range s.curElementCount).map fun i =>
      let e := s.dataLevel0Memory.read i
      let ids := if i = hub then links else []
      { e with linklist0 := (e.linklist0.writeEntries 0 ids).setListCount ids.length }⟩ }

variable {hub i : TableInt} {links : List TableInt}

private theorem read_starIndex (hi : i < s.curElementCount) :
    (s.starIndex hub links).dataLevel0Memory.read i =
      let e := s.dataLevel0Memory.read i
      let ids := if i = hub then links else []
      { e with linklist0 := (e.linklist0.writeEntries 0 ids).setListCount ids.length } :=
  Memory.read_range _ hi

private theorem sameData_starIndex (s : Index V) (hub : TableInt) (links : List TableInt) :
    SameData s (s.starIndex hub links) := by
  refine ⟨rfl, fun i hi => ?_, fun i hi => ?_, fun i hi => ?_⟩
  · rw [getDataByInternalId, read_starIndex hi]
    rfl
  · rw [getExternalLabel, read_starIndex hi]
    rfl
  · rw [isMarkedDeleted, isMarkedDeleted, getLinklistAtLevel, if_pos rfl, read_starIndex hi]
    simp [getLinklistAtLevel]

private theorem connections_starIndex (hlinks : links.length < 65536) (hi : i < s.curElementCount) :
    (s.starIndex hub links).connections i 0 = if i = hub then links else [] := by
  rw [connections, getLinklistAtLevel, if_pos rfl, read_starIndex hi]
  apply LinkList.connections_writeEntries
  split
  · exact hlinks
  · exact Nat.zero_lt_succ _

private theorem WellFormed.starIndex (h : s.WellFormed) (hhub : hub < s.curElementCount)
    (hlength : links.length ≤ s.maxM0) (hnodup : links.Nodup)
    (hvalid : ∀ j ∈ links, j < s.curElementCount ∧ j ≠ hub) :
    (s.starIndex hub links).WellFormed := by
  have hsame := sameData_starIndex s hub links
  have hshort : links.length < 65536 := hlength.trans_lt (h.params.maxLinks_lt 0)
  have hmarked : (s.starIndex hub links).markedIds = s.markedIds := by
    ext j
    rw [mem_markedIds, mem_markedIds]
    exact and_congr_right fun hj => by rw [hsame.mark j hj]
  constructor
  · exact ⟨h.params.two_le, h.params.le_cap, h.params.maxM, h.params.maxM0, h.params.efConstruction⟩
  · exact h.cap
  · rintro j l ⟨hj, hl⟩
    obtain rfl : l = 0 := Nat.le_zero.mp hl
    have hj : j < s.curElementCount := hj
    rw [connections_starIndex hshort hj]
    split
    · next heq =>
      exact ⟨hlength, hnodup, fun k hk => ⟨⟨(hvalid k hk).1, Nat.zero_le _⟩, heq ▸ (hvalid k hk).2⟩⟩
    · exact ⟨Nat.zero_le _, List.nodup_nil, nofun⟩
  · refine ⟨nofun, fun ep hep => ?_, fun ep _ => rfl, fun j _ => le_rfl⟩
    rw [← Option.some.inj hep]
    exact hhub
  · exact h.lookup
  · rw [hmarked]
    exact h.numDeleted
  · rw [hmarked]
    exact h.deleted

variable [LinearOrder D] [LinearOrder DocId] {q : V} {isIdAllowed : Option (LabelType → Bool)}
  {getDocId : V → DocId} {R : PriorityQueue (D × DocId) LexLess} {numDocsToSearch efCollection : Nat}

private theorem FindsDocs.exists_beam {P : Platform V D} {start : TableInt}
    (h : FindsDocs P s q isIdAllowed getDocId R numDocsToSearch efCollection)
    (hne : s.curElementCount ≠ 0) (hstart : descentEnd P s q true 0 = .ok start) :
    ∃ b, BestFirst.search P.queues (layerGraph P s q 0 (s.returnable false isIdAllowed))
        (docPolicy R (s.docOf getDocId) (max efCollection numDocsToSearch)) s.curElementCount
        P.maxDist start (DocState.fresh R) = .ok b ∧
      (b.state.filterResults numDocsToSearch
        (P.queues.far.drain b.topCandidates).reverse).2.fault = none ∧
      LatestCut (s.docOf getDocId) numDocsToSearch (P.queues.far.drain b.topCandidates).reverse
        (b.state.filterResults numDocsToSearch
          (P.queues.far.drain b.topCandidates).reverse).1 := by
  obtain ⟨held, result, st, hheld, hanswer, hfault, hcut⟩ := h
  rw [heldElements, if_neg hne, hstart] at hheld
  rw [searchStopConditionClosest, if_neg hne, hstart] at hanswer
  have hpolicy : searchPolicy s false 0
      (some (multiVectorSearchStopCondition R getDocId numDocsToSearch efCollection)) =
      docPolicy R (s.docOf getDocId) (max efCollection numDocsToSearch) := rfl
  simp only [searchBaseLayerST, searchBaseLayerSTBeam, hpolicy] at hheld hanswer
  cases hsearch : BestFirst.search P.queues (layerGraph P s q 0 (s.returnable false isIdAllowed))
      (docPolicy R (s.docOf getDocId) (max efCollection numDocsToSearch)) s.curElementCount
      P.maxDist start (DocState.fresh R) with
  | error e =>
    rw [hsearch] at hheld
    cases e <;> cases hheld
  | ok b =>
    rw [hsearch] at hheld hanswer
    cases hheld
    obtain ⟨rfl, rfl⟩ := Prod.mk.inj (Except.ok.inj hanswer)
    exact ⟨b, rfl, hfault, hcut⟩

/-- The elements that a search may return. -/
def Returnable (s : Index V) (isIdAllowed : Option (LabelType → Bool)) (i : TableInt) : Prop :=
  i < s.curElementCount ∧ s.returnable false isIdAllowed i = true

private theorem isStar_starIndex (P : Platform V D) {hub i j : TableInt}
    (hdistinct : i ≠ hub ∧ j ≠ hub ∧ j ≠ i) (hhub : s.Returnable isIdAllowed hub)
    (hi : s.Returnable isIdAllowed i) (hj : s.Returnable isIdAllowed j) :
    IsStar (layerGraph P (s.starIndex hub [i, j]) q 0
      ((s.starIndex hub [i, j]).returnable false isIdAllowed)) hub i j := by
  have hsame := sameData_starIndex s hub [i, j]
  have hlinks : ∀ k < s.curElementCount, (s.starIndex hub [i, j]).connections k 0 =
      if k = hub then [i, j] else [] := fun k hk => connections_starIndex (by simp) hk
  constructor
  · exact (hlinks hub hhub.1).trans (if_pos rfl)
  · exact ⟨(hlinks i hi.1).trans (if_neg hdistinct.1), (hlinks j hj.1).trans (if_neg hdistinct.2.1)⟩
  · exact ⟨(hsame.returnable isIdAllowed hhub.1).trans hhub.2,
      (hsame.returnable isIdAllowed hi.1).trans hi.2, (hsame.returnable isIdAllowed hj.1).trans hj.2⟩
  · exact hdistinct

private theorem star_wellFormed (h : s.WellFormed) {hub i j : TableInt}
    (hdistinct : i ≠ hub ∧ j ≠ hub ∧ j ≠ i) (hhub : hub < s.curElementCount)
    (hi : i < s.curElementCount) (hj : j < s.curElementCount) :
    (s.starIndex hub [i, j]).WellFormed := by
  apply h.starIndex hhub
  · have := h.params.two_le
    have := h.params.maxM0
    rw [List.length_cons, List.length_singleton]
    omega
  · simpa using hdistinct.2.2.symm
  · simp [hi, hj, hdistinct]

/-- Some index of the elements of `s` is searched in vain, with some queues and some numbers. -/
def Spoilable (P : Platform V D) (s : Index V) (q : V) (isIdAllowed : Option (LabelType → Bool))
    (getDocId : V → DocId) (R : PriorityQueue (D × DocId) LexLess) : Prop :=
  ∃ s', s'.WellFormed ∧ SameData s s' ∧ ∃ queues numDocsToSearch efCollection,
    ¬ FindsDocs { P with queues := queues } s' q isIdAllowed getDocId R numDocsToSearch efCollection

/-- It is enough to spoil the search on a star, with queues that break ties by document. -/
theorem spoilable_of_star (h : s.WellFormed) (P : Platform V D) {hub i j : TableInt}
    (hdistinct : i ≠ hub ∧ j ≠ hub ∧ j ≠ i) (hhub : s.Returnable isIdAllowed hub)
    (hi : s.Returnable isIdAllowed i) (hj : s.Returnable isIdAllowed j)
    (numDocsToSearch efCollection : Nat)
    (hspoil : ∀ G : SearchGraph TableInt D, ∀ doc : TableInt → DocId, IsStar G hub i j →
      (∀ k < s.curElementCount, G.dist k = P.fstdistfunc q (s.getDataByInternalId k)) →
      (∀ k < s.curElementCount, doc k = s.docOf getDocId k) →
      ∀ b : Beam (tieQueues doc P.queues.near) (DocState R),
        BestFirst.search (tieQueues doc P.queues.near) G
          (docPolicy R doc (max efCollection numDocsToSearch)) s.curElementCount P.maxDist hub
          (DocState.fresh R) = .ok b →
        (b.state.filterResults numDocsToSearch
          ((tieQueues doc P.queues.near).far.drain b.topCandidates).reverse).2.fault = none →
        ¬ LatestCut doc numDocsToSearch
          ((tieQueues doc P.queues.near).far.drain b.topCandidates).reverse
          (b.state.filterResults numDocsToSearch
            ((tieQueues doc P.queues.near).far.drain b.topCandidates).reverse).1) :
    Spoilable P s q isIdAllowed getDocId R := by
  have hsame := sameData_starIndex s hub [i, j]
  refine ⟨s.starIndex hub [i, j], star_wellFormed h hdistinct hhub.1 hi.1 hj.1, hsame,
    tieQueues ((s.starIndex hub [i, j]).docOf getDocId) P.queues.near, numDocsToSearch, efCollection,
    fun hfinds => ?_⟩
  -- all levels are zero, so that the descent ends where it begins
  obtain ⟨b, hsearch, hfault, hcut⟩ :=
    hfinds.exists_beam (Nat.zero_lt_of_lt hhub.1).ne' (show descentEnd _ _ q true 0 = .ok hub from rfl)
  refine hspoil _ _ (isStar_starIndex _ hdistinct hhub hi hj) ?_ ?_ b hsearch hfault hcut
  · exact fun k hk => congrArg (P.fstdistfunc q) (hsame.data k hk)
  · exact fun k hk => hsame.docOf getDocId hk

private theorem spoilable_of_harmfulTie (h : s.WellFormed) (P : Platform V D) {x y z : TableInt}
    (htie : HarmfulTie (fun i => P.fstdistfunc q (s.getDataByInternalId i)) (s.docOf getDocId) x y z)
    (hx : s.Returnable isIdAllowed x) (hy : s.Returnable isIdAllowed y)
    (hz : s.Returnable isIdAllowed z) (R : PriorityQueue (D × DocId) LexLess) :
    Spoilable P s q isIdAllowed getDocId R := by
  obtain ⟨hxy, hxz, hyz⟩ := htie.distinct
  have hstill : ∀ (dist : TableInt → D) (doc : TableInt → DocId),
      (∀ k < s.curElementCount, dist k = P.fstdistfunc q (s.getDataByInternalId k)) →
      (∀ k < s.curElementCount, doc k = s.docOf getDocId k) → HarmfulTie dist doc x y z := by
    intro dist doc hdist hdoc
    apply htie.congr
    rintro k (rfl | rfl | rfl)
    · exact ⟨hdist k hx.1, hdoc k hx.1⟩
    · exact ⟨hdist k hy.1, hdoc k hy.1⟩
    · exact ⟨hdist k hz.1, hdoc k hz.1⟩
  rcases lt_or_ge (P.fstdistfunc q (s.getDataByInternalId y))
    (P.fstdistfunc q (s.getDataByInternalId x)) with hfar | hnear
  · -- farther than the tie, so that it shares a document with one of the two
    rcases htie.harm with hlt | hshared | hshared
    · exact absurd hlt hfar.asymm
    · apply spoilable_of_star h P ⟨hxy.symm, hxz.symm, hyz.symm⟩ hx hy hz 0 1
      intro G doc hstar hdist hdoc b hsearch hfault
      have htie' := hstill _ _ hdist hdoc
      refine absurd hfault (fault_of_farther htie'.tie.symm htie'.less.ne' ?_ ?_ hstar hsearch _)
      · rw [hdist y hy.1, hdist x hx.1]
        exact hfar
      · rw [hdoc y hy.1, hdoc x hx.1]
        exact hshared.symm
    · apply spoilable_of_star h P ⟨hxz.symm, hxy.symm, hyz⟩ hx hz hy 0 1
      intro G doc hstar hdist hdoc b hsearch hfault
      have htie' := hstill _ _ hdist hdoc
      refine absurd hfault (fault_of_farther htie'.tie htie'.less.ne ?_ ?_ hstar hsearch _)
      · rw [← htie'.tie, hdist y hy.1, hdist x hx.1]
        exact hfar
      · rw [hdoc z hz.1, hdoc x hx.1]
        exact hshared.symm
  · by_cases hshared : s.docOf getDocId x = s.docOf getDocId y ∨ s.docOf getDocId x = s.docOf getDocId z
    · apply spoilable_of_star h P ⟨hxy.symm, hxz.symm, hyz.symm⟩ hx hy hz 1 3
      intro G doc hstar hdist hdoc b hsearch _
      refine not_latestCut_of_shared (hstill _ _ hdist hdoc) ?_ ?_ hstar hsearch
      · rw [hdist x hx.1, hdist y hy.1]
        exact hnear
      · rw [hdoc x hx.1, hdoc y hy.1, hdoc z hz.1]
        exact hshared
    · obtain ⟨hnot, hnot'⟩ := not_or.mp hshared
      apply spoilable_of_star h P ⟨hyz.symm, hxy, hxz⟩ hy hz hx 1 2
      intro G doc hstar hdist hdoc b hsearch hfault
      refine absurd hfault (fault_of_nearer (hstill _ _ hdist hdoc) ?_ ?_ ?_ hstar hsearch _)
      · rw [hdist x hx.1, hdist y hy.1]
        exact htie.harm.resolve_right hshared
      · rw [hdoc x hx.1, hdoc y hy.1]
        exact hnot
      · rw [hdoc x hx.1, hdoc z hz.1]
        exact hnot'

private theorem SameData.findsDocs {P : Platform V D} (hsame : SameData s s') (hs' : s'.WellFormed)
    (hties : HarmlessTies (fun i => P.fstdistfunc q (s.getDataByInternalId i)) (s.docOf getDocId)
      {i | s.Returnable isIdAllowed i})
    (queues : BeamQueues TableInt D) (R : PriorityQueue (D × DocId) LexLess)
    (numDocsToSearch efCollection : Nat) :
    FindsDocs { P with queues := queues } s' q isIdAllowed getDocId R numDocsToSearch
      efCollection := by
  apply findsDocs_of_harmlessTies hs'
  intro hne start hstart
  obtain ⟨-, start', -, hstart', hat, -⟩ := hs'.exists_descentEnd (Nat.pos_of_ne_zero hne)
    { P with queues := queues } q
  obtain rfl : start = start' := Except.ok.inj (hstart.symm.trans hstart')
  have hlt : ∀ i, s'.Findable isIdAllowed start i → i < s.curElementCount := by
    intro i hi
    rw [← hsame.curElementCount]
    exact (LinkReach.atLevel hi.1 hs'.graph hat).1
  have hmem : ∀ i, s'.Findable isIdAllowed start i → s.Returnable isIdAllowed i := by
    intro i hi
    refine ⟨hlt i hi, ?_⟩
    rw [← hsame.returnable isIdAllowed (hlt i hi), Index.returnable, hi.2.1, hi.2.2]
    rfl
  intro y hy z hz htie hdocs x hx hxy hxz
  simp only [hsame.data y (hlt y hy), hsame.data z (hlt z hz), hsame.data x (hlt x hx)] at htie ⊢
  rw [hsame.docOf getDocId (hlt y hy), hsame.docOf getDocId (hlt z hz)] at hdocs ⊢
  rw [hsame.docOf getDocId (hlt x hx)]
  exact hties y (hmem y hy) z (hmem z hz) htie hdocs x (hmem x hx) hxy hxz

/-- Where ties among the elements that can be found do no harm, a search for documents is right.
For all links, queues and numbers it is right if and only if ties among all elements do no harm. -/
theorem documentSearch_allLinks_iff (h : s.WellFormed) (P : Platform V D) (q : V)
    (isIdAllowed : Option (LabelType → Bool)) (getDocId : V → DocId) :
    ((s.curElementCount ≠ 0 → ∀ start, descentEnd P s q true 0 = .ok start →
        HarmlessTies (fun i => P.fstdistfunc q (s.getDataByInternalId i)) (s.docOf getDocId)
          {i | s.Findable isIdAllowed start i}) →
      ∀ R numDocsToSearch efCollection,
        FindsDocs P s q isIdAllowed getDocId R numDocsToSearch efCollection) ∧
    ((∀ s', s'.WellFormed → SameData s s' → ∀ queues R numDocsToSearch efCollection,
        FindsDocs { P with queues := queues } s' q isIdAllowed getDocId R numDocsToSearch
          efCollection) ↔
      HarmlessTies (fun i => P.fstdistfunc q (s.getDataByInternalId i)) (s.docOf getDocId)
        {i | s.Returnable isIdAllowed i}) := by
  refine ⟨fun hties => findsDocs_of_harmlessTies h hties, fun hall => ?_, fun hties s' hs' hsame =>
    hsame.findsDocs hs' hties⟩
  have hno : ∀ x y z, s.Returnable isIdAllowed x → s.Returnable isIdAllowed y →
      s.Returnable isIdAllowed z → ¬ HarmfulTie
        (fun i => P.fstdistfunc q (s.getDataByInternalId i)) (s.docOf getDocId) x y z := by
    intro x y z hx hy hz htie
    obtain ⟨s', hs', hsame, queues, numDocsToSearch, efCollection, hnot⟩ :=
      spoilable_of_harmfulTie h P htie hx hy hz (listQueue LexLess lexLess_asymm not_lexLess_trans)
    exact hnot (hall s' hs' hsame queues _ numDocsToSearch efCollection)
  intro y hy z hz htie hne x hx hxy hxz
  have hyz : y ≠ z := fun heq => hne (congrArg _ heq)
  rcases hne.lt_or_gt with hlt | hlt
  · by_contra hharm
    refine hno x y z hx hy hz ⟨htie, hlt, ⟨hxy, hxz, hyz⟩, ?_⟩
    rw [not_and_or, not_le, not_and_or, not_not, not_not] at hharm
    exact hharm
  · by_contra hharm
    refine hno x z y hx hz hy ⟨htie.symm, hlt, ⟨hxz, hxy, hyz.symm⟩, ?_⟩
    rw [not_and_or, not_le, not_and_or, not_not, not_not, htie, or_comm (a := _ = _)] at hharm
    exact hharm

/-- Two points of different documents at distance 4, and one farther away in a third document. -/
theorem documentSearch_allLinks_pages : ∃ s : Index (ℤ × ℤ × ℤ), s.WellFormed ∧
    s.curElementCount = 3 ∧
    HarmlessTies (fun i => pagePlatform.fstdistfunc (0, 0, 0) (s.getDataByInternalId i))
      (s.docOf pageOf) {i | s.Returnable none i} ∧
    FindsDocs pagePlatform s (0, 0, 0) none pageOf pageResults 1 2 := by
  have hrun : (afterOps pagePlatform
      [(.addPoint (2, 0, 1) 7 false, plainChoices 0), (.addPoint (-2, 0, 2) 8 false, plainChoices 0),
        (.addPoint (5, 0, 3) 9 false, plainChoices 0)] (emptyPoints false)).any fun s =>
      decide (s.curElementCount = 3 ∧ s.getDataByInternalId 0 = (2, 0, 1) ∧
        s.getDataByInternalId 1 = (-2, 0, 2) ∧ s.getDataByInternalId 2 = (5, 0, 3)) := by
    decide +kernel
  obtain ⟨s, hs, hvalues⟩ := (Option.any_eq_true _ _).mp hrun
  obtain ⟨hcount, hfirst, hsecond, hthird⟩ := of_decide_eq_true hvalues
  have hw : s.WellFormed := (emptyPages_reachable.afterOps (by simp [plainChoices_allocates]) hs).wellFormed
  have hlt : ∀ i, s.Returnable none i → i < 3 := fun i hi => hcount ▸ hi.1
  have hharmless : HarmlessTies
      (fun i => pagePlatform.fstdistfunc (0, 0, 0) (s.getDataByInternalId i)) (s.docOf pageOf)
      {i | s.Returnable none i} := by
    intro y hy z hz htie hne x hx hxy hxz
    have hy := hlt y hy
    have hz := hlt z hz
    have hx := hlt x hx
    interval_cases y <;> interval_cases z <;> interval_cases x <;>
      simp_all [docOf, pageOf, pagePlatform, listPlatform]
  refine ⟨s, hw, hcount, hharmless, ?_⟩
  exact (documentSearch_allLinks_iff hw pagePlatform (0, 0, 0) none pageOf).2.mpr hharmless s hw
    ⟨rfl, fun _ _ => rfl, fun _ _ => rfl, fun _ _ => rfl⟩ pagePlatform.queues pageResults 1 2

end Index

end HnswRvv
