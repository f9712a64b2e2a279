import HnswRvv.Index.Walk

/-!
# Updating a point

`updatePoint` stores the new vector, chooses the links of the neighbours anew and repairs the
links of the point itself. It never fails on a graph whose lists fit, and it leaves such a graph.
-/

namespace HnswRvv.Index

open Framework OrderDual
set_option linter.unusedSectionVars false

variable {V D : Type} [Inhabited V] [LinearOrder D] {P : Platform V D} {s s' : Index V} {x : V}

/-- The outcome of an operation on links: nothing else changes, and the lists fit again. -/
def LinksOnly (s s' : Index V) : Prop := SameRecords s s' ∧ s'.GraphInv

theorem LinksOnly.trans {s'' : Index V} (h : LinksOnly s s') (h' : LinksOnly s' s'') :
    LinksOnly s s'' := ⟨h.1.trans h'.1, h'.2⟩

/-- Every two elements of a level link to each other. -/
def FullyLinked (s : Index V) (l : Nat) : Prop :=
  ∀ i j, s.AtLevel l i → s.AtLevel l j → j ≠ i → j ∈ s.connections i l

theorem FullyLinked.congr {l : Nat} (h : s.FullyLinked l) (hrec : SameRecords s s')
    (hlinks : ∀ i, s'.connections i l = s.connections i l) : s'.FullyLinked l := by
  intro i j hi hj hne
  rw [hlinks]
  exact h i j (hrec.atLevel.mp hi) (hrec.atLevel.mp hj) hne

section EntryPoint

variable {ep i : TableInt} {l : Nat} {q : P.queues.far.Carrier}

theorem addEntryPoint_of_live (h : s.isMarkedDeleted ep = false) (q : P.queues.far.Carrier) :
    addEntryPoint P s x ep q = q := by
  rw [addEntryPoint, h, if_neg Bool.false_ne_true]

private theorem elems_addEntryPoint_le (s : Index V) (x : V) (ep : TableInt) (q : P.queues.far.Carrier) :
    P.queues.far.elems (addEntryPoint P s x ep q) ≤
      (P.fstdistfunc x (s.getDataByInternalId ep), ep) ::ₘ P.queues.far.elems q := by
  unfold addEntryPoint
  dsimp only
  split
  · rw [← P.queues.far.elems_push]
    split
    · next hsize =>
      obtain ⟨t, ht⟩ := P.queues.far.exists_top (q := P.queues.far.push q
        (P.fstdistfunc x (s.getDataByInternalId ep), ep)) (by simp)
      exact P.queues.far.pop_le ht
    · exact le_rfl
  · exact Multiset.le_cons_self _ _

/-- A deleted entry point is never among live candidates, so adding it keeps them distinct. -/
theorem CandidatesFit.addEntryPoint (hq : CandidatesFit P s i l q) (x : V) (ep : TableInt)
    (hlive : ∀ j ∈ queueIds P q, s.isMarkedDeleted j = false)
    (hep : s.isMarkedDeleted ep = true → s.AtLevel l ep ∧ ep ≠ i) :
    CandidatesFit P s i l (addEntryPoint P s x ep q) := by
  cases hm : s.isMarkedDeleted ep with
  | false =>
    rw [addEntryPoint_of_live hm]
    exact hq
  | true =>
    have hle := Multiset.map_le_map (f := Prod.snd)
      (elems_addEntryPoint_le s x ep q)
    rw [Multiset.map_cons] at hle
    refine ⟨Multiset.nodup_of_le hle (Multiset.nodup_cons.mpr ⟨fun h => ?_, hq.nodup⟩),
      fun j hj => ?_⟩
    · rw [hlive ep h] at hm
      exact Bool.false_ne_true hm
    · rcases Multiset.mem_cons.mp (Multiset.mem_of_le hle hj) with rfl | hj
      · exact hep hm
      · exact hq.valid j hj

theorem addEntryPoint_ne_zero (hef : 0 < s.efConstruction)
    (h : s.isMarkedDeleted ep = true ∨ P.queues.far.elems q ≠ 0) :
    P.queues.far.elems (addEntryPoint P s x ep q) ≠ 0 := by
  cases hm : s.isMarkedDeleted ep with
  | false =>
    rw [addEntryPoint_of_live hm]
    exact h.resolve_left (by rw [hm]; exact Bool.false_ne_true)
  | true =>
    rw [addEntryPoint, hm, if_pos rfl]
    dsimp only
    split
    · next hsize =>
      obtain ⟨t, ht⟩ := P.queues.far.exists_top (q := P.queues.far.push q
        (P.fstdistfunc x (s.getDataByInternalId ep), ep)) (by simp)
      have hpop := P.queues.far.size_pop ht
      intro h0
      rw [PriorityQueue.size, PriorityQueue.size, h0, Multiset.card_zero] at hpop
      rw [PriorityQueue.size, hpop] at hsize
      omega
    · simp

end EntryPoint

section Repair

variable {ep i currObj : TableInt} {l : Nat}

/-- What the repair of `i` leaves of the links of a level: a list that holds `i` or has room for it
loses nothing, and in a small index two live elements stay linked. -/
structure Repaired (s s' : Index V) (i : TableInt) (l : Nat) : Prop where
  grows : ∀ o, o ≠ i →
    (i ∈ s.connections o l ∨ (s.connections o l).length < s.maxLinks l) →
      ∀ k ∈ s.connections o l, k ∈ s'.connections o l
  full : s.curElementCount ≤ s.M → (∀ j, s.AtLevel l j → s.isMarkedDeleted j = false) →
    s.FullyLinked l → s'.FullyLinked l

theorem Repaired.refl (s : Index V) (i : TableInt) (l : Nat) : Repaired s s i l :=
  ⟨fun _ _ _ _ hk => hk, fun _ _ h => h⟩

theorem Repaired.of_same {t : Index V} (hrec : SameRecords s t)
    (hlinks : ∀ j, t.connections j l = s.connections j l) (h : Repaired t s' i l) :
    Repaired s s' i l where
  grows o ho hroom k hk := by
    apply h.grows o ho
    · rw [hlinks, hrec.maxLinks]
      exact hroom
    · rw [hlinks]
      exact hk
  full hM hlive hfull := by
    apply h.full
    · rw [hrec.curElementCount, hrec.M]
      exact hM
    · intro j hj
      rw [hrec.mark]
      exact hlive j (hrec.atLevel.mp hj)
    · exact hfull.congr hrec hlinks

private theorem Connected.repaired {q : P.queues.far.Carrier} (h : Connected P s s' i q l true)
    (hi : s.AtLevel l i) (hall : s.curElementCount ≤ s.M → (∀ j, s.AtLevel l j → s.isMarkedDeleted j = false) →
      s.FullyLinked l → ∀ j, s.AtLevel l j → j ≠ i → j ∈ selectedNeighbors P s q) :
    Repaired s s' i l := by
  have hframe : ∀ o, o ≠ i → o ∉ selectedNeighbors P s q → s'.connections o l = s.connections o l := by
    intro o ho hsel
    rw [connections, connections, h.frame o l (Or.inl ⟨ho, hsel⟩)]
  have hgrows : ∀ o, o ≠ i →
      (i ∈ s.connections o l ∨ (s.connections o l).length < s.maxLinks l) →
      ∀ k ∈ s.connections o l, k ∈ s'.connections o l := by
    intro o ho hroom k hk
    by_cases hsel : o ∈ selectedNeighbors P s q
    · rw [h.back o hsel]
      exact mem_newBackLinks hk (hroom.imp_left fun hi => ⟨rfl, hi⟩)
    · rw [hframe o ho hsel]
      exact hk
  refine ⟨hgrows, fun hM hlive hfull => ?_⟩
  intro o j ho hj hne
  have ho' := h.records.atLevel.mp ho
  have hj' := h.records.atLevel.mp hj
  by_cases hoi : o = i
  · subst hoi
    rw [h.forward]
    exact hall hM hlive hfull j hj' hne
  · exact hgrows o hoi (Or.inl (hfull o i ho' hi (Ne.symm hoi))) j (hfull o j ho' hj' hne)

theorem queueIds_filter (top : P.queues.far.Carrier) (i : TableInt) :
    queueIds P (P.queues.far.pushAll P.queues.far.empty
      ((P.queues.far.drain top).filter fun p => p.2 ≠ i)) =
        (queueIds P top).filter (· ≠ i) := by
  rw [queueIds, queueIds, P.queues.far.elems_pushAll, P.queues.far.elems_empty, add_zero,
    ← P.queues.far.coe_drain top, Multiset.filter_map, Multiset.filter_coe]
  rfl

/-- In a small index whose elements are all live and linked, every other element is a candidate. -/
theorem FullyLinked.mem_candidates (h : s.FullyLinked l) (hg : s.GraphInv) (hp : s.Params)
    (hM : s.curElementCount ≤ s.M) (hlive : ∀ j, s.AtLevel l j → s.isMarkedDeleted j = false)
    (hcur : s.AtLevel l currObj) {top : P.queues.far.Carrier}
    (htop : searchBaseLayer P s currObj x l = .ok top) {j : TableInt} (hj : s.AtLevel l j) :
    j ∈ queueIds P top := by
  apply searchBaseLayer_all hg hp.efConstruction_pos hcur htop (mem_levelElements.mpr hcur)
    (levelElements_closed hg l)
  · exact ((card_levelElements_le s l).trans hM).trans hp.efConstruction
  · by_cases he : j = currObj
    · rw [he]
      exact Relation.ReflTransGen.refl
    · exact Relation.ReflTransGen.single (h currObj j hcur hj he)
  · exact hlive j hj

private theorem wp_repairLevel (hg : s.GraphInv) (hp : s.Params) (hi : s.AtLevel l i)
    (hcur : s.AtLevel l currObj) (hep : s.AtLevel l ep)
    (hself : s.isMarkedDeleted ep = true → ep ≠ i) :
    wp (repairLevel P x ep i l currObj)
      (fun next s' => (LinksOnly s s' ∧ s.AtLevel l next) ∧
        (∀ j l', l' ≠ l → s'.getLinklistAtLevel j l' = s.getLinklistAtLevel j l') ∧
        Repaired s s' i l) (fun _ _ => False) s := by
  obtain ⟨top, htop, hres⟩ := searchBaseLayer_ok (P := P) (q := x) hg hp.efConstruction_pos hcur
  simp only [repairLevel, wp_bind, wp_get, htop, wp_readOnly_ok]
  have hids := queueIds_filter (P := P) top i
  generalize P.queues.far.pushAll P.queues.far.empty
    ((P.queues.far.drain top).filter fun p => p.2 ≠ i) = q at hids ⊢
  have hle : queueIds P q ≤ queueIds P top := hids ▸ Multiset.filter_le _ _
  have hne : ∀ j ∈ queueIds P q, j ≠ i := by
    intro j hj
    rw [hids] at hj
    exact (Multiset.mem_filter.mp hj).2
  split
  · next hsize =>
    have hfit : CandidatesFit P s i l q :=
      ⟨Multiset.nodup_of_le hle hres.nodup, fun j hj =>
        ⟨(hres.reach j (Multiset.mem_of_le hle hj)).atLevel hg hcur, hne j hj⟩⟩
    have hfit' := hfit.addEntryPoint x ep
      (fun j hj => hres.live j (Multiset.mem_of_le hle hj)) fun hm => ⟨hep, hself hm⟩
    have hq0 : P.queues.far.elems q ≠ 0 := fun h0 => by
      rw [PriorityQueue.size, h0] at hsize
      exact lt_irrefl _ hsize
    refine wp_mono (wp_mutuallyConnectNewElement hg hp hi hfit' (by simp)) (fun next s₁ h₁ => ?_)
      fun e s₁ h₁ => addEntryPoint_ne_zero hp.efConstruction_pos (Or.inr hq0) h₁.2.2
    refine ⟨⟨⟨h₁.1.records, h₁.1.graph⟩, (hfit'.valid next h₁.2).1⟩,
      fun j l' hl' => h₁.1.frame j l' (Or.inr hl'), h₁.1.repaired hi fun hM hlive hfull j hj hji => ?_⟩
    rw [addEntryPoint_of_live (hlive ep hep), mem_selectedNeighbors_of_lt, hids]
    · exact Multiset.mem_filter.mpr ⟨hfull.mem_candidates hg hp hM hlive hcur htop hj, hji⟩
    · exact (hfit.size_lt hi.1).trans_le hM
  · rw [wp_pure]
    exact ⟨⟨⟨SameRecords.refl s, hg⟩, hcur⟩, fun _ _ _ => rfl, Repaired.refl s i l⟩

private theorem wp_repairLevels (n : Nat) (hg : s.GraphInv) (hp : s.Params)
    (hi : ∀ l < n, s.AtLevel l i) (hcur : ∀ l < n, s.AtLevel l currObj)
    (hep : ∀ l < n, s.AtLevel l ep) (hself : s.isMarkedDeleted ep = true → ep ≠ i) :
    wp (repairLevels P x ep i (List.range n).reverse currObj)
      (fun _ s' => LinksOnly s s' ∧ Repaired s s' i 0 ∧ (n = 0 → s' = s)) (fun _ _ => False) s := by
  induction n generalizing s currObj with
  | zero =>
    rw [List.range_zero, List.reverse_nil, repairLevels, wp_pure]
    exact ⟨⟨SameRecords.refl s, hg⟩, Repaired.refl s i 0, fun _ => rfl⟩
  | succ n ih =>
    rw [List.range_succ, List.reverse_append]
    simp only [List.reverse_cons, List.reverse_nil, List.nil_append, List.singleton_append,
      repairLevels, wp_bind]
    have hn := Nat.lt_succ_self n
    refine wp_mono (wp_repairLevel hg hp (hi n hn) (hcur n hn) (hep n hn) hself)
      (fun next s₁ h₁ => ?_) fun _ _ he => he
    obtain ⟨⟨⟨hrec, hg₁⟩, hnext⟩, hframe, hrepaired⟩ := h₁
    refine wp_mono (ih hg₁ (hrec.params hp)
      (fun l hl => hrec.atLevel.mpr (hi l (hl.trans hn)))
      (fun l hl => hrec.atLevel.mpr ⟨hnext.1, hl.le.trans hnext.2⟩)
      (fun l hl => hrec.atLevel.mpr (hep l (hl.trans hn))) (by rw [hrec.mark]; exact hself))
      (fun _ s₂ h₂ => ⟨LinksOnly.trans ⟨hrec, hg₁⟩ h₂.1, ?_, nofun⟩) fun _ _ he => he
    -- level 0 is the last one, and those before it leave it alone
    rcases Nat.eq_zero_or_pos n with rfl | hpos
    · rw [h₂.2.2 rfl]
      exact hrepaired
    · apply h₂.2.1.of_same hrec
      intro j
      rw [connections, hframe j 0 hpos.ne, connections]

private theorem wp_repairConnectionsForUpdate {n : Nat} {maxLevel : Int} (hg : s.GraphInv) (hp : s.Params)
    (hcap : s.curElementCount ≤ s.maxElements) (hi : s.AtLevel n i) (hmax : (n : Int) ≤ maxLevel)
    (hep : s.AtLevel maxLevel.toNat ep) (hself : s.isMarkedDeleted ep = true → ep ≠ i) :
    wp (repairConnectionsForUpdate P x ep i n maxLevel)
      (fun _ s' => LinksOnly s s' ∧ Repaired s s' i 0) (fun _ _ => False) s := by
  obtain ⟨cur, hcur, hw⟩ := descend_ok (P := P) (q := x) false hg hcap n (walkAt_element hep)
  simp only [repairConnectionsForUpdate, wp_bind, wp_get, hcur, wp_readOnly_ok]
  rw [if_neg (not_lt.mpr hmax)]
  have hn : n ≤ maxLevel.toNat := by omega
  exact wp_mono (wp_repairLevels (n + 1) hg hp (fun l hl => ⟨hi.1, by have := hi.2; omega⟩)
    (fun l hl => ⟨hw.1.1, by have := hw.1.2; omega⟩) (fun l hl => ⟨hep.1, by have := hep.2; omega⟩)
    hself) (fun _ s' h => ⟨h.1, h.2.1⟩) fun _ _ he => he

end Repair

section Rewire

variable {c : Choices} {i neigh : TableInt} {layer : Nat} {sCand sNeigh : List TableInt}

/-- With room for one element at least, the queue holds distinct elements of `sCand` other than
`neigh`. -/
theorem keepClosest_ok (neigh : TableInt) {n : Nat} (hn : 0 < n) (rest : List TableInt) (q : P.queues.far.Carrier) :
    ∃ q', keepClosest P s neigh n rest q = .ok q' ∧
      queueIds P q' ≤ queueIds P q + (rest.filter fun cand => cand ≠ neigh : List TableInt) := by
  induction rest generalizing q with
  | nil => exact ⟨q, rfl, by simp⟩
  | cons cand rest ih =>
    rw [keepClosest]
    by_cases hc : cand = neigh
    · rw [if_pos hc, List.filter_cons_of_neg (by simpa using hc)]
      exact ih q
    · rw [if_neg hc, List.filter_cons_of_pos (by simpa using hc), ← Multiset.cons_coe,
        Multiset.add_cons, ← Multiset.cons_add]
      dsimp only
      -- whichever queue goes on holds at most the old ids and `cand`
      have hgrow : ∀ q₁ : P.queues.far.Carrier, queueIds P q₁ ≤ cand ::ₘ queueIds P q →
          ∃ q', keepClosest P s neigh n rest q₁ = .ok q' ∧ queueIds P q' ≤
            cand ::ₘ queueIds P q + (rest.filter fun cand => cand ≠ neigh : List TableInt) := by
        intro q₁ hq₁
        obtain ⟨q', he, hle⟩ := ih q₁
        exact ⟨q', he, hle.trans (by gcongr)⟩
      split
      · exact hgrow _ (by rw [queueIds, P.queues.far.elems_push, Multiset.map_cons]; rfl)
      · next hfull =>
        have hne : P.queues.far.elems q ≠ 0 := fun h0 => by
          rw [PriorityQueue.size, h0, Multiset.card_zero] at hfull
          exact hfull hn
        obtain ⟨t, ht⟩ := P.queues.far.exists_top hne
        rw [ht]
        dsimp only
        split
        · refine hgrow _ ?_
          rw [queueIds, P.queues.far.elems_push, Multiset.map_cons]
          exact Multiset.cons_le_cons _ (Multiset.map_le_map (P.queues.far.pop_le ht))
        · exact hgrow _ (Multiset.le_cons_self _ _)

private theorem keepClosest_all (neigh : TableInt) {n : Nat} (rest : List TableInt)
    (q : P.queues.far.Carrier)
    (h : P.queues.far.size q + (rest.filter fun cand => cand ≠ neigh).length ≤ n) :
    ∃ q', keepClosest P s neigh n rest q = .ok q' ∧
      queueIds P q' = queueIds P q + (rest.filter fun cand => cand ≠ neigh : List TableInt) := by
  induction rest generalizing q with
  | nil => exact ⟨q, rfl, by simp⟩
  | cons cand rest ih =>
    rw [keepClosest]
    by_cases hc : cand = neigh
    · rw [List.filter_cons_of_neg (by simpa using hc)] at h ⊢
      rw [if_pos hc]
      exact ih q h
    · rw [List.filter_cons_of_pos (by simpa using hc)] at h ⊢
      rw [List.length_cons] at h
      rw [if_neg hc]
      dsimp only
      rw [if_pos (by omega)]
      obtain ⟨q', hq', hids⟩ := ih (P.queues.far.push q
        (P.fstdistfunc (s.getDataByInternalId neigh) (s.getDataByInternalId cand), cand))
        (by rw [P.queues.far.size_push]; omega)
      refine ⟨q', hq', ?_⟩
      rw [hids, queueIds, P.queues.far.elems_push, Multiset.map_cons, ← Multiset.cons_coe,
        Multiset.add_cons, Multiset.cons_add]
      rfl

/-- The two sets of `updatePoint`: elements of the layer, among them the point itself, and the
neighbours to rewire. -/
structure RewireSets (s : Index V) (i : TableInt) (layer : Nat) (sCand sNeigh : List TableInt) :
    Prop where
  cand_nodup : sCand.Nodup
  cand : ∀ j ∈ sCand, s.AtLevel layer j
  self : i ∈ sCand
  neigh : ∀ j ∈ sNeigh, j ∈ sCand ∧ j ≠ i

theorem RewireSets.length_le (h : RewireSets s i layer sCand sNeigh) :
    sCand.length ≤ s.curElementCount := by
  rw [← List.toFinset_card_of_nodup h.cand_nodup, ← Finset.card_range s.curElementCount]
  apply Finset.card_le_card
  intro j hj
  exact Finset.mem_range.mpr (h.cand j (List.mem_toFinset.mp hj)).1

theorem RewireSets.insertAll (h : RewireSets s i layer sCand sNeigh) (ids : List TableInt)
    (hids : ∀ j ∈ ids, s.AtLevel layer j) :
    RewireSets s i layer (ids.foldl (fun l j => l.insert j) sCand) sNeigh := by
  induction ids generalizing sCand with
  | nil => exact h
  | cons j ids ih =>
    obtain ⟨hj, hrest⟩ := List.forall_mem_cons.mp hids
    refine ih ⟨h.cand_nodup.insert, fun k hk => ?_, List.mem_insert_of_mem h.self, fun k hk =>
      ⟨List.mem_insert_of_mem (h.neigh k hk).1, (h.neigh k hk).2⟩⟩ hrest
    rcases List.mem_insert_iff.mp hk with rfl | hk
    · exact hj
    · exact h.cand k hk

private theorem RewireSets.gather (hg : s.GraphInv) (idx : Nat) (rest : List TableInt)
    (hrest : ∀ j ∈ rest, s.AtLevel layer j ∧ j ≠ i) (h : RewireSets s i layer sCand sNeigh) :
    RewireSets s i layer (gatherCandidates c s layer idx rest (sCand, sNeigh)).1
      (gatherCandidates c s layer idx rest (sCand, sNeigh)).2 := by
  induction rest generalizing idx sCand sNeigh with
  | nil => exact h
  | cons oneHop rest ih =>
    obtain ⟨hone, hrest⟩ := List.forall_mem_cons.mp hrest
    have h₁ : RewireSets s i layer (sCand.insert oneHop) sNeigh :=
      h.insertAll [oneHop] (by simpa using hone.1)
    rw [gatherCandidates]
    split
    · exact ih (idx + 1) hrest h₁
    · have h₂ : RewireSets s i layer (sCand.insert oneHop) (sNeigh.insert oneHop) := by
        refine ⟨h₁.cand_nodup, h₁.cand, h₁.self, fun k hk => ?_⟩
        rcases List.mem_insert_iff.mp hk with rfl | hk
        · exact ⟨List.mem_insert_self, hone.2⟩
        · exact h₁.neigh k hk
      exact ih (idx + 1) hrest
        (h₂.insertAll _ fun j hj => ((hg oneHop layer hone.1).valid j hj).1)

variable (s c layer) in
private theorem mem_gatherCandidates (idx : Nat) (rest : List TableInt) (sCand sNeigh : List TableInt) :
    (∀ j, j ∈ sCand ∨ j ∈ rest → j ∈ (gatherCandidates c s layer idx rest (sCand, sNeigh)).1) ∧
      ∀ j ∈ (gatherCandidates c s layer idx rest (sCand, sNeigh)).2, j ∈ sNeigh ∨ j ∈ rest := by
  induction rest generalizing idx sCand sNeigh with
  | nil => simp [gatherCandidates]
  | cons oneHop rest ih =>
    have hinsert : ∀ (ids l : List TableInt) j, j ∈ l →
        j ∈ ids.foldl (fun l twoHop => l.insert twoHop) l := by
      intro ids
      induction ids with
      | nil => exact fun l j hj => hj
      | cons id ids ih => exact fun l j hj => ih _ j (List.mem_insert_of_mem hj)
    have hhead : ∀ j, j ∈ sCand ∨ j ∈ oneHop :: rest → j ∈ sCand.insert oneHop ∨ j ∈ rest := by
      intro j hj
      rw [List.mem_insert_iff]
      rw [List.mem_cons] at hj
      tauto
    rw [gatherCandidates]
    split
    · obtain ⟨h1, h2⟩ := ih (idx + 1) (sCand.insert oneHop) sNeigh
      refine ⟨fun j hj => h1 j (hhead j hj), fun j hj => ?_⟩
      exact (h2 j hj).imp_right (List.mem_cons_of_mem oneHop)
    · obtain ⟨h1, h2⟩ := ih (idx + 1)
        ((s.connections oneHop layer).foldl (fun l twoHop => l.insert twoHop) (sCand.insert oneHop))
        (sNeigh.insert oneHop)
      refine ⟨fun j hj => h1 j ((hhead j hj).imp_left (hinsert _ _ j)), fun j hj => ?_⟩
      rcases h2 j hj with hj | hj
      · rcases List.mem_insert_iff.mp hj with rfl | hj
        · exact Or.inr List.mem_cons_self
        · exact Or.inl hj
      · exact Or.inr (List.mem_cons_of_mem oneHop hj)

private theorem mem_rewired (hp : s.Params) (hnodup : sCand.Nodup) (hmem : neigh ∈ sCand)
    (hM : sCand.length ≤ s.M) {q : P.queues.far.Carrier}
    (hq : keepClosest P s neigh
      (min s.efConstruction (if neigh ∈ sCand then sCand.length - 1 else sCand.length))
      (c.traversal sCand) P.queues.far.empty = .ok q) {j : TableInt} (hj : j ∈ sCand)
    (hne : j ≠ neigh) :
    j ∈ poppedIds P (getNeighborsByHeuristic2 P s q (s.maxLinks layer)) := by
  have hperm := c.traversal_perm sCand
  have hcount : ((c.traversal sCand).filter fun cand => cand ≠ neigh).length =
      sCand.length - 1 := by
    rw [(hperm.filter _).length_eq, ← List.length_erase_of_mem hmem, hnodup.erase_eq_filter]
    congr 1
    apply List.filter_congr
    intro k _
    by_cases hk : k = neigh <;> simp [hk]
  have hef := hp.efConstruction
  have hpos := List.length_pos_of_mem hmem
  obtain ⟨q', hq', hids⟩ := keepClosest_all (P := P) (s := s) neigh (c.traversal sCand)
    P.queues.far.empty (hcount.le.trans' (by rw [P.queues.far.size_empty, Nat.zero_add]))
  rw [if_pos hmem, Nat.min_eq_right (by omega)] at hq
  obtain rfl : q = q' := Except.ok.inj (hq.symm.trans hq')
  rw [queueIds, queueIds, P.queues.far.elems_empty, Multiset.map_zero, zero_add] at hids
  have hsize : P.queues.far.size q < s.maxLinks layer := by
    have hcard := congrArg Multiset.card hids
    rw [Multiset.card_map, Multiset.coe_card, hcount] at hcard
    have := hp.M_le layer
    rw [PriorityQueue.size]
    omega
  rw [getNeighborsByHeuristic2, if_pos hsize, ← Multiset.mem_coe, coe_poppedIds, queueIds, hids]
  exact List.mem_filter.mpr ⟨hperm.mem_iff.mpr hj, by simpa using hne⟩

/-- The point itself is a candidate besides `neigh`, so there is always one element to keep. -/
theorem RewireSets.two_le_length (h : RewireSets s i layer sCand sNeigh) (hneigh : neigh ∈ sNeigh) :
    2 ≤ sCand.length := by
  obtain ⟨hmem, hne⟩ := h.neigh neigh hneigh
  have hsub : ({i, neigh} : Finset TableInt) ⊆ sCand.toFinset := by
    intro j hj
    rcases Finset.mem_insert.mp hj with rfl | hj
    · exact List.mem_toFinset.mpr h.self
    · rw [Finset.mem_singleton.mp hj]
      exact List.mem_toFinset.mpr hmem
  have hcard := Finset.card_le_card hsub
  rwa [Finset.card_pair hne.symm, List.toFinset_card_of_nodup h.cand_nodup] at hcard

theorem RewireSets.candidatesFit {q : P.queues.far.Carrier} (h : RewireSets s i layer sCand sNeigh)
    (hle : queueIds P q ≤ ((c.traversal sCand).filter (· ≠ neigh) : List TableInt)) :
    CandidatesFit P s neigh layer q := by
  have hperm := c.traversal_perm sCand
  constructor
  · apply Multiset.nodup_of_le hle
    exact Multiset.coe_nodup.mpr ((hperm.nodup_iff.mpr h.cand_nodup).filter _)
  · intro j hj
    obtain ⟨hj, hne⟩ := List.mem_filter.mp (Multiset.mem_coe.mp (Multiset.mem_of_le hle hj))
    exact ⟨h.cand j (hperm.mem_iff.mp hj), of_decide_eq_true hne⟩

private theorem wp_rewireNeighbor (hg : s.GraphInv) (hp : s.Params)
    (hsets : RewireSets s i layer sCand sNeigh) (hneigh : neigh ∈ sNeigh) :
    wp (rewireNeighbor P c layer sCand neigh)
      (fun _ s' => LinksOnly s s' ∧
        (∀ j l', j ≠ neigh ∨ l' ≠ layer → s'.getLinklistAtLevel j l' = s.getLinklistAtLevel j l') ∧
        (sCand.length ≤ s.M → ∀ j ∈ sCand, j ≠ neigh → j ∈ s'.connections neigh layer))
      (fun _ _ => False) s := by
  obtain ⟨hmem, -⟩ := hsets.neigh neigh hneigh
  have hlen := hsets.two_le_length hneigh
  have hkeep : 0 < min s.efConstruction
      (if neigh ∈ sCand then sCand.length - 1 else sCand.length) := by
    have := hp.efConstruction_pos
    rw [if_pos hmem]
    omega
  obtain ⟨q, hq, hle⟩ := keepClosest_ok (P := P) (s := s) neigh hkeep
    (c.traversal sCand) P.queues.far.empty
  rw [queueIds, queueIds, P.queues.far.elems_empty, Multiset.map_zero, zero_add] at hle
  have hlinks := (hsets.candidatesFit hle).linksFit_heuristic (M := s.maxLinks layer) le_rfl
  have hkept : sCand.length ≤ s.M → ∀ j ∈ sCand, j ≠ neigh →
      j ∈ poppedIds P (getNeighborsByHeuristic2 P s q (s.maxLinks layer)) := fun hM j hj hjn =>
    mem_rewired hp hsets.cand_nodup hmem hM hq hj hjn
  simp only [rewireNeighbor, wp_bind, wp_get, hq, wp_readOnly_ok, wp_set]
  generalize poppedIds P (getNeighborsByHeuristic2 P s q (s.maxLinks layer)) = ids at hlinks hkept ⊢
  have hrep := Replaced.set s neigh layer
    (((s.getLinklistAtLevel neigh layer).setListCount ids.length).writeEntries 0 ids) (by simp)
  have hconn := LinkList.connections_setListCount_writeEntries (s.getLinklistAtLevel neigh layer)
    (lt_of_le_of_lt hlinks.length_le (hp.maxLinks_lt layer))
  refine ⟨⟨hrep.records, hrep.graphInv hg (by rw [hconn]; exact hlinks)⟩, hrep.get_ne,
    fun hM j hj hjn => ?_⟩
  rw [hrep.connections_self, hconn]
  exact hkept hM j hj hjn

theorem RewireSets.congr (h : RewireSets s i layer sCand sNeigh) (hrec : SameRecords s s') :
    RewireSets s' i layer sCand sNeigh :=
  ⟨h.cand_nodup, fun j hj => hrec.atLevel.mpr (h.cand j hj), h.self, h.neigh⟩

/-- The outcome of rewiring the neighbours of `i` on one layer: no other list changes, and in a small
index two elements stay linked. -/
structure Rewired (s s' : Index V) (i : TableInt) (layer : Nat) : Prop where
  links : LinksOnly s s'
  frame : ∀ j l, j ∉ s.connections i layer ∨ l ≠ layer →
    s'.getLinklistAtLevel j l = s.getLinklistAtLevel j l
  full : s.curElementCount ≤ s.M → s.FullyLinked layer → s'.FullyLinked layer

theorem Rewired.refl (hg : s.GraphInv) (i : TableInt) (layer : Nat) : Rewired s s i layer :=
  ⟨⟨SameRecords.refl s, hg⟩, fun _ _ _ => rfl, fun _ h => h⟩

private theorem wp_rewireLayer (hg : s.GraphInv) (hp : s.Params) (hi : s.AtLevel layer i) :
    wp (rewireLayer P c i layer) (fun _ s' => Rewired s s' i layer) (fun _ _ => False) s := by
  simp only [rewireLayer, wp_bind, wp_get]
  split
  · rw [wp_pure]
    exact Rewired.refl hg i layer
  · have hsets : RewireSets s i layer
        (gatherCandidates c s layer 0 (s.connections i layer) ([i], [])).1
        (gatherCandidates c s layer 0 (s.connections i layer) ([i], [])).2 :=
      RewireSets.gather hg 0 _ (hg i layer hi).valid
        ⟨List.nodup_singleton i, by simpa using hi, List.mem_singleton_self i, by simp⟩
    obtain ⟨hcands, hneighs⟩ := mem_gatherCandidates s c layer 0 (s.connections i layer) [i] []
    generalize gatherCandidates c s layer 0 (s.connections i layer) ([i], []) = sets
      at hsets hcands hneighs ⊢
    refine wp_forM (I := fun t => Rewired s t i layer) (Rewired.refl hg i layer) fun n hn t ht => ?_
    have hrec := ht.links.1
    have hneigh := (c.traversal_perm _).mem_iff.mp hn
    have hlink : n ∈ s.connections i layer := by simpa using hneighs n hneigh
    refine wp_mono (wp_rewireNeighbor ht.links.2 (hrec.params hp) (hsets.congr hrec) hneigh)
      (fun _ t' ht' => ?_) fun _ _ he => he
    obtain ⟨hl, hframe, hnew⟩ := ht'
    refine ⟨ht.links.trans hl, fun j l hj => ?_, fun hM hfull => ?_⟩
    · rw [hframe j l (hj.imp_left fun hnot he => hnot (he ▸ hlink)), ht.frame j l hj]
    · have hall : ∀ j, s.AtLevel layer j → j ∈ sets.1 := by
        intro j hj
        apply hcands j
        by_cases he : j = i
        · exact Or.inl (by simp [he])
        · exact Or.inr (hfull i j hi hj he)
      have hsmall : sets.1.length ≤ t.M := by
        rw [hrec.M]
        exact hsets.length_le.trans hM
      intro a b ha hb hne
      have hb' := hrec.atLevel.mp (hl.1.atLevel.mp hb)
      by_cases han : a = n
      · subst han
        exact hnew hsmall b (hall b hb') hne
      · rw [connections, hframe a layer (Or.inl han), ← connections]
        exact ht.full hM hfull a b (hl.1.atLevel.mp ha) (hl.1.atLevel.mp hb) hne

end Rewire

@[simp] theorem getLinklistAtLevel_setData (s : Index V) (i j : TableInt) (x : V) (l : Nat) :
    (s.setData i x).getLinklistAtLevel j l = s.getLinklistAtLevel j l := by
  unfold getLinklistAtLevel setData
  split
  · by_cases h : j = i <;> simp [Memory.read_write, h]
  · rfl

/-- A graph with the same lists, levels and limits fits as well. -/
theorem GraphInv.congr (hg : s.GraphInv) (hcur : s'.curElementCount = s.curElementCount)
    (hlevel : ∀ i, s'.level i = s.level i) (hmax : ∀ l, s'.maxLinks l = s.maxLinks l)
    (hlinks : ∀ i l, s'.connections i l = s.connections i l) : s'.GraphInv := by
  intro i l hi
  have hat : ∀ {l j}, s'.AtLevel l j ↔ s.AtLevel l j := by
    intro l j
    rw [AtLevel, AtLevel, hcur, hlevel]
  have hfit := hg i l (hat.mp hi)
  rw [hlinks]
  exact ⟨by rw [hmax]; exact hfit.length_le, hfit.nodup, fun j hj =>
    ⟨hat.mpr (hfit.valid j hj).1, (hfit.valid j hj).2⟩⟩

theorem GraphInv.setData (hg : s.GraphInv) (i : TableInt) (x : V) : (s.setData i x).GraphInv :=
  hg.congr rfl (fun _ => rfl) (fun _ => rfl) fun i l => by simp [connections]

/-- The level-0 links while the neighbours of `i` are rewired layer by layer. -/
structure BaseRewired (s s' : Index V) (i : TableInt) : Prop where
  links : LinksOnly s s'
  frame : ∀ j, j ∉ s.connections i 0 → s'.connections j 0 = s.connections j 0
  full : s.curElementCount ≤ s.M → s.FullyLinked 0 → s'.FullyLinked 0

theorem BaseRewired.layer {i : TableInt} {layer : Nat} {t : Index V} (h : BaseRewired s t i)
    (hself : i ∉ s.connections i 0) (hl : Rewired t s' i layer) : BaseRewired s s' i := by
  have hrec := h.links.1
  refine ⟨h.links.trans hl.links, fun j hj => ?_, fun hM hfull => ?_⟩
  · rw [connections, hl.frame j 0, ← connections, h.frame j hj]
    rw [← h.frame i hself] at hj
    by_cases h0 : layer = 0
    · exact Or.inl (h0 ▸ hj)
    · exact Or.inr (Ne.symm h0)
  · by_cases h0 : layer = 0
    · subst h0
      exact hl.full (by rw [hrec.curElementCount, hrec.M]; exact hM) (h.full hM hfull)
    · refine (h.full hM hfull).congr hl.links.1 fun j => ?_
      rw [connections, hl.frame j 0 (Or.inr (Ne.symm h0)), connections]

/-- What an update of `i` leaves of the links of level 0. A list that is neither that of `i` nor
that of a neighbour loses nothing if it holds `i` or has room for it, and in a small index two live
elements stay linked. -/
structure BaseUpdated (s s' : Index V) (i : TableInt) : Prop where
  grows : ∀ o, o ≠ i → o ∉ s.connections i 0 →
    (i ∈ s.connections o 0 ∨ (s.connections o 0).length < s.maxLinks 0) →
      ∀ k ∈ s.connections o 0, k ∈ s'.connections o 0
  full : s.curElementCount ≤ s.M → (∀ j, s.AtLevel 0 j → s.isMarkedDeleted j = false) →
    s.FullyLinked 0 → s'.FullyLinked 0

private theorem BaseRewired.baseUpdated {i : TableInt} {t : Index V} (h : BaseRewired s t i)
    (hr : Repaired t s' i 0) : BaseUpdated s s' i := by
  have hrec := h.links.1
  constructor
  · intro o ho hnot hroom k hk
    apply hr.grows o ho
    · rw [h.frame o hnot, hrec.maxLinks]
      exact hroom
    · rw [h.frame o hnot]
      exact hk
  · intro hM hlive hfull
    apply hr.full
    · rw [hrec.curElementCount, hrec.M]
      exact hM
    · intro j hj
      rw [hrec.mark]
      exact hlive j (hrec.atLevel.mp hj)
    · exact h.full hM hfull

theorem wp_updatePoint {c : Choices} {i : TableInt} (hg : s.GraphInv) (hp : s.Params)
    (hcap : s.curElementCount ≤ s.maxElements) (hentry : s.EntryInv) (hi : i < s.curElementCount)
    (hlive : s.isMarkedDeleted i = false) (hlists : ¬s.LacksLists i) :
    wp (updatePoint P c x i)
      (fun _ s' => LinksOnly (s.setData i x) s' ∧ BaseUpdated (s.setData i x) s' i)
      (fun _ _ => False) s := by
  simp only [updatePoint, wp_bind, wp_modify, wp_get]
  have hg₀ : (s.setData i x).GraphInv := hg.setData i x
  have hp₀ : (s.setData i x).Params := ⟨hp.1, hp.2, hp.3, hp.4, hp.5⟩
  have hself : (s.setData i x).isMarkedDeleted i = false := by
    rw [isMarkedDeleted, getLinklistAtLevel_setData]
    exact hlive
  split
  · rw [wp_pure]
    exact ⟨⟨SameRecords.refl _, hg₀⟩, fun _ _ _ _ _ hk => hk, fun _ _ h => h⟩
  · cases hep : s.enterpointNode with
    | none => exact absurd hi (by rw [(hentry.none hep).1]; exact Nat.not_lt_zero i)
    | some ep =>
      have hent : (s.setData i x).entry = ep := entry_of_some hep
      have hlevel := hentry.level ep hep
      have hle := hentry.le i hi
      have hat : ∀ layer ≤ s.level i, (s.setData i x).AtLevel layer i := fun layer hl => ⟨hi, hl⟩
      have hnot : i ∉ (s.setData i x).connections i 0 := fun hm =>
        ((hg₀ i 0 (hat 0 (Nat.zero_le _))).valid i hm).2 rfl
      rw [if_neg (show ¬(s.setData i x).LacksLists i from hlists), wp_bind]
      refine wp_mono (wp_forM (I := fun t => BaseRewired (s.setData i x) t i)
        ⟨⟨SameRecords.refl _, hg₀⟩, fun _ _ => rfl, fun _ h => h⟩
        fun layer hlayer t ht => ?_) (fun _ t ht => ?_) fun _ _ he => he
      · have hrec := ht.links.1
        exact wp_mono (wp_rewireLayer ht.links.2 (hrec.params hp₀)
          (hrec.atLevel.mpr (hat layer (Nat.lt_succ_iff.mp (List.mem_range.mp hlayer)))))
          (fun _ t' ht' => ht.layer hnot ht') fun _ _ he => he
      · have hrec := ht.links.1
        rw [hent]
        refine wp_mono (wp_repairConnectionsForUpdate (i := i) ht.links.2 (hrec.params hp₀) ?_ ?_ hle
          ?_ ?_) (fun _ t' ht' => ⟨ht.links.trans ht'.1, ht.baseUpdated ht'.2⟩) fun _ _ he => he
        · rw [hrec.curElementCount, hrec.maxElements]
          exact hcap
        · exact hrec.atLevel.mpr (hat _ le_rfl)
        · refine hrec.atLevel.mpr ⟨hentry.lt ep hep, ?_⟩
          change s.maxlevel.toNat ≤ s.level ep
          omega
        · rintro hm rfl
          rw [hrec.mark, hself] at hm
          exact Bool.false_ne_true hm

end HnswRvv.Index
