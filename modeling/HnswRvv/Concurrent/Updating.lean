import HnswRvv.Concurrent.Connecting
import HnswRvv.Index.Invariant

/-!
# Updating a point while others insert

An update works on a settled element. What it gathers as candidates may still be in the making, but
the lists it rewrites are those of settled elements. `maxlevel_` is read before the entry point, and
neither is ever lowered, so the entry point reaches the level that was read.
-/

namespace HnswRvv.Concurrent

open Framework OrderDual Protocol
set_option linter.unusedSectionVars false

variable {V D T α : Type} [Inhabited V] [LinearOrder D] [DecidableEq T] {A : Terms V T}
  {P : Platform V D} {t : T} {w w' : World V T} {σ : Shared V T} {γ : T → Stage} {s : Index V}
  {label : LabelType} {i ep currObj : TableInt} {l layer fuel : Nat} {x : V} {c : Choices}
  {E : Failure → World V T → Prop}

theorem Ahead.maxElements (h : Ahead A t w w') :
    w'.1.index.maxElements = w.1.index.maxElements := maxElements_of_settings h.settings

private theorem does_forM_ahead {items : List α} {f : α → Task V T PUnit}
    (h : ∀ a ∈ items, ∀ w', Inv A w' → Ahead A t w w' →
      Does A t (fun _ w'' => Ahead A t w' w'') E (f a) w') :
    Does A t (fun _ w' => Ahead A t w w') E (forM items f) w := by
  refine satE_mono (satE_forM (I := fun rest w' => Ahead A t w w' ∧ ∀ a ∈ rest, a ∈ items)
    (fun rest w₁ w₂ h₁ _ hr => ⟨h₁.1.trans (.of_rely hr), h₁.2⟩) ⟨.refl A t w, fun _ ha => ha⟩
    fun a rest w₁ hi h₁ => ?_) (fun _ _ _ h' => h'.1) fun _ _ _ he => he
  refine satE_mono (h a (h₁.2 a List.mem_cons_self) w₁ hi h₁.1) (fun _ w₂ _ h₂ => ?_)
    fun _ _ _ he => he
  exact ⟨h₁.1.trans h₂, fun b hb => h₁.2 b (List.mem_cons_of_mem a hb)⟩

/-- `t` updates the element `i` of a label it has locked. -/
structure Updates (t : T) (label : LabelType) (i : TableInt) (w : World V T) : Prop where
  stage : w.2 t = .called label
  known : w.1.index.labelLookup label = some i

theorem Updates.ahead (h : Updates t label i w) (ha : Ahead A t w w') : Updates t label i w' :=
  ⟨(ha.free (by rw [h.stage]; exact Stage.free_called label)).trans h.stage,
    ha.known label i h.known⟩

theorem Updates.settled (h : Updates t label i w) (hi : Inv A w) :
    i < w.1.index.curElementCount ∧ Settled w.2 i ∧ w.1.index.getExternalLabel i = label := by
  obtain ⟨hlt, hnamed⟩ := (hi.naming.lookup label i).mp h.known
  rcases hnamed with ⟨u, top, p, hu⟩ | ⟨hs, hlabel⟩
  · exfalso
    have ht : (w.2 t).label = some label := by rw [h.stage]; rfl
    by_cases hut : u = t
    · subst hut
      cases h.stage.symm.trans hu
    · exact hi.locking.label_ne hut ht (by rw [hu]; rfl)
  · exact ⟨hlt, hs, hlabel⟩

theorem Updates.rank_lt (h : Updates t label i w) (l : Nat) : toLex (0, l) < (w.2 t).rank := by
  rw [h.stage]
  exact Prod.Lex.toLex_lt_toLex.mpr (Or.inl Nat.zero_lt_one)

theorem Inv.entry_rests (h : Inv A w) (hlt : i < w.1.index.curElementCount)
    (hlate : ∀ u label top p, w.2 u = .inserting label i top p → ¬ p.Early top) :
    ∃ ep, w.1.index.enterpointNode = some ep ∧ 0 ≤ w.1.index.maxlevel ∧
      RestsAt w w.1.index.maxlevel.toNat ep := by
  have hnot : ¬ (w.1.index.enterpointNode = none ∨ Founding w.2) := fun hf => by
    obtain ⟨u, label, top, p, hu, hearly⟩ := h.ruling.early hf i hlt
    exact hlate u label top p hu hearly
  obtain ⟨hsome, hfound⟩ := not_or.mp hnot
  obtain ⟨ep, hep⟩ := Option.ne_none_iff_exists'.mp hsome
  obtain ⟨hlt', hc, hpos, hle⟩ := h.ruling.entry ep hep hfound
  exact ⟨ep, hep, hpos, ⟨hlt', by omega⟩, hc⟩

private theorem touches_setData (s : Index V) (i : TableInt) (x : V) : Touches s (s.setData i x) i where
  fields := rfl
  level _ _ := rfl
  data j hj := by rw [Index.getDataByInternalId_setData, if_neg hj]
  label j _ := Index.getExternalLabel_setData s i j x
  list j l _ := Index.getLinklistAtLevel_setData s i j x l
  lists _ _ h := h

private theorem Inv.move_setData (h : Inv A (σ, γ)) (hs : Settled γ i)
    (hallowed : A.allowed (σ.index.getExternalLabel i) x) :
    (protocol A).Move t (σ, γ) ({ σ with index := σ.index.setData i x }, γ) := by
  have hlist : ∀ l, (σ.index.setData i x).connections i l = σ.index.connections i l := fun l => by
    rw [Index.connections, Index.getLinklistAtLevel_setData, Index.connections]
  have htouch := touches_setData σ.index i x
  refine htouch.move_settled h ⟨rfl, rfl⟩ hs rfl (Index.getExternalLabel_setData σ.index i i x)
    (fun hlt => ⟨fun l ha => ?_, ⟨?_, h.linking.backed i hlt hs.settled⟩, fun label hn => ?_⟩)
    fun _ _ _ _ _ _ _ _ l hm => by rwa [hlist] at hm
  · rw [hlist]
    exact htouch.listFits (fun _ => rfl) (fun _ _ _ => id) (h.linking.lists i l ha hs.settled)
  · rw [Index.isMarkedDeleted_setData]
    exact h.linking.unmarked i hlt hs.settled
  · rw [Index.getDataByInternalId_setData, if_pos rfl]
    rcases hn with ⟨u, top, p, hu⟩ | ⟨-, rfl⟩
    · exact (hs u label top p hu).elim
    · exact hallowed

/-- The candidates and the neighbours that an update has gathered. -/
structure Gathers (w : World V T) (i : TableInt) (layer : Nat) (sCand sNeigh : List TableInt) :
    Prop where
  sets : Index.RewireSets w.1.index i layer sCand sNeigh
  shown : ∀ j ∈ sCand, Shown w.2 layer j
  settled : ∀ j ∈ sNeigh, Settled w.2 j

section Gather

variable {sCand sNeigh : List TableInt}

theorem Gathers.stands (h : Gathers w i layer sCand sNeigh) {j : TableInt} (hj : j ∈ sCand) :
    StandsAt w layer j := ⟨h.sets.cand j hj, h.shown j hj⟩

theorem Gathers.ahead (h : Gathers w i layer sCand sNeigh) (ha : Ahead A t w w') :
    Gathers w' i layer sCand sNeigh :=
  ⟨⟨h.sets.cand_nodup, fun _ hj => (ha.standsAt (h.stands hj)).1, h.sets.self, h.sets.neigh⟩,
    fun _ hj => (ha.standsAt (h.stands hj)).2,
    fun j hj => ha.settled (h.sets.cand j (h.sets.neigh j hj).1).1 (h.settled j hj)⟩

theorem Gathers.insertAll (h : Gathers w i layer sCand sNeigh) (ids : List TableInt)
    (hids : ∀ j ∈ ids, StandsAt w layer j) :
    Gathers w i layer (ids.foldl (fun l j => l.insert j) sCand) sNeigh := by
  refine ⟨h.sets.insertAll ids fun j hj => (hids j hj).1, ?_, h.settled⟩
  have hshown := h.shown
  clear h
  induction ids generalizing sCand with
  | nil => exact hshown
  | cons j ids ih =>
    obtain ⟨hj, hrest⟩ := List.forall_mem_cons.mp hids
    refine ih hrest fun k hk => ?_
    rcases List.mem_insert_iff.mp hk with rfl | hk
    · exact hj.2
    · exact hshown k hk

private theorem Gathers.insertNeigh (h : Gathers w i layer sCand sNeigh) {j : TableInt} (hj : j ∈ sCand)
    (hne : j ≠ i) (hs : Settled w.2 j) : Gathers w i layer sCand (sNeigh.insert j) := by
  refine ⟨⟨h.sets.cand_nodup, h.sets.cand, h.sets.self, fun k hk => ?_⟩, h.shown, fun k hk => ?_⟩
  · rcases List.mem_insert_iff.mp hk with rfl | hk
    · exact ⟨hj, hne⟩
    · exact h.sets.neigh k hk
  · rcases List.mem_insert_iff.mp hk with rfl | hk
    · exact hs
    · exact h.settled k hk

/-- Two-hop links are read from a list that nobody has locked, so its element is settled. -/
theorem does_gatherCandidates (rest : List TableInt) (idx : Nat)
    (hrest : ∀ j ∈ rest, StandsAt w layer j ∧ j ≠ i) (h : Gathers w i layer sCand sNeigh)
    (hrank : toLex (0, layer) < (w.2 t).rank) :
    Does A t (fun sets w' => Rely A t w w' ∧ Gathers w' i layer sets.1 sets.2) E
      (gatherCandidates c layer idx rest (sCand, sNeigh)) w := by
  induction rest generalizing idx sCand sNeigh w with
  | nil => exact satE_pure fun w' _ hr => ⟨hr, h.ahead (.of_rely hr)⟩
  | cons oneHop rest ih =>
    obtain ⟨⟨hone, hne⟩, hrest⟩ := List.forall_mem_cons.mp hrest
    have h₁ : Gathers w i layer (sCand.insert oneHop) sNeigh :=
      h.insertAll [oneHop] (by simpa using hone)
    rw [gatherCandidates]
    split
    · exact ih (idx + 1) hrest h₁ hrank
    · refine does_scan (g := fun s => .ok (s.connections oneHop layer)) (fun _ => rfl)
        (fun w' hi hr hheld => ?_) fun w' hi hr hfree => ⟨_, rfl, ?_⟩
      · exact hi.waits_element (hone.rely hr).2 (by rw [hr.stage]; exact hrank) hheld
      · have hone' := hone.rely hr
        have h₂ := (h₁.ahead (.of_rely hr)).insertNeigh List.mem_insert_self hne
          (hi.settled_of_free hone' hfree)
        have h₃ := h₂.insertAll (w'.1.index.connections oneHop layer)
          fun j hj => (hi.links_stand hone' hj).1
        refine satE_mono (ih (idx + 1) (fun j hj => ⟨(hrest j hj).1.rely hr, (hrest j hj).2⟩) h₃
          (by rw [hr.stage]; exact hrank)) (fun _ _ _ h' => ⟨hr.trans h'.1, h'.2⟩) fun _ _ _ he => he

theorem Gathers.listFits (h : Gathers w i layer sCand sNeigh) (hupd : ¬ A.newOnly) {neigh : TableInt}
    {q : P.queues.far.Carrier}
    (hle : Index.queueIds P q ≤ ((c.traversal sCand).filter (· ≠ neigh) : List TableInt)) :
    ListFits A w.1.index w.2 neigh layer
      (Index.poppedIds P (w.1.index.getNeighborsByHeuristic2 P q (w.1.index.maxLinks layer))) := by
  refine ⟨?_, fun hn => absurd hn hupd, fun j hj => ?_⟩
  · rw [Index.length_poppedIds]
    exact Index.size_heuristic_le P w.1.index q _
  · rw [← Multiset.mem_coe, Index.coe_poppedIds] at hj
    have hmem := Multiset.mem_of_le
      (Multiset.map_le_map (Index.elems_heuristic_le P w.1.index q _)) hj
    obtain ⟨hj, hne⟩ := List.mem_filter.mp (Multiset.mem_coe.mp (Multiset.mem_of_le hle hmem))
    have hcand := (c.traversal_perm sCand).mem_iff.mp hj
    exact ⟨h.sets.cand j hcand, of_decide_eq_true hne, h.shown j hcand⟩

theorem ListFits.ahead {links : List TableInt} (h : ListFits A w.1.index w.2 i l links)
    (ha : Ahead A t w w') : ListFits A w'.1.index w'.2 i l links := by
  refine ⟨?_, h.nodup, fun j hj => ?_⟩
  · have hmax : w'.1.index.maxLinks l = w.1.index.maxLinks l := by
      have hs := ha.settings
      simp only [settings, Prod.mk.injEq] at hs
      unfold Index.maxLinks
      rw [hs.2.2.1, hs.2.2.2.1]
    rw [hmax]
    exact h.length_le
  · obtain ⟨hat, hne, hs⟩ := h.valid j hj
    exact ⟨(ha.standsAt ⟨hat, hs⟩).1, hne, (ha.standsAt ⟨hat, hs⟩).2⟩

private theorem does_rewireNeighbor (hupd : ¬ A.newOnly) (h : Gathers w i layer sCand sNeigh)
    {neigh : TableInt} (hneigh : neigh ∈ sNeigh) :
    Does A t (fun _ w' => Ahead A t w w') E (rewireNeighbor P c layer sCand neigh) w := by
  rw [rewireNeighbor]
  refine does_read (fun _ => rfl) fun w₁ hi₁ hr₁ => ?_
  have h₁ := h.ahead (.of_rely hr₁)
  have hmem := (h₁.sets.neigh neigh hneigh).1
  have hkeep : 0 < min w₁.1.index.efConstruction
      (if neigh ∈ sCand then sCand.length - 1 else sCand.length) := by
    have hef := hi₁.linking.params.efConstruction_pos
    have hlen := h₁.sets.two_le_length hneigh
    rw [if_pos hmem]
    omega
  obtain ⟨q, hq, hle⟩ := Index.keepClosest_ok (P := P) (s := w₁.1.index) neigh hkeep
    (c.traversal sCand) P.queues.far.empty
  rw [Index.queueIds, Index.queueIds, P.queues.far.elems_empty, Multiset.map_zero, zero_add] at hle
  have hfit := h₁.listFits (A := A) hupd hle
  dsimp only
  rw [hq]
  change Does A t _ E (pure q >>= _) w₁
  rw [pure_bind]
  generalize Index.poppedIds P (w₁.1.index.getNeighborsByHeuristic2 P q (w₁.1.index.maxLinks layer))
    = ids at hfit ⊢
  refine does_last (does_locking (fun w₂ hi₂ hr₂ hheld => ?_) fun w₂ hi₂ hr₂ _ => ?_)
  · have hs := (h₁.ahead (.of_rely hr₂)).settled neigh hneigh
    exact absurd (hi₂.locking.free_of_settled hs) hheld
  · have h₂ := h₁.ahead (.of_rely hr₂)
    have hfit₂ := hfit.ahead (.of_rely hr₂)
    obtain ⟨σ, γ⟩ := w₂
    have hrep := Index.Replaced.set σ.index neigh layer
      (((σ.index.getLinklistAtLevel neigh layer).setListCount ids.length).writeEntries 0 ids)
      (by simp)
    have hconn := LinkList.connections_setListCount_writeEntries
      (σ.index.getLinklistAtLevel neigh layer)
      (lt_of_le_of_lt hfit₂.length_le (hi₂.linking.params.maxLinks_lt layer))
    obtain ⟨htouch, hcrown⟩ := touches_of_replaced hrep
    refine ⟨γ, hi₂.move_replaced hrep (h₂.settled neigh hneigh) (fun _ => by rw [hconn]; exact hfit₂)
      (fun hn => absurd hn hupd), satE_pure fun w' _ hr' => ?_⟩
    have hahead : Ahead A t (σ, γ) (_, γ) :=
      .of_settled htouch hcrown (hrep.records.level neigh) (hrep.records.label neigh)
    exact (Ahead.of_rely (hr₁.trans hr₂)).trans (hahead.trans (.of_rely hr'))

private theorem does_rewireLayer (hupd : ¬ A.newOnly) (h : Updates t label i w)
    (hlayer : w.1.index.AtLevel layer i) (hs : Settled w.2 i) :
    Does A t (fun _ w' => Ahead A t w w') E (rewireLayer P c i layer) w := by
  rw [rewireLayer]
  refine does_scan (g := fun s => .ok (s.connections i layer)) (fun _ => rfl)
    (fun w₁ hi₁ hr₁ hheld => ?_) fun w₁ hi₁ hr₁ _ => ⟨_, rfl, ?_⟩
  · exact absurd (hi₁.locking.free_of_settled (hr₁.settled hlayer.1 hs)) hheld
  have hstands : StandsAt w₁ layer i := StandsAt.rely ⟨hlayer, hs.settled⟩ hr₁
  dsimp only
  split
  · exact satE_pure fun w' _ hr' => .of_rely (hr₁.trans hr')
  have hstart : Gathers w₁ i layer [i] [] :=
    ⟨⟨List.nodup_singleton i, by simpa using hstands.1, List.mem_singleton_self i, by simp⟩,
      by simpa using hstands.2, by simp⟩
  have hrank := (h.ahead (.of_rely hr₁)).rank_lt layer
  refine satE_bind (satE_mono (does_gatherCandidates _ 0
    (fun j hj => hi₁.links_stand hstands hj) hstart hrank) (fun sets w₂ _ h₂ => ?_)
    fun _ _ _ he => he)
  refine satE_mono (does_forM_ahead fun neigh hneigh w₃ _ h₃ => ?_) (fun _ _ _ h' =>
    (Ahead.of_rely (hr₁.trans h₂.1)).trans h') fun _ _ _ he => he
  exact does_rewireNeighbor hupd (h₂.2.ahead h₃) ((c.traversal_perm _).mem_iff.mp hneigh)

end Gather

theorem FoundAt.filter {top : P.queues.far.Carrier} (h : FoundAt P w l top)
    (hne : 0 < P.queues.far.size (P.queues.far.pushAll P.queues.far.empty
      ((P.queues.far.drain top).filter fun p => p.2 ≠ i))) :
    FoundAt P w l (P.queues.far.pushAll P.queues.far.empty
      ((P.queues.far.drain top).filter fun p => p.2 ≠ i)) ∧
    ∀ j ∈ Index.queueIds P (P.queues.far.pushAll P.queues.far.empty
      ((P.queues.far.drain top).filter fun p => p.2 ≠ i)), j ≠ i := by
  rw [PriorityQueue.size, Multiset.card_pos] at hne
  refine ⟨⟨?_, fun j hj => ?_, hne⟩, fun j hj => ?_⟩
  · rw [Index.queueIds_filter]
    exact h.nodup.filter _
  · rw [Index.queueIds_filter] at hj
    exact h.valid j (Multiset.mem_of_mem_filter hj)
  · rw [Index.queueIds_filter] at hj
    exact (Multiset.mem_filter.mp hj).2

section Repair

variable (hupd : ¬ A.newOnly)
include hupd

private theorem does_repairLevel (h : Updates t label i w) (hfuel : w.1.index.maxElements ≤ fuel)
    (hlevel : w.1.index.AtLevel l i) (hs : Settled w.2 i) (hep : RestsAt w l ep)
    (hcur : RestsAt w l currObj) :
    Does A t (fun next w' => Ahead A t w w' ∧ RestsAt w' l next) E
      (repairLevel P fuel x ep i l currObj) w := by
  rw [repairLevel]
  refine satE_bind (satE_mono (does_searchBaseLayer hfuel hcur (h.rank_lt l))
    (fun top w₁ _ h₁ => ?_) fun _ _ _ he => he)
  obtain ⟨hr₁, hfound⟩ := h₁
  dsimp only
  split
  · next hsize =>
    obtain ⟨hfound', hne⟩ := hfound.filter hsize
    refine does_read (fun _ => rfl) fun w₂ hi₂ hr₂ => ?_
    have hr := hr₁.trans hr₂
    have hep₂ := hep.rely hr
    rw [hi₂.linking.unmarked ep hep₂.1.1 hep₂.stands.2.shown_filled, withEntryPoint,
      if_neg Bool.false_ne_true, pure_bind]
    refine satE_mono (does_connectUpdate hupd (hr.atLevel hs.settled hlevel)
      (hr.settled hlevel.1 hs) (hfound'.rely hr₂) hne) (fun _ _ _ h' =>
      ⟨(Ahead.of_rely hr).trans h'.1, h'.2⟩) fun _ _ _ he => he
  · exact satE_pure fun w' _ hr' => ⟨.of_rely (hr₁.trans hr'), hcur.rely (hr₁.trans hr')⟩

private theorem does_repairLevels (n : Nat) (h : Updates t label i w) (hfuel : w.1.index.maxElements ≤ fuel)
    (hlevel : ∀ l < n, w.1.index.AtLevel l i) (hs : Settled w.2 i) (hep : ∀ l < n, RestsAt w l ep)
    (hcur : ∀ l < n, RestsAt w l currObj) :
    Does A t (fun _ w' => Ahead A t w w') E
      (repairLevels P fuel x ep i (List.range n).reverse currObj) w := by
  induction n generalizing w currObj with
  | zero => exact satE_pure fun w' _ hr => .of_rely hr
  | succ n ih =>
    rw [List.range_succ, List.reverse_append, List.reverse_singleton, List.singleton_append,
      repairLevels]
    have hn := Nat.lt_succ_self n
    refine satE_bind (satE_mono (does_repairLevel hupd h hfuel (hlevel n hn) hs (hep n hn)
      (hcur n hn)) (fun next w₁ _ h₁ => ?_) fun _ _ _ he => he)
    obtain ⟨ha, hnext⟩ := h₁
    refine satE_mono (ih (h.ahead ha) (by rw [ha.maxElements]; exact hfuel)
      (fun l hl => ha.atLevel hs.settled (hlevel l (hl.trans hn)))
      (ha.settled (hlevel n hn).1 hs) (fun l hl => ha.restsAt (hep l (hl.trans hn)))
      fun l hl => hnext.mono hl.le) (fun _ _ _ h' => ha.trans h') fun _ _ _ he => he

end Repair

section Update

variable {pool : Finset V} (hpool : ∀ label v, A.allowed label v → v ∈ pool) (hupd : ¬ A.newOnly)
include hpool hupd

private theorem does_repairConnectionsForUpdate (h : Updates t label i w) (hcard : pool.card < fuel)
    (hfuel : w.1.index.maxElements ≤ fuel) {n : Nat} {maxLevel : Int} (hn : (n : Int) ≤ maxLevel)
    (hlevel : w.1.index.AtLevel n i) (hs : Settled w.2 i) (hep : RestsAt w maxLevel.toNat ep) :
    Does A t (fun _ w' => Ahead A t w w') E
      (repairConnectionsForUpdate P fuel x ep i n maxLevel) w := by
  rw [repairConnectionsForUpdate]
  have hrank : toLex (1, 0) ≤ (w.2 t).rank := by
    rw [h.stage]
    exact le_rfl
  refine satE_bind (satE_mono (does_descendFrom hpool hcard n hep hrank) (fun currObj w₁ _ h₁ => ?_)
    fun _ _ _ he => he)
  obtain ⟨hr, hcur⟩ := h₁
  have hle : n ≤ maxLevel.toNat := by omega
  rw [min_eq_right hle] at hcur
  rw [if_neg (not_lt.mpr hn)]
  have ha := Ahead.of_rely hr
  refine satE_mono (does_repairLevels hupd (n + 1) (h.ahead ha) (by rw [ha.maxElements]; exact hfuel)
    (fun l hl => ?_) (hr.settled hlevel.1 hs) (fun l hl => ?_)
    fun l hl => hcur.mono (Nat.lt_succ_iff.mp hl)) (fun _ _ _ h' => ha.trans h') fun _ _ _ he => he
  · have hat := hr.atLevel hs.settled hlevel
    exact ⟨hat.1, (Nat.lt_succ_iff.mp hl).trans hat.2⟩
  · exact (hep.rely hr).mono ((Nat.lt_succ_iff.mp hl).trans hle)

theorem does_updatePoint (h : Updates t label i w) (hx : A.allowed label x) (hcard : pool.card < fuel)
    (hfuel : w.1.index.maxElements ≤ fuel) :
    Does A t (fun _ w' => Ahead A t w w') E (updatePoint P fuel c x i) w := by
  rw [updatePoint]
  refine does_access fun w₁ hi₁ hr₁ => ?_
  have h₁ := h.ahead (.of_rely hr₁)
  obtain ⟨hlt₁, hs₁, hlabel⟩ := h₁.settled hi₁
  obtain ⟨σ, γ⟩ := w₁
  have hset : Ahead A t (σ, γ) ({ σ with index := σ.index.setData i x }, γ) :=
    .of_settled (touches_setData σ.index i x) ⟨rfl, rfl⟩ rfl
      (Index.getExternalLabel_setData σ.index i i x)
  rw [wp_modify]
  refine ⟨γ, hi₁.move_setData hs₁ (hlabel ▸ hx), ?_⟩
  have ha₁ := (Ahead.of_rely hr₁).trans hset
  have hu₁ := h.ahead ha₁
  generalize (({ σ with index := σ.index.setData i x }, γ) : World V T) = w₁ at ha₁ hu₁ ⊢
  -- `maxlevel_` is read first: it is at least the level of every settled element
  refine does_read (g := fun s => s.maxlevel) (fun _ => rfl) fun w₂ hi₂ hr₂ => ?_
  have hu₂ := hu₁.ahead (.of_rely hr₂)
  obtain ⟨hlt₂, hs₂, -⟩ := hu₂.settled hi₂
  have hmax := hi₂.ruling.le i hlt₂ hs₂.settled
  -- then the entry point, whose level is at least `maxlevel_` of now
  refine does_read (g := fun s => s.entry) (fun _ => rfl) fun w₃ hi₃ hr₃ => ?_
  have hu₃ := hu₂.ahead (.of_rely hr₃)
  obtain ⟨hlt₃, hs₃, -⟩ := hu₃.settled hi₃
  obtain ⟨ep, hep, -, hrest⟩ := hi₃.entry_rests hlt₃
    fun u label top p hu => (hs₃ u label top p hu).elim
  have hentry : w₃.1.index.entry = ep := by rw [Index.entry, hep, Option.getD_some]
  have hrest₃ : RestsAt w₃ w₂.1.index.maxlevel.toNat ep := by
    have := hr₃.maxlevel_le
    exact hrest.mono (by omega)
  rw [hentry]
  refine does_read (g := fun s => s.curElementCount) (fun _ => rfl) fun w₄ hi₄ hr₄ => ?_
  have ha₄ : Ahead A t w w₄ := ha₁.trans (.of_rely ((hr₂.trans hr₃).trans hr₄))
  split
  · exact satE_pure fun w' _ hr' => ha₄.trans (.of_rely hr')
  refine does_read (g := fun s => s.level i) (fun _ => rfl) fun w₀ hi₀ hr₀ => ?_
  refine does_read (g := fun s => decide (s.LacksLists i)) (fun _ => rfl) fun w₅ hi₅ hr₅ => ?_
  have hr₂₀ := (hr₃.trans hr₄).trans hr₀
  have hr₂₅ := hr₂₀.trans hr₅
  have hlevel : w₅.1.index.level i = w₂.1.index.level i := hr₂₅.level i hlt₂ hs₂.settled
  rw [hr₂₀.level i hlt₂ hs₂.settled, ← hlevel]
  have hu₅ := hu₂.ahead (.of_rely hr₂₅)
  obtain ⟨hlt₅, hs₅, -⟩ := hu₅.settled hi₅
  have ha₅ := ha₄.trans (.of_rely (hr₀.trans hr₅))
  rw [if_neg (by simpa using hi₅.linking.backed i hlt₅ hs₅.settled)]
  refine satE_bind (satE_mono (does_forM_ahead fun layer hlayer w₆ hi₆ h₆ => ?_)
    (fun _ w₆ hi₆ h₆ => ?_) fun _ _ _ he => he)
  · have hat : w₅.1.index.AtLevel layer i :=
      ⟨hlt₅, Nat.lt_succ_iff.mp (List.mem_range.mp hlayer)⟩
    exact does_rewireLayer hupd (hu₅.ahead h₆) (h₆.atLevel hs₅.settled hat)
      (h₆.settled hlt₅ hs₅)
  · have ha₆ := ha₅.trans h₆
    refine satE_mono (does_repairConnectionsForUpdate hpool hupd (hu₅.ahead h₆) hcard
      (by rw [ha₆.maxElements]; exact hfuel) (by rw [hlevel]; exact hmax)
      (h₆.atLevel hs₅.settled ⟨hlt₅, le_rfl⟩) (h₆.settled hlt₅ hs₅)
      (h₆.restsAt (hrest₃.rely ((hr₄.trans hr₀).trans hr₅)))) (fun _ _ _ h' => ha₆.trans h') fun _ _ _ he => he

end Update

end HnswRvv.Concurrent
