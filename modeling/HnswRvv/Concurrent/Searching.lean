import HnswRvv.Concurrent.Moves
import HnswRvv.Framework.MovingBeam

/-!
# Searches while others insert

A thread that descends or searches may have to wait for an element in the making, but only for one
that is already linked at the level the thread is at. It scans a list only when nobody holds the
lock of the element, and then the element is settled. So the end of a descent and all results of a
search are settled elements.
-/

namespace HnswRvv.Concurrent

open Framework OrderDual Protocol
set_option linter.unusedSectionVars false

variable {V D T α β : Type} [Inhabited V] [LinearOrder D] [DecidableEq T] {A : Terms V T}
  {P : Platform V D} {t : T} {w : World V T} {k : Lock}

abbrev Does (A : Terms V T) (t : T) (Q : α → World V T → Prop) (E : Failure → World V T → Prop)
    (m : Task V T α) (w : World V T) : Prop := (protocol A).satE t Q E m w

/-- A step of `t` that turns the index into `s`, and what holds after it. -/
def Steps (A : Terms V T) (t : T) (w : World V T) (s : Index V) (C : World V T → Prop) : Prop :=
  ∃ γ', (protocol A).Move t w ({ w.1 with index := s }, γ') ∧ C ({ w.1 with index := s }, γ')

/-- The exception `e` may leave the call. -/
def Escapes (A : Terms V T) (t : T) (E : Failure → World V T → Prop) (e : Failure) (w : World V T) :
    Prop := ∀ w', Inv A w' → Rely A t w w' → E e w'

section Rules

variable {m : IndexM V α} {f : α → Task V T β} {Q : β → World V T → Prop}
  {E : Failure → World V T → Prop}

private theorem does_step {ready : Shared V T → Bool}
    (hwait : ∀ w', Inv A w' → Rely A t w w' → ready w'.1 = false → (protocol A).Waits t w'.2)
    (h : ∀ w', Inv A w' → Rely A t w w' → ready w'.1 = true → wp m
      (fun a s => Steps A t w' s (Does A t Q E (f a)))
      (fun e s => Steps A t w' s (Escapes A t E e)) w'.1.index) :
    Does A t Q E (ExceptT.mk (Prog.atomic ready (Shared.apply m)) >>= f) w := by
  refine satE_atomic_bind hwait fun w' hi hr hready => ?_
  have hw := h w' hi hr hready
  unfold wp at hw
  unfold Shared.apply
  cases hm : m w'.1.index with
  | ok a s =>
    rw [hm] at hw
    exact hw
  | error e s =>
    rw [hm] at hw
    exact hw

theorem does_access (h : ∀ w', Inv A w' → Rely A t w w' → wp m
      (fun a s => Steps A t w' s (Does A t Q E (f a)))
      (fun e s => Steps A t w' s (Escapes A t E e)) w'.1.index) :
    Does A t Q E (access m >>= f) w :=
  does_step (fun _ _ _ h => by cases h) fun w' hi hr _ => h w' hi hr

theorem does_locking
    (hwait : ∀ w', Inv A w' → Rely A t w w' → w'.1.held k ≠ none → (protocol A).Waits t w'.2)
    (h : ∀ w', Inv A w' → Rely A t w w' → w'.1.held k = none → wp m
      (fun a s => Steps A t w' s (Does A t Q E (f a)))
      (fun e s => Steps A t w' s (Escapes A t E e)) w'.1.index) :
    Does A t Q E (locking k m >>= f) w := by
  refine does_step (fun w' hi hr hready => hwait w' hi hr ?_)
    fun w' hi hr hready => h w' hi hr (Option.isNone_iff_eq_none.mp hready)
  intro hnone
  rw [Shared.isFree, hnone] at hready
  cases hready

theorem does_last {m : Task V T β} (h : Does A t Q E (m >>= pure) w) : Does A t Q E m w := by
  rwa [bind_pure] at h

theorem steps_refl {C : World V T → Prop} (hi : Inv A w) (hc : C w) :
    Steps A t w w.1.index C := ⟨w.2, ⟨hi, fun u _ => Rely.refl A u w⟩, hc⟩

theorem does_read {g : Index V → α} (hm : ∀ s, m s = .ok (g s) s)
    (h : ∀ w', Inv A w' → Rely A t w w' → Does A t Q E (f (g w'.1.index)) w') :
    Does A t Q E (access m >>= f) w := by
  refine does_access fun w' hi hr => ?_
  unfold wp
  rw [hm]
  exact steps_refl hi (h w' hi hr)

theorem does_scan {g : Index V → Except Failure α} (hm : ∀ s, m s = readOnly (g s) s)
    (hwait : ∀ w', Inv A w' → Rely A t w w' → w'.1.held k ≠ none → (protocol A).Waits t w'.2)
    (h : ∀ w', Inv A w' → Rely A t w w' → w'.1.held k = none →
      ∃ a, g w'.1.index = .ok a ∧ Does A t Q E (f a) w') :
    Does A t Q E (locking k m >>= f) w := by
  refine does_locking hwait fun w' hi hr hfree => ?_
  obtain ⟨a, ha, hd⟩ := h w' hi hr hfree
  unfold wp
  rw [hm, ha]
  exact steps_refl hi hd

end Rules

/-- A thread at level `l` that finds an element locked waits for an insertion below it. -/
theorem Inv.waits_element {i : TableInt} {l : Nat} (h : Inv A w) (hs : Shown w.2 l i)
    (hrank : toLex (0, l) < (w.2 t).rank) (hheld : w.1.held (.element i) ≠ none) :
    (protocol A).Waits t w.2 := by
  obtain ⟨u, hu⟩ := Option.ne_none_iff_exists'.mp hheld
  obtain ⟨label, top, p, he⟩ := h.locking.owner_of_held hu
  refine ⟨u, ?_, ?_⟩
  · change w.2 u ≠ .outside
    rw [he]
    exact fun hf => Stage.noConfusion hf
  · change (w.2 u).rank < _
    rw [he]
    exact ((Stage.rank_inserting_le label i top p).trans
      (Progress.rank_le_of_shows (hs u label top p he))).trans_lt hrank

/-- An element of level `l` that links of that level may show. -/
def StandsAt (w : World V T) (l : Nat) (i : TableInt) : Prop :=
  w.1.index.AtLevel l i ∧ Shown w.2 l i

/-- An element of level `l` that is linked on all its levels. -/
def RestsAt (w : World V T) (l : Nat) (i : TableInt) : Prop :=
  w.1.index.AtLevel l i ∧ Complete w.2 i

section Standing

variable {w' : World V T} {l l' : Nat} {i j : TableInt}

theorem StandsAt.rely (h : StandsAt w l i) (hr : Rely A t w w') : StandsAt w' l i :=
  ⟨hr.atLevel h.2.shown_filled h.1, hr.shown h.1.1 h.2⟩

theorem RestsAt.stands (h : RestsAt w l i) : StandsAt w l i := ⟨h.1, h.2.complete_shown l⟩

theorem RestsAt.rely (h : RestsAt w l i) (hr : Rely A t w w') : RestsAt w' l i :=
  ⟨(h.stands.rely hr).1, hr.complete h.1.1 h.2⟩

theorem RestsAt.mono (h : RestsAt w l i) (hl : l' ≤ l) : RestsAt w l' i :=
  ⟨⟨h.1.1, hl.trans h.1.2⟩, h.2⟩

theorem Inv.links_stand (h : Inv A w) (hi : StandsAt w l i) (hj : j ∈ w.1.index.connections i l) :
    StandsAt w l j ∧ j ≠ i := by
  obtain ⟨ha, hne, hs⟩ := (h.linking.lists i l hi.1 hi.2.shown_filled).valid j hj
  exact ⟨⟨ha, hs⟩, hne⟩

theorem Inv.settled_of_free (h : Inv A w) (hi : StandsAt w l i)
    (hfree : w.1.held (.element i) = none) : Settled w.2 i := h.locking.settled_of_free hfree hi.2

end Standing

/-- A pass over a list of existing elements: the current element stays, or it becomes a nearer one
of the list. -/
theorem greedyScan_moves {s : Index V} (q : V) (checked : Bool)
    (hcap : s.curElementCount ≤ s.maxElements) (links : List TableInt)
    (hlinks : ∀ j ∈ links, j < s.curElementCount) (cur : D × TableInt) (changed : Bool) :
    ∃ cur' changed', s.greedyScan P q checked links cur changed = .ok (cur', changed') ∧
      (cur' = cur ∧ changed' = changed ∨ cur'.1 < cur.1 ∧ changed' = true ∧ cur'.2 ∈ links ∧
        cur'.1 = P.fstdistfunc q (s.getDataByInternalId cur'.2)) := by
  induction links generalizing cur changed with
  | nil => exact ⟨cur, changed, rfl, Or.inl ⟨rfl, rfl⟩⟩
  | cons j links ih =>
    obtain ⟨hj, hrest⟩ := List.forall_mem_cons.mp hlinks
    have hcheck : (checked && decide (s.maxElements < j)) = false := by
      rw [decide_eq_false (not_lt.mpr (hj.le.trans hcap)), Bool.and_false]
    rw [Index.greedyScan, hcheck, if_neg Bool.false_ne_true]
    split
    · next hlt =>
      obtain ⟨cur', changed', he, hmove⟩ := ih hrest
        (P.fstdistfunc q (s.getDataByInternalId j), j) true
      refine ⟨cur', changed', he, Or.inr ?_⟩
      rcases hmove with ⟨rfl, rfl⟩ | ⟨hlt', hch, hmem, hd⟩
      · exact ⟨hlt, rfl, List.mem_cons_self, rfl⟩
      · exact ⟨hlt'.trans hlt, hch, List.mem_cons_of_mem j hmem, hd⟩
    · obtain ⟨cur', changed', he, hmove⟩ := ih hrest cur changed
      refine ⟨cur', changed', he, hmove.imp_right fun hm => ?_⟩
      exact ⟨hm.1, hm.2.1, List.mem_cons_of_mem j hm.2.2.1, hm.2.2.2⟩

open Classical in
/-- The vectors of `pool` that are nearer to `q` than `d`. -/
noncomputable def nearerVectors (P : Platform V D) (pool : Finset V) (q : V) (d : D) : Finset V :=
  pool.filter fun v => P.fstdistfunc q v < d

private theorem card_nearerVectors_lt {pool : Finset V} {q v : V} {d : D} (hv : v ∈ pool)
    (hlt : P.fstdistfunc q v < d) :
    (nearerVectors P pool q (P.fstdistfunc q v)).card < (nearerVectors P pool q d).card := by
  refine Finset.card_lt_card (Finset.ssubset_iff_of_subset ?_ |>.mpr ⟨v, ?_, ?_⟩)
  · intro u hu
    simp only [nearerVectors, Finset.mem_filter] at hu ⊢
    exact ⟨hu.1, hu.2.trans hlt⟩
  · simp only [nearerVectors, Finset.mem_filter]
    exact ⟨hv, hlt⟩
  · simp [nearerVectors]

section Descent

variable {pool : Finset V} (hpool : ∀ label v, A.allowed label v → v ∈ pool) {q : V}
  {checked : Bool} {E : Failure → World V T → Prop} {l : Nat}
include hpool

private theorem Inv.data_mem (h : Inv A w) {i : TableInt} (hi : StandsAt w l i) :
    w.1.index.getDataByInternalId i ∈ pool := by
  obtain ⟨label, hn⟩ := exists_named w.2 w.1.index i
  exact hpool label _ (h.naming.vectors label i hi.1.1 hi.2.shown_filled hn)

private theorem does_greedyLevel (fuel : Nat) {cur : D × TableInt} (hcur : StandsAt w l cur.2)
    (hrank : toLex (0, l) < (w.2 t).rank) (hfuel : (nearerVectors P pool q cur.1).card < fuel) :
    Does A t (fun cur' w' => Rely A t w w' ∧ RestsAt w' l cur'.2) E
      (greedyLevel P q checked l fuel cur) w := by
  induction fuel generalizing cur w with
  | zero => exact absurd hfuel (Nat.not_lt_zero _)
  | succ fuel ih =>
    rw [greedyLevel]
    refine does_scan (g := fun s => s.greedyScan P q checked (s.connections cur.2 l) cur false)
      (fun _ => rfl) (fun w' hi hr hheld => ?_) fun w' hi hr hfree => ?_
    · exact hi.waits_element (hcur.rely hr).2 (by rw [hr.stage]; exact hrank) hheld
    · have hcur' := hcur.rely hr
      have hlinks : ∀ j ∈ w'.1.index.connections cur.2 l, StandsAt w' l j :=
        fun j hj => (hi.links_stand hcur' hj).1
      obtain ⟨cur', changed', he, hmove⟩ := greedyScan_moves (P := P) q checked hi.linking.cap
        (w'.1.index.connections cur.2 l) (fun j hj => (hlinks j hj).1.1) cur false
      refine ⟨(cur', changed'), he, ?_⟩
      rcases hmove with ⟨rfl, rfl⟩ | ⟨hlt, rfl, hmem, hd⟩
      · refine satE_pure fun w'' hi' hr' => ⟨hr.trans hr', ?_⟩
        have hrest : RestsAt w' l cur'.2 := ⟨hcur'.1, (hi.settled_of_free hcur' hfree).settled⟩
        exact hrest.rely hr'
      · have hlt' := card_nearerVectors_lt (P := P) (hi.data_mem hpool (hlinks _ hmem))
          (hd ▸ hlt)
        rw [← hd] at hlt'
        refine satE_mono (ih (hlinks _ hmem) (by rw [hr.stage]; exact hrank) (by omega))
          (fun _ _ _ h => ⟨hr.trans h.1, h.2⟩) fun _ _ _ he => he

private theorem does_descend {fuel : Nat} (hfuel : pool.card < fuel) {hi : Nat} (lo : Nat)
    {cur : D × TableInt} (hcur : RestsAt w hi cur.2) (hrank : toLex (1, 0) ≤ (w.2 t).rank) :
    Does A t (fun cur' w' => Rely A t w w' ∧ RestsAt w' (min hi lo) cur'.2) E
      (descend P fuel q checked (Index.levelsDown hi lo) cur) w := by
  induction hi generalizing cur w with
  | zero =>
    rw [Index.levelsDown_of_le (Nat.zero_le lo), descend, Nat.zero_min]
    exact satE_pure fun w' _ hr => ⟨hr, hcur.rely hr⟩
  | succ hi ih =>
    rcases Nat.lt_or_ge lo (hi + 1) with hlt | hge
    · rw [Index.levelsDown_of_lt hlt, descend]
      have hcard : (nearerVectors P pool q cur.1).card < fuel :=
        (Finset.card_filter_le _ _).trans_lt hfuel
      have hlow : toLex (0, hi + 1) < (w.2 t).rank :=
        lt_of_lt_of_le (Prod.Lex.toLex_lt_toLex.mpr (Or.inl Nat.zero_lt_one)) hrank
      refine satE_bind (satE_mono (does_greedyLevel hpool fuel hcur.stands hlow hcard)
        (fun cur' w' _ h => ?_) fun _ _ _ he => he)
      refine satE_mono (ih (h.2.mono (Nat.le_succ hi)) (by rw [h.1.stage]; exact hrank))
        (fun cur'' w'' _ h' => ⟨h.1.trans h'.1, ?_⟩) fun _ _ _ he => he
      rw [min_eq_right (Nat.lt_succ_iff.mp hlt)] at h'
      rw [min_eq_right hlt.le]
      exact h'.2
    · rw [Index.levelsDown_of_le hge, descend, min_eq_left hge]
      exact satE_pure fun w' _ hr => ⟨hr, hcur.rely hr⟩

theorem does_descendFrom {fuel : Nat} (hfuel : pool.card < fuel) {hi : Nat} (lo : Nat)
    {start : TableInt} (hstart : RestsAt w hi start) (hrank : toLex (1, 0) ≤ (w.2 t).rank) :
    Does A t (fun i w' => Rely A t w w' ∧ RestsAt w' (min hi lo) i) E
      (descendFrom P fuel q checked hi lo start) w := by
  refine does_read (fun _ => rfl) fun w' _ hr => ?_
  refine satE_bind (satE_mono (does_descend hpool hfuel lo (hstart.rely hr)
    (by rw [hr.stage]; exact hrank)) (fun cur w'' _ h => ?_) fun _ _ _ he => he)
  exact satE_pure fun w''' _ hr' => ⟨(hr.trans h.1).trans hr', h.2.rely hr'⟩

end Descent

/-- The result of a search of layer `l`: distinct settled elements of that layer. -/
structure FoundAt (P : Platform V D) (w : World V T) (l : Nat) (top : P.queues.far.Carrier) : Prop where
  nodup : (Index.queueIds P top).Nodup
  valid : ∀ i ∈ Index.queueIds P top, w.1.index.AtLevel l i ∧ Settled w.2 i
  nonempty : P.queues.far.elems top ≠ 0

theorem FoundAt.rely {w' : World V T} {l : Nat} {top : P.queues.far.Carrier} (h : FoundAt P w l top)
    (hr : Rely A t w w') : FoundAt P w' l top :=
  ⟨h.nodup, fun i hi => ⟨hr.atLevel (h.valid i hi).2.settled (h.valid i hi).1,
    hr.settled (h.valid i hi).1.1 (h.valid i hi).2⟩, h.nonempty⟩

/-- What a search has met, and what it has scanned. -/
structure SearchesAt (P : Platform V D) (w : World V T) (l ef fuel : Nat) (b : Beam P.queues Bool) :
    Prop where
  tracked : BestFirst.Tracked P.queues ef (Settled w.2) b
  visited : ∀ i ∈ b.visited, StandsAt w l i
  fuel : w.1.index.maxElements + P.queues.near.size b.candidateSet ≤ b.visited.card + fuel

theorem SearchesAt.rely {w' : World V T} {l ef fuel : Nat} {b : Beam P.queues Bool}
    (h : SearchesAt P w l ef fuel b) (hr : Rely A t w w') : SearchesAt P w' l ef fuel b := by
  have hmax : w'.1.index.maxElements = w.1.index.maxElements := congrArg Prod.fst hr.settings
  refine ⟨h.tracked.mono fun i hi => hr.settled (h.visited i hi).1.1,
    fun i hi => (h.visited i hi).rely hr, ?_⟩
  rw [hmax]
  exact h.fuel

private theorem SearchesAt.card_le {l ef fuel : Nat} {b : Beam P.queues Bool} (h : SearchesAt P w l ef fuel b)
    (hi : Inv A w) : b.visited.card ≤ w.1.index.maxElements := by
  have hsub : b.visited ⊆ Finset.range w.1.index.maxElements := fun i hm =>
    Finset.mem_range.mpr ((h.visited i hm).1.1.trans_le hi.linking.cap)
  exact (Finset.card_le_card hsub).trans (Finset.card_range _).le

private theorem layerPolicy_stop (ef : Nat) (st : Bool) (n : Nat) (d lb : D)
    (h : ((Index.layerPolicy ef : SearchPolicy TableInt D Bool).shouldStop st n d lb).1 = true) :
    lb < d := by
  simp only [Index.layerPolicy, Bool.and_eq_true, decide_eq_true_eq] at h
  exact h.1

section Search

variable {w' : World V T} {l ef fuel : Nat} {b b' : Beam P.queues Bool} {c : TableInt}
  {E : Failure → World V T → Prop} {x : V}

theorem SearchesAt.found (h : SearchesAt P w l ef fuel b)
    (hn : BestFirst.next P.queues (Index.layerPolicy ef) b = .inl b') :
    FoundAt P w l b'.topCandidates := by
  obtain ⟨htop, hscanned⟩ := h.tracked.next_inl (layerPolicy_stop ef) hn
  rw [htop]
  refine ⟨h.tracked.nodup, fun i hi => ?_, h.tracked.nonempty⟩
  obtain ⟨p, hp, rfl⟩ := Multiset.mem_map.mp hi
  exact ⟨(h.visited p.2 (h.tracked.result p hp).1).1, hscanned p hp⟩

/-- A popped node is an element that the search has met, and there is fuel to scan it. -/
theorem SearchesAt.pop (h : SearchesAt P w l ef fuel b) (hi : Inv A w)
    (hn : BestFirst.next P.queues (Index.layerPolicy ef) b = .inr (c, b')) :
    BestFirst.Tracked P.queues ef (fun i => Settled w.2 i ∨ i = c) b' ∧ StandsAt w l c ∧
      b'.visited = b.visited ∧ 0 < fuel ∧
      w.1.index.maxElements + P.queues.near.size b'.candidateSet + 1 ≤ b'.visited.card + fuel := by
  obtain ⟨htracked, hc⟩ := h.tracked.next_inr hn
  obtain ⟨-, hvis, -, d, he⟩ := BestFirst.next_inr hn
  have hsize : P.queues.near.size b.candidateSet = P.queues.near.size b'.candidateSet + 1 := by
    rw [PriorityQueue.size, he, Multiset.card_cons, ← PriorityQueue.size]
  have hfuel := h.fuel
  have hcard := h.card_le hi
  rw [hvis] at hc ⊢
  exact ⟨htracked, h.visited c hc, rfl, by omega, by omega⟩

theorem SearchesAt.scan (hef : 0 < ef) (hi : Inv A w) (hc : StandsAt w l c)
    (hfree : w.1.held (.element c) = none)
    (htracked : BestFirst.Tracked P.queues ef (fun i => Settled w.2 i ∨ i = c) b)
    (hvisited : ∀ i ∈ b.visited, StandsAt w l i)
    (hfuel : w.1.index.maxElements + P.queues.near.size b.candidateSet ≤ b.visited.card + fuel) :
    ∃ b', Index.liftAbort (BestFirst.expand P.queues (searchView P w.1.index x l)
        (Index.layerPolicy ef) (w.1.index.connections c l) b) = .ok b' ∧
      SearchesAt P w l ef fuel b' := by
  have hsettled := hi.settled_of_free hc hfree
  have hmono : BestFirst.Tracked P.queues ef (Settled w.2) b :=
    htracked.mono fun i _ hs => hs.elim id fun he => he ▸ hsettled
  obtain ⟨b', hb', htracked', hvis⟩ := hmono.expand (G := searchView P w.1.index x l) hef
    (Index.layerPolicy_keepsNearest P.queues ef) (w.1.index.connections c l)
  refine ⟨b', by rw [hb']; rfl, htracked', fun i hm => ?_, ?_⟩
  · rcases hvis i hm with hm | hm
    · exact hvisited i hm
    · exact (hi.links_stand hc hm).1
  · have hbudget := BestFirst.expand_budget hb'
    omega

private theorem does_searchLoop (hef : 0 < ef) (fuel : Nat) (hb : SearchesAt P w l ef fuel b) (hi : Inv A w)
    (hrank : toLex (0, l) < (w.2 t).rank) :
    Does A t (fun top w' => Rely A t w w' ∧ FoundAt P w' l top) E (searchLoop P ef x l fuel b) w := by
  induction fuel generalizing b w with
  | zero =>
    unfold searchLoop
    split
    · next b' hn => exact satE_pure fun w' _ hr => ⟨hr, (hb.found hn).rely hr⟩
    · next c b' hn => exact absurd (hb.pop hi hn).2.2.2.1 (Nat.lt_irrefl 0)
  | succ fuel ih =>
    unfold searchLoop
    split
    · next b' hn => exact satE_pure fun w' _ hr => ⟨hr, (hb.found hn).rely hr⟩
    · next c b' hn =>
      refine does_scan (g := fun s => Index.liftAbort (BestFirst.expand P.queues (searchView P s x l)
        (Index.layerPolicy ef) (s.connections c l) b')) (fun _ => rfl)
        (fun w' hi' hr hheld => ?_) fun w' hi' hr hfree => ?_
      · have hc := (hb.pop hi hn).2.1
        exact hi'.waits_element (hc.rely hr).2 (by rw [hr.stage]; exact hrank) hheld
      · have hb' := hb.rely hr
        obtain ⟨htracked, hc, hvis, -, hfuel⟩ := hb'.pop hi' hn
        obtain ⟨b₂, hb₂, hsearch⟩ := SearchesAt.scan (x := x) hef hi' hc hfree htracked
          (hvis ▸ hb'.visited) (Nat.le_of_succ_le_succ hfuel)
        refine ⟨b₂, hb₂, satE_mono (ih hsearch hi' (by rw [hr.stage]; exact hrank))
          (fun _ _ _ h => ⟨hr.trans h.1, h.2⟩) fun _ _ _ he => he⟩

/-- A search of a layer from an element that is linked on all its levels. -/
theorem does_searchBaseLayer {ep : TableInt} (hfuel : w.1.index.maxElements ≤ fuel)
    (hep : RestsAt w l ep) (hrank : toLex (0, l) < (w.2 t).rank) :
    Does A t (fun top w' => Rely A t w w' ∧ FoundAt P w' l top) E
      (searchBaseLayer P fuel ep x l) w := by
  refine does_read (fun _ => rfl) fun w' hi hr => ?_
  have hep' := hep.rely hr
  have hef := hi.linking.params.efConstruction_pos
  have hlive : (searchView P w'.1.index x l).eligible ep = true := by
    have := hi.linking.unmarked ep hep'.1.1 (hep'.stands.2.shown_filled)
    simp [searchView, Index.layerGraph, this]
  have hmax : w'.1.index.maxElements = w.1.index.maxElements := congrArg Prod.fst hr.settings
  have hstart : SearchesAt P w' l w'.1.index.efConstruction fuel
      (BestFirst.start P.queues (searchView P w'.1.index x l)
        (Index.layerPolicy w'.1.index.efConstruction) P.maxDist ep false) := by
    refine ⟨BestFirst.start_tracked hef P.maxDist hlive false, fun i hm => ?_, ?_⟩
    · rw [BestFirst.start_visited, Finset.mem_singleton] at hm
      rw [hm]
      exact hep'.stands
    · obtain ⟨d, hd⟩ := BestFirst.start_pending (Q := P.queues)
        (G := searchView P w'.1.index x l) (Index.layerPolicy w'.1.index.efConstruction)
        P.maxDist ep false
      rw [PriorityQueue.size, hd, BestFirst.start_visited, Multiset.card_singleton,
        Finset.card_singleton]
      omega
  refine satE_mono (does_searchLoop hef fuel hstart hi (by rw [hr.stage]; exact hrank))
    (fun _ _ _ h => ⟨hr.trans h.1, h.2⟩) fun _ _ _ he => he

end Search

end HnswRvv.Concurrent
