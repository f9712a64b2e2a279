import HnswRvv.Concurrent.Calls
import HnswRvv.Index.Runs

/-!
# Threads at work on one index

Every thread serves a list of requests, adding points and reading vectors, while the others do the
same. The index they start from has no deleted element, allocations succeed, and the bound on the
rounds of a loop is larger than the number of vectors that occur.
-/

namespace HnswRvv.Concurrent

open Framework OrderDual Protocol
set_option linter.unusedSectionVars false

/-- What a thread is asked to do: `addPoint` without replacement, or `getDataByLabel`. -/
inductive Request (V : Type) where
  | add (c : Choices) (x : V) (label : LabelType)
  | get (label : LabelType)

/-- The label of a point that is added. -/
def Request.added {V : Type} : Request V → Option LabelType
  | .add _ _ label => some label
  | .get _ => none

/-- The labels that are added, in order. -/
def addedLabels {V : Type} (reqs : List (Request V)) : List LabelType :=
  reqs.filterMap Request.added

/-- The labels that are read, in order. -/
def readLabels {V : Type} (reqs : List (Request V)) : List LabelType :=
  reqs.filterMap fun r => match r with
    | .add _ _ _ => none
    | .get label => some label

variable {V D T : Type} [Inhabited V] [LinearOrder D] [DecidableEq T]

section Serve

variable (P : Platform V D) (t : T) (fuel : Nat)

/-- One request after the other; the vectors that were read are returned. -/
def serve : List (Request V) → Task V T (List (LabelType × V))
  | [] => pure []
  | .add c x label :: rest => do
    addPoint P t fuel c x label false
    serve rest
  | .get label :: rest => do
    let v ← getDataByLabel t label
    let out ← serve rest
    pure ((label, v) :: out)

/-- The threads before their first step. -/
def threads (s : Index V) (reqs : T → List (Request V)) :
    Pool T (Shared V T) (Except Failure (List (LabelType × V))) :=
  ⟨⟨s, fun _ => none⟩, fun t => (serve P t fuel (reqs t)).run⟩

end Serve

variable {A : Terms V T} {P : Platform V D} {t : T} {w w' : World V T} {s s' : Index V}
  {fuel : Nat} {label : LabelType} {x : V} {c : Choices}

private theorem mem_addedLabels {reqs : List (Request V)} :
    label ∈ addedLabels reqs ↔ ∃ c x, .add c x label ∈ reqs := by
  rw [addedLabels, List.mem_filterMap]
  constructor
  · rintro ⟨r, hr, he⟩
    cases r with
    | add c x l =>
      cases he
      exact ⟨c, x, hr⟩
    | get l => cases he
  · rintro ⟨c, x, hr⟩
    exact ⟨_, hr, rfl⟩

structure Served (A : Terms V T) (reqs : List (Request V)) (out : List (LabelType × V))
    (s s' : Index V) : Prop where
  settings : settings s' = settings s
  known : ∀ l i, s.labelLookup l = some i → s'.labelLookup l = some i
  added : ∀ l ∈ addedLabels reqs, ∃ i, s'.labelLookup l = some i
  answers : out.map Prod.fst = readLabels reqs
  read : ∀ r ∈ out, A.allowed r.1 r.2

/-- Some label is read that is unknown in `s` and that none of the requests before adds. -/
def Misses (s : Index V) (reqs : List (Request V)) : Prop :=
  ∃ before l after, reqs = before ++ .get l :: after ∧ s.labelLookup l = none ∧
    l ∉ addedLabels before

/-- A request has ended in an exception: the index is full, or a label that is read is not there. -/
def Failed (A : Terms V T) (t : T) (reqs : List (Request V)) (e : Failure) (s s' : Index V) : Prop :=
  (e = .thrown .capacityExceeded ∧ settings s' = settings s ∧ s'.maxElements ≤ s'.curElementCount ∧
    (A.newOnly → ∃ l, A.reservedFor l t ∧ s'.labelLookup l = none)) ∨
  (e = .thrown .labelNotFound ∧ Misses s reqs)

theorem Misses.cons {r : Request V} {rest : List (Request V)} {s₁ : Index V} (h : Misses s₁ rest)
    (hknown : ∀ l i, s.labelLookup l = some i → s₁.labelLookup l = some i)
    (hadded : ∀ l ∈ r.added, ∃ i, s₁.labelLookup l = some i) : Misses s (r :: rest) := by
  obtain ⟨before, l, after, rfl, hnone, hl⟩ := h
  refine ⟨r :: before, l, after, rfl, ?_, fun hm => ?_⟩
  · by_contra hsome
    obtain ⟨i, hi⟩ := Option.ne_none_iff_exists'.mp hsome
    cases hnone.symm.trans (hknown l i hi)
  · obtain ⟨a, ha, he⟩ := List.mem_filterMap.mp hm
    rcases List.mem_cons.mp ha with rfl | ha
    · obtain ⟨i, hi⟩ := hadded l he
      cases hnone.symm.trans hi
    · exact hl (List.mem_filterMap.mpr ⟨a, ha, he⟩)

theorem Failed.cons {r : Request V} {rest : List (Request V)} {e : Failure} {s₁ : Index V}
    (h : Failed A t rest e s₁ s') (hset : settings s₁ = settings s)
    (hknown : ∀ l i, s.labelLookup l = some i → s₁.labelLookup l = some i)
    (hadded : ∀ l ∈ r.added, ∃ i, s₁.labelLookup l = some i) : Failed A t (r :: rest) e s s' :=
  h.imp (fun ⟨he, hset', hfull⟩ => ⟨he, hset'.trans hset, hfull⟩)
    fun ⟨he, hmiss⟩ => ⟨he, hmiss.cons hknown hadded⟩

private theorem does_serve {pool : Finset V} (hpool : ∀ label v, A.allowed label v → v ∈ pool)
    (hcard : pool.card < fuel) (reqs : List (Request V)) (ht : w.2 t = .outside)
    (hadd : ∀ c x l, .add c x l ∈ reqs → A.allowed l x ∧ c.malloc = true)
    (hfuel : w.1.index.maxElements ≤ fuel)
    (hnew : A.newOnly → (addedLabels reqs).Nodup ∧
      ∀ l ∈ addedLabels reqs, A.reservedFor l t ∧ w.1.index.labelLookup l = none) :
    Does A t (fun out w' => w'.2 t = .outside ∧ Served A reqs out w.1.index w'.1.index)
      (fun e w' => w'.2 t = .outside ∧ Failed A t reqs e w.1.index w'.1.index)
      (serve P t fuel reqs) w := by
  induction reqs generalizing w with
  | nil =>
    exact satE_pure fun w' _ hr => ⟨hr.stage.trans ht, hr.settings, hr.known,
      fun _ hl => absurd hl List.not_mem_nil, rfl, fun _ hr => absurd hr List.not_mem_nil⟩
  | cons r rest ih =>
    have hrest := fun c x l hm => hadd c x l (List.mem_cons_of_mem r hm)
    cases r with
    | add c x label =>
      obtain ⟨hx, hmalloc⟩ := hadd c x label List.mem_cons_self
      have hlabels : addedLabels (.add c x label :: rest) = label :: addedLabels rest := rfl
      rw [hlabels] at hnew
      rw [serve]
      refine satE_bind (satE_mono (does_addPoint hpool ht hx hmalloc hcard hfuel
        fun hn => (hnew hn).2 label List.mem_cons_self) (fun _ w₁ _ h₁ => ?_) fun e w₁ _ h₁ => ?_)
      · obtain ⟨ht₁, hk, i, hi⟩ := h₁
        refine satE_mono (ih ht₁ hrest (hk.maxElements.le.trans hfuel) fun hn => ?_)
          (fun out w₂ _ h₂ => ⟨h₂.1, h₂.2.settings.trans hk.settings,
            fun l i hl => h₂.2.known l i (hk.known l i hl), fun l hl => ?_, h₂.2.answers, h₂.2.read⟩)
          fun e w₂ _ h₂ => ⟨h₂.1, h₂.2.cons hk.settings hk.known fun l hl => ?_⟩
        · obtain ⟨hnodup, hfresh⟩ := hnew hn
          obtain ⟨hhead, htail⟩ := List.nodup_cons.mp hnodup
          refine ⟨htail, fun l hl => ?_⟩
          obtain ⟨hres, hnone⟩ := hfresh l (List.mem_cons_of_mem label hl)
          exact ⟨hres, (hk.reserved hn l (fun he => hhead (he ▸ hl)) hres).trans hnone⟩
        · rw [hlabels] at hl
          rcases List.mem_cons.mp hl with rfl | hl
          · exact ⟨i, h₂.2.known l i hi⟩
          · exact h₂.2.added l hl
        · cases hl
          exact ⟨i, hi⟩
      · obtain ⟨ht₁, hrefused⟩ := h₁
        exact ⟨ht₁, Or.inl ⟨hrefused.failure, hrefused.keeps.settings, hrefused.full,
          fun hn => ⟨label, hrefused.unknown hn⟩⟩⟩
    | get label =>
      have hlabels : addedLabels (.get label :: rest) = addedLabels rest := rfl
      rw [hlabels] at hnew
      rw [serve]
      refine satE_bind (satE_mono (does_getDataByLabel ht) (fun v w₁ _ h₁ => ?_) fun e w₁ _ h₁ => ?_)
      · obtain ⟨ht₁, hk, hv⟩ := h₁
        refine satE_bind (satE_mono (ih ht₁ hrest ((hk label).maxElements.le.trans hfuel)
          fun hn => ⟨(hnew hn).1, fun l hl => ?_⟩)
          (fun out w₂ _ h₂ => satE_pure fun w₃ _ hr₃ => ?_)
          fun e w₂ _ h₂ => ⟨h₂.1, h₂.2.cons (hk label).settings (hk label).known
            fun l hl => by cases hl⟩)
        · obtain ⟨hres, hnone⟩ := (hnew hn).2 l hl
          exact ⟨hres, ((hk (l + 1)).reserved hn l (Nat.succ_ne_self l).symm hres).trans hnone⟩
        · refine ⟨hr₃.stage.trans h₂.1, hr₃.settings.trans (h₂.2.settings.trans (hk label).settings),
            fun l i hl => ?_, fun l hl => ?_, congrArg (label :: ·) h₂.2.answers, fun r hr => ?_⟩
          · exact hr₃.known l i (h₂.2.known l i ((hk label).known l i hl))
          · obtain ⟨i, hi⟩ := h₂.2.added l hl
            exact ⟨i, hr₃.known l i hi⟩
          · rcases List.mem_cons.mp hr with rfl | hr
            · exact hv
            · exact h₂.2.read r hr
      · exact ⟨h₁.1, Or.inr ⟨h₁.2.1, [], label, rest, rfl, h₁.2.2, List.not_mem_nil⟩⟩

/-- An index that threads may start from. -/
structure Clean (s : Index V) : Prop where
  wellFormed : s.WellFormed
  labelled : s.Labelled
  unmarked : ∀ i, i < s.curElementCount → s.isMarkedDeleted i = false
  backed : ∀ i, i < s.curElementCount → ¬s.LacksLists i

theorem Clean.markedIds (h : Clean s) : s.markedIds = ∅ := by
  refine Finset.eq_empty_of_forall_notMem fun i hi => ?_
  obtain ⟨hlt, hm⟩ := Index.mem_markedIds.mp hi
  rw [h.unmarked i hlt] at hm
  cases hm

/-- The points that are added have new labels, no two the same. -/
structure OnlyNew (s : Index V) (reqs : T → List (Request V)) : Prop where
  fresh : ∀ t, ∀ l ∈ addedLabels (reqs t), s.labelLookup l = none
  nodup : ∀ t, (addedLabels (reqs t)).Nodup
  disjoint : ∀ t u l, l ∈ addedLabels (reqs t) → l ∈ addedLabels (reqs u) → t = u

/-- A label may have the vector it had at first, or one that some request gives it. -/
def terms (s : Index V) (reqs : T → List (Request V)) : Terms V T where
  initial := s.labelLookup
  allowed label v := (∃ i, s.labelLookup label = some i ∧ s.getDataByInternalId i = v) ∨
    ∃ t c, .add c v label ∈ reqs t
  newOnly := OnlyNew s reqs
  reservedFor label t := label ∈ addedLabels (reqs t)
  unique h label t u ht hu := h.disjoint t u label ht hu

variable {reqs : T → List (Request V)}

private theorem inv_start (h : Clean s) :
    Inv (terms s reqs) ((⟨s, fun _ => none⟩, fun _ => .outside) : World V T) := by
  have hw := h.wellFormed
  have hfound : ∀ q, ¬ Doing q fun _ : T => Stage.outside := by
    rintro q ⟨t, l, i, ht⟩
    cases ht
  have hsettled : ∀ i, Settled (fun _ : T => Stage.outside) i := fun i t l b p ht => by cases ht
  have hnamed : ∀ i l, Named (fun _ : T => Stage.outside) s i l ↔ s.getExternalLabel i = l :=
    fun i l => ⟨fun hn => hn.elim (fun ⟨_, _, _, ht⟩ => by cases ht) And.right,
      fun he => Or.inr ⟨hsettled i, he⟩⟩
  have hlookup : ∀ label i, s.labelLookup label = some i ↔
      i < s.curElementCount ∧ s.getExternalLabel i = label := fun label i =>
    ⟨fun hl => ⟨hw.lookup label i hl, h.labelled.label label i hl⟩,
      fun ⟨hlt, he⟩ => he ▸ h.labelled.lookup i hlt⟩
  refine ⟨fun k t => ⟨fun hf => (Option.some_ne_none t hf.symm).elim, False.elim⟩,
    ⟨fun ht => Stage.noConfusion ht, fun ht => Stage.noConfusion ht⟩,
    ⟨hw.params, hw.cap, fun i l ha _ => ?_, fun i hi _ => h.unmarked i hi,
      fun i hi _ => h.backed i hi, ?_, ?_⟩,
    ⟨fun label i => ?_, fun label i hi _ hn => ?_, fun label i hl => ⟨_, Or.inl ⟨i, hl, rfl⟩⟩,
      fun _ _ hl => hl⟩,
    ⟨fun hn => (hw.entry.none hn).2, fun hf i hi => ?_, fun ep hep _ => ?_,
      fun ep hep _ _ => hw.entry.level ep hep, fun i hi _ => hw.entry.le i hi⟩⟩
  · have hfit := hw.graph i l ha
    exact ⟨hfit.length_le, fun _ => hfit.nodup, fun j hj => ⟨(hfit.valid j hj).1, (hfit.valid j hj).2,
      (hsettled j).settled⟩⟩
  · rw [hw.numDeleted, h.markedIds, Finset.card_empty]
  · rw [hw.deleted, h.markedIds, ite_self]
  · rw [hnamed]
    exact hlookup label i
  · exact Or.inl ⟨i, (hlookup label i).mpr ⟨hi, (hnamed i label).mp hn⟩, rfl⟩
  · rcases hf with hf | hf
    · rw [(hw.entry.none hf).1] at hi
      exact absurd hi (Nat.not_lt_zero i)
    · exact absurd hf (hfound _)
  · have hlevel := hw.entry.level ep hep
    exact ⟨hw.entry.lt ep hep, (hsettled ep).settled, hlevel ▸ Int.natCast_nonneg _, hlevel.ge⟩

section Vectors

variable [Fintype T]

open Classical in
/-- The vectors of the index and of all requests. -/
noncomputable def vectors (s : Index V) (reqs : T → List (Request V)) : Finset V :=
  (Finset.range s.curElementCount).image s.getDataByInternalId ∪
    Finset.univ.biUnion fun t => ((reqs t).filterMap fun r => match r with
      | .add _ x _ => some x
      | .get _ => none).toFinset

def load (reqs : T → List (Request V)) : Nat := ∑ t, (reqs t).length

private theorem card_vectors_le (s : Index V) (reqs : T → List (Request V)) :
    (vectors s reqs).card ≤ s.curElementCount + load reqs := by
  classical
  refine (Finset.card_union_le _ _).trans (Nat.add_le_add ?_ ?_)
  · exact Finset.card_image_le.trans (Finset.card_range _).le
  · refine Finset.card_biUnion_le.trans (Finset.sum_le_sum fun t _ => ?_)
    exact (List.toFinset_card_le _).trans (List.length_filterMap_le _ _)

private theorem mem_vectors (h : Clean s) {label : LabelType} {v : V} (hv : (terms s reqs).allowed label v) :
    v ∈ vectors s reqs := by
  classical
  rcases hv with ⟨i, hi, rfl⟩ | ⟨t, c, hm⟩
  · refine Finset.mem_union_left _ (Finset.mem_image_of_mem _ (Finset.mem_range.mpr ?_))
    exact h.wellFormed.lookup label i hi
  · refine Finset.mem_union_right _ (Finset.mem_biUnion.mpr ⟨t, Finset.mem_univ t, ?_⟩)
    exact List.mem_toFinset.mpr (List.mem_filterMap.mpr ⟨_, hm, rfl⟩)

end Vectors

/-- What holds when thread `t` is done. -/
def Done (s : Index V) (reqs : T → List (Request V)) (t : T)
    (r : Except Failure (List (LabelType × V))) (w : World V T) : Prop :=
  ends (fun out (w : World V T) => w.2 t = .outside ∧
      Served (terms s reqs) (reqs t) out s w.1.index)
    (fun e (w : World V T) => w.2 t = .outside ∧
      Failed (terms s reqs) t (reqs t) e s w.1.index) r w

theorem Done.outside {r : Except Failure (List (LabelType × V))} (h : Done s reqs t r w) :
    w.2 t = .outside := by
  cases r with
  | ok out => exact h.1
  | error e => exact h.1

/-- Allocations succeed, and the loops are given enough rounds. -/
structure Provided [Fintype T] (s : Index V) (reqs : T → List (Request V)) (fuel : Nat) : Prop where
  clean : Clean s
  malloc : ∀ t c x l, .add c x l ∈ reqs t → c.malloc = true
  rounds : s.maxElements ≤ fuel
  vectors : s.curElementCount + load reqs < fuel

theorem follows_threads [Fintype T] (h : Provided s reqs fuel) :
    (protocol (terms s reqs)).Follows (Done s reqs) (threads P fuel s reqs) := by
  refine ⟨fun _ => .outside, inv_start h.clean, fun t => ?_⟩
  refine does_serve (w := (⟨s, fun _ => none⟩, fun _ => .outside))
    (fun _ _ hv => mem_vectors h.clean hv) ((card_vectors_le s reqs).trans_lt h.vectors)
    (reqs t) rfl (fun c x l hm => ⟨Or.inr ⟨t, c, hm⟩, h.malloc t c x l hm⟩) h.rounds fun hn => ?_
  exact ⟨hn.nodup t, fun l hl => ⟨hl, hn.fresh t l hl⟩⟩

/-- Two threads that each add two points and read one of them back. -/
def twoClients (t : Fin 2) : List (Request (ℤ × ℤ × ℤ)) :=
  [.add (Index.plainChoices t) (t.val, 0, 0) t.val, .add (Index.plainChoices 0) (0, t.val, 1) (t.val + 2),
    .get t.val]

/-- The same threads without the reads. -/
def twoWriters (t : Fin 2) : List (Request (ℤ × ℤ × ℤ)) :=
  [.add (Index.plainChoices t) (t.val, 0, 0) t.val, .add (Index.plainChoices 0) (0, t.val, 1) (t.val + 2)]

/-- Four linked elements on three levels, none of them under a label of the two threads. -/
structure LinkedPoints (s : Index (ℤ × ℤ × ℤ)) : Prop where
  clean : Clean s
  count : s.curElementCount = 4
  capacity : s.maxElements = 10
  links : s.connections 0 1 = [2, 3]
  fresh : ∀ l, l < 4 → s.labelLookup l = none

theorem exists_linkedPoints : ∃ s, LinkedPoints s := by
  have hall : ∀ t : Index (ℤ × ℤ × ℤ), ∀ p ∈ Index.sampleCalls.take 5,
      Index.FreshReplacement t p.1 p.2 := by
    simp [Index.sampleCalls, Index.FreshReplacement]
  obtain ⟨s, hreach, hcount, hmax, hlinks, hfresh, hunmarked⟩ :=
    (Index.emptyPoints_reachable Index.FreshReplacement false).exists_run (fun p hp t =>
      ⟨hall t p hp, Index.sampleCalls_granted p (List.mem_of_mem_take hp) t⟩)
    (fun s => s.curElementCount = 4 ∧ s.maxElements = 10 ∧ s.connections 0 1 = [2, 3] ∧
      (∀ l : Nat, l < 4 → s.labelLookup l = none) ∧
      ∀ i : Nat, i < s.curElementCount → s.isMarkedDeleted i = false) (by decide +kernel)
  have hreach : Index.Reachable Index.pointPlatform Index.FreshReplacement s := hreach
  exact ⟨s, ⟨hreach.wellFormed, hreach.labelled, hunmarked, hreach.backed.lists⟩, hcount, hmax, hlinks,
    hfresh⟩

private theorem LinkedPoints.provided {s : Index (ℤ × ℤ × ℤ)} (h : LinkedPoints s)
    {reqs : Fin 2 → List (Request (ℤ × ℤ × ℤ))} (hload : load reqs < 16)
    (hmalloc : ∀ t c x l, .add c x l ∈ reqs t → c.malloc = true) : Provided s reqs 20 := by
  have hcount := h.count
  refine ⟨h.clean, hmalloc, ?_, by omega⟩
  rw [h.capacity]
  decide

private theorem LinkedPoints.twoClients {s : Index (ℤ × ℤ × ℤ)} (h : LinkedPoints s) :
    Provided s twoClients 20 := by
  refine h.provided (by decide) fun t c x l hm => ?_
  simp only [Concurrent.twoClients, List.mem_cons, Request.add.injEq, reduceCtorEq, List.not_mem_nil,
    or_false] at hm
  rcases hm with ⟨rfl, -⟩ | ⟨rfl, -⟩ <;> rfl

private theorem LinkedPoints.twoWriters {s : Index (ℤ × ℤ × ℤ)} (h : LinkedPoints s) :
    Provided s twoWriters 20 := by
  refine h.provided (by decide) fun t c x l hm => ?_
  simp only [Concurrent.twoWriters, List.mem_cons, Request.add.injEq, List.not_mem_nil, or_false] at hm
  rcases hm with ⟨rfl, -⟩ | ⟨rfl, -⟩ <;> rfl

/-- An index whose lists may repeat an entry but are sound otherwise. -/
structure Intact (s : Index V) : Prop where
  params : s.Params
  cap : s.curElementCount ≤ s.maxElements
  lists : ∀ i l, s.AtLevel l i → (s.connections i l).length ≤ s.maxLinks l ∧
    ∀ j ∈ s.connections i l, s.AtLevel l j ∧ j ≠ i
  entry : s.EntryInv
  lookup : ∀ label i, s.labelLookup label = some i → i < s.curElementCount
  labelled : s.Labelled
  unmarked : ∀ i, i < s.curElementCount → s.isMarkedDeleted i = false
  backed : ∀ i, i < s.curElementCount → ¬s.LacksLists i

section Quiet

variable {σ : Shared V T} {γ : T → Stage} (h : Inv A (σ, γ)) (hγ : ∀ t, γ t = .outside)
include h hγ

theorem Inv.held_of_outside (k : Lock) : σ.held k = none := by
  by_contra hheld
  obtain ⟨t, ht⟩ := Option.ne_none_iff_exists'.mp hheld
  have hholds := (h.locking k t).mp ht
  dsimp only at hholds
  rw [hγ t] at hholds
  exact hholds

private theorem Inv.intact : Intact σ.index := by
  have hsettled : ∀ i, Settled γ i := fun i t l b p ht => by
    rw [hγ t] at ht
    cases ht
  have hdoing : ∀ q, ¬ Doing q γ := by
    rintro q ⟨t, l, i, ht⟩
    rw [hγ t] at ht
    cases ht
  have hnamed : ∀ label i, σ.index.labelLookup label = some i ↔
      i < σ.index.curElementCount ∧ σ.index.getExternalLabel i = label := fun label i => by
    refine (h.naming.lookup label i).trans (and_congr_right fun _ => ⟨fun hn => ?_, fun he =>
      Or.inr ⟨hsettled i, he⟩⟩)
    rcases hn with ⟨t, b, p, ht⟩ | ⟨-, he⟩
    · exact (hsettled i t label b p ht).elim
    · exact he
  refine ⟨h.linking.params, h.linking.cap, fun i l ha => ?_, ⟨fun hn => ?_, fun ep hep => ?_,
    fun ep hep => ?_, fun i hi => ?_⟩, fun label i hl => ((hnamed label i).mp hl).1,
    ⟨fun label i hl => ((hnamed label i).mp hl).2, fun i hi => (hnamed _ i).mpr ⟨hi, rfl⟩⟩,
    fun i hi => h.linking.unmarked i hi (hsettled i).settled,
    fun i hi => h.linking.backed i hi (hsettled i).settled⟩
  · have hfit := h.linking.lists i l ha (hsettled i).settled
    exact ⟨hfit.length_le, fun j hj => ⟨(hfit.valid j hj).1, (hfit.valid j hj).2.1⟩⟩
  · refine ⟨Nat.eq_zero_of_not_pos fun hpos => ?_, h.ruling.absent hn⟩
    obtain ⟨t, l, b, p, ht, -⟩ := h.ruling.early (Or.inl hn) 0 hpos
    exact hsettled 0 t l b p ht
  · exact (h.ruling.entry ep hep (hdoing _)).1
  · exact h.ruling.exact ep hep (hdoing _) (hdoing _)
  · exact h.ruling.le i hi (hsettled i).settled

private theorem Inv.vector_allowed {label : LabelType} {i : TableInt}
    (hl : σ.index.labelLookup label = some i) : A.allowed label (σ.index.getDataByInternalId i) := by
  have hs : Settled γ i := fun t l b q ht => by
    rw [hγ t] at ht
    cases ht
  have hintact := h.intact hγ
  exact h.naming.vectors label i (hintact.lookup label i hl) hs.settled
    (Or.inr ⟨hs, hintact.labelled.label label i hl⟩)

theorem Inv.wellFormed (hnew : A.newOnly) : σ.index.WellFormed := by
  have hi := h.intact hγ
  have hmarked : σ.index.markedIds = ∅ := Finset.eq_empty_of_forall_notMem fun i hm => by
    obtain ⟨hlt, hmark⟩ := Index.mem_markedIds.mp hm
    rw [hi.unmarked i hlt] at hmark
    cases hmark
  refine ⟨hi.params, hi.cap, fun i l ha => ⟨(hi.lists i l ha).1, ?_, (hi.lists i l ha).2⟩, hi.entry,
    hi.lookup, ?_, ?_⟩
  · refine (h.linking.lists i l ha fun t l b p ht => ?_).nodup hnew
    dsimp only at ht
    rw [hγ t] at ht
    cases ht
  · rw [hmarked, Finset.card_empty]
    exact h.linking.numDeleted
  · rw [hmarked, ite_self]
    exact h.linking.deletedElements

end Quiet

section Results

variable [Fintype T] {p : Pool T (Shared V T) (Except Failure (List (LabelType × V)))}

private theorem Failed.ne_unfinished {reqs : List (Request V)} {e : Failure}
    (h : Failed A t reqs e s s') : e ≠ .unfinished := by
  rcases h with ⟨rfl, -⟩ | ⟨rfl, -⟩ <;> exact Failure.noConfusion

/-- No schedule gets stuck before all threads are done, none goes on forever, and no thread is done
because a loop has used up its rounds. -/
theorem threads_finish (h : Provided s reqs fuel) :
    (∀ p, Pool.Runs (threads P fuel s reqs) p → (p.Finished ∨ ∃ p', Pool.Step p p') ∧
      ∀ t, p.thread t ≠ .done (.error .unfinished)) ∧
    ¬ ∃ run : ℕ → Pool T (Shared V T) (Except Failure (List (LabelType × V))),
      run 0 = threads P fuel s reqs ∧ ∀ n, Pool.Step (run n) (run (n + 1)) := by
  refine ⟨fun p hp => ⟨((follows_threads h).runs hp).progress fun t r σ g hd hbusy => ?_,
    fun t ht => ?_⟩, ?_⟩
  · exact hbusy hd.outside
  · obtain ⟨γ, -, hpost⟩ := ((follows_threads h).runs hp).post
    exact (hpost t _ ht).2.ne_unfinished rfl
  · rintro ⟨run, -, hstep⟩
    exact (wellFounded_iff_isEmpty_descending_chain.mp Pool.wellFounded_step).elim ⟨run, hstep⟩

theorem threads_finish_twoClients : ∃ s, LinkedPoints s ∧ Provided s twoClients 20 ∧
    (∀ p, Pool.Runs (threads Index.pointPlatform 20 s twoClients) p →
      (p.Finished ∨ ∃ p', Pool.Step p p') ∧ ∀ t, p.thread t ≠ .done (.error .unfinished)) := by
  obtain ⟨s, hs⟩ := exists_linkedPoints
  exact ⟨s, hs, hs.twoClients, (threads_finish hs.twoClients).1⟩

private theorem exists_finished_threads (h : Provided s reqs fuel) :
    ∃ p, Pool.Runs (threads P fuel s reqs) p ∧ p.Finished := by
  obtain ⟨p, hrun, hdone, -⟩ := (follows_threads (P := P) h).exists_finished
    fun _ _ _ _ hd hbusy => hbusy hd.outside
  exact ⟨p, hrun, hdone⟩

/-- Whatever the others do, a thread ends with its points in the index and an answer to every read,
or because the index is full, or because it reads a label that was unknown at first and that it has
not added before. A vector that it reads was given for the label it asks for. -/
theorem threads_results (h : Provided s reqs fuel) (hrun : Pool.Runs (threads P fuel s reqs) p)
    {t : T} {r : Except Failure (List (LabelType × V))} (hr : p.thread t = .done r) :
    (∀ out, r = .ok out →
      (∀ l ∈ addedLabels (reqs t), ∃ i, p.shared.index.labelLookup l = some i) ∧
      out.map Prod.fst = readLabels (reqs t) ∧
      ∀ a ∈ out, (∃ i, s.labelLookup a.1 = some i ∧ s.getDataByInternalId i = a.2) ∨
        ∃ u c, .add c a.2 a.1 ∈ reqs u) ∧
    ∀ e, r = .error e →
      (e = .thrown .capacityExceeded ∧ s.maxElements ≤ p.shared.index.curElementCount) ∨
      (e = .thrown .labelNotFound ∧ Misses s (reqs t)) := by
  obtain ⟨γ, -, hpost⟩ := ((follows_threads h).runs hrun).post
  have hd := hpost t r hr
  refine ⟨?_, ?_⟩
  · rintro out rfl
    exact ⟨hd.2.added, hd.2.answers, hd.2.read⟩
  · rintro e rfl
    rcases hd.2 with ⟨he, hset, hfull, -⟩ | hmissing
    · exact Or.inl ⟨he, (maxElements_of_settings hset).ge.trans hfull⟩
    · exact Or.inr hmissing

theorem threads_results_twoClients :
    ∃ s p r, LinkedPoints s ∧ Pool.Runs (threads Index.pointPlatform 20 s twoClients) p ∧
      p.thread 0 = .done r ∧
      (r = .ok [(0, (0, 0, 0))] ∧ (∃ i j, p.shared.index.labelLookup 0 = some i ∧
          p.shared.index.labelLookup 2 = some j) ∨
        r = .error (.thrown .capacityExceeded)) := by
  obtain ⟨s, hs⟩ := exists_linkedPoints
  obtain ⟨p, hrun, hdone⟩ := exists_finished_threads (P := Index.pointPlatform) hs.twoClients
  obtain ⟨r, hr⟩ := hdone 0
  refine ⟨s, p, r, hs, hrun, hr, ?_⟩
  obtain ⟨hok, herror⟩ := threads_results hs.twoClients hrun hr
  cases r with
  | ok out =>
    obtain ⟨hadded, hlabels, hread⟩ := hok out rfl
    obtain ⟨i, hi⟩ := hadded 0 (by decide)
    obtain ⟨j, hj⟩ := hadded 2 (by decide)
    refine Or.inl ⟨congrArg _ ?_, i, j, hi, hj⟩
    obtain ⟨a, rfl, hlabel⟩ := List.map_eq_singleton_iff.mp
      (hlabels.trans (show readLabels (twoClients 0) = [0] by rfl))
    rcases hread a List.mem_cons_self with ⟨i, hold, -⟩ | ⟨u, c, hm⟩
    · rw [hlabel, hs.fresh 0 (by decide)] at hold
      cases hold
    · rw [hlabel] at hm
      have hvector : a.2 = (0, 0, 0) := by
        fin_cases u <;> simp_all [twoClients]
      rw [← hlabel, ← hvector]
  | error e =>
    right
    rcases herror e rfl with ⟨rfl, -⟩ | ⟨-, before, l, after, hreqs, -, hnew⟩
    · rfl
    · -- the only read comes after the addition of its label
      exfalso
      rcases before with _ | ⟨r, _ | ⟨r', _ | ⟨r'', before⟩⟩⟩ <;>
        simp only [twoClients, List.nil_append, List.cons_append, List.cons.injEq, reduceCtorEq,
          false_and, and_false] at hreqs
      · obtain ⟨rfl, rfl, hread, -⟩ := hreqs
        cases hread
        exact hnew List.mem_cons_self
      · exact absurd hreqs.2.2.2 (List.append_ne_nil_of_right_ne_nil _ (List.cons_ne_nil _ _)).symm

theorem finished_inv (h : Provided s reqs fuel) (hrun : Pool.Runs (threads P fuel s reqs) p)
    (hdone : p.Finished) : ∃ γ, Inv (terms s reqs) (p.shared, γ) ∧ (∀ t, γ t = .outside) ∧
      ∀ t r, p.thread t = .done r → Done s reqs t r (p.shared, γ) := by
  obtain ⟨γ, hinv, hpost⟩ := ((follows_threads h).runs hrun).post
  refine ⟨γ, hinv, fun t => ?_, hpost⟩
  obtain ⟨r, hr⟩ := hdone t
  exact (hpost t r hr).outside

/-- When all threads are done, no lock is held, the index is sound but for repeated links, no label
is lost, and every label has a vector that was given for it. -/
theorem threads_intact (h : Provided s reqs fuel) (hrun : Pool.Runs (threads P fuel s reqs) p)
    (hdone : p.Finished) :
    (∀ k, p.shared.held k = none) ∧ Intact p.shared.index ∧
    (∀ label i, s.labelLookup label = some i → p.shared.index.labelLookup label = some i) ∧
    ∀ label i, p.shared.index.labelLookup label = some i →
      (∃ j, s.labelLookup label = some j ∧
        s.getDataByInternalId j = p.shared.index.getDataByInternalId i) ∨
      ∃ t c, .add c (p.shared.index.getDataByInternalId i) label ∈ reqs t := by
  obtain ⟨γ, hinv, hγ, -⟩ := finished_inv h hrun hdone
  exact ⟨hinv.held_of_outside hγ, hinv.intact hγ, hinv.naming.kept,
    fun label i hl => hinv.vector_allowed hγ hl⟩

theorem threads_intact_twoClients :
    ∃ s p, LinkedPoints s ∧ Pool.Runs (threads Index.pointPlatform 20 s twoClients) p ∧
      p.Finished ∧ Intact p.shared.index := by
  obtain ⟨s, hs⟩ := exists_linkedPoints
  obtain ⟨p, hrun, hdone⟩ := exists_finished_threads (P := Index.pointPlatform) hs.twoClients
  exact ⟨s, p, hs, hrun, hdone, (threads_intact hs.twoClients hrun hdone).2.1⟩

theorem Inv.count_le {w : World V T} (h : Inv A w) {L : Finset LabelType}
    (hL : ∀ l i, w.1.index.labelLookup l = some i → l ∈ L) : w.1.index.curElementCount ≤ L.card := by
  have hsurj : Set.SurjOn (fun l => (w.1.index.labelLookup l).getD 0) L
      (Finset.range w.1.index.curElementCount) := by
    intro i hi
    obtain ⟨label, hn⟩ := exists_named w.2 w.1.index i
    have hl := (h.naming.lookup label i).mpr ⟨Finset.mem_range.mp hi, hn⟩
    exact ⟨label, hL label i hl, by simp only [hl, Option.getD_some]⟩
  have hcard := Finset.card_le_card_of_surjOn _ hsurj
  rwa [Finset.card_range] at hcard

def newLabels (reqs : T → List (Request V)) : Finset LabelType :=
  Finset.univ.biUnion fun t => (addedLabels (reqs t)).toFinset

private theorem mem_newLabels {l : LabelType} : l ∈ newLabels reqs ↔ ∃ t, l ∈ addedLabels (reqs t) := by
  simp [newLabels]

private theorem OnlyNew.card_newLabels (h : OnlyNew s reqs) :
    (newLabels reqs).card = ∑ t, (addedLabels (reqs t)).length := by
  rw [newLabels, Finset.card_biUnion]
  · exact Finset.sum_congr rfl fun t _ => List.toFinset_card_of_nodup (h.nodup t)
  · refine fun t _ u _ hne => Finset.disjoint_left.mpr fun l ht hu => ?_
    exact hne (h.disjoint t u l (List.mem_toFinset.mp ht) (List.mem_toFinset.mp hu))

def oldLabels (s : Index V) : Finset LabelType :=
  (Finset.range s.curElementCount).image s.getExternalLabel

private theorem Clean.mem_oldLabels (h : Clean s) {l : LabelType} :
    l ∈ oldLabels s ↔ ∃ i, s.labelLookup l = some i := by
  rw [oldLabels, Finset.mem_image]
  constructor
  · rintro ⟨i, hi, rfl⟩
    exact ⟨i, h.labelled.lookup i (Finset.mem_range.mp hi)⟩
  · rintro ⟨i, hi⟩
    exact ⟨i, Finset.mem_range.mpr (h.wellFormed.lookup l i hi), h.labelled.label l i hi⟩

private theorem Clean.card_oldLabels (h : Clean s) : (oldLabels s).card = s.curElementCount := by
  rw [oldLabels, Finset.card_image_of_injOn, Finset.card_range]
  intro i hi j hj he
  have hi' := h.labelled.lookup i (Finset.mem_range.mp hi)
  have hj' := h.labelled.lookup j (Finset.mem_range.mp hj)
  rw [he, hj'] at hi'
  exact (Option.some.inj hi').symm

private theorem OnlyNew.card_labels (h : OnlyNew s reqs) (hs : Clean s) :
    (oldLabels s ∪ newLabels reqs).card =
      s.curElementCount + ∑ t, (addedLabels (reqs t)).length := by
  rw [Finset.card_union_of_disjoint, hs.card_oldLabels, h.card_newLabels]
  rw [Finset.disjoint_left]
  intro l hold hnew
  obtain ⟨i, hi⟩ := hs.mem_oldLabels.mp hold
  obtain ⟨t, ht⟩ := mem_newLabels.mp hnew
  rw [h.fresh t l ht] at hi
  cases hi

private theorem Inv.mem_labels (hs : Clean s) {w : World V T} (h : Inv (terms s reqs) w) {l : LabelType}
    {i : TableInt} (hl : w.1.index.labelLookup l = some i) : l ∈ oldLabels s ∪ newLabels reqs := by
  obtain ⟨v, ⟨j, hj, -⟩ | ⟨t, c, hm⟩⟩ := h.naming.declared l i hl
  · exact Finset.mem_union_left _ (hs.mem_oldLabels.mpr ⟨j, hj⟩)
  · exact Finset.mem_union_right _ (mem_newLabels.mpr ⟨t, mem_addedLabels.mpr ⟨c, v, hm⟩⟩)

private theorem OnlyNew.vector_unique (h : OnlyNew s reqs) {t u : T} {c c' : Choices} {x x' : V}
    {l : LabelType} (hx : .add c x l ∈ reqs t) (hx' : .add c' x' l ∈ reqs u) : x = x' := by
  obtain rfl := h.disjoint t u l (mem_addedLabels.mpr ⟨c, x, hx⟩) (mem_addedLabels.mpr ⟨c', x', hx'⟩)
  have hpair := List.pairwise_filterMap.mp (h.nodup t)
  have : Std.Symm fun a a' : Request V =>
      ∀ b, a.added = some b → ∀ b', a'.added = some b' → b ≠ b' :=
    ⟨fun _ _ hr b hb b' hb' => (hr b' hb' b hb).symm⟩
  by_contra hne
  refine hpair.forall hx hx' (fun he => hne ?_) l rfl l rfl rfl
  cases he
  rfl

theorem OnlyNew.full (h : OnlyNew s reqs) (hs : Clean s) (hadds : ∀ t l, .get l ∉ reqs t)
    {w : World V T} (hinv : Inv (terms s reqs) w) {t : T} {e : Failure}
    (hd : Done s reqs t (.error e) w) :
    e = .thrown .capacityExceeded ∧ w.1.index.curElementCount = s.maxElements ∧
      s.maxElements < s.curElementCount + ∑ t, (addedLabels (reqs t)).length := by
  rcases hd.2 with ⟨he, hset, hfull, hunknown⟩ | ⟨-, before, l, after, hreqs, -⟩
  · have hmax := maxElements_of_settings hset
    have hcap := hinv.linking.cap
    obtain ⟨l, hres, hnone⟩ := hunknown h
    have hmem : l ∈ oldLabels s ∪ newLabels reqs :=
      Finset.mem_union_right _ (mem_newLabels.mpr ⟨t, hres⟩)
    -- the label of the call is missing
    have hle : w.1.index.curElementCount ≤ ((oldLabels s ∪ newLabels reqs).erase l).card := by
      refine hinv.count_le fun l' i hl' => Finset.mem_erase.mpr ⟨?_, hinv.mem_labels hs hl'⟩
      rintro rfl
      rw [hnone] at hl'
      cases hl'
    have hpos := Finset.card_pos.mpr ⟨l, hmem⟩
    rw [Finset.card_erase_of_mem hmem] at hle
    rw [h.card_labels hs] at hle hpos
    exact ⟨he, by omega, by omega⟩
  · exact absurd (hreqs ▸ List.mem_append_right before List.mem_cons_self) (hadds t l)

private theorem OnlyNew.thread_ok (h : OnlyNew s reqs) (hs : Clean s) (hadds : ∀ t l, .get l ∉ reqs t)
    (hroom : s.curElementCount + ∑ t, (addedLabels (reqs t)).length ≤ s.maxElements)
    {w : World V T} (hinv : Inv (terms s reqs) w) {t : T}
    {r : Except Failure (List (LabelType × V))} (hd : Done s reqs t r w) : ∃ out, r = .ok out := by
  cases r with
  | ok out => exact ⟨out, rfl⟩
  | error e => exact absurd hroom (Nat.not_le.mpr (h.full hs hadds hinv hd).2.2)

section AtEnd

variable {σ : Shared V T} {γ : T → Stage} (hs : Clean s) (h : Inv (terms s reqs) (σ, γ))
  (hγ : ∀ t, γ t = .outside)
include hs h hγ

theorem Inv.count_eq (hnew : OnlyNew s reqs)
    (hadded : ∀ t, ∀ l ∈ addedLabels (reqs t), ∃ i, σ.index.labelLookup l = some i) :
    σ.index.curElementCount = s.curElementCount + ∑ t, (addedLabels (reqs t)).length := by
  have hintact := h.intact hγ
  have hknown : ∀ l ∈ oldLabels s ∪ newLabels reqs, ∃ i, σ.index.labelLookup l = some i := by
    intro l hl
    rcases Finset.mem_union.mp hl with hl | hl
    · obtain ⟨i, hi⟩ := hs.mem_oldLabels.mp hl
      exact ⟨i, h.naming.kept l i hi⟩
    · obtain ⟨t, ht⟩ := mem_newLabels.mp hl
      exact hadded t l ht
  rw [← hnew.card_labels hs]
  refine le_antisymm (h.count_le fun l i hl => h.mem_labels hs hl) ?_
  refine (Finset.card_le_card_of_injOn (fun l => (σ.index.labelLookup l).getD 0)
    (fun l hl => ?_) fun l hl l' hl' he => ?_).trans (Finset.card_range _).le
  · obtain ⟨i, hi⟩ := hknown l hl
    simp only [hi, Option.getD_some]
    exact Finset.mem_coe.mpr (Finset.mem_range.mpr (hintact.lookup l i hi))
  · obtain ⟨i, hi⟩ := hknown l hl
    obtain ⟨j, hj⟩ := hknown l' hl'
    simp only [hi, hj, Option.getD_some] at he
    exact hintact.labelled.injective hi (he ▸ hj)

private theorem Inv.view_of_lookup {l : LabelType} {i : TableInt} (hi : σ.index.labelLookup l = some i) :
    σ.index.view.entries l = some (σ.index.getDataByInternalId i, false) := by
  have hintact := h.intact hγ
  simp only [Index.view, hi, Option.map_some, hintact.unmarked i (hintact.lookup l i hi)]

theorem Inv.view_added (hnew : OnlyNew s reqs) {t : T} {c : Choices} {x : V} {l : LabelType}
    {i : TableInt} (hm : .add c x l ∈ reqs t) (hi : σ.index.labelLookup l = some i) :
    σ.index.view.entries l = some (x, false) := by
  have hvec : σ.index.getDataByInternalId i = x := by
    rcases h.vector_allowed hγ hi with ⟨j, hj, -⟩ | ⟨u, c', hm'⟩
    · rw [hnew.fresh t l (mem_addedLabels.mpr ⟨c, x, hm⟩)] at hj
      cases hj
    · exact hnew.vector_unique hm' hm
  rw [h.view_of_lookup hs hγ hi, hvec]

theorem Inv.view_kept {l : LabelType} (hl : ∀ t, l ∉ addedLabels (reqs t)) :
    σ.index.view.entries l = s.view.entries l := by
  cases hold : s.labelLookup l with
  | none =>
    have hnone : σ.index.labelLookup l = none := by
      by_contra hsome
      obtain ⟨i, hi⟩ := Option.ne_none_iff_exists'.mp hsome
      rcases Finset.mem_union.mp (h.mem_labels hs hi) with hm | hm
      · obtain ⟨j, hj⟩ := hs.mem_oldLabels.mp hm
        cases hold.symm.trans hj
      · obtain ⟨t, ht⟩ := mem_newLabels.mp hm
        exact hl t ht
    simp only [Index.view, hold, hnone, Option.map_none]
  | some i =>
    have hi : σ.index.labelLookup l = some i := h.naming.kept l i hold
    have hvec : σ.index.getDataByInternalId i = s.getDataByInternalId i := by
      rcases h.vector_allowed hγ hi with ⟨j, hj, he⟩ | ⟨u, c, hm⟩
      · cases hold.symm.trans hj
        exact he.symm
      · exact absurd (mem_addedLabels.mpr ⟨c, _, hm⟩) (hl u)
    rw [h.view_of_lookup hs hγ hi, hvec]
    simp only [Index.view, hold, Option.map_some, hs.unmarked i (hs.wellFormed.lookup l i hold)]

end AtEnd

theorem Inv.clean {σ : Shared V T} {γ : T → Stage} (h : Inv (terms s reqs) (σ, γ))
    (hγ : ∀ t, γ t = .outside) (hnew : OnlyNew s reqs) : Clean σ.index :=
  ⟨h.wellFormed hγ hnew, (h.intact hγ).labelled, (h.intact hγ).unmarked, (h.intact hγ).backed⟩

/-- Points with new labels, added by any number of threads in any order of their steps, all arrive:
if there is room for them, no call fails, and the index is well-formed, with exactly one more element
for each, and holds each vector under its label and what it held before. -/
theorem insertions_arrive (h : Provided s reqs fuel) (hnew : OnlyNew s reqs)
    (hadds : ∀ t l, .get l ∉ reqs t)
    (hroom : s.curElementCount + ∑ t, (addedLabels (reqs t)).length ≤ s.maxElements)
    (hrun : Pool.Runs (threads P fuel s reqs) p) (hdone : p.Finished) :
    (∀ t, ∃ out, p.thread t = .done (.ok out)) ∧ p.shared.index.WellFormed ∧
    p.shared.index.Labelled ∧
    p.shared.index.curElementCount = s.curElementCount + ∑ t, (addedLabels (reqs t)).length ∧
    (∀ t c x l, .add c x l ∈ reqs t → p.shared.index.view.entries l = some (x, false)) ∧
    ∀ l, (∀ t, l ∉ addedLabels (reqs t)) →
      p.shared.index.view.entries l = s.view.entries l := by
  obtain ⟨γ, hinv, hγ, hpost⟩ := finished_inv h hrun hdone
  have hok : ∀ t, ∃ out, p.thread t = .done (.ok out) := fun t => by
    obtain ⟨r, hr⟩ := hdone t
    obtain ⟨out, rfl⟩ := hnew.thread_ok h.clean hadds hroom hinv (hpost t r hr)
    exact ⟨out, hr⟩
  have hadded : ∀ t, ∀ l ∈ addedLabels (reqs t), ∃ i, p.shared.index.labelLookup l = some i :=
    fun t => by
      obtain ⟨out, ht⟩ := hok t
      exact (hpost t _ ht).2.added
  have hclean := hinv.clean hγ hnew
  refine ⟨hok, hclean.wellFormed, hclean.labelled, hinv.count_eq h.clean hγ hnew hadded,
    fun t c x l hm => ?_, fun l hl => hinv.view_kept h.clean hγ hl⟩
  obtain ⟨i, hi⟩ := hadded t l (mem_addedLabels.mpr ⟨c, x, hm⟩)
  exact hinv.view_added h.clean hγ hnew hm hi

theorem insertions_arrive_twoWriters :
    ∃ s p, LinkedPoints s ∧ Pool.Runs (threads Index.pointPlatform 20 s twoWriters) p ∧
      p.shared.index.WellFormed ∧ p.shared.index.curElementCount = 8 ∧
      p.shared.index.view.entries 3 = some ((0, 1, 1), false) := by
  obtain ⟨s, hs⟩ := exists_linkedPoints
  obtain ⟨p, hrun, hdone⟩ := exists_finished_threads (P := Index.pointPlatform) hs.twoWriters
  have hnew : OnlyNew s twoWriters := by
    have hmem : ∀ (t : Fin 2) (l : ℕ), l ∈ addedLabels (twoWriters t) → l < 4 ∧ l % 2 = t.val := by
      intro t l hl
      simp only [addedLabels, twoWriters, List.filterMap_cons, Request.added, List.filterMap_nil,
        List.mem_cons, List.not_mem_nil, or_false] at hl
      omega
    refine ⟨fun t l hl => hs.fresh l (hmem t l hl).1, by decide, fun t u l ht hu => Fin.ext ?_⟩
    rw [← (hmem t l ht).2, (hmem u l hu).2]
  have hadded : ∑ t, (addedLabels (twoWriters t)).length = 4 := by decide
  obtain ⟨-, hw, -, hcount, hview, -⟩ := insertions_arrive hs.twoWriters hnew
    (fun t l hm => by simp [twoWriters] at hm) (by rw [hs.count, hs.capacity, hadded]; decide)
    hrun hdone
  rw [hs.count, hadded] at hcount
  refine ⟨s, p, hs, hrun, hw, hcount, hview 1 (Index.plainChoices 0) (0, 1, 1) 3 ?_⟩
  simp [twoWriters]

end Results

end HnswRvv.Concurrent
