import HnswRvv.Concurrent.Searching

/-!
# Linking while others insert

An insertion writes its own list at a level and then the lists of the neighbours it has chosen, one
at a time. The neighbours are settled, so it never waits for them. `Ahead` is what a thread can
still count on after steps of its own.
-/

namespace HnswRvv.Concurrent

open Framework OrderDual Protocol
set_option linter.unusedSectionVars false

variable {V D T α β : Type} [Inhabited V] [LinearOrder D] [DecidableEq T] {A : Terms V T}
  {P : Platform V D} {t : T} {w w' w'' : World V T} {σ : Shared V T} {γ : T → Stage} {s s' : Index V}
  {label : LabelType} {e i o curC : TableInt} {top : Bool} {p p' : Progress} {l : Nat}

/-- What lasts for `t` while it links: others move, and `t` writes lists. -/
structure Ahead (A : Terms V T) (t : T) (w w' : World V T) : Prop where
  free : (w.2 t).Free → w'.2 t = w.2 t
  mine : ∀ label i top p, w.2 t = .inserting label i top p →
    ∃ p', w'.2 t = .inserting label i top p' ∧ p.Before p' ∧
      w'.1.index.level i = w.1.index.level i ∧
      (p.Filled → w'.1.index.getExternalLabel i = w.1.index.getExternalLabel i)
  settings : settings w'.1.index = settings w.1.index
  count_le : w.1.index.curElementCount ≤ w'.1.index.curElementCount
  advance : ∀ u label i top p, i < w.1.index.curElementCount →
    w'.2 u = .inserting label i top p →
    ∃ top₀ p₀, w.2 u = .inserting label i top₀ p₀ ∧ p₀.Before p
  level : ∀ i, i < w.1.index.curElementCount → Filled w.2 i →
    w'.1.index.level i = w.1.index.level i
  maxlevel_le : w.1.index.maxlevel ≤ w'.1.index.maxlevel
  top : ∀ label i p, w.2 t = .inserting label i true p →
    w'.1.index.enterpointNode = w.1.index.enterpointNode ∧
      w'.1.index.maxlevel = w.1.index.maxlevel
  known : ∀ label i, w.1.index.labelLookup label = some i → w'.1.index.labelLookup label = some i
  reserved : A.newOnly → ∀ label, A.reservedFor label t →
    w'.1.index.labelLookup label = w.1.index.labelLookup label

namespace Ahead

theorem of_rely (h : Rely A t w w') : Ahead A t w w' where
  free _ := h.stage
  mine label i top p ht :=
    ⟨p, h.stage.trans ht, .refl p, (h.own label i top p ht).1,
      fun _ => (h.own label i top p ht).2.2.1⟩
  settings := h.settings
  count_le := h.count_le
  advance := h.advance
  level := h.level
  maxlevel_le := h.maxlevel_le
  top := h.top
  known := h.known
  reserved := h.reserved

theorem refl (A : Terms V T) (t : T) (w : World V T) : Ahead A t w w := of_rely (.refl A t w)

theorem owners {Φ : Progress → Prop} (h : Ahead A t w w') (hi : i < w.1.index.curElementCount)
    (hΦ : ∀ p p', Progress.Before p p' → Φ p → Φ p') (ho : Owners w.2 Φ i) : Owners w'.2 Φ i := by
  intro u label top p hu
  obtain ⟨top₀, p₀, hu₀, hp⟩ := h.advance u label i top p hi hu
  exact hΦ p₀ p hp (ho u label top₀ p₀ hu₀)

theorem settled (h : Ahead A t w w') (hi : i < w.1.index.curElementCount) (hs : Settled w.2 i) :
    Settled w'.2 i := h.owners hi (fun _ _ _ => id) hs

theorem atLevel (h : Ahead A t w w') (hf : Filled w.2 i) (ha : w.1.index.AtLevel l i) :
    w'.1.index.AtLevel l i :=
  ⟨ha.1.trans_le h.count_le, by rw [h.level i ha.1 hf]; exact ha.2⟩

theorem restsAt (h : Ahead A t w w') (hr : RestsAt w l i) : RestsAt w' l i :=
  ⟨h.atLevel hr.stands.2.shown_filled hr.1, h.owners hr.1.1 (fun _ _ hb => hb.complete) hr.2⟩

theorem standsAt (h : Ahead A t w w') (hr : StandsAt w l i) : StandsAt w' l i :=
  ⟨h.atLevel hr.2.shown_filled hr.1, h.owners hr.1.1 (fun _ _ hb => hb.shows l) hr.2⟩

theorem trans (h : Ahead A t w w') (h' : Ahead A t w' w'') : Ahead A t w w'' where
  free hf := (h'.free (by rw [h.free hf]; exact hf)).trans (h.free hf)
  mine label i top p ht := by
    obtain ⟨p₁, h₁, hb₁, hl₁, hn₁⟩ := h.mine label i top p ht
    obtain ⟨p₂, h₂, hb₂, hl₂, hn₂⟩ := h'.mine label i top p₁ h₁
    exact ⟨p₂, h₂, hb₁.trans hb₂, hl₂.trans hl₁, fun hf => (hn₂ (hb₁.filled hf)).trans (hn₁ hf)⟩
  settings := h'.settings.trans h.settings
  count_le := h.count_le.trans h'.count_le
  advance u label i top p hi hu := by
    obtain ⟨top₁, p₁, hu₁, hp₁⟩ := h'.advance u label i top p (hi.trans_le h.count_le) hu
    obtain ⟨top₀, p₀, hu₀, hp₀⟩ := h.advance u label i top₁ p₁ hi hu₁
    exact ⟨top₀, p₀, hu₀, hp₀.trans hp₁⟩
  level i hi hf := (h'.level i (hi.trans_le h.count_le)
    (h.owners hi (fun _ _ hb => hb.filled) hf)).trans (h.level i hi hf)
  maxlevel_le := h.maxlevel_le.trans h'.maxlevel_le
  top label i p ht := by
    obtain ⟨p₁, h₁, -⟩ := h.mine label i true p ht
    exact ⟨(h'.top label i p₁ h₁).1.trans (h.top label i p ht).1,
      (h'.top label i p₁ h₁).2.trans (h.top label i p ht).2⟩
  known label i hi := h'.known label i (h.known label i hi)
  reserved hn label hr := (h'.reserved hn label hr).trans (h.reserved hn label hr)

/-- A step of `t` on the memory of an element that keeps its level, and its label once it has one. -/
theorem of_touches {st : Stage} (h : Touches σ.index s' e)
    (hcrown : s'.enterpointNode = σ.index.enterpointNode ∧ s'.maxlevel = σ.index.maxlevel)
    (hlevel : s'.level e = σ.index.level e)
    (hlabel : ∀ label top p, γ t = .inserting label e top p → p.Filled →
      s'.getExternalLabel e = σ.index.getExternalLabel e)
    (hst : (γ t).Free ∧ st = γ t ∨ ∃ label i top p p', γ t = .inserting label i top p ∧
      st = .inserting label i top p' ∧ p.Before p') :
    Ahead A t (σ, γ) ({ σ with index := s' }, Function.update γ t st) := by
  have hlevels : ∀ i, s'.level i = σ.index.level i := fun i => by
    by_cases hi : i = e
    · rw [hi, hlevel]
    · exact h.level i hi
  have hcont : Continues σ.index.curElementCount (γ t) st := by
    rcases hst with ⟨hf, rfl⟩ | ⟨label, i, top, p, p', ht, rfl, hp⟩
    · exact .of_free hf
    · rw [ht]
      exact .step hp
  refine ⟨fun hf => ?_, fun label i top p ht => ?_, h.settings, h.curElementCount.ge,
    fun u label i top p hi => hcont.advance u label i top p hi, fun i _ _ => hlevels i,
    hcrown.2.ge, fun _ _ _ _ => hcrown, fun l i hl => ?_, fun _ l _ => ?_⟩
  · rcases hst with ⟨-, rfl⟩ | ⟨label, i, top, p, p', ht, -, -⟩
    · exact Function.update_self _ _ _
    · exact absurd ht (hf label i top p)
  · rcases hst with ⟨hf, -⟩ | ⟨label', i', top', p₀, p', ht', rfl, hp⟩
    · exact absurd ht (hf label i top p)
    · cases ht'.symm.trans ht
      refine ⟨p', Function.update_self _ _ _, hp, hlevels i, fun hf => ?_⟩
      by_cases hi : i = e
      · subst hi
        exact hlabel label top p ht hf
      · exact h.label i hi
  · change s'.labelLookup l = _
    rw [h.labelLookup]
    exact hl
  · change s'.labelLookup l = σ.index.labelLookup l
    rw [h.labelLookup]

theorem of_settled (h : Touches σ.index s' e)
    (hcrown : s'.enterpointNode = σ.index.enterpointNode ∧ s'.maxlevel = σ.index.maxlevel)
    (hlevel : s'.level e = σ.index.level e)
    (hlabel : s'.getExternalLabel e = σ.index.getExternalLabel e) :
    Ahead A t (σ, γ) ({ σ with index := s' }, γ) := by
  have hsame : Ahead A t (σ, γ) ({ σ with index := s' }, Function.update γ t (γ t)) := by
    refine of_touches h hcrown hlevel (fun _ _ _ _ _ => hlabel) ?_
    cases ht : γ t with
    | outside => exact Or.inl ⟨Stage.free_outside, rfl⟩
    | called label => exact Or.inl ⟨Stage.free_called label, rfl⟩
    | inserting label i top p => exact Or.inr ⟨label, i, top, p, p, rfl, rfl, .refl p⟩
  rwa [Function.update_eq_self] at hsame

end Ahead

theorem touches_of_replaced {ll : LinkList} (h : Index.Replaced s s' o l ll) :
    Touches s s' o ∧ s'.enterpointNode = s.enterpointNode ∧ s'.maxlevel = s.maxlevel := by
  have hfields := h.records.fields
  have hlevels : s'.elementLevels = s.elementLevels := by rw [hfields]
  have hent : s'.enterpointNode = s.enterpointNode := by rw [hfields]
  have hmax : s'.maxlevel = s.maxlevel := by rw [hfields]
  refine ⟨⟨?_, fun i _ => h.records.level i, fun i _ => h.records.data i,
    fun i _ => h.records.label i, fun i l' hi => h.get_ne i l' (Or.inl hi), fun i _ => h.lists i⟩,
    hent, hmax⟩
  rw [hlevels, hent, hmax]
  exact hfields

theorem Inv.move_replaced {ll : LinkList} (h : Inv A (σ, γ)) (hrep : Index.Replaced σ.index s' o l ll)
    (hs : Settled γ o) (hfit : σ.index.AtLevel l o → ListFits A σ.index γ o l ll.connections)
    (hnew : A.newOnly → ∀ u, u ≠ t → ∀ label i top q, γ u = .inserting label i top q →
      i ∈ ll.connections → i ∈ σ.index.connections o l) :
    (protocol A).Move t (σ, γ) ({ σ with index := s' }, γ) := by
  obtain ⟨htouch, hcrown⟩ := touches_of_replaced hrep
  have hlevel := hrep.records.level o
  have hat : ∀ {l'}, s'.AtLevel l' o ↔ σ.index.AtLevel l' o := hrep.records.atLevel
  refine htouch.move_settled h hcrown hs hlevel (hrep.records.label o) (fun ho => ⟨fun l' ha => ?_,
    ⟨?_, hrep.lacksLists (h.linking.backed o ho hs.settled)⟩, fun label hn => ?_⟩) fun hn u hu label i b q he l' hi => ?_
  · refine htouch.listFits (fun _ => hlevel) (fun _ _ _ => id) ?_
    by_cases hl : l' = l
    · subst hl
      rw [hrep.connections_self]
      exact hfit (hat.mp ha)
    · rw [hrep.connections_ne (Or.inr hl)]
      exact h.linking.lists o l' (hat.mp ha) hs.settled
  · rw [hrep.records.mark]
    exact h.linking.unmarked o ho hs.settled
  · rw [hrep.records.data]
    exact h.naming.vectors label o ho hs.settled hn
  · by_cases hl : l' = l
    · subst hl
      rw [hrep.connections_self] at hi
      exact hnew hn u hu label i b q he hi
    · rwa [hrep.connections_ne (Or.inr hl)] at hi

private theorem mem_of_mem_newBackLinks {isUpdate : Bool} {j : TableInt}
    (h : j ∈ Index.newBackLinks P s curC l isUpdate o) : j = curC ∨ j ∈ s.connections o l := by
  unfold Index.newBackLinks at h
  split at h
  · exact Or.inr h
  · split at h
    · rcases List.mem_append.mp h with h | h
      · exact Or.inr h
      · exact Or.inl (List.mem_singleton.mp h)
    · have hmem : j ∈ Index.queueIds P (Index.backLinkCandidates P s curC o (s.connections o l)) := by
        rw [← Multiset.mem_coe, Index.coe_poppedIds] at h
        exact Multiset.mem_of_le (Multiset.map_le_map (Index.elems_heuristic_le P s _ _)) h
      rw [Index.queueIds_backLinkCandidates] at hmem
      exact List.mem_cons.mp hmem

theorem ListFits.newBackLinks {isUpdate : Bool} (h : ListFits A s γ o l (s.connections o l))
    (hcur : s.AtLevel l curC ∧ Shown γ l curC) (hne : o ≠ curC)
    (hnew : A.newOnly → curC ∉ s.connections o l) :
    ListFits A s γ o l (Index.newBackLinks P s curC l isUpdate o) := by
  refine ⟨?_, fun hn => ?_, fun j hj => ?_⟩
  · unfold Index.newBackLinks
    split
    · exact h.length_le
    · split
      · next hroom =>
        rw [List.length_append]
        exact hroom
      · rw [Index.length_poppedIds]
        exact Index.size_heuristic_le P s _ _
  · have hnodup : (curC :: s.connections o l).Nodup :=
      List.nodup_cons.mpr ⟨hnew hn, h.nodup hn⟩
    unfold Index.newBackLinks
    split
    · exact h.nodup hn
    · split
      · exact (List.perm_append_singleton curC (s.connections o l)).nodup_iff.mpr hnodup
      · rw [← Multiset.coe_nodup, Index.coe_poppedIds]
        refine Multiset.nodup_of_le (Multiset.map_le_map (Index.elems_heuristic_le P s _ _)) ?_
        change (Index.queueIds P _).Nodup
        rw [Index.queueIds_backLinkCandidates]
        exact Multiset.coe_nodup.mpr hnodup
  · rcases mem_of_mem_newBackLinks hj with rfl | hj
    · exact ⟨hcur.1, hne.symm, hcur.2⟩
    · exact h.valid j hj

/-- `curC` is linked by the thread that inserts it, or it is settled and updated. -/
def LinkedBy (A : Terms V T) (t : T) (isUpdate : Bool) (w : World V T) (curC : TableInt) : Prop :=
  (isUpdate = false ∧ ∃ label top p, w.2 t = .inserting label curC top p) ∨
    (isUpdate = true ∧ ¬ A.newOnly ∧ Settled w.2 curC)

theorem LinkedBy.rely {isUpdate : Bool} (h : LinkedBy A t isUpdate w curC)
    (hlt : curC < w.1.index.curElementCount) (hr : Rely A t w w') : LinkedBy A t isUpdate w' curC := by
  rcases h with ⟨hu, label, top, p, ht⟩ | ⟨hu, hn, hs⟩
  · exact Or.inl ⟨hu, label, top, p, hr.stage.trans ht⟩
  · exact Or.inr ⟨hu, hn, hr.settled hlt hs⟩

/-- Before the lists of `others` are written. -/
structure LinksBack (A : Terms V T) (t : T) (isUpdate : Bool) (curC : TableInt) (l : Nat)
    (others : List TableInt) (w : World V T) : Prop where
  linked : LinkedBy A t isUpdate w curC
  stands : StandsAt w l curC
  settled : ∀ o ∈ others, w.1.index.AtLevel l o ∧ Settled w.2 o ∧ o ≠ curC
  nodup : others.Nodup
  fresh : A.newOnly → ∀ o ∈ others, curC ∉ w.1.index.connections o l

theorem LinksBack.rely {isUpdate : Bool} {others : List TableInt}
    (h : LinksBack A t isUpdate curC l others w) (hr : Rely A t w w') :
    LinksBack A t isUpdate curC l others w' := by
  have hsettled : ∀ o ∈ others, w'.1.index.AtLevel l o ∧ Settled w'.2 o ∧ o ≠ curC := fun o ho =>
    ⟨hr.atLevel (h.settled o ho).2.1.settled (h.settled o ho).1,
      hr.settled (h.settled o ho).1.1 (h.settled o ho).2.1, (h.settled o ho).2.2⟩
  refine ⟨h.linked.rely h.stands.1.1 hr, h.stands.rely hr, hsettled, h.nodup, fun hn o ho hm => ?_⟩
  rcases h.linked with ⟨-, label, top, p, ht⟩ | ⟨-, hn', -⟩
  · exact h.fresh hn o ho (hr.ownLinks hn label curC top p ht o l (hsettled o ho).1
      (hsettled o ho).2.1.settled hm).2.2
  · exact hn' hn

/-- The lists of the element that `t` inserts are as they were. -/
def OwnListsKept (t : T) (w w' : World V T) : Prop :=
  w'.2 t = w.2 t ∧ ∀ label i top p, w.2 t = .inserting label i top p →
    ∀ l, w'.1.index.getLinklistAtLevel i l = w.1.index.getLinklistAtLevel i l

theorem OwnListsKept.of_rely (h : Rely A t w w') : OwnListsKept t w w' :=
  ⟨h.stage, fun label i top p ht => (h.own label i top p ht).2.2.2⟩

theorem OwnListsKept.trans (h : OwnListsKept t w w') (h' : OwnListsKept t w' w'') :
    OwnListsKept t w w'' :=
  ⟨h'.1.trans h.1, fun label i top p ht l =>
    (h'.2 label i top p (h.1.trans ht) l).trans (h.2 label i top p ht l)⟩

theorem LinksBack.tail {isUpdate : Bool} {others : List TableInt} {ll : LinkList}
    (h : LinksBack A t isUpdate curC l (o :: others) (σ, γ))
    (hrep : Index.Replaced σ.index s' o l ll) :
    LinksBack A t isUpdate curC l others ({ σ with index := s' }, γ) := by
  have hat : ∀ {i}, s'.AtLevel l i ↔ σ.index.AtLevel l i := hrep.records.atLevel
  have hnodup := List.nodup_cons.mp h.nodup
  refine ⟨h.linked, ⟨hat.mpr h.stands.1, h.stands.2⟩, fun i hi => ?_, hnodup.2, fun hn i hi => ?_⟩
  · obtain ⟨ha, hs, hne⟩ := h.settled i (List.mem_cons_of_mem o hi)
    exact ⟨hat.mpr ha, hs, hne⟩
  · have hne : i ≠ o := fun he => hnodup.1 (he ▸ hi)
    change curC ∉ s'.connections i l
    rw [hrep.connections_ne (Or.inl hne)]
    exact h.fresh hn i (List.mem_cons_of_mem o hi)

theorem LinksBack.move {isUpdate : Bool} {others : List TableInt} {ll : LinkList}
    (h : LinksBack A t isUpdate curC l (o :: others) (σ, γ)) (hi : Inv A (σ, γ))
    (hrep : Index.Replaced σ.index s' o l ll)
    (hll : ll.connections = Index.newBackLinks P σ.index curC l isUpdate o) :
    (protocol A).Move t (σ, γ) ({ σ with index := s' }, γ) := by
  obtain ⟨ho, hs, hne⟩ := h.settled o List.mem_cons_self
  refine hi.move_replaced hrep hs (fun _ => ?_) fun hn u hu label i b q he hm => ?_
  · rw [hll]
    exact (hi.linking.lists o l ho hs.settled).newBackLinks h.stands hne
      fun hn => h.fresh hn o List.mem_cons_self
  · rw [hll] at hm
    rcases mem_of_mem_newBackLinks hm with rfl | hm
    · -- nobody but `t` inserts the element that is linked
      rcases h.linked with ⟨-, l', b', q', ht⟩ | ⟨-, -, hsc⟩
      · exact absurd (hi.owning.inj he ht) hu
      · exact (hsc u label b q he).elim
    · exact hm

private theorem does_backLinks {isUpdate : Bool} {E : Failure → World V T → Prop} (others : List TableInt)
    (h : LinksBack A t isUpdate curC l others w) :
    Does A t (fun _ w' => Ahead A t w w' ∧ OwnListsKept t w w') E
      (forM others fun other => locking (.element other) (Index.setBackLink P curC l isUpdate other))
      w := by
  induction others generalizing w with
  | nil => exact satE_pure fun w' _ hr => ⟨.of_rely hr, .of_rely hr⟩
  | cons o others ih =>
    rw [List.forM_cons]
    refine does_locking (fun w₁ hi hr hheld => ?_) fun w₁ hi hr _ => ?_
    · have hs := ((h.rely hr).settled o List.mem_cons_self).2.1
      exact absurd (hi.locking.free_of_settled hs) hheld
    · have h₁ := h.rely hr
      obtain ⟨ho, hs, hne⟩ := h₁.settled o List.mem_cons_self
      have hlen := (hi.linking.lists o l ho hs.settled).length_le
      refine wp_mono (Index.wp_setBackLink (P := P) hi.linking.params hlen ho.2 hne)
        (fun _ s' hs' => ?_) fun _ _ he => he.elim
      obtain ⟨ll, hrep, hll⟩ := hs'
      obtain ⟨htouch, hcrown⟩ := touches_of_replaced hrep
      obtain ⟨σ, γ⟩ := w₁
      have hahead : Ahead A t (σ, γ) ({ σ with index := s' }, γ) :=
        .of_settled htouch hcrown (hrep.records.level o) (hrep.records.label o)
      have hkept : OwnListsKept t (σ, γ) ({ σ with index := s' }, γ) := by
        refine ⟨rfl, fun label i top p ht l' => htouch.list i l' ?_⟩
        rintro rfl
        exact hs t label top p ht
      refine ⟨γ, h₁.move hi hrep hll, satE_mono (ih (h₁.tail hrep)) (fun _ w' _ h' => ?_)
        fun _ _ _ he => he⟩
      exact ⟨(Ahead.of_rely hr).trans (hahead.trans h'.1),
        (OwnListsKept.of_rely hr).trans (hkept.trans h'.2)⟩

/-- The list of level `l` is still to be written. -/
def Progress.Awaits (l : Nat) : Progress → Prop
  | blank => True
  | linked l' => l < l'
  | _ => False

theorem Progress.Awaits.before (h : p.Awaits l) : p.Before (.linked l) := by
  cases p with
  | blank => exact ⟨fun _ hs => hs.elim, fun _ => trivial, fun hc => hc.elim, fun hf => by cases hf⟩
  | linked l' =>
    exact ⟨fun _ hs => (Nat.le_of_lt h).trans hs, fun _ => trivial, fun hc => hc.elim,
      fun hf => by cases hf⟩
  | _ => exact h.elim

theorem Progress.Awaits.filled (h : p.Awaits l) : p.Filled := by
  cases p <;> first | exact h.elim | trivial

private theorem Progress.Awaits.not_shows (h : p.Awaits l) : ¬ p.Shows l := by
  cases p with
  | blank => exact id
  | linked l' => exact Nat.not_le_of_lt h
  | _ => exact h.elim

theorem Progress.Awaits.rank_lt (h : p.Awaits l) : toLex (0, l) < p.rank := by
  cases p with
  | blank => exact Prod.Lex.toLex_lt_toLex.mpr (Or.inl Nat.zero_lt_one)
  | linked l' => exact Prod.Lex.toLex_lt_toLex.mpr (Or.inr ⟨rfl, h⟩)
  | _ => exact h.elim

/-- The neighbours chosen for `curC`. -/
structure Chosen (w : World V T) (l : Nat) (curC : TableInt) (ids : List TableInt) : Prop where
  length_le : ids.length ≤ w.1.index.maxLinks l
  nodup : ids.Nodup
  settled : ∀ o ∈ ids, w.1.index.AtLevel l o ∧ Settled w.2 o ∧ o ≠ curC

theorem Chosen.rely {ids : List TableInt} (h : Chosen w l curC ids) (hr : Rely A t w w') :
    Chosen w' l curC ids := by
  refine ⟨?_, h.nodup, fun o ho => ?_⟩
  · have hmax : w'.1.index.maxLinks l = w.1.index.maxLinks l := by
      have hs := hr.settings
      simp only [settings, Prod.mk.injEq] at hs
      unfold Index.maxLinks
      rw [hs.2.2.1, hs.2.2.2.1]
    rw [hmax]
    exact h.length_le
  · obtain ⟨ha, hs, hne⟩ := h.settled o ho
    exact ⟨hr.atLevel hs.settled ha, hr.settled ha.1 hs, hne⟩

theorem Chosen.listFits {ids : List TableInt} (h : Chosen (σ, γ) l curC ids) :
    ListFits A σ.index γ curC l ids :=
  ⟨h.length_le, fun _ => h.nodup, fun o ho =>
    ⟨(h.settled o ho).1, (h.settled o ho).2.2, (h.settled o ho).2.1.settled⟩⟩

theorem FoundAt.chosen {q : P.queues.far.Carrier} (h : FoundAt P w l q) (hp : w.1.index.Params)
    (hne : ∀ i ∈ Index.queueIds P q, i ≠ curC) :
    Chosen w l curC (Index.selectedNeighbors P w.1.index q) := by
  have hle : Index.queueIds P (w.1.index.getNeighborsByHeuristic2 P q w.1.index.M) ≤
      Index.queueIds P q := Multiset.map_le_map (Index.elems_heuristic_le P w.1.index q _)
  refine ⟨?_, ?_, fun o ho => ?_⟩
  · rw [Index.selectedNeighbors, Index.length_poppedIds]
    exact (Index.size_heuristic_le P w.1.index q _).trans (hp.M_le l)
  · rw [Index.selectedNeighbors, ← Multiset.coe_nodup, Index.coe_poppedIds]
    exact Multiset.nodup_of_le hle h.nodup
  · have hmem := Multiset.mem_of_le hle (Index.mem_selectedNeighbors.mp ho)
    exact ⟨(h.valid o hmem).1, (h.valid o hmem).2, hne o hmem⟩

theorem FoundAt.next {q : P.queues.far.Carrier} (h : FoundAt P w l q) (hp : w.1.index.Params) :
    ∃ next, (Index.selectedNeighbors P w.1.index q).getLast? = some next ∧
      next ∈ Index.selectedNeighbors P w.1.index q := by
  have hM : 0 < w.1.index.M := lt_of_lt_of_le Nat.zero_lt_two hp.two_le
  have hne : Index.selectedNeighbors P w.1.index q ≠ [] := by
    intro hnil
    have hlen := Index.length_poppedIds P (w.1.index.getNeighborsByHeuristic2 P q w.1.index.M)
    rw [show Index.poppedIds P _ = [] from hnil] at hlen
    exact Index.heuristic_ne_zero P w.1.index hM h.nonempty (Multiset.card_eq_zero.mp hlen.symm)
  exact ⟨_, List.getLast?_eq_some_getLast hne, List.getLast_mem hne⟩

theorem Chosen.move_own {ids : List TableInt} {ll : LinkList} (h : Chosen (σ, γ) l e ids)
    (hi : Inv A (σ, γ)) (ht : γ t = .inserting label e top p) (hp : p.Awaits l)
    (hrep : Index.Replaced σ.index s' e l ll) (hll : ll.connections = ids) :
    (protocol A).Move t (σ, γ)
      ({ σ with index := s' }, Function.update γ t (.inserting label e top (.linked l))) := by
  obtain ⟨htouch, hcrown⟩ := touches_of_replaced hrep
  have hlt := hi.owning.lt ht
  have hfilled : Filled γ e := fun u label' top' p' hu => by
    cases hi.owning.inj hu ht
    cases hu.symm.trans ht
    exact hp.filled
  have hshow : ∀ l' j, j < σ.index.curElementCount → Shown γ l' j →
      Shown (Function.update γ t (.inserting label e top (.linked l))) l' j :=
    fun l' _ _ hs => hs.advance ht (hp.before.shows l')
  refine htouch.move_own hi ht hcrown ⟨?_, fun hf => by cases hf⟩ hp.before (fun hf => by cases hf)
    (fun q hq => ⟨?_, ?_⟩) ?_ (fun _ => hrep.records.level e) (fun _ => ⟨fun l' ha => ?_,
      ⟨?_, hrep.lacksLists (hi.linking.backed e hlt hfilled)⟩, ?_⟩)
    fun _ hn u hu label' i b q he l' ha hm => ?_
  · rintro rfl
    exact hp
  · rintro rfl
    rcases hq with rfl | rfl <;> exact hp
  · rcases hq with rfl | rfl <;> exact fun hf => by cases hf
  · rintro (htop | rfl | rfl)
    · exact Or.inl htop
    · exact hp.elim
    · exact hp.elim
  · refine htouch.listFits (fun _ => hrep.records.level e) hshow ?_
    by_cases hl : l' = l
    · subst hl
      rw [hrep.connections_self, hll]
      exact h.listFits
    · rw [hrep.connections_ne (Or.inr hl)]
      exact hi.linking.lists e l' (hrep.records.atLevel.mp ha) hfilled
  · rw [hrep.records.mark]
    exact hi.linking.unmarked e hlt hfilled
  · rw [hrep.records.data]
    exact hi.naming.vectors label e hlt hfilled (Or.inl ⟨t, top, p, ht⟩)
  · refine ⟨hrep.records.atLevel.mp ha, hp.filled, ?_⟩
    by_cases hl : l' = l
    · subst hl
      rw [hrep.connections_self, hll] at hm
      exact ((h.settled i hm).2.1 u label' b q he).elim
    · rwa [hrep.connections_ne (Or.inr hl)] at hm

private theorem Chosen.linksBack {ids : List TableInt} {ll : LinkList} (h : Chosen (σ, γ) l e ids)
    (hi : Inv A (σ, γ)) (ht : γ t = .inserting label e top p) (hp : p.Awaits l)
    (hl : l ≤ σ.index.level e) (hrep : Index.Replaced σ.index s' e l ll) :
    LinksBack A t false e l ids
      ({ σ with index := s' }, Function.update γ t (.inserting label e top (.linked l))) := by
  have hat : ∀ {i}, s'.AtLevel l i ↔ σ.index.AtLevel l i := hrep.records.atLevel
  refine ⟨Or.inl ⟨rfl, label, top, .linked l, Function.update_self _ _ _⟩,
    ⟨hat.mpr ⟨hi.owning.lt ht, hl⟩, (owners_update_self (hi.owning.others ht)).mpr le_rfl⟩,
    fun o ho => ?_, h.nodup, fun _ o ho hm => ?_⟩
  · obtain ⟨ha, hs, hne⟩ := h.settled o ho
    exact ⟨hat.mpr ha, hs.advance ht id, hne⟩
  · -- links of level `l` did not show the element before
    obtain ⟨ha, hs, hne⟩ := h.settled o ho
    change e ∈ s'.connections o l at hm
    rw [hrep.connections_ne (Or.inl hne)] at hm
    exact hp.not_shows (((hi.linking.lists o l ha hs.settled).valid e hm).2.2 t label top p ht)

private theorem blankList_default (n : Nat) : Index.BlankList default n := ⟨rfl, fun _ _ => rfl⟩

section Connect

variable {E : Failure → World V T → Prop} {q : P.queues.far.Carrier}

theorem does_connectNew (ht : w.2 t = .inserting label e top p) (hp : p.Awaits l)
    (hl : l ≤ w.1.index.level e) (hblank : ∀ l' ≤ l, w.1.index.getLinklistAtLevel e l' = default)
    (hq : FoundAt P w l q) :
    Does A t (fun next w' => Ahead A t w w' ∧ w'.2 t = .inserting label e top (.linked l) ∧
        (∀ l' < l, w'.1.index.getLinklistAtLevel e l' = default) ∧ RestsAt w' l next) E
      (mutuallyConnectNewElement P e q l false) w := by
  rw [mutuallyConnectNewElement]
  refine does_read (fun _ => rfl) fun w₁ hi₁ hr₁ => ?_
  have hq₁ := hq.rely hr₁
  have hne : ∀ i ∈ Index.queueIds P q, i ≠ e := by
    rintro i hm rfl
    exact (hq.valid i hm).2 t label top p ht
  have hchosen := hq₁.chosen hi₁.linking.params hne
  obtain ⟨next, hlast, hmem⟩ := hq₁.next hi₁.linking.params
  dsimp only
  rw [if_neg (not_lt.mpr (Index.size_heuristic_le P w₁.1.index q _)),
    show Index.poppedIds P _ = Index.selectedNeighbors P w₁.1.index q from rfl, hlast]
  dsimp only
  rw [if_neg Bool.false_ne_true]
  refine does_access fun w₂ hi₂ hr₂ => ?_
  have hr := hr₁.trans hr₂
  have hchosen₂ := hchosen.rely hr₂
  have hown := hr.own label e top p ht
  have hlen := hchosen₂.length_le.trans_lt (hi₂.linking.params.maxLinks_lt l)
  refine wp_mono (Index.wp_setForwardLinks _ (fun o ho => (hchosen₂.settled o ho).1.2) hlen
    fun _ => ?_) (fun _ s' hs' => ?_) fun _ _ he => he.elim
  · rw [hown.2.2.2, hblank l le_rfl]
    exact blankList_default _
  obtain ⟨ll, hrep, hll⟩ := hs'
  obtain ⟨σ, γ⟩ := w₂
  have ht₂ : γ t = .inserting label e top p := hr.stage.trans ht
  have hl₂ : l ≤ σ.index.level e := hown.1 ▸ hl
  obtain ⟨htouch, hcrown⟩ := touches_of_replaced hrep
  have hahead : Ahead A t (σ, γ)
      ({ σ with index := s' }, Function.update γ t (.inserting label e top (.linked l))) :=
    .of_touches htouch hcrown (hrep.records.level e) (fun _ _ _ _ _ => hrep.records.label e)
      (Or.inr ⟨label, e, top, p, .linked l, ht₂, rfl, hp.before⟩)
  refine ⟨_, hchosen₂.move_own hi₂ ht₂ hp hrep hll, satE_bind (satE_mono
    (does_backLinks _ (hchosen₂.linksBack hi₂ ht₂ hp hl₂ hrep)) (fun _ w₃ _ h₃ => ?_)
    fun _ _ _ he => he)⟩
  obtain ⟨hahead₃, hkept⟩ := h₃
  refine satE_pure fun w' _ hr' => ?_
  have hall := ((Ahead.of_rely hr).trans hahead).trans (hahead₃.trans (.of_rely hr'))
  have hself : Function.update γ t (.inserting label e top (.linked l)) t =
    .inserting label e top (.linked l) := Function.update_self _ _ _
  obtain ⟨ha, hs, -⟩ := hchosen₂.settled next hmem
  refine ⟨hall, hr'.stage.trans (hkept.1.trans hself), fun l' hl' => ?_, ?_⟩
  · have hkept' := hkept.trans (.of_rely hr')
    rw [hkept'.2 label e top (.linked l) hself l', hrep.get_ne e l' (Or.inr hl'.ne), hown.2.2.2]
    exact hblank l' hl'.le
  · have hrest : RestsAt (σ, γ) l next := ⟨ha, hs.settled⟩
    exact (hahead.trans (hahead₃.trans (.of_rely hr'))).restsAt hrest

theorem does_connectUpdate (hupd : ¬ A.newOnly) (he : w.1.index.AtLevel l e) (hs : Settled w.2 e)
    (hq : FoundAt P w l q) (hne : ∀ i ∈ Index.queueIds P q, i ≠ e) :
    Does A t (fun next w' => Ahead A t w w' ∧ RestsAt w' l next) E
      (mutuallyConnectNewElement P e q l true) w := by
  rw [mutuallyConnectNewElement]
  refine does_read (fun _ => rfl) fun w₁ hi₁ hr₁ => ?_
  have hq₁ := hq.rely hr₁
  have hchosen := hq₁.chosen hi₁.linking.params hne
  obtain ⟨next, hlast, hmem⟩ := hq₁.next hi₁.linking.params
  dsimp only
  rw [if_neg (not_lt.mpr (Index.size_heuristic_le P w₁.1.index q _)),
    show Index.poppedIds P _ = Index.selectedNeighbors P w₁.1.index q from rfl, hlast]
  dsimp only
  rw [if_pos rfl]
  refine does_locking (fun w₂ hi₂ hr₂ hheld => ?_) fun w₂ hi₂ hr₂ _ => ?_
  · have hs₂ := (hr₁.trans hr₂).settled he.1 hs
    exact absurd (hi₂.locking.free_of_settled hs₂) hheld
  have hr := hr₁.trans hr₂
  have hchosen₂ := hchosen.rely hr₂
  have hs₂ := hr.settled he.1 hs
  have he₂ := hr.atLevel hs.settled he
  have hlen := hchosen₂.length_le.trans_lt (hi₂.linking.params.maxLinks_lt l)
  refine wp_mono (Index.wp_setForwardLinks _ (fun o ho => (hchosen₂.settled o ho).1.2) hlen
    fun hf => by cases hf) (fun _ s' hs' => ?_) fun _ _ he => he.elim
  obtain ⟨ll, hrep, hll⟩ := hs'
  obtain ⟨σ, γ⟩ := w₂
  have hat : ∀ {i}, s'.AtLevel l i ↔ σ.index.AtLevel l i := hrep.records.atLevel
  obtain ⟨htouch, hcrown⟩ := touches_of_replaced hrep
  have hahead : Ahead A t (σ, γ) ({ σ with index := s' }, γ) :=
    .of_settled htouch hcrown (hrep.records.level e) (hrep.records.label e)
  have hback : LinksBack A t true e l (Index.selectedNeighbors P w₁.1.index q)
      ({ σ with index := s' }, γ) :=
    ⟨Or.inr ⟨rfl, hupd, hs₂⟩, ⟨hat.mpr he₂, hs₂.settled⟩,
      fun o ho => ⟨hat.mpr (hchosen₂.settled o ho).1, (hchosen₂.settled o ho).2⟩, hchosen₂.nodup,
      fun hn => absurd hn hupd⟩
  refine ⟨γ, hi₂.move_replaced hrep hs₂ (fun _ => hll ▸ hchosen₂.listFits)
    (fun hn => absurd hn hupd), satE_bind (satE_mono (does_backLinks _ hback)
    (fun _ w₃ _ h₃ => ?_) fun _ _ _ he => he)⟩
  refine satE_pure fun w' _ hr' => ?_
  have hrest : RestsAt (σ, γ) l next :=
    ⟨(hchosen₂.settled next hmem).1, (hchosen₂.settled next hmem).2.1.settled⟩
  exact ⟨((Ahead.of_rely hr).trans hahead).trans (h₃.1.trans (.of_rely hr')),
    (hahead.trans (h₃.1.trans (.of_rely hr'))).restsAt hrest⟩

end Connect

end HnswRvv.Concurrent
