import HnswRvv.Concurrent.Stages

/-!
# The steps that threads make

Every step of a call takes or gives back a lock, touches the memory of one element, writes the entry
point or its level, or reserves an id. For each kind: the invariant survives it, and the other
threads can bear it.
-/

namespace HnswRvv.Concurrent

open Framework OrderDual
set_option linter.unusedSectionVars false

variable {V D T : Type} [Inhabited V] [DecidableEq T] {A : Terms V T} {σ : Shared V T}
  {s s' : Index V} {γ γ' : T → Stage} {t u : T} {st : Stage} {k : Lock} {e i : TableInt}
  {label : LabelType} {top top' : Bool} {p p' q : Progress}

theorem Locking.acquire (h : Locking σ γ) (hfree : σ.held k = none)
    (hst : ∀ k', st.Holds k' ↔ (γ t).Holds k' ∨ k' = k) :
    Locking { σ with held := Function.update σ.held k (some t) } (Function.update γ t st) := by
  intro k' u
  by_cases hu : u = t
  · subst hu
    rw [Function.update_self, hst]
    by_cases hk : k' = k
    · subst hk
      simp
    · simp only [Function.update_of_ne hk, hk, or_false]
      exact h k' u
  · rw [Function.update_of_ne hu]
    by_cases hk : k' = k
    · subst hk
      have hnot : ¬ (γ u).Holds k' := fun hold => by
        rw [(h k' u).mpr hold] at hfree
        cases hfree
      simpa [hnot] using Ne.symm hu
    · simp only [Function.update_of_ne hk]
      exact h k' u

theorem Locking.release (h : Locking σ γ) (hheld : (γ t).Holds k)
    (hst : ∀ k', st.Holds k' ↔ (γ t).Holds k' ∧ k' ≠ k) :
    Locking { σ with held := Function.update σ.held k none } (Function.update γ t st) := by
  intro k' u
  by_cases hu : u = t
  · subst hu
    rw [Function.update_self, hst]
    by_cases hk : k' = k
    · subst hk
      simp
    · simp only [Function.update_of_ne hk, ne_eq, hk, not_false_eq_true, and_true]
      exact h k' u
  · rw [Function.update_of_ne hu]
    by_cases hk : k' = k
    · subst hk
      have hnot : ¬ (γ u).Holds k' := fun hold => by
        have heq := ((h k' u).mpr hold).symm.trans ((h k' t).mpr hheld)
        exact hu (Option.some.inj heq)
      simpa using hnot
    · simp only [Function.update_of_ne hk]
      exact h k' u

theorem Locking.keep (h : Locking σ γ) (s : Index V) (hst : ∀ k', st.Holds k' ↔ (γ t).Holds k') :
    Locking { σ with index := s } (Function.update γ t st) := by
  intro k' u
  by_cases hu : u = t
  · subst hu
    rw [Function.update_self, hst]
    exact h k' u
  · rw [Function.update_of_ne hu]
    exact h k' u

private theorem Locking.holds_inj (h : Locking σ γ) (ht : (γ t).Holds k) (hu : (γ u).Holds k) : u = t :=
  Option.some.inj (((h k u).mpr hu).symm.trans ((h k t).mpr ht))

private theorem Stage.holds_mutex (h : st.label = some label) : st.Holds (getLabelOpMutex label) := by
  cases st with
  | outside => cases h
  | called l =>
    cases h
    rfl
  | inserting l i top p =>
    cases h
    exact Or.inl rfl

theorem Locking.label_ne (h : Locking σ γ) (hne : u ≠ t) (ht : (γ t).label = some label) :
    (γ u).label ≠ some label :=
  fun hu => hne (h.holds_inj (Stage.holds_mutex ht) (Stage.holds_mutex hu))

theorem Locking.top_ne (h : Locking σ γ) (hne : u ≠ t) (ht : γ t = .inserting label e true p) :
    ∀ label' i q, γ u ≠ .inserting label' i true q := by
  intro label' i q hu
  refine hne (h.holds_inj (k := .global) ?_ ?_)
  · rw [ht]
    exact Or.inr (Or.inr ⟨rfl, rfl⟩)
  · rw [hu]
    exact Or.inr (Or.inr ⟨rfl, rfl⟩)

theorem Locking.owner_of_held (h : Locking σ γ) (hheld : σ.held (.element i) = some u) :
    ∃ label top p, γ u = .inserting label i top p := by
  have hold := (h _ u).mp hheld
  cases hu : γ u with
  | outside =>
    rw [hu] at hold
    exact hold.elim
  | called l =>
    rw [hu] at hold
    cases hold
  | inserting l j top p =>
    rw [hu] at hold
    rcases hold with hk | ⟨hk, -⟩ | ⟨hk, -⟩
    · cases hk
    · cases hk
      exact ⟨l, top, p, rfl⟩
    · cases hk

/-- A settled element is never locked from one step to the next. -/
theorem Locking.free_of_settled (h : Locking σ γ) (hs : Settled γ i) : σ.held (.element i) = none := by
  cases hheld : σ.held (.element i) with
  | none => rfl
  | some u =>
    obtain ⟨l, top, p, hu⟩ := h.owner_of_held hheld
    exact (hs u l top p hu).elim

theorem Locking.settled_of_free (h : Locking σ γ) (hfree : σ.held (.element i) = none)
    {l : Nat} (hs : Shown γ l i) : Settled γ i := by
  intro u label top p hu
  have hshows := hs u label top p hu
  have hold : (γ u).Holds (.element i) := by
    rw [hu]
    refine Or.inr (Or.inl ⟨rfl, ?_⟩)
    rintro rfl
    exact hshows
  rw [(h _ u).mpr hold] at hfree
  cases hfree

theorem Owning.update {n n' : Nat} (h : Owning n γ) (hle : n ≤ n')
    (hst : ∀ label i top p, st = .inserting label i top p →
      ∃ label' top' p', γ t = .inserting label' i top' p') :
    Owning n' (Function.update γ t st) := by
  have hback : ∀ {v label i top p}, Function.update γ t st v = .inserting label i top p →
      ∃ label' top' p', γ v = .inserting label' i top' p' := by
    intro v label i top p hv
    by_cases hvt : v = t
    · subst hvt
      rw [Function.update_self] at hv
      exact hst label i top p hv
    · rw [Function.update_of_ne hvt] at hv
      exact ⟨label, top, p, hv⟩
  constructor
  · intro v label i top p hv
    obtain ⟨_, _, _, hv'⟩ := hback hv
    exact (h.lt hv').trans_le hle
  · intro v v' label label' i top top' p p' hv hv'
    obtain ⟨_, _, _, h₁⟩ := hback hv
    obtain ⟨_, _, _, h₂⟩ := hback hv'
    exact h.inj h₁ h₂

theorem Owning.others {n : Nat} (h : Owning n γ) (ht : γ t = .inserting label e top p) :
    ∀ v, v ≠ t → ∀ label top p, γ v ≠ .inserting label e top p :=
  fun _ hv _ _ _ he => hv (h.inj he ht)

private theorem doing_update (ht : ∀ label i, γ t ≠ .inserting label i true q)
    (hst : ∀ label i, st ≠ .inserting label i true q) :
    Doing q (Function.update γ t st) ↔ Doing q γ := by
  constructor
  · rintro ⟨v, label, i, hv⟩
    by_cases hvt : v = t
    · subst hvt
      rw [Function.update_self] at hv
      exact absurd hv (hst label i)
    · rw [Function.update_of_ne hvt] at hv
      exact ⟨v, label, i, hv⟩
  · rintro ⟨v, label, i, hv⟩
    have hvt : v ≠ t := by
      rintro rfl
      exact ht label i hv
    refine ⟨v, label, i, ?_⟩
    rw [Function.update_of_ne hvt]
    exact hv

/-- The new stage of `t` continues the old one. -/
def Continues (n : Nat) (old new : Stage) : Prop :=
  ∀ label i top p, i < n → new = .inserting label i top p →
    ∃ top₀ p₀, old = .inserting label i top₀ p₀ ∧ p₀.Before p

theorem Continues.of_free {n : Nat} {old new : Stage} (h : new.Free) : Continues n old new :=
  fun label i top p _ he => absurd he (h label i top p)

theorem Continues.same (n : Nat) (old : Stage) : Continues n old old :=
  fun _ _ top p _ he => ⟨top, p, he, .refl p⟩

theorem Continues.step {n : Nat} (hp : p.Before p') :
    Continues n (.inserting label e top p) (.inserting label e top' p') := by
  rintro _ _ _ _ - ⟨⟩
  exact ⟨top, p, rfl, hp⟩

theorem Continues.advance {n : Nat} (h : Continues n (γ t) st) (v : T) (label : LabelType)
    (i : TableInt) (top : Bool) (p : Progress) (hi : i < n)
    (hv : Function.update γ t st v = .inserting label i top p) :
    ∃ top₀ p₀, γ v = .inserting label i top₀ p₀ ∧ p₀.Before p := by
  by_cases hvt : v = t
  · subst hvt
    rw [Function.update_self] at hv
    exact h label i top p hi hv
  · rw [Function.update_of_ne hvt] at hv
    exact ⟨top, p, hv, .refl p⟩

theorem Continues.owners {n : Nat} {Φ : Progress → Prop} (h : Continues n (γ t) st) (hi : i < n)
    (hΦ : ∀ p p', Progress.Before p p' → Φ p → Φ p') (ho : Owners γ Φ i) :
    Owners (Function.update γ t st) Φ i := by
  intro v label top p hv
  obtain ⟨top₀, p₀, hv₀, hp⟩ := h.advance v label i top p hi hv
  exact hΦ p₀ p hp (ho v label top₀ p₀ hv₀)

/-- `s'` is `s` but for the record, the lists and the level of `e`, the entry point and its level. -/
structure Touches (s s' : Index V) (e : TableInt) : Prop where
  fields : s' = { s with
    dataLevel0Memory := s'.dataLevel0Memory
    linkLists := s'.linkLists
    elementLevels := s'.elementLevels
    enterpointNode := s'.enterpointNode
    maxlevel := s'.maxlevel }
  level : ∀ i, i ≠ e → s'.level i = s.level i
  data : ∀ i, i ≠ e → s'.getDataByInternalId i = s.getDataByInternalId i
  label : ∀ i, i ≠ e → s'.getExternalLabel i = s.getExternalLabel i
  list : ∀ i l, i ≠ e → s'.getLinklistAtLevel i l = s.getLinklistAtLevel i l
  lists : ∀ i, i ≠ e → s.linkLists.read i ≠ default → s'.linkLists.read i ≠ default

namespace Touches

theorem refl (s : Index V) (e : TableInt) : Touches s s e :=
  ⟨rfl, fun _ _ => rfl, fun _ _ => rfl, fun _ _ => rfl, fun _ _ _ => rfl, fun _ _ => id⟩

theorem curElementCount (h : Touches s s' e) : s'.curElementCount = s.curElementCount := by
  rw [h.fields]

theorem maxElements (h : Touches s s' e) : s'.maxElements = s.maxElements := by rw [h.fields]

theorem labelLookup (h : Touches s s' e) : s'.labelLookup = s.labelLookup := by rw [h.fields]

theorem settings (h : Touches s s' e) : settings s' = settings s := by
  rw [h.fields]
  rfl

theorem maxLinks (h : Touches s s' e) (l : Nat) : s'.maxLinks l = s.maxLinks l := by
  rw [h.fields]
  rfl

theorem params (h : Touches s s' e) (hp : s.Params) : s'.Params := by
  rw [h.fields]
  exact ⟨hp.two_le, hp.le_cap, hp.maxM, hp.maxM0, hp.efConstruction⟩

theorem connections (h : Touches s s' e) {l : Nat} (hne : i ≠ e) :
    s'.connections i l = s.connections i l := by
  rw [Index.connections, Index.connections, h.list i l hne]

theorem isMarkedDeleted (h : Touches s s' e) (hne : i ≠ e) :
    s'.isMarkedDeleted i = s.isMarkedDeleted i := by
  rw [Index.isMarkedDeleted, Index.isMarkedDeleted, h.list i 0 hne]

private theorem level_filled (h : Touches s s' e) (hlevel : Filled γ e → s'.level e = s.level e)
    (hf : Filled γ i) : s'.level i = s.level i := by
  by_cases hie : i = e
  · subst hie
    exact hlevel hf
  · exact h.level i hie

private theorem atLevel_iff (h : Touches s s' e) (hlevel : Filled γ e → s'.level e = s.level e)
    (hf : Filled γ i) {l : Nat} : s'.AtLevel l i ↔ s.AtLevel l i := by
  rw [Index.AtLevel, Index.AtLevel, h.curElementCount, h.level_filled hlevel hf]

theorem listFits (h : Touches s s' e) (hlevel : Filled γ e → s'.level e = s.level e)
    (hshow : ∀ l j, j < s.curElementCount → Shown γ l j → Shown γ' l j) {l : Nat}
    {links : List TableInt} (hfit : ListFits A s γ i l links) : ListFits A s' γ' i l links := by
  refine ⟨by rw [h.maxLinks]; exact hfit.length_le, hfit.nodup, fun j hj => ?_⟩
  obtain ⟨ha, hne, hs⟩ := hfit.valid j hj
  exact ⟨(h.atLevel_iff hlevel hs.shown_filled).mpr ha, hne, hshow l j ha.1 hs⟩

theorem linking (h : Touches s s' e) (hl : Linking A s γ)
    (hlevel : Filled γ e → s'.level e = s.level e)
    (hshow : ∀ l j, j < s.curElementCount → Shown γ l j → Shown γ' l j)
    (hfill : ∀ j, j ≠ e → Filled γ' j → Filled γ j)
    (hself : Filled γ' e → e < s.curElementCount →
      (∀ l, s'.AtLevel l e → ListFits A s' γ' e l (s'.connections e l)) ∧
        s'.isMarkedDeleted e = false ∧ ¬s'.LacksLists e) : Linking A s' γ' := by
  refine ⟨h.params hl.params, by rw [h.curElementCount, h.maxElements]; exact hl.cap, ?_, ?_, ?_,
    by rw [h.fields]; exact hl.numDeleted, by rw [h.fields]; exact hl.deletedElements⟩
  · intro j l hj hf
    by_cases hje : j = e
    · subst hje
      exact (hself hf (h.curElementCount ▸ hj.1)).1 l hj
    · have hf' := hfill j hje hf
      rw [h.connections hje]
      exact h.listFits hlevel hshow (hl.lists j l ((h.atLevel_iff hlevel hf').mp hj) hf')
  · intro j hj hf
    rw [h.curElementCount] at hj
    by_cases hje : j = e
    · subst hje
      exact (hself hf hj).2.1
    · rw [h.isMarkedDeleted hje]
      exact hl.unmarked j hj (hfill j hje hf)
  · intro j hj hf
    rw [h.curElementCount] at hj
    by_cases hje : j = e
    · subst hje
      exact (hself hf hj).2.2
    · rintro ⟨hlevel, hnull⟩
      rw [h.level j hje] at hlevel
      exact h.lists j hje (fun hnone => hl.backed j hj (hfill j hje hf) ⟨hlevel, hnone⟩) hnull

theorem naming (h : Touches s s' e) (hn : Naming A s γ)
    (hname : ∀ label j, j < s.curElementCount → (Named γ' s' j label ↔ Named γ s j label))
    (hfill : ∀ j, j ≠ e → Filled γ' j → Filled γ j)
    (hself : Filled γ' e → ∀ label, e < s.curElementCount → Named γ s e label →
      A.allowed label (s'.getDataByInternalId e)) : Naming A s' γ' := by
  constructor
  · intro label j
    rw [h.labelLookup, h.curElementCount, hn.lookup]
    exact and_congr_right fun hj => (hname label j hj).symm
  · intro label j hj hf hnamed
    rw [h.curElementCount] at hj
    have hnamed' := (hname label j hj).mp hnamed
    by_cases hje : j = e
    · subst hje
      exact hself hf label hj hnamed'
    · rw [h.data j hje]
      exact hn.vectors label j hj (hfill j hje hf) hnamed'
  · rw [h.labelLookup]
    exact hn.declared
  · rw [h.labelLookup]
    exact hn.kept

theorem ruling (h : Touches s s' e) (hr : Ruling s γ)
    (hcrown : s'.enterpointNode = s.enterpointNode ∧ s'.maxlevel = s.maxlevel)
    (hlevel : Filled γ e → s'.level e = s.level e) : Ruling s' γ := by
  constructor
  · rw [hcrown.1, hcrown.2]
    exact hr.absent
  · rw [hcrown.1, h.curElementCount]
    exact hr.early
  · intro ep hep hnf
    rw [hcrown.1] at hep
    obtain ⟨hlt, hc, h0, hle⟩ := hr.entry ep hep hnf
    rw [h.curElementCount, hcrown.2, h.level_filled hlevel (hc.complete_shown 0).shown_filled]
    exact ⟨hlt, hc, h0, hle⟩
  · intro ep hep hnf hnr
    rw [hcrown.1] at hep
    obtain ⟨-, hc, -, -⟩ := hr.entry ep hep hnf
    rw [hcrown.2, h.level_filled hlevel (hc.complete_shown 0).shown_filled]
    exact hr.exact ep hep hnf hnr
  · intro i hi hf
    rw [h.curElementCount] at hi
    have hfilled : Filled γ i := hf.mono fun p hp => by rw [hp]; trivial
    rw [hcrown.2, h.level_filled hlevel hfilled]
    exact hr.le i hi hf

/-- Others bear it if none of them is inserting `e`, and if it shows none of their elements anew. -/
theorem rely (h : Touches s s' e) (hne : u ≠ t) {held : Lock → Option T}
    (hst : Continues s.curElementCount (γ t) st)
    (hcrown : s.maxlevel ≤ s'.maxlevel ∧ ∀ label i p, γ u = .inserting label i true p →
      s'.enterpointNode = s.enterpointNode ∧ s'.maxlevel = s.maxlevel)
    (hown : ∀ label top p, γ u ≠ .inserting label e top p)
    (hlevel : Filled γ e → s'.level e = s.level e)
    (hfill : ∀ j, j ≠ e → Filled (Function.update γ t st) j → Filled γ j)
    (hlinks : A.newOnly → ∀ label i top p, γ u = .inserting label i top p → ∀ l,
      s'.AtLevel l e → Filled (Function.update γ t st) e → i ∈ s'.connections e l →
      s.AtLevel l e ∧ Filled γ e ∧ i ∈ s.connections e l) {σ : Shared V T} (hσ : σ.index = s) :
    Rely A u (σ, γ) (⟨s', held⟩, Function.update γ t st) where
  stage := Function.update_of_ne hne _ _
  settings := by rw [hσ]; exact h.settings
  count_le := by rw [hσ]; exact h.curElementCount.ge
  advance v label i top p hi := hst.advance v label i top p (hσ ▸ hi)
  level i _ hf := by rw [hσ]; exact h.level_filled hlevel hf
  own label i top p hu := by
    have hie : i ≠ e := by
      rintro rfl
      exact hown label top p hu
    rw [hσ]
    exact ⟨h.level i hie, h.data i hie, h.label i hie, fun l => h.list i l hie⟩
  ownLinks hnew label i top p hu o l ha hf hi := by
    rw [hσ]
    by_cases hoe : o = e
    · subst hoe
      exact hlinks hnew label i top p hu l ha hf hi
    · have hf' := hfill o hoe hf
      refine ⟨(h.atLevel_iff hlevel hf').mp ha, hf', ?_⟩
      rw [← h.connections hoe]
      exact hi
  maxlevel_le := by rw [hσ]; exact hcrown.1
  top label i p hu := by rw [hσ]; exact hcrown.2 label i p hu
  known label i hi := by rw [hσ] at hi; rw [h.labelLookup]; exact hi
  called _ _ := by rw [hσ, h.labelLookup]
  reserved _ _ _ := by rw [hσ, h.labelLookup]

end Touches

private theorem Ruling.restage (h : Ruling s γ) (hst : Continues s.curElementCount (γ t) st)
    (hfound : Founding (Function.update γ t st) ↔ Founding γ)
    (hraise : Raising (Function.update γ t st) ↔ Raising γ)
    (hearly : s.enterpointNode = none ∨ Founding γ → ∀ label i top p,
      γ t = .inserting label i top p → p.Early top →
      ∃ label' top' p', st = .inserting label' i top' p' ∧ p'.Early top')
    (hfin : ∀ i, i < s.curElementCount → Owners (Function.update γ t st) (· = .finished) i →
      Owners γ (· = .finished) i ∨ (s.level i : Int) ≤ s.maxlevel) :
    Ruling s (Function.update γ t st) := by
  refine ⟨h.absent, ?_, ?_, ?_, ?_⟩
  · intro hun i hi
    rw [hfound] at hun
    obtain ⟨v, label, top, p, hv, hp⟩ := h.early hun i hi
    by_cases hvt : v = t
    · subst hvt
      obtain ⟨label', top', p', hst', hp'⟩ := hearly hun label i top p hv hp
      exact ⟨v, label', top', p', by rw [Function.update_self]; exact hst', hp'⟩
    · exact ⟨v, label, top, p, by rw [Function.update_of_ne hvt]; exact hv, hp⟩
  · intro ep hep hnf
    rw [hfound] at hnf
    obtain ⟨hlt, hc, hrest⟩ := h.entry ep hep hnf
    exact ⟨hlt, hst.owners hlt (fun _ _ hb => hb.complete) hc, hrest⟩
  · intro ep hep hnf hnr
    rw [hfound] at hnf
    rw [hraise] at hnr
    exact h.exact ep hep hnf hnr
  · intro i hi hf
    rcases hfin i hi hf with hf | hle
    · exact h.le i hi hf
    · exact hle

theorem Touches.move {held : Lock → Option T} (h : Inv A (σ, γ)) (htouch : Touches σ.index s' e)
    (hlock : Locking ⟨s', held⟩ (Function.update γ t st))
    (howning : Owning σ.index.curElementCount (Function.update γ t st))
    (hcont : Continues σ.index.curElementCount (γ t) st)
    (hlevel : Filled γ e → s'.level e = σ.index.level e)
    (hfill : ∀ j, j ≠ e → Filled (Function.update γ t st) j → Filled γ j)
    (hnamed : ∀ label j, j < σ.index.curElementCount →
      (Named (Function.update γ t st) s' j label ↔ Named γ σ.index j label))
    (hself : Filled (Function.update γ t st) e → e < σ.index.curElementCount →
      (∀ l, s'.AtLevel l e → ListFits A s' (Function.update γ t st) e l (s'.connections e l)) ∧
        (s'.isMarkedDeleted e = false ∧ ¬s'.LacksLists e) ∧
        ∀ label, Named γ σ.index e label → A.allowed label (s'.getDataByInternalId e))
    (hruling : Ruling s' (Function.update γ t st))
    (hcrown : ∀ u, u ≠ t → σ.index.maxlevel ≤ s'.maxlevel ∧ ∀ label i p,
      γ u = .inserting label i true p → s'.enterpointNode = σ.index.enterpointNode ∧
        s'.maxlevel = σ.index.maxlevel)
    (hothers : ∀ u, u ≠ t → (∀ label top p, γ u ≠ .inserting label e top p) ∧
      (A.newOnly → ∀ label i top p, γ u = .inserting label i top p → ∀ l,
        s'.AtLevel l e → Filled (Function.update γ t st) e → i ∈ s'.connections e l →
        σ.index.AtLevel l e ∧ Filled γ e ∧ i ∈ σ.index.connections e l)) :
    (protocol A).Move t (σ, γ) (⟨s', held⟩, Function.update γ t st) := by
  have hshow : ∀ l j, j < σ.index.curElementCount → Shown γ l j →
      Shown (Function.update γ t st) l j :=
    fun l j hj => hcont.owners hj fun _ _ hb => hb.shows l
  refine ⟨⟨hlock, ?_, ?_, ?_, hruling⟩, fun u hu => ?_⟩
  · rw [htouch.curElementCount]
    exact howning
  · exact htouch.linking h.linking hlevel hshow hfill fun hf he =>
      ⟨(hself hf he).1, (hself hf he).2.1⟩
  · exact htouch.naming h.naming hnamed hfill fun hf label he => (hself hf he).2.2 label
  · exact htouch.rely hu hcont (hcrown u hu) (hothers u hu).1 hlevel hfill (hothers u hu).2 rfl

private theorem Inv.restage {held : Lock → Option T} (h : Inv A (σ, γ))
    (hlock : Locking ⟨σ.index, held⟩ (Function.update γ t st))
    (howning : Owning σ.index.curElementCount (Function.update γ t st))
    (hcont : Continues σ.index.curElementCount (γ t) st)
    (hfill : ∀ j, Filled (Function.update γ t st) j → Filled γ j)
    (hnamed : ∀ label j, j < σ.index.curElementCount →
      (Named (Function.update γ t st) σ.index j label ↔ Named γ σ.index j label))
    (hruling : Ruling σ.index (Function.update γ t st)) :
    (protocol A).Move t (σ, γ) (⟨σ.index, held⟩, Function.update γ t st) := by
  -- no memory is touched: take the element that would come next
  refine (Touches.refl σ.index σ.index.curElementCount).move h hlock howning hcont (fun _ => rfl)
    (fun j _ => hfill j) hnamed (fun _ hlt => absurd hlt (lt_irrefl _)) hruling
    (fun _ _ => ⟨le_rfl, fun _ _ _ _ => ⟨rfl, rfl⟩⟩) fun u _ => ⟨?_, ?_⟩
  · exact fun label top p hu => lt_irrefl _ (h.owning.lt hu)
  · exact fun _ label i top p _ l ha hf hi => ⟨ha, hfill _ hf, hi⟩

private theorem named_update_of_free {st : Stage} (ht : (γ t).Free) (hst : st.Free) :
    Named (Function.update γ t st) s i label ↔ Named γ s i label := by
  refine or_congr ⟨?_, ?_⟩ (and_congr_left fun _ => owners_update_of_free ht hst)
  · rintro ⟨v, top, p, hv⟩
    by_cases hvt : v = t
    · subst hvt
      rw [Function.update_self] at hv
      exact absurd hv (hst _ _ _ _)
    · rw [Function.update_of_ne hvt] at hv
      exact ⟨v, top, p, hv⟩
  · rintro ⟨v, top, p, hv⟩
    have hvt : v ≠ t := by
      rintro rfl
      exact ht _ _ _ _ hv
    exact ⟨v, top, p, by rw [Function.update_of_ne hvt]; exact hv⟩

theorem Inv.move_free {held : Lock → Option T} (h : Inv A (σ, γ)) (ht : (γ t).Free) (hst : st.Free)
    (hlock : Locking ⟨σ.index, held⟩ (Function.update γ t st)) :
    (protocol A).Move t (σ, γ) (⟨σ.index, held⟩, Function.update γ t st) := by
  have hdoing : ∀ q, Doing q (Function.update γ t st) ↔ Doing q γ := fun q =>
    doing_update (fun l i => ht l i true q) fun l i => hst l i true q
  have hcont : Continues σ.index.curElementCount (γ t) st := .of_free hst
  refine h.restage hlock (h.owning.update le_rfl fun l i b p he => absurd he (hst l i b p)) hcont
    (fun j => (owners_update_of_free ht hst).mp) (fun label j _ => named_update_of_free ht hst) ?_
  refine h.ruling.restage hcont (hdoing _) (hdoing _) (fun _ l i b p he => absurd he (ht l i b p)) ?_
  exact fun i _ hf => Or.inl ((owners_update_of_free ht hst).mp hf)

private theorem named_update_step (ht : γ t = .inserting label e top p) {label' : LabelType}
    (hlabel : Settled γ i → s'.getExternalLabel i = s.getExternalLabel i) :
    Named (Function.update γ t (.inserting label e top' p')) s' i label' ↔ Named γ s i label' := by
  have hsettled : Settled (Function.update γ t (.inserting label e top' p')) i ↔ Settled γ i :=
    ⟨fun h => h.retreat ht id, fun h => h.advance ht id⟩
  refine or_congr ⟨?_, ?_⟩ ?_
  · rintro ⟨v, b, q, hv⟩
    by_cases hvt : v = t
    · subst hvt
      rw [Function.update_self] at hv
      cases hv
      exact ⟨v, top, p, ht⟩
    · rw [Function.update_of_ne hvt] at hv
      exact ⟨v, b, q, hv⟩
  · rintro ⟨v, b, q, hv⟩
    by_cases hvt : v = t
    · subst hvt
      rw [ht] at hv
      cases hv
      exact ⟨v, top', p', Function.update_self _ _ _⟩
    · exact ⟨v, b, q, by rw [Function.update_of_ne hvt]; exact hv⟩
  · rw [hsettled]
    exact and_congr_right fun h => by rw [hlabel h]

/-- What an insertion may do to the entry point by going on, if it writes neither of its fields. -/
theorem Ruling.step (h : Ruling s γ) (ht : γ t = .inserting label e top p) (hp : p.Before p')
    (hfin : p' = .finished → p = .finished)
    (hq : ∀ q, q = .founding ∨ q = .raising → p ≠ q ∧ p' ≠ q)
    (hearly : s.enterpointNode = none ∨ Founding γ → p.Early top → p'.Early top') :
    Ruling s (Function.update γ t (.inserting label e top' p')) := by
  have hdoing : ∀ q, q = .founding ∨ q = .raising →
      (Doing q (Function.update γ t (.inserting label e top' p')) ↔ Doing q γ) := by
    intro q hq'
    refine doing_update (fun l i he => ?_) fun l i he => ?_
    · rw [ht] at he
      cases he
      exact (hq _ hq').1 rfl
    · cases he
      exact (hq _ hq').2 rfl
  refine h.restage (ht ▸ Continues.step hp) (hdoing _ (Or.inl rfl)) (hdoing _ (Or.inr rfl)) ?_ ?_
  · intro hun l i b q he hq'
    rw [ht] at he
    cases he
    exact ⟨label, top', p', rfl, hearly hun hq'⟩
  · exact fun i _ hf => Or.inl (hf.retreat ht hfin)

theorem Owning.step {n : Nat} (h : Owning n γ) (ht : γ t = .inserting label e top p) :
    Owning n (Function.update γ t (.inserting label e top' p')) := by
  refine h.update le_rfl ?_
  rintro l i b q ⟨⟩
  exact ⟨label, top, p, ht⟩

theorem Inv.move_step {held : Lock → Option T} (h : Inv A (σ, γ))
    (ht : γ t = .inserting label e top p)
    (hlock : Locking ⟨σ.index, held⟩ (Function.update γ t (.inserting label e top' p')))
    (hp : p.Before p') (hfill : p'.Filled → p.Filled) (hfin : p' = .finished → p = .finished)
    (hq : ∀ q, q = .founding ∨ q = .raising → p ≠ q ∧ p' ≠ q)
    (hearly : σ.index.enterpointNode = none ∨ Founding γ → p.Early top → p'.Early top') :
    (protocol A).Move t (σ, γ)
      (⟨σ.index, held⟩, Function.update γ t (.inserting label e top' p')) :=
  h.restage hlock (h.owning.step ht) (ht ▸ Continues.step hp) (fun _ hf => hf.retreat ht hfill)
    (fun _ _ _ => named_update_step ht fun _ => rfl) (h.ruling.step ht hp hfin hq hearly)

theorem Inv.move_leave {held : Lock → Option T} (h : Inv A (σ, γ))
    (ht : γ t = .inserting label e false p)
    (hlock : Locking ⟨σ.index, held⟩ (Function.update γ t (.called label)))
    (hfill : p.Filled) (hlevel : (σ.index.level e : Int) ≤ σ.index.maxlevel)
    (hlabel : σ.index.getExternalLabel e = label) :
    (protocol A).Move t (σ, γ) (⟨σ.index, held⟩, Function.update γ t (.called label)) := by
  have hfree := Stage.free_called label
  have hlt := h.owning.lt ht
  have hne : ∀ {Φ : Progress → Prop} {j : TableInt}, j ≠ e →
      (Owners (Function.update γ t (.called label)) Φ j ↔ Owners γ Φ j) := by
    intro Φ j hj
    refine owners_update_of_ne (fun l i b q he => ?_) (fun l i b q he => absurd he (hfree l i b q)) hj
    rw [ht] at he
    cases he
    rfl
  have hcont : Continues σ.index.curElementCount (γ t) (.called label) := .of_free hfree
  have hself : Settled (Function.update γ t (.called label)) e :=
    owners_update.mpr ⟨fun u hu l b q he => h.owning.others ht u hu l b q he,
      fun l b q he => absurd he (hfree l e b q)⟩
  have hnot : ¬ (σ.index.enterpointNode = none ∨ Founding γ) := by
    intro hun
    obtain ⟨v, l, b, q, hv, hq⟩ := h.ruling.early hun e hlt
    obtain rfl := h.owning.inj hv ht
    cases ht.symm.trans hv
    rcases hq with hq | rfl | rfl
    · cases hq
    · exact hfill
    · exact hfill
  have hdoing : ∀ q, Doing q (Function.update γ t (.called label)) ↔ Doing q γ := by
    intro q
    refine doing_update (fun l i he => ?_) fun l i => hfree l i true q
    rw [ht] at he
    cases he
  refine h.restage hlock (h.owning.update le_rfl fun l i b q he => absurd he (hfree l i b q)) hcont
    (fun j hf => ?_) (fun l j hj => ?_) ?_
  · by_cases hje : j = e
    · subst hje
      intro v l b q hv
      obtain rfl := h.owning.inj hv ht
      cases ht.symm.trans hv
      exact hfill
    · exact (hne hje).mp hf
  · by_cases hje : j = e
    · subst hje
      constructor
      · rintro (⟨v, b, q, hv⟩ | ⟨-, hl⟩)
        · exact (hself v l b q hv).elim
        · rw [hlabel] at hl
          subst hl
          exact Or.inl ⟨t, false, p, ht⟩
      · rintro (⟨v, b, q, hv⟩ | ⟨hs, -⟩)
        · obtain rfl := h.owning.inj hv ht
          cases ht.symm.trans hv
          exact Or.inr ⟨hself, hlabel⟩
        · exact (hs t label false p ht).elim
    · refine or_congr ⟨?_, ?_⟩ (and_congr_left fun _ => hne hje)
      · rintro ⟨v, b, q, hv⟩
        by_cases hvt : v = t
        · subst hvt
          rw [Function.update_self] at hv
          cases hv
        · rw [Function.update_of_ne hvt] at hv
          exact ⟨v, b, q, hv⟩
      · rintro ⟨v, b, q, hv⟩
        have hvt : v ≠ t := by
          rintro rfl
          rw [ht] at hv
          cases hv
          exact hje rfl
        exact ⟨v, b, q, by rw [Function.update_of_ne hvt]; exact hv⟩
  · refine h.ruling.restage hcont (hdoing _) (hdoing _) (fun hun => absurd hun hnot) fun j _ hf => ?_
    by_cases hje : j = e
    · subst hje
      exact Or.inr hlevel
    · exact Or.inl ((hne hje).mp hf)

private theorem Stage.holds_step (hp : p ≠ .reserved) (hp' : p' ≠ .reserved) (k : Lock) :
    (Stage.inserting label e top p').Holds k ↔ (Stage.inserting label e top p).Holds k := by
  simp [Stage.Holds, hp, hp']

private theorem Owning.label_eq {n : Nat} (h : Owning n γ) (ht : γ t = .inserting label e top p)
    {label' : LabelType} (hn : Named γ s e label') : label' = label := by
  rcases hn with ⟨v, b, q, hv⟩ | ⟨hs, -⟩
  · obtain rfl := h.inj hv ht
    cases ht.symm.trans hv
    rfl
  · exact (hs t label top p ht).elim

theorem Touches.move_own (h : Inv A (σ, γ)) (ht : γ t = .inserting label e top p)
    (htouch : Touches σ.index s' e)
    (hcrown : s'.enterpointNode = σ.index.enterpointNode ∧ s'.maxlevel = σ.index.maxlevel)
    (hres : p ≠ .reserved ∧ p' ≠ .reserved) (hp : p.Before p')
    (hfin : p' = .finished → p = .finished)
    (hq : ∀ q, q = .founding ∨ q = .raising → p ≠ q ∧ p' ≠ q)
    (hearly : p.Early top → p'.Early top)
    (hlevel : p.Filled → s'.level e = σ.index.level e)
    (hself : p'.Filled → (∀ l, s'.AtLevel l e → ListFits A s'
        (Function.update γ t (.inserting label e top p')) e l (s'.connections e l)) ∧
      (s'.isMarkedDeleted e = false ∧ ¬s'.LacksLists e) ∧
      A.allowed label (s'.getDataByInternalId e))
    (hnew : p'.Filled → A.newOnly → ∀ u, u ≠ t → ∀ label i top q, γ u = .inserting label i top q →
      ∀ l, s'.AtLevel l e → i ∈ s'.connections e l →
        σ.index.AtLevel l e ∧ p.Filled ∧ i ∈ σ.index.connections e l) :
    (protocol A).Move t (σ, γ)
      ({ σ with index := s' }, Function.update γ t (.inserting label e top p')) := by
  have hone := h.owning.others ht
  have hself_iff : ∀ {Φ : Progress → Prop},
      Owners (Function.update γ t (.inserting label e top p')) Φ e ↔ Φ p' := owners_update_self hone
  have hown : ∀ {Φ : Progress → Prop}, Φ p → Owners γ Φ e := by
    intro Φ hΦ v l b q hv
    obtain rfl := h.owning.inj hv ht
    cases ht.symm.trans hv
    exact hΦ
  have hlevel' : Filled γ e → s'.level e = σ.index.level e :=
    fun hf => hlevel (hf t label top p ht)
  refine htouch.move h (h.locking.keep s' ?_) (h.owning.step ht) (ht ▸ Continues.step hp) hlevel'
    (fun j hj hf => ?_) (fun l j _ => ?_) (fun hf _ => ?_) ?_
    (fun _ _ => ⟨hcrown.2.ge, fun _ _ _ _ => hcrown⟩) fun u hu => ⟨hone u hu, ?_⟩
  · intro k
    change _ ↔ (γ t).Holds k
    rw [ht]
    exact Stage.holds_step hres.1 hres.2 k
  · refine (owners_update_of_ne (e := e) (fun l i b q he => ?_) (fun l i b q he => ?_) hj).mp hf
    · cases ht.symm.trans he
      rfl
    · cases he
      rfl
  · refine named_update_step ht fun hs => htouch.label j ?_
    rintro rfl
    exact hs t label top p ht
  · obtain ⟨hlists, hmark, hvec⟩ := hself (hself_iff.mp hf)
    refine ⟨hlists, hmark, fun l hl => ?_⟩
    rw [h.owning.label_eq ht hl]
    exact hvec
  · exact (htouch.ruling h.ruling hcrown hlevel').step ht hp hfin hq fun _ => hearly
  · intro hn l i b q hv l' ha hf hi
    obtain ⟨ha', hp', hi'⟩ := hnew (hself_iff.mp hf) hn u hu l i b q hv l' ha hi
    exact ⟨ha', hown hp', hi'⟩

/-- A thread writes to the memory of an element that no thread is inserting. -/
theorem Touches.move_settled (h : Inv A (σ, γ)) (htouch : Touches σ.index s' e)
    (hcrown : s'.enterpointNode = σ.index.enterpointNode ∧ s'.maxlevel = σ.index.maxlevel)
    (hs : Settled γ e) (hlevel : s'.level e = σ.index.level e)
    (hlabel : s'.getExternalLabel e = σ.index.getExternalLabel e)
    (hself : e < σ.index.curElementCount →
      (∀ l, s'.AtLevel l e → ListFits A s' γ e l (s'.connections e l)) ∧
        (s'.isMarkedDeleted e = false ∧ ¬s'.LacksLists e) ∧
        ∀ label, Named γ σ.index e label → A.allowed label (s'.getDataByInternalId e))
    (hnew : A.newOnly → ∀ u, u ≠ t → ∀ label i top q, γ u = .inserting label i top q →
      ∀ l, i ∈ s'.connections e l → i ∈ σ.index.connections e l) :
    (protocol A).Move t (σ, γ) ({ σ with index := s' }, γ) := by
  have hid : Function.update γ t (γ t) = γ := Function.update_eq_self t γ
  have hlock : Locking ⟨s', σ.held⟩ (Function.update γ t (γ t)) :=
    h.locking.keep s' fun _ => Iff.rfl
  have hmove := htouch.move h hlock (by rw [hid]; exact h.owning) (.same _ _)
    (fun _ => hlevel) (fun j _ => by rw [hid]; exact id)
    (fun l j _ => by
      rw [hid]
      refine or_congr Iff.rfl (and_congr_right fun _ => ?_)
      by_cases hje : j = e
      · rw [hje, hlabel]
      · rw [htouch.label j hje])
    (fun _ he => by rw [hid]; exact hself he)
    (by rw [hid]; exact htouch.ruling h.ruling hcrown fun _ => hlevel)
    (fun _ _ => ⟨hcrown.2.ge, fun _ _ _ _ => hcrown⟩) fun u hu => ⟨hs u, ?_⟩
  · rw [hid] at hmove
    exact hmove
  · intro hn l i b q hv l' ha _ hi
    refine ⟨?_, hs.settled, hnew hn u hu l i b q hv l' hi⟩
    rwa [Index.AtLevel, htouch.curElementCount, hlevel] at ha

theorem Inv.move_crown (h : Inv A (σ, γ)) (ht : γ t = .inserting label e true p)
    (hmem : s' = { σ.index with enterpointNode := s'.enterpointNode, maxlevel := s'.maxlevel })
    (hmax : σ.index.maxlevel ≤ s'.maxlevel) (hres : p ≠ .reserved ∧ p' ≠ .reserved)
    (hp : p.Before p') (hfill : p'.Filled → p.Filled)
    (hruling : Ruling s' (Function.update γ t (.inserting label e true p'))) :
    (protocol A).Move t (σ, γ)
      ({ σ with index := s' }, Function.update γ t (.inserting label e true p')) := by
  have htouch : Touches σ.index s' e := by
    refine ⟨?_, fun i _ => ?_, fun i _ => ?_, fun i _ => ?_, fun i l _ => ?_, fun i _ hi => ?_⟩
    · rw [hmem]
    · rw [hmem]; rfl
    · rw [hmem]; rfl
    · rw [hmem]; rfl
    · rw [hmem]; rfl
    · rw [hmem]
      exact hi
  have hlists : ∀ l, s'.connections e l = σ.index.connections e l := fun l => by rw [hmem]; rfl
  have hlevel : s'.level e = σ.index.level e := by rw [hmem]; rfl
  have hcont : Continues σ.index.curElementCount (γ t) (.inserting label e true p') :=
    ht ▸ Continues.step hp
  refine htouch.move h (h.locking.keep s' ?_) (h.owning.step ht) hcont (fun _ => hlevel)
    (fun j _ hf => hf.retreat ht hfill) (fun l j _ => named_update_step ht fun _ => by rw [hmem]; rfl)
    (fun hf he => ⟨fun l ha => ?_, ⟨?_, ?_⟩, fun l hl => ?_⟩) hruling (fun u hu => ⟨hmax, ?_⟩)
    fun u hu => ⟨h.owning.others ht u hu, ?_⟩
  · intro k
    change _ ↔ (γ t).Holds k
    rw [ht]
    exact Stage.holds_step hres.1 hres.2 k
  · rw [hlists]
    have ha' : σ.index.AtLevel l e := by rwa [Index.AtLevel, htouch.curElementCount, hlevel] at ha
    exact htouch.listFits (fun _ => hlevel) (fun l j hj => hcont.owners hj fun _ _ hb => hb.shows l)
      (h.linking.lists e l ha' (hf.retreat ht hfill))
  · have hmark : s'.isMarkedDeleted e = σ.index.isMarkedDeleted e := by rw [hmem]; rfl
    rw [hmark]
    exact h.linking.unmarked e he (hf.retreat ht hfill)
  · have hlacks : s'.LacksLists e = σ.index.LacksLists e := by rw [hmem]; rfl
    rw [hlacks]
    exact h.linking.backed e he (hf.retreat ht hfill)
  · have hdata : s'.getDataByInternalId e = σ.index.getDataByInternalId e := by rw [hmem]; rfl
    rw [hdata]
    exact h.naming.vectors l e he (hf.retreat ht hfill) hl
  · exact fun l i q hu' => absurd hu' (h.locking.top_ne hu ht l i q)
  · intro _ l i b q _ l' ha hf hi
    refine ⟨?_, hf.retreat ht hfill, by rw [← hlists]; exact hi⟩
    rwa [Index.AtLevel, htouch.curElementCount, hlevel] at ha

/-- The index after `lookupOrReserve` has given the next id to `label`. -/
def reserveId (s : Index V) (label : LabelType) : Index V :=
  { s with
    curElementCount := s.curElementCount + 1
    labelLookup := fun l => if l = label then some s.curElementCount else s.labelLookup l }

section Reserve

variable {n : Nat}

/-- The stages after `t` has reserved the id `n`. -/
def reserveStage (γ : T → Stage) (t : T) (label : LabelType) (n : Nat) : T → Stage :=
  Function.update γ t (.inserting label n false .reserved)

private theorem inserting_reserve_iff (ht : γ t = .called label) {v : T} {l : LabelType} {b : Bool}
    (hi : i ≠ n) :
    reserveStage γ t label n v = .inserting l i b q ↔ γ v = .inserting l i b q := by
  unfold reserveStage
  by_cases hvt : v = t
  · subst hvt
    rw [Function.update_self, ht]
    refine ⟨fun he => ?_, fun he => ?_⟩
    · cases he
      exact absurd rfl hi
    · cases he
  · rw [Function.update_of_ne hvt]

private theorem owners_reserve_of_ne {Φ : Progress → Prop} (ht : γ t = .called label) (hi : i ≠ n) :
    Owners (reserveStage γ t label n) Φ i ↔ Owners γ Φ i :=
  forall_congr' fun v => forall_congr' fun l => forall_congr' fun b => forall_congr' fun q => by
    rw [inserting_reserve_iff ht hi]

private theorem owners_reserve_self {Φ : Progress → Prop} (h : Owning n γ) :
    Owners (reserveStage γ t label n) Φ n ↔ Φ .reserved :=
  owners_update_self fun _ _ _ _ _ hv => lt_irrefl _ (h.lt hv)

private theorem ne_of_filled_reserve (h : Owning n γ) (hf : Filled (reserveStage γ t label n) i) : i ≠ n := by
  rintro rfl
  exact (owners_reserve_self h).mp hf

private theorem doing_reserve (ht : γ t = .called label) :
    Doing q (reserveStage γ t label n) ↔ Doing q γ := by
  refine doing_update (fun l i he => ?_) fun l i he => ?_
  · cases ht.symm.trans he
  · cases he

private theorem Owning.reserve (h : Owning n γ) (ht : γ t = .called label) :
    Owning (n + 1) (reserveStage γ t label n) := by
  have hmine : ∀ {v l b q}, reserveStage γ t label n v = .inserting l n b q → v = t := by
    intro v l b q hv
    by_contra hvt
    rw [reserveStage, Function.update_of_ne hvt] at hv
    exact lt_irrefl _ (h.lt hv)
  constructor
  · intro v l i b q hv
    by_cases hi : i = n
    · rw [hi]
      exact Nat.lt_succ_self n
    · exact (h.lt ((inserting_reserve_iff ht hi).mp hv)).trans (Nat.lt_succ_self n)
  · intro v v' l l' i b b' q q' hv hv'
    by_cases hi : i = n
    · subst hi
      rw [hmine hv, hmine hv']
    · exact h.inj ((inserting_reserve_iff ht hi).mp hv) ((inserting_reserve_iff ht hi).mp hv')

variable (hn : n = s.curElementCount)
include hn

private theorem Linking.reserve (h : Linking A s γ) (howning : Owning n γ) (ht : γ t = .called label)
    (hroom : s.curElementCount < s.maxElements) :
    Linking A (reserveId s label) (reserveStage γ t label n) := by
  subst hn
  have hp := h.params
  refine ⟨⟨hp.two_le, hp.le_cap, hp.maxM, hp.maxM0, hp.efConstruction⟩, hroom, ?_, ?_, ?_,
    h.numDeleted, h.deletedElements⟩
  · intro i l ha hf
    have hi := ne_of_filled_reserve howning hf
    have ha' : s.AtLevel l i := ⟨lt_of_le_of_ne (Nat.lt_succ_iff.mp ha.1) hi, ha.2⟩
    obtain ⟨hlen, hnodup, hvalid⟩ := h.lists i l ha' ((owners_reserve_of_ne ht hi).mp hf)
    refine ⟨hlen, hnodup, fun j hj => ?_⟩
    obtain ⟨haj, hji, hs⟩ := hvalid j hj
    exact ⟨⟨haj.1.trans (Nat.lt_succ_self _), haj.2⟩, hji, (owners_reserve_of_ne ht haj.1.ne).mpr hs⟩
  · intro i hi hf
    have hin := ne_of_filled_reserve howning hf
    exact h.unmarked i (lt_of_le_of_ne (Nat.lt_succ_iff.mp hi) hin)
      ((owners_reserve_of_ne ht hin).mp hf)
  · intro i hi hf
    have hin := ne_of_filled_reserve howning hf
    exact h.backed i (lt_of_le_of_ne (Nat.lt_succ_iff.mp hi) hin)
      ((owners_reserve_of_ne ht hin).mp hf)

omit hn in
private theorem named_reserve_of_ne (ht : γ t = .called label) (hi : i ≠ n) {l : LabelType} :
    Named (reserveStage γ t label n) (reserveId s label) i l ↔ Named γ s i l := by
  refine or_congr ?_ (and_congr (owners_reserve_of_ne ht hi) Iff.rfl)
  exact exists_congr fun v => exists_congr fun b => exists_congr fun q => inserting_reserve_iff ht hi

omit hn in
private theorem named_reserve_self (h : Owning n γ) {l : LabelType} :
    Named (reserveStage γ t label n) s' n l ↔ l = label := by
  constructor
  · rintro (⟨v, b, q, hv⟩ | ⟨hs, -⟩)
    · by_cases hvt : v = t
      · subst hvt
        rw [reserveStage, Function.update_self] at hv
        cases hv
        rfl
      · rw [reserveStage, Function.update_of_ne hvt] at hv
        exact absurd (h.lt hv) (lt_irrefl _)
    · exact ((owners_reserve_self h).mp hs).elim
  · rintro rfl
    exact Or.inl ⟨t, false, .reserved, Function.update_self _ _ _⟩

private theorem Naming.reserve (h : Naming A s γ) (howning : Owning n γ) (ht : γ t = .called label)
    (hnone : s.labelLookup label = none) (hdecl : ∃ v, A.allowed label v) :
    Naming A (reserveId s label) (reserveStage γ t label n) := by
  subst hn
  constructor
  · intro l i
    change (if l = label then some s.curElementCount else s.labelLookup l) = some i ↔
      i < s.curElementCount + 1 ∧ _
    by_cases hi : i = s.curElementCount
    · subst hi
      rw [named_reserve_self howning]
      by_cases hl : l = label
      · simp [hl]
      · rw [if_neg hl, h.lookup]
        simp [hl]
    · rw [named_reserve_of_ne ht hi]
      by_cases hl : l = label
      · subst hl
        rw [if_pos rfl]
        refine ⟨fun he => absurd (Option.some.inj he).symm hi, fun he => ?_⟩
        have hlookup := (h.lookup l i).mpr ⟨lt_of_le_of_ne (Nat.lt_succ_iff.mp he.1) hi, he.2⟩
        rw [hnone] at hlookup
        cases hlookup
      · rw [if_neg hl, h.lookup]
        exact and_congr_left fun _ => ⟨fun he => he.trans (Nat.lt_succ_self _),
          fun he => lt_of_le_of_ne (Nat.lt_succ_iff.mp he) hi⟩
  · intro l i hi hf hnm
    have hin := ne_of_filled_reserve howning hf
    exact h.vectors l i (lt_of_le_of_ne (Nat.lt_succ_iff.mp hi) hin)
      ((owners_reserve_of_ne ht hin).mp hf) ((named_reserve_of_ne ht hin).mp hnm)
  · intro l i hi
    by_cases hl : l = label
    · rw [hl]
      exact hdecl
    · exact h.declared l i ((if_neg hl).symm.trans hi)
  · intro l i hi
    have hl : l ≠ label := by
      rintro rfl
      cases hnone.symm.trans (h.kept l i hi)
    exact (if_neg hl).trans (h.kept l i hi)

private theorem Ruling.reserve (h : Ruling s γ) (howning : Owning n γ) (ht : γ t = .called label) :
    Ruling (reserveId s label) (reserveStage γ t label n) := by
  subst hn
  refine ⟨h.absent, fun hun i hi => ?_, fun ep hep hnf => ?_, fun ep hep hnf hnr => ?_,
    fun i hi hfin => ?_⟩
  · rw [Founding, doing_reserve ht] at hun
    by_cases hin : i = s.curElementCount
    · exact ⟨t, label, false, .reserved, by rw [hin]; exact Function.update_self _ _ _,
        Or.inr (Or.inl rfl)⟩
    · obtain ⟨v, l, b, q, hv, hq⟩ := h.early hun i (lt_of_le_of_ne (Nat.lt_succ_iff.mp hi) hin)
      exact ⟨v, l, b, q, (inserting_reserve_iff ht hin).mpr hv, hq⟩
  · rw [Founding, doing_reserve ht] at hnf
    obtain ⟨hlt, hc, hrest⟩ := h.entry ep hep hnf
    exact ⟨hlt.trans (Nat.lt_succ_self _), (owners_reserve_of_ne ht hlt.ne).mpr hc, hrest⟩
  · rw [Founding, doing_reserve ht] at hnf
    rw [Raising, doing_reserve ht] at hnr
    exact h.exact ep hep hnf hnr
  · have hin : i ≠ s.curElementCount := by
      rintro rfl
      cases (owners_reserve_self howning).mp hfin
    exact h.le i (lt_of_le_of_ne (Nat.lt_succ_iff.mp hi) hin) ((owners_reserve_of_ne ht hin).mp hfin)

end Reserve

private theorem Rely.reserve (h : Inv A (σ, γ)) (ht : γ t = .called label)
    (hnone : σ.index.labelLookup label = none) (hnew : A.newOnly → A.reservedFor label t)
    (hu : u ≠ t) : Rely A u (σ, γ) ({ σ with index := reserveId σ.index label },
      reserveStage γ t label σ.index.curElementCount) := by
  have howning : Owning σ.index.curElementCount γ := h.owning
  have hother : ∀ {l}, l ≠ label → (reserveId σ.index label).labelLookup l = σ.index.labelLookup l :=
    fun hl => if_neg hl
  refine ⟨Function.update_of_ne hu _ _, rfl, Nat.le_succ _, fun v l i b q hi hv => ?_,
    fun _ _ _ => rfl, fun _ _ _ _ _ => ⟨rfl, rfl, rfl, fun _ => rfl⟩, ?_, le_rfl,
    fun _ _ _ _ => ⟨rfl, rfl⟩, fun l i hl => ?_, fun l hl => hother ?_, fun hn l hl => hother ?_⟩
  · exact ⟨b, q, (inserting_reserve_iff ht (ne_of_lt hi)).mp hv, .refl q⟩
  · intro _ l i b q _ o l' ha hf hi
    have ho := ne_of_filled_reserve howning hf
    exact ⟨⟨lt_of_le_of_ne (Nat.lt_succ_iff.mp ha.1) ho, ha.2⟩, (owners_reserve_of_ne ht ho).mp hf, hi⟩
  · refine (hother ?_).trans hl
    rintro rfl
    cases hnone.symm.trans hl
  · rintro rfl
    refine h.locking.label_ne hu ?_ hl
    change (γ t).label = _
    rw [ht]
    rfl
  · rintro rfl
    exact hu (A.unique hn l u t hl (hnew hn))

theorem Inv.move_reserve (h : Inv A (σ, γ)) (ht : γ t = .called label)
    (hnone : σ.index.labelLookup label = none)
    (hroom : σ.index.curElementCount < σ.index.maxElements) (hdecl : ∃ v, A.allowed label v)
    (hnew : A.newOnly → A.reservedFor label t) :
    (protocol A).Move t (σ, γ) ({ σ with index := reserveId σ.index label },
      reserveStage γ t label σ.index.curElementCount) := by
  refine ⟨⟨h.locking.keep _ fun k => ?_, h.owning.reserve ht, h.linking.reserve rfl h.owning ht hroom,
    h.naming.reserve rfl h.owning ht hnone hdecl, h.ruling.reserve rfl h.owning ht⟩,
    fun u hu => Rely.reserve h ht hnone hnew hu⟩
  change _ ↔ (γ t).Holds k
  rw [ht]
  simp [Stage.Holds]

end HnswRvv.Concurrent
