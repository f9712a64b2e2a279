import HnswRvv.Concurrent.Updating

/-!
# Inserting a point while others insert

An insertion keeps `global` as long as its level is above `maxlevel_`, so at most one thread writes
the entry point and its level. The first insertion makes element `0` the entry point before it
makes its own element that, whatever its id; until then everybody else waits.
-/

namespace HnswRvv.Concurrent

open Framework OrderDual Protocol
set_option linter.unusedSectionVars false

variable {V D T α β : Type} [Inhabited V] [LinearOrder D] [DecidableEq T] {A : Terms V T}
  {P : Platform V D} {t : T} {w w' w'' : World V T} {σ : Shared V T} {γ : T → Stage}
  {s s' s₀ : Index V} {label : LabelType} {e i ep currObj : TableInt} {top : Bool}
  {p p' q : Progress} {l lvl fuel : Nat} {m : Int} {x : V} {c : Choices}
  {E : Failure → World V T → Prop} {k : Lock}

/-- After a call for `label`: settings and known labels are as before, and so is what the thread
will add later. -/
structure Keeps (A : Terms V T) (t : T) (label : LabelType) (s s' : Index V) : Prop where
  settings : settings s' = settings s
  known : ∀ l i, s.labelLookup l = some i → s'.labelLookup l = some i
  reserved : A.newOnly → ∀ l, l ≠ label → A.reservedFor l t → s'.labelLookup l = s.labelLookup l

namespace Keeps

theorem trans {s'' : Index V} (h : Keeps A t label s s') (h' : Keeps A t label s' s'') :
    Keeps A t label s s'' where
  settings := h'.settings.trans h.settings
  known l i hl := h'.known l i (h.known l i hl)
  reserved hn l hl hr := (h'.reserved hn l hl hr).trans (h.reserved hn l hl hr)

theorem of_ahead (h : Ahead A t w w') : Keeps A t label w.1.index w'.1.index where
  settings := h.settings
  known := h.known
  reserved hn l _ hr := h.reserved hn l hr

theorem of_rely (h : Rely A t w w') : Keeps A t label w.1.index w'.1.index := of_ahead (.of_rely h)

theorem of_same (hs : Concurrent.settings s' = Concurrent.settings s)
    (hl : s'.labelLookup = s.labelLookup) : Keeps A t label s s' where
  settings := hs
  known _ _ h := by rw [hl]; exact h
  reserved _ l _ _ := congrFun hl l

theorem maxElements (h : Keeps A t label s s') : s'.maxElements = s.maxElements :=
  maxElements_of_settings h.settings

end Keeps

/-- `t` is inserting `e` into the index that was `s₀` when it began. -/
structure Inserts (A : Terms V T) (t : T) (label : LabelType) (e : TableInt) (top : Bool)
    (p : Progress) (lvl : Nat) (s₀ : Index V) (w : World V T) : Prop where
  stage : w.2 t = .inserting label e top p
  level : w.1.index.level e = lvl
  keeps : Keeps A t label s₀ w.1.index

theorem Inserts.rely (h : Inserts A t label e top p lvl s₀ w) (hr : Rely A t w w') :
    Inserts A t label e top p lvl s₀ w' :=
  ⟨hr.stage.trans h.stage, (hr.own label e top p h.stage).1.trans h.level,
    h.keeps.trans (.of_rely hr)⟩

theorem Inserts.ahead (h : Inserts A t label e top p lvl s₀ w) (ha : Ahead A t w w')
    (hstage : w'.2 t = .inserting label e top p') : Inserts A t label e top p' lvl s₀ w' := by
  obtain ⟨_, -, -, hlevel, -⟩ := ha.mine label e top p h.stage
  exact ⟨hstage, hlevel.trans h.level, h.keeps.trans (.of_ahead ha)⟩

private theorem Progress.Awaits.rank_le (h : p.Awaits l) : p.rank ≤ toLex (1, 0) := by
  cases p with
  | blank => exact le_rfl
  | linked l' => exact (Prod.Lex.toLex_lt_toLex.mpr (Or.inl Nat.zero_lt_one)).le
  | _ => exact h.elim

private theorem does_insertLevels_cons {n : Nat} {rest : List Nat} {Q : Unit → World V T → Prop}
    (h : Inserts A t label e top p lvl s₀ w) (hp : p.Awaits n)
    (hfuel : w.1.index.maxElements ≤ fuel) (hn : (n : Int) ≤ m) (hlvl : n ≤ lvl)
    (hblank : ∀ l ≤ n, w.1.index.getLinklistAtLevel e l = default) (hcur : RestsAt w n currObj)
    (hrest : ∀ next w', Ahead A t w w' → w'.2 t = .inserting label e top (.linked n) →
      (∀ l < n, w'.1.index.getLinklistAtLevel e l = default) → RestsAt w' n next →
      Does A t Q E (insertLevels P fuel x e ep false m rest next) w') :
    Does A t Q E (insertLevels P fuel x e ep false m (n :: rest) currObj) w := by
  rw [insertLevels, if_neg (not_lt.mpr hn)]
  have hrank : toLex (0, n) < (w.2 t).rank := by
    rw [h.stage, Stage.rank_inserting_of_le label e top hp.rank_le]
    exact hp.rank_lt
  refine satE_bind (satE_mono (does_searchBaseLayer hfuel hcur hrank) (fun found w₁ _ h₁ => ?_)
    fun _ _ _ he => he)
  obtain ⟨hr, hfound⟩ := h₁
  have hins := h.rely hr
  rw [withEntryPoint, if_neg Bool.false_ne_true, pure_bind]
  refine satE_bind (satE_mono (does_connectNew hins.stage hp (by rw [hins.level]; exact hlvl)
    (fun l hl => ?_) hfound) (fun next w₂ _ h₂ => ?_) fun _ _ _ he => he)
  · rw [(hr.own label e top p h.stage).2.2.2]
    exact hblank l hl
  · obtain ⟨ha, hstage, hblank', hnext⟩ := h₂
    exact hrest next w₂ ((Ahead.of_rely hr).trans ha) hstage hblank' hnext

private theorem does_insertLevels (n : Nat) (h : Inserts A t label e top p lvl s₀ w) (hp : p.Awaits n)
    (hfuel : w.1.index.maxElements ≤ fuel) (hn : (n : Int) ≤ m) (hlvl : n ≤ lvl)
    (hblank : ∀ l ≤ n, w.1.index.getLinklistAtLevel e l = default) (hcur : RestsAt w n currObj) :
    Does A t (fun _ w' => Ahead A t w w' ∧ w'.2 t = .inserting label e top (.linked 0)) E
      (insertLevels P fuel x e ep false m (List.range (n + 1)).reverse currObj) w := by
  induction n generalizing w currObj p with
  | zero =>
    refine does_insertLevels_cons h hp hfuel hn hlvl hblank hcur fun next w₁ ha hstage _ _ => ?_
    exact satE_pure fun w' _ hr => ⟨ha.trans (.of_rely hr), hr.stage.trans hstage⟩
  | succ n ih =>
    rw [List.range_succ, List.reverse_append, List.reverse_singleton, List.singleton_append]
    refine does_insertLevels_cons h hp hfuel hn hlvl hblank hcur
      fun next w₁ ha hstage hblank' hnext => ?_
    refine satE_mono (ih (h.ahead ha hstage) (Nat.lt_succ_self n)
      (by rw [ha.maxElements]; exact hfuel) (by omega) (by omega)
      (fun l hl => hblank' l (Nat.lt_succ_of_le hl)) (hnext.mono (Nat.le_succ n)))
      (fun _ _ _ h' => ⟨ha.trans h'.1, h'.2⟩) fun _ _ _ he => he

theorem touches_setLevel (s : Index V) (e : TableInt) (lvl : Nat) :
    Touches s (setLevel e lvl s) e where
  fields := rfl
  level _ hi := Memory.read_write_of_ne _ _ hi
  data _ _ := rfl
  label _ _ := rfl
  list _ _ _ := rfl
  lists _ _ h := h

private theorem touches_initRecord (s : Index V) (x : V) (label : LabelType) (e : TableInt) :
    Touches s (initRecord x label e s) e where
  fields := rfl
  level _ _ := rfl
  data i hi := congrArg Element.data (Memory.read_write_of_ne _ _ hi)
  label i hi := congrArg Element.label (Memory.read_write_of_ne _ _ hi)
  list i l hi := by
    unfold Index.getLinklistAtLevel initRecord
    rw [Memory.read_write_of_ne _ _ hi]
  lists _ _ h := h

private theorem touches_allocateLinkLists (s : Index V) (e : TableInt) (lvl : Nat) :
    Touches s (s.allocateLinkLists e lvl) e where
  fields := rfl
  level _ _ := rfl
  data _ _ := rfl
  label _ _ := rfl
  list i l hi := by
    unfold Index.getLinklistAtLevel Index.allocateLinkLists
    rw [Memory.read_write_of_ne _ _ hi]
  lists i hi h := by
    rw [Index.allocateLinkLists, Memory.read_write_of_ne _ _ hi]
    exact h

/-- The new element has its record, and its lists are blank. -/
structure Written (label : LabelType) (e : TableInt) (x : V) (lvl : Nat) (s : Index V) : Prop where
  data : s.getDataByInternalId e = x
  name : s.getExternalLabel e = label
  blank : ∀ l ≤ lvl, s.getLinklistAtLevel e l = default

private theorem written_initRecord (s : Index V) (x : V) (label : LabelType) (e : TableInt) :
    Written label e x 0 (initRecord x label e s) := by
  have hread : (s.dataLevel0Memory.write e ⟨default, x, label⟩).read e = ⟨default, x, label⟩ := by
    rw [Memory.read_write, if_pos rfl]
  refine ⟨congrArg Element.data hread, congrArg Element.label hread, fun l hl => ?_⟩
  rw [Index.getLinklistAtLevel, if_pos (Nat.le_zero.mp hl)]
  exact congrArg Element.linklist0 hread

theorem Written.allocateLinkLists (h : Written label e x 0 s) (lvl : Nat) :
    Written label e x lvl (s.allocateLinkLists e lvl) := by
  refine ⟨h.data, h.name, fun l _ => ?_⟩
  have hzero := h.blank 0 le_rfl
  unfold Index.getLinklistAtLevel Index.allocateLinkLists at *
  split
  · rwa [if_pos rfl] at hzero
  · rw [Memory.read_write, if_pos rfl, Memory.read_fill_default]

theorem Written.rely (h : Written label e x l w.1.index) (ht : w.2 t = .inserting label e top p)
    (hr : Rely A t w w') : Written label e x l w'.1.index := by
  obtain ⟨-, hd, hn, hl⟩ := hr.own label e top p ht
  exact ⟨hd.trans h.data, hn.trans h.name, fun l' hl' => (hl l').trans (h.blank l' hl')⟩

theorem Written.move {s' : Index V} (hw : Written label e x lvl s') (hi : Inv A (σ, γ))
    (ht : γ t = .inserting label e top .passed) (htouch : Touches σ.index s' e)
    (hcrown : s'.enterpointNode = σ.index.enterpointNode ∧ s'.maxlevel = σ.index.maxlevel)
    (hlevel : s'.level e = lvl) (hlists : lvl ≠ 0 → s'.linkLists.read e ≠ default)
    (hx : A.allowed label x) :
    (protocol A).Move t (σ, γ)
      ({ σ with index := s' }, Function.update γ t (.inserting label e top .blank)) := by
  have hconn : ∀ l, s'.AtLevel l e → s'.connections e l = [] := fun l ha => by
    rw [Index.connections, hw.blank l (hlevel ▸ ha.2)]
    rfl
  refine htouch.move_own hi ht hcrown ⟨by decide, by decide⟩
    ⟨fun _ hs => hs.elim, fun hf => hf.elim, fun hc => hc.elim, fun hf => by cases hf⟩
    (fun hf => by cases hf) ?_ ?_ (fun hf => hf.elim) (fun _ => ⟨fun l ha => ?_,
      ⟨?_, fun hlacks => hlists (hlevel ▸ hlacks.1) hlacks.2⟩, ?_⟩)
    fun _ _ u _ label' i b q _ l ha hm => ?_
  · rintro q (rfl | rfl) <;> exact ⟨by decide, by decide⟩
  · rintro (htop | hf | hf)
    · exact Or.inl htop
    · cases hf
    · cases hf
  · rw [hconn l ha]
    exact ⟨Nat.zero_le _, fun _ => List.nodup_nil, fun j hj => absurd hj List.not_mem_nil⟩
  · rw [Index.isMarkedDeleted, hw.blank 0 (Nat.zero_le lvl), LinkList.isMarked_default]
  · rw [hw.data]
    exact hx
  · rw [hconn l ha] at hm
    exact absurd hm List.not_mem_nil

theorem Inv.move_hidden {s' : Index V} (hi : Inv A (σ, γ)) (ht : γ t = .inserting label e top p)
    (hp : p = .locked ∨ p = .passed) (htouch : Touches σ.index s' e)
    (hcrown : s'.enterpointNode = σ.index.enterpointNode ∧ s'.maxlevel = σ.index.maxlevel) :
    (protocol A).Move t (σ, γ)
      ({ σ with index := s' }, Function.update γ t (.inserting label e top p)) := by
  have hfilled : ¬ p.Filled := by rcases hp with rfl | rfl <;> exact id
  refine htouch.move_own hi ht hcrown ?_ (.refl p) id (fun q hq => ?_) id
    (fun hf => absurd hf hfilled) (fun hf => absurd hf hfilled) fun hf => absurd hf hfilled
  · rcases hp with rfl | rfl <;> exact ⟨by decide, by decide⟩
  · rcases hp with rfl | rfl <;> rcases hq with rfl | rfl <;>
      exact ⟨by decide, by decide⟩

private theorem does_writeRecord (h : Inserts A t label e top .passed lvl s₀ w) (hx : A.allowed label x)
    (hmalloc : c.malloc = true) :
    Does A t (fun _ w' => Ahead A t w w' ∧ w'.2 t = .inserting label e top .blank ∧
      Written label e x lvl w'.1.index) E (writeRecord c x label e lvl) w := by
  rw [writeRecord]
  refine does_access fun w₁ hi₁ hr₁ => ?_
  have h₁ := h.rely hr₁
  obtain ⟨σ, γ⟩ := w₁
  have ht₁ : γ t = .inserting label e top .passed := h₁.stage
  have hwritten := written_initRecord σ.index x label e
  have htouch := touches_initRecord σ.index x label e
  have hahead : ∀ p', Progress.Before .passed p' → Ahead A t (σ, γ)
      ({ σ with index := initRecord x label e σ.index },
        Function.update γ t (.inserting label e top p')) := fun p' hp' =>
    .of_touches htouch ⟨rfl, rfl⟩ rfl (fun label' top' p hp hf => by
      cases ht₁.symm.trans hp
      exact hf.elim) (Or.inr ⟨label, e, top, .passed, p', ht₁, rfl, hp'⟩)
  have hblank : Progress.Before .passed .blank :=
    ⟨fun _ hs => hs.elim, fun hf => hf.elim, fun hc => hc.elim, fun hf => by cases hf⟩
  rw [wp_modify]
  by_cases hlvl : lvl = 0
  · -- without upper levels the record is complete
    subst hlvl
    refine ⟨_, hwritten.move hi₁ ht₁ htouch ⟨rfl, rfl⟩ h₁.level (absurd rfl) hx, ?_⟩
    rw [if_neg (not_not.mpr rfl)]
    refine satE_pure fun w' _ hr' => ?_
    have hself : Function.update γ t (.inserting label e top .blank) t =
      .inserting label e top .blank := Function.update_self _ _ _
    exact ⟨(Ahead.of_rely hr₁).trans ((hahead .blank hblank).trans (.of_rely hr')),
      hr'.stage.trans hself, hwritten.rely hself hr'⟩
  · refine ⟨_, hi₁.move_hidden ht₁ (Or.inr rfl) htouch ⟨rfl, rfl⟩, ?_⟩
    rw [if_pos hlvl, hmalloc, if_neg Bool.false_ne_true.symm]
    refine does_last (does_access fun w₂ hi₂ hr₂ => ?_)
    have hself : Function.update γ t (.inserting label e top .passed) t =
      .inserting label e top .passed := Function.update_self _ _ _
    have ha₂ := ((Ahead.of_rely hr₁).trans (hahead .passed (.refl _))).trans (.of_rely hr₂)
    have hwritten₂ := hwritten.rely hself hr₂
    have h₂ := h.ahead ha₂ (hr₂.stage.trans hself)
    obtain ⟨σ₂, γ₂⟩ := w₂
    have ht₂ : γ₂ t = .inserting label e top .passed := h₂.stage
    have htouch₂ := touches_allocateLinkLists σ₂.index e lvl
    have hall := hwritten₂.allocateLinkLists lvl
    have hlists : lvl ≠ 0 → (σ₂.index.allocateLinkLists e lvl).linkLists.read e ≠ default := by
      intro _
      rw [Index.allocateLinkLists, Memory.read_write_self]
      exact Memory.fill_ne_default hlvl _
    rw [wp_modify]
    refine ⟨_, hall.move hi₂ ht₂ htouch₂ ⟨rfl, rfl⟩ h₂.level hlists hx,
      satE_pure fun w' _ hr' => ?_⟩
    have hself₂ : Function.update γ₂ t (.inserting label e top .blank) t =
      .inserting label e top .blank := Function.update_self _ _ _
    have hahead₂ : Ahead A t (σ₂, γ₂) (_, Function.update γ₂ t (.inserting label e top .blank)) :=
      .of_touches htouch₂ ⟨rfl, rfl⟩ rfl (fun _ _ _ _ _ => rfl)
        (Or.inr ⟨label, e, top, .passed, .blank, ht₂, rfl, hblank⟩)
    exact ⟨ha₂.trans (hahead₂.trans (.of_rely hr')), hr'.stage.trans hself₂, hall.rely hself₂ hr'⟩

section Crown

private theorem Locking.doing_update_iff (h : Locking σ γ) (ht : γ t = .inserting label e true p) :
    Doing q (Function.update γ t (.inserting label e true p')) ↔ p' = q := by
  constructor
  · rintro ⟨u, l, i, hu⟩
    by_cases hut : u = t
    · subst hut
      rw [Function.update_self] at hu
      cases hu
      rfl
    · rw [Function.update_of_ne hut] at hu
      exact absurd hu (h.top_ne hut ht l i q)
  · rintro rfl
    exact ⟨t, label, e, Function.update_self _ _ _⟩

theorem Locking.doing_iff (h : Locking σ γ) (ht : γ t = .inserting label e true p) :
    Doing q γ ↔ p = q := by
  have hiff : Doing q (Function.update γ t (.inserting label e true p)) ↔ p = q :=
    h.doing_update_iff ht
  rwa [← ht, Function.update_eq_self] at hiff

theorem Ruling.unfinished (h : Ruling s γ) (hlock : Locking σ γ)
    (ht : γ t = .inserting label e true p) (hstart : s.enterpointNode = none ∨ Founding γ)
    (hi : i < s.curElementCount) (hne : i ≠ e) : ¬ Owners γ (· = .finished) i := by
  intro hfin
  obtain ⟨u, l, b, q, hu, hearly⟩ := h.early hstart i hi
  have hut : u ≠ t := by
    rintro rfl
    cases hu.symm.trans ht
    exact hne rfl
  rcases hearly with rfl | rfl | rfl
  · exact hlock.top_ne hut ht l i q hu
  · cases hfin u l b _ hu
  · cases hfin u l b _ hu

private theorem owners_step_iff {Φ : Progress → Prop} (ht : γ t = .inserting label e top p) (hne : i ≠ e) :
    Owners (Function.update γ t (.inserting label e top p')) Φ i ↔ Owners γ Φ i :=
  owners_update_of_ne (fun _ _ _ _ h => by cases ht.symm.trans h; rfl)
    (fun _ _ _ _ h => by cases h; rfl) hne

variable {o o' : Option TableInt} {mx mx' : Int}

theorem Ruling.found (h : Ruling s γ) (hlock : Locking σ γ) (ht : γ t = .inserting label e true p)
    (hstart : s.enterpointNode = none ∨ Founding γ) (ho : o' ≠ none) :
    Ruling { s with enterpointNode := o', maxlevel := mx' }
      (Function.update γ t (.inserting label e true .founding)) := by
  have hfound : Founding (Function.update γ t (.inserting label e true .founding)) :=
    (hlock.doing_update_iff ht).mpr rfl
  refine ⟨fun hn => absurd hn ho, fun _ i hi => ?_, fun _ _ hn => absurd hfound hn,
    fun _ _ hn => absurd hfound hn, fun i hi hfin => ?_⟩
  · obtain ⟨u, l, b, q, hu, hearly⟩ := h.early hstart i hi
    by_cases hut : u = t
    · subst hut
      cases hu.symm.trans ht
      exact ⟨u, label, true, .founding, Function.update_self _ _ _, Or.inl rfl⟩
    · exact ⟨u, l, b, q, (Function.update_of_ne hut _ _).trans hu, hearly⟩
  · by_cases hie : i = e
    · cases hfin t label true .founding (by rw [Function.update_self, hie])
    · exact absurd ((owners_step_iff ht hie).mp hfin) (h.unfinished hlock ht hstart hi hie)

private theorem Ruling.crown (hlock : Locking σ γ) (ht : γ t = .inserting label e true p)
    (he : e < s.curElementCount)
    (hle : ∀ i, i < s.curElementCount → i ≠ e → Owners γ (· = .finished) i →
      (s.level i : Int) ≤ s.level e) (howning : Owning s.curElementCount γ) :
    Ruling { s with enterpointNode := some e, maxlevel := s.level e }
      (Function.update γ t (.inserting label e true .finished)) := by
  have hdoing : ∀ q, Progress.finished ≠ q →
      ¬ Doing q (Function.update γ t (.inserting label e true .finished)) :=
    fun q hq hd => hq ((hlock.doing_update_iff ht).mp hd)
  refine ⟨fun hn => absurd hn (Option.some_ne_none e), fun hf => ?_, fun ep hep _ => ?_, fun ep hep _ _ => ?_,
    fun i hi hfin => ?_⟩
  · rcases hf with hf | hf
    · cases hf
    · exact absurd hf (hdoing .founding (by decide))
  · cases hep
    exact ⟨he, (owners_update_self (howning.others ht)).mpr trivial, Int.natCast_nonneg _, le_rfl⟩
  · cases hep
    rfl
  · by_cases hie : i = e
    · subst hie
      exact le_rfl
    · exact hle i hi hie ((owners_step_iff ht hie).mp hfin)

/-- The new element replaces the entry point; `maxlevel_` is still that of the old one. -/
theorem Ruling.raise (h : Ruling s γ) (hlock : Locking σ γ) (ht : γ t = .inserting label e true p)
    (hp : p ≠ .founding) (hep : s.enterpointNode = some ep) (he : e < s.curElementCount)
    (hlevel : s.maxlevel < s.level e) (howning : Owning s.curElementCount γ) :
    Ruling { s with enterpointNode := some e }
      (Function.update γ t (.inserting label e true .raising)) := by
  have hfound : ¬ Founding γ := fun hd => hp ((hlock.doing_iff ht).mp hd)
  have hraise : Raising (Function.update γ t (.inserting label e true .raising)) :=
    (hlock.doing_update_iff ht).mpr rfl
  refine ⟨fun hn => absurd hn (Option.some_ne_none e), fun hf => ?_, fun ep' hep' _ => ?_,
    fun _ _ _ hn => absurd hraise hn, fun i hi hfin => ?_⟩
  · rcases hf with hf | hf
    · cases hf
    · cases (hlock.doing_update_iff ht).mp hf
  · cases hep'
    exact ⟨he, (owners_update_self (howning.others ht)).mpr trivial,
      (h.entry ep hep hfound).2.2.1, hlevel.le⟩
  · by_cases hie : i = e
    · cases hfin t label true .raising (by rw [Function.update_self, hie])
    · exact h.le i hi ((owners_step_iff ht hie).mp hfin)

/-- `t` holds `global`; the entry point is `o` and `maxlevel_` is `mx`. -/
structure Reigns (A : Terms V T) (t : T) (label : LabelType) (e : TableInt) (p : Progress)
    (lvl : Nat) (o : Option TableInt) (mx : Int) (s₀ : Index V) (w : World V T) : Prop extends
    Inserts A t label e true p lvl s₀ w where
  name : w.1.index.getExternalLabel e = label
  entry : w.1.index.enterpointNode = o
  maxlevel : w.1.index.maxlevel = mx

theorem Reigns.rely (h : Reigns A t label e p lvl o mx s₀ w) (hr : Rely A t w w') :
    Reigns A t label e p lvl o mx s₀ w' :=
  ⟨h.toInserts.rely hr, (hr.own label e true p h.stage).2.2.1.trans h.name,
    (hr.top label e p h.stage).1.trans h.entry, (hr.top label e p h.stage).2.trans h.maxlevel⟩

private theorem does_reign {f : Unit → Task V T β} {g : Index V → Index V} {Q : β → World V T → Prop}
    (p' : Progress) (o' : Option TableInt) (mx' : Int)
    (h : Reigns A t label e p lvl o mx s₀ w)
    (hg : ∀ s, s.enterpointNode = o → s.maxlevel = mx →
      g s = { s with enterpointNode := o', maxlevel := mx' })
    (hmax : mx ≤ mx') (hb : p.Before p') (hfill : p.Filled) (hres : p' ≠ .reserved)
    (hruling : ∀ σ γ, Inv A (σ, γ) → Reigns A t label e p lvl o mx s₀ (σ, γ) →
      Ruling { σ.index with enterpointNode := o', maxlevel := mx' }
        (Function.update γ t (.inserting label e true p')))
    (hf : ∀ w', Reigns A t label e p' lvl o' mx' s₀ w' → Does A t Q E (f ()) w') :
    Does A t Q E (access (modify g) >>= f) w := by
  refine does_access fun w₁ hi₁ hr₁ => ?_
  have h₁ := h.rely hr₁
  obtain ⟨σ, γ⟩ := w₁
  rw [wp_modify, hg σ.index h₁.entry h₁.maxlevel]
  have hne : p ≠ .reserved := fun he => by rw [he] at hfill; exact hfill
  refine ⟨_, hi₁.move_crown h₁.stage rfl (h₁.maxlevel.trans_le hmax) ⟨hne, hres⟩ hb
    (fun _ => hfill) (hruling σ γ hi₁ h₁), hf _ ?_⟩
  exact ⟨⟨Function.update_self _ _ _, h₁.level, h₁.keeps.trans (.of_same rfl rfl)⟩, h₁.name, rfl, rfl⟩

private theorem does_raiseEnterpoint (h : Reigns A t label e (.linked 0) lvl (some ep) m s₀ w)
    (hm : m < lvl) :
    Does A t (fun _ w' => Reigns A t label e .finished lvl (some e) lvl s₀ w') E
      (raiseEnterpoint e lvl m) w := by
  rw [raiseEnterpoint, if_pos hm]
  refine does_reign .raising (some e) m h
    (fun s _ hmx => by rw [← hmx]; rfl) le_rfl
    ⟨fun _ _ => trivial, fun _ => trivial, fun _ => trivial, fun hf => by cases hf⟩ trivial (by decide)
    (fun σ γ hi h₁ => ?_) fun w₁ h₁ => ?_
  · have hmx : σ.index.maxlevel = m := h₁.maxlevel
    have hlevel : σ.index.level e = lvl := h₁.level
    have hr := hi.ruling.raise hi.locking h₁.stage (by decide) h₁.entry (hi.owning.lt h₁.stage)
      (by rw [hmx, hlevel]; exact hm) hi.owning
    rwa [← hmx]
  · refine does_last (does_reign .finished (some e) lvl h₁
      (fun s ho _ => by rw [← ho]; rfl) hm.le
      ⟨fun _ _ => trivial, fun _ => trivial, fun _ => trivial, fun hf => by cases hf⟩ trivial
      (by decide) (fun σ γ hi h₂ => ?_) fun w₂ h₂ => satE_pure fun w' _ hr => h₂.rely hr)
    have hmx : σ.index.maxlevel = m := h₂.maxlevel
    have hlevel : σ.index.level e = lvl := h₂.level
    have hr := Ruling.crown hi.locking h₂.stage (hi.owning.lt h₂.stage) (fun i hlt _ hfin => by
      have hle : (σ.index.level i : Int) ≤ σ.index.maxlevel := hi.ruling.le i hlt hfin
      change (σ.index.level i : Int) ≤ σ.index.level e
      omega) hi.owning
    rwa [hlevel] at hr

private theorem does_foundEnterpoint (h : Reigns A t label e .blank lvl none (-1) s₀ w) {ep : TableInt} :
    Does A t (fun _ w' => Reigns A t label e .finished lvl (some e) lvl s₀ w') E
      (linkBelow P fuel x e lvl (-1) ep none >>= fun _ => raiseEnterpoint e lvl (-1)) w := by
  have hpos : (-1 : Int) < lvl := by omega
  have hbefore : ∀ p', Progress.Before .blank p' ↔ p'.Filled := fun p' =>
    ⟨fun hb => hb.filled trivial, fun hf => ⟨fun _ hs => hs.elim, fun _ => hf, fun hc => hc.elim,
      fun he => by cases he⟩⟩
  have hfin : Progress.Before .founding .finished :=
    ⟨fun _ _ => trivial, fun _ => trivial, fun _ => trivial, fun hf => by cases hf⟩
  rw [linkBelow, bind_assoc]
  refine does_reign .founding (some 0) (-1) h (fun s _ hmx => by rw [← hmx]; rfl)
    le_rfl ((hbefore _).mpr trivial) trivial (by decide)
    (fun σ γ hi h₁ => hi.ruling.found hi.locking h₁.stage (Or.inl h₁.entry) (Option.some_ne_none 0))
    fun w₁ h₁ => ?_
  refine does_reign .founding (some 0) lvl h₁ (fun s ho _ => by rw [← ho]; rfl)
    hpos.le (.refl _) trivial (by decide) (fun σ γ hi h₂ => hi.ruling.found hi.locking h₂.stage
      (Or.inr ((hi.locking.doing_iff h₂.stage).mpr rfl)) (Option.some_ne_none 0)) fun w₂ h₂ => ?_
  rw [raiseEnterpoint, if_pos hpos]
  refine does_reign .finished (some e) lvl h₂
    (fun s _ hmx => by rw [← hmx]; rfl) le_rfl hfin trivial (by decide) (fun σ γ hi h₃ => ?_)
    fun w₃ h₃ => ?_
  · have hlevel : σ.index.level e = lvl := h₃.level
    have hr := Ruling.crown hi.locking h₃.stage (hi.owning.lt h₃.stage) (fun i hlt hne hf =>
      absurd hf (hi.ruling.unfinished hi.locking h₃.stage
        (Or.inr ((hi.locking.doing_iff h₃.stage).mpr rfl)) hlt hne)) hi.owning
    rwa [hlevel] at hr
  · -- `maxlevel_` has this value already
    refine does_last (does_reign .finished (some e) lvl h₃
      (fun s ho _ => by rw [← ho]; rfl) le_rfl (.refl _) trivial (by decide) (fun σ γ hi h₄ => ?_)
      fun w₄ h₄ => satE_pure fun w' _ hr => h₄.rely hr)
    have hself : Function.update γ t (.inserting label e true .finished) = γ := by
      rw [← h₄.stage]
      exact Function.update_eq_self t γ
    have hsame : { σ.index with enterpointNode := some e, maxlevel := (lvl : Int) } = σ.index := by
      rw [← h₄.entry, ← h₄.maxlevel]
    rw [hself, hsame]
    exact hi.ruling

end Crown

section Link

variable {pool : Finset V} (hpool : ∀ label v, A.allowed label v → v ∈ pool)
include hpool

private theorem does_linkBelow (h : Inserts A t label e top .blank lvl s₀ w)
    (hw : Written label e x lvl w.1.index) (hcard : pool.card < fuel)
    (hfuel : w.1.index.maxElements ≤ fuel) (hm : 0 ≤ m) (hep : RestsAt w m.toNat ep)
    (hcopy : RestsAt w 0 i) :
    Does A t (fun _ w' => Ahead A t w w' ∧ w'.2 t = .inserting label e top (.linked 0)) E
      (linkBelow P fuel x e lvl m i (some ep)) w := by
  rw [linkBelow]
  have hrank : toLex (1, 0) ≤ (w.2 t).rank := by
    rw [h.stage, Stage.rank_inserting_of_le label e top le_rfl]
    exact le_rfl
  refine satE_bind (satE_mono (does_descendFrom hpool hcard lvl hep hrank)
    (fun currObj w₁ _ h₁ => ?_) fun _ _ _ he => he)
  obtain ⟨hr₁, hcur⟩ := h₁
  refine does_read (g := fun s => s.isMarkedDeleted i) (fun _ => rfl) fun w₂ hi₂ hr₂ => ?_
  have hr := hr₁.trans hr₂
  have hcopy₂ := hcopy.rely hr
  have hw₂ := hw.rely h.stage hr
  rw [hi₂.linking.unmarked i hcopy₂.1.1 hcopy₂.stands.2.shown_filled]
  have hlist : (min (lvl : Int) m + 1).toNat = min m.toNat lvl + 1 := by omega
  rw [hlist]
  refine satE_mono (does_insertLevels (min m.toNat lvl) (h.rely hr) trivial
    (by rw [(Ahead.of_rely hr).maxElements]; exact hfuel) (by omega) (min_le_right _ _)
    (fun l hl => hw₂.blank l (hl.trans (min_le_right _ _))) (hcur.rely hr₂))
    (fun _ _ _ h' => ⟨(Ahead.of_rely hr).trans h'.1, h'.2⟩) fun _ _ _ he => he

theorem does_linkElement_low (h : Inserts A t label e false .passed lvl s₀ w)
    (hx : A.allowed label x) (hmalloc : c.malloc = true) (hcard : pool.card < fuel)
    (hfuel : w.1.index.maxElements ≤ fuel) (hlvl : (lvl : Int) ≤ m) (hm : m ≤ w.1.index.maxlevel) :
    Does A t (fun _ w' => Inserts A t label e false (.linked 0) lvl s₀ w' ∧
        w'.1.index.getExternalLabel e = label ∧ (lvl : Int) ≤ w'.1.index.maxlevel) E
      (linkElement P fuel c x label e lvl m) w := by
  rw [linkElement]
  -- `global` has been passed, so there is an entry point each time it is read
  have hentry : ∀ w', Inv A w' → Rely A t w w' → ∃ ep, w'.1.index.enterpointNode = some ep ∧
      0 ≤ w'.1.index.maxlevel ∧ RestsAt w' w'.1.index.maxlevel.toNat ep := by
    intro w' hi hr
    have ht := (h.rely hr).stage
    refine hi.entry_rests (hi.owning.lt ht) fun u l b q hu => ?_
    cases hi.owning.inj hu ht
    cases hu.symm.trans ht
    rintro (hf | hf | hf) <;> cases hf
  refine does_read (g := fun s => s.enterpointNode) (fun _ => rfl) fun w₁ hi₁ hr₁ => ?_
  obtain ⟨ep, hep, -, hrest⟩ := hentry w₁ hi₁ hr₁
  refine does_read (g := fun s => s.entry) (fun _ => rfl) fun w₂ hi₂ hr₂ => ?_
  obtain ⟨ep₂, hep₂, -, hrest₂⟩ := hentry w₂ hi₂ (hr₁.trans hr₂)
  have hcopy : w₂.1.index.entry = ep₂ := by rw [Index.entry, hep₂, Option.getD_some]
  have hr := hr₁.trans hr₂
  have hmax := hr₁.maxlevel_le
  rw [hep, hcopy]
  refine satE_bind (satE_mono (does_writeRecord (h.rely hr) hx hmalloc) (fun _ w₃ _ h₃ => ?_)
    fun _ _ _ he => he)
  obtain ⟨ha₃, hstage₃, hw₃⟩ := h₃
  have h₃ := (h.rely hr).ahead ha₃ hstage₃
  have hall₃ := (Ahead.of_rely hr).trans ha₃
  have hrest₃ : RestsAt w₁ m.toNat ep := hrest.mono (by omega)
  refine satE_bind (satE_mono (does_linkBelow hpool h₃ hw₃ hcard
    (by rw [hall₃.maxElements]; exact hfuel) (by omega) (ha₃.restsAt (hrest₃.rely hr₂))
    (ha₃.restsAt (hrest₂.mono (Nat.zero_le _)))) (fun _ w₄ _ h₄ => ?_) fun _ _ _ he => he)
  obtain ⟨ha₄, hstage₄⟩ := h₄
  rw [raiseEnterpoint, if_neg (not_lt.mpr hlvl)]
  refine satE_pure fun w' _ hr' => ?_
  have hlast := ha₄.trans (.of_rely hr')
  have hstage' := hr'.stage.trans hstage₄
  obtain ⟨_, -, -, -, hname⟩ := hlast.mine label e false .blank hstage₃
  refine ⟨h₃.ahead hlast hstage', (hname trivial).trans hw₃.name, ?_⟩
  have := (hall₃.trans hlast).maxlevel_le
  omega

theorem does_linkElement_top (h : Inserts A t label e true .passed lvl s₀ w)
    (hx : A.allowed label x) (hmalloc : c.malloc = true) (hcard : pool.card < fuel)
    (hfuel : w.1.index.maxElements ≤ fuel) (hlvl : w.1.index.maxlevel < lvl) :
    Does A t (fun _ w' => Reigns A t label e .finished lvl (some e) lvl s₀ w') E
      (linkElement P fuel c x label e lvl w.1.index.maxlevel) w := by
  rw [linkElement]
  refine does_read (g := fun s => s.enterpointNode) (fun _ => rfl) fun w₁ hi₁ hr₁ => ?_
  refine does_read (g := fun s => s.entry) (fun _ => rfl) fun w₂ hi₂ hr₂ => ?_
  have hr := hr₁.trans hr₂
  obtain ⟨hep₂, hmax₂⟩ := hr.top label e .passed h.stage
  have hep₁ := (hr₁.top label e .passed h.stage).1
  refine satE_bind (satE_mono (does_writeRecord (h.rely hr) hx hmalloc) (fun _ w₃ hi₃ h₃ => ?_)
    fun _ _ _ he => he)
  obtain ⟨ha₃, hstage₃, hw₃⟩ := h₃
  have h₃ := (h.rely hr).ahead ha₃ hstage₃
  have hall₃ := (Ahead.of_rely hr).trans ha₃
  obtain ⟨hep₃, hmax₃⟩ := hall₃.top label e .passed h.stage
  rw [hep₁]
  have hreigns₃ : Reigns A t label e .blank lvl w.1.index.enterpointNode w.1.index.maxlevel s₀ w₃ :=
    ⟨h₃, hw₃.name, hep₃, hmax₃⟩
  cases hep : w.1.index.enterpointNode with
  | none =>
    have hneg : w.1.index.maxlevel = -1 :=
      hmax₃.symm.trans (hi₃.ruling.absent (hep₃.trans hep))
    rw [hep, hneg] at hreigns₃
    rw [hneg]
    exact does_foundEnterpoint hreigns₃
  | some ep =>
    have hcopy : w₂.1.index.entry = ep := by rw [Index.entry, hep₂, hep, Option.getD_some]
    have hfound : ¬ Founding w₃.2 := fun hd => by
      cases (hi₃.locking.doing_iff hstage₃).mp hd
    obtain ⟨hlt, hc, hpos, hle⟩ := hi₃.ruling.entry ep (hep₃.trans hep) hfound
    have hrest : RestsAt w₃ w.1.index.maxlevel.toNat ep := ⟨⟨hlt, by omega⟩, hc⟩
    rw [hcopy]
    refine satE_bind (satE_mono (does_linkBelow hpool h₃ hw₃ hcard
      (by rw [hall₃.maxElements]; exact hfuel) (by omega) hrest (hrest.mono (Nat.zero_le _)))
      (fun _ w₄ _ h₄ => ?_) fun _ _ _ he => he)
    obtain ⟨ha₄, hstage₄⟩ := h₄
    obtain ⟨_, -, -, -, hname⟩ := ha₄.mine label e true .blank hstage₃
    obtain ⟨hep₄, hmax₄⟩ := ha₄.top label e .blank hstage₃
    exact does_raiseEnterpoint ⟨h₃.ahead ha₄ hstage₄, (hname trivial).trans hw₃.name,
      (hep₄.trans hep₃).trans hep, hmax₄.trans hmax₃⟩ hlvl

end Link

end HnswRvv.Concurrent
