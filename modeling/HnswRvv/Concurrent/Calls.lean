import HnswRvv.Concurrent.Inserting
import HnswRvv.Index.FiniteMap

/-!
# Threads that call `addPoint`

A whole call under its locks, and threads that make one call after the other. Every schedule of such
threads ends, no thread is ever stuck, and what is left behind is an index again.
-/

namespace HnswRvv.Concurrent

open Framework OrderDual Protocol
set_option linter.unusedSectionVars false

variable {V D T α β : Type} [Inhabited V] [LinearOrder D] [DecidableEq T] {A : Terms V T}
  {P : Platform V D} {t u : T} {w w' : World V T} {σ : Shared V T} {γ : T → Stage}
  {s s' : Index V} {label : LabelType} {e i : TableInt} {top : Bool} {st : Stage}
  {p p' : Progress} {lvl fuel : Nat} {x : V} {c : Choices} {k : Lock}
  {E : Failure → World V T → Prop}

section Locks

variable {Q : β → World V T → Prop}

private theorem does_acquire {f : Unit → Task V T β}
    (hwait : ∀ w', Inv A w' → Rely A t w w' → w'.1.held k ≠ none → (protocol A).Waits t w'.2)
    (h : ∀ w', Inv A w' → Rely A t w w' → w'.1.held k = none → ∃ γ', (protocol A).Move t w'
      (⟨w'.1.index, Function.update w'.1.held k (some t)⟩, γ') ∧
        Does A t Q E (f ()) (⟨w'.1.index, Function.update w'.1.held k (some t)⟩, γ')) :
    Does A t Q E (ExceptT.lift (acquire t k) >>= f) w := by
  refine satE_atomic_bind (f := fun σ => (.ok (), ⟨σ.index, Function.update σ.held k (some t)⟩))
    (fun w' hi hr hready => hwait w' hi hr fun hnone => ?_) fun w' hi hr hready => ?_
  · rw [Shared.isFree, hnone] at hready
    cases hready
  · exact h w' hi hr (Option.isNone_iff_eq_none.mp hready)

private theorem does_release {f : Unit → Task V T β}
    (h : ∀ w', Inv A w' → Rely A t w w' → ∃ γ', (protocol A).Move t w'
      (⟨w'.1.index, Function.update w'.1.held k none⟩, γ') ∧
        Does A t Q E (f ()) (⟨w'.1.index, Function.update w'.1.held k none⟩, γ')) :
    Does A t Q E (ExceptT.lift (release k) >>= f) w :=
  satE_atomic_bind (f := fun σ => (.ok (), ⟨σ.index, Function.update σ.held k none⟩))
    (fun _ _ _ hready => by cases hready) fun w' hi hr _ => h w' hi hr

private theorem sat_release {C : World V T → Prop}
    (h : ∀ w', Inv A w' → Rely A t w w' → ∃ γ', (protocol A).Move t w'
      (⟨w'.1.index, Function.update w'.1.held k none⟩, γ') ∧ ∀ w'', Inv A w'' →
        Rely A t (⟨w'.1.index, Function.update w'.1.held k none⟩, γ') w'' → C w'') :
    (protocol A).sat t (fun _ => C) (release k) w :=
  sat_atomic (fun _ _ _ hready => by cases hready) fun w' hi hr _ => h w' hi hr

private theorem withLock_eq (t : T) (k : Lock) (m : Task V T β) :
    withLock t k m = ExceptT.lift (acquire t k) >>= fun _ => Prog.ensuring m (release k) := by
  rfl

private theorem Locking.owner_of_global (h : Locking σ γ) (hheld : σ.held .global = some u) :
    ∃ label i p, γ u = .inserting label i true p := by
  have hholds := (h .global u).mp hheld
  cases hu : γ u with
  | outside =>
    rw [hu] at hholds
    exact hholds.elim
  | called l =>
    rw [hu] at hholds
    cases hholds
  | inserting l i top p =>
    rw [hu] at hholds
    rcases hholds with hf | ⟨hf, -⟩ | ⟨-, rfl⟩
    · cases hf
    · cases hf
    · exact ⟨l, i, p, rfl⟩

private theorem Stage.rank_lt_outside (h : st ≠ .outside) : st.rank < Stage.outside.rank := by
  cases st with
  | outside => exact absurd rfl h
  | called l => exact Prod.Lex.toLex_lt_toLex.mpr (Or.inl (by decide : 1 < 3))
  | inserting l i top p =>
    refine (rank_inserting_le l i top p).trans_lt ?_
    cases p <;> exact Prod.Lex.toLex_lt_toLex.mpr (Or.inl (by simp))

end Locks

section Insert

variable {pool : Finset V} (hpool : ∀ label v, A.allowed label v → v ∈ pool)

private theorem Stage.holds_inserting {k : Lock} : (Stage.inserting label e top p).Holds k ↔
    k = getLabelOpMutex label ∨ (k = .element e ∧ p ≠ .reserved) ∨ (k = .global ∧ top = true) :=
  Iff.rfl

private theorem Inv.move_acquireGlobal (h : Inv A (σ, γ)) (ht : γ t = .inserting label e false .locked)
    (hfree : σ.held .global = none) :
    (protocol A).Move t (σ, γ) (⟨σ.index, Function.update σ.held .global (some t)⟩,
      Function.update γ t (.inserting label e true .passed)) := by
  refine h.move_step ht (h.locking.acquire hfree fun k => ?_)
    ⟨fun _ hs => hs.elim, fun hf => hf.elim, fun hc => hc.elim, fun hf => by cases hf⟩
    (fun hf => hf.elim) (fun hf => by cases hf) ?_ fun _ _ => Or.inl rfl
  · dsimp only
    rw [ht, Stage.holds_inserting, Stage.holds_inserting]
    simp [or_assoc]
  · rintro q (rfl | rfl) <;> exact ⟨by decide, by decide⟩

private theorem Inv.move_releaseGlobal (h : Inv A (σ, γ)) (ht : γ t = .inserting label e true p)
    (hp : p = .passed ∨ p = .finished) (hep : σ.index.enterpointNode ≠ none) :
    (protocol A).Move t (σ, γ) (⟨σ.index, Function.update σ.held .global none⟩,
      Function.update γ t (.inserting label e false p)) := by
  have hholds : (γ t).Holds .global := by
    rw [ht]
    exact Or.inr (Or.inr ⟨rfl, rfl⟩)
  have hnot : ∀ q, q = .founding ∨ q = .raising → p ≠ q := by
    rintro q (rfl | rfl) <;> rcases hp with rfl | rfl <;> decide
  refine h.move_step ht (h.locking.release hholds fun k => ?_) (.refl p) id id
    (fun q hq => ⟨hnot q hq, hnot q hq⟩) fun hf _ => ?_
  · dsimp only
    rw [ht, Stage.holds_inserting, Stage.holds_inserting]
    constructor
    · rintro (rfl | ⟨rfl, hr⟩ | ⟨-, hf⟩)
      · exact ⟨Or.inl rfl, fun hf => by cases hf⟩
      · exact ⟨Or.inr (Or.inl ⟨rfl, hr⟩), fun hf => by cases hf⟩
      · cases hf
    · rintro ⟨hk | hk | ⟨hk, -⟩, hne⟩
      · exact Or.inl hk
      · exact Or.inr (Or.inl hk)
      · exact absurd hk hne
  · rcases hf with hf | hf
    · exact absurd hf hep
    · exact absurd ((h.locking.doing_iff ht).mp hf) (hnot _ (Or.inl rfl))

include hpool

private theorem does_insertNew (lvl : Nat) (ht : w.2 t = .inserting label e false .locked)
    (hx : A.allowed label x) (hmalloc : c.malloc = true) (hcard : pool.card < fuel)
    (hfuel : w.1.index.maxElements ≤ fuel) :
    Does A t (fun i w' => i = e ∧ ∃ p, p.Filled ∧ Inserts A t label e false p lvl w.1.index w' ∧
        w'.1.index.getExternalLabel e = label ∧ (lvl : Int) ≤ w'.1.index.maxlevel) E
      (insertNew P t fuel c x label e lvl) w := by
  rw [insertNew]
  refine does_access fun w₁ hi₁ hr₁ => ?_
  have ht₁ := hr₁.stage.trans ht
  have hk₁ : Keeps A t label w.1.index w₁.1.index := .of_rely hr₁
  obtain ⟨σ₁, γ₁⟩ := w₁
  rw [wp_modify]
  refine ⟨_, hi₁.move_hidden ht₁ (Or.inl rfl) (touches_setLevel σ₁.index e lvl) ⟨rfl, rfl⟩, ?_⟩
  have h₁ : Inserts A t label e false .locked lvl w.1.index ({ σ₁ with index := setLevel e lvl σ₁.index },
      Function.update γ₁ t (.inserting label e false .locked)) :=
    ⟨Function.update_self _ _ _, by
      change (σ₁.index.elementLevels.write e lvl).read e = lvl
      rw [Memory.read_write, if_pos rfl], hk₁.trans (.of_same rfl rfl)⟩
  generalize (({ σ₁ with index := setLevel e lvl σ₁.index },
    Function.update γ₁ t (.inserting label e false .locked)) : World V T) = w₁ at h₁ ⊢
  refine does_acquire (fun w₂ hi₂ hr₂ hheld => ?_) fun w₂ hi₂ hr₂ hfree => ?_
  · -- who holds `global` is past it
    obtain ⟨u, hu⟩ := Option.ne_none_iff_exists'.mp hheld
    obtain ⟨l, i, p, hup⟩ := hi₂.locking.owner_of_global hu
    refine ⟨u, ?_, ?_⟩
    · change w₂.2 u ≠ .outside
      rw [hup]
      exact fun hf => Stage.noConfusion hf
    · change (w₂.2 u).rank < (w₂.2 t).rank
      rw [hup, (h₁.rely hr₂).stage]
      exact (min_le_right p.rank _).trans_lt (Prod.Lex.toLex_lt_toLex.mpr (Or.inl one_lt_two))
  have h₂ := h₁.rely hr₂
  obtain ⟨σ₂, γ₂⟩ := w₂
  refine ⟨_, hi₂.move_acquireGlobal h₂.stage hfree, ?_⟩
  have h₂ : Inserts A t label e true .passed lvl w.1.index
      (⟨σ₂.index, Function.update σ₂.held .global (some t)⟩,
        Function.update γ₂ t (.inserting label e true .passed)) :=
    ⟨Function.update_self _ _ _, h₂.level, h₂.keeps.trans (.of_same rfl rfl)⟩
  generalize ((⟨σ₂.index, Function.update σ₂.held .global (some t)⟩,
    Function.update γ₂ t (.inserting label e true .passed)) : World V T) = w₂ at h₂ ⊢
  refine does_read (g := fun s => s.maxlevel) (fun _ => rfl) fun w₃ hi₃ hr₃ => ?_
  have h₃ := h₂.rely hr₃
  have hfuel₃ : w₃.1.index.maxElements ≤ fuel := by rw [h₃.keeps.maxElements]; exact hfuel
  dsimp only
  split
  · next hle =>
    -- an insertion below `maxlevel_` gives `global` back at once
    refine does_release fun w₄ hi₄ hr₄ => ?_
    have h₄ := h₃.rely hr₄
    have hmax := (hr₄.top label e .passed h₃.stage).2
    have hep : w₄.1.index.enterpointNode ≠ none := fun hn => by
      have := hi₄.ruling.absent hn
      omega
    obtain ⟨σ₄, γ₄⟩ := w₄
    refine ⟨_, hi₄.move_releaseGlobal h₄.stage (Or.inl rfl) hep, ?_⟩
    have h₅ : Inserts A t label e false .passed lvl w.1.index
        (⟨σ₄.index, Function.update σ₄.held .global none⟩,
          Function.update γ₄ t (.inserting label e false .passed)) :=
      ⟨Function.update_self _ _ _, h₄.level, h₄.keeps.trans (.of_same rfl rfl)⟩
    refine satE_bind (satE_mono (does_linkElement_low hpool h₅ hx hmalloc hcard
      (by rw [h₅.keeps.maxElements]; exact hfuel) hle hmax.ge) (fun _ w₆ _ h₆ => ?_)
      fun _ _ _ he => he)
    exact satE_pure fun w' _ hr' => ⟨rfl, .linked 0, trivial, h₆.1.rely hr',
      (hr'.own label e false _ h₆.1.stage).2.2.1.trans h₆.2.1, h₆.2.2.trans hr'.maxlevel_le⟩
  · next hgt =>
    refine satE_bind (satE_ensuring (satE_mono (does_linkElement_top hpool h₃ hx hmalloc hcard hfuel₃
      (not_le.mp hgt)) (fun _ w₄ _ h₄ => ?_) (E := fun _ _ => False) fun _ _ _ he => he.elim))
    refine sat_release fun w₅ hi₅ hr₅ => ?_
    have h₅ := h₄.rely hr₅
    have hep : w₅.1.index.enterpointNode ≠ none := by
      rw [h₅.entry]
      exact Option.some_ne_none e
    obtain ⟨σ₅, γ₅⟩ := w₅
    refine ⟨_, hi₅.move_releaseGlobal h₅.stage (Or.inr rfl) hep, fun w₆ _ hr₆ => ?_⟩
    have h₆ : Inserts A t label e false .finished lvl w.1.index
        (⟨σ₅.index, Function.update σ₅.held .global none⟩,
          Function.update γ₅ t (.inserting label e false .finished)) :=
      ⟨Function.update_self _ _ _, h₅.level, h₅.keeps.trans (.of_same rfl rfl)⟩
    refine satE_pure fun w' _ hr' => ⟨rfl, .finished, trivial, h₆.rely (hr₆.trans hr'),
      ((hr₆.trans hr').own label e false _ h₆.stage).2.2.1.trans h₅.name, ?_⟩
    exact h₅.maxlevel.ge.trans (hr₆.trans hr').maxlevel_le

end Insert

structure Added (A : Terms V T) (t : T) (label : LabelType) (s s' : Index V) : Prop where
  keeps : Keeps A t label s s'
  known : ∃ i, s'.labelLookup label = some i

structure Refused (A : Terms V T) (t : T) (label : LabelType) (s : Index V) (e : Failure)
    (s' : Index V) : Prop where
  failure : e = .thrown .capacityExceeded
  keeps : Keeps A t label s s'
  full : s'.maxElements ≤ s'.curElementCount
  unknown : A.newOnly → A.reservedFor label t ∧ s'.labelLookup label = none

theorem Added.rely (h : Added A t label s w.1.index) (hr : Rely A t w w') :
    Added A t label s w'.1.index := by
  obtain ⟨i, hi⟩ := h.known
  exact ⟨h.keeps.trans (.of_rely hr), i, hr.known label i hi⟩

theorem Refused.rely {e : Failure} (h : Refused A t label s e w.1.index) (hr : Rely A t w w') :
    Refused A t label s e w'.1.index := by
  refine ⟨h.failure, h.keeps.trans (.of_rely hr), ?_, fun hn => ?_⟩
  · rw [(Ahead.of_rely hr).maxElements]
    exact h.full.trans hr.count_le
  · obtain ⟨hres, hnone⟩ := h.unknown hn
    exact ⟨hres, (hr.reserved hn label hres).trans hnone⟩

private theorem Inv.element_free (h : Inv A (σ, γ)) (ht : γ t = .inserting label e top .reserved) :
    σ.held (.element e) = none := by
  by_contra hheld
  obtain ⟨u, hu⟩ := Option.ne_none_iff_exists'.mp hheld
  obtain ⟨l, b, q, hup⟩ := h.locking.owner_of_held hu
  obtain rfl := h.owning.inj hup ht
  have hholds := (h.locking (.element e) _).mp hu
  dsimp only at hholds
  rw [ht, Stage.holds_inserting] at hholds
  rcases hholds with hf | ⟨-, hf⟩ | ⟨hf, -⟩
  · cases hf
  · exact hf rfl
  · cases hf

private theorem Inv.move_acquireElement (h : Inv A (σ, γ)) (ht : γ t = .inserting label e false .reserved)
    (hfree : σ.held (.element e) = none) :
    (protocol A).Move t (σ, γ) (⟨σ.index, Function.update σ.held (.element e) (some t)⟩,
      Function.update γ t (.inserting label e false .locked)) := by
  refine h.move_step ht (h.locking.acquire hfree fun k => ?_)
    ⟨fun _ hs => hs.elim, fun hf => hf.elim, fun hc => hc.elim, fun hf => by cases hf⟩
    (fun hf => hf.elim) (fun hf => by cases hf) ?_ fun _ _ => Or.inr (Or.inr rfl)
  · dsimp only
    rw [ht, Stage.holds_inserting, Stage.holds_inserting]
    simp
  · rintro q (rfl | rfl) <;> exact ⟨by decide, by decide⟩

private theorem Inv.move_releaseElement (h : Inv A (σ, γ)) (ht : γ t = .inserting label e false p)
    (hfill : p.Filled) (hlevel : (σ.index.level e : Int) ≤ σ.index.maxlevel)
    (hlabel : σ.index.getExternalLabel e = label) :
    (protocol A).Move t (σ, γ) (⟨σ.index, Function.update σ.held (.element e) none⟩,
      Function.update γ t (.called label)) := by
  have hres : p ≠ .reserved := fun hf => by rw [hf] at hfill; exact hfill
  have hholds : (γ t).Holds (.element e) := by
    rw [ht]
    exact Or.inr (Or.inl ⟨rfl, hres⟩)
  refine h.move_leave ht (h.locking.release hholds fun k => ?_) hfill hlevel hlabel
  dsimp only
  rw [ht, Stage.holds_inserting]
  constructor
  · rintro rfl
    exact ⟨Or.inl rfl, fun hf => by cases hf⟩
  · rintro ⟨hk | ⟨hk, -⟩ | ⟨-, hf⟩, hne⟩
    · exact hk
    · exact absurd hk hne
    · cases hf

private theorem Inv.move_acquireLabel (h : Inv A (σ, γ)) (ht : γ t = .outside)
    (hfree : σ.held (getLabelOpMutex label) = none) :
    (protocol A).Move t (σ, γ) (⟨σ.index, Function.update σ.held (getLabelOpMutex label) (some t)⟩,
      Function.update γ t (.called label)) := by
  refine h.move_free (by rw [ht]; exact Stage.free_outside) (Stage.free_called label)
    (h.locking.acquire hfree fun k => ?_)
  dsimp only
  rw [ht]
  exact ⟨Or.inr, fun hk => hk.resolve_left id⟩

private theorem Inv.move_releaseLabel (h : Inv A (σ, γ)) (ht : γ t = .called label) :
    (protocol A).Move t (σ, γ) (⟨σ.index, Function.update σ.held (getLabelOpMutex label) none⟩,
      Function.update γ t .outside) := by
  refine h.move_free (by rw [ht]; exact Stage.free_called label) Stage.free_outside
    (h.locking.release (by dsimp only; rw [ht]; rfl) fun k => ?_)
  dsimp only
  rw [ht]
  exact ⟨False.elim, fun hk => hk.2 hk.1⟩

private theorem does_withLabel {m : Task V T β} {Q : β → Index V → Prop} {F : Failure → Index V → Prop}
    (ht : w.2 t = .outside)
    (hQ : ∀ a w₁ w₂, Rely A t w₁ w₂ → Q a w₁.1.index → Q a w₂.1.index)
    (hF : ∀ e w₁ w₂, Rely A t w₁ w₂ → F e w₁.1.index → F e w₂.1.index)
    (hm : ∀ w₁ w₂, Rely A t w w₁ → w₂.1.index = w₁.1.index → w₂.2 t = .called label →
      Does A t (fun a w' => w'.2 t = .called label ∧ Q a w'.1.index)
        (fun e w' => w'.2 t = .called label ∧ F e w'.1.index) m w₂) :
    Does A t (fun a w' => w'.2 t = .outside ∧ Q a w'.1.index)
      (fun e w' => w'.2 t = .outside ∧ F e w'.1.index) (withLock t (getLabelOpMutex label) m) w := by
  rw [withLock_eq]
  refine does_acquire (fun w₁ hi hr hheld => ?_) fun w₁ hi hr hfree => ?_
  · -- any call is ahead of one that has not begun
    obtain ⟨u, hu⟩ := Option.ne_none_iff_exists'.mp hheld
    have hbusy : w₁.2 u ≠ .outside := fun hf => by
      have hholds := (hi.locking _ u).mp hu
      rw [hf] at hholds
      exact hholds
    refine ⟨u, hbusy, ?_⟩
    change (w₁.2 u).rank < (w₁.2 t).rank
    rw [hr.stage.trans ht]
    exact Stage.rank_lt_outside hbusy
  obtain ⟨σ, γ⟩ := w₁
  -- whatever it achieves, the lock is given back
  have hend : ∀ {C : Index V → Prop} (w₃ : World V T),
      (∀ w₁ w₂, Rely A t w₁ w₂ → C w₁.1.index → C w₂.1.index) →
      w₃.2 t = .called label ∧ C w₃.1.index →
      (protocol A).sat t (fun _ w' => w'.2 t = .outside ∧ C w'.1.index)
        (release (getLabelOpMutex label)) w₃ := by
    intro C w₃ hC h₃
    refine sat_release fun w₄ hi₄ hr₄ => ?_
    have hC₄ := hC w₃ w₄ hr₄ h₃.2
    have ht₄ := hr₄.stage.trans h₃.1
    obtain ⟨σ₄, γ₄⟩ := w₄
    refine ⟨_, hi₄.move_releaseLabel ht₄, fun w' _ hr' => ?_⟩
    exact ⟨hr'.stage.trans (Function.update_self _ _ _), hC _ w' hr' hC₄⟩
  refine ⟨_, hi.move_acquireLabel (hr.stage.trans ht) hfree, satE_ensuring ?_⟩
  exact satE_mono (hm _ _ hr rfl (Function.update_self _ _ _)) (fun a w₃ _ h₃ => hend w₃ (hQ a) h₃)
    fun e w₃ _ h₃ => hend w₃ (hF e) h₃

section Call

variable {pool : Finset V} (hpool : ∀ label v, A.allowed label v → v ∈ pool)
include hpool

private theorem does_insertReserved (ht : w.2 t = .inserting label e false .reserved)
    (hx : A.allowed label x) (hmalloc : c.malloc = true) (hcard : pool.card < fuel)
    (hfuel : w.1.index.maxElements ≤ fuel) (hknown : w.1.index.labelLookup label = some e) :
    Does A t (fun _ w' => w'.2 t = .called label ∧ Added A t label w.1.index w'.1.index) E
      (withLock t (.element e) (insertNew P t fuel c x label e lvl)) w := by
  rw [withLock_eq]
  refine does_acquire (fun w₁ hi₁ hr₁ hheld => ?_) fun w₁ hi₁ hr₁ hfree => ?_
  · exact absurd (hi₁.element_free (hr₁.stage.trans ht)) hheld
  have hk₁ : Keeps A t label w.1.index w₁.1.index := .of_rely hr₁
  have ht₁ := hr₁.stage.trans ht
  obtain ⟨σ, γ⟩ := w₁
  refine ⟨_, hi₁.move_acquireElement ht₁ hfree, satE_ensuring ?_⟩
  refine satE_mono (does_insertNew hpool lvl (Function.update_self _ _ _) hx hmalloc hcard
    (hk₁.maxElements.le.trans hfuel) (E := fun _ _ => False)) (fun _ w₃ _ h₃ => ?_)
    fun _ _ _ he => he.elim
  obtain ⟨-, p, hfill, hins, hname, hle⟩ := h₃
  refine sat_release fun w₄ hi₄ hr₄ => ?_
  have h₄ := hins.rely hr₄
  have hname₄ := (hr₄.own label e false p hins.stage).2.2.1.trans hname
  have hle₄ := hle.trans hr₄.maxlevel_le
  have hk₄ := hk₁.trans h₄.keeps
  obtain ⟨σ₄, γ₄⟩ := w₄
  refine ⟨_, hi₄.move_releaseElement h₄.stage hfill (by rw [h₄.level]; exact hle₄) hname₄,
    fun w' _ hr' => ?_⟩
  have hadded : Added A t label w.1.index σ₄.index := ⟨hk₄, e, hk₄.known label e hknown⟩
  exact ⟨hr'.stage.trans (Function.update_self _ _ _), Added.rely hadded hr'⟩

private theorem does_addPointLevel (ht : w.2 t = .called label) (hx : A.allowed label x)
    (hmalloc : c.malloc = true) (hcard : pool.card < fuel) (hfuel : w.1.index.maxElements ≤ fuel)
    (hnew : A.newOnly → A.reservedFor label t ∧ w.1.index.labelLookup label = none) {level : Int} :
    Does A t (fun _ w' => w'.2 t = .called label ∧ Added A t label w.1.index w'.1.index)
      (fun e w' => w'.2 t = .called label ∧ Refused A t label w.1.index e w'.1.index)
      (addPointLevel P t fuel c x label level) w := by
  rw [addPointLevel]
  refine does_access fun w₁ hi₁ hr₁ => ?_
  have ht₁ := hr₁.stage.trans ht
  have hk₁ : Keeps A t label w.1.index w₁.1.index := .of_rely hr₁
  have hsame : w₁.1.index.labelLookup label = w.1.index.labelLookup label :=
    hr₁.called label (by rw [ht]; rfl)
  simp only [lookupOrReserve, wp_bind, wp_get]
  cases hlook : w₁.1.index.labelLookup label with
  | some i =>
    -- the label is known: an update
    have hupd : ¬ A.newOnly := fun hn => by
      rw [hsame, (hnew hn).2] at hlook
      cases hlook
    have hu₁ : Updates t label i w₁ := ⟨ht₁, hlook⟩
    obtain ⟨hlt, hs, -⟩ := hu₁.settled hi₁
    have hlive := hi₁.linking.unmarked i hlt hs.settled
    dsimp only
    rw [if_neg fun hf => by rw [hlive] at hf; exact Bool.false_ne_true hf.2, wp_pure]
    refine steps_refl hi₁ ?_
    refine does_read (g := fun s => s.isMarkedDeleted i) (fun _ => rfl) fun w₂ hi₂ hr₂ => ?_
    have ha₂ := Ahead.of_rely hr₂
    have hu₂ := hu₁.ahead ha₂
    obtain ⟨hlt₂, hs₂, -⟩ := hu₂.settled hi₂
    rw [hi₂.linking.unmarked i hlt₂ hs₂.settled, if_neg Bool.false_ne_true]
    refine satE_bind (satE_mono (does_updatePoint hpool hupd hu₂ hx hcard (by
      rw [ha₂.maxElements, hk₁.maxElements]; exact hfuel)) (fun _ w₃ _ h₃ => ?_)
      fun _ _ _ he => he)
    refine satE_pure fun w' _ hr' => ?_
    have hu' := (hu₂.ahead h₃).ahead (.of_rely hr')
    exact ⟨hu'.stage, hk₁.trans (.of_ahead ((ha₂.trans h₃).trans (.of_rely hr'))), i, hu'.known⟩
  | none =>
    dsimp only
    split
    · next hfull =>
      rw [wp_throw]
      refine steps_refl hi₁ fun w' _ hr' => ⟨hr'.stage.trans ht₁, ?_⟩
      have hrefused : Refused A t label w.1.index (.thrown .capacityExceeded) w₁.1.index :=
        ⟨rfl, hk₁, hfull, fun hn => ⟨(hnew hn).1, hlook⟩⟩
      exact hrefused.rely hr'
    · next hroom =>
      obtain ⟨σ, γ⟩ := w₁
      simp only [wp_bind, wp_set, wp_pure]
      refine ⟨_, hi₁.move_reserve ht₁ hlook (not_le.mp hroom) ⟨x, hx⟩ fun hn => (hnew hn).1, ?_⟩
      have hk₂ : Keeps A t label w.1.index (reserveId σ.index label) := by
        refine hk₁.trans ⟨rfl, fun l i hl => ?_, fun _ l hl _ => if_neg hl⟩
        change (if l = label then some σ.index.curElementCount else σ.index.labelLookup l) = some i
        rw [if_neg]
        · exact hl
        · rintro rfl
          cases hlook.symm.trans hl
      refine satE_mono (does_insertReserved hpool (Function.update_self _ _ _) hx hmalloc hcard
        (hk₂.maxElements.le.trans hfuel) (if_pos rfl)) (fun _ w' _ h' => ?_)
        fun _ _ _ he => he
      exact ⟨h'.1, hk₂.trans h'.2.keeps, h'.2.known⟩

/-- A call of `addPoint` adds the point or finds no room for it; it throws nothing else, and it ends
without a lock. -/
theorem does_addPoint (ht : w.2 t = .outside) (hx : A.allowed label x)
    (hmalloc : c.malloc = true) (hcard : pool.card < fuel) (hfuel : w.1.index.maxElements ≤ fuel)
    (hnew : A.newOnly → A.reservedFor label t ∧ w.1.index.labelLookup label = none) :
    Does A t (fun _ w' => w'.2 t = .outside ∧ Added A t label w.1.index w'.1.index)
      (fun e w' => w'.2 t = .outside ∧ Refused A t label w.1.index e w'.1.index)
      (addPoint P t fuel c x label false) w := by
  rw [addPoint]
  refine does_read (fun _ => rfl) fun w₀ _ hr₀ => ?_
  rw [if_neg fun hf => Bool.false_ne_true hf.2, if_pos rfl]
  refine does_withLabel (Q := fun _ => Added A t label w.1.index) (hr₀.stage.trans ht)
    (fun _ _ _ hr h => Added.rely h hr) (fun _ _ _ hr h => Refused.rely h hr)
    fun w₁ w₂ hr₁ hidx ht₂ => ?_
  have hr := hr₀.trans hr₁
  have hk : Keeps A t label w.1.index w₂.1.index := hidx ▸ .of_rely hr
  have hnew₂ : A.newOnly → A.reservedFor label t ∧ w₂.1.index.labelLookup label = none :=
    fun hn => ⟨(hnew hn).1, hidx ▸ (hr.reserved hn label (hnew hn).1).trans (hnew hn).2⟩
  refine satE_bind (satE_mono (does_addPointLevel hpool ht₂ hx hmalloc hcard
    (hk.maxElements.le.trans hfuel) hnew₂) (fun _ w₃ _ h₃ => satE_pure fun w₄ _ hr₄ => ?_)
    fun e w₃ _ h₃ => ⟨h₃.1, h₃.2.failure, hk.trans h₃.2.keeps, h₃.2.full, h₃.2.unknown⟩)
  have h₄ := h₃.2.rely hr₄
  exact ⟨hr₄.stage.trans h₃.1, hk.trans h₄.keeps, h₄.known⟩

end Call

theorem does_getDataByLabel (ht : w.2 t = .outside) :
    Does A t (fun v w' => w'.2 t = .outside ∧ (∀ l, Keeps A t l w.1.index w'.1.index) ∧
        A.allowed label v)
      (fun e w' => w'.2 t = .outside ∧ e = .thrown .labelNotFound ∧
        w.1.index.labelLookup label = none) (getDataByLabel t label) w := by
  rw [getDataByLabel]
  refine does_withLabel
    (Q := fun v s => (∀ l, Keeps A t l w.1.index s) ∧ A.allowed label v)
    (F := fun e _ => e = .thrown .labelNotFound ∧ w.1.index.labelLookup label = none) ht
    (fun _ _ _ hr h => ⟨fun l => (h.1 l).trans (.of_rely hr), h.2⟩) (fun _ _ _ _ h => h)
    fun w₁ w₂ hr₁ hidx ht₂ => ?_
  have hk : ∀ l, Keeps A t l w.1.index w₂.1.index := fun l => hidx ▸ .of_rely hr₁
  refine does_access fun w₃ hi₃ hr₃ => ?_
  have ht₃ := hr₃.stage.trans ht₂
  simp only [wp_bind, wp_get]
  cases hlook : w₃.1.index.labelLookup label with
  | none =>
    dsimp only
    rw [wp_throw]
    have hnone : w.1.index.labelLookup label = none := by
      by_contra hsome
      obtain ⟨i, hi⟩ := Option.ne_none_iff_exists'.mp hsome
      cases hlook.symm.trans (hr₃.known label i ((hk label).known label i hi))
    exact steps_refl hi₃ fun w' _ hr' => ⟨hr'.stage.trans ht₃, rfl, hnone⟩
  | some i =>
    have hu₃ : Updates t label i w₃ := ⟨ht₃, hlook⟩
    obtain ⟨hlt, hs, -⟩ := hu₃.settled hi₃
    dsimp only
    rw [hi₃.linking.unmarked i hlt hs.settled, if_neg Bool.false_ne_true, wp_pure]
    refine steps_refl hi₃ (does_last (does_read (g := fun s => s.getDataByInternalId i)
      (fun _ => rfl) fun w₄ hi₄ hr₄ => satE_pure fun w' _ hr' => ?_))
    have hr := hr₄.trans hr'
    obtain ⟨hlt₄, hs₄, hlabel⟩ := (hu₃.ahead (.of_rely hr₄)).settled hi₄
    exact ⟨hr.stage.trans ht₃, fun l => (hk l).trans (.of_rely (hr₃.trans hr)),
      hi₄.naming.vectors label i hlt₄ hs₄.settled (Or.inr ⟨hs₄, hlabel⟩)⟩

end HnswRvv.Concurrent
