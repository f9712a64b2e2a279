import HnswRvv.Concurrent.AddPoint
import HnswRvv.Index.Walk

/-!
# How far each thread has come

While several threads add points, an element goes from reserved to linked in steps that the state of
the index does not show. The ghost state gives every thread its stage: outside a call, inside one,
or inserting an element, with how far that insertion has come. An element that no thread is
inserting is settled. `Inv` says what holds between any two steps, `Rely` what a thread may count on
while others move.
-/

namespace HnswRvv.Concurrent

open Framework OrderDual
set_option linter.unusedSectionVars false

/-- The id is reserved; its lock is taken; `global` has been passed; the record is written and its
lists are blank; it is linked on the levels from `l` up; it becomes the first entry point; it has
replaced the entry point, but `maxlevel_` is still the old one; nothing is left to do. -/
inductive Progress where
  | reserved
  | locked
  | passed
  | blank
  | linked (l : Nat)
  | founding
  | raising
  | finished
  deriving DecidableEq, Repr

namespace Progress

/-- Lists of level `l` may contain the element. -/
def Shows (l : Nat) : Progress → Prop
  | linked l' => l' ≤ l
  | raising => True
  | finished => True
  | _ => False

/-- The record of the element is written. -/
def Filled : Progress → Prop
  | reserved => False
  | locked => False
  | passed => False
  | _ => True

/-- The element is linked on all its levels and may be the entry point. -/
def Complete : Progress → Prop
  | raising => True
  | finished => True
  | _ => False

/-- The order in which blocked threads wait for each other: an insertion that is linked down to
level `l` waits only for those linked further down. -/
def rank : Progress → ℕ ×ₗ ℕ
  | reserved => toLex (2, 0)
  | locked => toLex (2, 0)
  | passed => toLex (1, 0)
  | blank => toLex (1, 0)
  | linked l => toLex (0, l)
  | _ => toLex (0, 0)

theorem Shows.filled {l : Nat} {p : Progress} (h : p.Shows l) : p.Filled := by
  cases p <;> first | exact h.elim | trivial

theorem Complete.shows {p : Progress} (h : p.Complete) (l : Nat) : p.Shows l := by
  cases p <;> first | exact h.elim | trivial

theorem rank_le_of_shows {l : Nat} {p : Progress} (h : p.Shows l) : p.rank ≤ toLex (0, l) := by
  cases p with
  | linked l' => exact Prod.Lex.toLex_le_toLex.mpr (Or.inr ⟨rfl, h⟩)
  | raising => exact Prod.Lex.toLex_le_toLex.mpr (Or.inr ⟨rfl, Nat.zero_le l⟩)
  | finished => exact Prod.Lex.toLex_le_toLex.mpr (Or.inr ⟨rfl, Nat.zero_le l⟩)
  | _ => exact h.elim

/-- The insertion waits for `global` or holds it. -/
def Early (top : Bool) (p : Progress) : Prop := top = true ∨ p = reserved ∨ p = locked

/-- What an insertion has shown it does not take back. -/
structure Before (p p' : Progress) : Prop where
  shows : ∀ l, p.Shows l → p'.Shows l
  filled : p.Filled → p'.Filled
  complete : p.Complete → p'.Complete
  finished : p = .finished → p' = .finished

theorem Before.refl (p : Progress) : Before p p := ⟨fun _ => id, id, id, id⟩

theorem Before.trans {p p' p'' : Progress} (h : Before p p') (h' : Before p' p'') : Before p p'' :=
  ⟨fun l => h'.shows l ∘ h.shows l, h'.filled ∘ h.filled, h'.complete ∘ h.complete,
    h'.finished ∘ h.finished⟩

end Progress

inductive Stage where
  | outside
  | called (label : LabelType)
  | inserting (label : LabelType) (elem : TableInt) (top : Bool) (p : Progress)
  deriving DecidableEq, Repr

namespace Stage

def label : Stage → Option LabelType
  | outside => none
  | called label => some label
  | inserting label _ _ _ => some label

/-- The locks the thread holds between its steps. -/
def Holds : Stage → Lock → Prop
  | outside, _ => False
  | called label, k => k = getLabelOpMutex label
  | inserting label i top p, k =>
    k = getLabelOpMutex label ∨ (k = .element i ∧ p ≠ .reserved) ∨ (k = .global ∧ top = true)

/-- Who holds `global` does not wait for it. -/
def rank : Stage → ℕ ×ₗ ℕ
  | outside => toLex (3, 0)
  | called _ => toLex (1, 0)
  | inserting _ _ top p => if top then min p.rank (toLex (1, 0)) else p.rank

def Free (st : Stage) : Prop := ∀ label i top p, st ≠ inserting label i top p

theorem rank_inserting_le (label : LabelType) (i : TableInt) (top : Bool) (p : Progress) :
    (inserting label i top p).rank ≤ p.rank := by
  cases top with
  | true => exact min_le_left p.rank _
  | false => exact le_rfl

theorem rank_inserting_of_le (label : LabelType) (i : TableInt) (top : Bool) {p : Progress}
    (h : p.rank ≤ toLex (1, 0)) : (inserting label i top p).rank = p.rank := by
  cases top with
  | true => exact min_eq_left h
  | false => rfl

theorem free_outside : outside.Free := fun _ _ _ _ h => Stage.noConfusion h

theorem free_called (label : LabelType) : (called label).Free := fun _ _ _ _ h => Stage.noConfusion h

end Stage

section Owners

variable {T : Type} {γ γ' : T → Stage} {Φ Ψ : Progress → Prop} {i : TableInt} {t : T}

/-- If a thread is inserting `i`, it has come as far as `Φ`. -/
def Owners (γ : T → Stage) (Φ : Progress → Prop) (i : TableInt) : Prop :=
  ∀ t label top p, γ t = .inserting label i top p → Φ p

/-- No thread is inserting `i`. -/
abbrev Settled (γ : T → Stage) (i : TableInt) : Prop := Owners γ (fun _ => False) i

abbrev Shown (γ : T → Stage) (l : Nat) (i : TableInt) : Prop := Owners γ (Progress.Shows l) i

abbrev Filled (γ : T → Stage) (i : TableInt) : Prop := Owners γ Progress.Filled i

abbrev Complete (γ : T → Stage) (i : TableInt) : Prop := Owners γ Progress.Complete i

theorem Owners.mono (h : Owners γ Φ i) (hΦ : ∀ p, Φ p → Ψ p) : Owners γ Ψ i :=
  fun t label top p ht => hΦ p (h t label top p ht)

theorem Owners.shown_filled {l : Nat} (h : Shown γ l i) : Filled γ i :=
  h.mono fun _ hp => Progress.Shows.filled hp

theorem Owners.complete_shown (h : Complete γ i) (l : Nat) : Shown γ l i :=
  h.mono fun _ hp => hp.shows l

theorem Owners.settled (h : Settled γ i) : Owners γ Φ i := h.mono fun _ => False.elim

variable [DecidableEq T]

theorem owners_update {st : Stage} : Owners (Function.update γ t st) Φ i ↔
    (∀ u, u ≠ t → ∀ label top p, γ u = .inserting label i top p → Φ p) ∧
      ∀ label top p, st = .inserting label i top p → Φ p := by
  constructor
  · intro h
    refine ⟨fun u hu label top p he => h u label top p ?_, fun label top p he => h t label top p ?_⟩
    · rw [Function.update_of_ne hu]
      exact he
    · rw [Function.update_self]
      exact he
  · rintro ⟨hothers, hself⟩ u label top p he
    by_cases hu : u = t
    · subst hu
      rw [Function.update_self] at he
      exact hself label top p he
    · rw [Function.update_of_ne hu] at he
      exact hothers u hu label top p he

theorem Owners.advance {label label' : LabelType} {e : TableInt} {top top' : Bool} {p p' : Progress}
    (ht : γ t = .inserting label e top p) (h : Owners γ Φ i) (hp : Φ p → Φ p') :
    Owners (Function.update γ t (.inserting label' e top' p')) Φ i := by
  refine owners_update.mpr ⟨fun u _ => h u, fun _ _ _ he => ?_⟩
  cases he
  exact hp (h t label top p ht)

theorem Owners.retreat {label label' : LabelType} {e : TableInt} {top top' : Bool} {p p' : Progress}
    (ht : γ t = .inserting label e top p)
    (h : Owners (Function.update γ t (.inserting label' e top' p')) Φ i) (hp : Φ p' → Φ p) :
    Owners γ Φ i := by
  have hback : Owners (Function.update (Function.update γ t (.inserting label' e top' p')) t
      (.inserting label e top p)) Φ i := h.advance (Function.update_self _ _ _) hp
  rwa [Function.update_idem, ← ht, Function.update_eq_self] at hback

theorem Owners.leave {st : Stage} (hst : st.Free) (h : Owners γ Φ i) :
    Owners (Function.update γ t st) Φ i :=
  owners_update.mpr ⟨fun u _ => h u, fun label top p he => absurd he (hst label i top p)⟩

theorem owners_update_of_free {st : Stage} (ht : (γ t).Free) (hst : st.Free) :
    Owners (Function.update γ t st) Φ i ↔ Owners γ Φ i := by
  refine ⟨fun h => ?_, Owners.leave hst⟩
  have := h.leave (t := t) ht
  rwa [Function.update_idem, Function.update_eq_self] at this

/-- Another element is not affected by what `t` does with `e`. -/
theorem owners_update_of_ne {st : Stage} {e : TableInt}
    (ht : ∀ label j top p, γ t = .inserting label j top p → j = e)
    (hst : ∀ label j top p, st = .inserting label j top p → j = e) (hne : i ≠ e) :
    Owners (Function.update γ t st) Φ i ↔ Owners γ Φ i := by
  have hself : ∀ label top p, st ≠ .inserting label i top p :=
    fun label top p he => hne (hst label i top p he)
  refine ⟨fun h u label top p he => ?_, fun h => owners_update.mpr
    ⟨fun u _ => h u, fun label top p he => absurd he (hself label top p)⟩⟩
  by_cases hu : u = t
  · subst hu
    exact absurd (ht label i top p he) hne
  · exact (owners_update.mp h).1 u hu label top p he

theorem owners_update_self {label : LabelType} {top : Bool} {p : Progress}
    (hothers : ∀ u, u ≠ t → ∀ label top p, γ u ≠ .inserting label i top p) :
    Owners (Function.update γ t (.inserting label i top p)) Φ i ↔ Φ p := by
  refine ⟨fun h => h t label top p (Function.update_self _ _ _), fun hp => ?_⟩
  refine owners_update.mpr ⟨fun u hu l b q he => absurd he (hothers u hu l b q), ?_⟩
  rintro _ _ _ ⟨⟩
  exact hp

end Owners

/-- What the calls of all threads agree on: the labels known at first, the vectors that each label
may have, and, if only new labels are added, the thread that adds each of them. -/
structure Terms (V T : Type) where
  initial : LabelType → Option TableInt
  allowed : LabelType → V → Prop
  newOnly : Prop
  reservedFor : LabelType → T → Prop
  unique : newOnly → ∀ label t u, reservedFor label t → reservedFor label u → t = u

variable {V D T : Type} [Inhabited V]

abbrev World (V T : Type) := Shared V T × (T → Stage)

/-- The locks are held by the threads whose stage says so. -/
def Locking (σ : Shared V T) (γ : T → Stage) : Prop := ∀ k t, σ.held k = some t ↔ (γ t).Holds k

/-- Every element in the making has one thread that inserts it. -/
structure Owning (count : Nat) (γ : T → Stage) : Prop where
  lt : ∀ {t label i top p}, γ t = .inserting label i top p → i < count
  inj : ∀ {t u label label' i top top' p p'}, γ t = .inserting label i top p →
    γ u = .inserting label' i top' p' → t = u

/-- A list of links of `i` at level `l`. Only if no point is updated are its entries distinct. -/
structure ListFits (A : Terms V T) (s : Index V) (γ : T → Stage) (i : TableInt) (l : Nat)
    (links : List TableInt) : Prop where
  length_le : links.length ≤ s.maxLinks l
  nodup : A.newOnly → links.Nodup
  valid : ∀ j ∈ links, s.AtLevel l j ∧ j ≠ i ∧ Shown γ l j

structure Linking (A : Terms V T) (s : Index V) (γ : T → Stage) : Prop where
  params : s.Params
  cap : s.curElementCount ≤ s.maxElements
  lists : ∀ i l, s.AtLevel l i → Filled γ i → ListFits A s γ i l (s.connections i l)
  unmarked : ∀ i, i < s.curElementCount → Filled γ i → s.isMarkedDeleted i = false
  backed : ∀ i, i < s.curElementCount → Filled γ i → ¬s.LacksLists i
  numDeleted : s.numDeleted = 0
  deletedElements : s.deletedElements = ∅

/-- The label of an element: the one its thread is inserting it for, or the one in its record. -/
def Named (γ : T → Stage) (s : Index V) (i : TableInt) (label : LabelType) : Prop :=
  (∃ t top p, γ t = .inserting label i top p) ∨ (Settled γ i ∧ s.getExternalLabel i = label)

theorem exists_named (γ : T → Stage) (s : Index V) (i : TableInt) : ∃ label, Named γ s i label := by
  by_cases hs : Settled γ i
  · exact ⟨_, Or.inr ⟨hs, rfl⟩⟩
  · simp only [Owners, not_forall] at hs
    obtain ⟨u, label, top, p, hu, -⟩ := hs
    exact ⟨label, Or.inl ⟨u, top, p, hu⟩⟩

structure Naming (A : Terms V T) (s : Index V) (γ : T → Stage) : Prop where
  lookup : ∀ label i, s.labelLookup label = some i ↔ i < s.curElementCount ∧ Named γ s i label
  vectors : ∀ label i, i < s.curElementCount → Filled γ i → Named γ s i label →
    A.allowed label (s.getDataByInternalId i)
  declared : ∀ label i, s.labelLookup label = some i → ∃ v, A.allowed label v
  kept : ∀ label i, A.initial label = some i → s.labelLookup label = some i

/-- A thread that holds `global` has come to `q`. -/
def Doing (q : Progress) (γ : T → Stage) : Prop := ∃ t label i, γ t = .inserting label i true q

/-- The first entry point is being written. -/
abbrev Founding (γ : T → Stage) : Prop := Doing .founding γ

/-- A new entry point stands, but not its level. -/
abbrev Raising (γ : T → Stage) : Prop := Doing .raising γ

/-- The entry point and `maxlevel_`. Until the first entry point stands, no insertion has got past
`global` but the one that holds it. -/
structure Ruling (s : Index V) (γ : T → Stage) : Prop where
  absent : s.enterpointNode = none → s.maxlevel = -1
  early : s.enterpointNode = none ∨ Founding γ → ∀ i, i < s.curElementCount →
    ∃ t label top p, γ t = .inserting label i top p ∧ p.Early top
  entry : ∀ ep, s.enterpointNode = some ep → ¬ Founding γ →
    ep < s.curElementCount ∧ Complete γ ep ∧ 0 ≤ s.maxlevel ∧ s.maxlevel ≤ s.level ep
  exact : ∀ ep, s.enterpointNode = some ep → ¬ Founding γ → ¬ Raising γ →
    (s.level ep : Int) = s.maxlevel
  le : ∀ i, i < s.curElementCount → Owners γ (· = .finished) i → (s.level i : Int) ≤ s.maxlevel

structure Inv (A : Terms V T) (w : World V T) : Prop where
  locking : Locking w.1 w.2
  owning : Owning w.1.index.curElementCount w.2
  linking : Linking A w.1.index w.2
  naming : Naming A w.1.index w.2
  ruling : Ruling w.1.index w.2

def settings (s : Index V) :=
  (s.maxElements, s.M, s.maxM, s.maxM0, s.efConstruction, s.ef, s.mult, s.layout, s.capacities,
    s.allowReplaceDeleted)

theorem maxElements_of_settings {s s' : Index V} (h : settings s' = settings s) :
    s'.maxElements = s.maxElements := congrArg Prod.fst h

structure Rely (A : Terms V T) (t : T) (w w' : World V T) : Prop where
  stage : w'.2 t = w.2 t
  settings : settings w'.1.index = settings w.1.index
  count_le : w.1.index.curElementCount ≤ w'.1.index.curElementCount
  advance : ∀ u label i top p, i < w.1.index.curElementCount →
    w'.2 u = .inserting label i top p →
    ∃ top₀ p₀, w.2 u = .inserting label i top₀ p₀ ∧ p₀.Before p
  level : ∀ i, i < w.1.index.curElementCount → Filled w.2 i →
    w'.1.index.level i = w.1.index.level i
  own : ∀ label i top p, w.2 t = .inserting label i top p →
    w'.1.index.level i = w.1.index.level i ∧
      w'.1.index.getDataByInternalId i = w.1.index.getDataByInternalId i ∧
      w'.1.index.getExternalLabel i = w.1.index.getExternalLabel i ∧
      ∀ l, w'.1.index.getLinklistAtLevel i l = w.1.index.getLinklistAtLevel i l
  ownLinks : A.newOnly → ∀ label i top p, w.2 t = .inserting label i top p → ∀ o l,
    w'.1.index.AtLevel l o → Filled w'.2 o → i ∈ w'.1.index.connections o l →
    w.1.index.AtLevel l o ∧ Filled w.2 o ∧ i ∈ w.1.index.connections o l
  maxlevel_le : w.1.index.maxlevel ≤ w'.1.index.maxlevel
  top : ∀ label i p, w.2 t = .inserting label i true p →
    w'.1.index.enterpointNode = w.1.index.enterpointNode ∧
      w'.1.index.maxlevel = w.1.index.maxlevel
  known : ∀ label i, w.1.index.labelLookup label = some i → w'.1.index.labelLookup label = some i
  called : ∀ label, (w.2 t).label = some label →
    w'.1.index.labelLookup label = w.1.index.labelLookup label
  reserved : A.newOnly → ∀ label, A.reservedFor label t →
    w'.1.index.labelLookup label = w.1.index.labelLookup label

namespace Rely

variable {A : Terms V T} {t : T} {w w' w'' : World V T} {Φ : Progress → Prop} {i : TableInt} {l : Nat}

theorem refl (A : Terms V T) (t : T) (w : World V T) : Rely A t w w where
  stage := rfl
  settings := rfl
  count_le := le_rfl
  advance _ _ _ top p _ h := ⟨top, p, h, .refl p⟩
  level _ _ _ := rfl
  own _ _ _ _ _ := ⟨rfl, rfl, rfl, fun _ => rfl⟩
  ownLinks _ _ _ _ _ _ _ _ ha hf hi := ⟨ha, hf, hi⟩
  maxlevel_le := le_rfl
  top _ _ _ _ := ⟨rfl, rfl⟩
  known _ _ h := h
  called _ _ := rfl
  reserved _ _ _ := rfl

theorem owners (h : Rely A t w w') (hi : i < w.1.index.curElementCount)
    (hΦ : ∀ p p', Progress.Before p p' → Φ p → Φ p') (ho : Owners w.2 Φ i) : Owners w'.2 Φ i := by
  intro u label top p hu
  obtain ⟨top₀, p₀, hu₀, hp⟩ := h.advance u label i top p hi hu
  exact hΦ p₀ p hp (ho u label top₀ p₀ hu₀)

theorem filled (h : Rely A t w w') (hi : i < w.1.index.curElementCount) (hf : Filled w.2 i) :
    Filled w'.2 i := h.owners hi (fun _ _ hb => hb.filled) hf

theorem shown (h : Rely A t w w') (hi : i < w.1.index.curElementCount) (hs : Shown w.2 l i) :
    Shown w'.2 l i := h.owners hi (fun _ _ hb => hb.shows l) hs

theorem complete (h : Rely A t w w') (hi : i < w.1.index.curElementCount) (hc : Complete w.2 i) :
    Complete w'.2 i := h.owners hi (fun _ _ hb => hb.complete) hc

theorem settled (h : Rely A t w w') (hi : i < w.1.index.curElementCount) (hs : Settled w.2 i) :
    Settled w'.2 i := h.owners hi (fun _ _ _ => id) hs

theorem atLevel (h : Rely A t w w') (hf : Filled w.2 i) (ha : w.1.index.AtLevel l i) :
    w'.1.index.AtLevel l i :=
  ⟨ha.1.trans_le h.count_le, by rw [h.level i ha.1 hf]; exact ha.2⟩

theorem trans (h : Rely A t w w') (h' : Rely A t w' w'') : Rely A t w w'' where
  stage := h'.stage.trans h.stage
  settings := h'.settings.trans h.settings
  count_le := h.count_le.trans h'.count_le
  advance u label i top p hi hu := by
    obtain ⟨top₁, p₁, hu₁, hp₁⟩ := h'.advance u label i top p (hi.trans_le h.count_le) hu
    obtain ⟨top₀, p₀, hu₀, hp₀⟩ := h.advance u label i top₁ p₁ hi hu₁
    exact ⟨top₀, p₀, hu₀, hp₀.trans hp₁⟩
  level i hi hf := (h'.level i (hi.trans_le h.count_le) (h.filled hi hf)).trans (h.level i hi hf)
  own label i top p ht := by
    obtain ⟨hl, hd, hn, hk⟩ := h.own label i top p ht
    obtain ⟨hl', hd', hn', hk'⟩ := h'.own label i top p (h.stage.trans ht)
    exact ⟨hl'.trans hl, hd'.trans hd, hn'.trans hn, fun l => (hk' l).trans (hk l)⟩
  ownLinks hnew label i top p ht o l ha hf hi := by
    obtain ⟨ha', hf', hi'⟩ := h'.ownLinks hnew label i top p (h.stage.trans ht) o l ha hf hi
    exact h.ownLinks hnew label i top p ht o l ha' hf' hi'
  maxlevel_le := h.maxlevel_le.trans h'.maxlevel_le
  top label i p ht := by
    obtain ⟨he, hm⟩ := h.top label i p ht
    obtain ⟨he', hm'⟩ := h'.top label i p (h.stage.trans ht)
    exact ⟨he'.trans he, hm'.trans hm⟩
  known label i hi := h'.known label i (h.known label i hi)
  called label hl := (h'.called label (by rw [h.stage]; exact hl)).trans (h.called label hl)
  reserved hnew label hr := (h'.reserved hnew label hr).trans (h.reserved hnew label hr)

end Rely

/-- The protocol of adding points. A thread is busy as long as it holds the lock of a label. -/
def protocol (A : Terms V T) : Protocol T (Shared V T) (T → Stage) (ℕ ×ₗ ℕ) where
  inv := Inv A
  rely := Rely A
  rely_refl := Rely.refl A
  rely_trans := Rely.trans
  busy t γ := γ t ≠ .outside
  rank t γ := (γ t).rank

end HnswRvv.Concurrent
