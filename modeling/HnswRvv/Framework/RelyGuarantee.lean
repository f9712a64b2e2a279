import HnswRvv.Framework.Interleaving

/-!
# Rely and guarantee for threads

A protocol says what the threads of a pool may do to each other. It speaks of the shared state
together with a ghost state that the programs do not have: an invariant of both, and for every
thread the moves of the others that it has to bear. A program meets its postcondition under the
protocol if each of its acts keeps the invariant and is a move the others bear, and if an act that
has to wait waits for a busy thread of a lower rank. The last condition is what rules deadlock out.
-/

namespace HnswRvv.Framework

structure Protocol (ι S Γ R : Type) where
  inv : S × Γ → Prop
  rely : ι → S × Γ → S × Γ → Prop
  rely_refl : ∀ t w, rely t w w
  rely_trans : ∀ {t w w' w''}, rely t w w' → rely t w' w'' → rely t w w''
  busy : ι → Γ → Prop
  rank : ι → Γ → R

namespace Protocol

set_option linter.unusedSectionVars false

variable {ι S Γ R α β ε : Type} [LT R] (K : Protocol ι S Γ R) (t : ι)

/-- A thread of lower rank has to move first. -/
def Waits (g : Γ) : Prop := ∃ u, K.busy u g ∧ K.rank u g < K.rank t g

/-- A step that `t` may make. -/
structure Move (w w' : S × Γ) : Prop where
  inv : K.inv w'
  rely : ∀ u, u ≠ t → K.rely u w w'

/-- `p` run by `t` ends in `Q`, whatever moves the others make before each of its acts. -/
def sat (Q : α → S × Γ → Prop) : Prog S α → S × Γ → Prop
  | .done a, w => ∀ w', K.inv w' → K.rely t w w' → Q a w'
  | .act ready effect next, w => ∀ w', K.inv w' → K.rely t w w' →
      (ready w'.1 = false → K.Waits t w'.2) ∧
      (ready w'.1 = true → ∃ g, K.Move t w' (effect w'.1, g) ∧
        sat Q (next w'.1) (effect w'.1, g))

variable {K t} {Q Q' : α → S × Γ → Prop} {w w' : S × Γ}

theorem sat_rely {p : Prog S α} (h : K.sat t Q p w) (hr : K.rely t w w') : K.sat t Q p w' := by
  cases p with
  | done a => exact fun w'' hi hr' => h w'' hi (K.rely_trans hr hr')
  | act ready effect next => exact fun w'' hi hr' => h w'' hi (K.rely_trans hr hr')

theorem sat_of_rely {p : Prog S α} (h : ∀ w', K.inv w' → K.rely t w w' → K.sat t Q p w') :
    K.sat t Q p w := by
  cases p with
  | done a => exact fun w' hi hr => h w' hi hr w' hi (K.rely_refl t w')
  | act ready effect next => exact fun w' hi hr => h w' hi hr w' hi (K.rely_refl t w')

theorem sat_mono {p : Prog S α} (h : K.sat t Q p w) (hq : ∀ a w', K.inv w' → Q a w' → Q' a w') :
    K.sat t Q' p w := by
  induction p generalizing w with
  | done a => exact fun w' hi hr => hq a w' hi (h w' hi hr)
  | act ready effect next ih =>
    intro w' hi hr
    obtain ⟨hwait, hgo⟩ := h w' hi hr
    refine ⟨hwait, fun hready => ?_⟩
    obtain ⟨g, hmove, hrest⟩ := hgo hready
    exact ⟨g, hmove, ih w'.1 hrest⟩

theorem sat_bind {p : Prog S α} {f : α → Prog S β} {Q : β → S × Γ → Prop}
    (h : K.sat t (fun a => K.sat t Q (f a)) p w) : K.sat t Q (p >>= f) w := by
  induction p generalizing w with
  | done a => exact sat_of_rely h
  | act ready effect next ih =>
    intro w' hi hr
    obtain ⟨hwait, hgo⟩ := h w' hi hr
    refine ⟨hwait, fun hready => ?_⟩
    obtain ⟨g, hmove, hrest⟩ := hgo hready
    exact ⟨g, hmove, ih w'.1 hrest⟩

theorem sat_atomic {ready : S → Bool} {f : S → α × S}
    (hwait : ∀ w', K.inv w' → K.rely t w w' → ready w'.1 = false → K.Waits t w'.2)
    (hgo : ∀ w', K.inv w' → K.rely t w w' → ready w'.1 = true → ∃ g,
      K.Move t w' ((f w'.1).2, g) ∧
        ∀ w'', K.inv w'' → K.rely t ((f w'.1).2, g) w'' → Q (f w'.1).1 w'') :
    K.sat t Q (Prog.atomic ready f) w :=
  fun w' hi hr => ⟨hwait w' hi hr, hgo w' hi hr⟩

theorem sat_stable {p : Prog S α} (h : K.sat t Q p w) :
    K.sat t (fun a w' => ∀ w'', K.inv w'' → K.rely t w' w'' → Q a w'') p w := by
  induction p generalizing w with
  | done a => exact fun w' _ hr w'' hi hr' => h w'' hi (K.rely_trans hr hr')
  | act ready effect next ih =>
    intro w' hi hr
    obtain ⟨hwait, hgo⟩ := h w' hi hr
    refine ⟨hwait, fun hready => ?_⟩
    obtain ⟨g, hmove, hrest⟩ := hgo hready
    exact ⟨g, hmove, ih w'.1 hrest⟩

/-- A postcondition for the result and one for the exception. -/
def ends (Q : α → S × Γ → Prop) (E : ε → S × Γ → Prop) : Except ε α → S × Γ → Prop
  | .ok a => Q a
  | .error e => E e

variable (K t) in
def satE (Q : α → S × Γ → Prop) (E : ε → S × Γ → Prop) (m : ExceptT ε (Prog S) α) (w : S × Γ) :
    Prop := K.sat t (ends Q E) m.run w

variable {E E' : ε → S × Γ → Prop}

theorem satE_rely {m : ExceptT ε (Prog S) α} (h : K.satE t Q E m w) (hr : K.rely t w w') :
    K.satE t Q E m w' := sat_rely h hr

theorem satE_of_rely {m : ExceptT ε (Prog S) α}
    (h : ∀ w', K.inv w' → K.rely t w w' → K.satE t Q E m w') : K.satE t Q E m w := sat_of_rely h

theorem satE_mono {m : ExceptT ε (Prog S) α} (h : K.satE t Q E m w)
    (hq : ∀ a w', K.inv w' → Q a w' → Q' a w') (he : ∀ e w', K.inv w' → E e w' → E' e w') :
    K.satE t Q' E' m w := by
  refine sat_mono h fun r w' hi hr => ?_
  cases r with
  | ok a => exact hq a w' hi hr
  | error e => exact he e w' hi hr

theorem satE_pure {a : α} (h : ∀ w', K.inv w' → K.rely t w w' → Q a w') :
    K.satE t Q E (pure a) w := h

theorem satE_bind {m : ExceptT ε (Prog S) α} {f : α → ExceptT ε (Prog S) β}
    {Q : β → S × Γ → Prop} (h : K.satE t (fun a => K.satE t Q E (f a)) E m w) :
    K.satE t Q E (m >>= f) w := by
  unfold satE
  rw [ExceptT.run_bind]
  refine sat_bind (sat_mono (sat_stable h) fun r w' hi hr => ?_)
  cases r with
  | ok a => exact hr w' hi (K.rely_refl t w')
  | error e => exact hr

theorem satE_atomic_bind {ready : S → Bool} {f : S → Except ε α × S} {k : α → ExceptT ε (Prog S) β}
    {Q : β → S × Γ → Prop}
    (hwait : ∀ w', K.inv w' → K.rely t w w' → ready w'.1 = false → K.Waits t w'.2)
    (hgo : ∀ w', K.inv w' → K.rely t w w' → ready w'.1 = true → ∃ g,
      K.Move t w' ((f w'.1).2, g) ∧
        ends (fun a => K.satE t Q E (k a))
          (fun e w => ∀ w', K.inv w' → K.rely t w w' → E e w') (f w'.1).1 ((f w'.1).2, g)) :
    K.satE t Q E (ExceptT.mk (Prog.atomic ready f) >>= k) w := by
  refine satE_bind (sat_atomic hwait fun w' hi hr hready => ?_)
  obtain ⟨g, hmove, hends⟩ := hgo w' hi hr hready
  refine ⟨g, hmove, fun w'' hi' hr' => ?_⟩
  cases hf : (f w'.1).1 with
  | ok a =>
    rw [hf] at hends
    exact satE_rely hends hr'
  | error e =>
    rw [hf] at hends
    exact hends w'' hi' hr'

theorem satE_ensuring {m : ExceptT ε (Prog S) α} {fin : Prog S Unit}
    (h : K.satE t (fun a => K.sat t (fun _ => Q a) fin) (fun e => K.sat t (fun _ => E e) fin) m w) :
    K.satE t Q E (Prog.ensuring m fin) w := by
  refine sat_bind (sat_mono h fun r w' _ hr => sat_bind ?_)
  cases r with
  | ok a => exact sat_stable hr
  | error e => exact sat_stable hr

theorem satE_forM {l : List α} {f : α → ExceptT ε (Prog S) PUnit} {I : List α → S × Γ → Prop}
    (hstable : ∀ l w w', I l w → K.inv w' → K.rely t w w' → I l w') (hw : I l w)
    (hstep : ∀ a rest w, K.inv w → I (a :: rest) w → K.satE t (fun _ => I rest) E (f a) w) :
    K.satE t (fun _ => I []) E (forM l f) w := by
  induction l generalizing w with
  | nil => exact satE_pure fun w' hi hr => hstable [] w w' hw hi hr
  | cons a l ih =>
    rw [List.forM_cons]
    refine satE_of_rely fun w' hi hr => satE_bind ?_
    exact satE_mono (hstep a l w' hi (hstable _ w w' hw hi hr)) (fun _ w'' _ hw'' => ih hw'')
      fun _ _ _ he => he

/-- Some ghost state fits the shared one, and every thread is on its way to its postcondition. -/
def Follows (K : Protocol ι S Γ R) (Q : ι → α → S × Γ → Prop) (p : Pool ι S α) : Prop :=
  ∃ g, K.inv (p.shared, g) ∧ ∀ t, K.sat t (Q t) (p.thread t) (p.shared, g)

variable [DecidableEq ι] {Q : ι → α → S × Γ → Prop} {p p' : Pool ι S α}

theorem Follows.step (h : K.Follows Q p) (hp : Pool.Step p p') : K.Follows Q p' := by
  obtain ⟨g, hinv, hall⟩ := h
  cases hp with
  | @act t ready effect next hthread hready =>
    have ht := hall t
    rw [hthread] at ht
    obtain ⟨g', hmove, hrest⟩ := (ht _ hinv (K.rely_refl t _)).2 hready
    refine ⟨g', hmove.inv, fun u => ?_⟩
    dsimp only
    by_cases hu : u = t
    · subst hu
      rw [Function.update_self]
      exact hrest
    · rw [Function.update_of_ne hu]
      exact sat_rely (hall u) (hmove.rely u hu)

theorem Follows.runs (h : K.Follows Q p) (hp : Pool.Runs p p') : K.Follows Q p' := by
  induction hp with
  | refl => exact h
  | tail _ hstep ih => exact ih.step hstep

/-- The postcondition of a thread that has ended holds in every later state. -/
theorem Follows.post (h : K.Follows Q p) :
    ∃ g, K.inv (p.shared, g) ∧ ∀ t a, p.thread t = .done a → Q t a (p.shared, g) := by
  obtain ⟨g, hinv, hall⟩ := h
  refine ⟨g, hinv, fun t a hdone => ?_⟩
  have ht := hall t
  rw [hdone] at ht
  exact ht _ hinv (K.rely_refl t _)

/-- A pool whose ended threads are not busy cannot get stuck: of the threads that have not ended,
one with the lowest rank can go on. -/
theorem Follows.progress [WellFoundedLT R] (h : K.Follows Q p)
    (hidle : ∀ t a s g, Q t a (s, g) → ¬ K.busy t g) : p.Finished ∨ ∃ p', Pool.Step p p' := by
  obtain ⟨g, hinv, hall⟩ := h
  by_contra hstuck
  rw [not_or, not_exists] at hstuck
  obtain ⟨hopen, hstuck⟩ := hstuck
  -- by induction on the rank, every thread has ended
  have hends : ∀ r t, K.rank t g = r → ∃ a, p.thread t = .done a := by
    intro r
    induction r using WellFoundedLT.induction with
    | _ r ih =>
      rintro t rfl
      have ht := hall t
      cases hthread : p.thread t with
      | done a => exact ⟨a, rfl⟩
      | act ready effect next =>
        rw [hthread] at ht
        cases hready : ready p.shared with
        | true => exact absurd (Pool.Step.act t hthread hready) (hstuck _)
        | false =>
          obtain ⟨u, hbusy, hlt⟩ := (ht _ hinv (K.rely_refl t _)).1 hready
          obtain ⟨a, hdone⟩ := ih _ hlt u rfl
          have hu := hall u
          rw [hdone] at hu
          exact absurd hbusy (hidle u a _ _ (hu _ hinv (K.rely_refl u _)))
  exact hopen fun t => hends _ t rfl

theorem Follows.exists_finished [WellFoundedLT R] [Finite ι] (h : K.Follows Q p)
    (hidle : ∀ t a s g, Q t a (s, g) → ¬ K.busy t g) :
    ∃ p', Pool.Runs p p' ∧ p'.Finished ∧ K.Follows Q p' := by
  have hstep : ∀ p p' : Pool ι S α, K.Follows Q p → Pool.Step p p' → K.Follows Q p' :=
    fun _ _ h hs => h.step hs
  obtain ⟨p', hruns, hdone⟩ := Pool.exists_finished hstep (fun _ h => h.progress hidle) h
  exact ⟨p', hruns, hdone, h.runs hruns⟩

end Protocol

end HnswRvv.Framework
