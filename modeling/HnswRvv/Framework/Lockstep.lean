import HnswRvv.Framework.Accounting

/-!
# Searches under two policies in lockstep

Two policies that always decide alike lead the same search, whatever their states are made of.
`Lockstep` asks for this one decision at a time: `I` relates the two states and the result queue
between visits, and `J` while a visit sheds.
-/

namespace HnswRvv.Framework

open OrderDual
set_option linter.unusedSectionVars false

variable {ι D σ τ : Type} [DecidableEq ι] [LinearOrder D]

namespace BestFirst

variable {Q : BeamQueues ι D} {G : SearchGraph ι D} {pol : SearchPolicy ι D σ}
  {pol' : SearchPolicy ι D τ}

/-- No question changes the state of the policy. -/
structure Steady (pol : SearchPolicy ι D σ) : Prop where
  stop : ∀ st n d lb, (pol.shouldStop st n d lb).2 = st
  consider : ∀ st n d lb, (pol.shouldConsider st n d lb).2 = st
  remove : ∀ st n, (pol.shouldRemove st n).2 = st

structure Lockstep (Q : BeamQueues ι D) (G : SearchGraph ι D) (pol : SearchPolicy ι D σ)
    (pol' : SearchPolicy ι D τ) (I : Q.far.Carrier → D → σ → τ → Prop)
    (J : Q.far.Carrier → σ → τ → Prop) : Prop where
  steady : Steady pol
  steady' : Steady pol'
  stop : ∀ top lb st t d, I top lb st t →
    (pol'.shouldStop t (Q.far.size top) d lb).1 = (pol.shouldStop st (Q.far.size top) d lb).1
  consider : ∀ top lb st t d, I top lb st t →
    (pol'.shouldConsider t (Q.far.size top) d lb).1 = (pol.shouldConsider st (Q.far.size top) d lb).1
  remove : ∀ top st t, J top st t →
    (pol'.shouldRemove t (Q.far.size top)).1 = (pol.shouldRemove st (Q.far.size top)).1
  admits : ∀ top lb st t c, I top lb st t →
    (pol.shouldConsider st (Q.far.size top) (G.dist c) lb).1 = true →
    J (admitted Q G pol c top st).1 (admitted Q G pol c top st).2 (admitted Q G pol' c top t).2
  shed : ∀ top st t d, J top st t → (pol.shouldRemove st (Q.far.size top)).1 = true →
    ∃ p, Q.far.top top = some p ∧ J (Q.far.pop top) (pol.removed st p.2 d) (pol'.removed t p.2 d)
  settle : ∀ top lb st t, J top st t → (pol.shouldRemove st (Q.far.size top)).1 = false →
    I top (((Q.far.top top).map Prod.fst).getD lb) st t

/-- The same beam under another policy. -/
def withState (b : Beam Q σ) (t : τ) : Beam Q τ :=
  ⟨b.topCandidates, b.candidateSet, b.visited, b.lowerBound, t⟩

variable {I : Q.far.Carrier → D → σ → τ → Prop} {J : Q.far.Carrier → σ → τ → Prop}

variable (pol pol') in
private theorem admitted_queue (c : ι) (top : Q.far.Carrier) (st : σ) (t : τ) :
    (admitted Q G pol' c top t).1 = (admitted Q G pol c top st).1 := by
  unfold admitted
  split <;> rfl

theorem Lockstep.trim (h : Lockstep Q G pol pol' I J) (d : D) {top : Q.far.Carrier} {st : σ} {t : τ}
    (hJ : J top st t) :
    ∃ top' st' t', trim Q pol d (Q.far.size top) top st = .ok (top', st') ∧
      BestFirst.trim Q pol' d (Q.far.size top) top t = .ok (top', t') ∧
      ∀ lb, I top' (((Q.far.top top').map Prod.fst).getD lb) st' t' := by
  induction hn : Q.far.size top generalizing top st t with
  | zero =>
    have hkeep : (pol.shouldRemove st (Q.far.size top)).1 = false := by
      by_contra hremove
      obtain ⟨p, hp, -⟩ := h.shed top st t d hJ (Bool.not_eq_false _ ▸ hremove)
      have := Q.far.size_pop hp
      omega
    refine ⟨top, st, t, ?_, ?_, fun lb => h.settle top lb st t hJ hkeep⟩
    · rw [trim_of_keep hkeep, h.steady.remove]
    · rw [trim_of_keep ((h.remove top st t hJ).trans hkeep), h.steady'.remove]
  | succ n ih =>
    cases hremove : (pol.shouldRemove st (Q.far.size top)).1 with
    | false =>
      refine ⟨top, st, t, ?_, ?_, fun lb => h.settle top lb st t hJ hremove⟩
      · rw [trim_of_keep hremove, h.steady.remove]
      · rw [trim_of_keep ((h.remove top st t hJ).trans hremove), h.steady'.remove]
    | true =>
      obtain ⟨p, hp, hJ'⟩ := h.shed top st t d hJ hremove
      have hpop := Q.far.size_pop hp
      obtain ⟨top', st', t', htrim, htrim', hI⟩ := ih hJ' (by omega)
      refine ⟨top', st', t', ?_, ?_, hI⟩
      · rw [trim_of_remove hremove hp, h.steady.remove]
        exact htrim
      · rw [trim_of_remove ((h.remove top st t hJ).trans hremove) hp, h.steady'.remove]
        exact htrim'

variable {b : Beam Q σ} {t : τ}

theorem Lockstep.visit (h : Lockstep Q G pol pol' I J) (c : ι)
    (hI : I b.topCandidates b.lowerBound b.state t) :
    ∃ b₁ t₁, visit Q G pol c b = .ok b₁ ∧
      BestFirst.visit Q G pol' c (withState b t) = .ok (withState b₁ t₁) ∧
      I b₁.topCandidates b₁.lowerBound b₁.state t₁ := by
  have hconsider := h.consider _ _ _ _ (G.dist c) hI
  unfold BestFirst.visit
  simp only [BestFirst.consider, withState, h.steady.consider, h.steady'.consider, hconsider]
  split
  · exact ⟨b, t, rfl, rfl, hI⟩
  · cases hwant : (pol.shouldConsider b.state (Q.far.size b.topCandidates) (G.dist c) b.lowerBound).1 with
    | false => exact ⟨_, t, rfl, rfl, hI⟩
    | true =>
      obtain ⟨top', st', t', htrim, htrim', hI'⟩ :=
        h.trim (G.dist c) (h.admits _ _ _ _ c hI hwant)
      simp only [if_true, htrim, admitted_queue pol pol' c b.topCandidates b.state t, htrim']
      exact ⟨_, t', rfl, rfl, hI' _⟩

theorem Lockstep.expand (h : Lockstep Q G pol pol' I J) (l : List ι)
    (hI : I b.topCandidates b.lowerBound b.state t) :
    ∃ b₁ t₁, expand Q G pol l b = .ok b₁ ∧
      BestFirst.expand Q G pol' l (withState b t) = .ok (withState b₁ t₁) ∧
      I b₁.topCandidates b₁.lowerBound b₁.state t₁ := by
  induction l generalizing b t with
  | nil => exact ⟨b, t, rfl, rfl, hI⟩
  | cons c cs ih =>
    obtain ⟨b₁, t₁, hvisit, hvisit', hI₁⟩ := h.visit c hI
    obtain ⟨b₂, t₂, hrest, hrest', hI₂⟩ := ih hI₁
    refine ⟨b₂, t₂, ?_, ?_, hI₂⟩
    · rw [BestFirst.expand, hvisit]
      exact hrest
    · rw [BestFirst.expand, hvisit']
      exact hrest'

theorem Lockstep.next (h : Lockstep Q G pol pol' I J) (hI : I b.topCandidates b.lowerBound b.state t) :
    (∃ b₁, next Q pol b = .inl b₁ ∧ BestFirst.next Q pol' (withState b t) = .inl (withState b₁ t) ∧
      I b₁.topCandidates b₁.lowerBound b₁.state t) ∨
    ∃ c b₁, BestFirst.next Q pol b = .inr (c, b₁) ∧
      BestFirst.next Q pol' (withState b t) = .inr (c, withState b₁ t) ∧
      I b₁.topCandidates b₁.lowerBound b₁.state t := by
  unfold BestFirst.next
  simp only [withState, h.steady.stop, h.steady'.stop]
  split
  · exact .inl ⟨b, rfl, rfl, hI⟩
  · next p _ =>
    simp only [h.stop _ _ _ _ (ofDual p.1) hI]
    split
    · exact .inl ⟨b, rfl, rfl, hI⟩
    · exact .inr ⟨_, _, rfl, rfl, hI⟩

theorem Lockstep.loop (h : Lockstep Q G pol pol' I J) (fuel : Nat)
    (hI : I b.topCandidates b.lowerBound b.state t) :
    loop Q G pol fuel b = .error .fuel ∨
    ∃ b₁ t₁, BestFirst.loop Q G pol fuel b = .ok b₁ ∧
      BestFirst.loop Q G pol' fuel (withState b t) = .ok (withState b₁ t₁) ∧
      I b₁.topCandidates b₁.lowerBound b₁.state t₁ := by
  induction fuel generalizing b t with
  | zero =>
    unfold BestFirst.loop
    rcases h.next hI with ⟨b₁, hn, hn', hI₁⟩ | ⟨c, b₁, hn, -, -⟩
    · rw [hn, hn']
      exact .inr ⟨b₁, t, rfl, rfl, hI₁⟩
    · rw [hn]
      exact .inl rfl
  | succ fuel ih =>
    unfold BestFirst.loop
    rcases h.next hI with ⟨b₁, hn, hn', hI₁⟩ | ⟨c, b₁, hn, hn', hI₁⟩
    · rw [hn, hn']
      exact .inr ⟨b₁, t, rfl, rfl, hI₁⟩
    · obtain ⟨b₂, t₂, hexpand, hexpand', hI₂⟩ := h.expand (G.links c) hI₁
      simp only [hn, hn', hexpand, hexpand']
      exact ih hI₂

theorem Lockstep.search (h : Lockstep Q G pol pol' I J) {U : Finset ι} {ep : ι}
    (hclosed : ∀ i ∈ U, ∀ j ∈ G.links i, j ∈ U) (hep : ep ∈ U) {fuel : Nat} (hfuel : U.card ≤ fuel)
    {maxDist : D} {st : σ} {t : τ}
    (hstart : I (start Q G pol maxDist ep st).topCandidates (start Q G pol maxDist ep st).lowerBound
      (start Q G pol maxDist ep st).state (start Q G pol' maxDist ep t).state) :
    ∃ b t', search Q G pol fuel maxDist ep st = .ok b ∧
      BestFirst.search Q G pol' fuel maxDist ep t = .ok (withState b t') ∧
      I b.topCandidates b.lowerBound b.state t' := by
  have hbegin : start Q G pol' maxDist ep t =
      withState (start Q G pol maxDist ep st) (start Q G pol' maxDist ep t).state := by
    unfold start withState
    split <;> rfl
  rcases h.loop fuel hstart with hfail | ⟨b, t', hrun, hrun', hI⟩
  · exact absurd hfail (search_ne_fuel hclosed hep hfuel)
  · rw [← hbegin] at hrun'
    exact ⟨b, t', hrun, hrun', hI⟩

end BestFirst

end HnswRvv.Framework
