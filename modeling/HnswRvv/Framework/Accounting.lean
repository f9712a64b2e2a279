import HnswRvv.Framework.NearestBeam

/-!
# Policies that keep account of the results

The state of a policy may mirror the result queue: it is told of every node that joins the queue and
of every node that is shed. `Accounts` says what has to be shown of such a policy, one visit at a
time: `I` holds between visits, and `J` while a visit sheds. A search under such a policy ends, never
sheds from an empty queue, and keeps `I`; `SearchAsks` says that a relation between the queue and the
state holds whenever the policy is asked for a decision.
-/

namespace HnswRvv.Framework

open OrderDual
set_option linter.unusedSectionVars false

variable {ι D σ : Type} [DecidableEq ι] [LinearOrder D]

namespace BestFirst

variable {Q : BeamQueues ι D} {G : SearchGraph ι D} {pol : SearchPolicy ι D σ}

/-- The beam after the node `c` has been admitted and the result queue is `top`. -/
def settled (Q : BeamQueues ι D) (G : SearchGraph ι D) (b : Beam Q σ) (c : ι)
    (top : Q.far.Carrier) (st : σ) : Beam Q σ :=
  ⟨top, Q.near.push b.candidateSet (toDual (G.dist c), c), insert c b.visited,
    ((Q.far.top top).map Prod.fst).getD b.lowerBound, st⟩

/-- The beam after the node `c` has been turned down. -/
def passed (b : Beam Q σ) (c : ι) (st : σ) : Beam Q σ :=
  { b with visited := insert c b.visited, state := st }

structure Accounts (Q : BeamQueues ι D) (G : SearchGraph ι D) (pol : SearchPolicy ι D σ) (ep : ι)
    (I : Beam Q σ → Prop) (J : Beam Q σ → ι → Q.far.Carrier → σ → Prop) : Prop where
  next : ∀ b c b', I b → next Q pol b = .inr (c, b') → I b'
  pass : ∀ b c, I b → Sound Q G ep b → (consider Q G pol c b).1 = false →
    I (passed b c (consider Q G pol c b).2)
  admits : ∀ b c, I b → Sound Q G ep b → Reach G ep c → c ∉ b.visited →
    (consider Q G pol c b).1 = true →
    J b c (admitted Q G pol c b.topCandidates (consider Q G pol c b).2).1
      (admitted Q G pol c b.topCandidates (consider Q G pol c b).2).2
  shed : ∀ b c top st, J b c top st → (pol.shouldRemove st (Q.far.size top)).1 = true →
    ∃ p, Q.far.top top = some p ∧ J b c (Q.far.pop top)
      (pol.removed (pol.shouldRemove st (Q.far.size top)).2 p.2 (G.dist c))
  settle : ∀ b c top st, J b c top st → (pol.shouldRemove st (Q.far.size top)).1 = false →
    I (settled Q G b c top (pol.shouldRemove st (Q.far.size top)).2)

variable {ep : ι} {I : Beam Q σ → Prop} {J : Beam Q σ → ι → Q.far.Carrier → σ → Prop}

theorem Accounts.trim (ha : Accounts Q G pol ep I J) {b : Beam Q σ} {c : ι}
    {top : Q.far.Carrier} {st : σ} (hJ : J b c top st) :
    ∃ top' st', trim Q pol (G.dist c) (Q.far.size top) top st = .ok (top', st') ∧
      I (settled Q G b c top' st') := by
  generalize hn : Q.far.size top = n
  induction n generalizing top st with
  | zero =>
    cases hremove : (pol.shouldRemove st (Q.far.size top)).1 with
    | true =>
      obtain ⟨p, hp, -⟩ := ha.shed b c top st hJ hremove
      have hpop := Q.far.size_pop hp
      omega
    | false =>
      refine ⟨top, _, ?_, ha.settle b c top st hJ hremove⟩
      simp only [BestFirst.trim, hremove, Bool.false_eq_true, if_false]
  | succ n ih =>
    cases hremove : (pol.shouldRemove st (Q.far.size top)).1 with
    | true =>
      obtain ⟨p, hp, hJ'⟩ := ha.shed b c top st hJ hremove
      have hpop := Q.far.size_pop hp
      obtain ⟨top', st', htrim, hI⟩ := ih hJ' (by omega)
      refine ⟨top', st', ?_, hI⟩
      simp only [BestFirst.trim, hremove, if_true, hp]
      exact htrim
    | false =>
      refine ⟨top, _, ?_, ha.settle b c top st hJ hremove⟩
      simp only [BestFirst.trim, hremove, Bool.false_eq_true, if_false]

theorem Accounts.visit (ha : Accounts Q G pol ep I J) {b : Beam Q σ} {c : ι} (hI : I b)
    (hs : Sound Q G ep b) (hc : Reach G ep c) : ∃ b', visit Q G pol c b = .ok b' ∧ I b' := by
  unfold BestFirst.visit
  split
  · exact ⟨b, rfl, hI⟩
  · next hv =>
    dsimp only
    cases hconsider : (consider Q G pol c b).1 with
    | false =>
      simp only [Bool.false_eq_true, if_false]
      exact ⟨_, rfl, ha.pass b c hI hs hconsider⟩
    | true =>
      obtain ⟨top, st, htrim, hI'⟩ := ha.trim (ha.admits b c hI hs hc hv hconsider)
      simp only [if_true, htrim]
      exact ⟨_, rfl, hI'⟩

/-- The search ends, and its last beam but for the state is one that satisfies `I`. -/
theorem Accounts.search (ha : Accounts Q G pol ep I J) {U : Finset ι}
    (hclosed : ∀ i ∈ U, ∀ j ∈ G.links i, j ∈ U) {fuel : Nat} (hep : ep ∈ U)
    (hfuel : U.card ≤ fuel) {maxDist : D} {st : σ} (hstart : I (start Q G pol maxDist ep st)) :
    ∃ b b₀, search Q G pol fuel maxDist ep st = .ok b ∧ I b₀ ∧ BestFirst.next Q pol b₀ = .inl b := by
  have hstep : ∀ b c b', I b ∧ Sound Q G ep b → BestFirst.next Q pol b = .inr (c, b') →
      I b' ∧ Sound Q G ep b' ∧ c ∈ b'.visited := by
    rintro b c b' ⟨hI, hs⟩ hn
    exact ⟨ha.next b c b' hI hn, hs.next_inr hn⟩
  have hkeep : ∀ c, ∀ x ∈ G.links c, ∀ b, I b ∧ Sound Q G ep b ∧ c ∈ b.visited →
      ∃ b', BestFirst.visit Q G pol x b = .ok b' ∧ I b' ∧ Sound Q G ep b' ∧ c ∈ b'.visited := by
    rintro c x hx b ⟨hI, hs, hc⟩
    have hreach : Reach G ep x := (hs.reach c hc).tail hx
    obtain ⟨b', hv, hI'⟩ := ha.visit hI hs hreach
    refine ⟨b', hv, hI', hs.visit hreach hv, ?_⟩
    rw [visit_visited hv]
    exact Finset.mem_insert_of_mem hc
  have hbegin : I (start Q G pol maxDist ep st) ∧ Sound Q G ep (start Q G pol maxDist ep st) :=
    ⟨hstart, start_sound maxDist ep st⟩
  cases hrun : BestFirst.search Q G pol fuel maxDist ep st with
  | error e =>
    exfalso
    cases e with
    | fuel => exact search_ne_fuel hclosed hep hfuel hrun
    | emptyQueue =>
      exact loop_ne_emptyQueue (P := fun b => I b ∧ Sound Q G ep b)
        (R := fun c b => I b ∧ Sound Q G ep b ∧ c ∈ b.visited) hstep hkeep
        (fun c b hb => ⟨hb.1, hb.2.1⟩) fuel hbegin hrun
  | ok b =>
    obtain ⟨b₀, hb₀, hn⟩ := loop_rule (P := fun b => I b ∧ Sound Q G ep b)
      (R := fun c b => I b ∧ Sound Q G ep b ∧ c ∈ b.visited) hstep
      (fun c x hx b b' hb hv => by
        obtain ⟨b₁, hv', hb₁⟩ := hkeep c x hx b hb
        rw [hv] at hv'
        cases hv'
        exact hb₁)
      (fun c b hb _ => ⟨hb.1, hb.2.1⟩) hbegin hrun
    exact ⟨b, b₀, rfl, hb₀.1, hn⟩

section SameState

variable {b b' : Beam Q σ}

theorem next_inl_state (hsame : ∀ st n d lb, (pol.shouldStop st n d lb).2 = st)
    (h : BestFirst.next Q pol b = .inl b') : b'.state = b.state := by
  unfold BestFirst.next at h
  split at h
  · cases h
    rfl
  · dsimp only at h
    split at h
    · cases h
      exact hsame _ _ _ _
    · cases h

theorem next_inr_state {c : ι} (hsame : ∀ st n d lb, (pol.shouldStop st n d lb).2 = st)
    (h : BestFirst.next Q pol b = .inr (c, b')) : b'.state = b.state := by
  unfold BestFirst.next at h
  split at h
  · cases h
  · dsimp only at h
    split at h
    · cases h
    · cases h
      exact hsame _ _ _ _

theorem loop_leaves (hsame : ∀ st n d lb, (pol.shouldStop st n d lb).2 = st) {fuel : Nat}
    (hleaves : ∀ p ∈ Q.near.elems b.candidateSet, G.links p.2 = [])
    (h : BestFirst.loop Q G pol fuel b = .ok b') :
    b'.topCandidates = b.topCandidates ∧ b'.state = b.state := by
  obtain ⟨b₀, ⟨-, htop, hstate⟩, hn⟩ := loop_rule
    (P := fun b₁ => (∀ p ∈ Q.near.elems b₁.candidateSet, G.links p.2 = []) ∧
      b₁.topCandidates = b.topCandidates ∧ b₁.state = b.state)
    (R := fun c b₁ => G.links c = [] ∧ (∀ p ∈ Q.near.elems b₁.candidateSet, G.links p.2 = []) ∧
      b₁.topCandidates = b.topCandidates ∧ b₁.state = b.state)
    (fun b₁ c b₂ hb hn => by
      obtain ⟨htop, -, -, d, hpending⟩ := next_inr hn
      rw [htop, next_inr_state hsame hn]
      refine ⟨hb.1 (d, c) ?_, fun p hp => hb.1 p ?_, hb.2⟩
      · rw [hpending]
        exact Multiset.mem_cons_self _ _
      · rw [hpending]
        exact Multiset.mem_cons_of_mem hp)
    (fun c x hx b₁ b₂ hb _ => absurd hx (hb.1 ▸ List.not_mem_nil))
    (fun c b₁ hb _ => hb.2) ⟨hleaves, rfl, rfl⟩ h
  rw [(next_inl hn).1, next_inl_state hsame hn]
  exact ⟨htop, hstate⟩

theorem next_start (hsame : ∀ st n d lb, (pol.shouldStop st n d lb).2 = st) {hub : ι}
    (heligible : G.eligible hub = true) {maxDist : D} {st : σ}
    (hgo : (pol.shouldStop (pol.added st hub (G.dist hub)) 1 (G.dist hub) (G.dist hub)).1 = false) :
    ∃ b₀, BestFirst.next Q pol (start Q G pol maxDist hub st) = .inr (hub, b₀) ∧
      b₀.topCandidates = Q.far.push Q.far.empty (G.dist hub, hub) ∧ b₀.visited = {hub} ∧
      b₀.lowerBound = G.dist hub ∧ b₀.state = pol.added st hub (G.dist hub) ∧
      Q.near.elems b₀.candidateSet = 0 := by
  have hstart : start Q G pol maxDist hub st = ⟨Q.far.push Q.far.empty (G.dist hub, hub),
      Q.near.push Q.near.empty (toDual (G.dist hub), hub), {hub}, G.dist hub,
      pol.added st hub (G.dist hub)⟩ := if_pos heligible
  have hpending : Q.near.elems (Q.near.push Q.near.empty (toDual (G.dist hub), hub)) =
      {(toDual (G.dist hub), hub)} := by
    rw [Q.near.elems_push, Q.near.elems_empty]
    rfl
  have htop : Q.near.top (Q.near.push Q.near.empty (toDual (G.dist hub), hub)) =
      some (toDual (G.dist hub), hub) := by
    apply Q.near.top_eq_of_forall_less
    · rw [hpending]
      exact Multiset.mem_singleton_self _
    · intro p hp hne
      rw [hpending] at hp
      exact absurd (Multiset.mem_singleton.mp hp) hne
  have hn : BestFirst.next Q pol (start Q G pol maxDist hub st) =
      .inr (hub, ⟨Q.far.push Q.far.empty (G.dist hub, hub),
        Q.near.pop (Q.near.push Q.near.empty (toDual (G.dist hub), hub)), {hub}, G.dist hub,
        (pol.shouldStop (pol.added st hub (G.dist hub)) 1 (G.dist hub) (G.dist hub)).2⟩) := by
    rw [BestFirst.next, hstart, htop]
    dsimp only [ofDual_toDual]
    rw [Q.far.size_push, Q.far.size_empty]
    exact if_neg (by rw [hgo]; exact Bool.false_ne_true)
  refine ⟨_, hn, rfl, rfl, rfl, hsame _ _ _ _, ?_⟩
  have hrest := Q.near.elems_of_top_some _ _ htop
  rw [hpending, ← Multiset.cons_zero, Multiset.cons_inj_right] at hrest
  exact hrest.symm

theorem search_star (hsame : ∀ st n d lb, (pol.shouldStop st n d lb).2 = st) {hub : ι}
    (heligible : G.eligible hub = true) (hleaves : ∀ i ∈ G.links hub, G.links i = [])
    {fuel : Nat} {maxDist : D} {st : σ}
    (hgo : (pol.shouldStop (pol.added st hub (G.dist hub)) 1 (G.dist hub) (G.dist hub)).1 = false)
    (h : BestFirst.search Q G pol fuel maxDist hub st = .ok b) :
    ∃ b₀ b₁, b₀.topCandidates = Q.far.push Q.far.empty (G.dist hub, hub) ∧ b₀.visited = {hub} ∧
      b₀.lowerBound = G.dist hub ∧ b₀.state = pol.added st hub (G.dist hub) ∧
      BestFirst.expand Q G pol (G.links hub) b₀ = .ok b₁ ∧
      b.topCandidates = b₁.topCandidates ∧ b.state = b₁.state := by
  obtain ⟨b₀, hn, htop, hvisited, hlb, hstate, hnone⟩ := next_start hsame heligible hgo
  rw [BestFirst.search, BestFirst.loop, hn] at h
  cases fuel with
  | zero => cases h
  | succ fuel =>
    dsimp only at h
    cases hexpand : BestFirst.expand Q G pol (G.links hub) b₀ with
    | error e =>
      rw [hexpand] at h
      cases h
    | ok b₁ =>
      rw [hexpand] at h
      refine ⟨b₀, b₁, htop, hvisited, hlb, hstate, hexpand, loop_leaves hsame ?_ h⟩
      apply expand_rule (P := fun b => ∀ p ∈ Q.near.elems b.candidateSet, G.links p.2 = []) _ _
        hexpand
      · intro c hc b₂ b₃ hb₂ hvisit
        rcases visit_cases hvisit with ⟨-, rfl⟩ | ⟨-, -, rfl⟩ | ⟨-, -, mid, top, st', -, -, rfl⟩
        · exact hb₂
        · exact hb₂
        · intro p hp
          rw [Q.near.elems_push] at hp
          rcases Multiset.mem_cons.mp hp with rfl | hp
          · exact hleaves c hc
          · exact hb₂ p hp
      · intro p hp
        rw [hnone] at hp
        exact absurd hp (Multiset.notMem_zero p)

end SameState

section Complete

variable {R : Finset ι} {b : Beam Q σ}

theorem next_inl_cases {b' : Beam Q σ} (h : BestFirst.next Q pol b = .inl b') :
    Q.near.elems b.candidateSet = 0 ∨ ∃ d,
      (pol.shouldStop b.state (Q.far.size b.topCandidates) d b.lowerBound).1 = true := by
  unfold BestFirst.next at h
  split at h
  · next htop => exact .inl (Q.near.elems_of_top_none _ htop)
  · next p _ =>
    dsimp only at h
    split at h
    · next hstop => exact .inr ⟨ofDual p.1, hstop⟩
    · cases h

theorem trim_of_keep {d : D} {n : Nat} {top : Q.far.Carrier} {st : σ}
    (h : (pol.shouldRemove st (Q.far.size top)).1 = false) :
    BestFirst.trim Q pol d n top st = .ok (top, (pol.shouldRemove st (Q.far.size top)).2) := by
  cases n <;> simp [BestFirst.trim, h]

theorem trim_of_remove {d : D} {n : Nat} {top : Q.far.Carrier} {st : σ} {p : D × ι}
    (h : (pol.shouldRemove st (Q.far.size top)).1 = true) (hp : Q.far.top top = some p) :
    BestFirst.trim Q pol d (n + 1) top st = BestFirst.trim Q pol d n (Q.far.pop top)
      (pol.removed (pol.shouldRemove st (Q.far.size top)).2 p.2 d) := by
  simp [BestFirst.trim, h, hp]

def resultIds (b : Beam Q σ) : Finset ι := ((Q.far.elems b.topCandidates).map Prod.snd).toFinset

theorem Sound.card_resultIds (hs : Sound Q G ep b) :
    (resultIds b).card = Q.far.size b.topCandidates := by
  rw [resultIds, Multiset.toFinset_card_of_nodup hs.nodup, Multiset.card_map, PriorityQueue.size]

theorem Sound.mem_resultIds (hs : Sound Q G ep b) {i : ι} :
    i ∈ resultIds b ↔ (G.dist i, i) ∈ Q.far.elems b.topCandidates := by
  rw [resultIds, Multiset.mem_toFinset, Multiset.mem_map]
  constructor
  · rintro ⟨p, hp, rfl⟩
    rwa [← (hs.result p hp).2.2]
  · exact fun hi => ⟨_, hi, rfl⟩

theorem Sound.resultIds_subset (hs : Sound Q G ep b)
    (hR : ∀ i, i ∈ R ↔ Reach G ep i ∧ G.eligible i = true) : resultIds b ⊆ R := by
  intro i hi
  obtain ⟨hvisited, heligible, -⟩ := hs.result _ (hs.mem_resultIds.mp hi)
  exact (hR i).mpr ⟨hs.reach i hvisited, heligible⟩

theorem Sound.mem_of_card_le (hs : Sound Q G ep b)
    (hR : ∀ i, i ∈ R ↔ Reach G ep i ∧ G.eligible i = true)
    (hcard : R.card ≤ Q.far.size b.topCandidates) {i : ι} (hi : i ∈ R) :
    (G.dist i, i) ∈ Q.far.elems b.topCandidates := by
  have heq := Finset.eq_of_subset_of_card_le (hs.resultIds_subset hR)
    (by rw [hs.card_resultIds]; exact hcard)
  rw [← heq] at hi
  exact hs.mem_resultIds.mp hi

/-- Every eligible node met is in the result queue. -/
def Held (Q : BeamQueues ι D) (G : SearchGraph ι D) (b : Beam Q σ) : Prop :=
  ∀ i ∈ b.visited, G.eligible i = true → (G.dist i, i) ∈ Q.far.elems b.topCandidates

variable (R) in
/-- What a policy has to do so that nothing is lost among `R`: as long as the queue has less, go on
and follow everything; and shed nothing while it has no more. -/
structure Completes (pol : SearchPolicy ι D σ) (I : Beam Q σ → Prop)
    (J : Beam Q σ → ι → Q.far.Carrier → σ → Prop) : Prop where
  stop : ∀ b d, I b →
    (pol.shouldStop b.state (Q.far.size b.topCandidates) d b.lowerBound).1 = true →
    R.card ≤ Q.far.size b.topCandidates
  follow : ∀ b d, I b → Q.far.size b.topCandidates < R.card →
    (pol.shouldConsider b.state (Q.far.size b.topCandidates) d b.lowerBound).1 = true
  keep : ∀ b c top st, J b c top st → Q.far.size top ≤ R.card →
    (pol.shouldRemove st (Q.far.size top)).1 = false

theorem Completes.visit (hc : Completes R pol I J) (ha : Accounts Q G pol ep I J)
    (hR : ∀ i, i ∈ R ↔ Reach G ep i ∧ G.eligible i = true) {x : ι} {b' : Beam Q σ} (hI : I b)
    (hs : Sound Q G ep b) (hheld : Held Q G b) (hx : Reach G ep x)
    (h : BestFirst.visit Q G pol x b = .ok b') :
    Held Q G b' ∧ Q.far.size b.topCandidates ≤ Q.far.size b'.topCandidates := by
  have hvis := visit_visited h
  -- an eligible node that is new finds room in the queue
  have hroom : x ∉ b.visited → G.eligible x = true → Q.far.size b.topCandidates < R.card := by
    intro hnew heligible
    by_contra hfull
    have hmem := hs.mem_of_card_le hR (not_lt.mp hfull) ((hR x).mpr ⟨hx, heligible⟩)
    exact hnew (hs.result _ hmem).1
  rcases visit_cases h with ⟨-, rfl⟩ | ⟨hnew, hrejected, rfl⟩ | ⟨hnew, hwant, mid, top, st, rfl, ht, rfl⟩
  · exact ⟨hheld, le_rfl⟩
  · refine ⟨fun i hi heligible => ?_, le_rfl⟩
    rcases Finset.mem_insert.mp hi with rfl | hi
    · have hfollow := hc.follow b (G.dist i) hI (hroom hnew heligible)
      exact absurd (hrejected.symm.trans hfollow) Bool.false_ne_true
    · exact hheld i hi heligible
  · have hsize : Q.far.size (admitted Q G pol x b.topCandidates (consider Q G pol x b).2).1 ≤
        R.card := by
      have hle : Q.far.size b.topCandidates ≤ R.card := by
        rw [← hs.card_resultIds]
        exact Finset.card_le_card (hs.resultIds_subset hR)
      unfold admitted
      split
      · next heligible =>
        rw [Q.far.size_push]
        exact hroom hnew heligible
      · exact hle
    have hkeep := hc.keep b x _ _ (ha.admits b x hI hs hx hnew hwant) hsize
    rw [trim_of_keep hkeep] at ht
    cases ht
    refine ⟨fun i hi heligible => ?_, le_size_admitted pol x _ _⟩
    apply mem_admitted.mpr
    rcases Finset.mem_insert.mp hi with rfl | hi
    · exact .inr ⟨heligible, rfl⟩
    · exact .inl (hheld i hi heligible)

theorem Completes.search (hc : Completes R pol I J) (ha : Accounts Q G pol ep I J)
    (hR : ∀ i, i ∈ R ↔ Reach G ep i ∧ G.eligible i = true) {fuel : Nat} {maxDist : D} {st : σ}
    (hstart : I (start Q G pol maxDist ep st))
    (hrun : BestFirst.search Q G pol fuel maxDist ep st = .ok b) {i : ι} (hi : i ∈ R) :
    (G.dist i, i) ∈ Q.far.elems b.topCandidates := by
  have hheld : Held Q G (start Q G pol maxDist ep st) := by
    intro i hi heligible
    rw [start_visited, Finset.mem_singleton] at hi
    subst hi
    simp [start, heligible]
  obtain ⟨b₀, ⟨hI, hs, hheld₀, hcl⟩, hn⟩ := loop_rule
    (P := fun b => I b ∧ Sound Q G ep b ∧ Held Q G b ∧ ClosedBut Q G R.card none b)
    (R := fun c b => I b ∧ (Sound Q G ep b ∧ c ∈ b.visited) ∧ Held Q G b ∧
      ClosedBut Q G R.card (some c) b)
    (by
      rintro b c b₁ ⟨hI, hs, hheld, hcl⟩ hn
      obtain ⟨htop, hvis, -, -⟩ := next_inr hn
      refine ⟨ha.next b c b₁ hI hn, hs.next_inr hn, ?_, hcl.next_inr hn⟩
      rw [Held, htop, hvis]
      exact hheld)
    (by
      rintro c x hx b b' ⟨hI, ⟨hs, hcv⟩, hheld, hcl⟩ hv
      have hreach : Reach G ep x := (hs.reach c hcv).tail hx
      obtain ⟨b₁, hv', hI'⟩ := ha.visit hI hs hreach
      obtain rfl : b' = b₁ := Except.ok.inj (hv.symm.trans hv')
      obtain ⟨hheld', hgrow⟩ := hc.visit ha hR hI hs hheld hreach hv
      refine ⟨hI', ⟨hs.visit hreach hv, ?_⟩, hheld', ?_⟩
      · rw [visit_visited hv]
        exact Finset.mem_insert_of_mem hcv
      · exact hcl.visit_of hv fun _ hroom =>
          ⟨hgrow.trans_lt hroom, hc.follow b (G.dist x) hI (hgrow.trans_lt hroom)⟩)
    (fun c b hb hlinks => ⟨hb.1, hb.2.1.1, hb.2.2.1, hb.2.2.2.done hlinks⟩)
    ⟨hstart, start_sound maxDist ep st, hheld, start_closedBut maxDist ep st⟩ hrun
  obtain ⟨htop, -, -, -⟩ := next_inl hn
  rw [htop]
  rcases Nat.lt_or_ge (Q.far.size b₀.topCandidates) R.card with hroom | hfull
  · rcases next_inl_cases hn with hempty | ⟨d, hstop⟩
    · obtain ⟨hreach, heligible⟩ := (hR i).mp hi
      exact hheld₀ i (hcl.reach hs.start_mem hempty hroom hreach) heligible
    · exact absurd (hc.stop b₀ d hI hstop) (not_le.mpr hroom)
  · exact hs.mem_of_card_le hR hfull hi

end Complete

section Asks

variable (Q G pol) (K : Q.far.Carrier → σ → Prop)

/-- `K` holds whenever `shouldRemove` is asked. -/
def TrimAsks (d : D) : Nat → Q.far.Carrier → σ → Prop
  | 0, top, st => K top st
  | n + 1, top, st => K top st ∧ ((pol.shouldRemove st (Q.far.size top)).1 = true →
      ∀ p, Q.far.top top = some p → TrimAsks d n (Q.far.pop top)
        (pol.removed (pol.shouldRemove st (Q.far.size top)).2 p.2 d))

/-- It holds when `shouldConsider` is asked about `c`, and then while results are shed. -/
def VisitAsks (c : ι) (b : Beam Q σ) : Prop :=
  c ∉ b.visited → K b.topCandidates b.state ∧ ((consider Q G pol c b).1 = true →
    TrimAsks Q pol K (G.dist c)
      (Q.far.size (admitted Q G pol c b.topCandidates (consider Q G pol c b).2).1)
      (admitted Q G pol c b.topCandidates (consider Q G pol c b).2).1
      (admitted Q G pol c b.topCandidates (consider Q G pol c b).2).2)

def ExpandAsks : List ι → Beam Q σ → Prop
  | [], _ => True
  | c :: cs, b => VisitAsks Q G pol K c b ∧
      ∀ b', visit Q G pol c b = .ok b' → ExpandAsks cs b'

/-- It holds when `shouldStop` is asked, and then while the links of the popped node are scanned. -/
def LoopAsks : Nat → Beam Q σ → Prop
  | 0, b => K b.topCandidates b.state
  | fuel + 1, b => K b.topCandidates b.state ∧ ∀ c b', next Q pol b = .inr (c, b') →
      ExpandAsks Q G pol K (G.links c) b' ∧
        ∀ b'', expand Q G pol (G.links c) b' = .ok b'' → LoopAsks fuel b''

def SearchAsks (fuel : Nat) (maxDist : D) (ep : ι) (st : σ) : Prop :=
  LoopAsks Q G pol K fuel (start Q G pol maxDist ep st)

variable {Q G pol K}

theorem Accounts.trimAsks (ha : Accounts Q G pol ep I J)
    (hJK : ∀ b c top st, J b c top st → K top st) {b : Beam Q σ} {c : ι} (n : Nat)
    {top : Q.far.Carrier} {st : σ} (hJ : J b c top st) : TrimAsks Q pol K (G.dist c) n top st := by
  induction n generalizing top st with
  | zero => exact hJK b c top st hJ
  | succ n ih =>
    refine ⟨hJK b c top st hJ, fun hremove p hp => ?_⟩
    obtain ⟨p', hp', hJ'⟩ := ha.shed b c top st hJ hremove
    obtain rfl : p = p' := Option.some.inj (hp.symm.trans hp')
    exact ih hJ'

theorem Accounts.expandAsks (ha : Accounts Q G pol ep I J) (hIK : ∀ b, I b → K b.topCandidates b.state)
    (hJK : ∀ b c top st, J b c top st → K top st) {l : List ι} (hl : ∀ x ∈ l, Reach G ep x)
    {b : Beam Q σ} (hI : I b) (hs : Sound Q G ep b) : ExpandAsks Q G pol K l b := by
  induction l generalizing b with
  | nil => trivial
  | cons c cs ih =>
    obtain ⟨hc, hcs⟩ := List.forall_mem_cons.mp hl
    refine ⟨fun hv => ⟨hIK b hI, fun hconsider => ?_⟩, fun b' hvisit => ?_⟩
    · exact ha.trimAsks hJK _ (ha.admits b c hI hs hc hv hconsider)
    · obtain ⟨b₁, hvisit', hI'⟩ := ha.visit hI hs hc
      obtain rfl : b' = b₁ := Except.ok.inj (hvisit.symm.trans hvisit')
      exact ih hcs hI' (hs.visit hc hvisit)

theorem Accounts.searchAsks (ha : Accounts Q G pol ep I J)
    (hIK : ∀ b, I b → K b.topCandidates b.state) (hJK : ∀ b c top st, J b c top st → K top st)
    (fuel : Nat) {maxDist : D} {st : σ} (hstart : I (start Q G pol maxDist ep st)) :
    SearchAsks Q G pol K fuel maxDist ep st := by
  have hloop : ∀ b, I b → Sound Q G ep b → LoopAsks Q G pol K fuel b := by
    induction fuel with
    | zero => exact fun b hI _ => hIK b hI
    | succ fuel ih =>
      intro b hI hs
      refine ⟨hIK b hI, fun c b' hn => ?_⟩
      have hI' := ha.next b c b' hI hn
      obtain ⟨hs', hc⟩ := hs.next_inr hn
      have hreach : ∀ x ∈ G.links c, Reach G ep x := fun x hx => (hs'.reach c hc).tail hx
      refine ⟨ha.expandAsks hIK hJK hreach hI' hs', fun b'' hexpand => ?_⟩
      have hboth := expand_rule (P := fun b => I b ∧ Sound Q G ep b) (fun x hx b₁ b₂ hb hv => by
        obtain ⟨b₃, hv', hI₃⟩ := ha.visit hb.1 hb.2 (hreach x hx)
        obtain rfl : b₂ = b₃ := Except.ok.inj (hv.symm.trans hv')
        exact ⟨hI₃, hb.2.visit (hreach x hx) hv⟩) ⟨hI', hs'⟩ hexpand
      exact ih b'' hboth.1 hboth.2
  exact hloop _ hstart (start_sound maxDist ep st)

end Asks

end BestFirst

end HnswRvv.Framework
