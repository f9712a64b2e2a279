import HnswRvv.Framework.PriorityQueue

/-!
# Best-first search on a graph

The search pops the nearest pending node, scans its links and offers every node not met before
to a policy. The policy says when to stop, which nodes to follow and when the result queue has
to shed its farthest node; it may keep a state of its own. Nodes that are not eligible are
followed like any other but never enter the result.
-/

namespace HnswRvv.Framework

open OrderDual
set_option linter.unusedSectionVars false

structure SearchGraph (ι D : Type) where
  links : ι → List ι
  dist : ι → D
  eligible : ι → Bool

/-- The decisions of a search; the `Nat` argument is the size of the result queue. -/
structure SearchPolicy (ι D σ : Type) where
  shouldStop : σ → Nat → D → D → Bool × σ
  shouldConsider : σ → Nat → D → D → Bool × σ
  shouldRemove : σ → Nat → Bool × σ
  added : σ → ι → D → σ
  removed : σ → ι → D → σ

/-- The two queues of a search: farthest result on top, nearest pending node on top. -/
structure BeamQueues (ι D : Type) [LinearOrder D] where
  far : PriorityQueue (D × ι) FstLess
  near : PriorityQueue (Dᵒᵈ × ι) FstLess

/-- A search that ends without an answer. -/
inductive SearchAbort where
  | emptyQueue | fuel
  deriving DecidableEq, Repr

variable {ι D σ : Type} [DecidableEq ι] [LinearOrder D]

structure Beam (Q : BeamQueues ι D) (σ : Type) where
  topCandidates : Q.far.Carrier
  candidateSet : Q.near.Carrier
  visited : Finset ι
  lowerBound : D
  state : σ

namespace BestFirst

variable (Q : BeamQueues ι D) (G : SearchGraph ι D) (pol : SearchPolicy ι D σ)

/-- Shed the farthest results while the policy asks for it; `n` is the size of the queue. -/
def trim (d : D) : Nat → Q.far.Carrier → σ → Except SearchAbort (Q.far.Carrier × σ)
  | 0, top, st =>
    let (remove, st) := pol.shouldRemove st (Q.far.size top)
    if remove then .error .emptyQueue else .ok (top, st)
  | n + 1, top, st =>
    let (remove, st) := pol.shouldRemove st (Q.far.size top)
    if remove then
      match Q.far.top top with
      | none => .error .emptyQueue
      | some p => trim d n (Q.far.pop top) (pol.removed st p.2 d)
    else .ok (top, st)

/-- The result queue and the policy after the node `c` has been admitted. -/
def admitted (c : ι) (top : Q.far.Carrier) (st : σ) : Q.far.Carrier × σ :=
  if G.eligible c then (Q.far.push top (G.dist c, c), pol.added st c (G.dist c)) else (top, st)

/-- Does the policy want the node `c` followed? -/
def consider (c : ι) (b : Beam Q σ) : Bool × σ :=
  pol.shouldConsider b.state (Q.far.size b.topCandidates) (G.dist c) b.lowerBound

/-- Offer the node `c`. -/
def visit (c : ι) (b : Beam Q σ) : Except SearchAbort (Beam Q σ) :=
  if c ∈ b.visited then .ok b
  else
    let visited := insert c b.visited
    let (follow, st) := consider Q G pol c b
    if follow then
      let candidateSet := Q.near.push b.candidateSet (toDual (G.dist c), c)
      let (top, st) := admitted Q G pol c b.topCandidates st
      match trim Q pol (G.dist c) (Q.far.size top) top st with
      | .error e => .error e
      | .ok (top, st) =>
        let lowerBound := ((Q.far.top top).map Prod.fst).getD b.lowerBound
        .ok ⟨top, candidateSet, visited, lowerBound, st⟩
    else .ok { b with visited := visited, state := st }

def expand : List ι → Beam Q σ → Except SearchAbort (Beam Q σ)
  | [], b => .ok b
  | c :: cs, b => match visit Q G pol c b with
    | .error e => .error e
    | .ok b => expand cs b

/-- The loop head: either the search is over, or a node is popped and returned with the rest. -/
def next (b : Beam Q σ) : Beam Q σ ⊕ ι × Beam Q σ :=
  match Q.near.top b.candidateSet with
  | none => .inl b
  | some p =>
    let (stop, st) :=
      pol.shouldStop b.state (Q.far.size b.topCandidates) (ofDual p.1) b.lowerBound
    if stop then .inl { b with state := st }
    else .inr (p.2, { b with candidateSet := Q.near.pop b.candidateSet, state := st })

def loop (fuel : Nat) (b : Beam Q σ) : Except SearchAbort (Beam Q σ) :=
  match next Q pol b with
  | .inl b => .ok b
  | .inr (c, b) => match fuel with
    | 0 => .error .fuel
    | fuel + 1 => match expand Q G pol (G.links c) b with
      | .error e => .error e
      | .ok b => loop fuel b

/-- The beam before the loop: an ineligible start is pending at distance `maxDist`. -/
def start (maxDist : D) (ep : ι) (st : σ) : Beam Q σ :=
  if G.eligible ep then
    { topCandidates := Q.far.push Q.far.empty (G.dist ep, ep)
      candidateSet := Q.near.push Q.near.empty (toDual (G.dist ep), ep)
      visited := {ep}
      lowerBound := G.dist ep
      state := pol.added st ep (G.dist ep) }
  else
    { topCandidates := Q.far.empty
      candidateSet := Q.near.push Q.near.empty (toDual maxDist, ep)
      visited := {ep}
      lowerBound := maxDist
      state := st }

def search (fuel : Nat) (maxDist : D) (ep : ι) (st : σ) : Except SearchAbort (Beam Q σ) :=
  loop Q G pol fuel (start Q G pol maxDist ep st)

variable {Q G pol}

theorem trim_ok {d : D} {n : Nat} {top top' : Q.far.Carrier} {st st' : σ}
    (h : trim Q pol d n top st = .ok (top', st')) :
    ∃ removed, Q.far.elems top = Q.far.elems top' + removed ∧
      ∀ x ∈ removed, ∀ y ∈ Q.far.elems top', y.1 ≤ x.1 := by
  induction n generalizing top st with
  | zero =>
    simp only [trim] at h
    split at h
    · cases h
    · cases h
      exact ⟨0, by simp, by simp⟩
  | succ n ih =>
    simp only [trim] at h
    split at h
    · cases ht : Q.far.top top with
      | none => rw [ht] at h; cases h
      | some p =>
        rw [ht] at h
        obtain ⟨removed, he, hmax⟩ := ih h
        refine ⟨p ::ₘ removed, ?_, ?_⟩
        · rw [Q.far.elems_of_top_some top p ht, he, Multiset.add_cons]
        · intro x hx y hy
          rcases Multiset.mem_cons.mp hx with rfl | hx
          · have hyt : y ∈ Q.far.elems top := by
              rw [Q.far.elems_of_top_some top x ht, he]
              exact Multiset.mem_cons_of_mem (Multiset.mem_add.mpr (Or.inl hy))
            exact not_lt.mp (Q.far.top_max top x ht y hyt)
          · exact hmax x hx y hy
    · cases h
      exact ⟨0, by simp, by simp⟩

theorem trim_ok_le {d : D} {n : Nat} {top top' : Q.far.Carrier} {st st' : σ}
    (h : trim Q pol d n top st = .ok (top', st')) : Q.far.elems top' ≤ Q.far.elems top := by
  obtain ⟨removed, he, -⟩ := trim_ok h
  rw [he]
  exact Multiset.le_add_right _ _

/-- A node that was met before changes nothing, a rejected one is only marked, and an admitted
one becomes pending. -/
theorem visit_cases {c : ι} {b b' : Beam Q σ} (h : visit Q G pol c b = .ok b') :
    (c ∈ b.visited ∧ b' = b) ∨
    (c ∉ b.visited ∧ (consider Q G pol c b).1 = false ∧
      b' = { b with visited := insert c b.visited, state := (consider Q G pol c b).2 }) ∨
    (c ∉ b.visited ∧ (consider Q G pol c b).1 = true ∧ ∃ mid top st,
      mid = admitted Q G pol c b.topCandidates (consider Q G pol c b).2 ∧
      trim Q pol (G.dist c) (Q.far.size mid.1) mid.1 mid.2 = .ok (top, st) ∧
      b' = ⟨top, Q.near.push b.candidateSet (toDual (G.dist c), c), insert c b.visited,
        ((Q.far.top top).map Prod.fst).getD b.lowerBound, st⟩) := by
  unfold visit at h
  by_cases hv : c ∈ b.visited
  · rw [if_pos hv] at h
    cases h
    exact Or.inl ⟨hv, rfl⟩
  · rw [if_neg hv] at h
    dsimp only at h
    cases hc : (consider Q G pol c b).1 with
    | false =>
      rw [hc] at h
      cases h
      exact Or.inr (Or.inl ⟨hv, rfl, rfl⟩)
    | true =>
      rw [hc] at h
      simp only [if_true] at h
      refine Or.inr (Or.inr ⟨hv, rfl, ?_⟩)
      split at h
      · cases h
      · next ht =>
        cases h
        exact ⟨_, _, _, rfl, ht, rfl⟩

theorem visit_visited {c : ι} {b b' : Beam Q σ} (h : visit Q G pol c b = .ok b') :
    b'.visited = insert c b.visited := by
  rcases visit_cases h with ⟨hv, rfl⟩ | ⟨-, -, rfl⟩ | ⟨-, -, mid, top, st, -, -, rfl⟩
  · exact (Finset.insert_eq_self.mpr hv).symm
  · rfl
  · rfl

theorem visit_pending {c : ι} {b b' : Beam Q σ} (h : visit Q G pol c b = .ok b') :
    Q.near.elems b'.candidateSet = Q.near.elems b.candidateSet ∨
      c ∉ b.visited ∧
        Q.near.elems b'.candidateSet = (toDual (G.dist c), c) ::ₘ Q.near.elems b.candidateSet := by
  rcases visit_cases h with ⟨-, rfl⟩ | ⟨-, -, rfl⟩ | ⟨hv, -, mid, top, st, -, -, rfl⟩
  · exact Or.inl rfl
  · exact Or.inl rfl
  · exact Or.inr ⟨hv, Q.near.elems_push _ _⟩

/-- The results afterwards are among those before and the node itself, if it is eligible. -/
theorem visit_results {c : ι} {b b' : Beam Q σ} (h : visit Q G pol c b = .ok b') :
    Q.far.elems b'.topCandidates ≤ Q.far.elems b.topCandidates ∨
      c ∉ b.visited ∧ G.eligible c = true ∧
        Q.far.elems b'.topCandidates ≤ (G.dist c, c) ::ₘ Q.far.elems b.topCandidates := by
  rcases visit_cases h with ⟨-, rfl⟩ | ⟨-, -, rfl⟩ | ⟨hv, -, mid, top, st, rfl, ht, rfl⟩
  · exact Or.inl le_rfl
  · exact Or.inl le_rfl
  · have hle := trim_ok_le ht
    unfold admitted at hle
    split at hle
    · next he =>
      rw [Q.far.elems_push] at hle
      exact Or.inr ⟨hv, he, hle⟩
    · exact Or.inl hle

theorem next_inl {b b' : Beam Q σ} (h : next Q pol b = .inl b') :
    b'.topCandidates = b.topCandidates ∧ b'.visited = b.visited ∧
      b'.candidateSet = b.candidateSet ∧ b'.lowerBound = b.lowerBound := by
  unfold next at h
  split at h
  · cases h
    exact ⟨rfl, rfl, rfl, rfl⟩
  · dsimp only at h
    split at h
    · cases h
      exact ⟨rfl, rfl, rfl, rfl⟩
    · cases h

theorem next_inr {b b' : Beam Q σ} {c : ι} (h : next Q pol b = .inr (c, b')) :
    b'.topCandidates = b.topCandidates ∧ b'.visited = b.visited ∧ b'.lowerBound = b.lowerBound ∧
      ∃ d, Q.near.elems b.candidateSet = (d, c) ::ₘ Q.near.elems b'.candidateSet := by
  unfold next at h
  split at h
  · cases h
  · next p ht =>
    dsimp only at h
    split at h
    · cases h
    · cases h
      exact ⟨rfl, rfl, rfl, p.1, Q.near.elems_of_top_some _ _ ht⟩

theorem expand_rule {P : Beam Q σ → Prop} {l : List ι}
    (hvisit : ∀ c ∈ l, ∀ b b', P b → visit Q G pol c b = .ok b' → P b') {b b' : Beam Q σ}
    (hb : P b) (h : expand Q G pol l b = .ok b') : P b' := by
  induction l generalizing b with
  | nil => cases h; exact hb
  | cons c cs ih =>
    rw [expand] at h
    split at h
    · cases h
    · next b1 hv =>
      exact ih (fun x hx => hvisit x (List.mem_cons_of_mem c hx))
        (hvisit c List.mem_cons_self b b1 hb hv) h

theorem expand_visited {l : List ι} {b b' : Beam Q σ} (h : expand Q G pol l b = .ok b') :
    b.visited ⊆ b'.visited ∧ ∀ c ∈ l, c ∈ b'.visited := by
  induction l generalizing b with
  | nil => cases h; exact ⟨fun _ hx => hx, by simp⟩
  | cons c cs ih =>
    rw [expand] at h
    split at h
    · cases h
    · next b1 hv =>
      have hins := visit_visited hv
      obtain ⟨hsub, hall⟩ := ih h
      rw [hins] at hsub
      refine ⟨fun x hx => hsub (Finset.mem_insert_of_mem hx), fun x hx => ?_⟩
      rcases List.mem_cons.mp hx with rfl | hx
      · exact hsub (Finset.mem_insert_self x _)
      · exact hall x hx

/-- Invariants of the loop: `P` at the loop head, `R c` while the links of `c` are scanned. -/
theorem loop_rule {P : Beam Q σ → Prop} {R : ι → Beam Q σ → Prop}
    (hnext : ∀ b c b₁, P b → next Q pol b = .inr (c, b₁) → R c b₁)
    (hvisit : ∀ c, ∀ x ∈ G.links c, ∀ b b', R c b → visit Q G pol x b = .ok b' → R c b')
    (hdone : ∀ c b, R c b → (∀ x ∈ G.links c, x ∈ b.visited) → P b)
    {fuel : Nat} {b b' : Beam Q σ} (hb : P b) (h : loop Q G pol fuel b = .ok b') :
    ∃ b₀, P b₀ ∧ next Q pol b₀ = .inl b' := by
  induction fuel generalizing b with
  | zero =>
    unfold loop at h
    split at h
    · next hn => cases h; exact ⟨b, hb, hn⟩
    · cases h
  | succ fuel ih =>
    unfold loop at h
    split at h
    · next hn => cases h; exact ⟨b, hb, hn⟩
    · next c b₁ hn =>
      dsimp only at h
      split at h
      · cases h
      · next b₂ he =>
        have h₁ := expand_rule (P := R c) (hvisit c) (hnext b c b₁ hb hn) he
        exact ih (hdone c b₂ h₁ (expand_visited he).2) h

/-- Where every node can be offered, a loop does not shed from an empty queue. -/
theorem loop_ne_emptyQueue {P : Beam Q σ → Prop} {R : ι → Beam Q σ → Prop}
    (hnext : ∀ b c b₁, P b → next Q pol b = .inr (c, b₁) → R c b₁)
    (hvisit : ∀ c, ∀ x ∈ G.links c, ∀ b, R c b → ∃ b', visit Q G pol x b = .ok b' ∧ R c b')
    (hdone : ∀ c b, R c b → P b) (fuel : Nat) {b : Beam Q σ} (hb : P b) :
    loop Q G pol fuel b ≠ .error .emptyQueue := by
  have hexpand : ∀ (c : ι) (l : List ι), (∀ x ∈ l, x ∈ G.links c) → ∀ b, R c b →
      ∃ b', expand Q G pol l b = .ok b' ∧ R c b' := by
    intro c l
    induction l with
    | nil => exact fun _ b hb => ⟨b, rfl, hb⟩
    | cons x l ih =>
      intro hl b hb
      obtain ⟨hx, hrest⟩ := List.forall_mem_cons.mp hl
      obtain ⟨b₁, h₁, hb₁⟩ := hvisit c x hx b hb
      obtain ⟨b₂, h₂, hb₂⟩ := ih hrest b₁ hb₁
      exact ⟨b₂, by rw [expand, h₁]; exact h₂, hb₂⟩
  induction fuel generalizing b with
  | zero =>
    unfold loop
    split <;> simp
  | succ fuel ih =>
    unfold loop
    split
    · simp
    · next c b₁ hn =>
      obtain ⟨b₂, h₂, hb₂⟩ := hexpand c (G.links c) (fun _ hx => hx) b₁ (hnext b c b₁ hb hn)
      dsimp only
      rw [h₂]
      exact ih (hdone c b₂ hb₂)

/-- Two searches do the same if they pop the same nodes, find the same links and treat every node
offered alike, in all beams that the second one passes through. -/
theorem loop_congr {G' : SearchGraph ι D} {pol' : SearchPolicy ι D σ} {P : Beam Q σ → Prop}
    {R : ι → Beam Q σ → Prop} (hnext : ∀ b, P b → next Q pol' b = next Q pol b)
    (hpop : ∀ b c b₁, P b → next Q pol b = .inr (c, b₁) → G'.links c = G.links c ∧ R c b₁)
    (hvisit : ∀ c, ∀ x ∈ G.links c, ∀ b, R c b → visit Q G' pol' x b = visit Q G pol x b)
    (hkeep : ∀ c, ∀ x ∈ G.links c, ∀ b b', R c b → visit Q G pol x b = .ok b' → R c b')
    (hdone : ∀ c b, R c b → P b) (fuel : Nat) {b : Beam Q σ} (hb : P b) :
    loop Q G' pol' fuel b = loop Q G pol fuel b := by
  have hexpand : ∀ (c : ι) (l : List ι), (∀ x ∈ l, x ∈ G.links c) → ∀ b, R c b →
      expand Q G' pol' l b = expand Q G pol l b := by
    intro c l
    induction l with
    | nil => exact fun _ b _ => rfl
    | cons x l ih =>
      intro hl b hb
      obtain ⟨hx, hrest⟩ := List.forall_mem_cons.mp hl
      rw [expand, expand, hvisit c x hx b hb]
      split
      · rfl
      · next b' hv => exact ih hrest b' (hkeep c x hx b b' hb hv)
  induction fuel generalizing b with
  | zero =>
    unfold loop
    rw [hnext b hb]
  | succ fuel ih =>
    unfold loop
    rw [hnext b hb]
    split
    · rfl
    · next c b₁ hn =>
      obtain ⟨hlinks, hb₁⟩ := hpop b c b₁ hb hn
      dsimp only
      rw [hlinks, hexpand c (G.links c) (fun _ hx => hx) b₁ hb₁]
      split
      · rfl
      · next b₂ hx => exact ih (hdone c b₂ (expand_rule (P := R c) (hkeep c) hb₁ hx))

theorem visit_budget {c : ι} {b b' : Beam Q σ} (h : visit Q G pol c b = .ok b') :
    Q.near.size b'.candidateSet + b.visited.card ≤ Q.near.size b.candidateSet + b'.visited.card := by
  have hv := visit_visited h
  rcases visit_pending h with hp | ⟨hc, hp⟩
  · rw [hv, PriorityQueue.size, hp, ← PriorityQueue.size]
    have := Finset.card_le_card (Finset.subset_insert c b.visited)
    omega
  · rw [hv, PriorityQueue.size, hp, Multiset.card_cons, Finset.card_insert_of_notMem hc,
      ← PriorityQueue.size]
    omega

theorem expand_budget {l : List ι} {b b' : Beam Q σ} (h : expand Q G pol l b = .ok b') :
    Q.near.size b'.candidateSet + b.visited.card ≤ Q.near.size b.candidateSet + b'.visited.card :=
  expand_rule (P := fun x => Q.near.size x.candidateSet + b.visited.card ≤
      Q.near.size b.candidateSet + x.visited.card)
    (fun c _ x y hx hy => by
      have := visit_budget hy
      have := Finset.card_le_card (Finset.subset_insert c x.visited)
      have := visit_visited hy
      omega) le_rfl h

theorem expand_ne_fuel {l : List ι} {b : Beam Q σ} : expand Q G pol l b ≠ .error .fuel := by
  have htrim : ∀ d n top st, trim Q pol d n top st ≠ .error .fuel := by
    intro d n
    induction n with
    | zero =>
      intro top st h
      simp only [trim] at h
      split at h <;> cases h
    | succ n ih =>
      intro top st h
      simp only [trim] at h
      split at h
      · split at h
        · cases h
        · exact ih _ _ h
      · cases h
  induction l generalizing b with
  | nil => simp [expand]
  | cons c cs ih =>
    rw [expand]
    split
    · next e hv =>
      unfold visit at hv
      split at hv
      · cases hv
      · dsimp only at hv
        split at hv
        · split at hv
          · next ht =>
            cases hv
            intro he
            cases he
            exact htrim _ _ _ _ ht
          · cases hv
        · cases hv
    · exact ih

/-- On a finite set of nodes that the links never leave, as much fuel as there are nodes is
enough: every node becomes pending at most once. -/
theorem loop_ne_fuel {U : Finset ι} (hclosed : ∀ i ∈ U, ∀ j ∈ G.links i, j ∈ U) {fuel : Nat}
    {b : Beam Q σ} (hU : b.visited ⊆ U)
    (hpending : ∀ p ∈ Q.near.elems b.candidateSet, p.2 ∈ b.visited)
    (hfuel : U.card + Q.near.size b.candidateSet ≤ b.visited.card + fuel) :
    loop Q G pol fuel b ≠ .error .fuel := by
  induction fuel generalizing b with
  | zero =>
    unfold loop
    split
    · simp
    · next c b₁ hn =>
      obtain ⟨-, -, -, d, he⟩ := next_inr hn
      have hs : Q.near.size b.candidateSet = Q.near.size b₁.candidateSet + 1 := by
        rw [PriorityQueue.size, he, Multiset.card_cons, ← PriorityQueue.size]
      have := Finset.card_le_card hU
      omega
  | succ fuel ih =>
    unfold loop
    split
    · simp
    · next c b₁ hn =>
      obtain ⟨-, hvis, -, d, he⟩ := next_inr hn
      have hs : Q.near.size b.candidateSet = Q.near.size b₁.candidateSet + 1 := by
        rw [PriorityQueue.size, he, Multiset.card_cons, ← PriorityQueue.size]
      have hc : c ∈ b.visited := hpending (d, c) (by rw [he]; exact Multiset.mem_cons_self _ _)
      dsimp only
      split
      · next e hx => exact fun h => expand_ne_fuel (by rw [hx, Except.error.inj h])
      · next b₂ hx =>
        have hbudget := expand_budget hx
        rw [hvis] at hbudget
        have hboth : b₂.visited ⊆ U ∧ ∀ p ∈ Q.near.elems b₂.candidateSet, p.2 ∈ b₂.visited := by
          refine expand_rule (P := fun y => y.visited ⊆ U ∧
            ∀ p ∈ Q.near.elems y.candidateSet, p.2 ∈ y.visited) ?_ ⟨hvis ▸ hU, ?_⟩ hx
          · rintro x hx y y' ⟨hy, hpy⟩ hv
            rw [visit_visited hv]
            refine ⟨Finset.insert_subset (hclosed c (hU hc) x hx) hy, fun p hp => ?_⟩
            rcases visit_pending hv with hq | ⟨-, hq⟩ <;> rw [hq] at hp
            · exact Finset.mem_insert_of_mem (hpy p hp)
            · rcases Multiset.mem_cons.mp hp with rfl | hp
              · exact Finset.mem_insert_self x _
              · exact Finset.mem_insert_of_mem (hpy p hp)
          · intro p hp
            rw [hvis]
            exact hpending p (by rw [he]; exact Multiset.mem_cons_of_mem hp)
        exact ih hboth.1 hboth.2 (by omega)

/-- Nodes that a chain of links leads to. -/
def Reach (G : SearchGraph ι D) : ι → ι → Prop :=
  Relation.ReflTransGen fun i j => j ∈ G.links i

/-- Everything met is reachable; the results are distinct eligible nodes at their distances. -/
structure Sound (Q : BeamQueues ι D) (G : SearchGraph ι D) (ep : ι) (b : Beam Q σ) : Prop where
  start_mem : ep ∈ b.visited
  reach : ∀ i ∈ b.visited, Reach G ep i
  pending : ∀ p ∈ Q.near.elems b.candidateSet, p.2 ∈ b.visited
  result : ∀ p ∈ Q.far.elems b.topCandidates,
    p.2 ∈ b.visited ∧ G.eligible p.2 = true ∧ p.1 = G.dist p.2
  nodup : ((Q.far.elems b.topCandidates).map Prod.snd).Nodup

@[simp] theorem start_visited (maxDist : D) (ep : ι) (st : σ) :
    (start Q G pol maxDist ep st).visited = {ep} := by
  unfold start
  split <;> rfl

variable (pol) in
theorem start_pending (maxDist : D) (ep : ι) (st : σ) :
    ∃ d, Q.near.elems (start Q G pol maxDist ep st).candidateSet = {(d, ep)} := by
  unfold start
  split
  · exact ⟨toDual (G.dist ep), by simp⟩
  · exact ⟨toDual maxDist, by simp⟩

theorem start_sound (maxDist : D) (ep : ι) (st : σ) :
    Sound Q G ep (start Q G pol maxDist ep st) := by
  constructor
  · simp
  · intro i hi
    rw [start_visited, Finset.mem_singleton] at hi
    rw [hi]
    exact Relation.ReflTransGen.refl
  · obtain ⟨d, hd⟩ := start_pending (Q := Q) (G := G) pol maxDist ep st
    simp [hd]
  · unfold start
    split
    · next he => simp [he]
    · simp
  · unfold start
    split <;> simp

theorem Sound.visit {ep c : ι} {b b' : Beam Q σ} (hs : Sound Q G ep b) (hc : Reach G ep c)
    (h : visit Q G pol c b = .ok b') : Sound Q G ep b' := by
  have hvis := visit_visited h
  constructor
  · rw [hvis]
    exact Finset.mem_insert_of_mem hs.start_mem
  · intro i hi
    rw [hvis] at hi
    rcases Finset.mem_insert.mp hi with rfl | hi
    · exact hc
    · exact hs.reach i hi
  · intro p hp
    rw [hvis]
    rcases visit_pending h with hq | ⟨-, hq⟩ <;> rw [hq] at hp
    · exact Finset.mem_insert_of_mem (hs.pending p hp)
    · rcases Multiset.mem_cons.mp hp with rfl | hp
      · exact Finset.mem_insert_self _ _
      · exact Finset.mem_insert_of_mem (hs.pending p hp)
  · intro p hp
    rw [hvis]
    have hold : p ∈ Q.far.elems b.topCandidates → p.2 ∈ insert c b.visited ∧
        G.eligible p.2 = true ∧ p.1 = G.dist p.2 := fun hm =>
      ⟨Finset.mem_insert_of_mem (hs.result p hm).1, (hs.result p hm).2⟩
    rcases visit_results h with hle | ⟨-, he, hle⟩
    · exact hold (Multiset.mem_of_le hle hp)
    · rcases Multiset.mem_cons.mp (Multiset.mem_of_le hle hp) with rfl | hm
      · exact ⟨Finset.mem_insert_self _ _, he, rfl⟩
      · exact hold hm
  · rcases visit_results h with hle | ⟨hn, -, hle⟩
    · exact Multiset.nodup_of_le (Multiset.map_le_map hle) hs.nodup
    · refine Multiset.nodup_of_le (Multiset.map_le_map hle) ?_
      rw [Multiset.map_cons, Multiset.nodup_cons]
      refine ⟨fun hm => ?_, hs.nodup⟩
      obtain ⟨p, hp, he⟩ := Multiset.mem_map.mp hm
      have hm := (hs.result p hp).1
      rw [he] at hm
      exact hn hm

theorem Sound.visit_link {ep c x : ι} {b b' : Beam Q σ} (hs : Sound Q G ep b) (hc : c ∈ b.visited)
    (hx : x ∈ G.links c) (h : BestFirst.visit Q G pol x b = .ok b') :
    Sound Q G ep b' ∧ c ∈ b'.visited := by
  refine ⟨hs.visit ((hs.reach c hc).tail hx) h, ?_⟩
  rw [visit_visited h]
  exact Finset.mem_insert_of_mem hc

theorem Sound.next_inr {ep c : ι} {b b' : Beam Q σ} (hs : Sound Q G ep b)
    (h : next Q pol b = .inr (c, b')) : Sound Q G ep b' ∧ c ∈ b'.visited := by
  obtain ⟨htop, hvis, -, d, he⟩ := BestFirst.next_inr h
  have hcons : ∀ p ∈ (d, c) ::ₘ Q.near.elems b'.candidateSet, p.2 ∈ b.visited := he ▸ hs.pending
  refine ⟨⟨hvis ▸ hs.start_mem, hvis ▸ hs.reach, ?_, ?_, htop ▸ hs.nodup⟩, ?_⟩
  · intro p hp
    rw [hvis]
    exact hcons p (Multiset.mem_cons_of_mem hp)
  · rw [htop, hvis]
    exact hs.result
  · rw [hvis]
    exact hcons (d, c) (Multiset.mem_cons_self _ _)

theorem Sound.next_inl {ep : ι} {b b' : Beam Q σ} (hs : Sound Q G ep b)
    (h : next Q pol b = .inl b') : Sound Q G ep b' := by
  obtain ⟨htop, hvis, hcand, -⟩ := BestFirst.next_inl h
  exact ⟨hvis ▸ hs.start_mem, hvis ▸ hs.reach, by rw [hvis, hcand]; exact hs.pending,
    by rw [htop, hvis]; exact hs.result, htop ▸ hs.nodup⟩

theorem search_sound {fuel : Nat} {maxDist : D} {ep : ι} {st : σ} {b : Beam Q σ}
    (h : search Q G pol fuel maxDist ep st = .ok b) : Sound Q G ep b := by
  obtain ⟨b₀, hb₀, hn⟩ := loop_rule (P := Sound Q G ep)
    (R := fun c b => Sound Q G ep b ∧ c ∈ b.visited)
    (fun b c b₁ hb hn => hb.next_inr hn)
    (fun c x hx b b' hb hv => hb.1.visit_link hb.2 hx hv)
    (fun c b hb _ => hb.1) (start_sound maxDist ep st) h
  exact hb₀.next_inl hn

theorem visit_congr {G' : SearchGraph ι D} {c : ι} (hdist : G'.dist c = G.dist c)
    (heligible : G'.eligible c = G.eligible c) (b : Beam Q σ) :
    BestFirst.visit Q G' pol c b = BestFirst.visit Q G pol c b := by
  simp only [BestFirst.visit, admitted, consider, hdist, heligible]
  rfl

theorem search_congr {G' : SearchGraph ι D} {fuel : Nat} {maxDist : D} {ep : ι} {st : σ}
    (hlinks : ∀ i, Reach G ep i → G'.links i = G.links i)
    (hdist : ∀ i, Reach G ep i → G'.dist i = G.dist i)
    (heligible : ∀ i, Reach G ep i → G'.eligible i = G.eligible i) :
    search Q G' pol fuel maxDist ep st = search Q G pol fuel maxDist ep st := by
  have hep : Reach G ep ep := Relation.ReflTransGen.refl
  have hstart : start Q G' pol maxDist ep st = start Q G pol maxDist ep st := by
    simp only [start, hdist ep hep, heligible ep hep]
  rw [search, search, hstart]
  apply loop_congr (P := Sound Q G ep) (R := fun c b => Sound Q G ep b ∧ c ∈ b.visited)
  · exact fun _ _ => rfl
  · intro b c b₁ hb hn
    obtain ⟨hb₁, hc⟩ := hb.next_inr hn
    exact ⟨hlinks c (hb₁.reach c hc), hb₁, hc⟩
  · intro c x hx b hb
    have hreach := (hb.1.reach c hb.2).tail hx
    exact visit_congr (hdist x hreach) (heligible x hreach) b
  · exact fun c x hx b b' hb hv => hb.1.visit_link hb.2 hx hv
  · exact fun c b hb => hb.1
  · exact start_sound maxDist ep st

/-- A search over finitely many nodes ends, or its policy asks to shed from an empty queue. -/
theorem search_ne_fuel {U : Finset ι} (hclosed : ∀ i ∈ U, ∀ j ∈ G.links i, j ∈ U) {fuel : Nat}
    {maxDist : D} {ep : ι} {st : σ} (hep : ep ∈ U) (hfuel : U.card ≤ fuel) :
    search Q G pol fuel maxDist ep st ≠ .error .fuel := by
  obtain ⟨d, hd⟩ := start_pending (Q := Q) (G := G) pol maxDist ep st
  apply loop_ne_fuel hclosed
  · simpa using hep
  · exact (start_sound maxDist ep st).pending
  · rw [PriorityQueue.size, hd, start_visited, Multiset.card_singleton, Finset.card_singleton]
    omega

end BestFirst

end HnswRvv.Framework
