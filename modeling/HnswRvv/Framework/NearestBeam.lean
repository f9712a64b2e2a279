import HnswRvv.Framework.BestFirst

/-!
# Searches that keep the nearest results

A policy with a budget `ef` follows every node while fewer than `ef` results are held, and after
that only nodes nearer than the farthest result, which it then sheds. Such a search holds the
nearest of all eligible nodes it has met, and meets everything reachable before it fills up.
-/

namespace HnswRvv.Framework

open OrderDual
set_option linter.unusedSectionVars false

section Smallest

variable {D : Type} [LinearOrder D]

/-- The `k` least elements, with repetitions. -/
def smallest (k : Nat) (s : Multiset D) : Multiset D := ((s.sort (· ≤ ·)).take k : List D)

@[simp] theorem card_smallest (k : Nat) (s : Multiset D) :
    (smallest k s).card = min k s.card := by
  simp [smallest]

theorem eq_smallest {k : Nat} {s t u : Multiset D} (hs : s = t + u) (hk : t.card = min k s.card)
    (hle : ∀ a ∈ t, ∀ b ∈ u, a ≤ b) : t = smallest k s := by
  have hsorted : (t.sort (· ≤ ·) ++ u.sort (· ≤ ·)).Pairwise (· ≤ ·) := by
    rw [List.pairwise_append]
    refine ⟨t.pairwise_sort _, u.pairwise_sort _, fun a ha b hb => ?_⟩
    exact hle a ((Multiset.mem_sort _).mp ha) b ((Multiset.mem_sort _).mp hb)
  have hperm : (s.sort (· ≤ ·)).Perm (t.sort (· ≤ ·) ++ u.sort (· ≤ ·)) := by
    rw [← Multiset.coe_eq_coe, Multiset.sort_eq, ← Multiset.coe_add, Multiset.sort_eq,
      Multiset.sort_eq, hs]
  have heq := hperm.eq_of_pairwise' (s.pairwise_sort _) hsorted
  have hcard : s.card = t.card + u.card := by rw [hs, Multiset.card_add]
  have hlen : (t.sort (· ≤ ·)).length = t.card := Multiset.length_sort _
  rw [smallest, heq]
  rcases Nat.lt_or_ge s.card k with hlt | hge
  · have hu : u = 0 := Multiset.card_eq_zero.mp (by omega)
    rw [List.take_of_length_le (by rw [← heq, Multiset.length_sort]; exact hlt.le), hu]
    simp
  · rw [List.take_append_of_le_length (by omega), List.take_of_length_le (by omega),
      Multiset.sort_eq]

end Smallest

variable {ι D σ : Type} [DecidableEq ι] [LinearOrder D]

/-- The rules of a search that keeps `ef` results: a `bare` one stops as soon as the nearest
pending node lies beyond the bound, the other one only when it also holds `ef` results. -/
def efPolicy (bare : Bool) (ef : Nat) : SearchPolicy ι D σ where
  shouldStop st size d lb := (if bare then decide (lb < d) else decide (lb < d) && size == ef, st)
  shouldConsider st size d lb := (decide (size < ef) || decide (d < lb), st)
  shouldRemove st size := (decide (ef < size), st)
  added st _ _ := st
  removed st _ _ := st

/-- What the results below need of a policy; `trim` speaks of the states a visit passes through. -/
structure KeepsNearest (Q : BeamQueues ι D) (pol : SearchPolicy ι D σ) (ef : Nat) : Prop where
  stop : ∀ st n d lb, (pol.shouldStop st n d lb).1 = true → n = ef
  consider : ∀ st n d lb,
    (pol.shouldConsider st n d lb).1 = (decide (n < ef) || decide (d < lb))
  trim : ∀ st n d lb top, Q.far.size top ≤ ef + 1 →
    ∃ st', BestFirst.trim Q pol d (Q.far.size top) top (pol.shouldConsider st n d lb).2 =
      .ok (Q.far.popTo ef top, st')
  trim_added : ∀ st n d lb c top, Q.far.size top ≤ ef + 1 →
    ∃ st', BestFirst.trim Q pol d (Q.far.size top) top
      (pol.added (pol.shouldConsider st n d lb).2 c d) = .ok (Q.far.popTo ef top, st')

namespace BestFirst

variable {Q : BeamQueues ι D} {G : SearchGraph ι D} {pol : SearchPolicy ι D σ} {ef : Nat}

theorem trim_efPolicy (bare : Bool) (d : D) (top : Q.far.Carrier) (st : σ) :
    trim Q (efPolicy bare ef) d (Q.far.size top) top st = .ok (Q.far.popTo ef top, st) := by
  induction top using Q.far.drain_induction with
  | nil top h =>
    have h0 : Q.far.size top = 0 := by rw [PriorityQueue.size, Q.far.elems_of_top_none top h]; rfl
    rw [Q.far.popTo_of_le (by omega), h0, trim]
    simp [efPolicy, h0]
  | cons top a h ih =>
    have hs := Q.far.size_pop h
    rw [hs, trim]
    dsimp only [efPolicy]
    by_cases hlt : ef < Q.far.size top
    · simp only [hlt, decide_true, if_true, h]
      rw [Q.far.popTo_of_lt h hlt]
      exact ih
    · simp only [hlt, decide_false, Bool.false_eq_true, if_false]
      rw [Q.far.popTo_of_le (by omega)]

theorem efPolicy_keepsNearest (Q : BeamQueues ι D) (ef : Nat) :
    KeepsNearest Q (efPolicy false ef : SearchPolicy ι D σ) ef where
  stop st n d lb h := by
    simp only [efPolicy, Bool.false_eq_true, if_false, Bool.and_eq_true, beq_iff_eq] at h
    exact h.2
  consider st n d lb := rfl
  trim st n d lb top _ := ⟨_, trim_efPolicy false d top _⟩
  trim_added st n d lb c top _ := ⟨_, trim_efPolicy false d top _⟩

variable (pol) in
theorem size_admitted_le (c : ι) (top : Q.far.Carrier) (st : σ) :
    Q.far.size (admitted Q G pol c top st).1 ≤ Q.far.size top + 1 := by
  unfold admitted
  split
  · exact (Q.far.size_push _ _).le
  · exact Nat.le_succ _

variable (pol) in
theorem le_size_admitted (c : ι) (top : Q.far.Carrier) (st : σ) :
    Q.far.size top ≤ Q.far.size (admitted Q G pol c top st).1 := by
  unfold admitted
  split
  · rw [Q.far.size_push]
    exact Nat.le_succ _
  · exact le_rfl

theorem mem_admitted {c : ι} {top : Q.far.Carrier} {st : σ} {p : D × ι} :
    p ∈ Q.far.elems (admitted Q G pol c top st).1 ↔
      p ∈ Q.far.elems top ∨ G.eligible c = true ∧ p = (G.dist c, c) := by
  unfold admitted
  by_cases he : G.eligible c = true
  · simp [he, or_comm]
  · simp [he]

theorem KeepsNearest.trim_admitted (hk : KeepsNearest Q pol ef) (c : ι) (b : Beam Q σ)
    (hs : Q.far.size b.topCandidates ≤ ef) :
    ∃ st, trim Q pol (G.dist c)
        (Q.far.size (admitted Q G pol c b.topCandidates (consider Q G pol c b).2).1)
        (admitted Q G pol c b.topCandidates (consider Q G pol c b).2).1
        (admitted Q G pol c b.topCandidates (consider Q G pol c b).2).2 =
      .ok (Q.far.popTo ef (admitted Q G pol c b.topCandidates (consider Q G pol c b).2).1, st) := by
  have hsize := size_admitted_le (Q := Q) (G := G) pol c b.topCandidates
    (consider Q G pol c b).2
  unfold admitted at hsize ⊢
  split
  · next he =>
    rw [if_pos he] at hsize
    exact hk.trim_added _ _ _ _ _ _ (by omega)
  · next he =>
    rw [if_neg he] at hsize
    exact hk.trim _ _ _ _ _ (by omega)

theorem visit_exists {c : ι} {b : Beam Q σ}
    (htrim : ∃ r, trim Q pol (G.dist c)
      (Q.far.size (admitted Q G pol c b.topCandidates (consider Q G pol c b).2).1)
      (admitted Q G pol c b.topCandidates (consider Q G pol c b).2).1
      (admitted Q G pol c b.topCandidates (consider Q G pol c b).2).2 = .ok r) :
    ∃ b', visit Q G pol c b = .ok b' := by
  unfold visit
  split
  · exact ⟨_, rfl⟩
  · dsimp only
    split
    · obtain ⟨r, ht⟩ := htrim
      rw [ht]
      exact ⟨_, rfl⟩
    · exact ⟨_, rfl⟩

/-- A node met for the first time is passed over when the queue is full and the node is not
nearer than the bound; otherwise it is admitted and the queue cut back to `ef`. -/
theorem visit_keeps (hk : KeepsNearest Q pol ef) {c : ι} {b b' : Beam Q σ}
    (hs : Q.far.size b.topCandidates ≤ ef) (h : visit Q G pol c b = .ok b') :
    (c ∈ b.visited ∧ b' = b) ∨
    (c ∉ b.visited ∧ ef ≤ Q.far.size b.topCandidates ∧ b.lowerBound ≤ G.dist c ∧
      b'.topCandidates = b.topCandidates ∧ b'.candidateSet = b.candidateSet ∧
      b'.lowerBound = b.lowerBound) ∨
    (c ∉ b.visited ∧ (Q.far.size b.topCandidates < ef ∨ G.dist c < b.lowerBound) ∧
      b'.topCandidates = Q.far.popTo ef (admitted Q G pol c b.topCandidates
        (consider Q G pol c b).2).1 ∧
      b'.candidateSet = Q.near.push b.candidateSet (toDual (G.dist c), c) ∧
      b'.lowerBound = ((Q.far.top b'.topCandidates).map Prod.fst).getD b.lowerBound) := by
  rcases visit_cases h with ⟨hv, rfl⟩ | ⟨hv, hc, rfl⟩ | ⟨hv, hc, mid, top, st, rfl, ht, rfl⟩
  · exact Or.inl ⟨hv, rfl⟩
  · rw [consider, hk.consider, Bool.or_eq_false_iff, decide_eq_false_iff_not,
      decide_eq_false_iff_not, not_lt, not_lt] at hc
    exact Or.inr (Or.inl ⟨hv, hc.1, hc.2, rfl, rfl, rfl⟩)
  · rw [consider, hk.consider, Bool.or_eq_true, decide_eq_true_iff, decide_eq_true_iff] at hc
    obtain ⟨st', ht'⟩ := KeepsNearest.trim_admitted (G := G) hk c b hs
    rw [ht'] at ht
    cases ht
    exact Or.inr (Or.inr ⟨hv, hc, rfl, rfl, rfl⟩)

/-- The bound is the distance of the farthest result, and no eligible node that was met and is
not a result is nearer than any result. -/
structure Nearest (Q : BeamQueues ι D) (G : SearchGraph ι D) (ef : Nat) (b : Beam Q σ) : Prop where
  size_le : Q.far.size b.topCandidates ≤ ef
  bounded : ∀ p ∈ Q.far.elems b.topCandidates, p.1 ≤ b.lowerBound
  attained : Q.far.elems b.topCandidates ≠ 0 →
    ∃ p ∈ Q.far.elems b.topCandidates, p.1 = b.lowerBound
  best : ∀ i ∈ b.visited, G.eligible i = true →
    (G.dist i, i) ∈ Q.far.elems b.topCandidates ∨
      ef ≤ Q.far.size b.topCandidates ∧ ∀ p ∈ Q.far.elems b.topCandidates, p.1 ≤ G.dist i

theorem Nearest.congr {b b' : Beam Q σ} (hn : Nearest Q G ef b)
    (htop : b'.topCandidates = b.topCandidates) (hvis : b'.visited = b.visited)
    (hlb : b'.lowerBound = b.lowerBound) : Nearest Q G ef b' :=
  ⟨htop ▸ hn.size_le, by rw [htop, hlb]; exact hn.bounded, by rw [htop, hlb]; exact hn.attained,
    by rw [htop, hvis]; exact hn.best⟩

theorem start_nearest (hef : 0 < ef) (maxDist : D) (ep : ι) (st : σ) :
    Nearest Q G ef (start Q G pol maxDist ep st) := by
  unfold start
  split
  · constructor
    · simpa using Nat.succ_le_of_lt hef
    · simp
    · intro _
      exact ⟨(G.dist ep, ep), by simp, rfl⟩
    · intro i hi _
      rw [Finset.mem_singleton.mp hi]
      simp
  · next he =>
    constructor
    · simp
    · simp
    · simp
    · intro i hi hel
      rw [Finset.mem_singleton.mp hi] at hel
      exact absurd hel he

theorem Nearest.pass {c : ι} {b b' : Beam Q σ} (hn : Nearest Q G ef b)
    (hfull : ef ≤ Q.far.size b.topCandidates) (hfar : b.lowerBound ≤ G.dist c)
    (hvis : b'.visited = insert c b.visited) (htop : b'.topCandidates = b.topCandidates)
    (hlb : b'.lowerBound = b.lowerBound) : Nearest Q G ef b' := by
  refine ⟨htop ▸ hn.size_le, by rw [htop, hlb]; exact hn.bounded,
    by rw [htop, hlb]; exact hn.attained, ?_⟩
  intro i hi he
  rw [htop]
  rw [hvis] at hi
  rcases Finset.mem_insert.mp hi with rfl | hi
  · exact Or.inr ⟨hfull, fun p hp => (hn.bounded p hp).trans hfar⟩
  · exact hn.best i hi he

theorem Nearest.best_admitted (hef : 0 < ef) {c i : ι} {b : Beam Q σ} {st : σ}
    (hn : Nearest Q G ef b) (hwant : Q.far.size b.topCandidates < ef ∨ G.dist c < b.lowerBound)
    (hi : i ∈ insert c b.visited) (he : G.eligible i = true) :
    (G.dist i, i) ∈ Q.far.elems (admitted Q G pol c b.topCandidates st).1 ∨
      ef ≤ Q.far.size b.topCandidates ∧
        ∀ p ∈ Q.far.elems (admitted Q G pol c b.topCandidates st).1, p.1 ≤ G.dist i := by
  rcases Finset.mem_insert.mp hi with rfl | hi
  · exact Or.inl (mem_admitted.mpr (Or.inr ⟨he, rfl⟩))
  · rcases hn.best i hi he with hm | ⟨hfull, hall⟩
    · exact Or.inl (mem_admitted.mpr (Or.inl hm))
    · refine Or.inr ⟨hfull, fun p hp => ?_⟩
      rcases mem_admitted.mp hp with hp | ⟨-, rfl⟩
      · exact hall p hp
      · -- the new node is nearer than the farthest result
        have hne : Q.far.elems b.topCandidates ≠ 0 := by
          intro h0
          rw [PriorityQueue.size, h0, Multiset.card_zero] at hfull
          omega
        obtain ⟨q, hq, hqe⟩ := hn.attained hne
        have hd : G.dist c < b.lowerBound := hwant.resolve_left (by omega)
        exact hd.le.trans (hqe ▸ hall q hq)

theorem Nearest.visit (hef : 0 < ef) (hk : KeepsNearest Q pol ef) {c : ι} {b b' : Beam Q σ}
    (hn : Nearest Q G ef b) (h : visit Q G pol c b = .ok b') : Nearest Q G ef b' := by
  have hvis := visit_visited h
  rcases visit_keeps hk hn.size_le h with ⟨-, rfl⟩ | ⟨-, hfull, hfar, htop, -, hlb⟩ |
    ⟨-, hwant, htop, -, hlb⟩
  · exact hn
  · exact hn.pass hfull hfar hvis htop hlb
  · obtain ⟨removed, helems, hsize, hmax⟩ := Q.far.popTo_spec ef
      (admitted Q G pol c b.topCandidates (consider Q G pol c b).2).1
    rw [← htop] at helems hsize hmax
    have hcard := congrArg Multiset.card helems
    rw [Multiset.card_add] at hcard
    change Q.far.size _ = Q.far.size _ + _ at hcard
    have hgrow := le_size_admitted (Q := Q) (G := G) pol c b.topCandidates
      (consider Q G pol c b).2
    have hlt := hn.size_le
    refine ⟨by omega, ?_, ?_, ?_⟩
    · intro p hp
      rw [hlb]
      exact fst_le_top Q.far _ hp
    · intro hne
      rw [hlb]
      exact exists_fst_eq_top Q.far _ hne
    · intro i hi he
      -- the node is a result, or was shed just now, or was already beaten by every result
      rcases hn.best_admitted hef hwant (hvis ▸ hi) he with hm | ⟨hfull, hall⟩
      · rw [helems] at hm
        rcases Multiset.mem_add.mp hm with hm | hm
        · exact Or.inl hm
        · have hpos := Multiset.card_pos_iff_exists_mem.mpr ⟨_, hm⟩
          exact Or.inr ⟨by omega, fun p hp => not_lt.mp (hmax _ hm p hp)⟩
      · refine Or.inr ⟨by omega, fun p hp => hall p ?_⟩
        rw [helems]
        exact Multiset.mem_add.mpr (Or.inl hp)

/-- While the queue is not full, the links of every node met are met or the node is pending. -/
def ClosedBut (Q : BeamQueues ι D) (G : SearchGraph ι D) (ef : Nat) (c : Option ι)
    (b : Beam Q σ) : Prop :=
  Q.far.size b.topCandidates < ef → ∀ i ∈ b.visited,
    (∃ d, (d, i) ∈ Q.near.elems b.candidateSet) ∨ some i = c ∨ ∀ j ∈ G.links i, j ∈ b.visited

theorem ClosedBut.visit_of {c : Option ι} {x : ι} {b b' : Beam Q σ} (hc : ClosedBut Q G ef c b)
    (h : visit Q G pol x b = .ok b')
    (hadmits : x ∉ b.visited → Q.far.size b'.topCandidates < ef →
      Q.far.size b.topCandidates < ef ∧ (consider Q G pol x b).1 = true) :
    ClosedBut Q G ef c b' := by
  have hvis := visit_visited h
  intro hroom i hi
  rcases visit_cases h with ⟨-, rfl⟩ | ⟨hx, hrejected, rfl⟩ | ⟨hx, -, mid, top, st, rfl, -, rfl⟩
  · exact hc hroom i hi
  · exact absurd (hrejected.symm.trans (hadmits hx hroom).2) Bool.false_ne_true
  · obtain ⟨hbefore, -⟩ := hadmits hx hroom
    rw [hvis] at hi ⊢
    dsimp only
    rw [Q.near.elems_push]
    rcases Finset.mem_insert.mp hi with rfl | hi
    · exact Or.inl ⟨_, Multiset.mem_cons_self _ _⟩
    · rcases hc hbefore i hi with ⟨d, hd⟩ | hcur | hall
      · exact Or.inl ⟨d, Multiset.mem_cons_of_mem hd⟩
      · exact Or.inr (Or.inl hcur)
      · exact Or.inr (Or.inr fun j hj => Finset.mem_insert_of_mem (hall j hj))

theorem ClosedBut.visit (hk : KeepsNearest Q pol ef) {c : Option ι} {x : ι} {b b' : Beam Q σ}
    (hs : Q.far.size b.topCandidates ≤ ef) (hc : ClosedBut Q G ef c b)
    (h : visit Q G pol x b = .ok b') : ClosedBut Q G ef c b' := by
  apply hc.visit_of h
  intro hx hroom
  rcases visit_keeps hk hs h with ⟨hv, -⟩ | ⟨-, hfull, -, htop, -, -⟩ | ⟨-, hwant, htop, -, -⟩
  · exact absurd hv hx
  · rw [htop] at hroom
    omega
  · obtain ⟨-, -, hsize, -⟩ := Q.far.popTo_spec ef
      (admitted Q G pol x b.topCandidates (consider Q G pol x b).2).1
    rw [← htop] at hsize
    have hgrow := le_size_admitted (Q := Q) (G := G) pol x b.topCandidates
      (consider Q G pol x b).2
    refine ⟨by omega, ?_⟩
    rw [consider, hk.consider, Bool.or_eq_true, decide_eq_true_iff, decide_eq_true_iff]
    exact hwant

theorem ClosedBut.next_inr {c : ι} {b b' : Beam Q σ} (hcl : ClosedBut Q G ef none b)
    (h : next Q pol b = .inr (c, b')) : ClosedBut Q G ef (some c) b' := by
  obtain ⟨htop, hvis, -, d, he⟩ := BestFirst.next_inr h
  intro hroom i hi
  rw [htop] at hroom
  rw [hvis] at hi ⊢
  rcases hcl hroom i hi with ⟨d', hd'⟩ | hcur | hall
  · rw [he] at hd'
    rcases Multiset.mem_cons.mp hd' with heq | hd'
    · exact Or.inr (Or.inl (by rw [(Prod.mk.inj heq).2]))
    · exact Or.inl ⟨d', hd'⟩
  · cases hcur
  · exact Or.inr (Or.inr hall)

theorem ClosedBut.done {c : ι} {b : Beam Q σ} (hcl : ClosedBut Q G ef (some c) b)
    (hlinks : ∀ x ∈ G.links c, x ∈ b.visited) : ClosedBut Q G ef none b := by
  intro hroom i hi
  rcases hcl hroom i hi with hp | hcur | hall
  · exact Or.inl hp
  · obtain rfl := Option.some.inj hcur
    exact Or.inr (Or.inr hlinks)
  · exact Or.inr (Or.inr hall)

theorem start_closedBut (maxDist : D) (ep : ι) (st : σ) :
    ClosedBut Q G ef none (start Q G pol maxDist ep st) := by
  intro _ i hi
  obtain ⟨d, hd⟩ := start_pending (Q := Q) (G := G) pol maxDist ep st
  rw [start_visited, Finset.mem_singleton] at hi
  exact Or.inl ⟨d, by rw [hd, hi]; exact Multiset.mem_singleton_self _⟩

/-- When nothing is pending, or the queue is not full, the nodes met are closed under links. -/
theorem ClosedBut.reach {ep : ι} {b : Beam Q σ} (hcl : ClosedBut Q G ef none b)
    (hep : ep ∈ b.visited) (hempty : Q.near.elems b.candidateSet = 0)
    (hroom : Q.far.size b.topCandidates < ef) {i : ι} (hi : Reach G ep i) : i ∈ b.visited := by
  induction hi with
  | refl => exact hep
  | tail _ hlink ih =>
    rcases hcl hroom _ ih with ⟨d, hd⟩ | hcur | hall
    · rw [hempty] at hd
      exact absurd hd (Multiset.notMem_zero _)
    · cases hcur
    · exact hall _ hlink

theorem next_inl_pending (hk : KeepsNearest Q pol ef) {b b' : Beam Q σ}
    (h : next Q pol b = .inl b') (hroom : Q.far.size b.topCandidates < ef) :
    Q.near.elems b.candidateSet = 0 := by
  unfold next at h
  split at h
  · next ht => exact Q.near.elems_of_top_none _ ht
  · dsimp only at h
    split at h
    · next hstop =>
      have := hk.stop _ _ _ _ hstop
      omega
    · cases h

/-- A search that keeps the `ef` nearest ends; unless its queue is full it has met every
reachable node. -/
theorem search_nearest (hk : KeepsNearest Q pol ef) (hef : 0 < ef) {U : Finset ι}
    (hclosed : ∀ i ∈ U, ∀ j ∈ G.links i, j ∈ U) {fuel : Nat} {ep : ι} (hep : ep ∈ U)
    (hfuel : U.card ≤ fuel) (maxDist : D) (st : σ) :
    ∃ b, search Q G pol fuel maxDist ep st = .ok b ∧ Sound Q G ep b ∧ Nearest Q G ef b ∧
      (Q.far.size b.topCandidates < ef → ∀ i, Reach G ep i → i ∈ b.visited) := by
  cases hrun : search Q G pol fuel maxDist ep st with
  | error e =>
    exfalso
    cases e with
    | fuel => exact search_ne_fuel hclosed hep hfuel hrun
    | emptyQueue =>
      refine loop_ne_emptyQueue (P := Nearest Q G ef) (R := fun _ => Nearest Q G ef) ?_ ?_
        (fun _ _ hb => hb) fuel (start_nearest hef maxDist ep st) hrun
      · intro b c b₁ hb hn
        obtain ⟨htop, hvis, hlb, -⟩ := next_inr hn
        exact hb.congr htop hvis hlb
      · intro _ c _ b hb
        obtain ⟨st, ht⟩ := KeepsNearest.trim_admitted (G := G) hk c b hb.size_le
        obtain ⟨b', hb'⟩ := visit_exists ⟨_, ht⟩
        exact ⟨b', hb', hb.visit hef hk hb'⟩
  | ok b =>
    obtain ⟨b₀, ⟨hs, hn, hcl⟩, hnext⟩ := loop_rule
      (P := fun b => ep ∈ b.visited ∧ Nearest Q G ef b ∧ ClosedBut Q G ef none b)
      (R := fun c b => ep ∈ b.visited ∧ Nearest Q G ef b ∧ ClosedBut Q G ef (some c) b)
      (by
        rintro b c b₁ ⟨hs, hb, hcl⟩ hnext
        obtain ⟨htop, hvis, hlb, -⟩ := next_inr hnext
        exact ⟨hvis ▸ hs, hb.congr htop hvis hlb, hcl.next_inr hnext⟩)
      (by
        rintro c x - b b' ⟨hs, hb, hcl⟩ hv
        exact ⟨by rw [visit_visited hv]; exact Finset.mem_insert_of_mem hs, hb.visit hef hk hv,
          hcl.visit hk hb.size_le hv⟩)
      (fun c b hb hlinks => ⟨hb.1, hb.2.1, hb.2.2.done hlinks⟩)
      ⟨by simp, start_nearest hef maxDist ep st, start_closedBut maxDist ep st⟩ hrun
    obtain ⟨htop, hvis, -, hlb⟩ := next_inl hnext
    refine ⟨b, rfl, search_sound hrun, hn.congr htop hvis hlb, fun hroom i hi => ?_⟩
    rw [htop] at hroom
    rw [hvis]
    exact hcl.reach hs (next_inl_pending hk hnext hroom) hroom hi

/-- Every result is still pending, is the node `c`, or has had its links met. -/
def ScannedBut (Q : BeamQueues ι D) (G : SearchGraph ι D) (c : Option ι) (b : Beam Q σ) : Prop :=
  ∀ p ∈ Q.far.elems b.topCandidates, (toDual p.1, p.2) ∈ Q.near.elems b.candidateSet ∨
    some p.2 = c ∨ ∀ j ∈ G.links p.2, j ∈ b.visited

theorem start_scannedBut (maxDist : D) (ep : ι) (st : σ) :
    ScannedBut Q G none (start Q G pol maxDist ep st) := by
  unfold start
  split
  · intro p hp
    simp only [Q.far.elems_push, Q.far.elems_empty, Multiset.cons_zero,
      Multiset.mem_singleton] at hp
    simp [hp]
  · intro p hp
    simp at hp

theorem ScannedBut.visit {c : Option ι} {x : ι} {b b' : Beam Q σ} (hsc : ScannedBut Q G c b)
    (h : visit Q G pol x b = .ok b') : ScannedBut Q G c b' := by
  have hvis := visit_visited h
  -- what was said of a result before stays true of it
  have hold : ∀ p ∈ Q.far.elems b.topCandidates,
      Q.near.elems b.candidateSet ≤ Q.near.elems b'.candidateSet →
      (toDual p.1, p.2) ∈ Q.near.elems b'.candidateSet ∨ some p.2 = c ∨
        ∀ j ∈ G.links p.2, j ∈ b'.visited := by
    intro p hp hle
    rcases hsc p hp with hpending | hcur | hall
    · exact Or.inl (Multiset.mem_of_le hle hpending)
    · exact Or.inr (Or.inl hcur)
    · refine Or.inr (Or.inr fun j hj => ?_)
      rw [hvis]
      exact Finset.mem_insert_of_mem (hall j hj)
  rcases visit_cases h with ⟨-, rfl⟩ | ⟨-, -, rfl⟩ | ⟨-, -, mid, top, st, rfl, ht, rfl⟩
  · exact hsc
  · exact fun p hp => hold p hp le_rfl
  · intro p hp
    have hle : Q.near.elems b.candidateSet ≤
        Q.near.elems (Q.near.push b.candidateSet (toDual (G.dist x), x)) := by
      rw [Q.near.elems_push]
      exact Multiset.le_cons_self _ _
    rcases mem_admitted.mp (Multiset.mem_of_le (trim_ok_le ht) hp) with hp | ⟨-, rfl⟩
    · exact hold p hp hle
    · exact Or.inl (by simp)

theorem ScannedBut.next_inr {c : ι} {b b' : Beam Q σ} (hsc : ScannedBut Q G none b)
    (h : next Q pol b = .inr (c, b')) : ScannedBut Q G (some c) b' := by
  obtain ⟨htop, hvis, -, d, he⟩ := BestFirst.next_inr h
  intro p hp
  rw [htop] at hp
  rw [hvis]
  rcases hsc p hp with hpending | hcur | hall
  · rw [he] at hpending
    rcases Multiset.mem_cons.mp hpending with heq | hpending
    · exact Or.inr (Or.inl (by rw [(Prod.mk.inj heq).2]))
    · exact Or.inl hpending
  · cases hcur
  · exact Or.inr (Or.inr hall)

theorem ScannedBut.done {c : ι} {b : Beam Q σ} (hsc : ScannedBut Q G (some c) b)
    (hlinks : ∀ x ∈ G.links c, x ∈ b.visited) : ScannedBut Q G none b := by
  intro p hp
  rcases hsc p hp with hpending | hcur | hall
  · exact Or.inl hpending
  · obtain rfl := Option.some.inj hcur
    exact Or.inr (Or.inr hlinks)
  · exact Or.inr (Or.inr hall)

/-- A loop that stops only when all pending nodes lie beyond the bound leaves no result pending. -/
theorem next_inl_beyond (hstop : ∀ st n d lb, (pol.shouldStop st n d lb).1 = true → lb < d)
    {b b' : Beam Q σ} (h : next Q pol b = .inl b') {p : Dᵒᵈ × ι}
    (hp : p ∈ Q.near.elems b.candidateSet) : b.lowerBound < ofDual p.1 := by
  unfold next at h
  split at h
  · next ht =>
    rw [Q.near.elems_of_top_none _ ht] at hp
    exact absurd hp (Multiset.notMem_zero p)
  · next t ht =>
    dsimp only at h
    split at h
    · next hs =>
      have hle : ofDual t.1 ≤ ofDual p.1 := not_lt.mp (Q.near.top_max _ t ht p hp)
      exact (hstop _ _ _ _ hs).trans_le hle
    · cases h

theorem search_scanned (hk : KeepsNearest Q pol ef) (hef : 0 < ef)
    (hstop : ∀ st n d lb, (pol.shouldStop st n d lb).1 = true → lb < d) {fuel : Nat} {maxDist : D}
    {ep : ι} {st : σ} {b : Beam Q σ} (hrun : search Q G pol fuel maxDist ep st = .ok b) :
    ∀ p ∈ Q.far.elems b.topCandidates, ∀ j ∈ G.links p.2, j ∈ b.visited := by
  obtain ⟨b₀, ⟨hn, hsc⟩, hnext⟩ := loop_rule
    (P := fun b => Nearest Q G ef b ∧ ScannedBut Q G none b)
    (R := fun c b => Nearest Q G ef b ∧ ScannedBut Q G (some c) b)
    (by
      rintro b c b₁ ⟨hb, hsc⟩ hnext
      obtain ⟨htop, hvis, hlb, -⟩ := next_inr hnext
      exact ⟨hb.congr htop hvis hlb, hsc.next_inr hnext⟩)
    (by
      rintro c x - b b' ⟨hb, hsc⟩ hv
      exact ⟨hb.visit hef hk hv, hsc.visit hv⟩)
    (fun c b hb hlinks => ⟨hb.1, hb.2.done hlinks⟩)
    ⟨start_nearest hef maxDist ep st, start_scannedBut maxDist ep st⟩ hrun
  obtain ⟨htop, hvis, -, -⟩ := next_inl hnext
  intro p hp
  rw [htop] at hp
  rw [hvis]
  rcases hsc p hp with hpending | hcur | hall
  · exact absurd (hn.bounded p hp) (not_le.mpr (next_inl_beyond hstop hnext hpending))
  · cases hcur
  · exact hall

/-- Where every node is eligible, no link leads from a nearest result to a nearer node. -/
theorem search_nearest_local (hk : KeepsNearest Q pol ef) (hef : 0 < ef)
    (hstop : ∀ st n d lb, (pol.shouldStop st n d lb).1 = true → lb < d) {fuel : Nat} {maxDist : D}
    {ep : ι} {st : σ} {b : Beam Q σ} (hrun : search Q G pol fuel maxDist ep st = .ok b)
    (hn : Nearest Q G ef b) {p : D × ι} (hp : p ∈ Q.far.elems b.topCandidates)
    (hmin : ∀ r ∈ Q.far.elems b.topCandidates, p.1 ≤ r.1) {j : ι} (hj : j ∈ G.links p.2)
    (hel : G.eligible j = true) : p.1 ≤ G.dist j := by
  rcases hn.best j (search_scanned hk hef hstop hrun p hp j hj) hel with hmem | ⟨-, hall⟩
  · exact hmin _ hmem
  · exact hall p hp

/-- A search that sheds all it holds beyond `ef` ends, even if it may hold nothing at all. -/
theorem search_efPolicy_exists (bare : Bool) (ef : Nat) {U : Finset ι}
    (hclosed : ∀ i ∈ U, ∀ j ∈ G.links i, j ∈ U) {fuel : Nat} {ep : ι} (hep : ep ∈ U)
    (hfuel : U.card ≤ fuel) (maxDist : D) (st : σ) :
    ∃ b, search Q G (efPolicy bare ef) fuel maxDist ep st = .ok b := by
  cases hrun : search Q G (efPolicy bare ef) fuel maxDist ep st with
  | ok b => exact ⟨b, rfl⟩
  | error e =>
    exfalso
    cases e with
    | fuel => exact search_ne_fuel hclosed hep hfuel hrun
    | emptyQueue =>
      refine loop_ne_emptyQueue (P := fun _ => True) (R := fun _ _ => True)
        (fun _ _ _ _ _ => trivial) ?_ (fun _ _ _ => trivial) fuel trivial hrun
      intro _ c _ b _
      obtain ⟨b', hb'⟩ := visit_exists ⟨_, trim_efPolicy (Q := Q) bare (G.dist c) _ _⟩
      exact ⟨b', hb', trivial⟩

/-- The eligible nodes a search has met. -/
def met (G : SearchGraph ι D) (b : Beam Q σ) : Finset ι :=
  b.visited.filter fun i => G.eligible i = true

theorem mem_met {b : Beam Q σ} {i : ι} :
    i ∈ met G b ↔ i ∈ b.visited ∧ G.eligible i = true := Finset.mem_filter

theorem Nearest.split_met {ep : ι} {b : Beam Q σ} (hs : Sound Q G ep b) (hn : Nearest Q G ef b) :
    ∃ others : Multiset D,
      (met G b).val.map G.dist = (Q.far.elems b.topCandidates).map Prod.fst + others ∧
      (others ≠ 0 → ef ≤ Q.far.size b.topCandidates) ∧
      ∀ p ∈ Q.far.elems b.topCandidates, ∀ d ∈ others, p.1 ≤ d := by
  let ids : Finset ι := ⟨(Q.far.elems b.topCandidates).map Prod.snd, hs.nodup⟩
  have hids : ids ⊆ met G b := by
    intro i hi
    obtain ⟨p, hp, rfl⟩ := Multiset.mem_map.mp hi
    exact mem_met.mpr ⟨(hs.result p hp).1, (hs.result p hp).2.1⟩
  have hdist : ids.val.map G.dist = (Q.far.elems b.topCandidates).map Prod.fst := by
    rw [Multiset.map_map]
    exact Multiset.map_congr rfl fun p hp => (hs.result p hp).2.2.symm
  -- an eligible node outside the queue was beaten by everything in it
  have hbeaten : ∀ i ∈ met G b \ ids, ef ≤ Q.far.size b.topCandidates ∧
      ∀ p ∈ Q.far.elems b.topCandidates, p.1 ≤ G.dist i := by
    intro i hi
    obtain ⟨hmet, hout⟩ := Finset.mem_sdiff.mp hi
    obtain ⟨hvis, hel⟩ := mem_met.mp hmet
    exact (hn.best i hvis hel).resolve_left fun hm => hout (Multiset.mem_map_of_mem Prod.snd hm)
  refine ⟨(met G b \ ids).val.map G.dist, ?_, ?_, ?_⟩
  · rw [← hdist, ← Multiset.map_add, Finset.sdiff_val, add_comm,
      Multiset.sub_add_cancel (Finset.val_le_iff.mpr hids)]
  · intro hne
    obtain ⟨d, hd⟩ := Multiset.exists_mem_of_ne_zero hne
    obtain ⟨i, hi, rfl⟩ := Multiset.mem_map.mp hd
    exact (hbeaten i hi).1
  · intro p hp d hd
    obtain ⟨i, hi, rfl⟩ := Multiset.mem_map.mp hd
    exact (hbeaten i hi).2 p hp

theorem Nearest.size_eq {ep : ι} {b : Beam Q σ} (hs : Sound Q G ep b) (hn : Nearest Q G ef b) :
    Q.far.size b.topCandidates = min ef (met G b).card := by
  obtain ⟨others, hsplit, hfull, -⟩ := hn.split_met hs
  have hcard := congrArg Multiset.card hsplit
  rw [Multiset.card_add, Multiset.card_map, Multiset.card_map] at hcard
  change (met G b).card = Q.far.size b.topCandidates + others.card at hcard
  have hle := hn.size_le
  rcases eq_or_ne others 0 with rfl | hne
  · rw [Multiset.card_zero] at hcard
    omega
  · have := hfull hne
    omega

/-- Cut down to `k` results, the queue holds the `k` least of all eligible distances met. -/
theorem Nearest.popTo_smallest {ep : ι} {b : Beam Q σ} (hs : Sound Q G ep b)
    (hn : Nearest Q G ef b) {k : Nat} (hk : k ≤ ef) :
    (Q.far.elems (Q.far.popTo k b.topCandidates)).map Prod.fst =
      smallest k ((met G b).val.map G.dist) := by
  obtain ⟨others, hsplit, -, hothers⟩ := hn.split_met hs
  obtain ⟨removed, helems, hsize, hmax⟩ := Q.far.popTo_spec k b.topCandidates
  apply eq_smallest (u := removed.map Prod.fst + others)
  · rw [hsplit, helems, Multiset.map_add, add_assoc]
  · rw [Multiset.card_map, Multiset.card_map]
    change Q.far.size _ = min k (met G b).card
    rw [hsize, hn.size_eq hs]
    omega
  · intro d hd d' hd'
    obtain ⟨p, hp, rfl⟩ := Multiset.mem_map.mp hd
    rcases Multiset.mem_add.mp hd' with hm | hm
    · obtain ⟨p', hp', rfl⟩ := Multiset.mem_map.mp hm
      exact not_lt.mp (hmax p' hp' p hp)
    · refine hothers p ?_ d' hm
      rw [helems]
      exact Multiset.mem_add.mpr (Or.inl hp)

theorem Nearest.met_eq {ep : ι} {b : Beam Q σ} (hs : Sound Q G ep b) (hn : Nearest Q G ef b)
    (hall : Q.far.size b.topCandidates < ef → ∀ i, Reach G ep i → i ∈ b.visited) {R : Finset ι}
    (hR : ∀ i, i ∈ R ↔ Reach G ep i ∧ G.eligible i = true) :
    met G b ⊆ R ∧ ((met G b).card < ef ∨ R.card ≤ ef → met G b = R) := by
  have hsub : met G b ⊆ R := fun i hi =>
    (hR i).mpr ⟨hs.reach i (mem_met.mp hi).1, (mem_met.mp hi).2⟩
  refine ⟨hsub, fun hroom => ?_⟩
  have hsize := hn.size_eq hs
  rcases Nat.lt_or_ge (met G b).card ef with hlt | hge
  · refine hsub.antisymm fun i hi => ?_
    obtain ⟨hreach, hel⟩ := (hR i).mp hi
    exact mem_met.mpr ⟨hall (by omega) i hreach, hel⟩
  · exact Finset.eq_of_subset_of_card_le hsub (by omega)

/-- Either the queue is full, or every pending node is itself a result; results respect the bound. -/
structure PendingHeld (Q : BeamQueues ι D) (ef : Nat) (b : Beam Q σ) : Prop where
  held : Q.far.size b.topCandidates = ef ∨
    ∀ p ∈ Q.near.elems b.candidateSet, (ofDual p.1, p.2) ∈ Q.far.elems b.topCandidates
  bounded : ∀ p ∈ Q.far.elems b.topCandidates, p.1 ≤ b.lowerBound

theorem PendingHeld.next_eq {b : Beam Q σ} (hb : PendingHeld Q ef b) :
    next Q (efPolicy true ef) b = next Q (efPolicy false ef) b := by
  unfold next
  split
  · rfl
  · next p ht =>
    have hstop : decide (b.lowerBound < ofDual p.1) =
        (decide (b.lowerBound < ofDual p.1) && Q.far.size b.topCandidates == ef) := by
      by_cases hlt : b.lowerBound < ofDual p.1
      · have hfull : Q.far.size b.topCandidates = ef := by
          refine hb.held.resolve_right fun hall => ?_
          exact absurd (hb.bounded _ (hall p (Q.near.top_mem ht))) (not_le_of_gt hlt)
        simp [hlt, hfull]
      · simp [hlt]
    simp only [efPolicy, if_true, Bool.false_eq_true, if_false]
    rw [← hstop]

theorem PendingHeld.visit {bare : Bool} {c : ι} {b b' : Beam Q σ} (hb : PendingHeld Q ef b)
    (he : G.eligible c = true) (h : visit Q G (efPolicy bare ef) c b = .ok b') :
    PendingHeld Q ef b' := by
  rcases visit_cases h with ⟨-, rfl⟩ | ⟨-, -, rfl⟩ | ⟨-, -, mid, top, st, rfl, ht, rfl⟩
  · exact hb
  · exact ⟨hb.held, hb.bounded⟩
  · rw [trim_efPolicy] at ht
    cases ht
    constructor
    · dsimp only
      simp only [admitted, he, if_true]
      rcases Nat.lt_or_ge ef (Q.far.size (Q.far.push b.topCandidates (G.dist c, c))) with hlt | hle
      · obtain ⟨-, -, hsize, -⟩ := Q.far.popTo_spec ef (Q.far.push b.topCandidates (G.dist c, c))
        exact Or.inl (by omega)
      · rw [Q.far.popTo_of_le hle, Q.far.size_push] at *
        refine Or.inr fun p hp => ?_
        rw [Q.near.elems_push] at hp
        rw [Q.far.elems_push]
        rcases Multiset.mem_cons.mp hp with rfl | hp
        · exact Multiset.mem_cons_self _ _
        · exact Multiset.mem_cons_of_mem (hb.held.resolve_left (by omega) p hp)
    · intro p hp
      exact fst_le_top Q.far _ hp

theorem visit_bare_eq {c : ι} (b : Beam Q σ) (he : G.eligible c = true) :
    visit Q { G with eligible := fun _ => true } (efPolicy true ef) c b =
      visit Q G (efPolicy false ef) c b := by
  unfold visit
  simp only [trim_efPolicy, admitted, consider, he, if_true]
  rfl

/-- Where every reachable node is eligible, stopping at the first pending node beyond the bound
is the same as waiting for a full queue as well. -/
theorem search_bare_eq {fuel : Nat} {maxDist : D} {ep : ι} {st : σ}
    (he : ∀ i, Reach G ep i → G.eligible i = true) :
    search Q { G with eligible := fun _ => true } (efPolicy true ef) fuel maxDist ep st =
      search Q G (efPolicy false ef) fuel maxDist ep st := by
  have hep := he ep Relation.ReflTransGen.refl
  have hstart : start Q { G with eligible := fun _ => true } (efPolicy true ef) maxDist ep st =
      start Q G (efPolicy false ef) maxDist ep st := by
    simp only [start, hep, if_true]
    rfl
  rw [search, search, hstart]
  apply loop_congr (P := fun b => PendingHeld Q ef b ∧ Sound Q G ep b)
    (R := fun c b => PendingHeld Q ef b ∧ Sound Q G ep b ∧ c ∈ b.visited)
  · exact fun b hb => hb.1.next_eq
  · rintro b c b₁ ⟨hheld, hs⟩ hn
    obtain ⟨htop, -, hlb, d, hpend⟩ := next_inr hn
    refine ⟨rfl, ⟨?_, by rw [htop, hlb]; exact hheld.bounded⟩, hs.next_inr hn⟩
    rw [htop]
    exact hheld.held.imp_right fun hall p hp =>
      hall p (by rw [hpend]; exact Multiset.mem_cons_of_mem hp)
  · intro c x hx b hb
    exact visit_bare_eq b (he x ((hb.2.1.reach c hb.2.2).tail hx))
  · rintro c x hx b b' ⟨hheld, hs, hc⟩ hv
    have hreach := (hs.reach c hc).tail hx
    refine ⟨hheld.visit (he x hreach) hv, hs.visit hreach hv, ?_⟩
    rw [visit_visited hv]
    exact Finset.mem_insert_of_mem hc
  · exact fun c b hb => ⟨hb.1, hb.2.1⟩
  · refine ⟨⟨Or.inr ?_, ?_⟩, start_sound maxDist ep st⟩ <;> simp [start, hep]

def keepAll : SearchPolicy ι D σ where
  shouldStop st _ _ _ := (false, st)
  shouldConsider st _ _ _ := (true, st)
  shouldRemove st _ := (false, st)
  added st _ _ := st
  removed st _ _ := st

theorem trim_keepAll (d : D) (n : Nat) (top : Q.far.Carrier) (st : σ) :
    trim Q keepAll d n top st = .ok (top, st) := by
  cases n <;> simp [trim, keepAll]

theorem Sound.size_le {ep : ι} {b : Beam Q σ} (hs : Sound Q G ep b) {U : Finset ι}
    (hclosed : ∀ i ∈ U, ∀ j ∈ G.links i, j ∈ U) (hep : ep ∈ U) :
    Q.far.size b.topCandidates ≤ U.card := by
  have hU : ∀ i, Reach G ep i → i ∈ U := by
    intro i hi
    induction hi with
    | refl => exact hep
    | tail _ hlink ih => exact hclosed _ ih _ hlink
  have hsub : ((Q.far.elems b.topCandidates).map Prod.snd).toFinset ⊆ U := by
    intro i hi
    obtain ⟨p, hp, rfl⟩ := Multiset.mem_map.mp (Multiset.mem_toFinset.mp hi)
    exact hU _ (hs.reach _ (hs.result p hp).1)
  have hcard := Finset.card_le_card hsub
  rwa [Multiset.toFinset_card_of_nodup hs.nodup, Multiset.card_map, ← PriorityQueue.size] at hcard

theorem visit_keepAll_eq {c : ι} {b : Beam Q σ} (hsize : Q.far.size b.topCandidates < ef) :
    visit Q G keepAll c b = visit Q G (efPolicy false ef) c b := by
  have hroom : Q.far.size (admitted Q G (efPolicy false ef) c b.topCandidates b.state).1 ≤ ef := by
    have := size_admitted_le (G := G) (efPolicy false ef) c b.topCandidates b.state
    omega
  have hconsider : consider Q G keepAll c b = (true, b.state) := rfl
  have hconsider' : consider Q G (efPolicy false ef) c b = (true, b.state) := by
    simp [consider, efPolicy, hsize]
  have hadmitted : admitted Q G keepAll c b.topCandidates b.state =
      admitted Q G (efPolicy false ef) c b.topCandidates b.state := rfl
  unfold visit
  rw [hconsider, hconsider']
  simp only [if_true, hadmitted, trim_keepAll, trim_efPolicy, Q.far.popTo_of_le hroom]

theorem search_keepAll_eq {U : Finset ι} (hclosed : ∀ i ∈ U, ∀ j ∈ G.links i, j ∈ U) {fuel : Nat}
    {ep : ι} (hep : ep ∈ U) (hef : U.card < ef) (maxDist : D) (st : σ) :
    search Q G keepAll fuel maxDist ep st = search Q G (efPolicy false ef) fuel maxDist ep st := by
  have hsize : ∀ b : Beam Q σ, Sound Q G ep b → Q.far.size b.topCandidates < ef :=
    fun b hs => (hs.size_le hclosed hep).trans_lt hef
  apply loop_congr (P := Sound Q G ep) (R := fun c b => Sound Q G ep b ∧ c ∈ b.visited)
  · intro b hs
    have hne : (Q.far.size b.topCandidates == ef) = false := beq_false_of_ne (hsize b hs).ne
    simp only [next, keepAll, efPolicy, hne, Bool.and_false, Bool.false_eq_true, if_false]
  · exact fun b c b₁ hs hn => ⟨rfl, hs.next_inr hn⟩
  · exact fun c x _ b hb => visit_keepAll_eq (hsize b hb.1)
  · exact fun c x hx b b' hb hv => hb.1.visit_link hb.2 hx hv
  · exact fun c b hb => hb.1
  · exact start_sound maxDist ep st

theorem search_keepAll {U : Finset ι} (hclosed : ∀ i ∈ U, ∀ j ∈ G.links i, j ∈ U) {fuel : Nat}
    {ep : ι} (hep : ep ∈ U) (hfuel : U.card ≤ fuel) (maxDist : D) (st : σ) :
    ∃ b, search Q G keepAll fuel maxDist ep st = .ok b ∧
      ∀ i, Reach G ep i → G.eligible i = true → (G.dist i, i) ∈ Q.far.elems b.topCandidates := by
  obtain ⟨b, hb, hs, hn, hall⟩ := search_nearest (efPolicy_keepsNearest Q (U.card + 1))
    (Nat.succ_pos _) hclosed hep hfuel maxDist st
  have hroom := Nat.lt_succ_of_le (hs.size_le hclosed hep)
  rw [← search_keepAll_eq hclosed hep (Nat.lt_succ_self _)] at hb
  refine ⟨b, hb, fun i hi he => ?_⟩
  rcases hn.best i (hall hroom i hi) he with hmem | ⟨hfull, -⟩
  · exact hmem
  · exact absurd hfull (not_le.mpr hroom)

end BestFirst

end HnswRvv.Framework
