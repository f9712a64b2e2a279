import HnswRvv.Framework.NearestBeam

/-!
# Searches of a graph that changes

Between two rounds of a search the links may change. What a search still has then: its results are
distinct, and when it ends, the links of every result have been scanned. For a node enters the
queue of pending nodes together with the results, at the same distance, and the search stops only
when all pending nodes lie beyond its results.
-/

namespace HnswRvv.Framework.BestFirst

open OrderDual
set_option linter.unusedSectionVars false

variable {ι D σ : Type} [DecidableEq ι] [LinearOrder D] {Q : BeamQueues ι D} {G : SearchGraph ι D}
  {pol : SearchPolicy ι D σ} {ef : Nat} {S S' : ι → Prop}

/-- The results of a search that has scanned the nodes in `S`. -/
structure Tracked (Q : BeamQueues ι D) (ef : Nat) (S : ι → Prop) (b : Beam Q σ) : Prop where
  size_le : Q.far.size b.topCandidates ≤ ef
  bounded : ∀ p ∈ Q.far.elems b.topCandidates, p.1 ≤ b.lowerBound
  result : ∀ p ∈ Q.far.elems b.topCandidates,
    p.2 ∈ b.visited ∧ (S p.2 ∨ (toDual p.1, p.2) ∈ Q.near.elems b.candidateSet)
  pending : ∀ p ∈ Q.near.elems b.candidateSet, p.2 ∈ b.visited
  nodup : ((Q.far.elems b.topCandidates).map Prod.snd).Nodup
  nonempty : Q.far.elems b.topCandidates ≠ 0

theorem Tracked.mono {b : Beam Q σ} (h : Tracked Q ef S b) (hS : ∀ i ∈ b.visited, S i → S' i) :
    Tracked Q ef S' b :=
  ⟨h.size_le, h.bounded, fun p hp => ⟨(h.result p hp).1,
    (h.result p hp).2.imp_left (hS p.2 (h.result p hp).1)⟩, h.pending, h.nodup, h.nonempty⟩

theorem start_tracked (hef : 0 < ef) (maxDist : D) {ep : ι} (he : G.eligible ep = true) (st : σ) :
    Tracked Q ef S (start Q G pol maxDist ep st) := by
  unfold start
  rw [if_pos he]
  constructor
  · simpa using Nat.succ_le_of_lt hef
  · simp
  · simp
  · simp
  · simp
  · simp

theorem Tracked.next_inr {c : ι} {b b' : Beam Q σ} (h : Tracked Q ef S b)
    (hn : next Q pol b = .inr (c, b')) :
    Tracked Q ef (fun i => S i ∨ i = c) b' ∧ c ∈ b'.visited := by
  obtain ⟨htop, hvis, hlb, d, he⟩ := BestFirst.next_inr hn
  have hpending : ∀ p ∈ (d, c) ::ₘ Q.near.elems b'.candidateSet, p.2 ∈ b'.visited := by
    rw [← he, hvis]
    exact h.pending
  refine ⟨⟨htop ▸ h.size_le, by rw [htop, hlb]; exact h.bounded, fun p hp => ?_, ?_, htop ▸ h.nodup,
    htop ▸ h.nonempty⟩, hpending (d, c) (Multiset.mem_cons_self _ _)⟩
  · rw [htop] at hp
    obtain ⟨hv, hs⟩ := h.result p hp
    refine ⟨hvis ▸ hv, ?_⟩
    rcases hs with hs | hs
    · exact Or.inl (Or.inl hs)
    · rw [he] at hs
      rcases Multiset.mem_cons.mp hs with heq | hs
      · exact Or.inl (Or.inr (congrArg Prod.snd heq))
      · exact Or.inr hs
  · exact fun p hp => hpending p (Multiset.mem_cons_of_mem hp)

theorem Tracked.next_inl {b b' : Beam Q σ} (h : Tracked Q ef S b)
    (hstop : ∀ st n d lb, (pol.shouldStop st n d lb).1 = true → lb < d)
    (hn : next Q pol b = .inl b') :
    b'.topCandidates = b.topCandidates ∧ ∀ p ∈ Q.far.elems b.topCandidates, S p.2 := by
  refine ⟨(BestFirst.next_inl hn).1, fun p hp => ?_⟩
  rcases (h.result p hp).2 with hs | hs
  · exact hs
  · exfalso
    obtain ⟨q, hq⟩ := Q.near.exists_top_of_mem hs
    unfold next at hn
    rw [hq] at hn
    dsimp only at hn
    split at hn
    · next hst =>
      have hlt := hstop _ _ _ _ hst
      have hle : ofDual q.1 ≤ p.1 := not_lt.mp (Q.near.top_max _ q hq _ hs)
      exact absurd (hlt.trans_le hle) (not_lt.mpr (h.bounded p hp))
    · cases hn

theorem Tracked.visit (hef : 0 < ef) (hk : KeepsNearest Q pol ef) {c : ι} {b b' : Beam Q σ}
    (h : Tracked Q ef S b) (hv : BestFirst.visit Q G pol c b = .ok b') :
    Tracked Q ef S b' := by
  have hvis := visit_visited hv
  have hsub : b.visited ⊆ b'.visited := by
    rw [hvis]
    exact Finset.subset_insert c b.visited
  have hpend : ∀ p ∈ Q.near.elems b'.candidateSet, p.2 ∈ b'.visited := by
    intro p hp
    rw [hvis]
    rcases visit_pending hv with hq | ⟨-, hq⟩ <;> rw [hq] at hp
    · exact Finset.mem_insert_of_mem (h.pending p hp)
    · rcases Multiset.mem_cons.mp hp with rfl | hp
      · exact Finset.mem_insert_self _ _
      · exact Finset.mem_insert_of_mem (h.pending p hp)
  have hnodup : ((Q.far.elems b'.topCandidates).map Prod.snd).Nodup := by
    rcases visit_results hv with hle | ⟨hn, -, hle⟩
    · exact Multiset.nodup_of_le (Multiset.map_le_map hle) h.nodup
    · refine Multiset.nodup_of_le (Multiset.map_le_map hle) ?_
      rw [Multiset.map_cons, Multiset.nodup_cons]
      refine ⟨fun hm => ?_, h.nodup⟩
      obtain ⟨p, hp, hpc⟩ := Multiset.mem_map.mp hm
      change p.2 = c at hpc
      exact hn (hpc ▸ (h.result p hp).1)
  rcases visit_keeps hk h.size_le hv with ⟨-, rfl⟩ | ⟨-, -, -, htop, hcand, hlb⟩ |
    ⟨-, -, htop, hcand, hlb⟩
  · exact h
  · refine ⟨htop ▸ h.size_le, by rw [htop, hlb]; exact h.bounded, fun p hp => ?_, hpend, hnodup,
      htop ▸ h.nonempty⟩
    rw [htop] at hp
    rw [hcand]
    exact ⟨hsub (h.result p hp).1, (h.result p hp).2⟩
  · obtain ⟨removed, helems, hsize, -⟩ := Q.far.popTo_spec ef
      (admitted Q G pol c b.topCandidates (consider Q G pol c b).2).1
    rw [← htop] at helems hsize
    have hgrow := le_size_admitted (Q := Q) (G := G) pol c b.topCandidates (consider Q G pol c b).2
    have hpos : 0 < Q.far.size b.topCandidates := Multiset.card_pos.mpr h.nonempty
    refine ⟨by omega, fun p hp => ?_, fun p hp => ?_, hpend, hnodup, ?_⟩
    · rw [hlb]
      exact fst_le_top Q.far _ hp
    · have hmem : p ∈ Q.far.elems (admitted Q G pol c b.topCandidates
          (consider Q G pol c b).2).1 := by
        rw [helems]
        exact Multiset.mem_add.mpr (Or.inl hp)
      rw [hcand, Q.near.elems_push]
      rcases mem_admitted.mp hmem with hm | ⟨-, rfl⟩
      · exact ⟨hsub (h.result p hm).1, (h.result p hm).2.imp_right Multiset.mem_cons_of_mem⟩
      · refine ⟨?_, Or.inr (Multiset.mem_cons_self _ _)⟩
        rw [hvis]
        exact Finset.mem_insert_self _ _
    · refine Multiset.card_pos.mp ?_
      change 0 < Q.far.size b'.topCandidates
      omega

theorem Tracked.expand (hef : 0 < ef) (hk : KeepsNearest Q pol ef) (links : List ι) {b : Beam Q σ}
    (h : Tracked Q ef S b) : ∃ b', BestFirst.expand Q G pol links b = .ok b' ∧ Tracked Q ef S b' ∧
      ∀ i ∈ b'.visited, i ∈ b.visited ∨ i ∈ links := by
  induction links generalizing b with
  | nil => exact ⟨b, rfl, h, fun i hi => Or.inl hi⟩
  | cons c links ih =>
    obtain ⟨st, ht⟩ := KeepsNearest.trim_admitted (G := G) hk c b h.size_le
    obtain ⟨b₁, hb₁⟩ : ∃ b₁, BestFirst.visit Q G pol c b = .ok b₁ := visit_exists ⟨_, ht⟩
    obtain ⟨b₂, hb₂, htr, hvis⟩ := ih (h.visit hef hk hb₁)
    refine ⟨b₂, by rw [BestFirst.expand, hb₁]; exact hb₂, htr, fun i hi => ?_⟩
    rcases hvis i hi with hi | hi
    · rw [visit_visited hb₁] at hi
      rcases Finset.mem_insert.mp hi with rfl | hi
      · exact Or.inr List.mem_cons_self
      · exact Or.inl hi
    · exact Or.inr (List.mem_cons_of_mem c hi)

end HnswRvv.Framework.BestFirst
