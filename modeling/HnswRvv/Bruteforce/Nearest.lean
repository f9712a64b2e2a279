import HnswRvv.Bruteforce.State
import HnswRvv.Framework.Smallest

/-!
# What a brute-force query returns

The first loop of `searchKnn` takes the accepted elements of the first `k` slots as they are, and
the second trades the largest pair for a later one that is not farther away. Without a filter these
are the `k` lexicographically smallest pairs of a distance and a label over all slots in use.

With a filter the queue may hold fewer than `k` pairs when the second loop begins. The loop still
passes over everything beyond the farthest of them, so that a bound set early stays: the answer is
made of the accepted pairs within that bound.
-/

namespace HnswRvv

open Framework

namespace BruteforceSearch

variable {V D : Type} [Inhabited V] [LinearOrder D] (P : BruteforcePlatform V D)
  (s : BruteforceSearch V) (q : V) (k : Nat) (isIdAllowed : Option (LabelType → Bool))

/-- The pairs that a query sees in the first `n` slots. -/
def pairs (n : Nat) : List (D × LabelType) := (List.range n).map (pairAt P s q)

/-- Whether the filter lets the element of a slot through. -/
def accepted (i : Nat) : Bool := accepts isIdAllowed (s.data.read i).label

/-- The pairs of the accepted elements in the first `n` slots. -/
def acceptedPairs (n : Nat) : Multiset (D × LabelType) :=
  (((List.range n).filter (accepted s isIdAllowed)).map (pairAt P s q) : List (D × LabelType))

/-- Those that are no farther away than `bound`. -/
def pairsWithin (bound : D) (n : Nat) : Multiset (D × LabelType) :=
  (acceptedPairs P s q isIdAllowed n).filter (·.1 ≤ bound)

variable {P s q k isIdAllowed}

section Pairs

variable {n : Nat} {bound : D}

private theorem acceptedPairs_succ : acceptedPairs P s q isIdAllowed (n + 1) =
    if accepted s isIdAllowed n then pairAt P s q n ::ₘ acceptedPairs P s q isIdAllowed n
    else acceptedPairs P s q isIdAllowed n := by
  rw [acceptedPairs, List.range_succ, List.filter_append, List.map_append, ← Multiset.coe_add,
    Multiset.add_comm]
  cases haccepted : accepted s isIdAllowed n with
  | true => simp [haccepted, acceptedPairs]
  | false => simp [haccepted, acceptedPairs]

private theorem mem_acceptedPairs {p : D × LabelType} : p ∈ acceptedPairs P s q isIdAllowed n ↔
    ∃ i < n, accepted s isIdAllowed i ∧ pairAt P s q i = p := by
  simp [acceptedPairs, and_assoc]

private theorem acceptedPairs_mono {m : Nat} (h : m ≤ n) :
    acceptedPairs P s q isIdAllowed m ≤ acceptedPairs P s q isIdAllowed n := by
  apply Multiset.coe_le.mpr
  exact (((List.range_sublist.mpr h).filter _).map _).subperm

private theorem acceptedPairs_none : acceptedPairs P s q none n = pairs P s q n := by
  have hall : (List.range n).filter (accepted s none) = List.range n :=
    List.filter_eq_self.mpr fun _ _ => rfl
  rw [acceptedPairs, hall, pairs]

private theorem pairsWithin_succ : pairsWithin P s q isIdAllowed bound (n + 1) =
    if accepted s isIdAllowed n ∧ (pairAt P s q n).1 ≤ bound then
      pairAt P s q n ::ₘ pairsWithin P s q isIdAllowed bound n
    else pairsWithin P s q isIdAllowed bound n := by
  rw [pairsWithin, acceptedPairs_succ]
  cases haccepted : accepted s isIdAllowed n with
  | true =>
    by_cases hle : (pairAt P s q n).1 ≤ bound
    · simp [hle, pairsWithin]
    · simp [hle, pairsWithin]
  | false => simp [pairsWithin]

private theorem pairsWithin_succ_of_le (haccepted : accepted s isIdAllowed n = true)
    (hle : (pairAt P s q n).1 ≤ bound) : pairsWithin P s q isIdAllowed bound (n + 1) =
      pairAt P s q n ::ₘ pairsWithin P s q isIdAllowed bound n := by
  rw [pairsWithin_succ, if_pos ⟨haccepted, hle⟩]

private theorem emplaceAllowed_of_accepted (haccepted : accepted s isIdAllowed n = true)
    (top : P.answers.Carrier) :
    emplaceAllowed P s q isIdAllowed top n = P.answers.push top (pairAt P s q n) :=
  if_pos haccepted

private theorem emplaceAllowed_of_rejected (hrejected : accepted s isIdAllowed n = false)
    (top : P.answers.Carrier) : emplaceAllowed P s q isIdAllowed top n = top := by
  rw [accepted] at hrejected
  rw [emplaceAllowed, hrejected, if_neg Bool.false_ne_true]

private theorem not_lexLess_of_beyond {a b : D × LabelType}
    (ha : a ∈ pairsWithin P s q isIdAllowed bound n)
    (hb : b ∈ (acceptedPairs P s q isIdAllowed n).filter (¬ ·.1 ≤ bound)) : ¬ LexLess b a := by
  rw [not_lexLess_iff]
  have hle := (Multiset.mem_filter.mp ha).2
  have hlt := not_le.mp (Multiset.mem_filter.mp hb).2
  exact .inl (hle.trans_lt hlt)

end Pairs

section Loops

variable {n : Nat} {bound : D} {acc : P.answers.Carrier × D}

variable (P s q k isIdAllowed) in
/-- The slot that sets the bound: the farthest accepted one of the first `k`, or, where these are
all rejected, the first accepted one that is not beyond `maxDist`. -/
def SetsBound (j : Nat) : Prop :=
  accepted s isIdAllowed j ∧
    (j < k ∧ (∀ i < k, accepted s isIdAllowed i → (pairAt P s q i).1 ≤ (pairAt P s q j).1) ∨
      k ≤ j ∧ (pairAt P s q j).1 ≤ P.maxDist ∧
        ∀ i < j, accepted s isIdAllowed i → k ≤ i ∧ P.maxDist < (pairAt P s q i).1)

private theorem SetsBound.dist_eq {i j : Nat} (hi : SetsBound P s q k isIdAllowed i)
    (hj : SetsBound P s q k isIdAllowed j) : (pairAt P s q i).1 = (pairAt P s q j).1 := by
  obtain ⟨hai, ⟨hik, hfar⟩ | ⟨hki, hmaxi, hfirst⟩⟩ := hi
  · obtain ⟨haj, ⟨hjk, hfar'⟩ | ⟨hkj, -, hfirst'⟩⟩ := hj
    · exact le_antisymm (hfar' i hik hai) (hfar j hjk haj)
    · have hlater := (hfirst' i (by omega) hai).1
      omega
  · obtain ⟨haj, ⟨hjk, -⟩ | ⟨hkj, hmaxj, hfirst'⟩⟩ := hj
    · have hlater := (hfirst j (by omega) haj).1
      omega
    · rcases Nat.lt_trichotomy i j with hlt | rfl | hlt
      · exact absurd hmaxi (not_le.mpr (hfirst' i hlt hai).2)
      · rfl
      · exact absurd hmaxj (not_le.mpr (hfirst j hlt haj).2)

variable (P s q k isIdAllowed) in
/-- Nothing has been taken from the first `n` slots. -/
structure Idle (n : Nat) (acc : P.answers.Carrier × D) : Prop where
  elems : P.answers.elems acc.1 = 0
  lastdist : acc.2 = P.maxDist
  rejected : ∀ i < n, accepted s isIdAllowed i → k ≤ i ∧ P.maxDist < (pairAt P s q i).1

variable (P s q k isIdAllowed) in
/-- After the first `n` slots the queue holds up to `k` of the pairs within the bound, and
`lastdist` is the distance of its top. -/
structure Within (bound : D) (n : Nat) (acc : P.answers.Carrier × D) : Prop where
  smallest : P.answers.HoldsSmallest (min k (pairsWithin P s q isIdAllowed bound n).card)
    (pairsWithin P s q isIdAllowed bound n) acc.1
  lastdist : ∃ t, P.answers.top acc.1 = some t ∧ acc.2 = t.1
  reached : ∃ p ∈ pairsWithin P s q isIdAllowed bound n, p.1 = bound

private theorem Within.le_bound (h : Within P s q k isIdAllowed bound n acc) : acc.2 ≤ bound := by
  obtain ⟨t, ht, hlast⟩ := h.lastdist
  obtain ⟨left, hseen, -⟩ := h.smallest.split
  have hmem : t ∈ pairsWithin P s q isIdAllowed bound n :=
    hseen ▸ Multiset.mem_add.mpr (.inl (P.answers.top_mem ht))
  rw [hlast]
  exact (Multiset.mem_filter.mp hmem).2

private theorem Within.dist_le (h : Within P s q k isIdAllowed bound n acc) {a : D × LabelType}
    (ha : a ∈ P.answers.elems acc.1) : a.1 ≤ acc.2 := by
  obtain ⟨t, ht, hlast⟩ := h.lastdist
  have htop := P.answers.top_max _ t ht a ha
  rw [not_lexLess_iff] at htop
  rw [hlast]
  exact htop.elim le_of_lt fun he => he.1.ge

/-- While the queue is not full it holds everything within the bound, and `lastdist` stays. -/
theorem Within.lastdist_eq (h : Within P s q k isIdAllowed bound n acc)
    (hshort : (pairsWithin P s q isIdAllowed bound n).card < k) : acc.2 = bound := by
  apply le_antisymm h.le_bound
  have hall := h.smallest
  rw [Nat.min_eq_right hshort.le] at hall
  obtain ⟨p, hp, hbound⟩ := h.reached
  rw [← hall.elems_eq] at hp
  rw [← hbound]
  exact h.dist_le hp

theorem Within.pos (h : Within P s q k isIdAllowed bound n acc) : 0 < k := by
  obtain ⟨t, ht, -⟩ := h.lastdist
  have hsize : 0 < P.answers.size acc.1 := Multiset.card_pos_iff_exists_mem.mpr
    ⟨t, P.answers.top_mem ht⟩
  rw [h.smallest.size] at hsize
  omega

private theorem Within.scanSlot_rejected (h : Within P s q k isIdAllowed bound n acc)
    (hrejected : accepted s isIdAllowed n = false) : scanSlot P s q k isIdAllowed acc n = acc := by
  have hsame := emplaceAllowed_of_rejected (P := P) (q := q) hrejected acc.1
  have hroom : ¬ k < P.answers.size acc.1 := by
    rw [h.smallest.size]
    omega
  obtain ⟨t, ht, hlast⟩ := h.lastdist
  unfold scanSlot
  split_ifs with hnear
  · simp only [hsame, hroom, if_false, ht, Option.map_some, Option.getD_some, ← hlast]
  · rfl

private theorem Within.scanSlot_near (h : Within P s q k isIdAllowed bound n acc)
    (haccepted : accepted s isIdAllowed n = true) (hnear : (pairAt P s q n).1 ≤ acc.2) :
    Within P s q k isIdAllowed bound (n + 1) (scanSlot P s q k isIdAllowed acc n) := by
  have hseen := pairsWithin_succ_of_le haccepted (hnear.trans h.le_bound)
  have hoffer := h.smallest.offer not_lexLess_trans (pairAt P s q n)
  rw [← hseen] at hoffer
  rw [scanSlot, if_pos hnear, emplaceAllowed_of_accepted haccepted]
  refine ⟨hoffer, ?_, ?_⟩
  · have hpos : 0 < (pairsWithin P s q isIdAllowed bound (n + 1)).card := by
      rw [hseen, Multiset.card_cons]
      exact Nat.succ_pos _
    have hsize := hoffer.size
    obtain ⟨t, ht⟩ := P.answers.exists_top fun hnone => by
      rw [PriorityQueue.size, hnone, Multiset.card_zero] at hsize
      have := h.pos
      omega
    exact ⟨t, ht, by simp only [ht, Option.map_some, Option.getD_some]⟩
  · obtain ⟨p, hp, hbound⟩ := h.reached
    exact ⟨p, hseen ▸ Multiset.mem_cons_of_mem hp, hbound⟩

theorem Within.skip (h : Within P s q k isIdAllowed bound n acc)
    (hout : ¬ (accepted s isIdAllowed n ∧ (pairAt P s q n).1 ≤ bound)) :
    Within P s q k isIdAllowed bound (n + 1) acc := by
  have hseen : pairsWithin P s q isIdAllowed bound (n + 1) =
      pairsWithin P s q isIdAllowed bound n := by
    rw [pairsWithin_succ, if_neg hout]
  exact ⟨hseen ▸ h.smallest, h.lastdist, hseen ▸ h.reached⟩

theorem Within.step (h : Within P s q k isIdAllowed bound n acc) :
    Within P s q k isIdAllowed bound (n + 1) (scanSlot P s q k isIdAllowed acc n) := by
  cases haccepted : accepted s isIdAllowed n with
  | false =>
    rw [h.scanSlot_rejected haccepted]
    exact h.skip fun hboth => absurd (haccepted.symm.trans hboth.1) Bool.false_ne_true
  | true =>
    by_cases hnear : (pairAt P s q n).1 ≤ acc.2
    · exact h.scanSlot_near haccepted hnear
    · have hsame : scanSlot P s q k isIdAllowed acc n = acc := if_neg hnear
      rw [hsame]
      by_cases hbound : (pairAt P s q n).1 ≤ bound
      · -- within the bound but beyond `lastdist`: the queue is full of nearer pairs
        have hseen := pairsWithin_succ_of_le haccepted hbound
        have hfull : k ≤ (pairsWithin P s q isIdAllowed bound n).card := by
          by_contra hshort
          exact hnear (h.lastdist_eq (not_le.mp hshort) ▸ hbound)
        have hskip := h.smallest.skip (p := pairAt P s q n) fun a ha => by
          rw [not_lexLess_iff]
          exact .inl ((h.dist_le ha).trans_lt (not_le.mp hnear))
        obtain ⟨p, hp, hreached⟩ := h.reached
        refine ⟨?_, h.lastdist, p, hseen ▸ Multiset.mem_cons_of_mem hp, hreached⟩
        rw [hseen, Multiset.card_cons]
        rwa [Nat.min_eq_left hfull, ← Nat.min_eq_left (Nat.le_succ_of_le hfull)] at hskip
      · exact h.skip fun hboth => hbound hboth.2

private theorem Idle.scanSlot_first (h : Idle P s q k isIdAllowed n acc) (hk : 0 < k)
    (haccepted : accepted s isIdAllowed n = true) (hnear : (pairAt P s q n).1 ≤ P.maxDist) :
    Within P s q k isIdAllowed (pairAt P s q n).1 (n + 1)
      (scanSlot P s q k isIdAllowed acc n) := by
  have hbefore : pairsWithin P s q isIdAllowed (pairAt P s q n).1 n = 0 := by
    rw [pairsWithin, Multiset.filter_eq_nil]
    intro p hp hle
    obtain ⟨i, hi, ha, rfl⟩ := mem_acceptedPairs.mp hp
    exact absurd (hle.trans hnear) (not_le.mpr (h.rejected i hi ha).2)
  have hseen : pairsWithin P s q isIdAllowed (pairAt P s q n).1 (n + 1) =
      P.answers.elems (P.answers.push acc.1 (pairAt P s q n)) := by
    rw [pairsWithin_succ, if_pos ⟨haccepted, le_rfl⟩, hbefore, P.answers.elems_push, h.elems]
  have hsize : P.answers.size (P.answers.push acc.1 (pairAt P s q n)) = 1 := by
    rw [P.answers.size_push, PriorityQueue.size, h.elems, Multiset.card_zero]
  obtain ⟨t, ht⟩ := P.answers.exists_top_of_mem
    (q := P.answers.push acc.1 (pairAt P s q n)) (a := pairAt P s q n) (by simp)
  rw [scanSlot, if_pos (h.lastdist ▸ hnear), emplaceAllowed_of_accepted haccepted]
  simp only [hsize, if_neg (show ¬ k < 1 by omega), ht, Option.map_some, Option.getD_some]
  refine ⟨?_, ⟨t, ht, rfl⟩, pairAt P s q n, ?_, rfl⟩
  · have hone : (pairsWithin P s q isIdAllowed (pairAt P s q n).1 (n + 1)).card = 1 := by
      rw [hseen]
      exact hsize
    have hall := P.answers.holdsSmallest_all (P.answers.push acc.1 (pairAt P s q n))
    rw [hone, Nat.min_eq_right (Nat.succ_le_of_lt hk), hseen]
    rwa [hsize] at hall
  · rw [hseen]
    simp

theorem Idle.step (h : Idle P s q k isIdAllowed n acc) (hkn : k ≤ n)
    (hpass : accepted s isIdAllowed n → P.maxDist < (pairAt P s q n).1) :
    Idle P s q k isIdAllowed (n + 1) (scanSlot P s q k isIdAllowed acc n) := by
  have hrejected : ∀ i < n + 1, accepted s isIdAllowed i →
      k ≤ i ∧ P.maxDist < (pairAt P s q i).1 := by
    intro i hi ha
    rcases Nat.lt_succ_iff_lt_or_eq.mp hi with hlt | rfl
    · exact h.rejected i hlt ha
    · exact ⟨hkn, hpass ha⟩
  unfold scanSlot
  split_ifs with hnear
  · have hnot : accepted s isIdAllowed n = false := by
      by_contra ha
      rw [h.lastdist] at hnear
      exact absurd hnear (not_le.mpr (hpass (Bool.not_eq_false _ ▸ ha)))
    have hsame := emplaceAllowed_of_rejected (P := P) (q := q) hnot acc.1
    have hsize : ¬ k < P.answers.size acc.1 := by
      rw [PriorityQueue.size, h.elems, Multiset.card_zero]
      exact Nat.not_lt_zero k
    have htop : P.answers.top acc.1 = none := (P.answers.top_eq_none_iff _).mpr h.elems
    simp only [hsame, hsize, if_false, htop, Option.map_none, Option.getD_none]
    exact ⟨h.elems, h.lastdist, hrejected⟩
  · exact ⟨h.elems, h.lastdist, hrejected⟩

variable (P s q k isIdAllowed) in
/-- The state of the second loop after the first `n` slots. -/
def Tracked (n : Nat) (acc : P.answers.Carrier × D) : Prop :=
  Idle P s q k isIdAllowed n acc ∨ ∃ j < n, SetsBound P s q k isIdAllowed j ∧
    Within P s q k isIdAllowed (pairAt P s q j).1 n acc

theorem Tracked.step (h : Tracked P s q k isIdAllowed n acc) (hk : 0 < k) (hkn : k ≤ n) :
    Tracked P s q k isIdAllowed (n + 1) (scanSlot P s q k isIdAllowed acc n) := by
  rcases h with hidle | ⟨j, hj, hsets, hwithin⟩
  · by_cases htaken : accepted s isIdAllowed n ∧ (pairAt P s q n).1 ≤ P.maxDist
    · right
      refine ⟨n, Nat.lt_succ_self n, ⟨htaken.1, .inr ⟨hkn, htaken.2, hidle.rejected⟩⟩, ?_⟩
      exact hidle.scanSlot_first hk htaken.1 htaken.2
    · left
      exact hidle.step hkn fun ha => not_le.mp fun hle => htaken ⟨ha, hle⟩
  · right
    exact ⟨j, Nat.lt_succ_of_lt hj, hsets, hwithin.step⟩

variable (P s q isIdAllowed) in
private theorem elems_seed (n : Nat) :
    P.answers.elems ((List.range n).foldl (emplaceAllowed P s q isIdAllowed) P.answers.empty) =
      acceptedPairs P s q isIdAllowed n := by
  induction n with
  | zero => simp [acceptedPairs]
  | succ n ih =>
    rw [List.range_succ, List.foldl_append, acceptedPairs_succ, ← ih, List.foldl_cons,
      List.foldl_nil, emplaceAllowed]
    split_ifs with h h' h'
    · exact P.answers.elems_push _ _
    · exact absurd h h'
    · exact absurd h' h
    · rfl

variable (P s q k isIdAllowed) in
private theorem tracked_seed : Tracked P s q k isIdAllowed k
    ((List.range k).foldl (emplaceAllowed P s q isIdAllowed) P.answers.empty,
      ((P.answers.top ((List.range k).foldl (emplaceAllowed P s q isIdAllowed)
        P.answers.empty)).map (·.1)).getD P.maxDist) := by
  have helems := elems_seed P s q isIdAllowed k
  generalize (List.range k).foldl (emplaceAllowed P s q isIdAllowed) P.answers.empty = top at helems ⊢
  cases ht : P.answers.top top with
  | none =>
    left
    have hnone := (P.answers.top_eq_none_iff _).mp ht
    refine ⟨hnone, rfl, fun i hi ha => ?_⟩
    have hmem : pairAt P s q i ∈ P.answers.elems top :=
      helems ▸ mem_acceptedPairs.mpr ⟨i, hi, ha, rfl⟩
    rw [hnone] at hmem
    exact absurd hmem (Multiset.notMem_zero _)
  | some t =>
    right
    have hmax : ∀ p ∈ acceptedPairs P s q isIdAllowed k, p.1 ≤ t.1 := by
      intro p hp
      have htop := P.answers.top_max _ t ht p (helems ▸ hp)
      rw [not_lexLess_iff] at htop
      exact htop.elim le_of_lt fun he => he.1.ge
    have hmem : t ∈ acceptedPairs P s q isIdAllowed k := helems ▸ P.answers.top_mem ht
    obtain ⟨j, hj, ha, rfl⟩ := mem_acceptedPairs.mp hmem
    refine ⟨j, hj, ⟨ha, .inl ⟨hj, fun i hi hai => hmax _ (mem_acceptedPairs.mpr ⟨i, hi, hai, rfl⟩)⟩⟩, ?_⟩
    have hseen : pairsWithin P s q isIdAllowed (pairAt P s q j).1 k = P.answers.elems top := by
      rw [pairsWithin, helems]
      exact Multiset.filter_eq_self.mpr hmax
    have hcard : (acceptedPairs P s q isIdAllowed k).card ≤ k := by
      rw [acceptedPairs, Multiset.coe_card, List.length_map]
      exact (List.length_filter_le _ _).trans_eq List.length_range
    refine ⟨?_, ⟨_, ht, rfl⟩, _, ?_, rfl⟩
    · rw [hseen, helems, Nat.min_eq_right hcard, ← helems]
      exact P.answers.holdsSmallest_all top
    · rw [hseen]
      exact P.answers.top_mem ht

theorem Tracked.scan (h : Tracked P s q k isIdAllowed k acc) (hk : 0 < k) (m : Nat) :
    Tracked P s q k isIdAllowed (k + m)
      ((List.range' k m).foldl (scanSlot P s q k isIdAllowed) acc) := by
  induction m with
  | zero => exact h
  | succ m ih =>
    rw [List.range'_1_concat, List.foldl_append]
    exact ih.step hk (Nat.le_add_right k m)

private theorem size_scan_zero (m : Nat) (h : P.answers.size acc.1 = 0) :
    P.answers.size ((List.range' 0 m).foldl (scanSlot P s q 0 isIdAllowed) acc).1 = 0 := by
  induction m with
  | zero => exact h
  | succ m ih =>
    rw [List.range'_1_concat, List.foldl_append, List.foldl_cons, List.foldl_nil]
    generalize (List.range' 0 m).foldl (scanSlot P s q 0 isIdAllowed) acc = acc' at ih ⊢
    rw [scanSlot]
    split_ifs with hnear
    · dsimp only
      rw [emplaceAllowed]
      split_ifs with haccepted hlarge hlarge
      · obtain ⟨t, ht⟩ := P.answers.exists_top_of_mem
          (q := P.answers.push acc'.1 (pairAt P s q (0 + m))) (a := pairAt P s q (0 + m)) (by simp)
        have hpop := P.answers.size_pop ht
        rw [P.answers.size_push] at hpop
        omega
      · exact Nat.eq_zero_of_not_pos hlarge
      · omega
      · exact ih
    · exact ih

end Loops

section Answers

variable (P s q isIdAllowed) in
private theorem searchKnn_tracked (hpos : 0 < k) (hk : k ≤ s.curElementCount)
    (hint : s.curElementCount < 2 ^ 31) : ∃ acc, searchKnn P s q k isIdAllowed = .ok acc.1 ∧
      Tracked P s q k isIdAllowed s.curElementCount acc := by
  unfold searchKnn
  rw [if_neg hk.not_gt, if_neg (show s.curElementCount ≠ 0 by omega), if_neg hint.not_ge]
  have hscan := (tracked_seed P s q k isIdAllowed).scan hpos (s.curElementCount - k)
  rw [Nat.add_sub_cancel' hk] at hscan
  exact ⟨_, rfl, hscan⟩

variable (P s q isIdAllowed) in
private theorem searchKnn_zero (hint : s.curElementCount < 2 ^ 31) :
    ∃ top, searchKnn P s q 0 isIdAllowed = .ok top ∧ P.answers.size top = 0 := by
  unfold searchKnn
  rw [if_neg (Nat.not_lt_zero _)]
  split_ifs with hempty hmany
  · exact ⟨_, rfl, P.answers.size_empty⟩
  · omega
  · exact ⟨_, rfl, size_scan_zero _ P.answers.size_empty⟩

private theorem Within.holdsSmallest {n : Nat} {bound : D} {acc : P.answers.Carrier × D}
    (h : Within P s q k isIdAllowed bound n acc)
    (henough : min k (acceptedPairs P s q isIdAllowed n).card ≤
      (pairsWithin P s q isIdAllowed bound n).card) :
    P.answers.HoldsSmallest (min k (acceptedPairs P s q isIdAllowed n).card)
      (acceptedPairs P s q isIdAllowed n) acc.1 := by
  have hle : (pairsWithin P s q isIdAllowed bound n).card ≤
      (acceptedPairs P s q isIdAllowed n).card := Multiset.card_le_card (Multiset.filter_le _ _)
  have hsame : min k (pairsWithin P s q isIdAllowed bound n).card =
      min k (acceptedPairs P s q isIdAllowed n).card := by omega
  have hall := h.smallest.extend fun a ha b hb => not_lexLess_of_beyond ha hb
  rwa [pairsWithin, Multiset.filter_add_not, ← pairsWithin, hsame] at hall

theorem searchKnn_holdsSmallest (hk : k ≤ s.curElementCount) (hint : s.curElementCount < 2 ^ 31) :
    ∃ top, searchKnn P s q k none = .ok top ∧
      P.answers.HoldsSmallest k (pairs P s q s.curElementCount) top := by
  rcases Nat.eq_zero_or_pos k with rfl | hpos
  · obtain ⟨top, htop, hnone⟩ := searchKnn_zero P s q none hint
    exact ⟨top, htop, P.answers.holdsSmallest_zero hnone _⟩
  · obtain ⟨acc, hacc, hidle | ⟨j, hj, hsets, hwithin⟩⟩ :=
      searchKnn_tracked P s q none hpos hk hint
    · have hfirst := (hidle.rejected 0 (by omega) rfl).1
      omega
    · -- the first `k` pairs are within the bound
      have hfar : ∀ i < k, (pairAt P s q i).1 ≤ (pairAt P s q j).1 := by
        obtain ⟨-, ⟨-, hfar⟩ | ⟨hkj, -, hfirst⟩⟩ := hsets
        · exact fun i hi => hfar i hi rfl
        · have hlater := (hfirst 0 (by omega) rfl).1
          omega
      have henough : k ≤ (pairsWithin P s q none (pairAt P s q j).1 s.curElementCount).card := by
        have hfirst : acceptedPairs P s q none k ≤
            pairsWithin P s q none (pairAt P s q j).1 s.curElementCount := by
          apply Multiset.le_filter.mpr
          refine ⟨acceptedPairs_mono hk, fun p hp => ?_⟩
          obtain ⟨i, hi, -, rfl⟩ := mem_acceptedPairs.mp hp
          exact hfar i hi
        have hcard := Multiset.card_le_card hfirst
        rw [acceptedPairs_none] at hcard
        simpa [pairs] using hcard
      have hcount : (acceptedPairs P s q none s.curElementCount).card = s.curElementCount := by
        rw [acceptedPairs_none]
        simp [pairs]
      have hsmall := hwithin.holdsSmallest (by omega)
      rw [hcount, Nat.min_eq_left hk, acceptedPairs_none] at hsmall
      exact ⟨_, hacc, hsmall⟩

variable (P s q k isIdAllowed) in
/-- As many accepted elements as were asked for, none of them farther away than one left out. -/
structure ExactAnswer (top : P.answers.Carrier) : Prop where
  size : P.answers.size top =
    min k (acceptedPairs P s q isIdAllowed s.curElementCount).card
  nearest : ∃ left, acceptedPairs P s q isIdAllowed s.curElementCount =
    P.answers.elems top + left ∧ ∀ a ∈ P.answers.elems top, ∀ b ∈ left, a.1 ≤ b.1

private theorem ExactAnswer.of_holdsSmallest {top : P.answers.Carrier}
    (h : P.answers.HoldsSmallest (min k (acceptedPairs P s q isIdAllowed s.curElementCount).card)
      (acceptedPairs P s q isIdAllowed s.curElementCount) top) :
    ExactAnswer P s q k isIdAllowed top := by
  obtain ⟨left, hseen, hleft⟩ := h.split
  refine ⟨h.size, left, hseen, fun a ha b hb => ?_⟩
  have hnot := hleft a ha b hb
  rw [not_lexLess_iff] at hnot
  exact hnot.elim le_of_lt fun he => he.1.ge

variable (P s q k isIdAllowed) in
/-- Nothing can be returned, or the slot that sets the bound has enough accepted elements as near
as its own. -/
def BoundSuffices : Prop :=
  min k (acceptedPairs P s q isIdAllowed s.curElementCount).card = 0 ∨
    ∃ j < s.curElementCount, SetsBound P s q k isIdAllowed j ∧
      min k (acceptedPairs P s q isIdAllowed s.curElementCount).card ≤
        (pairsWithin P s q isIdAllowed (pairAt P s q j).1 s.curElementCount).card

private theorem Tracked.exactAnswer_iff {acc : P.answers.Carrier × D}
    (h : Tracked P s q k isIdAllowed s.curElementCount acc) :
    ExactAnswer P s q k isIdAllowed acc.1 ↔ BoundSuffices P s q k isIdAllowed := by
  rcases h with hidle | ⟨j, hj, hsets, hwithin⟩
  · have hsize : P.answers.size acc.1 = 0 := by
      rw [PriorityQueue.size, hidle.elems, Multiset.card_zero]
    constructor
    · intro hexact
      exact .inl (hexact.size.symm.trans hsize)
    · rintro (hnone | ⟨i, hi, ⟨ha, hwhere⟩, -⟩)
      · apply ExactAnswer.of_holdsSmallest
        rw [hnone]
        exact P.answers.holdsSmallest_zero hsize _
      · have hlater := hidle.rejected i hi ha
        rcases hwhere with ⟨hik, -⟩ | ⟨-, hle, -⟩
        · omega
        · exact absurd hle (not_le.mpr hlater.2)
  · constructor
    · intro hexact
      have hsize := hwithin.smallest.size.symm.trans hexact.size
      exact .inr ⟨j, hj, hsets, by omega⟩
    · intro henough
      apply ExactAnswer.of_holdsSmallest
      apply hwithin.holdsSmallest
      rcases henough with hnone | ⟨i, -, hsets', hcard⟩
      · omega
      · rwa [hsets'.dist_eq hsets] at hcard

/-- A filtered query is exact if and only if the bound that its first elements set is wide
enough. -/
theorem searchKnn_filtered_iff (hk : k ≤ s.curElementCount) :
    (∃ top, searchKnn P s q k isIdAllowed = .ok top ∧ ExactAnswer P s q k isIdAllowed top) ↔
      s.curElementCount < 2 ^ 31 ∧ BoundSuffices P s q k isIdAllowed := by
  by_cases hint : s.curElementCount < 2 ^ 31
  · rw [and_iff_right hint]
    rcases Nat.eq_zero_or_pos k with rfl | hpos
    · obtain ⟨top, htop, hnone⟩ := searchKnn_zero P s q isIdAllowed hint
      refine iff_of_true ⟨top, htop, ?_⟩ (.inl (Nat.zero_min _))
      apply ExactAnswer.of_holdsSmallest
      rw [Nat.zero_min]
      exact P.answers.holdsSmallest_zero hnone _
    · obtain ⟨acc, hacc, htracked⟩ := searchKnn_tracked P s q isIdAllowed hpos hk hint
      rw [← htracked.exactAnswer_iff, hacc]
      constructor
      · rintro ⟨top, htop, hexact⟩
        cases htop
        exact hexact
      · exact fun hexact => ⟨acc.1, rfl, hexact⟩
  · have hoverflow : searchKnn P s q k isIdAllowed = .error .overflow := by
      unfold searchKnn
      rw [if_neg hk.not_gt, if_neg (by omega), if_pos (not_lt.mp hint)]
    refine iff_of_false ?_ fun h => hint h.1
    rintro ⟨top, htop, -⟩
    rw [hoverflow] at htop
    cases htop

/-- Distances on a line, with answers kept as lists. -/
def lineDistances : BruteforcePlatform ℤ ℤ where
  fstdistfunc a b := (a - b).natAbs
  maxDist := 1000000
  answers := listQueue LexLess lexLess_asymm not_lexLess_trans

/-- The points 1, 2 and 5 with the labels 0, 1 and 2. -/
def threeSlots : BruteforceSearch ℤ where
  data := ⟨[⟨1, 0⟩, ⟨2, 1⟩, ⟨5, 2⟩]⟩
  maxElements := 3
  curElementCount := 3
  dictExternalToInternal := Function.update (Function.update (Function.update (fun _ => none)
    0 (some 0)) 1 (some 1)) 2 (some 2)

/-- From 6 the first accepted point is the farther one of the two, and both are found. -/
theorem searchKnn_filtered_threeSlots : 2 ≤ threeSlots.curElementCount ∧
    ∃ top, searchKnn lineDistances threeSlots 6 2 (some (· ≠ 1)) = .ok top ∧
      ExactAnswer lineDistances threeSlots 6 2 (some (· ≠ 1)) top := by
  have hbound : SetsBound lineDistances threeSlots 6 2 (some (· ≠ 1)) 0 :=
    ⟨by decide, .inl ⟨by decide, by decide⟩⟩
  exact ⟨by decide, (searchKnn_filtered_iff (by decide)).mpr
    ⟨by decide, .inr ⟨0, by decide, hbound, by decide +kernel⟩⟩⟩

/-- From 0 the first accepted point is the nearer one, and the other one is passed over. -/
theorem searchKnn_filtered_loses : ∃ top,
    (do addPoint 1 0; addPoint 2 1; addPoint 5 2 : BruteforceM ℤ Unit) (built 3 default) =
      .ok () threeSlots ∧ 2 ≤ threeSlots.curElementCount ∧
    (acceptedPairs lineDistances threeSlots 0 (some (· ≠ 1)) 3).card = 2 ∧
    searchKnn lineDistances threeSlots 0 2 (some (· ≠ 1)) = .ok top ∧
    lineDistances.answers.elems top = {(1, 0)} ∧
    ¬ ExactAnswer lineDistances threeSlots 0 2 (some (· ≠ 1)) top := by
  refine ⟨[(1, 0)], rfl, by decide, by decide +kernel, rfl, rfl, fun hexact => ?_⟩
  have hsize := hexact.size
  exact absurd hsize (by decide +kernel)

end Answers

end BruteforceSearch

end HnswRvv
