import HnswRvv.Framework.PriorityQueue

/-!
# The smallest elements of a stream

A max-queue that holds `k` elements and trades its top for a newcomer keeps the `k` smallest
elements it has seen. Where the order has no ties, emptying it from the back gives the first `k`
entries of the sorted stream, whatever the order of arrival.
-/

namespace HnswRvv.Framework

variable {α : Type} {less : α → α → Prop}

def sorted (less : α → α → Prop) [DecidableRel less] (l : List α) : List α :=
  l.mergeSort fun a b => decide (¬ less b a)

structure StrictTotal (less : α → α → Prop) : Prop where
  asymm : ∀ a b, less a b → ¬ less b a
  trans : ∀ a b c, ¬ less a b → ¬ less b c → ¬ less a c
  eq : ∀ a b, ¬ less a b → ¬ less b a → a = b

section Sorted

variable [DecidableRel less] {l l' : List α}

theorem sorted_perm (l : List α) : (sorted less l).Perm l := List.mergeSort_perm l _

theorem StrictTotal.pairwise_sorted (h : StrictTotal less) (l : List α) :
    (sorted less l).Pairwise fun a b => ¬ less b a := by
  have htrans : ∀ a b c, decide (¬ less b a) → decide (¬ less c b) → decide (¬ less c a) := by
    intro a b c hab hbc
    simp only [decide_eq_true_eq] at hab hbc ⊢
    exact h.trans c b a hbc hab
  have htotal : ∀ a b, decide (¬ less b a) || decide (¬ less a b) := by
    intro a b
    simp only [Bool.or_eq_true, decide_eq_true_eq]
    by_cases hba : less b a
    · exact .inr (h.asymm b a hba)
    · exact .inl hba
  simpa [sorted] using List.pairwise_mergeSort htrans htotal l

theorem StrictTotal.eq_sorted (h : StrictTotal less) (hl : l.Pairwise fun a b => ¬ less b a)
    (hp : l.Perm l') : l = sorted less l' := by
  apply List.Perm.eq_of_pairwise _ hl (h.pairwise_sorted l') (hp.trans (sorted_perm l').symm)
  intro a b _ _ hab hba
  exact h.eq a b hba hab

theorem StrictTotal.sorted_congr (h : StrictTotal less) (hp : l.Perm l') :
    sorted less l = sorted less l' :=
  h.eq_sorted (h.pairwise_sorted l) ((sorted_perm l).trans hp)

end Sorted

namespace PriorityQueue

variable (Q : PriorityQueue α less) {q : Q.Carrier} {k : Nat} {seen : Multiset α} {p : α}

/-- A queue of `k` of the elements seen, none of which exceeds one left out. -/
structure HoldsSmallest (k : Nat) (seen : Multiset α) (q : Q.Carrier) : Prop where
  size : Q.size q = k
  split : ∃ left, seen = Q.elems q + left ∧ ∀ a ∈ Q.elems q, ∀ b ∈ left, ¬ less b a

theorem holdsSmallest_all (q : Q.Carrier) : Q.HoldsSmallest (Q.size q) (Q.elems q) q :=
  ⟨rfl, 0, (add_zero _).symm, nofun⟩

theorem holdsSmallest_zero {q : Q.Carrier} (h : Q.size q = 0) (seen : Multiset α) :
    Q.HoldsSmallest 0 seen q := by
  have hnone : Q.elems q = 0 := Multiset.card_eq_zero.mp h
  refine ⟨h, seen, by rw [hnone, zero_add], fun a ha => ?_⟩
  rw [hnone] at ha
  exact absurd ha (Multiset.notMem_zero a)

variable {Q}

theorem HoldsSmallest.skip (h : Q.HoldsSmallest k seen q) (hp : ∀ a ∈ Q.elems q, ¬ less p a) :
    Q.HoldsSmallest k (p ::ₘ seen) q := by
  obtain ⟨left, hseen, hleft⟩ := h.split
  refine ⟨h.size, p ::ₘ left, ?_, fun a ha b hb => ?_⟩
  · rw [hseen, Multiset.add_cons]
  · rcases Multiset.mem_cons.mp hb with rfl | hb
    · exact hp a ha
    · exact hleft a ha b hb

theorem HoldsSmallest.exchange (htrans : ∀ a b c, ¬ less a b → ¬ less b c → ¬ less a c)
    (h : Q.HoldsSmallest k seen q) (p : α) :
    Q.HoldsSmallest k (p ::ₘ seen) (Q.pop (Q.push q p)) := by
  obtain ⟨left, hseen, hleft⟩ := h.split
  obtain ⟨t, ht⟩ := Q.exists_top_of_mem (q := Q.push q p) (a := p) (by simp)
  have hpop := Q.elems_of_top_some _ t ht
  rw [Q.elems_push] at hpop
  have htop : ∀ a ∈ Q.elems (Q.pop (Q.push q p)), ¬ less t a := fun a ha =>
    Q.top_max _ t ht a (Multiset.mem_of_le (Q.pop_le ht) ha)
  refine ⟨?_, t ::ₘ left, ?_, fun a ha b hb => ?_⟩
  · have := Q.size_pop ht
    rw [Q.size_push, h.size] at this
    omega
  · rw [hseen, Multiset.add_cons, ← Multiset.cons_add, ← Multiset.cons_add, hpop]
  · rcases Multiset.mem_cons.mp hb with rfl | hb
    · exact htop a ha
    · have hmem : a ∈ p ::ₘ Q.elems q := hpop ▸ Multiset.mem_cons_of_mem ha
      rcases Multiset.mem_cons.mp hmem with rfl | hold
      · -- the newcomer stays: the element that leaves is an old one, or its equal
        have ht' : t ∈ a ::ₘ Q.elems q := hpop ▸ Multiset.mem_cons_self t _
        rcases Multiset.mem_cons.mp ht' with rfl | ht'
        · rw [Multiset.cons_inj_right] at hpop
          exact hleft t (hpop ▸ ha) b hb
        · exact htrans b t a (hleft t ht' b hb) (htop a ha)
      · exact hleft a hold b hb

theorem HoldsSmallest.elems_eq (h : Q.HoldsSmallest seen.card seen q) : Q.elems q = seen := by
  obtain ⟨left, hseen, -⟩ := h.split
  have hsize : (Q.elems q).card = seen.card := h.size
  have hnone : left.card = 0 := by
    have hcard := congrArg Multiset.card hseen
    rw [Multiset.card_add] at hcard
    omega
  rw [hseen, Multiset.card_eq_zero.mp hnone, add_zero]

theorem HoldsSmallest.offer (htrans : ∀ a b c, ¬ less a b → ¬ less b c → ¬ less a c)
    (h : Q.HoldsSmallest (min k seen.card) seen q) (p : α) :
    Q.HoldsSmallest (min k (p ::ₘ seen).card) (p ::ₘ seen)
      (if k < Q.size (Q.push q p) then Q.pop (Q.push q p) else Q.push q p) := by
  rw [Multiset.card_cons, Q.size_push, h.size]
  split_ifs with hfull
  · have hk : min k seen.card = k := by omega
    rw [hk] at h
    rw [show min k (seen.card + 1) = k by omega]
    exact h.exchange htrans p
  · have hall : min k seen.card = seen.card := by omega
    rw [hall] at h
    rw [show min k (seen.card + 1) = Q.size (Q.push q p) by rw [Q.size_push, h.size]; omega,
      ← h.elems_eq, ← Q.elems_push]
    exact Q.holdsSmallest_all _

theorem HoldsSmallest.extend (h : Q.HoldsSmallest k seen q) {far : Multiset α}
    (hfar : ∀ a ∈ seen, ∀ b ∈ far, ¬ less b a) : Q.HoldsSmallest k (seen + far) q := by
  obtain ⟨left, hseen, hleft⟩ := h.split
  refine ⟨h.size, left + far, by rw [hseen, add_assoc], fun a ha b hb => ?_⟩
  rcases Multiset.mem_add.mp hb with hb | hb
  · exact hleft a ha b hb
  · exact hfar a (hseen ▸ Multiset.mem_add.mpr (.inl ha)) b hb

theorem HoldsSmallest.drain_reverse [DecidableRel less] (htotal : StrictTotal less) {l : List α}
    (h : Q.HoldsSmallest k l q) : (Q.drain q).reverse = (sorted less l).take k := by
  obtain ⟨left, hseen, hleft⟩ := h.split
  have hrest : ((sorted less left.toList : List α) : Multiset α) = left := by
    rw [Multiset.coe_eq_coe.mpr (sorted_perm _), Multiset.coe_toList]
  have hall : (Q.drain q).reverse ++ sorted less left.toList = sorted less l := by
    apply htotal.eq_sorted
    · refine List.pairwise_append.mpr ⟨?_, htotal.pairwise_sorted _, fun a ha b hb => ?_⟩
      · exact List.pairwise_reverse.mpr (Q.drain_pairwise q)
      · have hb' : b ∈ left := by rw [← hrest]; exact hb
        exact hleft a (Q.mem_drain.mp (List.mem_reverse.mp ha)) b hb'
    · rw [← Multiset.coe_eq_coe, ← Multiset.coe_add, hrest, Multiset.coe_reverse, Q.coe_drain, hseen]
  have hlen : (Q.drain q).reverse.length = k := by
    rw [List.length_reverse, Q.length_drain, h.size]
  rw [← hall, ← hlen, List.take_left]

end PriorityQueue

theorem lexLess_strictTotal {D ι : Type} [LinearOrder D] [LinearOrder ι] :
    StrictTotal (LexLess : D × ι → D × ι → Prop) where
  asymm := lexLess_asymm
  trans := not_lexLess_trans
  eq a b hab hba := by
    rw [not_lexLess_iff] at hab hba
    rcases hab with h | ⟨h, h2⟩ <;> rcases hba with h' | ⟨h', h2'⟩
    · exact absurd h' h.not_gt
    · exact absurd h' h.ne
    · exact absurd h h'.ne
    · exact Prod.ext h (h2'.antisymm h2)

end HnswRvv.Framework
