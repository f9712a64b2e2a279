import HnswRvv.Framework.PriorityQueue

/-!
# Ties between members of different classes

Nodes at some distance belong to classes. A queue that orders nodes by distance alone and one that
orders pairs of a distance and a class take equals out in different orders. `HarmlessTies` says when
this cannot be told from the number of classes that are left: two nodes of different classes at one
distance are then nearest of all, and each is the only member of its class. `tieQueue` is a queue
by distance that takes equals out in the order opposite to that of the pairs.
-/

namespace HnswRvv.Framework

variable {ι D δ : Type} [LinearOrder D] {dist : ι → D} {cls : ι → δ} {S : Set ι}

def HarmlessTies (dist : ι → D) (cls : ι → δ) (S : Set ι) : Prop :=
  ∀ y ∈ S, ∀ z ∈ S, dist y = dist z → cls y ≠ cls z →
    ∀ x ∈ S, x ≠ y → x ≠ z → dist y ≤ dist x ∧ cls x ≠ cls y ∧ cls x ≠ cls z

theorem HarmlessTies.cls_injOn (h : HarmlessTies dist cls S) {y z : ι} (hy : y ∈ S) (hz : z ∈ S)
    (heq : dist y = dist z) (hne : cls y ≠ cls z) {a b : ι} (ha : a ∈ S) (hb : b ∈ S)
    (hda : dist a = dist y) (hdb : dist b = dist y) (hab : cls a = cls b) : a = b := by
  -- a node other than `y` is in a tie with `y`, and then alone in its class
  have halone : ∀ a ∈ S, ∀ b ∈ S, dist a = dist y → cls a = cls b → a ≠ y → a = b := by
    intro a ha b hb hda hab hay
    have hclass : cls a ≠ cls y := by
      rcases eq_or_ne a z with rfl | haz
      · exact hne.symm
      · exact (h y hy z hz heq hne a ha hay haz).2.1
    by_contra hne'
    have hby : b ≠ y := fun hby => hclass (hab.trans (congrArg cls hby))
    exact (h a ha y hy hda hclass b hb (Ne.symm hne') hby).2.1 hab.symm
  rcases eq_or_ne a y with rfl | hay
  · rcases eq_or_ne b a with rfl | hba
    · rfl
    · exact (halone b hb a ha hdb hab.symm hba).symm
  · exact halone a ha b hb hda hab hay

section Descending

variable {nodes : List (D × ι)} {pairs : List (D × δ)}

theorem map_fst_eq_of_perm (hperm : (pairs.map Prod.fst).Perm (nodes.map Prod.fst))
    (hnodes : nodes.Pairwise fun a b => b.1 ≤ a.1) (hpairs : pairs.Pairwise fun a b => b.1 ≤ a.1) :
    pairs.map Prod.fst = nodes.map Prod.fst := by
  have hfst : (pairs.map Prod.fst).Pairwise fun a b => b ≤ a := List.pairwise_map.mpr hpairs
  exact List.Perm.eq_of_pairwise (fun a b _ _ hab hba => le_antisymm hba hab) hfst
    (List.pairwise_map.mpr hnodes) hperm

theorem fst_eq_of_perm (hperm : (nodes.map fun p => (p.1, cls p.2)).Perm pairs)
    (hnodes : nodes.Pairwise fun a b => b.1 ≤ a.1) (hpairs : pairs.Pairwise fun a b => b.1 ≤ a.1) :
    pairs.map Prod.fst = nodes.map Prod.fst := by
  apply map_fst_eq_of_perm _ hnodes hpairs
  have hmap := hperm.symm.map Prod.fst
  rwa [List.map_map] at hmap

theorem drain_perm [LinearOrder δ] {Q : PriorityQueue (D × ι) FstLess}
    {R : PriorityQueue (D × δ) LexLess} {q : Q.Carrier} {r : R.Carrier}
    (h : R.elems r = (Q.elems q).map fun p => (p.1, cls p.2)) :
    ((Q.drain q).map fun p => (p.1, cls p.2)).Perm (R.drain r) := by
  rw [← Multiset.coe_eq_coe, ← Multiset.map_coe, Q.coe_drain, R.coe_drain, h]

theorem fst_drain_eq [LinearOrder δ] {Q : PriorityQueue (D × ι) FstLess}
    {R : PriorityQueue (D × δ) LexLess} {q : Q.Carrier} {r : R.Carrier}
    (h : R.elems r = (Q.elems q).map fun p => (p.1, cls p.2)) :
    (R.drain r).map Prod.fst = (Q.drain q).map Prod.fst :=
  fst_eq_of_perm (drain_perm h) (drain_fstLess_descending Q q) (drain_lexLess_descending R r)

/-- If the first node is in a tie with another class, everything is at its distance, and every
class has one member. -/
theorem HarmlessTies.classes_nodup (h : HarmlessTies dist cls S) {c c' : D × ι}
    (hS : ∀ p ∈ c :: nodes, p.2 ∈ S ∧ p.1 = dist p.2) (hnodup : ((c :: nodes).map Prod.snd).Nodup)
    (hnodes : (c :: nodes).Pairwise fun a b => b.1 ≤ a.1) (hc' : c' ∈ c :: nodes)
    (heq : c'.1 = c.1) (hne : cls c'.2 ≠ cls c.2) :
    ((c :: nodes).map fun p => cls p.2).Nodup := by
  obtain ⟨hcS, hcd⟩ := hS c List.mem_cons_self
  obtain ⟨hcS', hcd'⟩ := hS c' hc'
  have htie : dist c.2 = dist c'.2 := by rw [← hcd, ← hcd', heq]
  have hdist : ∀ p ∈ c :: nodes, dist p.2 = dist c.2 := by
    intro p hp
    obtain ⟨hpS, hpd⟩ := hS p hp
    apply le_antisymm
    · rw [← hpd, ← hcd]
      rcases List.mem_cons.mp hp with rfl | hp
      · exact le_rfl
      · exact List.rel_of_pairwise_cons hnodes hp
    · rcases eq_or_ne p.2 c.2 with hpc | hpc
      · rw [hpc]
      · rcases eq_or_ne p.2 c'.2 with hpc' | hpc'
        · rw [hpc', htie]
        · exact (h c.2 hcS c'.2 hcS' htie hne.symm p.2 hpS hpc hpc').1
  rw [show ((c :: nodes).map fun p => cls p.2) = ((c :: nodes).map Prod.snd).map cls by
    rw [List.map_map]
    rfl]
  apply List.Nodup.map_on _ hnodup
  intro i hi j hj hij
  obtain ⟨p, hp, rfl⟩ := List.mem_map.mp hi
  obtain ⟨p', hp', rfl⟩ := List.mem_map.mp hj
  exact h.cls_injOn hcS hcS' htie hne.symm (hS p hp).1 (hS p' hp').1 (hdist p hp) (hdist p' hp') hij

variable [DecidableEq δ]

theorem HarmlessTies.card_classes_drop (h : HarmlessTies dist cls S)
    (hS : ∀ p ∈ nodes, p.2 ∈ S ∧ p.1 = dist p.2) (hnodup : (nodes.map Prod.snd).Nodup)
    (hperm : (nodes.map fun p => (p.1, cls p.2)).Perm pairs)
    (hnodes : nodes.Pairwise fun a b => b.1 ≤ a.1) (hpairs : pairs.Pairwise fun a b => b.1 ≤ a.1)
    (k : Nat) : ((pairs.drop k).map Prod.snd).toFinset.card =
      ((nodes.drop k).map fun p => cls p.2).toFinset.card := by
  induction nodes generalizing pairs k with
  | nil =>
    obtain rfl := hperm.nil_eq
    simp
  | cons c nodes ih =>
    have hfst := fst_eq_of_perm hperm hnodes hpairs
    have hclasses : (pairs.map Prod.snd).Perm ((c :: nodes).map fun p => cls p.2) := by
      have hmap := hperm.symm.map Prod.snd
      rwa [List.map_map] at hmap
    cases pairs with
    | nil => exact absurd hfst (List.cons_ne_nil _ _).symm
    | cons p pairs =>
      rw [List.map_cons, List.map_cons, List.cons.injEq] at hfst
      cases k with
      | zero =>
        simp only [List.drop_zero]
        exact congrArg Finset.card (List.toFinset_eq_of_perm _ _ hclasses)
      | succ k =>
        rw [List.drop_succ_cons, List.drop_succ_cons]
        by_cases hsame : cls c.2 = p.2
        · have hhead : (c.1, cls c.2) = p := Prod.ext hfst.1.symm hsame
          rw [List.map_cons, hhead] at hperm
          exact ih (fun q hq => hS q (List.mem_cons_of_mem c hq)) (List.nodup_cons.mp hnodup).2
            hperm.cons_inv hnodes.of_cons hpairs.of_cons k
        · obtain ⟨c', hc', hp⟩ := List.mem_map.mp (hperm.mem_iff.mpr List.mem_cons_self)
          obtain ⟨hdist, hclass⟩ := Prod.mk.inj hp
          have hone := h.classes_nodup hS hnodup hnodes hc' (hdist.trans hfst.1)
            (hclass ▸ Ne.symm hsame)
          have hone' := hclasses.nodup_iff.mpr hone
          have hlength := hclasses.length_eq
          rw [List.map_cons, List.nodup_cons] at hone hone'
          have hdrop := (List.drop_sublist k nodes).map fun p => cls p.2
          have hdrop' := (List.drop_sublist k pairs).map Prod.snd
          rw [List.toFinset_card_of_nodup (hone.2.sublist hdrop),
            List.toFinset_card_of_nodup (hone'.2.sublist hdrop')]
          simp only [List.length_map, List.length_cons, List.length_drop] at hlength ⊢
          omega

end Descending

section TieQueue

open OrderDual

variable {κ : Type} [LinearOrder κ] (key : ι → κ)

/-- Pairs compared by distance; among equals the one with the lesser key is the larger. -/
def TieLess (a b : D × ι) : Prop := LexLess (a.1, toDual (key a.2)) (b.1, toDual (key b.2))

instance : DecidableRel (TieLess (D := D) key) :=
  fun a b => inferInstanceAs (Decidable (LexLess (a.1, toDual (key a.2)) (b.1, toDual (key b.2))))

theorem not_tieLess_iff {a b : D × ι} :
    ¬ TieLess key a b ↔ b.1 < a.1 ∨ (a.1 = b.1 ∧ key a.2 ≤ key b.2) := by
  rw [TieLess, not_lexLess_iff]
  rfl

/-- Of the farthest nodes, that with the least key is on top. -/
def tieQueue : PriorityQueue (D × ι) FstLess :=
  (listQueue (TieLess key) (fun _ _ => lexLess_asymm _ _)
    (fun _ _ _ => not_lexLess_trans _ _ _)).coarsen fun _ _ hless => .inl hless

theorem tieQueue_top_max {top : (tieQueue (D := D) key).Carrier} {p p' : D × ι}
    (h : (tieQueue key).top top = some p) (hp' : p' ∈ (tieQueue key).elems top) :
    p'.1 < p.1 ∨ (p.1 = p'.1 ∧ key p.2 ≤ key p'.2) :=
  (not_tieLess_iff key).mp ((listQueue (TieLess key) (fun _ _ => lexLess_asymm _ _)
    (fun _ _ _ => not_lexLess_trans _ _ _)).top_max top p h p' hp')

theorem tieQueue_top_eq {top : (tieQueue (D := D) key).Carrier} {p : D × ι}
    (hp : p ∈ (tieQueue key).elems top)
    (h : ∀ p' ∈ (tieQueue key).elems top, p' ≠ p →
      p'.1 < p.1 ∨ (p'.1 = p.1 ∧ key p.2 < key p'.2)) :
    (tieQueue key).top top = some p :=
  (listQueue (TieLess key) (fun _ _ => lexLess_asymm _ _)
    (fun _ _ _ => not_lexLess_trans _ _ _)).top_eq_of_forall_less hp h

end TieQueue

end HnswRvv.Framework
