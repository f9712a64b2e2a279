import Mathlib

/-!
# Priority queues up to their order of ties

A `PriorityQueue` is any implementation of a max-queue: its contents are a multiset, `top` names
an element that nothing exceeds, and `pop` removes that very element. Which of several equal
elements is on top is left to the implementation, so a result proved here holds for all of them.
-/

namespace HnswRvv.Framework

/-- An implementation of a max-queue for the strict order `less`. -/
structure PriorityQueue (α : Type) (less : α → α → Prop) where
  Carrier : Type
  empty : Carrier
  push : Carrier → α → Carrier
  top : Carrier → Option α
  pop : Carrier → Carrier
  elems : Carrier → Multiset α
  elems_empty : elems empty = 0
  elems_push : ∀ q a, elems (push q a) = a ::ₘ elems q
  elems_of_top_none : ∀ q, top q = none → elems q = 0
  elems_of_top_some : ∀ q a, top q = some a → elems q = a ::ₘ elems (pop q)
  top_max : ∀ q a, top q = some a → ∀ b ∈ elems q, ¬ less a b

namespace PriorityQueue

attribute [simp] elems_empty elems_push

variable {α : Type} {less : α → α → Prop} (Q : PriorityQueue α less)

def size (q : Q.Carrier) : Nat := (Q.elems q).card

@[simp] theorem size_empty : Q.size Q.empty = 0 := by simp [size]

@[simp] theorem size_push (q : Q.Carrier) (a : α) : Q.size (Q.push q a) = Q.size q + 1 := by
  simp [size]

theorem top_mem {q : Q.Carrier} {a : α} (h : Q.top q = some a) : a ∈ Q.elems q := by
  rw [Q.elems_of_top_some q a h]
  exact Multiset.mem_cons_self a _

theorem top_eq_none_iff (q : Q.Carrier) : Q.top q = none ↔ Q.elems q = 0 := by
  refine ⟨Q.elems_of_top_none q, fun h => ?_⟩
  cases ht : Q.top q with
  | none => rfl
  | some a =>
    have hm := Q.top_mem ht
    rw [h] at hm
    exact absurd hm (Multiset.notMem_zero a)

theorem exists_top {q : Q.Carrier} (h : Q.elems q ≠ 0) : ∃ a, Q.top q = some a := by
  cases ht : Q.top q with
  | none => exact absurd (Q.elems_of_top_none q ht) h
  | some a => exact ⟨a, rfl⟩

theorem exists_top_of_mem {q : Q.Carrier} {a : α} (h : a ∈ Q.elems q) : ∃ t, Q.top q = some t :=
  Q.exists_top fun h0 => Multiset.notMem_zero a (h0 ▸ h)

theorem top_eq_of_forall_less {q : Q.Carrier} {a : α} (ha : a ∈ Q.elems q)
    (h : ∀ b ∈ Q.elems q, b ≠ a → less b a) : Q.top q = some a := by
  obtain ⟨t, ht⟩ := Q.exists_top_of_mem ha
  have hnot := Q.top_max q t ht a ha
  obtain rfl : t = a := by
    by_contra hne
    exact hnot (h t (Q.top_mem ht) hne)
  exact ht

/-- A queue for an order is one for every coarser order. -/
def coarsen {less' : α → α → Prop} (h : ∀ a b, less' a b → less a b) : PriorityQueue α less' :=
  { Q with top_max := fun q a ht b hb hless => Q.top_max q a ht b hb (h a b hless) }

theorem size_pop {q : Q.Carrier} {a : α} (h : Q.top q = some a) :
    Q.size q = Q.size (Q.pop q) + 1 := by
  rw [size, Q.elems_of_top_some q a h, Multiset.card_cons, size]

theorem pop_le {q : Q.Carrier} {a : α} (h : Q.top q = some a) : Q.elems (Q.pop q) ≤ Q.elems q := by
  rw [Q.elems_of_top_some q a h]
  exact Multiset.le_cons_self _ a

private def drainFuel : Nat → Q.Carrier → List α
  | 0, _ => []
  | n + 1, q => match Q.top q with
    | none => []
    | some a => a :: drainFuel n (Q.pop q)

/-- `while (q.size() > 0) { use(q.top()); q.pop(); }`: the elements in the order of removal. -/
def drain (q : Q.Carrier) : List α := Q.drainFuel (Q.size q) q

theorem drain_of_top_none {q : Q.Carrier} (h : Q.top q = none) : Q.drain q = [] := by
  rw [drain, size, Q.elems_of_top_none q h]
  rfl

theorem drain_of_top_some {q : Q.Carrier} {a : α} (h : Q.top q = some a) :
    Q.drain q = a :: Q.drain (Q.pop q) := by
  rw [drain, Q.size_pop h, drainFuel, h]
  rfl

theorem drain_induction {motive : Q.Carrier → Prop} (nil : ∀ q, Q.top q = none → motive q)
    (cons : ∀ q a, Q.top q = some a → motive (Q.pop q) → motive q) (q : Q.Carrier) : motive q := by
  induction hn : Q.size q generalizing q with
  | zero =>
    exact nil q ((Q.top_eq_none_iff q).mpr (Multiset.card_eq_zero.mp hn))
  | succ n ih =>
    cases ht : Q.top q with
    | none => exact nil q ht
    | some a =>
      have := Q.size_pop ht
      exact cons q a ht (ih (Q.pop q) (by omega))

@[simp] theorem coe_drain (q : Q.Carrier) : (Q.drain q : Multiset α) = Q.elems q := by
  induction q using Q.drain_induction with
  | nil q h => rw [Q.drain_of_top_none h, Q.elems_of_top_none q h]; rfl
  | cons q a h ih =>
    rw [Q.drain_of_top_some h, Q.elems_of_top_some q a h, ← ih]
    rfl

theorem mem_drain {q : Q.Carrier} {a : α} : a ∈ Q.drain q ↔ a ∈ Q.elems q := by
  rw [← Q.coe_drain q, Multiset.mem_coe]

theorem nodup_map_drain {β : Type} (f : α → β) (q : Q.Carrier) :
    ((Q.drain q).map f).Nodup ↔ ((Q.elems q).map f).Nodup := by
  rw [← Multiset.coe_nodup, ← Multiset.map_coe, Q.coe_drain]

theorem length_drain (q : Q.Carrier) : (Q.drain q).length = Q.size q := by
  rw [size, ← Q.coe_drain q, Multiset.coe_card]

theorem drain_pairwise (q : Q.Carrier) : (Q.drain q).Pairwise fun a b => ¬ less a b := by
  induction q using Q.drain_induction with
  | nil q h => rw [Q.drain_of_top_none h]; exact List.Pairwise.nil
  | cons q a h ih =>
    rw [Q.drain_of_top_some h]
    refine List.Pairwise.cons (fun b hb => Q.top_max q a h b ?_) ih
    exact Multiset.mem_of_le (Q.pop_le h) (Q.mem_drain.mp hb)

def pushAll (q : Q.Carrier) (l : List α) : Q.Carrier := l.foldl Q.push q

@[simp] theorem elems_pushAll (q : Q.Carrier) (l : List α) :
    Q.elems (Q.pushAll q l) = (l : Multiset α) + Q.elems q := by
  induction l generalizing q with
  | nil => simp [pushAll]
  | cons a l ih =>
    rw [pushAll, List.foldl_cons, ← pushAll, ih, Q.elems_push, Multiset.add_cons,
      ← Multiset.cons_add, Multiset.cons_coe]

/-- `while (q.size() > k) q.pop();` -/
def popTo (k : Nat) (q : Q.Carrier) : Q.Carrier := Q.pop^[Q.size q - k] q

theorem popTo_of_le {k : Nat} {q : Q.Carrier} (h : Q.size q ≤ k) : Q.popTo k q = q := by
  rw [popTo, Nat.sub_eq_zero_of_le h]
  rfl

theorem popTo_of_lt {k : Nat} {q : Q.Carrier} {a : α} (ht : Q.top q = some a) (h : k < Q.size q) :
    Q.popTo k q = Q.popTo k (Q.pop q) := by
  have hs := Q.size_pop ht
  rw [popTo, popTo, show Q.size q - k = (Q.size (Q.pop q) - k) + 1 by omega,
    Function.iterate_succ_apply]

/-- What `popTo` removes is nowhere exceeded by what it keeps. -/
theorem popTo_spec (k : Nat) (q : Q.Carrier) : ∃ removed, Q.elems q = Q.elems (Q.popTo k q) + removed ∧
      Q.size (Q.popTo k q) = min k (Q.size q) ∧
      ∀ a ∈ removed, ∀ b ∈ Q.elems (Q.popTo k q), ¬ less a b := by
  induction q using Q.drain_induction with
  | nil q h =>
    have h0 : Q.size q = 0 := by rw [size, Q.elems_of_top_none q h]; rfl
    refine ⟨0, ?_, ?_, by simp⟩ <;> rw [Q.popTo_of_le (by omega)]
    · simp
    · omega
  | cons q a ht ih =>
    rcases Nat.lt_or_ge k (Q.size q) with hk | hk
    · have hs := Q.size_pop ht
      obtain ⟨removed, he, hsize, hmax⟩ := ih
      rw [Q.popTo_of_lt ht hk]
      refine ⟨a ::ₘ removed, ?_, by omega, ?_⟩
      · rw [Q.elems_of_top_some q a ht, Multiset.add_cons, ← he]
      · intro c hc b hb
        rcases Multiset.mem_cons.mp hc with rfl | hc
        · have hbq : b ∈ Q.elems (Q.pop q) := by
            rw [he]
            exact Multiset.mem_add.mpr (Or.inl hb)
          exact Q.top_max q c ht b (Multiset.mem_of_le (Q.pop_le ht) hbq)
        · exact hmax c hc b hb
    · refine ⟨0, ?_, ?_, by simp⟩ <;> rw [Q.popTo_of_le hk]
      · simp
      · omega

theorem popTo_le (k : Nat) (q : Q.Carrier) : Q.elems (Q.popTo k q) ≤ Q.elems q := by
  obtain ⟨removed, he, -⟩ := Q.popTo_spec k q
  rw [he]
  exact Multiset.le_add_right _ _

end PriorityQueue

section Orders

variable {D ι : Type} [LinearOrder D]

/-- Pairs compared by their first component alone. -/
def FstLess (a b : D × ι) : Prop := a.1 < b.1

instance : DecidableRel (FstLess : D × ι → D × ι → Prop) :=
  fun a b => inferInstanceAs (Decidable (a.1 < b.1))

theorem fstLess_asymm (a b : D × ι) : FstLess a b → ¬ FstLess b a := fun h => lt_asymm h

theorem not_fstLess_trans (a b c : D × ι) : ¬ FstLess a b → ¬ FstLess b c → ¬ FstLess a c := by
  intro hab hbc
  exact not_lt_of_ge (le_trans (not_lt.mp hbc) (not_lt.mp hab))

def LexLess [LT ι] (a b : D × ι) : Prop := a.1 < b.1 ∨ (a.1 = b.1 ∧ a.2 < b.2)

instance [LT ι] [DecidableRel (α := ι) (· < ·)] :
    DecidableRel (LexLess : D × ι → D × ι → Prop) :=
  fun a b => inferInstanceAs (Decidable (a.1 < b.1 ∨ (a.1 = b.1 ∧ a.2 < b.2)))

theorem lexLess_asymm [Preorder ι] (a b : D × ι) : LexLess a b → ¬ LexLess b a := by
  rintro (h | ⟨h, h2⟩) (h' | ⟨h', h2'⟩)
  · exact lt_asymm h h'
  · exact h.ne h'.symm
  · exact h'.ne h.symm
  · exact lt_asymm h2 h2'

theorem not_lexLess_iff [LinearOrder ι] (a b : D × ι) :
    ¬ LexLess a b ↔ b.1 < a.1 ∨ (a.1 = b.1 ∧ b.2 ≤ a.2) := by
  rw [LexLess, not_or, not_and, not_lt, not_lt]
  constructor
  · rintro ⟨h1, h2⟩
    rcases h1.lt_or_eq with h | h
    · exact Or.inl h
    · exact Or.inr ⟨h.symm, h2 h.symm⟩
  · rintro (h | ⟨h, h2⟩)
    · exact ⟨h.le, fun he => absurd he h.ne'⟩
    · exact ⟨h.ge, fun _ => h2⟩

theorem not_lexLess_trans [LinearOrder ι] (a b c : D × ι) :
    ¬ LexLess a b → ¬ LexLess b c → ¬ LexLess a c := by
  simp only [not_lexLess_iff]
  rintro (h | ⟨h, h2⟩) (h' | ⟨h', h2'⟩)
  · exact Or.inl (h'.trans h)
  · exact Or.inl (h' ▸ h)
  · exact Or.inl (h ▸ h')
  · exact Or.inr ⟨h.trans h', h2'.trans h2⟩

/-- The distance on top bounds all others; `d` stands for it in an empty queue. -/
theorem fst_le_top (Q : PriorityQueue (D × ι) FstLess) {q : Q.Carrier} {p : D × ι} (d : D)
    (hp : p ∈ Q.elems q) : p.1 ≤ ((Q.top q).map Prod.fst).getD d := by
  obtain ⟨t, ht⟩ := Q.exists_top_of_mem hp
  rw [ht]
  exact not_lt.mp (Q.top_max q t ht p hp)

theorem exists_fst_eq_top (Q : PriorityQueue (D × ι) FstLess) {q : Q.Carrier} (d : D)
    (hne : Q.elems q ≠ 0) : ∃ p ∈ Q.elems q, p.1 = ((Q.top q).map Prod.fst).getD d := by
  obtain ⟨t, ht⟩ := Q.exists_top hne
  rw [ht]
  exact ⟨t, Q.top_mem ht, rfl⟩

theorem drain_fstLess_descending (Q : PriorityQueue (D × ι) FstLess) (q : Q.Carrier) :
    (Q.drain q).Pairwise fun a b => b.1 ≤ a.1 :=
  (Q.drain_pairwise q).imp fun hab => not_lt.mp hab

theorem drain_lexLess_descending [LinearOrder ι] (Q : PriorityQueue (D × ι) LexLess)
    (q : Q.Carrier) : (Q.drain q).Pairwise fun a b => b.1 ≤ a.1 := by
  apply (Q.drain_pairwise q).imp
  intro a b hab
  rw [not_lexLess_iff] at hab
  rcases hab with hlt | ⟨heq, -⟩
  · exact hlt.le
  · exact heq.ge

end Orders

section ListQueue

variable {α : Type} (less : α → α → Prop) [DecidableRel less]

/-- A maximal element of a list, with the others. -/
def pickMax : List α → Option (α × List α)
  | [] => none
  | a :: l => match pickMax l with
    | none => some (a, [])
    | some (b, rest) => if less a b then some (b, a :: rest) else some (a, b :: rest)

theorem pickMax_perm (l : List α) (a : α) (rest : List α) (h : pickMax less l = some (a, rest)) :
    l.Perm (a :: rest) := by
  induction l generalizing a rest with
  | nil => simp [pickMax] at h
  | cons x l ih =>
    rw [pickMax] at h
    cases hp : pickMax less l with
    | none =>
      cases l with
      | nil => simp [pickMax] at h; simp [h]
      | cons y l =>
        exfalso
        rw [pickMax] at hp
        split at hp
        · simp at hp
        · split at hp <;> simp at hp
    | some p =>
      obtain ⟨b, r⟩ := p
      have hperm := ih b r hp
      simp only [hp] at h
      split at h
      · obtain ⟨rfl, rfl⟩ := Prod.mk.inj (Option.some.inj h)
        exact (hperm.cons x).trans (List.Perm.swap b x r)
      · obtain ⟨rfl, rfl⟩ := Prod.mk.inj (Option.some.inj h)
        exact hperm.cons x

theorem pickMax_max (hasymm : ∀ a b, less a b → ¬ less b a)
    (hneg : ∀ a b c, ¬ less a b → ¬ less b c → ¬ less a c) (l : List α) (a : α) (rest : List α)
    (h : pickMax less l = some (a, rest)) : ∀ b ∈ rest, ¬ less a b := by
  induction l generalizing a rest with
  | nil => simp [pickMax] at h
  | cons x l ih =>
    rw [pickMax] at h
    cases hp : pickMax less l with
    | none =>
      simp only [hp] at h
      obtain ⟨rfl, rfl⟩ := Prod.mk.inj (Option.some.inj h)
      simp
    | some p =>
      obtain ⟨b, r⟩ := p
      simp only [hp] at h
      split at h
      · next hlt =>
        obtain ⟨rfl, rfl⟩ := Prod.mk.inj (Option.some.inj h)
        intro c hc
        rcases List.mem_cons.mp hc with rfl | hc
        · exact hasymm _ _ hlt
        · exact ih b r hp c hc
      · next hlt =>
        obtain ⟨rfl, rfl⟩ := Prod.mk.inj (Option.some.inj h)
        intro c hc
        rcases List.mem_cons.mp hc with rfl | hc
        · exact hlt
        · exact hneg _ _ _ hlt (ih b r hp c hc)

/-- The queue as an unsorted list whose maximum is looked up on demand. -/
def listQueue (hasymm : ∀ a b, less a b → ¬ less b a)
    (hneg : ∀ a b c, ¬ less a b → ¬ less b c → ¬ less a c) : PriorityQueue α less where
  Carrier := List α
  empty := []
  push q a := a :: q
  top q := (pickMax less q).map Prod.fst
  pop q := ((pickMax less q).map Prod.snd).getD []
  elems q := (q : Multiset α)
  elems_empty := rfl
  elems_push _ _ := rfl
  elems_of_top_none q h := by
    cases q with
    | nil => rfl
    | cons a l =>
      exfalso
      rw [pickMax] at h
      split at h
      · simp at h
      · split at h <;> simp at h
  elems_of_top_some q a h := by
    obtain ⟨⟨b, rest⟩, hp, rfl⟩ := Option.map_eq_some_iff.mp h
    rw [hp]
    exact Multiset.coe_eq_coe.mpr (pickMax_perm less q b rest hp)
  top_max q a h b hb := by
    obtain ⟨⟨c, rest⟩, hp, rfl⟩ := Option.map_eq_some_iff.mp h
    have hmem := (pickMax_perm less q c rest hp).mem_iff.mp (Multiset.mem_coe.mp hb)
    rcases List.mem_cons.mp hmem with rfl | hmem
    · exact fun hl => hasymm _ _ hl hl
    · exact pickMax_max less hasymm hneg q c rest hp b hmem

end ListQueue

end HnswRvv.Framework
