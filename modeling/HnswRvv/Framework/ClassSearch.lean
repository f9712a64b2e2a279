import HnswRvv.Framework.Lockstep
import HnswRvv.Framework.Ties

/-!
# A search for members of several classes

The search collects nodes until they belong to `ef` classes, and keeps a ledger of what it holds and
of what it has shed. `countdown` gives classes up one by one until few enough are left, in an order
that is given as a list of names. The nodes themselves, farthest first, are such a list. So are the
`names` of a ledger: the order that an observer sees who knows distances and classes only, and
forgot the largest pair whenever a node was shed.
-/

namespace HnswRvv.Framework

open OrderDual

variable {ι D δ : Type} [LinearOrder D] [LinearOrder δ]

/-- The number of classes of a list of nodes. -/
def classCount (cls : ι → δ) (l : List ι) : Nat := (l.map cls).toFinset.card

theorem classCount_le_cons (cls : ι → δ) (i : ι) (l : List ι) :
    classCount cls l ≤ classCount cls (i :: l) := by
  rw [classCount, classCount, List.map_cons, List.toFinset_cons]
  exact Finset.card_le_card (Finset.subset_insert _ _)

theorem classCount_cons_le (cls : ι → δ) (i : ι) (l : List ι) :
    classCount cls (i :: l) ≤ classCount cls l + 1 := by
  rw [classCount, classCount, List.map_cons, List.toFinset_cons]
  exact Finset.card_insert_le _ _

theorem classCount_perm (cls : ι → δ) {l l' : List ι} (h : l.Perm l') :
    classCount cls l = classCount cls l' := by
  rw [classCount, classCount, List.toFinset_eq_of_perm _ _ (h.map cls)]

theorem classCount_le_length (cls : ι → δ) (l : List ι) : classCount cls l ≤ l.length :=
  (List.toFinset_card_le _).trans (List.length_map ..).le

/-- How many names have to be given up until at most `n` classes are left; `none` if a class is
named that has no member left, or if the names do not suffice. -/
def countdown (n : Nat) : Multiset δ → List δ → Option Nat
  | members, [] => if members.toFinset.card ≤ n then some 0 else none
  | members, name :: names =>
    if members.toFinset.card ≤ n then some 0
    else if name ∈ members then (countdown n (members.erase name) names).map (· + 1)
    else none

/-- Giving up the names leaves as many members as giving up the members in their own order. -/
def CutAlike (n : Nat) (members names : List δ) : Prop :=
  countdown n members names = countdown n members members

instance (n : Nat) (members names : List δ) : Decidable (CutAlike n members names) :=
  inferInstanceAs (Decidable (countdown n members names = countdown n members members))

theorem countdown_of_le {n : Nat} {members : Multiset δ} (h : members.toFinset.card ≤ n)
    (names : List δ) : countdown n members names = some 0 := by
  cases names with
  | nil => exact if_pos h
  | cons name names => exact if_pos h

theorem countdown_le_length {n k : Nat} {members : Multiset δ} {names : List δ}
    (h : countdown n members names = some k) : k ≤ names.length := by
  induction names generalizing members k with
  | nil =>
    rw [countdown] at h
    split at h
    · exact (Option.some.inj h).symm.le
    · cases h
  | cons name names ih =>
    rw [countdown] at h
    split at h
    · exact (Option.some.inj h) ▸ Nat.zero_le _
    · split at h
      · obtain ⟨k', hk', rfl⟩ := Option.map_eq_some_iff.mp h
        exact Nat.succ_le_succ (ih hk')
      · cases h

theorem countdown_self_iff {n k : Nat} {l : List δ} :
    countdown n l l = some k ↔ k ≤ l.length ∧ (l.drop k).toFinset.card ≤ n ∧
      ∀ j < k, n < (l.drop j).toFinset.card := by
  induction l generalizing k with
  | nil =>
    rw [countdown_of_le (Nat.zero_le _)]
    constructor
    · intro h
      obtain rfl := Option.some.inj h
      exact ⟨le_rfl, Nat.zero_le _, fun j hj => absurd hj (Nat.not_lt_zero j)⟩
    · rintro ⟨hk, -, -⟩
      rw [Nat.le_zero.mp hk]
  | cons a l ih =>
    have hcard : (↑(a :: l) : Multiset δ).toFinset.card = (a :: l).toFinset.card := rfl
    by_cases hfew : (a :: l).toFinset.card ≤ n
    · rw [countdown_of_le (hcard ▸ hfew)]
      constructor
      · intro h
        obtain rfl := Option.some.inj h
        exact ⟨Nat.zero_le _, hfew, fun j hj => absurd hj (Nat.not_lt_zero j)⟩
      · rintro ⟨-, -, hmany⟩
        rcases Nat.eq_zero_or_pos k with rfl | hk
        · rfl
        · exact absurd (hmany 0 hk) (not_lt.mpr hfew)
    · rw [countdown, if_neg (hcard ▸ hfew), if_pos (Multiset.mem_coe.mpr List.mem_cons_self),
        Multiset.coe_erase, List.erase_cons_head]
      cases k with
      | zero =>
        refine ⟨fun h => ?_, fun h => absurd h.2.1 hfew⟩
        obtain ⟨k', -, hk'⟩ := Option.map_eq_some_iff.mp h
        cases hk'
      | succ k =>
        rw [Option.map_eq_some_iff]
        simp only [Nat.add_right_cancel_iff, exists_eq_right, ih, List.length_cons,
          List.drop_succ_cons, Nat.succ_le_succ_iff]
        refine and_congr_right fun _ => and_congr_right fun _ => ⟨fun h j hj => ?_, fun h j hj => ?_⟩
        · cases j with
          | zero => exact not_le.mp hfew
          | succ j => exact h j (Nat.lt_of_succ_lt_succ hj)
        · exact h (j + 1) (Nat.succ_lt_succ hj)

theorem exists_countdown_self (n : Nat) (l : List δ) : ∃ k, countdown n l l = some k := by
  induction l with
  | nil => exact ⟨0, if_pos (Nat.zero_le _)⟩
  | cons a l ih =>
    obtain ⟨k, hk⟩ := ih
    rw [countdown]
    split
    · exact ⟨0, rfl⟩
    · rw [if_pos (Multiset.mem_coe.mpr List.mem_cons_self), Multiset.coe_erase, List.erase_cons_head,
        hk]
      exact ⟨k + 1, rfl⟩

theorem cutAlike_of_le {n : Nat} {members names : List δ} (h : members.toFinset.card ≤ n) :
    CutAlike n members names := by
  have hfew : (members : Multiset δ).toFinset.card ≤ n := h
  rw [CutAlike, countdown_of_le hfew, countdown_of_le hfew]

theorem cutAlike_of_perm {n : Nat} {members names : List δ} (hperm : names.Perm members)
    (hcard : ∀ j, (names.drop j).toFinset.card = (members.drop j).toFinset.card) :
    CutAlike n members names := by
  obtain ⟨k, hk⟩ := exists_countdown_self n names
  obtain ⟨hle, hfew, hmany⟩ := countdown_self_iff.mp hk
  rw [CutAlike, ← Multiset.coe_eq_coe.mpr hperm, hk, Multiset.coe_eq_coe.mpr hperm, eq_comm,
    countdown_self_iff]
  exact ⟨hperm.length_eq ▸ hle, hcard k ▸ hfew, fun j hj => hcard j ▸ hmany j hj⟩

/-- The nodes that a search holds, and those that it has shed. -/
structure Ledger (ι : Type) where
  held : List ι
  lost : List ι

/-- Collect nodes of `ef` classes, and shed the farthest while there are more. -/
def classPolicy [DecidableEq ι] (cls : ι → δ) (ef : Nat) : SearchPolicy ι D (Ledger ι) where
  shouldStop l _ d lb := (decide (lb < d ∧ classCount cls l.held = ef), l)
  shouldConsider l _ d lb := (decide (classCount cls l.held < ef ∨ d < lb), l)
  shouldRemove l _ := (decide (ef < classCount cls l.held), l)
  added l i _ := { l with held := i :: l.held }
  removed l i _ := ⟨l.held.erase i, i :: l.lost⟩

/-- Pairs of a distance and a class, the largest first. -/
def descending (pairs : List (D × δ)) : List (D × δ) :=
  pairs.insertionSort fun a b => ¬ LexLess a b

/-- The distances and classes of all nodes in descending order, but for as many as were shed. -/
def Ledger.names (dist : ι → D) (cls : ι → δ) (l : Ledger ι) : List (D × δ) :=
  (descending ((l.held ++ l.lost).map fun i => (dist i, cls i))).drop l.lost.length

private theorem lexLess_total (a b : D × δ) : ¬ LexLess a b ∨ ¬ LexLess b a := by
  by_contra h
  rw [not_or, not_not, not_not] at h
  exact lexLess_asymm a b h.1 h.2

private theorem descending_pairwise (pairs : List (D × δ)) :
    (descending pairs).Pairwise fun a b => ¬ LexLess a b := by
  have htotal : Std.Total fun a b : D × δ => ¬ LexLess a b := ⟨lexLess_total⟩
  have htrans : IsTrans (D × δ) fun a b => ¬ LexLess a b := ⟨not_lexLess_trans⟩
  exact List.pairwise_insertionSort _ _

theorem descending_unique {pairs sorted : List (D × δ)} (hperm : sorted.Perm pairs)
    (hsorted : sorted.Pairwise fun a b => ¬ LexLess a b) : descending pairs = sorted := by
  apply List.Perm.eq_of_pairwise _ (descending_pairwise pairs) hsorted
    ((List.perm_insertionSort _ _).trans hperm.symm)
  intro a b _ _ hab hba
  rw [not_lexLess_iff] at hab hba
  rcases hab with hlt | ⟨heq, hle⟩
  · rcases hba with hlt' | ⟨heq', -⟩
    · exact absurd hlt hlt'.asymm
    · exact absurd heq' hlt.ne
  · rcases hba with hlt' | ⟨-, hle'⟩
    · exact absurd heq hlt'.ne
    · exact Prod.ext heq (le_antisymm hle' hle)

theorem Ledger.names_eq {dist : ι → D} {cls : ι → δ} {l : Ledger ι} {popped : Multiset (D × δ)}
    {kept : List (D × δ)}
    (hall : popped + kept = ((l.held ++ l.lost).map fun i => (dist i, cls i) : List (D × δ)))
    (hcard : kept.length = l.held.length) (hkept : kept.Pairwise fun a b => ¬ LexLess a b)
    (horder : ∀ a ∈ popped, ∀ b ∈ kept, ¬ LexLess a b) : l.names dist cls = kept := by
  have hperm : (descending popped.toList).Perm popped.toList := List.perm_insertionSort _ _
  have hlength : l.lost.length = (descending popped.toList).length := by
    have hsum := congrArg Multiset.card hall
    rw [Multiset.card_add, Multiset.coe_card, Multiset.coe_card, List.length_map, List.length_append]
      at hsum
    rw [hperm.length_eq, Multiset.length_toList]
    omega
  have hsorted : descending ((l.held ++ l.lost).map fun i => (dist i, cls i)) =
      descending popped.toList ++ kept := by
    apply descending_unique
    · rw [← Multiset.coe_eq_coe, ← hall, ← Multiset.coe_add, Multiset.coe_eq_coe.mpr hperm,
        Multiset.coe_toList]
    · refine List.pairwise_append.mpr ⟨descending_pairwise _, hkept, fun a ha b hb => ?_⟩
      exact horder a (Multiset.mem_toList.mp (hperm.mem_iff.mp ha)) b hb
  rw [Ledger.names, hsorted, hlength, List.drop_left]

end HnswRvv.Framework
