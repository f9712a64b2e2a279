import Mathlib
import HnswRvv.Framework.Custody

/-!
# The pool of visited lists

A search marks the elements it has seen with the tag of its visited list and never clears the
marks; the next user of the list gets a new tag instead. Tags have 16 bits, so the array is cleared
when they run out. Threads take lists from a common pool: the pool itself is locked, the reset of a
list is not. A run is any interleaving of such steps.
-/

namespace HnswRvv

open Framework

abbrev VlType := BitVec 16

/-- `VisitedList` for `n` elements. -/
structure VisitedList (n : Nat) where
  curV : VlType
  mass : Vector VlType n

namespace VisitedList

variable {n : Nat}

/-- The constructor; `mass` is what the memory happens to hold. -/
def construct (mass : Vector VlType n) : VisitedList n := ⟨-1, mass⟩

def reset (vl : VisitedList n) : VisitedList n :=
  let curV := vl.curV + 1
  if curV = 0 then ⟨curV + 1, Vector.replicate n 0⟩ else ⟨curV, vl.mass⟩

/-- `visited_array[i] = visited_array_tag` -/
def tag (vl : VisitedList n) (i : Fin n) : VisitedList n :=
  ⟨vl.curV, vl.mass.set i vl.curV⟩

/-- `visited_array[i] == visited_array_tag` -/
def isVisited (vl : VisitedList n) (i : Fin n) : Bool := vl.mass[i] == vl.curV

/-- No tag found in the array is one still to come. -/
def Bounded (vl : VisitedList n) : Prop := ∀ i : Fin n, vl.mass[i].toNat ≤ vl.curV.toNat

private theorem bounded_construct (mass : Vector VlType n) : (construct mass).Bounded := by
  intro i
  have := mass[i].isLt
  change mass[i].toNat ≤ (-1 : BitVec 16).toNat
  rw [show (-1 : BitVec 16).toNat = 65535 from rfl]
  omega

private theorem lt_curV_reset {vl : VisitedList n} (h : vl.Bounded) (i : Fin n) :
    vl.reset.mass[i].toNat < vl.reset.curV.toNat := by
  by_cases hwrap : vl.curV + 1 = 0
  · rw [show vl.reset = ⟨vl.curV + 1 + 1, Vector.replicate n 0⟩ from if_pos hwrap, hwrap]
    simp
  · have hcur := vl.curV.isLt
    have hne : vl.curV.toNat ≠ 65535 := fun he => hwrap (BitVec.eq_of_toNat_eq (by simp [he]))
    have hadd : (vl.curV + 1).toNat = vl.curV.toNat + 1 := by
      rw [BitVec.toNat_add, show (1 : BitVec 16).toNat = 1 from rfl]
      omega
    rw [show vl.reset = ⟨vl.curV + 1, vl.mass⟩ from if_neg hwrap, hadd]
    exact Nat.lt_succ_of_le (h i)

private theorem bounded_reset {vl : VisitedList n} (h : vl.Bounded) : vl.reset.Bounded :=
  fun i => (lt_curV_reset h i).le

private theorem bounded_tag {vl : VisitedList n} (h : vl.Bounded) (i : Fin n) : (vl.tag i).Bounded := by
  intro j
  change (vl.mass.set i vl.curV)[j].toNat ≤ vl.curV.toNat
  by_cases hij : (i : Nat) = j
  · simp [hij]
  · rw [Fin.getElem_fin, Vector.getElem_set_ne _ _ hij]
    exact h j

private theorem isVisited_reset {vl : VisitedList n} (h : vl.Bounded) (i : Fin n) :
    vl.reset.isVisited i = false := by
  rw [isVisited, beq_eq_false_iff_ne]
  exact fun he => (lt_curV_reset h i).ne (congrArg BitVec.toNat he)

end VisitedList

/-- `VisitedListPool` with the lists in memory and the clients that hold some of them. `fetched` is
the list a client has taken and not yet reset. -/
structure VisitedListPool (Client : Type) (n : Nat) where
  custody : Custody Client
  lists : Nat → VisitedList n
  fetched : Client → Option Nat

inductive PoolStep (Client : Type) (n : Nat) where
  /-- The locked part of `getFreeVisitedList`; `mass` is for a list that has to be made. -/
  | fetch (c : Client) (mass : Vector VlType n)
  /-- `rez->reset(); return rez;` -/
  | handOut (c : Client)
  | tag (c : Client) (p : Nat) (i : Fin n)
  | releaseVisitedList (c : Client) (p : Nat)

namespace VisitedListPool

variable {Client : Type} {n : Nat}

def construct (initmaxpools : Nat) (mass : Nat → Vector VlType n) : VisitedListPool Client n :=
  ⟨Custody.full initmaxpools, fun p => VisitedList.construct (mass p), fun _ => none⟩

/-- Every list is in one place and bounded by its tag. -/
structure Inv (s : VisitedListPool Client n) : Prop where
  exclusive : s.custody.Exclusive
  bounded : ∀ p, (s.lists p).Bounded
  fetched : ∀ c p, s.fetched c = some p → p ∈ s.custody.held c

private theorem inv_construct (initmaxpools : Nat) (mass : Nat → Vector VlType n) :
    (construct initmaxpools mass : VisitedListPool Client n).Inv where
  exclusive := Custody.exclusive_full initmaxpools
  bounded p := VisitedList.bounded_construct (mass p)
  fetched _ _ h := by cases h

private theorem Inv.bounded_update {s : VisitedListPool Client n} (h : s.Inv) {p : Nat} {vl : VisitedList n}
    (hvl : vl.Bounded) (r : Nat) : (Function.update s.lists p vl r).Bounded := by
  by_cases hr : r = p
  · subst hr
    simpa using hvl
  · simpa [hr] using h.bounded r

variable [DecidableEq Client]

/-- One step, if the client can make it: it makes one call at a time, and it tags and releases only
what it holds. -/
def step (s : VisitedListPool Client n) : PoolStep Client n → Option (VisitedListPool Client n)
  | .fetch c mass =>
    if s.fetched c = none then
      let (p, custody) := s.custody.acquire c
      some
        { custody := custody
          lists :=
            if s.custody.free = [] then Function.update s.lists p (VisitedList.construct mass)
            else s.lists
          fetched := Function.update s.fetched c (some p) }
    else none
  | .handOut c =>
    match s.fetched c with
    | none => none
    | some p => some { s with
        lists := Function.update s.lists p (s.lists p).reset
        fetched := Function.update s.fetched c none }
  | .tag c p i =>
    if p ∈ s.custody.held c ∧ s.fetched c = none then
      some { s with lists := Function.update s.lists p ((s.lists p).tag i) }
    else none
  | .releaseVisitedList c p =>
    if p ∈ s.custody.held c ∧ s.fetched c = none then
      some { s with custody := s.custody.release c p }
    else none

def run : List (PoolStep Client n) → VisitedListPool Client n → Option (VisitedListPool Client n)
  | [], s => some s
  | a :: rest, s => (s.step a).bind (run rest)

variable {s s' : VisitedListPool Client n}

theorem Inv.step (h : s.Inv) {a : PoolStep Client n} (hs : s.step a = some s') : s'.Inv := by
  cases a with
  | fetch c mass =>
    simp only [VisitedListPool.step] at hs
    split at hs
    · cases hs
      refine ⟨h.exclusive.acquire c, fun p => ?_, fun d p hd => ?_⟩
      · dsimp only
        split
        · exact h.bounded_update (VisitedList.bounded_construct mass) p
        · exact h.bounded p
      · by_cases hdc : d = c
        · subst hdc
          obtain rfl : (s.custody.acquire d).1 = p := by simpa using hd
          exact Custody.mem_held_acquire s.custody d
        · exact Custody.mem_held_acquire_of_mem (h.fetched d p (by simpa [hdc] using hd))
    · cases hs
  | handOut c =>
    simp only [VisitedListPool.step] at hs
    split at hs
    · cases hs
    · next p hp =>
      cases hs
      refine ⟨h.exclusive, h.bounded_update (VisitedList.bounded_reset (h.bounded p)),
        fun d r hd => h.fetched d r ?_⟩
      by_cases hdc : d = c
      · subst hdc
        simp at hd
      · simpa [hdc] using hd
  | tag c p i =>
    simp only [VisitedListPool.step] at hs
    split at hs
    · cases hs
      exact ⟨h.exclusive, h.bounded_update (VisitedList.bounded_tag (h.bounded p) i), h.fetched⟩
    · cases hs
  | releaseVisitedList c p =>
    simp only [VisitedListPool.step] at hs
    split at hs
    · next hheld =>
      cases hs
      refine ⟨h.exclusive.release hheld.1, h.bounded, fun d r hd => ?_⟩
      -- another client's list is not the one given back
      have hr := h.fetched d r hd
      refine Custody.mem_held_release_of_ne hr ?_
      rintro rfl
      obtain rfl := h.exclusive.one_holder hr hheld.1
      cases hheld.2.symm.trans hd
    · cases hs

theorem Inv.run (h : s.Inv) {steps : List (PoolStep Client n)} (hs : run steps s = some s') :
    s'.Inv := by
  induction steps generalizing s with
  | nil =>
    cases hs
    exact h
  | cons a rest ih =>
    obtain ⟨t, ht, hs⟩ := Option.bind_eq_some_iff.mp hs
    exact ih (h.step ht) hs

/-- In every run of any clients on any memory, a list is with one client or in the pool, and is
handed out with a tag that its array does not contain. -/
theorem visitedLists_clean (initmaxpools : Nat) (mass : Nat → Vector VlType n)
    (steps : List (PoolStep Client n)) (hs : run steps (construct initmaxpools mass) = some s) :
    (∀ c c' p, p ∈ s.custody.held c → p ∈ s.custody.held c' → c = c') ∧
    (∀ c p, p ∈ s.custody.held c → p ∉ s.custody.free) ∧
    s.custody.free.Nodup ∧ (∀ c, (s.custody.held c).Nodup) ∧
    ∀ c s', s.step (.handOut c) = some s' → ∃ p, p ∈ s'.custody.held c ∧ s.fetched c = some p ∧
      ∀ i : Fin n, (s'.lists p).mass[i] ≠ (s'.lists p).curV := by
  have h := (inv_construct initmaxpools mass).run hs
  refine ⟨fun _ _ _ => h.exclusive.one_holder, fun _ _ => h.exclusive.held_not_free,
    h.exclusive.free_nodup, h.exclusive.held_nodup, fun c s' hstep => ?_⟩
  simp only [VisitedListPool.step] at hstep
  split at hstep
  · cases hstep
  · next p hp =>
    cases hstep
    refine ⟨p, h.fetched c p hp, hp, fun i => ?_⟩
    have hnot := VisitedList.isVisited_reset (h.bounded p) i
    rw [VisitedList.isVisited, beq_eq_false_iff_ne] at hnot
    simpa using hnot

/-- Two clients on a pool of one list: the second gets a list of its own, and the first, after it
has given its list back, gets it again. -/
def twoClients : List (PoolStep Bool 2) :=
  [.fetch true (Vector.replicate 2 7), .fetch false (Vector.replicate 2 1), .handOut true,
    .handOut false, .tag true 0 ⟨1, Nat.one_lt_two⟩, .tag false 1 ⟨0, Nat.two_pos⟩, .releaseVisitedList true 0,
    .fetch true (Vector.replicate 2 9)]

theorem visitedLists_clean_twoClients : ∃ s s' : VisitedListPool Bool 2,
    run twoClients (construct 1 fun _ => Vector.replicate 2 65535) = some s ∧
    s.step (.handOut true) = some s' ∧
    ∃ p, p ∈ s'.custody.held true ∧ s.fetched true = some p ∧
      ∀ i : Fin 2, (s'.lists p).mass[i] ≠ (s'.lists p).curV := by
  have hrun : (run twoClients (construct 1 fun _ => Vector.replicate 2 65535)).any
      fun s => (s.step (.handOut true)).isSome := by decide +kernel
  obtain ⟨s, hs, hstep⟩ := (Option.any_eq_true _ _).mp hrun
  obtain ⟨s', hs'⟩ := Option.isSome_iff_exists.mp hstep
  exact ⟨s, s', hs, hs', (visitedLists_clean 1 _ twoClients hs).2.2.2.2 true s' hs'⟩

end VisitedListPool

end HnswRvv
