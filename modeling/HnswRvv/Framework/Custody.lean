import Mathlib.Data.List.Nodup
import Mathlib.Data.List.Range
import Mathlib.Logic.Function.Basic

/-!
# Handles in a pool

Handles are numbers. A client takes one from the pool, or a new one if the pool is empty, and gives
it back later. As long as clients give back only what they hold, every handle is in one place.
-/

namespace HnswRvv.Framework

/-- Where the handles below `next` are. -/
structure Custody (Client : Type) where
  free : List Nat
  held : Client → List Nat
  next : Nat

namespace Custody

variable {Client : Type}

/-- A pool of `n` handles that nobody has taken yet, the last one made first. -/
def full (n : Nat) : Custody Client := ⟨(List.range n).reverse, fun _ => [], n⟩

structure Exclusive (s : Custody Client) : Prop where
  free_nodup : s.free.Nodup
  held_nodup : ∀ c, (s.held c).Nodup
  one_holder : ∀ {c c' p}, p ∈ s.held c → p ∈ s.held c' → c = c'
  held_not_free : ∀ {c p}, p ∈ s.held c → p ∉ s.free
  free_lt : ∀ {p}, p ∈ s.free → p < s.next
  held_lt : ∀ {c p}, p ∈ s.held c → p < s.next

theorem exclusive_full (n : Nat) : (full n : Custody Client).Exclusive where
  free_nodup := List.nodup_reverse.mpr List.nodup_range
  held_nodup _ := List.nodup_nil
  one_holder h := absurd h List.not_mem_nil
  held_not_free h := absurd h List.not_mem_nil
  free_lt h := List.mem_range.mp (List.mem_reverse.mp h)
  held_lt h := absurd h List.not_mem_nil

variable [DecidableEq Client]

/-- Take the first free handle, or a new one. -/
def acquire (s : Custody Client) (c : Client) : Nat × Custody Client :=
  match s.free with
  | p :: rest => (p, { s with free := rest, held := Function.update s.held c (p :: s.held c) })
  | [] => (s.next, { s with
      next := s.next + 1, held := Function.update s.held c (s.next :: s.held c) })

def release (s : Custody Client) (c : Client) (p : Nat) : Custody Client :=
  { s with free := p :: s.free, held := Function.update s.held c ((s.held c).erase p) }

variable {s : Custody Client} {c : Client} {p : Nat}

theorem mem_held_update {d : Client} {l : List Nat} {q : Nat} :
    q ∈ Function.update s.held c l d ↔ if d = c then q ∈ l else q ∈ s.held d := by
  by_cases hd : d = c
  · subst hd
    simp
  · simp [hd]

theorem Exclusive.hold (h : s.Exclusive) {t : Custody Client} (hfree : t.free.Sublist s.free)
    (hheld : t.held = Function.update s.held c (p :: s.held c)) (hnext : s.next ≤ t.next)
    (hlt : p < t.next) (hunheld : ∀ d, p ∉ s.held d) (hgone : p ∉ t.free) : t.Exclusive := by
  have hmem : ∀ {d q}, q ∈ t.held d ↔ q ∈ s.held d ∨ d = c ∧ q = p := by
    intro d q
    rw [hheld, mem_held_update]
    by_cases hd : d = c
    · subst hd
      simp [or_comm]
    · simp [hd]
  constructor
  · exact h.free_nodup.sublist hfree
  · intro d
    rw [hheld]
    by_cases hd : d = c
    · subst hd
      simp [hunheld, h.held_nodup]
    · simp [hd, h.held_nodup]
  · intro d d' q hq hq'
    rcases hmem.mp hq with hq | ⟨rfl, rfl⟩
    · rcases hmem.mp hq' with hq' | ⟨rfl, rfl⟩
      · exact h.one_holder hq hq'
      · exact absurd hq (hunheld d)
    · rcases hmem.mp hq' with hq' | ⟨rfl, -⟩
      · exact absurd hq' (hunheld d')
      · rfl
  · intro d q hq
    rcases hmem.mp hq with hq | ⟨-, rfl⟩
    · exact fun hf => h.held_not_free hq (hfree.subset hf)
    · exact hgone
  · intro q hq
    exact (h.free_lt (hfree.subset hq)).trans_le hnext
  · intro d q hq
    rcases hmem.mp hq with hq | ⟨-, rfl⟩
    · exact (h.held_lt hq).trans_le hnext
    · exact hlt

theorem Exclusive.acquire (h : s.Exclusive) (c : Client) : (s.acquire c).2.Exclusive := by
  unfold Custody.acquire
  cases hfree : s.free with
  | nil =>
    exact h.hold (List.nil_sublist _) rfl (Nat.le_succ _) (Nat.lt_succ_self _)
      (fun d hd => lt_irrefl _ (h.held_lt hd)) List.not_mem_nil
  | cons p rest =>
    have hp : p ∈ s.free := by rw [hfree]; exact List.mem_cons_self
    have hnodup := h.free_nodup
    rw [hfree, List.nodup_cons] at hnodup
    refine h.hold ?_ rfl le_rfl (h.free_lt hp) (fun d hd => ?_) hnodup.1
    · rw [hfree]
      exact List.sublist_cons_self p rest
    · exact h.held_not_free hd hp

theorem mem_held_acquire (s : Custody Client) (c : Client) :
    (s.acquire c).1 ∈ (s.acquire c).2.held c := by
  unfold Custody.acquire
  split <;> simp

theorem mem_held_acquire_of_mem {d : Client} {q : Nat} (h : q ∈ s.held d) :
    q ∈ (s.acquire c).2.held d := by
  unfold Custody.acquire
  split <;> rw [mem_held_update] <;> split
  · next hd => exact List.mem_cons_of_mem _ (hd ▸ h)
  · exact h
  · next hd => exact List.mem_cons_of_mem _ (hd ▸ h)
  · exact h

theorem Exclusive.release (h : s.Exclusive) (hp : p ∈ s.held c) : (s.release c p).Exclusive := by
  have hmem : ∀ {d q}, q ∈ (s.release c p).held d ↔ q ∈ s.held d ∧ q ≠ p := by
    intro d q
    rw [Custody.release, mem_held_update]
    split
    · next hd =>
      subst hd
      rw [(h.held_nodup d).mem_erase_iff, and_comm]
    · next hd =>
      refine ⟨fun hq => ⟨hq, ?_⟩, And.left⟩
      rintro rfl
      exact hd (h.one_holder hq hp)
  constructor
  · exact List.nodup_cons.mpr ⟨h.held_not_free hp, h.free_nodup⟩
  · intro d
    rw [Custody.release]
    by_cases hd : d = c
    · subst hd
      simpa using (h.held_nodup d).erase p
    · simpa [hd] using h.held_nodup d
  · intro d d' q hq hq'
    exact h.one_holder (hmem.mp hq).1 (hmem.mp hq').1
  · intro d q hq hf
    rcases List.mem_cons.mp hf with rfl | hf
    · exact (hmem.mp hq).2 rfl
    · exact h.held_not_free (hmem.mp hq).1 hf
  · intro q hq
    rcases List.mem_cons.mp hq with rfl | hq
    · exact h.held_lt hp
    · exact h.free_lt hq
  · intro d q hq
    exact h.held_lt (hmem.mp hq).1

theorem mem_held_release_of_ne {d : Client} {q : Nat} (h : q ∈ s.held d) (hne : q ≠ p) :
    q ∈ (s.release c p).held d := by
  rw [Custody.release, mem_held_update]
  split
  · next hd => exact (List.mem_erase_of_ne hne).mpr (hd ▸ h)
  · exact h

end Custody

end HnswRvv.Framework
