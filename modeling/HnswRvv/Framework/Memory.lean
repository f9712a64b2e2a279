import Mathlib

/-!
# Cells addressed by natural numbers

A `Memory` is a finite list of written cells; every other address reads as the default cell.
Reads and writes obey the usual two laws without a bound on the address, and two states of a
program that uses it can be compared by evaluation.
-/

namespace HnswRvv.Framework

/-- The cells from address `0` on, as far as any has been written. -/
structure Memory (α : Type) where
  cells : List α
  deriving DecidableEq, Repr

namespace Memory

variable {α : Type}

instance : Inhabited (Memory α) := ⟨⟨[]⟩⟩

def read [Inhabited α] (m : Memory α) (i : Nat) : α := m.cells.getD i default

def write [Inhabited α] (m : Memory α) (i : Nat) (a : α) : Memory α :=
  if i < m.cells.length then ⟨m.cells.set i a⟩
  else ⟨m.cells ++ List.replicate (i - m.cells.length) default ++ [a]⟩

/-- `n` cells that hold the same value. -/
def fill (n : Nat) (a : α) : Memory α := ⟨List.replicate n a⟩

theorem fill_ne_default {n : Nat} (h : n ≠ 0) (a : α) : fill n a ≠ default := by
  intro heq
  have hlength := congrArg (fun m => m.cells.length) heq
  simp only [fill, List.length_replicate] at hlength
  exact h hlength

variable [Inhabited α]

theorem read_fill (n : Nat) (a : α) (i : Nat) :
    (fill n a).read i = if i < n then a else default := by
  rw [read, fill, List.getD_eq_getElem?_getD, List.getElem?_replicate]
  split <;> rfl

@[simp] theorem read_fill_default (n i : Nat) : (fill n (default : α)).read i = default := by
  rw [read_fill]
  split <;> rfl

theorem read_write (m : Memory α) (i j : Nat) (a : α) :
    (m.write i a).read j = if j = i then a else m.read j := by
  rw [write]
  split
  · next hi =>
    simp only [read, List.getD_eq_getElem?_getD, List.getElem?_set]
    by_cases hj : j = i
    · subst hj
      simp [hi]
    · simp [hj, Ne.symm hj]
  · next hi =>
    have hpad : (m.cells ++ List.replicate (i - m.cells.length) default).length = i := by
      rw [List.length_append, List.length_replicate]
      omega
    simp only [read, List.getD_eq_getElem?_getD]
    rcases Nat.lt_trichotomy j i with hj | rfl | hj
    · -- inside the old cells, or in the padding between them and the new one
      rw [List.getElem?_append_left (by omega), if_neg hj.ne]
      rcases Nat.lt_or_ge j m.cells.length with hl | hl
      · rw [List.getElem?_append_left hl]
      · rw [List.getElem?_append_right hl, List.getElem?_replicate, if_pos (by omega),
          List.getElem?_eq_none hl]
        rfl
    · rw [List.getElem?_append_right hpad.le, hpad, Nat.sub_self, if_pos rfl]
      rfl
    · rw [List.getElem?_append_right (by omega), hpad, if_neg hj.ne',
        List.getElem?_eq_none (by simp; omega), List.getElem?_eq_none (by omega)]

@[simp] theorem read_write_self (m : Memory α) (i : Nat) (a : α) : (m.write i a).read i = a := by
  rw [read_write, if_pos rfl]

theorem read_write_of_ne (m : Memory α) {i j : Nat} (a : α) (h : j ≠ i) :
    (m.write i a).read j = m.read j := by
  rw [read_write, if_neg h]

theorem length_le_write (m : Memory α) (i : Nat) (a : α) :
    m.cells.length ≤ (m.write i a).cells.length := by
  rw [write]
  split <;> simp

theorem lt_length_write (m : Memory α) (i : Nat) (a : α) : i < (m.write i a).cells.length := by
  rw [write]
  split
  · simpa
  · simp
    omega

theorem write_ne_default (m : Memory α) (i : Nat) (a : α) : m.write i a ≠ default := by
  intro h
  have hlt := lt_length_write m i a
  rw [h] at hlt
  exact Nat.not_lt_zero i hlt

theorem read_range {n i : Nat} (f : Nat → α) (hi : i < n) :
    (⟨(List.range n).map f⟩ : Memory α).read i = f i := by
  rw [read, List.getD_eq_getElem?_getD, List.getElem?_map, List.getElem?_range hi]
  rfl

/-- The first `n` cells in order. -/
def slice (m : Memory α) (n : Nat) : List α := (List.range n).map m.read

@[simp] theorem length_slice (m : Memory α) (n : Nat) : (m.slice n).length = n := by
  simp [slice]

@[simp] theorem slice_zero (m : Memory α) : m.slice 0 = [] := rfl

theorem slice_succ (m : Memory α) (n : Nat) : m.slice (n + 1) = m.slice n ++ [m.read n] := by
  simp [slice, List.range_succ]

theorem slice_add (m : Memory α) (n k : Nat) :
    m.slice (n + k) = m.slice n ++ (List.range k).map fun j => m.read (n + j) := by
  rw [slice, List.range_add, List.map_append, List.map_map]
  rfl

theorem slice_write (m : Memory α) (n i : Nat) (a : α) :
    (m.write i a).slice n = (m.slice n).set i a := by
  apply List.ext_getElem
  · simp
  · intro j hj hj'
    rw [List.getElem_set]
    simp only [slice, List.getElem_map, List.getElem_range, read_write, eq_comm]

theorem slice_write_of_le (m : Memory α) {n i : Nat} (a : α) (h : n ≤ i) :
    (m.write i a).slice n = m.slice n := by
  rw [slice_write, List.set_eq_of_length_le (by rwa [length_slice])]

theorem slice_write_end (m : Memory α) (n : Nat) (a : α) :
    (m.write n a).slice (n + 1) = m.slice n ++ [a] := by
  rw [slice_succ, slice_write_of_le m a le_rfl, read_write_self]

end Memory

end HnswRvv.Framework
