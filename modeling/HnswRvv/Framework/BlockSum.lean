import Mathlib

/-!
# Sums taken block by block

A loop reads an array of `n` cells in blocks of `w` and adds the terms of each block to an
accumulator. A read outside the array fails. What matters of the accumulator is its total: a
register of several lanes has the sum of its lanes for one.
-/

namespace HnswRvv.Framework

variable {S R : Type}

/-- `count` rounds of a body that moves its pointer by `w`. -/
def repeatBlocks (w : Nat) (body : Nat → S → Option S) : (count : Nat) → Nat → S → Option S
  | 0, _, s => some s
  | count + 1, p, s => (body p s).bind (repeatBlocks w body count (p + w))

theorem repeatBlocks_add (w : Nat) (body : Nat → S → Option S) (m n p : Nat) (s : S) :
    repeatBlocks w body (m + n) p s =
      (repeatBlocks w body m p s).bind (repeatBlocks w body n (p + m * w)) := by
  induction m generalizing p s with
  | zero => simp [repeatBlocks]
  | succ m ih =>
    rw [Nat.add_right_comm, repeatBlocks, repeatBlocks, Option.bind_assoc]
    congr 1
    funext s'
    rw [ih, Nat.succ_mul, Nat.add_assoc, Nat.add_comm w]

theorem repeatBlocks_unroll (w : Nat) (body : Nat → S → Option S) (unroll count p : Nat) (s : S) :
    repeatBlocks (unroll * w) (repeatBlocks w body unroll) count p s =
      repeatBlocks w body (count * unroll) p s := by
  induction count generalizing p s with
  | zero => simp [repeatBlocks]
  | succ count ih =>
    rw [Nat.succ_mul, Nat.add_comm (count * unroll), repeatBlocks_add w body, repeatBlocks]
    congr 1
    funext s'
    exact ih _ _

/-- `while (p < pEnd)` with a body that moves `p` by `w`; the fuel is spent when `p` has passed
`pEnd`. -/
def whileBelowFuel (pEnd w : Nat) (body : Nat → S → Option S) : Nat → Nat → S → Option S
  | 0, p, s => if p < pEnd then none else some s
  | fuel + 1, p, s =>
    if p < pEnd then (body p s).bind (whileBelowFuel pEnd w body fuel (p + w)) else some s

def whileBelow (pEnd w : Nat) (body : Nat → S → Option S) (p : Nat) (s : S) : Option S :=
  whileBelowFuel pEnd w body (pEnd - p) p s

theorem whileBelowFuel_eq {w : Nat} (hw : 0 < w) (body : Nat → S → Option S) (count fuel p : Nat)
    (s : S) (hfuel : count ≤ fuel) :
    whileBelowFuel (p + count * w) w body fuel p s = repeatBlocks w body count p s := by
  induction count generalizing fuel p s with
  | zero => cases fuel <;> simp [whileBelowFuel, repeatBlocks]
  | succ count ih =>
    obtain ⟨fuel, rfl⟩ : ∃ f, fuel = f + 1 := ⟨fuel - 1, by omega⟩
    have hlt : p < p + (count + 1) * w := by
      have : 0 < (count + 1) * w := Nat.mul_pos (Nat.succ_pos _) hw
      omega
    rw [whileBelowFuel, if_pos hlt, repeatBlocks]
    congr 1
    funext s'
    rw [show p + (count + 1) * w = p + w + count * w by ring]
    exact ih fuel (p + w) s' (by omega)

theorem whileBelow_eq {w : Nat} (hw : 0 < w) (body : Nat → S → Option S) (count p : Nat) (s : S) :
    whileBelow (p + count * w) w body p s = repeatBlocks w body count p s := by
  apply whileBelowFuel_eq hw
  rw [Nat.add_sub_cancel_left]
  exact Nat.le_mul_of_pos_right count hw

variable [AddCommMonoid R]

/-- The terms of `w` cells from `p` on. -/
def blockSum (t : Nat → R) (p w : Nat) : R := ∑ j ∈ Finset.range w, t (p + j)

@[simp] theorem blockSum_zero (t : Nat → R) (p : Nat) : blockSum t p 0 = 0 := by simp [blockSum]

theorem blockSum_add (t : Nat → R) (p w w' : Nat) :
    blockSum t p (w + w') = blockSum t p w + blockSum t (p + w) w' := by
  rw [blockSum, Finset.sum_range_add, blockSum, blockSum]
  simp only [Nat.add_assoc]

theorem blockSum_succ (t : Nat → R) (p n : Nat) :
    blockSum t p (n + 1) = t p + blockSum t (p + 1) n := by
  rw [Nat.add_comm, blockSum_add]
  simp [blockSum]

/-- `r` is `x` plus the terms of the `w` cells from `p` on, or a failure if these are not all among
the first `n`. -/
structure SumsFrom (n : Nat) (t : Nat → R) (total : S → R) (p w : Nat) (x : R) (r : Option S) :
    Prop where
  inside : p + w ≤ n → ∃ s, r = some s ∧ total s = x + blockSum t p w
  outside : p ≤ n → n < p + w → r = none

variable {n w w' p : Nat} {t : Nat → R} {total : S → R} {x : R} {r : Option S}

theorem SumsFrom.bind {S' : Type} {total' : S' → R} {f : S → Option S'}
    (h : SumsFrom n t total p w x r)
    (hf : ∀ s, SumsFrom n t total' (p + w) w' (total s) (f s)) :
    SumsFrom n t total' p (w + w') x (r.bind f) where
  inside hle := by
    obtain ⟨s, rfl, hs⟩ := h.inside (by omega)
    obtain ⟨s', hs', htotal⟩ := (hf s).inside (by omega)
    refine ⟨s', hs', ?_⟩
    rw [htotal, hs, blockSum_add, add_assoc]
  outside hp hlt := by
    rcases Nat.lt_or_ge n (p + w) with hout | hin
    · rw [h.outside hp hout]
      rfl
    · obtain ⟨s, rfl, -⟩ := h.inside hin
      exact (hf s).outside hin (by omega)

theorem SumsFrom.finish (h : SumsFrom n t total p w x r) :
    SumsFrom n t id p w x (r.bind fun s => some (total s)) where
  inside hle := by
    obtain ⟨s, rfl, hs⟩ := h.inside hle
    exact ⟨total s, rfl, hs⟩
  outside hp hlt := by rw [h.outside hp hlt]; rfl

theorem SumsFrom.addTo {r : Option R} (h : SumsFrom n t id p w 0 r) (y : R) :
    SumsFrom n t id p w y (r.bind fun z => some (y + z)) where
  inside hle := by
    obtain ⟨z, rfl, hz⟩ := h.inside hle
    refine ⟨y + z, rfl, ?_⟩
    rw [id, show z = _ from hz, zero_add]
  outside hp hlt := by rw [h.outside hp hlt]; rfl

theorem SumsFrom.eq_sum {r : Option R} (h : SumsFrom n t id 0 w 0 r) (hw : w ≤ n) :
    r = some (∑ i ∈ Finset.range w, t i) := by
  obtain ⟨z, rfl, hz⟩ := h.inside (by omega)
  simpa [blockSum] using hz

theorem sumsFrom_repeatBlocks {body : Nat → S → Option S}
    (h : ∀ p s, SumsFrom n t total p w (total s) (body p s)) (count p : Nat) (s : S) :
    SumsFrom n t total p (count * w) (total s) (repeatBlocks w body count p s) := by
  induction count generalizing p s with
  | zero =>
    constructor
    · intro _
      exact ⟨s, rfl, by simp⟩
    · intro hp hlt
      omega
  | succ count ih =>
    rw [Nat.succ_mul, Nat.add_comm, repeatBlocks]
    exact (h p s).bind fun s' => ih (p + w) s'

theorem sumsFrom_whileBelow {body : Nat → S → Option S} (hw : 0 < w)
    (h : ∀ p s, SumsFrom n t total p w (total s) (body p s)) {pEnd count : Nat}
    (hend : pEnd = p + count * w) (s : S) :
    SumsFrom n t total p (count * w) (total s) (whileBelow pEnd w body p s) := by
  rw [hend, whileBelow_eq hw]
  exact sumsFrom_repeatBlocks h count p s

end HnswRvv.Framework
