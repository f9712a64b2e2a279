import Mathlib

/-!
# The vector kernel for the squared L2 distance

`L2SqrSIMDExtRVV` strip-mines its two operands, keeps one partial sum a lane in a vector
register and reduces that register once, after the last strip. Its intrinsics carry no `_tu`
suffix: every lane at or past `vl` of a result holds whatever the hardware leaves there.
The scalar `L2Sqr` is the reference, and arithmetic is exact, over a commutative ring.
-/

namespace HnswRvv

/-- One machine: the lanes of a register at `e32m1`, and the answer of the `n`-th `vsetvl`. -/
structure VectorUnit where
  vlmax : Nat
  vsetvl : Nat → Nat → Nat
  vlmax_pos : 0 < vlmax
  vsetvl_short : ∀ n avl, avl ≤ vlmax → vsetvl n avl = avl
  vsetvl_split : ∀ n avl, vlmax < avl → avl < 2 * vlmax →
    (avl + 1) / 2 ≤ vsetvl n avl ∧ vsetvl n avl ≤ vlmax
  vsetvl_full : ∀ n avl, 2 * vlmax ≤ avl → vsetvl n avl = vlmax

namespace VectorUnit

private theorem vsetvl_le_vlmax (u : VectorUnit) (n avl : Nat) : u.vsetvl n avl ≤ u.vlmax := by
  rcases Nat.lt_or_ge u.vlmax avl with h | h
  · rcases Nat.lt_or_ge avl (2 * u.vlmax) with h2 | h2
    · exact (u.vsetvl_split n avl h h2).2
    · exact (u.vsetvl_full n avl h2).le
  · rw [u.vsetvl_short n avl h]
    exact h

private theorem vsetvl_le_avl (u : VectorUnit) (n avl : Nat) : u.vsetvl n avl ≤ avl := by
  rcases Nat.lt_or_ge u.vlmax avl with h | h
  · exact (u.vsetvl_le_vlmax n avl).trans h.le
  · exact (u.vsetvl_short n avl h).le

private theorem vsetvl_pos (u : VectorUnit) (n avl : Nat) (ha : 0 < avl) : 0 < u.vsetvl n avl := by
  rcases Nat.lt_or_ge u.vlmax avl with h | h
  · rcases Nat.lt_or_ge avl (2 * u.vlmax) with h2 | h2
    · have := (u.vsetvl_split n avl h h2).1
      omega
    · rw [u.vsetvl_full n avl h2]
      exact u.vlmax_pos
  · rw [u.vsetvl_short n avl h]
    exact ha

private theorem vsetvl_of_dvd (u : VectorUnit) (n avl : Nat) (ha : 0 < avl) (hd : u.vlmax ∣ avl) :
    u.vsetvl n avl = u.vlmax := by
  obtain ⟨k, rfl⟩ := hd
  have hv := u.vlmax_pos
  rcases Nat.lt_or_ge k 2 with h | h
  · have hk : k = 1 := by
      have : 0 < k := Nat.pos_of_mul_pos_left ha
      omega
    subst hk
    rw [Nat.mul_one, u.vsetvl_short n u.vlmax le_rfl]
  · exact u.vsetvl_full n _ (by nlinarith)

private theorem not_dvd_sub_vsetvl (u : VectorUnit) (n avl : Nat) (hd : ¬ u.vlmax ∣ avl)
    (hlt : u.vsetvl n avl < avl) : ¬ u.vlmax ∣ avl - u.vsetvl n avl := by
  have hv := u.vlmax_pos
  rcases Nat.lt_or_ge u.vlmax avl with h | h
  · rcases Nat.lt_or_ge avl (2 * u.vlmax) with h2 | h2
    · -- the two last strips: the hardware may shorten the first, so the second is shorter still
      have := (u.vsetvl_split n avl h h2).1
      exact Nat.not_dvd_of_pos_of_lt (by omega) (by omega)
    · rw [u.vsetvl_full n avl h2]
      exact fun hs => hd ((Nat.dvd_sub_iff_left h.le (dvd_refl u.vlmax)).mp hs)
  · rw [u.vsetvl_short n avl h] at hlt
    omega

end VectorUnit

/-- The intrinsic calls of the kernel that produce a register. -/
inductive RvvSite where
  | splat | load1 | load2 | sub | mul | add | seed | reduce
  deriving DecidableEq, Repr

section Kernel

variable {R : Type} [CommRing R]

/-- Lanes that a call leaves to the hardware: the call, the strip it runs in, the lane. -/
abbrev TailLanes (R : Type) := RvvSite → Nat → Nat → R

/-- A tail-agnostic result: lane `j` is computed below `vl` and taken from `tail` elsewhere. -/
def agnosticResult (vl : Nat) (tail : Nat → R) (lanes : Nat → R) : Nat → R :=
  fun j => if j < vl then lanes j else tail j

def vle32 (p : Nat → R) (vl : Nat) (tail : Nat → R) : Nat → R := agnosticResult vl tail p

def vfsubVV (x y : Nat → R) (vl : Nat) (tail : Nat → R) : Nat → R :=
  agnosticResult vl tail fun j => x j - y j

def vfmulVV (x y : Nat → R) (vl : Nat) (tail : Nat → R) : Nat → R :=
  agnosticResult vl tail fun j => x j * y j

def vfaddVV (x y : Nat → R) (vl : Nat) (tail : Nat → R) : Nat → R :=
  agnosticResult vl tail fun j => x j + y j

def vfmvVF (c : R) (vl : Nat) (tail : Nat → R) : Nat → R := agnosticResult vl tail fun _ => c

/-- Writes lane `0` only, when `vl` is not zero. -/
def vfmvSF (c : R) (vl : Nat) (tail : Nat → R) : Nat → R :=
  agnosticResult (min vl 1) tail fun _ => c

/-- Lane `0` receives lane `0` of `seed` plus the lanes of `x` below `vl`. -/
def vfredusum (x seed : Nat → R) (vl : Nat) (tail : Nat → R) : Nat → R :=
  agnosticResult (min vl 1) tail fun _ => seed 0 + ∑ j ∈ Finset.range vl, x j

def vfmvFS (x : Nat → R) : R := x 0

/-- The loop body: the accumulator after the strip of `vl` coordinates that starts at `i`. -/
def rvvStrip (tail : TailLanes R) (a b : Nat → R) (n i vl : Nat) (vecSumAcc : Nat → R) : Nat → R :=
  let v1 := vle32 (fun j => a (i + j)) vl (tail .load1 n)
  let v2 := vle32 (fun j => b (i + j)) vl (tail .load2 n)
  let diff := vfsubVV v1 v2 vl (tail .sub n)
  let sqr := vfmulVV diff diff vl (tail .mul n)
  vfaddVV vecSumAcc sqr vl (tail .add n)

/-- The strip loop of `L2SqrSIMDExtRVV`; `n` counts the strips and `i` is the loop counter. -/
def rvvStrips (u : VectorUnit) (tail : TailLanes R) (a b : Nat → R) (dim : Nat)
    (n i : Nat) (vecSumAcc : Nat → R) : Nat → R :=
  if i < dim then
    let vl := u.vsetvl n (dim - i)
    rvvStrips u tail a b dim (n + 1) (i + vl) (rvvStrip tail a b n i vl vecSumAcc)
  else vecSumAcc
termination_by dim - i
decreasing_by
  have := u.vsetvl_pos n (dim - i) (by omega)
  omega

/-- `L2SqrSIMDExtRVV`: the final reduction runs over all `max_vl` lanes. -/
def L2SqrSIMDExtRVV (u : VectorUnit) (tail : TailLanes R) (a b : Nat → R) (dim : Nat) : R :=
  let maxVl := u.vlmax
  let vecSumAcc := rvvStrips u tail a b dim 0 0 (vfmvVF 0 maxVl (tail .splat 0))
  let scalarSumVec := vfmvSF 0 maxVl (tail .seed 0)
  vfmvFS (vfredusum vecSumAcc scalarSumVec maxVl (tail .reduce 0))

def L2Sqr (a b : Nat → R) (qty : Nat) : R :=
  (List.range qty).foldl (fun res i => let t := a i - b i; res + t * t) 0

theorem L2Sqr_eq_sum (a b : Nat → R) (qty : Nat) :
    L2Sqr a b qty = ∑ i ∈ Finset.range qty, (a i - b i) * (a i - b i) := by
  induction qty with
  | zero => rfl
  | succ n ih =>
    rw [L2Sqr, List.range_succ, List.foldl_append, Finset.sum_range_succ, ← ih]
    rfl

private theorem L2SqrSIMDExtRVV_eq_sum (u : VectorUnit) (tail : TailLanes R) (a b : Nat → R) (dim : Nat) :
    L2SqrSIMDExtRVV u tail a b dim = ∑ j ∈ Finset.range u.vlmax,
      rvvStrips u tail a b dim 0 0 (vfmvVF 0 u.vlmax (tail .splat 0)) j := by
  have h1 : min u.vlmax 1 = 1 := Nat.min_eq_right u.vlmax_pos
  simp only [L2SqrSIMDExtRVV, vfmvFS, vfredusum, vfmvSF, agnosticResult, h1, Nat.zero_lt_one,
    if_true, zero_add]

private theorem rvvStrips_of_lt (u : VectorUnit) (tail : TailLanes R) (a b : Nat → R) {dim i : Nat}
    (n : Nat) (acc : Nat → R) (h : i < dim) :
    rvvStrips u tail a b dim n i acc = rvvStrips u tail a b dim (n + 1)
      (i + u.vsetvl n (dim - i)) (rvvStrip tail a b n i (u.vsetvl n (dim - i)) acc) := by
  rw [rvvStrips, if_pos h]

private theorem rvvStrips_of_ge (u : VectorUnit) (tail : TailLanes R) (a b : Nat → R) {dim i : Nat}
    (n : Nat) (acc : Nat → R) (h : dim ≤ i) : rvvStrips u tail a b dim n i acc = acc := by
  rw [rvvStrips, if_neg h.not_gt]

private theorem rvvStrip_of_lt (tail : TailLanes R) (a b acc : Nat → R) {n i vl j : Nat} (hj : j < vl) :
    rvvStrip tail a b n i vl acc j = acc j + (a (i + j) - b (i + j)) * (a (i + j) - b (i + j)) := by
  simp only [rvvStrip, vfaddVV, vfmulVV, vfsubVV, vle32, agnosticResult, hj, if_true]

private theorem rvvStrip_of_ge (tail : TailLanes R) (a b acc : Nat → R) {n i vl j : Nat} (hj : vl ≤ j) :
    rvvStrip tail a b n i vl acc j = tail .add n j := by
  simp only [rvvStrip, vfaddVV, agnosticResult, hj.not_gt, if_false]

/-- With full strips only, the lanes together gain exactly the coordinates from `i` on. -/
theorem rvvStrips_sum_of_dvd (u : VectorUnit) (tail : TailLanes R) (a b : Nat → R) (dim : Nat)
    (n i : Nat) (acc : Nat → R) (hi : i ≤ dim) (hd : u.vlmax ∣ dim - i) :
    ∑ j ∈ Finset.range u.vlmax, rvvStrips u tail a b dim n i acc j =
      ∑ j ∈ Finset.range u.vlmax, acc j +
        ∑ t ∈ Finset.range (dim - i), (a (i + t) - b (i + t)) * (a (i + t) - b (i + t)) := by
  induction n, i, acc using rvvStrips.induct u tail a b dim with
  | case1 n i acc hlt vl ih =>
    have hvl : vl = u.vlmax := u.vsetvl_of_dvd n (dim - i) (by omega) hd
    have hle : u.vlmax ≤ dim - i := Nat.le_of_dvd (by omega) hd
    have hrest : u.vlmax ∣ dim - (i + vl) := by
      rw [hvl, show dim - (i + u.vlmax) = dim - i - u.vlmax by omega]
      exact Nat.dvd_sub hd (dvd_refl _)
    have hstep : ∑ j ∈ Finset.range u.vlmax, rvvStrip tail a b n i vl acc j =
        ∑ j ∈ Finset.range u.vlmax, acc j +
          ∑ j ∈ Finset.range u.vlmax, (a (i + j) - b (i + j)) * (a (i + j) - b (i + j)) := by
      rw [← Finset.sum_add_distrib]
      apply Finset.sum_congr rfl
      intro j hj
      exact rvvStrip_of_lt tail a b acc (by rw [hvl]; exact Finset.mem_range.mp hj)
    rw [rvvStrips_of_lt u tail a b n acc hlt]
    refine (ih (by omega) hrest).trans ?_
    rw [hstep, hvl, show dim - i = u.vlmax + (dim - (i + u.vlmax)) by omega,
      Finset.sum_range_add, add_assoc]
    simp only [Nat.add_assoc]
  | case2 n i acc hlt =>
    have hz : dim - i = 0 := by omega
    rw [rvvStrips_of_ge u tail a b n acc (by omega), hz, Finset.sum_range_zero, add_zero]

/-- Hardware that leaves `c` in the last lane of the sum of strip `m`, and zeros elsewhere. -/
def spikeTail (u : VectorUnit) (m : Nat) (c : R) : TailLanes R := fun site n j =>
  if site = .add ∧ n = m ∧ j + 1 = u.vlmax then c else 0

private theorem rvvStrips_spike (u : VectorUnit) (a b : Nat → R) (dim n i : Nat) (acc : Nat → R)
    (hi : i < dim) (hd : ¬ u.vlmax ∣ dim - i) :
    ∃ m, n ≤ m ∧ ∀ c j, rvvStrips u (spikeTail u m c) a b dim n i acc j =
      if j + 1 = u.vlmax then c else rvvStrips u (spikeTail u m 0) a b dim n i acc j := by
  induction n, i, acc using rvvStrips.induct u (fun _ _ _ => 0) a b dim with
  | case1 n i acc hlt vl ih =>
    have hvl : vl = u.vsetvl n (dim - i) := rfl
    have hvdim := u.vsetvl_le_avl n (dim - i)
    rcases Nat.lt_or_ge (i + vl) dim with hmore | hlast
    · have hd' : ¬ u.vlmax ∣ dim - (i + vl) := by
        rw [show dim - (i + vl) = dim - i - u.vsetvl n (dim - i) by omega]
        exact u.not_dvd_sub_vsetvl n (dim - i) hd (by omega)
      obtain ⟨m, hm, hrun⟩ := ih hmore hd'
      refine ⟨m, by omega, fun c j => ?_⟩
      -- strip `n` comes before strip `m`, so it sees zeros in its tail whatever `c` is
      have hz : ∀ x : R, rvvStrip (spikeTail u m x) a b n i vl acc =
          rvvStrip (fun _ _ _ => 0) a b n i vl acc := by
        intro x
        have hs : ∀ site, spikeTail u m x site n = fun _ => 0 := by
          intro site
          funext k
          simp only [spikeTail, show n ≠ m by omega, false_and, and_false, if_false]
        simp only [rvvStrip, hs]
      rw [rvvStrips_of_lt u _ a b n acc hlt, rvvStrips_of_lt u _ a b n acc hlt, ← hvl, hz, hz]
      exact hrun c j
    · have hshort : vl < u.vlmax := by
        have hle := u.vsetvl_le_vlmax n (dim - i)
        have hne : vl ≠ u.vlmax := by
          intro he
          apply hd
          rw [show dim - i = u.vlmax by omega]
        omega
      refine ⟨n, le_rfl, fun c j => ?_⟩
      rw [rvvStrips_of_lt u _ a b n acc hlt, rvvStrips_of_lt u _ a b n acc hlt, ← hvl,
        rvvStrips_of_ge u _ a b _ _ hlast, rvvStrips_of_ge u _ a b _ _ hlast]
      rcases Nat.lt_or_ge j vl with hj | hj
      · rw [if_neg (by omega), rvvStrip_of_lt _ _ _ _ hj, rvvStrip_of_lt _ _ _ _ hj]
      · rw [rvvStrip_of_ge _ _ _ _ hj, rvvStrip_of_ge _ _ _ _ hj]
        simp only [spikeTail, true_and]
        split <;> rfl
  | case2 n i acc hlt => exact absurd hi hlt

theorem L2SqrSIMDExtRVV_of_dvd (u : VectorUnit) (tail : TailLanes R) (a b : Nat → R) {dim : Nat}
    (hd : u.vlmax ∣ dim) : L2SqrSIMDExtRVV u tail a b dim = L2Sqr a b dim := by
  rw [L2SqrSIMDExtRVV_eq_sum, rvvStrips_sum_of_dvd u tail a b dim 0 0 _ (Nat.zero_le _) hd,
    L2Sqr_eq_sum]
  have hz : ∑ j ∈ Finset.range u.vlmax, vfmvVF (0 : R) u.vlmax (tail .splat 0) j = 0 := by
    apply Finset.sum_eq_zero
    intro j hj
    simp only [vfmvVF, agnosticResult, Finset.mem_range.mp hj, if_true]
  rw [hz, zero_add]
  simp only [Nat.zero_add, Nat.sub_zero]

private theorem L2SqrSIMDExtRVV_of_not_dvd (u : VectorUnit) (a b : Nat → R) {dim : Nat}
    (hd : ¬ u.vlmax ∣ dim) :
    ∃ (m : Nat) (x : R), ∀ c, L2SqrSIMDExtRVV u (spikeTail u m c) a b dim = x + c := by
  have hpos : 0 < dim := Nat.pos_of_ne_zero (by rintro rfl; exact hd (dvd_zero _))
  have hsplat : ∀ (m : Nat) (c : R), spikeTail u m c .splat 0 = fun _ => 0 := by
    intro m c
    funext k
    simp [spikeTail]
  obtain ⟨m, -, hm⟩ := rvvStrips_spike u a b dim 0 0 (vfmvVF 0 u.vlmax fun _ => 0) hpos hd
  refine ⟨m, ∑ j ∈ Finset.range (u.vlmax - 1),
    rvvStrips u (spikeTail u m 0) a b dim 0 0 (vfmvVF 0 u.vlmax fun _ => 0) j, fun c => ?_⟩
  have hv := u.vlmax_pos
  rw [L2SqrSIMDExtRVV_eq_sum, hsplat, show u.vlmax = u.vlmax - 1 + 1 by omega,
    Finset.sum_range_succ]
  simp only [show u.vlmax - 1 + 1 = u.vlmax by omega]
  congr 1
  · apply Finset.sum_congr rfl
    intro j hj
    have := Finset.mem_range.mp hj
    rw [hm c j, if_neg (by omega)]
  · rw [hm c, if_pos (by omega)]

theorem L2SqrSIMDExtRVV_ne_of_not_dvd [Nontrivial R] (u : VectorUnit) (a b : Nat → R) {dim : Nat}
    (hd : ¬ u.vlmax ∣ dim) (x : R) : ∃ tail, L2SqrSIMDExtRVV u tail a b dim ≠ x := by
  obtain ⟨m, y, hm⟩ := L2SqrSIMDExtRVV_of_not_dvd u a b hd
  by_contra hall
  push Not at hall
  have h01 := (hall (spikeTail u m 0)).trans (hall (spikeTail u m 1)).symm
  rw [hm, hm] at h01
  exact zero_ne_one (add_left_cancel h01)

/-- The vector kernel agrees with the scalar one under every tail-agnostic behaviour exactly
when the dimension is a whole number of registers. -/
theorem L2SqrSIMDExtRVV_eq_L2Sqr_iff [Nontrivial R] (u : VectorUnit) (a b : Nat → R) (dim : Nat) :
    (∀ tail : TailLanes R, L2SqrSIMDExtRVV u tail a b dim = L2Sqr a b dim) ↔ u.vlmax ∣ dim := by
  constructor
  · intro hall
    by_contra hd
    obtain ⟨tail, hne⟩ := L2SqrSIMDExtRVV_ne_of_not_dvd u a b hd (L2Sqr a b dim)
    exact hne (hall tail)
  · intro hd tail
    exact L2SqrSIMDExtRVV_of_dvd u tail a b hd

end Kernel

/-- A register of four 32-bit lanes whose `vsetvl` always takes as much as fits. -/
def fourLanes : VectorUnit where
  vlmax := 4
  vsetvl _ avl := min avl 4
  vlmax_pos := by decide
  vsetvl_short _ avl h := Nat.min_eq_left h
  vsetvl_split _ avl h1 h2 := ⟨by omega, by omega⟩
  vsetvl_full _ avl h := Nat.min_eq_right (by omega)

/-- Eight coordinates fill two registers of four lanes, five do not. -/
theorem L2SqrSIMDExtRVV_fourLanes :
    (∀ tail : TailLanes ℤ, L2SqrSIMDExtRVV fourLanes tail (fun i => i) (fun _ => 0) 8 =
        L2Sqr (fun i => (i : ℤ)) (fun _ => 0) 8) ∧
      ¬ ∀ tail : TailLanes ℤ, L2SqrSIMDExtRVV fourLanes tail (fun i => i) (fun _ => 0) 5 =
        L2Sqr (fun i => (i : ℤ)) (fun _ => 0) 5 :=
  ⟨(L2SqrSIMDExtRVV_eq_L2Sqr_iff fourLanes _ _ 8).mpr (by decide),
    fun h => absurd ((L2SqrSIMDExtRVV_eq_L2Sqr_iff fourLanes _ _ 5).mp h) (by decide)⟩

/-- Five ones against zeros on four lanes whose tails are filled with zeros: the second strip
drops lanes 1 to 3 of the first, and the kernel answers 2 instead of 5. -/
theorem L2SqrSIMDExtRVV_short_strip :
    L2SqrSIMDExtRVV fourLanes (fun _ _ _ => (0 : ℤ)) (fun _ => 1) (fun _ => 0) 5 = 2 ∧
      L2Sqr (fun _ => (1 : ℤ)) (fun _ => 0) 5 = 5 := by
  refine ⟨?_, by decide⟩
  rw [L2SqrSIMDExtRVV_eq_sum, rvvStrips_of_lt _ _ _ _ _ _ (by decide),
    rvvStrips_of_lt _ _ _ _ _ _ (by decide), rvvStrips_of_ge _ _ _ _ _ _ (by decide)]
  decide

end HnswRvv
