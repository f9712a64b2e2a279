import Mathlib

/-!
# Natural numbers as binary floating-point numbers

A format has `p` significant bits. A natural number is rounded to the nearest one that the format
can hold, ties going to the even significand, and stored as the field of the biased exponent
followed by the significand without its leading bit. Reading drops the fraction.
-/

namespace HnswRvv.Framework

variable {p n m e : Nat}

/-- The exponent of the last place of `n` in a format of `p` bits. -/
def lastPlace (p n : Nat) : Nat := n.log2 + 1 - p

/-- `n` has at most `p` significant bits. -/
def HasBits (p n : Nat) : Prop := 2 ^ lastPlace p n ∣ n

instance (p n : Nat) : Decidable (HasBits p n) := inferInstanceAs (Decidable (_ ∣ _))

/-- The nearest number with at most `p` significant bits, ties to even. -/
def roundBits (p n : Nat) : Nat :=
  let ulp := 2 ^ lastPlace p n
  let q := n / ulp
  let r := n % ulp
  if 2 * r < ulp ∨ 2 * r = ulp ∧ q % 2 = 0 then q * ulp else (q + 1) * ulp

/-- The `p` leading bits of `n`. -/
def significand (p n : Nat) : Nat := n * 2 ^ (p - (n.log2 + 1)) / 2 ^ lastPlace p n

/-- The fields of a number with at most `p` significant bits. -/
def encodeNat (p bias n : Nat) : Nat :=
  if n = 0 then 0 else (n.log2 + bias) * 2 ^ (p - 1) + (significand p n - 2 ^ (p - 1))

/-- The integral part of the number in the fields `code`. A zero exponent has no leading bit. -/
def truncNat (p bias code : Nat) : Nat :=
  let exponent := code / 2 ^ (p - 1)
  let fraction := code % 2 ^ (p - 1)
  let digits := if exponent = 0 then fraction else 2 ^ (p - 1) + fraction
  let place := bias + (p - 1)
  digits * 2 ^ (max exponent 1 - place) / 2 ^ (place - max exponent 1)

theorem lt_two_pow_lastPlace (p n : Nat) : n < 2 ^ p * 2 ^ lastPlace p n := by
  rw [← pow_add]
  apply Nat.lt_log2_self.trans_le
  apply Nat.pow_le_pow_right two_pos
  rw [lastPlace]
  omega

theorem lastPlace_le (hn : n ≠ 0) (h : n < 2 ^ (p + e)) : lastPlace p n ≤ e := by
  have hlog := (Nat.log2_lt hn).mpr h
  rw [lastPlace]
  omega

theorem hasBits_mul_pow (hp : 0 < p) (hm : m ≤ 2 ^ p) (e : Nat) : HasBits p (m * 2 ^ e) := by
  rcases Nat.eq_zero_or_pos m with rfl | hpos
  · simp [HasBits]
  · rcases hm.lt_or_eq with hlt | rfl
    · have hsmall : m * 2 ^ e < 2 ^ (p + e) := by
        rw [pow_add]
        exact Nat.mul_lt_mul_of_pos_right hlt (Nat.two_pow_pos e)
      apply Dvd.dvd.mul_left
      exact Nat.pow_dvd_pow 2 (lastPlace_le (by positivity) hsmall)
    · -- the significand is a power of two, and its last place is one higher
      rw [HasBits, ← pow_add, lastPlace, Nat.log2_two_pow]
      exact Nat.pow_dvd_pow 2 (by omega)

theorem hasBits_of_le (hp : 0 < p) (hn : n ≤ 2 ^ p) : HasBits p n := by
  simpa using hasBits_mul_pow hp hn 0

theorem not_hasBits_succ (hp : 0 < p) : ¬ HasBits p (2 ^ p + 1) := by
  have hlog : (2 ^ p + 1).log2 = p := by
    rw [Nat.log2_eq_iff (Nat.succ_ne_zero _)]
    have := Nat.one_lt_two_pow hp.ne'
    rw [pow_succ]
    omega
  rw [HasBits, lastPlace, hlog, Nat.add_sub_cancel_left, pow_one, Nat.two_dvd_ne_zero]
  have heven : 2 ∣ 2 ^ p := dvd_pow_self 2 hp.ne'
  omega

theorem forall_hasBits_iff (hp : 0 < p) : (∀ l < n, HasBits p l) ↔ n ≤ 2 ^ p + 1 := by
  constructor
  · intro h
    by_contra hlt
    exact not_hasBits_succ hp (h _ (Nat.lt_of_not_le hlt))
  · intro hn l hl
    exact hasBits_of_le hp (by omega)

theorem roundBits_cases (p n : Nat) : ∃ q, roundBits p n = q * 2 ^ lastPlace p n ∧
    (q = n / 2 ^ lastPlace p n ∨ q = n / 2 ^ lastPlace p n + 1) := by
  rw [roundBits]
  split
  · exact ⟨_, rfl, .inl rfl⟩
  · exact ⟨_, rfl, .inr rfl⟩

theorem hasBits_roundBits (hp : 0 < p) (n : Nat) : HasBits p (roundBits p n) := by
  obtain ⟨q, hq, hcases⟩ := roundBits_cases p n
  have hlt : n / 2 ^ lastPlace p n < 2 ^ p :=
    Nat.div_lt_of_lt_mul (by rw [Nat.mul_comm]; exact lt_two_pow_lastPlace p n)
  rw [hq]
  exact hasBits_mul_pow hp (by omega) _

theorem roundBits_of_hasBits (h : HasBits p n) : roundBits p n = n := by
  have hr : n % 2 ^ lastPlace p n = 0 := Nat.mod_eq_zero_of_dvd h
  simp [roundBits, hr, Nat.div_mul_cancel h]

theorem roundBits_eq_self_iff (hp : 0 < p) : roundBits p n = n ↔ HasBits p n := by
  constructor
  · intro h
    rw [← h]
    exact hasBits_roundBits hp n
  · exact roundBits_of_hasBits

theorem roundBits_le (hp : 0 < p) (h : n < 2 ^ e) : roundBits p n ≤ 2 ^ e := by
  rcases Nat.eq_zero_or_pos n with rfl | hn
  · rw [roundBits_of_hasBits (hasBits_of_le hp (Nat.zero_le _))]
    exact Nat.zero_le _
  · have hplace : lastPlace p n ≤ e :=
      lastPlace_le hn.ne' (h.trans_le (Nat.pow_le_pow_right two_pos (Nat.le_add_left e p)))
    obtain ⟨c, hc⟩ := Nat.pow_dvd_pow 2 hplace
    obtain ⟨q, hq, hcases⟩ := roundBits_cases p n
    have hlt : n / 2 ^ lastPlace p n < c := Nat.div_lt_of_lt_mul (hc ▸ h)
    rw [hq, hc, Nat.mul_comm]
    exact Nat.mul_le_mul_left _ (by omega)

theorem significand_eq_of_le (h : n.log2 + 1 ≤ p) :
    significand p n = n * 2 ^ (p - (n.log2 + 1)) := by
  rw [significand, lastPlace, Nat.sub_eq_zero_of_le h, pow_zero, Nat.div_one]

theorem significand_eq_of_lt (h : p < n.log2 + 1) :
    significand p n = n / 2 ^ lastPlace p n := by
  rw [significand, Nat.sub_eq_zero_of_le h.le, pow_zero, Nat.mul_one]

theorem significand_bounds (hp : 0 < p) (hn : n ≠ 0) :
    2 ^ (p - 1) ≤ significand p n ∧ significand p n < 2 ^ p := by
  have hlow := Nat.log2_self_le hn
  have hhigh := Nat.lt_log2_self (n := n)
  rcases Nat.lt_or_ge p (n.log2 + 1) with hlt | hge
  · rw [significand_eq_of_lt hlt]
    constructor
    · rw [Nat.le_div_iff_mul_le (Nat.two_pow_pos _), ← pow_add, lastPlace,
        show p - 1 + (n.log2 + 1 - p) = n.log2 by omega]
      exact hlow
    · exact Nat.div_lt_of_lt_mul (by rw [Nat.mul_comm]; exact lt_two_pow_lastPlace p n)
  · rw [significand_eq_of_le hge]
    constructor
    · calc 2 ^ (p - 1) = 2 ^ n.log2 * 2 ^ (p - (n.log2 + 1)) := by
            rw [← pow_add]
            congr 1
            omega
        _ ≤ n * 2 ^ (p - (n.log2 + 1)) := Nat.mul_le_mul_right _ hlow
    · calc n * 2 ^ (p - (n.log2 + 1)) < 2 ^ (n.log2 + 1) * 2 ^ (p - (n.log2 + 1)) :=
            Nat.mul_lt_mul_of_pos_right hhigh (Nat.two_pow_pos _)
        _ = 2 ^ p := by
            rw [← pow_add]
            congr 1
            omega

theorem significand_scale (h : HasBits p n) :
    significand p n * 2 ^ lastPlace p n / 2 ^ (p - (n.log2 + 1)) = n := by
  rcases Nat.lt_or_ge p (n.log2 + 1) with hlt | hge
  · rw [significand_eq_of_lt hlt, Nat.div_mul_cancel h, Nat.sub_eq_zero_of_le hlt.le, pow_zero,
      Nat.div_one]
  · rw [significand_eq_of_le hge, lastPlace, Nat.sub_eq_zero_of_le hge, pow_zero, Nat.mul_one,
      Nat.mul_div_cancel _ (Nat.two_pow_pos _)]

variable {bias : Nat}

theorem encodeNat_fields (hp : 0 < p) (bias : Nat) (hn : n ≠ 0) :
    encodeNat p bias n / 2 ^ (p - 1) = n.log2 + bias ∧
      encodeNat p bias n % 2 ^ (p - 1) = significand p n - 2 ^ (p - 1) := by
  obtain ⟨hlow, hhigh⟩ := significand_bounds hp hn
  have hdouble : 2 ^ p = 2 * 2 ^ (p - 1) := by rw [← pow_succ', Nat.sub_add_cancel hp]
  have hlt : significand p n - 2 ^ (p - 1) < 2 ^ (p - 1) := by omega
  rw [encodeNat, if_neg hn, Nat.mul_comm]
  constructor
  · rw [Nat.mul_add_div (Nat.two_pow_pos _), Nat.div_eq_of_lt hlt, Nat.add_zero]
  · rw [Nat.mul_add_mod, Nat.mod_eq_of_lt hlt]

theorem truncNat_encodeNat (hp : 0 < p) (hbias : 0 < bias) (h : HasBits p n) :
    truncNat p bias (encodeNat p bias n) = n := by
  rcases eq_or_ne n 0 with rfl | hn
  · simp [truncNat, encodeNat]
  · obtain ⟨hexponent, hfraction⟩ := encodeNat_fields hp bias hn
    have hdigits : 2 ^ (p - 1) + (significand p n - 2 ^ (p - 1)) = significand p n :=
      Nat.add_sub_cancel' (significand_bounds hp hn).1
    have hplace : n.log2 + bias - (bias + (p - 1)) = lastPlace p n := by
      rw [lastPlace]
      omega
    rw [truncNat, hexponent, hfraction, if_neg (by omega), hdigits, max_eq_left (by omega), hplace,
      show bias + (p - 1) - (n.log2 + bias) = p - (n.log2 + 1) by omega]
    exact significand_scale h

end HnswRvv.Framework
