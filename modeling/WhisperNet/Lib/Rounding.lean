import Mathlib.Algebra.Order.Field.Power
import Mathlib.Algebra.Order.Floor.Defs
import Mathlib.Data.Rat.Floor
import Mathlib.Tactic.Linarith
import Mathlib.Tactic.Positivity

/-!
# Rounding to a Float

The floats of 64 bits, as rational numbers. The result of an operation on floats is
the exact one rounded to the nearest float, and of two that are equally near the one
with an even last digit.

A float has 53 binary digits, and the last of them counts no less than two to the
minus 1074. What rounds to two to the 1024 or beyond is an infinity, which that power
stands for.

## Main definitions

* `roundHalfEven`: The nearest integer.
* `binade`: The exponent of the leading binary digit of a number.
* `quantum`: What the last digit of a float near a number counts.
* `nearest`: The nearest number with as many digits.
* `double`: The nearest float.

## Theorems

* `roundHalfEven_mono`, `roundHalfEven_error`: Rounding to an integer.
* `double_mono`: Rounding keeps the order.
* `double_error`: How far it moves a number.
-/

namespace WhisperNet

/-! ## Integers -/

/-- Rounding to an integer, ties to the even one. -/
def roundHalfEven (q : ℚ) : Int :=
  if q - ⌊q⌋ < 1 / 2 then ⌊q⌋
  else if 1 / 2 < q - ⌊q⌋ then ⌊q⌋ + 1
  else if ⌊q⌋ % 2 = 0 then ⌊q⌋ else ⌊q⌋ + 1

theorem floor_le_roundHalfEven (q : ℚ) : ⌊q⌋ ≤ roundHalfEven q := by
  unfold roundHalfEven
  split_ifs
  · exact le_rfl
  · exact (Int.lt_succ _).le
  · exact le_rfl
  · exact (Int.lt_succ _).le

theorem roundHalfEven_le_floor (q : ℚ) : roundHalfEven q ≤ ⌊q⌋ + 1 := by
  unfold roundHalfEven
  split_ifs
  · exact (Int.lt_succ _).le
  · exact le_rfl
  · exact (Int.lt_succ _).le
  · exact le_rfl

theorem roundHalfEven_mono {p q : ℚ} (h : p ≤ q) : roundHalfEven p ≤ roundHalfEven q := by
  rcases (Int.floor_mono h).lt_or_eq with hlt | heq
  · exact (roundHalfEven_le_floor p).trans
      ((Int.add_one_le_iff.mpr hlt).trans (floor_le_roundHalfEven q))
  · -- Between the same integers the fractions decide.
    unfold roundHalfEven
    rw [heq]
    split_ifs <;> first | omega | linarith

theorem roundHalfEven_intCast (n : ℤ) : roundHalfEven n = n := by
  unfold roundHalfEven
  rw [Int.floor_intCast, sub_self, if_pos (by norm_num)]

theorem roundHalfEven_error (q : ℚ) : |(roundHalfEven q : ℚ) - q| ≤ 1 / 2 := by
  have hle := Int.floor_le q
  unfold roundHalfEven
  rw [abs_le]
  split_ifs with hlow hhigh heven
  · exact ⟨by linarith, by linarith⟩
  · have hlt := Int.lt_floor_add_one q
    push_cast
    exact ⟨by linarith, by linarith⟩
  · exact ⟨by linarith, by linarith⟩
  · push_cast
    exact ⟨by linarith, by linarith⟩

/-! ## Digits -/

/-- The greatest exponent of two that is no greater than the absolute value. -/
def binade (q : ℚ) : ℤ :=
  let k := (Nat.log2 q.num.natAbs : ℤ) - Nat.log2 q.den
  if |q| < 2 ^ k then k - 1 else k

/-- What the last digit of a float in the range of a number counts. -/
def quantum (q : ℚ) : ℚ := 2 ^ max (binade q - 52) (-1074)

/-- The nearest number with the digits of a float, whatever its exponent. -/
def nearest (q : ℚ) : ℚ := roundHalfEven (q / quantum q) * quantum q

/-- What stands for an infinity. -/
def overflow : ℚ := 2 ^ 1024

/-- The nearest float, or an infinity. -/
def double (q : ℚ) : ℚ := max (-overflow) (min overflow (nearest q))

theorem quantum_pos (q : ℚ) : 0 < quantum q := zpow_pos (by norm_num) _

/-- The leading digit is that of the quotient of the leading digits, or the one below. -/
theorem binade_spec {q : ℚ} (hq : q ≠ 0) : 2 ^ binade q ≤ |q| ∧ |q| < 2 ^ (binade q + 1) := by
  have hnum : q.num.natAbs ≠ 0 := Int.natAbs_ne_zero.mpr (Rat.num_ne_zero.mpr hq)
  have habs : |q| = (q.num.natAbs : ℚ) / q.den := by
    rw [Nat.cast_natAbs, Int.cast_abs]
    conv_lhs => rw [← Rat.num_div_den q]
    rw [abs_div, Nat.abs_cast]
  set a := Nat.log2 q.num.natAbs with ha
  set b := Nat.log2 q.den with hb
  have hden : (0 : ℚ) < q.den := Nat.cast_pos.mpr q.den_pos
  have hnumlow : (2 : ℚ) ^ a ≤ q.num.natAbs := by exact_mod_cast Nat.log2_self_le hnum
  have hnumhigh : (q.num.natAbs : ℚ) < 2 ^ (a + 1) := by exact_mod_cast Nat.lt_log2_self
  have hdenlow : (2 : ℚ) ^ b ≤ q.den := by exact_mod_cast Nat.log2_self_le q.den_nz
  have hdenhigh : (q.den : ℚ) < 2 ^ (b + 1) := by exact_mod_cast Nat.lt_log2_self
  have htwo : (2 : ℚ) ≠ 0 := two_ne_zero
  -- A power of the difference, moved to the side of the denominator.
  have hshift : ∀ n : ℤ, (2 : ℚ) ^ ((a : ℤ) - b + n) * 2 ^ b = 2 ^ ((a : ℤ) + n) := by
    intro n
    rw [← zpow_natCast, ← zpow_add₀ htwo]
    congr 1
    ring
  have hlow : (2 : ℚ) ^ ((a : ℤ) - b - 1) ≤ |q| := by
    rw [habs, le_div_iff₀ hden]
    calc (2 : ℚ) ^ ((a : ℤ) - b - 1) * q.den
        ≤ 2 ^ ((a : ℤ) - b - 1) * 2 ^ (b + 1) :=
          mul_le_mul_of_nonneg_left hdenhigh.le (zpow_pos (by norm_num) _).le
      _ = 2 ^ a := by
          rw [pow_succ, ← mul_assoc, sub_eq_add_neg, hshift, ← zpow_natCast (2 : ℚ) a,
            ← zpow_add_one₀ htwo]
          congr 1
          ring
      _ ≤ q.num.natAbs := hnumlow
  have hhigh : |q| < (2 : ℚ) ^ ((a : ℤ) - b + 1) := by
    rw [habs, div_lt_iff₀ hden]
    calc (q.num.natAbs : ℚ) < 2 ^ (a + 1) := hnumhigh
      _ = 2 ^ ((a : ℤ) - b + 1) * 2 ^ b := by
          rw [hshift]
          exact_mod_cast rfl
      _ ≤ 2 ^ ((a : ℤ) - b + 1) * q.den :=
          mul_le_mul_of_nonneg_left hdenlow (zpow_pos (by norm_num) _).le
  unfold binade
  by_cases hlt : |q| < 2 ^ ((a : ℤ) - b)
  · simp only [← ha, ← hb, if_pos hlt, sub_add_cancel]
    exact ⟨hlow, hlt⟩
  · simp only [← ha, ← hb, if_neg hlt]
    exact ⟨not_lt.mp hlt, hhigh⟩

theorem binade_mono {p q : ℚ} (hp : p ≠ 0) (h : |p| ≤ |q|) : binade p ≤ binade q := by
  have hq : q ≠ 0 := by
    intro hc
    rw [hc, abs_zero] at h
    exact hp (abs_nonpos_iff.mp h)
  have hlt : (2 : ℚ) ^ binade p < 2 ^ (binade q + 1) :=
    (binade_spec hp).1.trans_lt (h.trans_lt (binade_spec hq).2)
  have hexp := (zpow_lt_zpow_iff_right₀ (by norm_num : (1 : ℚ) < 2)).mp hlt
  omega

/-! ## The order -/

theorem quantum_neg (q : ℚ) : quantum (-q) = quantum q := by
  unfold quantum binade
  rw [abs_neg, Rat.neg_num, Rat.neg_den, Int.natAbs_neg]

theorem roundHalfEven_neg (q : ℚ) : roundHalfEven (-q) = -roundHalfEven q := by
  have hle := Int.floor_le q
  have hlt := Int.lt_floor_add_one q
  by_cases hint : q = ⌊q⌋
  · rw [hint, ← Int.cast_neg, roundHalfEven_intCast, roundHalfEven_intCast]
  · -- Between two integers the floor of the negation is the ceiling, negated.
    have hfloor : ⌊-q⌋ = -⌊q⌋ - 1 := by
      rw [Int.floor_eq_iff]
      push_cast
      exact ⟨by linarith, by linarith [lt_of_le_of_ne hle (Ne.symm hint)]⟩
    unfold roundHalfEven
    rw [hfloor]
    push_cast
    split_ifs <;> first | omega | linarith

theorem nearest_neg (q : ℚ) : nearest (-q) = -nearest q := by
  unfold nearest
  rw [quantum_neg, neg_div, roundHalfEven_neg, Int.cast_neg, neg_mul]

theorem nearest_zero : nearest 0 = 0 := by
  unfold nearest
  rw [zero_div, ← Int.cast_zero, roundHalfEven_intCast, Int.cast_zero, zero_mul]

theorem pow_mul_zpow (n : ℕ) (e : ℤ) : ((2 ^ n : ℤ) : ℚ) * 2 ^ e = 2 ^ ((n : ℤ) + e) := by
  rw [Int.cast_pow, Int.cast_ofNat, ← zpow_natCast, ← zpow_add₀ two_ne_zero]

theorem nearest_nonneg {q : ℚ} (hq : 0 ≤ q) : 0 ≤ nearest q := by
  refine mul_nonneg (Int.cast_nonneg_iff.mpr ?_) (quantum_pos q).le
  exact (Int.floor_nonneg.mpr (div_nonneg hq (quantum_pos q).le)).trans (floor_le_roundHalfEven _)

/-- Of two positive numbers the greater one has the greater rounding. Where their last
    digits count differently, a power of two lies between them. -/
theorem nearest_mono_pos {p q : ℚ} (hp : 0 < p) (h : p ≤ q) : nearest p ≤ nearest q := by
  have hq := hp.trans_le h
  have hexp : binade p ≤ binade q := by
    refine binade_mono hp.ne' ?_
    rw [abs_of_pos hp, abs_of_pos hq]
    exact h
  set e := max (binade p - 52) (-1074) with he
  set f := max (binade q - 52) (-1074) with hf
  have hquantum : quantum p = 2 ^ e ∧ quantum q = 2 ^ f := ⟨rfl, rfl⟩
  unfold nearest
  rw [hquantum.1, hquantum.2]
  have hepos : (0 : ℚ) < 2 ^ e := zpow_pos (by norm_num) _
  have hfpos : (0 : ℚ) < 2 ^ f := zpow_pos (by norm_num) _
  rcases (max_le_max_right (-1074) (sub_le_sub_right hexp 52) : e ≤ f).lt_or_eq with hlt | heq
  · have hf52 : f = binade q - 52 := by omega
    -- The lesser one has at most 53 digits in front of its last place.
    have hup : p / 2 ^ e ≤ ((2 ^ 53 : ℤ) : ℚ) := by
      rw [div_le_iff₀ hepos]
      refine ((binade_spec hp.ne').2.trans_le ?_).le.trans' (le_abs_self p)
      rw [pow_mul_zpow]
      exact zpow_le_zpow_right₀ (by norm_num) (by omega)
    have hdown : ((2 ^ 52 : ℤ) : ℚ) ≤ q / 2 ^ f := by
      rw [le_div_iff₀ hfpos]
      refine le_trans ?_ ((binade_spec hq.ne').1.trans (abs_of_pos hq).le)
      rw [pow_mul_zpow]
      exact zpow_le_zpow_right₀ (by norm_num) (by omega)
    have hpround := roundHalfEven_mono hup
    have hqround := roundHalfEven_mono hdown
    rw [roundHalfEven_intCast] at hpround hqround
    calc (roundHalfEven (p / 2 ^ e) : ℚ) * 2 ^ e ≤ ((2 ^ 53 : ℤ) : ℚ) * 2 ^ e :=
          mul_le_mul_of_nonneg_right (Int.cast_le.mpr hpround) hepos.le
      _ ≤ ((2 ^ 52 : ℤ) : ℚ) * 2 ^ f := by
          rw [pow_mul_zpow, pow_mul_zpow]
          exact zpow_le_zpow_right₀ (by norm_num) (by omega)
      _ ≤ roundHalfEven (q / 2 ^ f) * 2 ^ f :=
          mul_le_mul_of_nonneg_right (Int.cast_le.mpr hqround) hfpos.le
  · have hsame : e = f := heq
    rw [hsame]
    refine mul_le_mul_of_nonneg_right (Int.cast_le.mpr (roundHalfEven_mono ?_)) hfpos.le
    exact div_le_div_of_nonneg_right h hfpos.le

theorem nearest_mono {p q : ℚ} (h : p ≤ q) : nearest p ≤ nearest q := by
  rcases lt_trichotomy 0 p with hp | hp | hp
  · exact nearest_mono_pos hp h
  · rw [← hp, nearest_zero]
    exact nearest_nonneg (hp.le.trans h)
  · have hneg : nearest p = -nearest (-p) := by rw [nearest_neg, neg_neg]
    have hle : nearest p ≤ 0 := by
      rw [hneg]
      exact neg_nonpos.mpr (nearest_nonneg (by linarith))
    rcases lt_or_ge q 0 with hq | hq
    · -- Two negative numbers are compared by their negations.
      have hq' : nearest q = -nearest (-q) := by rw [nearest_neg, neg_neg]
      rw [hneg, hq']
      exact neg_le_neg (nearest_mono_pos (by linarith) (by linarith))
    · exact hle.trans (nearest_nonneg hq)

theorem double_mono {p q : ℚ} (h : p ≤ q) : double p ≤ double q :=
  max_le_max_left _ (min_le_min_left _ (nearest_mono h))

theorem double_zero : double 0 = 0 := by
  unfold double
  rw [nearest_zero, min_eq_right (by norm_num [overflow]),
    max_eq_right (by norm_num [overflow])]

/-! ## The error -/

theorem nearest_error (q : ℚ) : |nearest q - q| ≤ quantum q / 2 := by
  have hpos := quantum_pos q
  have hscale : nearest q - q = (roundHalfEven (q / quantum q) - q / quantum q) * quantum q := by
    unfold nearest
    rw [sub_mul, div_mul_cancel₀ _ hpos.ne']
  rw [hscale, abs_mul, abs_of_pos hpos]
  have herror := roundHalfEven_error (q / quantum q)
  calc |(roundHalfEven (q / quantum q) : ℚ) - q / quantum q| * quantum q
      ≤ 1 / 2 * quantum q := mul_le_mul_of_nonneg_right herror hpos.le
    _ = quantum q / 2 := by ring

theorem quantum_le {q : ℚ} (hq : q ≠ 0) : quantum q ≤ |q| / 2 ^ 52 + 1 / 2 ^ 100 := by
  unfold quantum
  rcases max_choice (binade q - 52) (-1074) with h | h
  · rw [h, zpow_sub₀ two_ne_zero]
    have hle : (2 : ℚ) ^ binade q / 2 ^ (52 : ℤ) ≤ |q| / 2 ^ 52 :=
      div_le_div_of_nonneg_right (binade_spec hq).1 (by positivity)
    have hpos : (0 : ℚ) ≤ 1 / 2 ^ 100 := by positivity
    linarith
  · have hleast : (2 : ℚ) ^ (-1074 : ℤ) ≤ 2 ^ (-100 : ℤ) :=
      zpow_le_zpow_right₀ (by norm_num) (by norm_num)
    have hpos : (0 : ℚ) ≤ |q| / 2 ^ 52 := by positivity
    have hcast : (2 : ℚ) ^ (-100 : ℤ) = 1 / 2 ^ 100 := by norm_num
    rw [h]
    exact (hleast.trans hcast.le).trans (le_add_of_nonneg_left hpos)

/-- A number well inside the range moves by less than its last digit. -/
theorem double_error {q : ℚ} (hq : |q| ≤ 2 ^ 200) :
    |double q - q| ≤ |q| / 2 ^ 53 + 1 / 2 ^ 101 := by
  rcases eq_or_ne q 0 with hzero | hne
  · rw [hzero, double_zero, sub_self, abs_zero]
    positivity
  · have herror : |nearest q - q| ≤ |q| / 2 ^ 53 + 1 / 2 ^ 101 := by
      have hquantum := quantum_le hne
      have hnear := nearest_error q
      linarith
    -- So the rounding is no infinity.
    have hin : |nearest q| ≤ overflow := by
      have htri : |nearest q| ≤ |nearest q - q| + |q| := by
        have hsum := abs_add_le (nearest q - q) q
        rwa [sub_add_cancel] at hsum
      have hbig : (2 : ℚ) ^ 202 ≤ overflow :=
        pow_le_pow_right₀ (by norm_num) (by norm_num)
      linarith
    have hsame : double q = nearest q := by
      unfold double
      rw [min_eq_right (abs_le.mp hin).2, max_eq_right (abs_le.mp hin).1]
    rw [hsame]
    exact herror

example : double (9 / 1000) + double (5 / 1000) < double (14 / 1000) := by decide +kernel

end WhisperNet
