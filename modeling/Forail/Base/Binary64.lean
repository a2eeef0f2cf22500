import Mathlib.Algebra.Order.Field.Power
import Mathlib.Data.Int.Log
import Mathlib.Data.Rat.Floor
import Mathlib.Tactic.FieldSimp
import Mathlib.Tactic.Linarith
import Mathlib.Tactic.Positivity

/-! Rounding to a binary float with 53 significant bits, away from overflow and underflow. A
quotient of integers that is compared with an integer is not changed by it. -/

namespace Forail.Binary64

/-- The nearest integer, a tie going to the even one. -/
def roundHalfEven (q : ℚ) : ℤ :=
  if Int.fract q < 1 / 2 ∨ (Int.fract q = 1 / 2 ∧ Even ⌊q⌋) then ⌊q⌋ else ⌊q⌋ + 1

/-- The unit in the last place. -/
def ulp (q : ℚ) : ℚ := (2 : ℚ) ^ (Int.log 2 |q| - 52)

def float64 (q : ℚ) : ℚ := roundHalfEven (q / ulp q) * ulp q

theorem roundHalfEven_error (q : ℚ) : |(roundHalfEven q : ℚ) - q| ≤ 1 / 2 := by
  have hfract := Int.floor_add_fract q
  have hnonneg := Int.fract_nonneg q
  have hlt := Int.fract_lt_one q
  rw [roundHalfEven, abs_le]
  split_ifs with h
  · have hhalf : Int.fract q ≤ 1 / 2 := by
      rcases h with h | ⟨h, -⟩
      · exact h.le
      · exact h.le
    constructor <;> linarith
  · have hhalf : 1 / 2 ≤ Int.fract q := by
      by_contra hlt'
      exact h (.inl (not_le.mp hlt'))
    push_cast
    constructor <;> linarith

theorem roundHalfEven_intCast (n : ℤ) : roundHalfEven n = n := by
  simp [roundHalfEven]

theorem ulp_pos (q : ℚ) : 0 < ulp q := by
  rw [ulp]
  positivity

/-- Half a unit in the last place is at most the value by `2 ^ 53`. -/
theorem ulp_le {q : ℚ} (hq : 0 < q) : ulp q / 2 ≤ q / 2 ^ 53 := by
  have hlog : (2 : ℚ) ^ Int.log 2 q ≤ q := by
    exact_mod_cast Int.zpow_log_le_self (b := 2) (by norm_num) hq
  have hulp : ulp q = 2 ^ Int.log 2 q / 2 ^ 52 := by
    rw [ulp, abs_of_pos hq, zpow_sub₀ two_ne_zero]
    rfl
  rw [hulp]
  have hpow : (0 : ℚ) < 2 ^ 52 := by positivity
  calc (2 : ℚ) ^ Int.log 2 q / 2 ^ 52 / 2 ≤ q / 2 ^ 52 / 2 := by gcongr
    _ = q / 2 ^ 53 := by ring

theorem float64_error {q : ℚ} (hq : 0 < q) : |float64 q - q| ≤ q / 2 ^ 53 := by
  have hpos := ulp_pos q
  have hsplit : float64 q - q = (roundHalfEven (q / ulp q) - q / ulp q) * ulp q := by
    rw [float64, sub_mul, div_mul_cancel₀ _ hpos.ne']
  rw [hsplit, abs_mul, abs_of_pos hpos]
  calc |(roundHalfEven (q / ulp q) : ℚ) - q / ulp q| * ulp q ≤ 1 / 2 * ulp q :=
        mul_le_mul_of_nonneg_right (roundHalfEven_error _) hpos.le
    _ = ulp q / 2 := by ring
    _ ≤ q / 2 ^ 53 := ulp_le hq

/-- A natural number of at most 53 bits is a float. -/
theorem float64_natCast {n : ℕ} (hn : n < 2 ^ 53) : float64 n = n := by
  rcases Nat.eq_zero_or_pos n with rfl | hpos
  · simp [float64, roundHalfEven]
  have hlog : Int.log 2 |(n : ℚ)| = Nat.log 2 n := by
    rw [abs_of_nonneg (Nat.cast_nonneg n), Int.log_natCast]
  have hle : Nat.log 2 n ≤ 52 := Nat.lt_succ_iff.mp (Nat.log_lt_of_lt_pow hpos.ne' hn)
  obtain ⟨k, hk⟩ := Nat.exists_eq_add_of_le hle
  have hulp : ulp (n : ℚ) = (2 ^ k)⁻¹ := by
    have hexp : (Nat.log 2 n : ℤ) - 52 = -(k : ℤ) := by omega
    rw [ulp, hlog, hexp, zpow_neg, zpow_natCast]
  have hscaled : (n : ℚ) / ulp n = ((n * 2 ^ k : ℕ) : ℤ) := by
    rw [hulp, div_inv_eq_mul]
    push_cast
    ring
  rw [float64, hscaled, roundHalfEven_intCast, ← hscaled, div_mul_cancel₀ _ (ulp_pos _).ne']

theorem ulp_mul_zpow {q : ℚ} (hq : q ≠ 0) (e : ℤ) : ulp (q * 2 ^ e) = ulp q * 2 ^ e := by
  have habs : 0 < |q| := abs_pos.mpr hq
  have hscaled : |q * 2 ^ e| = |q| * 2 ^ e := by
    rw [abs_mul, abs_of_pos (by positivity : (0 : ℚ) < 2 ^ e)]
  have hlog : Int.log 2 (|q| * 2 ^ e) = Int.log 2 |q| + e := by
    refine eq_of_forall_le_iff fun z => ?_
    rw [← Int.zpow_le_iff_le_log one_lt_two (by positivity), ← sub_le_iff_le_add,
      ← Int.zpow_le_iff_le_log one_lt_two habs]
    push_cast
    rw [zpow_sub₀ two_ne_zero, div_le_iff₀ (by positivity)]
  rw [ulp, ulp, hscaled, hlog, ← zpow_add₀ two_ne_zero]
  congr 1
  omega

/-- A power of two scales the rounded value. -/
theorem float64_mul_zpow (q : ℚ) (e : ℤ) : float64 (q * 2 ^ e) = float64 q * 2 ^ e := by
  rcases eq_or_ne q 0 with rfl | hq
  · simp [float64, roundHalfEven]
  have hpow : (2 : ℚ) ^ e ≠ 0 := by positivity
  rw [float64, float64, ulp_mul_zpow hq, mul_div_mul_right _ _ hpow, mul_assoc]

/-- A natural number of at most 53 bits over a power of two is a float. -/
theorem float64_dyadic {n : ℕ} (hn : n < 2 ^ 53) (k : ℕ) : float64 (n / 2 ^ k) = n / 2 ^ k := by
  have hscale := float64_mul_zpow n (-(k : ℤ))
  rw [zpow_neg, zpow_natCast, ← div_eq_mul_inv, ← div_eq_mul_inv, float64_natCast hn] at hscale
  exact hscale

/-- An integer below a quotient is below it by a part of the denominator. -/
theorem gap_of_lt_div {a b : ℕ} {p : ℤ} (hb : 0 < b) (h : (p : ℚ) < a / b) :
    (1 : ℚ) / b ≤ a / b - p := by
  have hbQ : (0 : ℚ) < b := Nat.cast_pos.mpr hb
  have hint : p * b < (a : ℤ) := by
    rw [lt_div_iff₀ hbQ] at h
    exact_mod_cast h
  have hstep : p * b + 1 ≤ (a : ℤ) := hint
  have hcast : (p : ℚ) * b + 1 ≤ a := by exact_mod_cast hstep
  rw [div_le_iff₀ hbQ, sub_mul, div_mul_cancel₀ _ hbQ.ne']
  linarith

theorem gap_of_div_lt {a b : ℕ} {p : ℤ} (hb : 0 < b) (h : (a : ℚ) / b < p) :
    (1 : ℚ) / b ≤ p - a / b := by
  have hbQ : (0 : ℚ) < b := Nat.cast_pos.mpr hb
  have hint : (a : ℤ) < p * b := by
    rw [div_lt_iff₀ hbQ] at h
    exact_mod_cast h
  have hstep : (a : ℤ) + 1 ≤ p * b := hint
  have hcast : (a : ℚ) + 1 ≤ p * b := by exact_mod_cast hstep
  rw [div_le_iff₀ hbQ, sub_mul, div_mul_cancel₀ _ hbQ.ne']
  linarith

/-- A quotient that is an integer is a float. -/
theorem float64_div_of_eq {a b : ℕ} {p : ℤ} (ha : a < 2 ^ 53) (hb : 0 < b) (h : (p : ℚ) = a / b) :
    float64 (a / b) = p := by
  have hp : (0 : ℤ) ≤ p := by
    have hnonneg : (0 : ℚ) ≤ p := by
      rw [h]
      positivity
    exact_mod_cast hnonneg
  obtain ⟨n, rfl⟩ := Int.eq_ofNat_of_zero_le hp
  have hn : n < 2 ^ 53 := by
    have hle : (n : ℚ) ≤ a := by
      rw [Int.cast_natCast] at h
      rw [h]
      exact div_le_self (Nat.cast_nonneg a) (by exact_mod_cast hb)
    exact lt_of_le_of_lt (by exact_mod_cast hle) ha
  rw [← h, Int.cast_natCast, float64_natCast hn]

/-- Rounding does not move a quotient past an integer or onto one. -/
theorem le_float64_div_iff {a b : ℕ} {p : ℤ} (ha : a < 2 ^ 53) (hb : 0 < b) :
    (p : ℚ) ≤ float64 (a / b) ↔ (p : ℚ) ≤ a / b := by
  rcases Nat.eq_zero_or_pos a with rfl | hapos
  · simp [float64, roundHalfEven]
  have hbQ : (0 : ℚ) < b := Nat.cast_pos.mpr hb
  have herror := abs_le.mp (float64_error (div_pos (Nat.cast_pos.mpr hapos) hbQ))
  have hsmall : (a : ℚ) / b / 2 ^ 53 < 1 / b := by
    have haQ : (a : ℚ) < 2 ^ 53 := by exact_mod_cast ha
    rw [div_right_comm]
    gcongr
    rw [div_lt_one (by positivity)]
    exact haQ
  rcases lt_trichotomy (p : ℚ) (a / b) with hlt | heq | hgt
  · refine iff_of_true ?_ hlt.le
    have hgap := gap_of_lt_div hb hlt
    linarith
  · exact iff_of_true (float64_div_of_eq ha hb heq).ge heq.le
  · refine iff_of_false (not_le.mpr ?_) (not_le.mpr hgt)
    have hgap := gap_of_div_lt hb hgt
    linarith

end Forail.Binary64
