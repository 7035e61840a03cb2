import CryptoScan.Python.Text
import CryptoScan.Python.Float
import Mathlib.Algebra.Order.Field.Power
import Mathlib.Data.Int.Log
import Mathlib.Data.Rat.Floor
import Mathlib.Tactic.Linarith
import Mathlib.Tactic.Positivity
import Mathlib.Tactic.Ring

/-!
# Dividing integers

`a / b` for two integers is a float: the binary64 value nearest to the quotient, and of two such
values the one with an even last digit. The quotient is exact before it is rounded, so the result is
known from the rational number alone.

`toBinary64` rounds a rational that is not negative: the exponent of its last digit follows from its
size (`lastDigit`), and what is left is to round to an integer. `toBinary64_nearest` says that no
value of the format is nearer, whatever its exponent.
-/

namespace CryptoScan.Python

/-! ## Rounding to an integer -/

/-- The nearest integer, an even one if there are two. -/
def roundHalfEven (q : ℚ) : ℤ :=
  if q - ⌊q⌋ < 1 / 2 then ⌊q⌋
  else if 1 / 2 < q - ⌊q⌋ then ⌊q⌋ + 1
  else if ⌊q⌋ % 2 = 0 then ⌊q⌋
  else ⌊q⌋ + 1

theorem roundHalfEven_error (q : ℚ) : |(roundHalfEven q : ℚ) - q| ≤ 1 / 2 := by
  have hlow := Int.floor_le q
  have hhigh := Int.lt_floor_add_one q
  rw [abs_le]
  unfold roundHalfEven
  split_ifs <;> push_cast <;> constructor <;> linarith

/-- No integer is nearer. -/
theorem roundHalfEven_nearest (q : ℚ) (k : ℤ) : |(roundHalfEven q : ℚ) - q| ≤ |(k : ℚ) - q| := by
  by_cases heq : k = roundHalfEven q
  · rw [heq]
  · -- two integers are at least one apart
    have hone : (1 : ℚ) ≤ |(k : ℚ) - roundHalfEven q| := by
      rw [← Int.cast_sub, ← Int.cast_abs]
      exact_mod_cast Int.one_le_abs (sub_ne_zero.mpr heq)
    have herr := roundHalfEven_error q
    have htri := abs_sub_le (k : ℚ) q (roundHalfEven q)
    rw [abs_sub_comm q] at htri
    linarith

/-! ## Rounding to binary64 -/

/-- The exponent of the last digit: 53 digits, but not below the least exponent there is. -/
def lastDigit (q : ℚ) : ℤ := max (Int.log 2 q - 52) (-1074)

/-- The value of the format that is nearest to a rational `0 ≤ q`. -/
def toBinary64 (q : ℚ) : ℚ := roundHalfEven (q / 2 ^ lastDigit q) * 2 ^ lastDigit q

/-- The numbers that binary64 can hold, if it is not for their size. -/
def IsBinary64 (x : ℚ) : Prop := ∃ m e : ℤ, |m| ≤ 2 ^ 53 ∧ -1074 ≤ e ∧ x = m * 2 ^ e

/-- `x` is a value of the format, and no other one is nearer to `q`. -/
structure NearestBinary64 (q x : ℚ) : Prop where
  value : IsBinary64 x
  nearest : ∀ y, IsBinary64 y → |x - q| ≤ |y - q|

section Rounding

variable {q : ℚ}

/-- Of the multiples of the last digit none is nearer. -/
theorem toBinary64_nearest_multiple (q : ℚ) (k : ℤ) :
    |toBinary64 q - q| ≤ |k * (2 : ℚ) ^ lastDigit q - q| := by
  have hpos : (0 : ℚ) < 2 ^ lastDigit q := by positivity
  have hscale : ∀ n : ℤ, |n * (2 : ℚ) ^ lastDigit q - q| =
      |(n : ℚ) - q / 2 ^ lastDigit q| * 2 ^ lastDigit q := by
    intro n
    rw [← abs_of_pos hpos, ← abs_mul, abs_of_pos hpos, sub_mul, div_mul_cancel₀ _ hpos.ne']
  unfold toBinary64
  rw [hscale, hscale]
  exact mul_le_mul_of_nonneg_right (roundHalfEven_nearest _ k) hpos.le

theorem toBinary64_isBinary64 (hq : 0 ≤ q) : IsBinary64 (toBinary64 q) := by
  have hpos : (0 : ℚ) < 2 ^ lastDigit q := by positivity
  refine ⟨roundHalfEven (q / 2 ^ lastDigit q), lastDigit q, ?_, le_max_right _ _, rfl⟩
  -- the scaled number lies between 0 and `2 ^ 53`, and these are integers
  have hlt : q < 2 ^ (Int.log 2 q + 1) := Int.lt_zpow_succ_log_self (by decide) q
  have hle : Int.log 2 q + 1 ≤ 53 + lastDigit q := by
    have := le_max_left (Int.log 2 q - 52) (-1074)
    unfold lastDigit
    omega
  have hscaled : q / 2 ^ lastDigit q ≤ 2 ^ 53 := by
    rw [div_le_iff₀ hpos]
    calc q ≤ 2 ^ (Int.log 2 q + 1) := hlt.le
      _ ≤ (2 : ℚ) ^ (53 + lastDigit q) := zpow_le_zpow_right₀ (by norm_num) hle
      _ = 2 ^ 53 * 2 ^ lastDigit q := by
          rw [zpow_add₀ two_ne_zero]
          norm_num
  have hnonneg : 0 ≤ q / 2 ^ lastDigit q := div_nonneg hq hpos.le
  have herr := abs_le.mp (roundHalfEven_error (q / 2 ^ lastDigit q))
  rw [abs_le]
  constructor
  · have : (-1 : ℚ) < roundHalfEven (q / 2 ^ lastDigit q) := by linarith
    have : -1 < roundHalfEven (q / 2 ^ lastDigit q) := by exact_mod_cast this
    omega
  · have : (roundHalfEven (q / 2 ^ lastDigit q) : ℚ) < 2 ^ 53 + 1 := by linarith
    have : roundHalfEven (q / 2 ^ lastDigit q) < 2 ^ 53 + 1 := by exact_mod_cast this
    omega

theorem toBinary64_zero : toBinary64 0 = 0 := by
  have hdist := toBinary64_nearest_multiple 0 0
  simpa using hdist

/-- **Rounding to nearest.** -/
theorem toBinary64_nearest (hq : 0 ≤ q) : NearestBinary64 q (toBinary64 q) := by
  refine ⟨toBinary64_isBinary64 hq, ?_⟩
  rintro y ⟨m, e, hm, he, rfl⟩
  rcases hq.eq_or_lt with rfl | hq
  · rw [toBinary64_zero, sub_zero, abs_zero]
    exact abs_nonneg _
  by_cases hdigit : lastDigit q ≤ e
  · -- a multiple of the last digit
    obtain ⟨n, hn⟩ := Int.eq_ofNat_of_zero_le (sub_nonneg.mpr hdigit)
    have hmul : (m : ℚ) * 2 ^ e = ((m * 2 ^ n : ℤ) : ℚ) * 2 ^ lastDigit q := by
      have hsum : e = n + lastDigit q := by omega
      rw [hsum, zpow_add₀ two_ne_zero]
      push_cast
      rw [zpow_natCast]
      ring
    rw [hmul]
    exact toBinary64_nearest_multiple q _
  · -- with smaller digits one only gets up to the power of two below `q`, which is such a multiple
    have hlog : lastDigit q = Int.log 2 q - 52 := by
      unfold lastDigit at hdigit ⊢
      omega
    have hbelow : (2 : ℚ) ^ Int.log 2 q ≤ q := Int.zpow_log_le_self (by decide) hq
    have hpow : (2 : ℚ) ^ Int.log 2 q = ((2 ^ 52 : ℤ) : ℚ) * 2 ^ lastDigit q := by
      have hsum : Int.log 2 q = 52 + lastDigit q := by omega
      rw [hsum, zpow_add₀ two_ne_zero]
      norm_num
    have hm' : (m : ℚ) ≤ 2 ^ 53 := by exact_mod_cast (abs_le.mp hm).2
    have hy : (m : ℚ) * 2 ^ e ≤ 2 ^ Int.log 2 q := by
      calc (m : ℚ) * 2 ^ e ≤ 2 ^ 53 * 2 ^ e :=
            mul_le_mul_of_nonneg_right hm' (by positivity)
        _ = 2 ^ (53 + e) := by
            rw [zpow_add₀ two_ne_zero]
            norm_num
        _ ≤ 2 ^ Int.log 2 q := zpow_le_zpow_right₀ (by norm_num) (by omega)
    have hmultiple := toBinary64_nearest_multiple q (2 ^ 52)
    rw [← hpow, abs_of_nonpos (sub_nonpos.mpr hbelow)] at hmultiple
    rw [abs_of_nonpos (sub_nonpos.mpr (hy.trans hbelow))]
    linarith

/-- The quotient of a number by a larger one stays below 2. -/
theorem toBinary64_le_two (hq : 0 ≤ q) (hq' : q ≤ 1) : toBinary64 q ≤ 2 := by
  have hdist := toBinary64_nearest_multiple q 0
  rw [Int.cast_zero, zero_mul, zero_sub, abs_neg, abs_of_nonneg hq] at hdist
  linarith [(abs_le.mp hdist).2]

end Rounding

/-! ## Division -/

/-- `a / b`. -/
def trueDiv (a b : Nat) : Except Exc PyFloat :=
  if b = 0 then .error (.zeroDivisionError (txt "division by zero"))
  else if 2 ^ 1024 ≤ toBinary64 (a / b) then
    .error (.overflowError (txt "integer division result too large for a float"))
  else .ok (.finite (toBinary64 (a / b)))

theorem div_le_one_of_le {a b : Nat} (h : a ≤ b) : (a / b : ℚ) ≤ 1 :=
  div_le_one_of_le₀ (by exact_mod_cast h) (by positivity)

theorem trueDiv_of_le {a b : Nat} (hb : b ≠ 0) (h : a ≤ b) :
    trueDiv a b = .ok (.finite (toBinary64 (a / b))) := by
  have htwo : toBinary64 (a / b) ≤ 2 := toBinary64_le_two (by positivity) (div_le_one_of_le h)
  have hfits : ¬ (2 : ℚ) ^ 1024 ≤ toBinary64 (a / b) := by
    apply not_le.mpr
    calc toBinary64 (a / b) ≤ 2 ^ 1 := by simpa using htwo
      _ < 2 ^ 1024 := pow_lt_pow_right₀ (by norm_num) (by norm_num)
  unfold trueDiv
  rw [if_neg hb, if_neg hfits]

example : toBinary64 (1 / 3) = 6004799503160661 / 2 ^ 54 := by decide +kernel

end CryptoScan.Python
