import Mathlib.Algebra.Order.Round
import Mathlib.Data.Int.Log
import Mathlib.Data.Rat.Floor
import Mathlib.Tactic.Linarith
import Mathlib.Tactic.NormNum
import Mathlib.Tactic.Ring

/-! Binary floating-point numbers of a precision and a least exponent, and the rounding of rational numbers to them:
to the nearest one, and of two to the one with an even significand. -/

namespace FloatRounding

/-- The nearest integer, of two the even one. -/
def roundEven (q : ℚ) : ℤ :=
  let below := ⌊q⌋
  let rest := q - below
  if rest < 1 / 2 then below
  else if 1 / 2 < rest then below + 1
  else if below % 2 = 0 then below else below + 1

theorem roundEven_intCast (n : ℤ) : roundEven n = n := by
  rw [roundEven, Int.floor_intCast, sub_self, if_pos (by norm_num)]

/-- Rounding to an integer does not cross an integer. -/
theorem le_roundEven {n : ℤ} {q : ℚ} (le : (n : ℚ) ≤ q) : n ≤ roundEven q := by
  have below : n ≤ ⌊q⌋ := Int.le_floor.mpr le
  unfold roundEven
  dsimp only
  split_ifs <;> omega

theorem roundEven_le {n : ℤ} {q : ℚ} (le : q ≤ n) : roundEven q ≤ n := by
  rcases le.lt_or_eq with lt | rfl
  · have below : ⌊q⌋ < n := Int.floor_lt.mpr lt
    unfold roundEven
    dsimp only
    split_ifs <;> omega
  · exact (roundEven_intCast n).le

theorem abs_roundEven_le {n : ℤ} {q : ℚ} (le : |q| ≤ n) : |roundEven q| ≤ n := by
  obtain ⟨lower, upper⟩ := abs_le.mp le
  refine abs_le.mpr ⟨le_roundEven ?_, roundEven_le upper⟩
  push_cast
  exact lower

theorem roundEven_neg (q : ℚ) : roundEven (-q) = -roundEven q := by
  by_cases whole : (⌊q⌋ : ℚ) = q
  · rw [← whole, roundEven_intCast, ← Int.cast_neg, roundEven_intCast]
  · have above : (⌊q⌋ : ℚ) < q := lt_of_le_of_ne (Int.floor_le q) whole
    have below : ⌊-q⌋ = -⌊q⌋ - 1 := by
      rw [Int.floor_eq_iff]
      push_cast
      have next := Int.lt_floor_add_one q
      constructor
      · linarith
      · linarith
    unfold roundEven
    simp only [below]
    push_cast
    split_ifs <;> first | omega | linarith

theorem two_zpow_pos (e : ℤ) : (0 : ℚ) < 2 ^ e := zpow_pos (by norm_num) e

variable (precision : ℕ) (least : ℤ)

/-- The exponent of the numbers around a rational. -/
def exponent (q : ℚ) : ℤ := max (Int.log 2 |q| + 1 - precision) least

def round (q : ℚ) : ℚ := roundEven (q / 2 ^ exponent precision least q) * 2 ^ exponent precision least q

/-- A number of the format, if it is not too large. -/
def Representable (q : ℚ) : Prop := ∃ m e : ℤ, |m| ≤ 2 ^ precision ∧ least ≤ e ∧ q = m * 2 ^ e

variable {precision least}

variable (precision least) in
/-- The exponent is large enough for the number. -/
theorem abs_lt_exponent (q : ℚ) : |q| < 2 ^ (exponent precision least q + precision) := by
  have next : |q| < 2 ^ (Int.log 2 |q| + 1) := by
    have bound := Int.lt_zpow_succ_log_self (b := 2) (by decide) |q|
    exact_mod_cast bound
  refine next.trans_le (zpow_le_zpow_right₀ (by norm_num) ?_)
  rw [exponent]
  omega

variable (precision least) in
/-- What is rounded is a number of the format. -/
theorem representable_round (q : ℚ) : Representable precision least (round precision least q) := by
  refine ⟨_, exponent precision least q, ?_, le_max_right _ _, rfl⟩
  refine abs_roundEven_le ?_
  have positive : (0 : ℚ) < 2 ^ exponent precision least q := two_zpow_pos _
  rw [abs_div, abs_of_pos positive, div_le_iff₀ positive]
  refine (abs_lt_exponent precision least q).le.trans (le_of_eq ?_)
  rw [zpow_add₀ (by norm_num), zpow_natCast]
  push_cast
  ring

/-- A multiple of the unit in the last place is not changed. -/
theorem round_of_dvd {q : ℚ} {n : ℤ} (whole : q = n * 2 ^ exponent precision least q) :
    round precision least q = q := by
  have positive : (0 : ℚ) < 2 ^ exponent precision least q := two_zpow_pos _
  have quotient : q / 2 ^ exponent precision least q = n := (div_eq_iff positive.ne').mpr whole
  rw [round, quotient, roundEven_intCast]
  exact whole.symm

/-- The numbers of the format are rounded to themselves. -/
theorem round_eq_self (digits : 0 < precision) {q : ℚ} (representable : Representable precision least q) :
    round precision least q = q := by
  obtain ⟨m, e, bound, lower, value⟩ := representable
  have base : (2 : ℚ) ≠ 0 := by norm_num
  by_cases fine : exponent precision least q ≤ e
  · -- a multiple of a larger power of two
    obtain ⟨k, gap⟩ := Int.le.dest fine
    refine round_of_dvd (n := m * 2 ^ k) ?_
    conv_lhs => rw [value, ← gap, zpow_add₀ base, zpow_natCast]
    push_cast
    ring
  by_cases zero : q = 0
  · refine round_of_dvd (n := 0) ?_
    rw [zero]
    simp
  · -- the significand is a power of two, so the next exponent does as well
    have size : |q| ≤ 2 ^ (e + precision) := by
      have significand : (|m| : ℚ) ≤ 2 ^ precision := by exact_mod_cast bound
      rw [value, abs_mul, abs_of_pos (two_zpow_pos e), zpow_add₀ base, zpow_natCast, mul_comm]
      exact mul_le_mul_of_nonneg_left significand (two_zpow_pos e).le
    have log : Int.log 2 |q| ≤ e + precision := by
      have power := (Int.zpow_log_le_self (b := 2) (by decide) (abs_pos.mpr zero)).trans size
      push_cast at power
      exact (zpow_le_zpow_iff_right₀ (by norm_num)).mp power
    have next : exponent precision least q = e + 1 ∧ Int.log 2 |q| = e + precision := by
      unfold exponent at fine ⊢
      omega
    have full : (2 : ℚ) ^ precision * 2 ^ e ≤ |(m : ℚ)| * 2 ^ e := by
      have power := Int.zpow_log_le_self (b := 2) (by decide) (abs_pos.mpr zero)
      rw [next.2, value, abs_mul, abs_of_pos (two_zpow_pos e)] at power
      push_cast at power
      rw [zpow_add₀ base, zpow_natCast, mul_comm] at power
      exact power
    have whole : |m| = 2 ^ precision := by
      refine le_antisymm bound ?_
      have significand := le_of_mul_le_mul_right full (two_zpow_pos e)
      exact_mod_cast significand
    obtain ⟨n, half⟩ : ∃ n, m = 2 * n := by
      obtain ⟨p, rfl⟩ := Nat.exists_eq_succ_of_ne_zero digits.ne'
      rcases (abs_eq (by positivity)).mp whole with same | same
      · exact ⟨2 ^ p, by rw [same, pow_succ]; ring⟩
      · exact ⟨-2 ^ p, by rw [same, pow_succ]; ring⟩
    refine round_of_dvd (n := n) ?_
    rw [next.1, zpow_add_one₀ base]
    conv_lhs => rw [value, half]
    push_cast
    ring

theorem round_neg (q : ℚ) : round precision least (-q) = -round precision least q := by
  have same : exponent precision least (-q) = exponent precision least q := by rw [exponent, abs_neg, exponent]
  rw [round, same, neg_div, roundEven_neg, Int.cast_neg, neg_mul, round]

@[simp] theorem round_round (digits : 0 < precision) (q : ℚ) :
    round precision least (round precision least q) = round precision least q :=
  round_eq_self digits (representable_round precision least q)

end FloatRounding
