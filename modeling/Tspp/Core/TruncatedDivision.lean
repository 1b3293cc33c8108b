import Mathlib.Algebra.Order.Ring.Int
import Mathlib.Order.Bounds.Basic

/-!
# Truncated division and multiples

Division of integers that truncates toward zero: the sign of quotient and remainder, the
numbers that share a quotient, and the nearest multiples below and above a number. Around zero
the numbers with one quotient reach twice as far as elsewhere.
-/

namespace TruncatedDivision

variable {a b c m : ℤ}

/-- A truncated quotient is positive only for a positive number. -/
theorem pos_of_tdiv_pos (hb : 0 < b) (h : 0 < a.tdiv b) : 0 < a := by
  by_contra ha
  have hle := Int.tdiv_le_tdiv hb (not_lt.mp ha)
  rw [Int.zero_tdiv] at hle
  exact absurd h (not_lt_of_ge hle)

/-- The quotient of a difference of multiples is exact. -/
theorem tdiv_mul_sub (ha : m ∣ a) (hb : m ∣ b) : (a - b).tdiv m * m = a - b :=
  Int.tdiv_mul_cancel (Int.dvd_sub ha hb)

/-- The quotient of a difference of multiples has the sign of the difference. -/
theorem tdiv_sub_neg_iff (hm : 0 < m) (ha : m ∣ a) (hb : m ∣ b) :
    (a - b).tdiv m < 0 ↔ a < b := by
  have hmul := tdiv_mul_sub ha hb
  constructor
  · intro hneg
    have hlt := Int.mul_neg_of_neg_of_pos hneg hm
    omega
  · intro hlt
    by_contra hnonneg
    have hge := Int.mul_nonneg (not_lt.mp hnonneg) hm.le
    omega

/-- A number less than the divisor away from zero has the quotient zero. -/
theorem tdiv_eq_zero (hlt : -b < a) (hgt : a < b) : a.tdiv b = 0 := by
  rcases le_total 0 a with h | h
  · exact Int.tdiv_eq_zero_of_lt h hgt
  · have hneg : (-a).tdiv b = 0 := Int.tdiv_eq_zero_of_lt (by omega) (by omega)
    rw [Int.neg_tdiv] at hneg
    omega

/-- Numbers with one quotient are less than the divisor apart, or both are less than the divisor
from zero, on its two sides. -/
theorem sub_lt_or_around_zero (hm : 0 < m) (h : a.tdiv m = b.tdiv m) :
    b - a < m ∨ -m < a ∧ a < 0 ∧ 0 ≤ b ∧ b < m := by
  have ha := Int.mul_tdiv_add_tmod a m
  have hb := Int.mul_tdiv_add_tmod b m
  have ha1 := Int.lt_tmod_of_pos a hm
  have hb1 := Int.tmod_lt_of_pos b hm
  rw [h] at ha
  by_cases ha0 : 0 ≤ a
  · have := Int.tmod_nonneg m ha0
    omega
  · by_cases hb0 : 0 ≤ b
    · have hq : b.tdiv m = 0 := by
        have hle := Int.tdiv_nonneg hb0 hm.le
        have hge : 0 ≤ (-a).tdiv m := Int.tdiv_nonneg (by omega) hm.le
        rw [Int.neg_tdiv] at hge
        omega
      rw [hq] at ha hb
      omega
    · have hneg := Int.tmod_nonneg m (show 0 ≤ -b by omega)
      rw [Int.neg_tmod] at hneg
      omega

/-- A truncated half is exceeded exactly if twice the number exceeds the whole. -/
theorem tdiv_two_lt_iff (hb : 0 ≤ b) : b.tdiv 2 < a ↔ b < 2 * a := by
  rw [Int.tdiv_eq_ediv_of_nonneg hb]
  omega

/-- A truncated remainder is positive exactly for positive numbers that are not multiples. -/
theorem tmod_pos_iff : 0 < a.tmod b ↔ 0 < a ∧ ¬ b ∣ a := by
  rw [Int.dvd_iff_tmod_eq_zero]
  constructor
  · intro hpos
    refine ⟨?_, hpos.ne'⟩
    by_contra hneg
    have hopposite := Int.tmod_nonneg b (show 0 ≤ -a by omega)
    rw [Int.neg_tmod] at hopposite
    omega
  · intro ⟨hpos, hne⟩
    have hnonneg := Int.tmod_nonneg b hpos.le
    omega

/-- A truncated remainder is nonnegative exactly for nonnegative numbers and multiples. -/
theorem tmod_nonneg_iff : 0 ≤ a.tmod b ↔ 0 ≤ a ∨ b ∣ a := by
  have hneg := tmod_pos_iff (a := -a) (b := b)
  rw [Int.neg_tmod, Int.dvd_neg] at hneg
  by_cases hdvd : b ∣ a
  · simp [hdvd, Int.tmod_eq_zero_of_dvd]
  · simp only [hdvd, not_false_eq_true, and_true, or_false] at hneg ⊢
    omega

/-- Of numbers with one quotient the greater one has the greater remainder. -/
theorem tmod_le_tmod (h : a.tdiv m = b.tdiv m) (hab : a ≤ b) : a.tmod m ≤ b.tmod m := by
  have ha := Int.mul_tdiv_add_tmod a m
  have hb := Int.mul_tdiv_add_tmod b m
  rw [h] at ha
  omega

/-- The truncated quotient, and one more where the remainder exceeds half the divisor. -/
def roundedQuotient (m a : ℤ) : ℤ := if m < 2 * a.tmod m then a.tdiv m + 1 else a.tdiv m

/-- A greater number has no smaller rounded quotient. -/
theorem roundedQuotient_le (hm : 0 < m) (hab : a ≤ b) :
    roundedQuotient m a ≤ roundedQuotient m b := by
  unfold roundedQuotient
  rcases (Int.tdiv_le_tdiv hm hab).lt_or_eq with hlt | heq
  · split <;> split <;> omega
  · -- Over one quotient the remainder passes the half once.
    have hremainder := tmod_le_tmod heq hab
    split <;> split <;> omega

/-- A multiple has its factor for a rounded quotient. -/
theorem roundedQuotient_mul (hm : 0 < m) (c : ℤ) : roundedQuotient m (m * c) = c := by
  rw [roundedQuotient, Int.mul_tmod_right, if_neg (by omega), Int.mul_tdiv_cancel_left c hm.ne']

/-- A multiple is the least one that is not before `a` exactly if it is less than one divisor
beyond `a`. -/
theorem isLeast_multiple_iff (hm : 0 < m) :
    IsLeast {x | m ∣ x ∧ a ≤ x} c ↔ m ∣ c ∧ a ≤ c ∧ c < a + m := by
  constructor
  · intro ⟨⟨hdvd, hle⟩, hleast⟩
    refine ⟨hdvd, hle, ?_⟩
    by_contra hfar
    have hbefore := hleast ⟨Int.dvd_sub hdvd (Int.dvd_refl m), show a ≤ c - m by omega⟩
    omega
  · intro ⟨hdvd, hle, hnear⟩
    refine ⟨⟨hdvd, hle⟩, fun x hx => ?_⟩
    by_contra hlt
    have hgap := Int.le_of_dvd (by omega) (Int.dvd_sub hdvd hx.1)
    have := hx.2
    omega

/-- A multiple is the greatest one that is not after `a` exactly if it is less than one divisor
before `a`. -/
theorem isGreatest_multiple_iff (hm : 0 < m) :
    IsGreatest {x | m ∣ x ∧ x ≤ a} c ↔ m ∣ c ∧ c ≤ a ∧ a < c + m := by
  constructor
  · intro ⟨⟨hdvd, hle⟩, hgreatest⟩
    refine ⟨hdvd, hle, ?_⟩
    by_contra hfar
    have hafter := hgreatest ⟨Int.dvd_add hdvd (Int.dvd_refl m), show c + m ≤ a by omega⟩
    omega
  · intro ⟨hdvd, hle, hnear⟩
    refine ⟨⟨hdvd, hle⟩, fun x hx => ?_⟩
    by_contra hlt
    have hgap := Int.le_of_dvd (by omega) (Int.dvd_sub hx.1 hdvd)
    have := hx.2
    omega

end TruncatedDivision
