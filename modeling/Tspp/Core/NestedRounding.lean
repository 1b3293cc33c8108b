import Tspp.Core.TruncatedDivision
import Mathlib.Algebra.Ring.Int.Parity
import Mathlib.Tactic.Linarith
import Mathlib.Tactic.Ring

/-!
# Rounding in two steps

A number is rounded to a multiple of one divisor, and the result to a multiple of another.
Rounding toward zero, this is one rounding by the second divisor exactly if the first divides
it. Rounding to the nearest multiple, halves toward zero, the quotient of the divisors has to be
odd as well, unless the first is one: over an even quotient a number just beyond a half is moved
onto the half.
-/

namespace TruncatedDivision

variable {a b k m : ℤ}

/-- Up to zero there is no remainder beyond half the divisor. -/
theorem roundedQuotient_of_nonpos (hm : 0 < m) (ha : a ≤ 0) : roundedQuotient m a = a.tdiv m := by
  have hremainder := Int.tmod_nonneg m (show 0 ≤ -a by omega)
  rw [Int.neg_tmod] at hremainder
  exact if_neg (by omega)

/-- From zero on the rounded quotient is the one whose multiple is nearest. -/
theorem roundedQuotient_eq_iff (hm : 0 < m) (ha : 0 ≤ a) :
    roundedQuotient m a = k ↔ m * (2 * k - 1) < 2 * a ∧ 2 * a ≤ m * (2 * k + 1) := by
  have hsplit := Int.mul_tdiv_add_tmod a m
  have hnonneg := Int.tmod_nonneg m ha
  have hlt := Int.tmod_lt_of_pos a hm
  have hnear : m * (2 * roundedQuotient m a - 1) < 2 * a ∧
      2 * a ≤ m * (2 * roundedQuotient m a + 1) := by
    unfold roundedQuotient
    split
    · constructor <;> nlinarith
    · constructor <;> nlinarith
  constructor
  · rintro rfl
    exact hnear
  · rintro ⟨hlow, hhigh⟩
    -- The stretches of two quotients do not overlap.
    have hle : 2 * roundedQuotient m a - 1 < 2 * k + 1 :=
      lt_of_mul_lt_mul_left (hnear.1.trans_le hhigh) hm.le
    have hge : 2 * k - 1 < 2 * roundedQuotient m a + 1 :=
      lt_of_mul_lt_mul_left (hlow.trans_le hnear.2) hm.le
    omega

/-- Dividing twice, toward zero, is dividing by the product. -/
theorem tdiv_tdiv (hb : 0 < b) (a n : ℤ) : (a.tdiv b).tdiv n = a.tdiv (b * n) := by
  have hnonneg : ∀ x : ℤ, 0 ≤ x → (x.tdiv b).tdiv n = x.tdiv (b * n) := by
    intro x hx
    rw [Int.tdiv_eq_ediv_of_nonneg hx, Int.tdiv_eq_ediv_of_nonneg hx,
      Int.tdiv_eq_ediv_of_nonneg (Int.ediv_nonneg hx hb.le), Int.ediv_ediv_of_nonneg hb.le]
  rcases le_total 0 a with ha | ha
  · exact hnonneg a ha
  · have hopposite := hnonneg (-a) (by omega)
    rw [Int.neg_tdiv, Int.neg_tdiv, Int.neg_tdiv] at hopposite
    omega

/-- A divisor that keeps its quotient when it is rounded first is a multiple. -/
theorem dvd_of_tdiv_mul_tdiv (hb : 0 < b) (hm : 0 < m) (h : (b * m.tdiv b).tdiv m = 1) :
    b ∣ m := by
  have hle : b * m.tdiv b ≤ m := Int.mul_tdiv_self_le hm.le
  have hnonneg : 0 ≤ b * m.tdiv b := Int.mul_nonneg hb.le (Int.tdiv_nonneg hm.le hb.le)
  have heq : b * m.tdiv b = m := by
    by_contra hne
    rw [Int.tdiv_eq_zero_of_lt hnonneg (lt_of_le_of_ne hle hne)] at h
    cases h
  exact ⟨_, heq.symm⟩

/-- Rounding toward zero in two steps is rounding once exactly over a multiple. -/
theorem tdiv_mul_tdiv_iff (hb : 0 < b) (hm : 0 < m) :
    (∀ a : ℤ, (b * a.tdiv b).tdiv m = a.tdiv m) ↔ b ∣ m := by
  constructor
  · intro h
    exact dvd_of_tdiv_mul_tdiv hb hm ((h m).trans (Int.tdiv_self hm.ne'))
  · rintro ⟨n, rfl⟩ a
    rw [Int.mul_tdiv_mul_of_pos _ _ hb, tdiv_tdiv hb]

/-- Numbers from zero on have rounded quotients from zero on. -/
theorem roundedQuotient_nonneg (hm : 0 < m) (ha : 0 ≤ a) : 0 ≤ roundedQuotient m a := by
  have hquotient := Int.tdiv_nonneg ha hm.le
  unfold roundedQuotient
  split <;> omega

/-- Over an odd number of divisors the stretch of a quotient is made of whole stretches of the
divisor. -/
theorem roundedQuotient_mul_of_odd (hb : 0 < b) {n : ℤ} (hn : 0 < n) (hodd : Odd n) (a : ℤ) :
    roundedQuotient (b * n) (b * roundedQuotient b a) = roundedQuotient (b * n) a := by
  have hbn : 0 < b * n := Int.mul_pos hb hn
  rcases le_total 0 a with ha | ha
  · have hk := roundedQuotient_nonneg hb ha
    obtain ⟨hlow, hhigh⟩ := (roundedQuotient_eq_iff hb ha).mp rfl
    obtain ⟨hlow', hhigh'⟩ := (roundedQuotient_eq_iff hbn (Int.mul_nonneg hb.le hk)).mp rfl
    generalize roundedQuotient b a = k at *
    generalize roundedQuotient (b * n) (b * k) = l at *
    symm
    rw [roundedQuotient_eq_iff hbn ha]
    obtain ⟨j, rfl⟩ := hodd
    -- Both bounds of `2 * k` are odd.
    have hkl : (2 * j + 1) * (2 * l - 1) ≤ 2 * k - 1 := by
      have hlt : (2 * j + 1) * (2 * l - 1) < 2 * k :=
        lt_of_mul_lt_mul_left (by linarith) hb.le
      have hparity : (2 * j + 1) * (2 * l - 1) = 2 * (2 * (j * l) - j + l) - 1 := by ring
      omega
    have hlk : 2 * k + 1 ≤ (2 * j + 1) * (2 * l + 1) := by
      have hle : 2 * k ≤ (2 * j + 1) * (2 * l + 1) := le_of_mul_le_mul_left (by linarith) hb
      have hparity : (2 * j + 1) * (2 * l + 1) = 2 * (2 * (j * l) + j + l) + 1 := by ring
      omega
    constructor
    · calc b * (2 * j + 1) * (2 * l - 1) = b * ((2 * j + 1) * (2 * l - 1)) := by ring
        _ ≤ b * (2 * k - 1) := mul_le_mul_of_nonneg_left hkl hb.le
        _ < 2 * a := hlow
    · calc 2 * a ≤ b * (2 * k + 1) := hhigh
        _ ≤ b * ((2 * j + 1) * (2 * l + 1)) := mul_le_mul_of_nonneg_left hlk hb.le
        _ = b * (2 * j + 1) * (2 * l + 1) := by ring
  · have hdown := Int.tdiv_nonneg (show 0 ≤ -a by omega) hb.le
    rw [Int.neg_tdiv] at hdown
    have hcount : b * a.tdiv b ≤ 0 := Int.mul_nonpos_of_nonneg_of_nonpos hb.le (by omega)
    rw [roundedQuotient_of_nonpos hb ha, roundedQuotient_of_nonpos hbn hcount,
      roundedQuotient_of_nonpos hbn ha]
    exact (tdiv_mul_tdiv_iff hb hbn).mpr (Int.dvd_mul_right b n) a

/-- Over an even number of divisors the number just beyond the half is moved onto it. -/
theorem roundedQuotient_half (hb : 1 < b) {j : ℤ} (hj : 0 < j) :
    roundedQuotient (b * (2 * j)) (b * roundedQuotient b (b * j + 1)) = 0 ∧
      roundedQuotient (b * (2 * j)) (b * j + 1) = 1 := by
  have hbj : 1 < b * j := by nlinarith
  have hdouble : b * (2 * j) = 2 * (b * j) := by ring
  have hstay : roundedQuotient b (b * j + 1) = j := by
    rw [roundedQuotient_eq_iff (by omega) (by omega)]
    constructor <;> nlinarith
  rw [hstay, roundedQuotient_eq_iff (by omega) (by omega), roundedQuotient_eq_iff (by omega)
    (by omega), hdouble]
  omega

/-- Rounding to the nearest in two steps is rounding once exactly over an odd number of divisors,
or from the divisor one. -/
theorem roundedQuotient_mul_iff (hb : 0 < b) (hm : 0 < m) :
    (∀ a, roundedQuotient m (b * roundedQuotient b a) = roundedQuotient m a) ↔
      ∃ n, m = b * n ∧ (b = 1 ∨ Odd n) := by
  constructor
  · intro h
    have hbelow : (b * (-m).tdiv b).tdiv m = (-m).tdiv m := by
      have hopposite := Int.tdiv_nonneg hm.le hb.le
      have hcount : b * (-m).tdiv b ≤ 0 := by
        rw [Int.neg_tdiv]
        exact Int.mul_nonpos_of_nonneg_of_nonpos hb.le (by omega)
      rw [← roundedQuotient_of_nonpos hm hcount, ← roundedQuotient_of_nonpos hb (by omega), h,
        roundedQuotient_of_nonpos hm (by omega)]
    rw [Int.neg_tdiv, Int.neg_tdiv, Int.mul_neg, Int.neg_tdiv, neg_inj] at hbelow
    obtain ⟨n, rfl⟩ := dvd_of_tdiv_mul_tdiv hb hm (hbelow.trans (Int.tdiv_self hm.ne'))
    refine ⟨n, rfl, ?_⟩
    by_contra hneither
    rw [not_or, Int.not_odd_iff_even] at hneither
    obtain ⟨hone, j, hj⟩ := hneither
    have hn : 0 < n := (mul_pos_iff_of_pos_left hb).mp hm
    obtain rfl : n = 2 * j := by omega
    obtain ⟨hzero, hnonzero⟩ := roundedQuotient_half (show 1 < b by omega) (show 0 < j by omega)
    rw [h, hnonzero] at hzero
    cases hzero
  · rintro ⟨n, rfl, hone | hodd⟩ a
    · rw [hone, show a = 1 * a by omega, roundedQuotient_mul Int.one_pos]
    · exact roundedQuotient_mul_of_odd hb ((mul_pos_iff_of_pos_left hb).mp hm) hodd a

end TruncatedDivision
