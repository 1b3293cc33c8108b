import Tspp.Chrono.Rounder

/-!
# Rounding to multiples of a duration

Every rounder yields a multiple of the whole units of the duration: the truncated quotient of
the time point, or one more. Against the multiples of the duration itself this misses on the
far side of the epoch, at exact multiples, and by the part of the duration below a unit.
-/

namespace Tspp

namespace ChronoExtensions

open TruncatedDivision

section Values

variable {unit d t : ℤ}

/-- Rounding down yields the truncated multiple. -/
theorem roundDown_eq (hu : 0 < unit) (hd : unit ≤ d) (ht : unit ∣ t) :
    roundDownToNearestDuration unit t d =
      .ok (wholeUnits unit d * t.tdiv (wholeUnits unit d)) := by
  rw [roundDown_eq_ok hu hd, sub_excess_eq hu ht]

/-- Rounding up yields the multiple after the truncated one. -/
theorem roundUp_eq (hu : 0 < unit) (hd : unit ≤ d) (ht : unit ∣ t) :
    roundUpToNearestDuration unit t d =
      .ok (wholeUnits unit d * (t.tdiv (wholeUnits unit d) + 1)) := by
  rw [roundUp_eq_ok hu hd, sub_excess_eq hu ht, Int.mul_add, Int.mul_one]

/-- Rounding to the nearest goes up where twice the remainder exceeds the duration, and else
down. -/
theorem roundNearest_eq (hu : 0 < unit) (hd : unit ≤ d) (ht : unit ∣ t) :
    roundNearestToNearestDuration unit t d =
      if wholeUnits unit d < 2 * t.tmod (wholeUnits unit d) then
        roundUpToNearestDuration unit t d else roundDownToNearestDuration unit t d := by
  have hdur := durationCast_pos hu hd
  have hexcess := excess_eq (d := d) hu ht
  have hcase : (durationCast unit d).tdiv 2 < (durationCast unit t).tmod (durationCast unit d) ↔
      wholeUnits unit d < 2 * t.tmod (wholeUnits unit d) := by
    rw [tdiv_two_lt_iff hdur.le, ← hexcess, wholeUnits, excess, ← Int.mul_assoc,
      Int.mul_lt_mul_right hu]
  simp only [roundNearestToNearestDuration, remainder, if_neg hdur.ne', bind, Except.bind, pure,
    Except.pure, gt_iff_lt, hcase]
  rw [roundUp_eq_ok hu hd, roundDown_eq_ok hu hd]
  split
  · rw [wholeUnits, excess]
    congr 1
    omega
  · rw [excess]
    congr 1
    omega

/-- A duration is its whole units and a rest of less than a unit. -/
theorem wholeUnits_add_tmod (unit d : ℤ) : wholeUnits unit d + d.tmod unit = d :=
  Int.tdiv_mul_add_tmod d unit

theorem wholeUnits_pos (hu : 0 < unit) (hd : unit ≤ d) : 0 < wholeUnits unit d :=
  Int.mul_pos (durationCast_pos hu hd) hu

/-- A multiple of the whole units is one of the duration exactly if as many rests are one. -/
theorem dvd_wholeUnits_mul_iff (q : ℤ) : d ∣ wholeUnits unit d * q ↔ d ∣ d.tmod unit * q := by
  have hsplit : wholeUnits unit d * q + d.tmod unit * q = d * q := by
    rw [← Int.add_mul, wholeUnits_add_tmod]
  exact Int.dvd_iff_dvd_of_dvd_add (hsplit ▸ Int.dvd_mul_right d q)

/-- The truncated remainder by whole units is a whole number of units. -/
theorem dvd_tmod_wholeUnits (hu : 0 < unit) (ht : unit ∣ t) :
    unit ∣ t.tmod (wholeUnits unit d) := by
  rw [← excess_eq hu ht]
  exact Int.dvd_mul_left _ unit

end Values

/-- Rounding up yields the least multiple of the duration that is not before the time point. -/
def RoundsUpToLeast (unit d t : ℤ) : Prop :=
  ∃ r, roundUpToNearestDuration unit t d = .ok r ∧ IsLeast {m | d ∣ m ∧ t ≤ m} r

/-- Rounding a rounded time point again changes nothing. -/
def IdempotentAt (round : ℤ → Except Fault ℤ) (t : ℤ) : Prop := (round t >>= round) = round t

section RoundUp

variable {unit d t : ℤ}

/-- A remainder exceeds the negated rest of the duration exactly if it is positive, or zero
where there is a rest. -/
theorem neg_rest_lt_tmod_iff (hu : 0 < unit) (hd : unit ≤ d) (ht : unit ∣ t) :
    -d.tmod unit < t.tmod (wholeUnits unit d) ↔
      0 < t ∧ ¬ wholeUnits unit d ∣ t ∨ wholeUnits unit d ∣ t ∧ ¬ unit ∣ d := by
  rw [← tmod_pos_iff, Int.dvd_iff_tmod_eq_zero (a := wholeUnits unit d),
    Int.dvd_iff_tmod_eq_zero (a := unit)]
  have hrest0 := Int.tmod_nonneg unit (show 0 ≤ d by omega)
  have hrest := Int.tmod_lt_of_pos d hu
  -- A remainder below zero is at least a unit below.
  have hunits : t.tmod (wholeUnits unit d) < 0 → unit ≤ -t.tmod (wholeUnits unit d) := by
    intro hneg
    exact Int.le_of_dvd (by omega) (Int.dvd_neg.mpr (dvd_tmod_wholeUnits hu ht))
  omega

/-- Rounding up goes strictly beyond the time point. -/
theorem lt_roundUp (hu : 0 < unit) (hd : unit ≤ d) (t : ℤ) :
    t < wholeUnits unit d * (t.tdiv (wholeUnits unit d) + 1) := by
  have hsplit := Int.mul_tdiv_add_tmod t (wholeUnits unit d)
  have hlt := Int.tmod_lt_of_pos t (wholeUnits_pos hu hd)
  rw [Int.mul_add, Int.mul_one]
  omega

/-- Rounding up yields the least multiple exactly if it yields a multiple and the time point
lies after the epoch between two multiples, or is a multiple of the whole units where the
duration has a rest. -/
theorem roundsUpToLeast_iff (hu : 0 < unit) (hd : unit ≤ d) (ht : unit ∣ t) :
    RoundsUpToLeast unit d t ↔
      d ∣ d.tmod unit * (t.tdiv (wholeUnits unit d) + 1) ∧
        (0 < t ∧ ¬ wholeUnits unit d ∣ t ∨ wholeUnits unit d ∣ t ∧ ¬ unit ∣ d) := by
  have hsplit := Int.mul_tdiv_add_tmod t (wholeUnits unit d)
  have hbeyond := lt_roundUp hu hd t
  have hrest := wholeUnits_add_tmod unit d
  rw [← neg_rest_lt_tmod_iff hu hd ht, ← dvd_wholeUnits_mul_iff]
  simp only [RoundsUpToLeast, roundUp_eq hu hd ht, Except.ok.injEq, exists_eq_left']
  rw [isLeast_multiple_iff (Int.lt_of_lt_of_le hu hd)]
  refine and_congr_right fun _ => ?_
  rw [Int.mul_add, Int.mul_one] at hbeyond ⊢
  omega

/-- For whole units and a duration of at least one unit: rounding up yields the least multiple
exactly if it yields a multiple and the time point lies after the epoch between two multiples,
or is a multiple of the whole units where the duration has a rest; it is nowhere idempotent,
and it leaves no time point where it is. -/
theorem roundUp_isLeast_iff (unit d t : ℤ) (hu : 0 < unit) (hd : unit ≤ d) (ht : unit ∣ t) :
    (RoundsUpToLeast unit d t ↔
      d ∣ d.tmod unit * (t.tdiv (wholeUnits unit d) + 1) ∧
        (0 < t ∧ ¬ wholeUnits unit d ∣ t ∨ wholeUnits unit d ∣ t ∧ ¬ unit ∣ d)) ∧
      ¬ IdempotentAt (roundUpToNearestDuration unit · d) t ∧
      roundUpToNearestDuration unit t d ≠ .ok t := by
  refine ⟨roundsUpToLeast_iff hu hd ht, ?_, ?_⟩
  · -- The result is a whole number of units, so it is moved on by one more duration.
    have hwhole : unit ∣ wholeUnits unit d * (t.tdiv (wholeUnits unit d) + 1) :=
      Int.dvd_mul_of_dvd_left (Int.dvd_mul_left _ _)
    intro hidem
    simp only [IdempotentAt, roundUp_eq hu hd ht, bind, Except.bind, roundUp_eq hu hd hwhole,
      Except.ok.injEq] at hidem
    exact (lt_roundUp hu hd _).ne' hidem
  · rw [roundUp_eq hu hd ht]
    intro hsame
    exact (lt_roundUp hu hd t).ne' (Except.ok.inj hsame)

/-- The first second is rounded up to five minutes, in clock ticks of a nanosecond. -/
theorem roundUp_isLeast_first_second :
    RoundsUpToLeast 1000000 300000000000 1000000000 :=
  (roundUp_isLeast_iff 1000000 300000000000 1000000000 (by decide) (by decide) (by decide)).1.mpr
    (by decide)

/-- Five minutes are moved on to ten, and a millisecond before the epoch goes to five minutes. -/
theorem not_roundsUpToLeast_five_minutes :
    ¬ RoundsUpToLeast 1000000 300000000000 300000000000 ∧
      ¬ RoundsUpToLeast 1000000 300000000000 (-1000000) := by
  constructor
  · intro ⟨r, hr, hleast⟩
    obtain rfl : 600000000000 = r := Except.ok.inj hr
    rw [isLeast_multiple_iff (by decide)] at hleast
    exact absurd hleast.2.2 (by decide)
  · intro ⟨r, hr, hleast⟩
    obtain rfl : 300000000000 = r := Except.ok.inj hr
    rw [isLeast_multiple_iff (by decide)] at hleast
    exact absurd hleast.2.2 (by decide)

end RoundUp

/-- Rounding down yields the greatest multiple of the duration that is not after the time
point. -/
def RoundsDownToGreatest (unit d t : ℤ) : Prop :=
  ∃ r, roundDownToNearestDuration unit t d = .ok r ∧ IsGreatest {m | d ∣ m ∧ m ≤ t} r

/-- Rounding to the nearest yields a multiple of the duration at most half of one away. -/
def RoundsToNearest (unit d t : ℤ) : Prop :=
  ∃ r, roundNearestToNearestDuration unit t d = .ok r ∧ d ∣ r ∧ 2 * |r - t| ≤ d

section RoundDown

variable {unit d t : ℤ}

/-- Rounding down yields the greatest multiple exactly if it yields a multiple and the time
point is not before the epoch, or is a multiple of the whole units. -/
theorem roundsDownToGreatest_iff (hu : 0 < unit) (hd : unit ≤ d) (ht : unit ∣ t) :
    RoundsDownToGreatest unit d t ↔
      d ∣ d.tmod unit * t.tdiv (wholeUnits unit d) ∧ (0 ≤ t ∨ wholeUnits unit d ∣ t) := by
  have hsplit := Int.mul_tdiv_add_tmod t (wholeUnits unit d)
  have hlt := Int.tmod_lt_of_pos t (wholeUnits_pos hu hd)
  have hrest := wholeUnits_add_tmod unit d
  have hrest0 := Int.tmod_nonneg unit (hu.le.trans hd)
  rw [← tmod_nonneg_iff, ← dvd_wholeUnits_mul_iff]
  simp only [RoundsDownToGreatest, roundDown_eq hu hd ht, Except.ok.injEq, exists_eq_left']
  rw [isGreatest_multiple_iff (Int.lt_of_lt_of_le hu hd)]
  refine and_congr_right fun _ => ?_
  omega

/-- Where the remainder is more than half the duration, going up leaves less than half. -/
theorem roundsToNearest_iff_of_up (hu : 0 < unit) (hd : unit ≤ d) (ht : unit ∣ t)
    (hup : wholeUnits unit d < 2 * t.tmod (wholeUnits unit d)) :
    RoundsToNearest unit d t ↔ d ∣ d.tmod unit * (t.tdiv (wholeUnits unit d) + 1) := by
  have hsplit := Int.mul_tdiv_add_tmod t (wholeUnits unit d)
  have hbeyond := lt_roundUp hu hd t
  have hrest := wholeUnits_add_tmod unit d
  have hrest0 := Int.tmod_nonneg unit (hu.le.trans hd)
  rw [← dvd_wholeUnits_mul_iff]
  simp only [RoundsToNearest, roundNearest_eq hu hd ht, if_pos hup, roundUp_eq hu hd ht,
    Except.ok.injEq, exists_eq_left']
  refine and_iff_left ?_
  rw [abs_of_pos (by omega)]
  rw [Int.mul_add, Int.mul_one] at hbeyond ⊢
  omega

/-- Elsewhere going down leaves the remainder. -/
theorem roundsToNearest_iff_of_down (hu : 0 < unit) (hd : unit ≤ d) (ht : unit ∣ t)
    (hdown : ¬ wholeUnits unit d < 2 * t.tmod (wholeUnits unit d)) :
    RoundsToNearest unit d t ↔
      d ∣ d.tmod unit * t.tdiv (wholeUnits unit d) ∧ -d ≤ 2 * t.tmod (wholeUnits unit d) := by
  have hsplit := Int.mul_tdiv_add_tmod t (wholeUnits unit d)
  have hrest := wholeUnits_add_tmod unit d
  have hrest0 := Int.tmod_nonneg unit (hu.le.trans hd)
  have hdistance : wholeUnits unit d * t.tdiv (wholeUnits unit d) - t =
      -t.tmod (wholeUnits unit d) := by omega
  rw [← dvd_wholeUnits_mul_iff]
  simp only [RoundsToNearest, roundNearest_eq hu hd ht, if_neg hdown, roundDown_eq hu hd ht,
    Except.ok.injEq, exists_eq_left']
  refine and_congr_right fun _ => ?_
  rw [hdistance, abs_neg, Int.abs_eq_natAbs]
  omega

/-- For whole units and a duration of at least one unit: rounding down yields the greatest
multiple exactly if it yields a multiple and the time point is not before the epoch, or is a
multiple of the whole units; rounding to the nearest yields a multiple at most half of one away
exactly if what it goes to is one, and the remainder is not below the negated half. -/
theorem roundDown_roundNearest_iff (unit d t : ℤ) (hu : 0 < unit) (hd : unit ≤ d)
    (ht : unit ∣ t) :
    (RoundsDownToGreatest unit d t ↔
      d ∣ d.tmod unit * t.tdiv (wholeUnits unit d) ∧ (0 ≤ t ∨ wholeUnits unit d ∣ t)) ∧
      (RoundsToNearest unit d t ↔
        if wholeUnits unit d < 2 * t.tmod (wholeUnits unit d) then
          d ∣ d.tmod unit * (t.tdiv (wholeUnits unit d) + 1)
        else d ∣ d.tmod unit * t.tdiv (wholeUnits unit d) ∧
          -d ≤ 2 * t.tmod (wholeUnits unit d)) := by
  refine ⟨roundsDownToGreatest_iff hu hd ht, ?_⟩
  split
  case isTrue hup => exact roundsToNearest_iff_of_up hu hd ht hup
  case isFalse hdown => exact roundsToNearest_iff_of_down hu hd ht hdown

/-- Two seconds before the epoch and an odd duration of five seconds. -/
theorem roundNearest_before_epoch : RoundsToNearest 1 5 (-2) :=
  (roundDown_roundNearest_iff 1 5 (-2) (by decide) (by decide) (by decide)).2.mpr (by decide)

/-- Before the epoch rounding down goes up, and rounding to the nearest misses the multiple
that is one away. -/
theorem not_roundDown_roundNearest_before_epoch :
    ¬ RoundsDownToGreatest 1000000 5000000 (-1000000) ∧
      ¬ RoundsToNearest 1000000 5000000 (-4000000) := by
  constructor
  · intro ⟨r, hr, hgreatest⟩
    obtain rfl : 0 = r := Except.ok.inj hr
    exact absurd hgreatest.1.2 (by decide)
  · intro ⟨r, hr, _, hnear⟩
    obtain rfl : 0 = r := Except.ok.inj hr
    exact absurd hnear (by decide)

end RoundDown

end ChronoExtensions

end Tspp
