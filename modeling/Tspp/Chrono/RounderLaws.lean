import Tspp.Chrono.RoundToMultiple

/-!
# Laws of the three rounders

The rounders share their divisor, the duration in whole units, which is zero for a duration of
less than a unit. For any other duration each of them multiplies the whole units by a quotient
of the time point that never decreases, so that they keep the order of time points.
-/

namespace Tspp

namespace ChronoExtensions

open TruncatedDivision

/-- The rounders, each of a unit, a time point and a duration. -/
def rounders : List (ℤ → ℤ → ℤ → Except Fault ℤ) :=
  [roundUpToNearestDuration, roundDownToNearestDuration, roundNearestToNearestDuration]

/-- No rounder of the time point computes a remainder by zero. -/
def NoneDividesByZero (unit t d : ℤ) : Prop :=
  ∀ round ∈ rounders, round unit t d ≠ .error .divisionByZero

section Divisor

variable {round : ℤ → ℤ → ℤ → Except Fault ℤ} {unit d : ℤ}

/-- Every rounder computes one remainder, by the duration in whole units. -/
theorem exists_eq_map_remainder (h : round ∈ rounders) (unit t d : ℤ) :
    ∃ move : ℤ → ℤ,
      round unit t d = (remainder (durationCast unit t) (durationCast unit d)).map move := by
  simp only [rounders, List.mem_cons, List.not_mem_nil, or_false] at h
  rcases h with rfl | rfl | rfl
  · refine ⟨fun modTicks => t + max (durationCast unit d - modTicks) 0 * unit, ?_⟩
    simp only [roundUpToNearestDuration]
    cases remainder (durationCast unit t) (durationCast unit d) <;> rfl
  · refine ⟨fun modTicks => t - modTicks * unit, ?_⟩
    simp only [roundDownToNearestDuration]
    cases remainder (durationCast unit t) (durationCast unit d) <;> rfl
  · refine ⟨fun modTicks =>
      t + (if modTicks > (durationCast unit d).tdiv 2 then durationCast unit d else 0) * unit -
        modTicks * unit, ?_⟩
    simp only [roundNearestToNearestDuration]
    cases remainder (durationCast unit t) (durationCast unit d) <;> rfl

/-- A positive duration is cast to zero exactly if it is less than a unit. -/
theorem durationCast_eq_zero_iff (hu : 0 < unit) (hd : 0 < d) :
    durationCast unit d = 0 ↔ d < unit := by
  constructor
  · intro hzero
    by_contra hle
    exact (durationCast_pos hu (not_lt.mp hle)).ne' hzero
  · intro hlt
    exact Int.tdiv_eq_zero_of_lt hd.le hlt

/-- A rounder divides by zero exactly for a duration of less than a unit. -/
theorem round_eq_divisionByZero_iff (h : round ∈ rounders) (t : ℤ) (hu : 0 < unit) (hd : 0 < d) :
    round unit t d = .error .divisionByZero ↔ d < unit := by
  obtain ⟨move, hmove⟩ := exists_eq_map_remainder h unit t d
  rw [hmove, ← durationCast_eq_zero_iff hu hd, remainder]
  split
  · next hzero => exact iff_of_true rfl hzero
  · next hne =>
    refine iff_of_false ?_ hne
    intro herror
    cases herror

end Divisor

/-- For a positive duration, a number of periods of any length, no rounder divides by zero exactly
if the duration lasts at least a unit. -/
theorem rounders_not_divisionByZero_iff (unit t count period : ℤ) (hu : 0 < unit)
    (hcount : 0 < count) (hperiod : 0 < period) :
    NoneDividesByZero unit t (count * period) ↔ unit ≤ count * period := by
  have hd : 0 < count * period := Int.mul_pos hcount hperiod
  constructor
  · intro hnone
    have hup := hnone roundUpToNearestDuration List.mem_cons_self
    rwa [Ne, round_eq_divisionByZero_iff List.mem_cons_self t hu hd, not_lt] at hup
  · intro hle round hround
    rw [Ne, round_eq_divisionByZero_iff hround t hu hd]
    exact not_lt.mpr hle

/-- A thousand periods of a microsecond last a millisecond. -/
theorem rounders_not_divisionByZero_thousand : NoneDividesByZero 1000000 7 (1000 * 1000) :=
  (rounders_not_divisionByZero_iff 1000000 7 1000 1000 (by decide) (by decide) (by decide)).mpr
    (by decide)

/-- Five hundred microseconds are no millisecond, and every rounder divides by zero. -/
theorem rounders_divisionByZero_five_hundred :
    ¬ NoneDividesByZero 1000000 0 (500 * 1000) ∧
      rounders.map (fun round => round 1000000 0 (500 * 1000)) =
        [.error .divisionByZero, .error .divisionByZero, .error .divisionByZero] := by
  refine ⟨fun hnone => ?_, rfl⟩
  exact hnone roundUpToNearestDuration List.mem_cons_self rfl

section Quotients

variable {round : ℤ → ℤ → ℤ → Except Fault ℤ} {unit d s t : ℤ}

/-- Rounding to the nearest yields the multiple of the rounded quotient. -/
theorem roundNearest_eq_mul (hu : 0 < unit) (hd : unit ≤ d) (ht : unit ∣ t) :
    roundNearestToNearestDuration unit t d =
      .ok (wholeUnits unit d * roundedQuotient (wholeUnits unit d) t) := by
  rw [roundNearest_eq hu hd ht, roundUp_eq hu hd ht, roundDown_eq hu hd ht, roundedQuotient]
  split <;> rfl

/-- Every rounder yields the whole units of the duration, multiplied by a quotient that never
decreases. -/
theorem exists_quotient (h : round ∈ rounders) (hu : 0 < unit) (hd : unit ≤ d) :
    ∃ quotient : ℤ → ℤ, (∀ s t, s ≤ t → quotient s ≤ quotient t) ∧
      ∀ t, unit ∣ t → round unit t d = .ok (wholeUnits unit d * quotient t) := by
  have hwhole := wholeUnits_pos hu hd
  simp only [rounders, List.mem_cons, List.not_mem_nil, or_false] at h
  rcases h with rfl | rfl | rfl
  · refine ⟨fun t => t.tdiv (wholeUnits unit d) + 1, ?_, fun t ht => roundUp_eq hu hd ht⟩
    intro s t hst
    exact Int.add_le_add_right (Int.tdiv_le_tdiv hwhole hst) 1
  · exact ⟨fun t => t.tdiv (wholeUnits unit d), fun s t hst => Int.tdiv_le_tdiv hwhole hst,
      fun t ht => roundDown_eq hu hd ht⟩
  · exact ⟨roundedQuotient (wholeUnits unit d), fun s t hst => roundedQuotient_le hwhole hst,
      fun t ht => roundNearest_eq_mul hu hd ht⟩

/-- A rounder that leaves the multiples of the whole units where they are is idempotent. -/
theorem idempotentAt_of_quotient {round : ℤ → Except Fault ℤ} {quotient : ℤ → ℤ}
    (hround : ∀ t, unit ∣ t → round t = .ok (wholeUnits unit d * quotient t))
    (hfix : ∀ c, quotient (wholeUnits unit d * c) = c) (ht : unit ∣ t) :
    IdempotentAt round t := by
  have hwhole : unit ∣ wholeUnits unit d * quotient t :=
    Int.dvd_mul_of_dvd_left (Int.dvd_mul_left _ _)
  rw [IdempotentAt, hround t ht]
  change round (wholeUnits unit d * quotient t) = _
  rw [hround _ hwhole, hfix]

end Quotients

/-- The rounders keep the order of two time points and yield multiples of `step`: up one step
beyond down, and the nearest one of both. Down and the nearest are left where they are. -/
structure RoundersBracket (unit d step s t : ℤ) : Prop where
  monotone : ∀ round ∈ rounders, ∃ r r', round unit s d = .ok r ∧ round unit t d = .ok r' ∧ r ≤ r'
  multiples : ∀ round ∈ rounders, ∃ r, round unit t d = .ok r ∧ step ∣ r
  up_eq : ∃ r, roundDownToNearestDuration unit t d = .ok r ∧
    roundUpToNearestDuration unit t d = .ok (r + step)
  nearest_eq : roundNearestToNearestDuration unit t d = roundDownToNearestDuration unit t d ∨
    roundNearestToNearestDuration unit t d = roundUpToNearestDuration unit t d
  down_idempotent : IdempotentAt (roundDownToNearestDuration unit · d) t
  nearest_idempotent : IdempotentAt (roundNearestToNearestDuration unit · d) t

section Bracket

variable {unit d step s t : ℤ}

/-- With the whole units of the duration for the step the rounders bracket. -/
theorem roundersBracket_wholeUnits (hu : 0 < unit) (hd : unit ≤ d) (hs : unit ∣ s) (ht : unit ∣ t)
    (hst : s ≤ t) : RoundersBracket unit d (wholeUnits unit d) s t := by
  have hwhole := wholeUnits_pos hu hd
  constructor
  · intro round hround
    obtain ⟨quotient, hmono, heq⟩ := exists_quotient hround hu hd
    exact ⟨_, _, heq s hs, heq t ht, Int.mul_le_mul_of_nonneg_left (hmono s t hst) hwhole.le⟩
  · intro round hround
    obtain ⟨quotient, _, heq⟩ := exists_quotient hround hu hd
    exact ⟨_, heq t ht, Int.dvd_mul_right _ _⟩
  · refine ⟨_, roundDown_eq hu hd ht, ?_⟩
    rw [roundUp_eq hu hd ht, Int.mul_add, Int.mul_one]
  · rw [roundNearest_eq hu hd ht]
    split
    · exact Or.inr rfl
    · exact Or.inl rfl
  · exact idempotentAt_of_quotient (fun t ht => roundDown_eq hu hd ht)
      (fun c => Int.mul_tdiv_cancel_left c hwhole.ne') ht
  · exact idempotentAt_of_quotient (fun t ht => roundNearest_eq_mul hu hd ht)
      (roundedQuotient_mul hwhole) ht

/-- The rounders are one step apart, so that only the whole units of the duration are a step. -/
theorem RoundersBracket.step_eq (hu : 0 < unit) (hd : unit ≤ d) (ht : unit ∣ t)
    (h : RoundersBracket unit d step s t) : step = wholeUnits unit d := by
  obtain ⟨r, hdown, hup⟩ := h.up_eq
  rw [roundDown_eq hu hd ht] at hdown
  rw [roundUp_eq hu hd ht, ← Except.ok.inj hdown, Int.mul_add, Int.mul_one] at hup
  have hsum := Except.ok.inj hup
  omega

end Bracket

/-- For whole units and a duration of at least one unit the rounders keep the order of two time
points and bracket with the whole units of the duration for the step, and with the duration
itself exactly if it is a whole number of units. -/
theorem roundersBracket_iff (unit d s t : ℤ) (hu : 0 < unit) (hd : unit ≤ d) (hs : unit ∣ s)
    (ht : unit ∣ t) (hst : s ≤ t) :
    RoundersBracket unit d (wholeUnits unit d) s t ∧
      (RoundersBracket unit d d s t ↔ unit ∣ d) := by
  have hbracket := roundersBracket_wholeUnits hu hd hs ht hst
  refine ⟨hbracket, ?_, ?_⟩
  · intro h
    rw [h.step_eq hu hd ht]
    exact Int.dvd_mul_left _ unit
  · intro hud
    rwa [wholeUnits_of_dvd hud] at hbracket

/-- Three milliseconds before and four after the epoch, and a duration of five. -/
theorem roundersBracket_around_epoch :
    RoundersBracket 1000000 5000000 5000000 (-3000000) 4000000 :=
  (roundersBracket_iff 1000000 5000000 (-3000000) 4000000 (by decide) (by decide) (by decide)
    (by decide) (by decide)).2.mpr (by decide)

/-- With a duration of one and a half milliseconds the rounders are one millisecond apart. -/
theorem not_roundersBracket_half :
    (1000000 : ℤ) ≤ 1500000 ∧ ¬ RoundersBracket 1000000 1500000 1500000 0 0 := by
  refine ⟨by decide, fun h => ?_⟩
  have hstep := h.step_eq (by decide) (by decide) (by decide)
  exact absurd hstep (by decide)

/-- Resampling ordered whole units with any of the rounders yields strictly increasing keys that
are multiples of the whole units of the duration. -/
theorem resampleAndAgg_rounders {V O : Type} {round : ℤ → ℤ → ℤ → Except Fault ℤ} {unit d : ℤ}
    {ts : TimeSeries ℤ V} (h : round ∈ rounders) (hu : 0 < unit) (hd : unit ≤ d)
    (hts : ts.NonDecreasing) (hkeys : ∀ k ∈ ts.keys, unit ∣ k) (aggfn : List V → O) :
    ∃ result, ts.resampleAndAgg (round unit · d) aggfn = .ok result ∧
      result.StrictlyIncreasing ∧ ∀ k ∈ result.keys, wholeUnits unit d ∣ k := by
  obtain ⟨quotient, hmono, heq⟩ := exists_quotient h hu hd
  have hgroup : ∀ k ∈ ts.keys, round unit k d = .ok (wholeUnits unit d * quotient k) :=
    fun k hk => heq k (hkeys k hk)
  have hok := ts.resampleAndAgg_eq_runs aggfn hgroup
  refine ⟨_, hok, ?_, ?_⟩
  · have hmul : Monotone fun t => wholeUnits unit d * quotient t :=
      fun s t hst => Int.mul_le_mul_of_nonneg_left (hmono s t hst) (wholeUnits_pos hu hd).le
    exact TimeSeries.resampleAndAgg_increasing hts hmul (ts.resampleAndAgg_ok_eq_runs _ aggfn)
  · intro k hk
    obtain ⟨x, _, rfl⟩ := (TimeSeries.mem_keys_of_resampleAndAgg hgroup hok).mp hk
    exact Int.dvd_mul_right _ _

end ChronoExtensions

end Tspp
