import Tspp.Chrono.Comparators
import Tspp.Core.TruncatedDivision
import Tspp.Series.Resample

/-!
# Rounding time points into bars

The rounders truncate a time point to whole units, take the truncated remainder by the
duration, and move the time point itself by that many units. What lies below a unit is
therefore kept, and around the epoch, where truncation changes direction, the bar of the
time points that round to the epoch is twice as wide as the others.
-/

namespace Tspp

namespace ChronoExtensions

open TruncatedDivision

/-- `%` on counts, which has no meaning for a zero divisor. -/
def remainder (a b : ℤ) : Except Fault ℤ :=
  if b = 0 then .error .divisionByZero else .ok (a.tmod b)

/-- `round_up_to_nearest_duration`, with a `time_arty_type` of `unit` ticks. -/
def roundUpToNearestDuration (unit timeIn duration : ℤ) : Except Fault ℤ := do
  let timeSinceEpoch := durationCast unit timeIn
  let dur := durationCast unit duration
  let modTicks ← remainder timeSinceEpoch dur
  let delta := max (dur - modTicks) 0
  return timeIn + delta * unit

/-- `round_down_to_nearest_duration`, with a `time_arty_type` of `unit` ticks. -/
def roundDownToNearestDuration (unit timeIn duration : ℤ) : Except Fault ℤ := do
  let timeSinceEpoch := durationCast unit timeIn
  let dur := durationCast unit duration
  let modTicks ← remainder timeSinceEpoch dur
  let delta := modTicks
  return timeIn - delta * unit

/-- `round_nearest_to_nearest_duration`, with a `time_arty_type` of `unit` ticks. -/
def roundNearestToNearestDuration (unit timeIn duration : ℤ) : Except Fault ℤ := do
  let timeSinceEpoch := durationCast unit timeIn
  let dur := durationCast unit duration
  let modTicks ← remainder timeSinceEpoch dur
  let offset := if modTicks > dur.tdiv 2 then dur else 0
  let delta := modTicks
  return timeIn + offset * unit - delta * unit

/-- The whole units of a duration: what the rounders use of it. -/
def wholeUnits (unit d : ℤ) : ℤ := durationCast unit d * unit

/-- The ticks by which a time point is rounded down. -/
def excess (unit d t : ℤ) : ℤ := (durationCast unit t).tmod (durationCast unit d) * unit

section Rounding

variable {unit d t : ℤ}

/-- A duration of at least one unit has a positive number of whole units. -/
theorem durationCast_pos (hu : 0 < unit) (hd : unit ≤ d) : 0 < durationCast unit d := by
  have hle := Int.tdiv_le_tdiv hu hd
  rw [Int.tdiv_self hu.ne'] at hle
  exact Int.lt_of_lt_of_le Int.one_pos hle

/-- A whole number of units is used as it is. -/
theorem wholeUnits_of_dvd (hud : unit ∣ d) : wholeUnits unit d = d := Int.tdiv_mul_cancel hud

/-- Rounding down takes the excess away. -/
theorem roundDown_eq_ok (hu : 0 < unit) (hd : unit ≤ d) (t : ℤ) :
    roundDownToNearestDuration unit t d = .ok (t - excess unit d t) := by
  have hdur := durationCast_pos hu hd
  simp only [roundDownToNearestDuration, remainder, if_neg hdur.ne']
  rfl

/-- Rounding up goes one duration beyond rounding down. -/
theorem roundUp_eq_ok (hu : 0 < unit) (hd : unit ≤ d) (t : ℤ) :
    roundUpToNearestDuration unit t d = .ok (t - excess unit d t + wholeUnits unit d) := by
  have hdur := durationCast_pos hu hd
  have hlt := Int.tmod_lt_of_pos (durationCast unit t) hdur
  have hdelta :
      t + (durationCast unit d - (durationCast unit t).tmod (durationCast unit d)) * unit =
        t - excess unit d t + wholeUnits unit d := by
    rw [Int.sub_mul, excess, wholeUnits]
    omega
  simp only [roundUpToNearestDuration, remainder, if_neg hdur.ne', bind, Except.bind, pure,
    Except.pure, max_eq_left (Int.sub_nonneg_of_le hlt.le), hdelta]

/-- A time point that is rounded to whole units is a whole number of units. -/
theorem dvd_of_dvd_sub_excess (hud : unit ∣ d) (h : d ∣ t - excess unit d t) : unit ∣ t :=
  (Int.dvd_iff_dvd_of_dvd_sub (Int.dvd_trans hud h)).mpr (Int.dvd_mul_left _ _)

/-- Whole units exceed a multiple by the truncated remainder. -/
theorem excess_eq (hu : 0 < unit) (ht : unit ∣ t) :
    excess unit d t = t.tmod (wholeUnits unit d) := by
  obtain ⟨u, rfl⟩ := ht
  rw [excess, wholeUnits, durationCast, Int.mul_tdiv_cancel_left _ hu.ne', Int.mul_comm _ unit,
    Int.mul_comm (durationCast unit d) unit, Int.mul_tmod_mul_of_pos _ _ hu]

/-- Whole units are rounded toward the epoch to a multiple of the duration. -/
theorem sub_excess_eq (hu : 0 < unit) (ht : unit ∣ t) :
    t - excess unit d t = wholeUnits unit d * t.tdiv (wholeUnits unit d) := by
  have hsplit := Int.mul_tdiv_add_tmod t (wholeUnits unit d)
  rw [excess_eq hu ht]
  omega

end Rounding

/-- Proper bars: increasing keys that are multiples of the duration, and rows less than a
duration apart in every bar. -/
structure ProperBars {V O : Type} (ts : TimeSeries ℤ V) (grpfn : ℤ → Except Fault ℤ)
    (aggfn : List V → O) (d : ℤ) (result : TimeSeries ℤ O)
    (bars : TimeSeries ℤ (List (ℤ × V))) : Prop where
  result_eq : ts.resampleAndAgg grpfn aggfn = .ok result
  /-- The rows that are aggregated together: the same grouping of rows that carry their keys. -/
  bars_eq : ts.withDates.resampleAndAgg grpfn id = .ok bars
  rows : result.rows = bars.rows.map (TimeSeries.aggregate aggfn)
  increasing : result.StrictlyIncreasing
  multiples : ∀ k ∈ result.keys, d ∣ k
  narrow : ∀ bar ∈ bars.rows, ∀ r ∈ bar.2, ∀ s ∈ bar.2, s.1 - r.1 < d

/-- No two keys on the two sides of the epoch, each less than a duration from it, are a duration
or more apart. -/
def NarrowAroundEpoch (keys : List ℤ) (d : ℤ) : Prop :=
  ∀ s ∈ keys, ∀ t ∈ keys, -d < s → t < d → t - s < d

instance (keys : List ℤ) (d : ℤ) : Decidable (NarrowAroundEpoch keys d) :=
  inferInstanceAs (Decidable (∀ s ∈ keys, ∀ t ∈ keys, -d < s → t < d → t - s < d))

section Bars

variable {V O : Type} {ts : TimeSeries ℤ V} {grpfn : ℤ → Except Fault ℤ} {g : ℤ → ℤ}
  {unit d c : ℤ}

/-- Along increasing keys a grouping by truncated quotients never decreases. -/
theorem pairwise_le_group (hd : 0 < d) (hts : ts.StrictlyIncreasing)
    (hg : ∀ k ∈ ts.keys, g k = d * (k.tdiv d + c)) :
    (ts.rows.map fun r => g r.1).Pairwise (· ≤ ·) := by
  have hkeys : (ts.keys.map g).Pairwise (· ≤ ·) := by
    rw [List.pairwise_map]
    refine hts.imp_of_mem fun hx hy hlt => ?_
    rw [hg _ hx, hg _ hy]
    have hq := Int.tdiv_le_tdiv hd hlt.le
    exact Int.mul_le_mul_of_nonneg_left (by omega) hd.le
  rw [← TimeSeries.map_fst_rows, List.map_map] at hkeys
  exact hkeys

/-- Narrow bars around the epoch make the keys narrow there. -/
theorem narrowAroundEpoch_of_narrow (hd : 0 < d) (hts : ts.StrictlyIncreasing)
    (hg : ∀ k ∈ ts.keys, g k = d * (k.tdiv d + c))
    (hnarrow : ∀ bar ∈ Runs.runs (fun r => g r.1) ts.rows, ∀ r ∈ bar.2, ∀ s ∈ bar.2,
      s.1 - r.1 < d) : NarrowAroundEpoch ts.keys d := by
  intro s hs t ht hds htd
  by_contra hwide
  -- Both keys are rounded to the epoch, so they share a bar.
  have hq : s.tdiv d = t.tdiv d := by
    rw [tdiv_eq_zero hds (by omega), tdiv_eq_zero (by omega) htd]
  obtain ⟨v, hsrow⟩ := TimeSeries.exists_row_of_mem_keys hs
  obtain ⟨w, htrow⟩ := TimeSeries.exists_row_of_mem_keys ht
  obtain ⟨bar, hbar, hsbar, htbar⟩ := Runs.exists_common_run (pairwise_le_group hd hts hg) hsrow
    htrow (by rw [hg s hs, hg t ht, hq])
  exact hwide (hnarrow bar hbar _ hsbar _ htbar)

/-- Keys that are narrow around the epoch make every bar narrow. -/
theorem narrow_of_narrowAroundEpoch (hd : 0 < d)
    (hg : ∀ k ∈ ts.keys, g k = d * (k.tdiv d + c)) (hnarrow : NarrowAroundEpoch ts.keys d) :
    ∀ bar ∈ Runs.runs (fun r => g r.1) ts.rows, ∀ r ∈ bar.2, ∀ s ∈ bar.2, s.1 - r.1 < d := by
  intro bar hbar r hr s hs
  have hrlabel := Runs.label_of_mem_runs hbar r hr
  have hslabel := Runs.label_of_mem_runs hbar s hs
  have hrk := TimeSeries.mem_keys_of_mem_rows (Runs.mem_of_mem_runs hbar r hr)
  have hsk := TimeSeries.mem_keys_of_mem_rows (Runs.mem_of_mem_runs hbar s hs)
  have hq : r.1.tdiv d = s.1.tdiv d := by
    have hsame := hrlabel.trans hslabel.symm
    simp only [hg r.1 hrk, hg s.1 hsk] at hsame
    have hcancel := Int.eq_of_mul_eq_mul_left hd.ne' hsame
    omega
  rcases sub_lt_or_around_zero hd hq with hlt | ⟨hlow, _, _, hhigh⟩
  · exact hlt
  · exact hnarrow r.1 hrk s.1 hsk hlow hhigh

/-- A grouping by truncated quotients of whole units yields proper bars exactly if the keys are
whole units and narrow around the epoch. -/
theorem properBars_iff (aggfn : List V → O) (hd : 0 < d) (hts : ts.StrictlyIncreasing)
    (hok : ∀ t, grpfn t = .ok (g t)) (hunit : ∀ t, d ∣ g t → unit ∣ t)
    (hg : ∀ t, unit ∣ t → g t = d * (t.tdiv d + c)) :
    (∃ result bars, ProperBars ts grpfn aggfn d result bars) ↔
      (∀ k ∈ ts.keys, unit ∣ k) ∧ NarrowAroundEpoch ts.keys d := by
  have hkeys : ∀ k ∈ ts.keys, grpfn k = .ok (g k) := fun k _ => hok k
  have hbars := ts.withDates_resampleAndAgg hkeys
  have hresult := ts.resampleAndAgg_eq_runs aggfn hkeys
  constructor
  · rintro ⟨result, bars, hres, hbars', _, _, hmult, hnarrow⟩
    have hwhole : ∀ k ∈ ts.keys, unit ∣ k := fun k hk => hunit k
      (hmult _ ((TimeSeries.mem_keys_of_resampleAndAgg hkeys hres).mpr ⟨k, hk, rfl⟩))
    rw [hbars] at hbars'
    cases hbars'
    rw [TimeSeries.rows_ofRows] at hnarrow
    exact ⟨hwhole, narrowAroundEpoch_of_narrow hd hts (fun k hk => hg k (hwhole k hk)) hnarrow⟩
  · rintro ⟨hwhole, hnarrow⟩
    have hgroup : ∀ k ∈ ts.keys, g k = d * (k.tdiv d + c) := fun k hk => hg k (hwhole k hk)
    refine ⟨_, _, hresult, hbars, ?_, ?_, ?_, ?_⟩
    · rw [TimeSeries.rows_ofRows, TimeSeries.rows_ofRows]
    · have hruns := Runs.runs_increasing (pairwise_le_group hd hts hgroup)
      rw [TimeSeries.strictlyIncreasing_iff_rows, TimeSeries.rows_ofRows]
      exact List.pairwise_map.mpr hruns
    · intro k hk
      obtain ⟨x, hx, rfl⟩ := (TimeSeries.mem_keys_of_resampleAndAgg hkeys hresult).mp hk
      rw [hgroup x hx]
      exact Int.dvd_mul_right d _
    · rw [TimeSeries.rows_ofRows]
      exact narrow_of_narrowAroundEpoch hd hgroup hnarrow

end Bars

/-- Resampling with either rounder yields proper bars exactly if every key is a whole number of
units and the keys are narrow around the epoch. -/
theorem resampleAndAgg_properBars_iff {V O : Type} (ts : TimeSeries ℤ V) (aggfn : List V → O)
    (unit d : ℤ) (hu : 0 < unit) (hd : 0 < d) (hud : unit ∣ d) (hts : ts.StrictlyIncreasing) :
    ((∃ result bars,
        ProperBars ts (roundUpToNearestDuration unit · d) aggfn d result bars) ↔
      (∀ k ∈ ts.keys, unit ∣ k) ∧ NarrowAroundEpoch ts.keys d) ∧
    ((∃ result bars,
        ProperBars ts (roundDownToNearestDuration unit · d) aggfn d result bars) ↔
      (∀ k ∈ ts.keys, unit ∣ k) ∧ NarrowAroundEpoch ts.keys d) := by
  have hle : unit ≤ d := Int.le_of_dvd hd hud
  have hwhole := wholeUnits_of_dvd hud
  constructor
  · refine properBars_iff (c := 1) aggfn hd hts (roundUp_eq_ok hu hle) (fun t ht => ?_)
      fun t ht => ?_
    · rw [hwhole] at ht
      exact dvd_of_dvd_sub_excess hud ((Int.dvd_add_left (Int.dvd_refl d)).mp ht)
    · rw [sub_excess_eq hu ht, hwhole, Int.mul_add, Int.mul_one]
  · refine properBars_iff (c := 0) aggfn hd hts (roundDown_eq_ok hu hle)
      (fun t ht => dvd_of_dvd_sub_excess hud ht) fun t ht => ?_
    rw [sub_excess_eq hu ht, hwhole, Int.add_zero]

/-- Whole milliseconds after the epoch, in clock ticks of a nanosecond, make proper bars. -/
theorem resampleAndAgg_properBars_after_epoch :
    ∃ result bars, ProperBars (.ofRows [((1000000 : ℤ), (2 : ℤ)), (2000000, 3), (16000000, 5)])
      (roundUpToNearestDuration 1000000 · 15000000) List.sum 15000000 result bars :=
  (resampleAndAgg_properBars_iff (.ofRows [((1000000 : ℤ), (2 : ℤ)), (2000000, 3), (16000000, 5)])
    List.sum 1000000 15000000 (by decide) (by decide) (by decide) (by decide)).1.mpr
    ⟨by decide, by decide⟩

/-- Two keys six milliseconds apart around the epoch share a bar of five milliseconds. -/
theorem resampleAndAgg_wide_bar_around_epoch :
    (TimeSeries.ofRows [((-3000000 : ℤ), (2 : ℤ)), (3000000, 3)]).StrictlyIncreasing ∧
      (¬ ∃ result bars, ProperBars (.ofRows [((-3000000 : ℤ), (2 : ℤ)), (3000000, 3)])
        (roundUpToNearestDuration 1000000 · 5000000) List.sum 5000000 result bars) ∧
      ¬ ∃ result bars, ProperBars (.ofRows [((-3000000 : ℤ), (2 : ℤ)), (3000000, 3)])
        (roundDownToNearestDuration 1000000 · 5000000) List.sum 5000000 result bars := by
  refine ⟨by decide, ?_, ?_⟩
  · rintro ⟨result, bars, h⟩
    obtain rfl : .ofRows [(5000000, [(-3000000, 2), (3000000, 3)])] = bars :=
      Except.ok.inj h.bars_eq
    have hwide := h.narrow (5000000, [(-3000000, 2), (3000000, 3)]) (by decide) (-3000000, 2)
      (by decide) (3000000, 3) (by decide)
    exact absurd hwide (by decide)
  · rintro ⟨result, bars, h⟩
    obtain rfl : .ofRows [(0, [(-3000000, 2), (3000000, 3)])] = bars :=
      Except.ok.inj h.bars_eq
    have hwide := h.narrow (0, [(-3000000, 2), (3000000, 3)]) (by decide) (-3000000, 2)
      (by decide) (3000000, 3) (by decide)
    exact absurd hwide (by decide)

end ChronoExtensions

end Tspp
