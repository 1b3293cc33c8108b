import Tspp.Chrono.RounderLaws
import Tspp.Core.NestedRounding

/-!
# Coarse bars from fine bars

Bars of a long duration can be made from bars of a short one instead of from the rows, if
rounding a time point to the short duration first does not change its long bar. The rounders
work on whole units and carry what lies below a unit along, so this is a question about counts
of units alone, and each of the three rounders answers it in its own way.
-/

namespace Tspp

namespace ChronoExtensions

open TruncatedDivision TimeSeries

/-- Resampling by `d` and then by `c` is resampling by `c`, on every series. -/
def ResamplesInStages {V : Type} (round : ℤ → ℤ → ℤ → Except Fault ℤ) (unit d c : ℤ)
    (aggfn : List V → V) : Prop :=
  ∀ ts : TimeSeries ℤ V, (ts.resampleAndAgg (round unit · d) aggfn >>= fun fine =>
    fine.resampleAndAgg (round unit · c) aggfn) = ts.resampleAndAgg (round unit · c) aggfn

/-- Series are resampled in stages exactly if time points are rounded in stages. -/
theorem resamplesInStages_iff {V : Type} [Nonempty V] {round : ℤ → ℤ → ℤ → Except Fault ℤ}
    {unit d c : ℤ} {f g : ℤ → ℤ} {aggfn : List V → V}
    (hagg : AggregatesInStages aggfn) (hf : ∀ t, round unit t d = .ok (f t))
    (hg : ∀ t, round unit t c = .ok (g t)) :
    ResamplesInStages round unit d c aggfn ↔ ∀ t, g (f t) = g t := by
  constructor
  · intro h t
    obtain ⟨v⟩ := ‹Nonempty V›
    have hone := h (.ofRows [(t, v)])
    rw [TimeSeries.resampleAndAgg_stages _ (fun k _ => hf k) hg hagg,
      TimeSeries.resampleAndAgg_eq_runs _ _ fun k _ => hg k, TimeSeries.rows_ofRows] at hone
    exact List.head_eq_of_cons_eq (congrArg (fun ts => ts.keys) (Except.ok.inj hone))
  · intro h ts
    rw [TimeSeries.resampleAndAgg_stages _ (fun k _ => hf k) hg hagg,
      TimeSeries.resampleAndAgg_eq_runs _ _ fun k _ => hg k]
    simp only [h]

section Counts

variable {unit d c t : ℤ}

/-- A time point whose count of whole units is rounded to a multiple of the duration, and whose
rest below a unit is kept. -/
def roundCount (quotient : ℤ → ℤ → ℤ) (unit d t : ℤ) : ℤ :=
  durationCast unit d * quotient (durationCast unit d) (durationCast unit t) * unit + t.tmod unit

theorem roundDown_eq_roundCount (hu : 0 < unit) (hd : unit ≤ d) (t : ℤ) :
    roundDownToNearestDuration unit t d = .ok (roundCount (fun m a => a.tdiv m) unit d t) := by
  have hsplit : durationCast unit t * unit + t.tmod unit = t := Int.tdiv_mul_add_tmod t unit
  rw [roundDown_eq_ok hu hd, roundCount, excess, Int.mul_tdiv_self, Int.sub_mul]
  congr 1
  omega

theorem roundNearest_eq_roundCount (hu : 0 < unit) (hd : unit ≤ d) (t : ℤ) :
    roundNearestToNearestDuration unit t d = .ok (roundCount roundedQuotient unit d t) := by
  have hdur := durationCast_pos hu hd
  have hsplit : durationCast unit t * unit + t.tmod unit = t := Int.tdiv_mul_add_tmod t unit
  simp only [roundNearestToNearestDuration, remainder, if_neg hdur.ne', bind, Except.bind, pure,
    Except.pure, gt_iff_lt, tdiv_two_lt_iff hdur.le, roundCount, roundedQuotient]
  congr 1
  split
  · rw [Int.mul_add, Int.mul_one, Int.mul_tdiv_self, Int.add_mul, Int.sub_mul]
    omega
  · rw [Int.mul_tdiv_self, Int.sub_mul, Int.zero_mul]
    omega

/-- A count together with a rest below a unit has that many whole units, where both are on one
side of zero. -/
theorem durationCast_count (hu : 0 < unit) {p : ℤ} (hpos : 0 ≤ durationCast unit t → 0 ≤ p)
    (hneg : durationCast unit t ≤ 0 → p ≤ 0) :
    durationCast unit (p * unit + t.tmod unit) = p := by
  have hbeyond : ∀ q s : ℤ, 0 ≤ q → 0 ≤ s → s < unit → (q * unit + s).tdiv unit = q := by
    intro q s hq hs hlt
    have hmul := Int.mul_nonneg hq hu.le
    rw [Int.tdiv_eq_ediv_of_nonneg (by omega), Int.add_comm, Int.add_mul_ediv_right _ _ hu.ne',
      Int.ediv_eq_zero_of_lt hs hlt, Int.zero_add]
  rcases le_total 0 t with ht | ht
  · exact hbeyond p _ (hpos (Int.tdiv_nonneg ht hu.le)) (Int.tmod_nonneg unit ht)
      (Int.tmod_lt_of_pos t hu)
  · have hopposite := Int.tdiv_nonneg (show 0 ≤ -t by omega) hu.le
    have hrest := Int.tmod_nonneg unit (show 0 ≤ -t by omega)
    have hlt := Int.tmod_lt_of_pos (-t) hu
    rw [Int.neg_tdiv] at hopposite
    rw [Int.neg_tmod] at hrest hlt
    have hp : p ≤ 0 := hneg (by rw [durationCast]; omega)
    have hnegated := hbeyond (-p) (-t.tmod unit) (by omega) hrest hlt
    rw [Int.neg_mul, ← Int.neg_add, Int.neg_tdiv] at hnegated
    exact Int.neg_inj.mp hnegated

/-- Rounding a rounded count rounds the count again and keeps the same rest. -/
theorem roundCount_roundCount {quotient : ℤ → ℤ → ℤ} (hu : 0 < unit) (hd : unit ≤ d)
    (hpos : ∀ m a, 0 < m → 0 ≤ a → 0 ≤ quotient m a)
    (hneg : ∀ m a, 0 < m → a ≤ 0 → quotient m a ≤ 0) (t : ℤ) :
    roundCount quotient unit c (roundCount quotient unit d t) =
      durationCast unit c * quotient (durationCast unit c)
        (durationCast unit d * quotient (durationCast unit d) (durationCast unit t)) * unit +
        t.tmod unit := by
  have hdur := durationCast_pos hu hd
  have hcount : durationCast unit (roundCount quotient unit d t) =
      durationCast unit d * quotient (durationCast unit d) (durationCast unit t) :=
    durationCast_count hu (fun ht => Int.mul_nonneg hdur.le (hpos _ _ hdur ht))
      fun ht => Int.mul_nonpos_of_nonneg_of_nonpos hdur.le (hneg _ _ hdur ht)
  have hrest : (roundCount quotient unit d t).tmod unit = t.tmod unit := by
    have hsplit : durationCast unit (roundCount quotient unit d t) * unit +
        (roundCount quotient unit d t).tmod unit = roundCount quotient unit d t :=
      Int.tdiv_mul_add_tmod _ unit
    rw [hcount] at hsplit
    exact Int.add_left_cancel hsplit
  rw [roundCount, hcount, hrest]

/-- Time points are rounded in stages exactly if counts are. -/
theorem roundCount_stages_iff {quotient : ℤ → ℤ → ℤ} (hu : 0 < unit) (hd : unit ≤ d)
    (hc : unit ≤ c) (hpos : ∀ m a, 0 < m → 0 ≤ a → 0 ≤ quotient m a)
    (hneg : ∀ m a, 0 < m → a ≤ 0 → quotient m a ≤ 0) :
    (∀ t, roundCount quotient unit c (roundCount quotient unit d t) =
      roundCount quotient unit c t) ↔
    ∀ a, quotient (durationCast unit c)
        (durationCast unit d * quotient (durationCast unit d) a) =
      quotient (durationCast unit c) a := by
  have hcancel : ∀ p q s : ℤ, durationCast unit c * p * unit + s =
      durationCast unit c * q * unit + s ↔ p = q := by
    intro p q s
    rw [add_left_inj, Int.mul_eq_mul_right_iff hu.ne',
      Int.mul_eq_mul_left_iff (durationCast_pos hu hc).ne']
  constructor
  · intro h a
    have hcast : durationCast unit (a * unit) = a := Int.mul_tdiv_cancel a hu.ne'
    have ha := h (a * unit)
    rwa [roundCount_roundCount hu hd hpos hneg, roundCount, hcancel, hcast] at ha
  · intro h t
    rw [roundCount_roundCount hu hd hpos hneg, roundCount, hcancel]
    exact h _

end Counts

section Rounders

variable {V : Type} [Nonempty V] {unit d c : ℤ} {aggfn : List V → V}

theorem resamplesInStages_roundDown_iff (hu : 0 < unit) (hd : unit ≤ d) (hc : unit ≤ c)
    (hagg : AggregatesInStages aggfn) :
    ResamplesInStages roundDownToNearestDuration unit d c aggfn ↔
      durationCast unit d ∣ durationCast unit c := by
  rw [resamplesInStages_iff hagg (roundDown_eq_roundCount hu hd) (roundDown_eq_roundCount hu hc),
    roundCount_stages_iff hu hd hc (fun m a hm ha => Int.tdiv_nonneg ha hm.le) ?_]
  · exact tdiv_mul_tdiv_iff (durationCast_pos hu hd) (durationCast_pos hu hc)
  · intro m a hm ha
    have hopposite := Int.tdiv_nonneg (show 0 ≤ -a by omega) hm.le
    rw [Int.neg_tdiv] at hopposite
    omega

theorem resamplesInStages_roundNearest_iff (hu : 0 < unit) (hd : unit ≤ d) (hc : unit ≤ c)
    (hagg : AggregatesInStages aggfn) :
    ResamplesInStages roundNearestToNearestDuration unit d c aggfn ↔
      ∃ n, durationCast unit c = durationCast unit d * n ∧ (durationCast unit d = 1 ∨ Odd n) := by
  rw [resamplesInStages_iff hagg (roundNearest_eq_roundCount hu hd)
    (roundNearest_eq_roundCount hu hc),
    roundCount_stages_iff hu hd hc (fun m a hm ha => roundedQuotient_nonneg hm ha) ?_]
  · exact roundedQuotient_mul_iff (durationCast_pos hu hd) (durationCast_pos hu hc)
  · intro m a hm ha
    have hopposite := Int.tdiv_nonneg (show 0 ≤ -a by omega) hm.le
    rw [Int.neg_tdiv] at hopposite
    rw [roundedQuotient_of_nonpos hm ha]
    omega

/-- The last unit of the first long bar is rounded up onto its end, and from there into the
second long bar. -/
theorem not_resamplesInStages_roundUp (hu : 0 < unit) (hd : unit ≤ d) (hc : unit ≤ c)
    (hagg : AggregatesInStages aggfn) :
    ¬ ResamplesInStages roundUpToNearestDuration unit d c aggfn := by
  rw [resamplesInStages_iff hagg (roundUp_eq_ok hu hd) (roundUp_eq_ok hu hc)]
  have hup : ∀ {e x : ℤ}, unit ≤ e → unit ∣ x →
      x - excess unit e x + wholeUnits unit e =
        wholeUnits unit e * (x.tdiv (wholeUnits unit e) + 1) :=
    fun he hx => Except.ok.inj ((roundUp_eq_ok hu he _).symm.trans (roundUp_eq hu he hx))
  have hunits : ∀ e, unit ∣ wholeUnits unit e := fun e => Int.dvd_mul_left _ unit
  have hlast : unit ∣ wholeUnits unit c - unit := Int.dvd_sub (hunits c) (Int.dvd_refl unit)
  have hfine : unit ∣
      wholeUnits unit d * ((wholeUnits unit c - unit).tdiv (wholeUnits unit d) + 1) :=
    Int.dvd_mul_of_dvd_left (hunits d)
  intro h
  have hsame := h (wholeUnits unit c - unit)
  simp only [hup hd hlast, hup hc hlast, hup hc hfine] at hsame
  have hbeyond := lt_roundUp hu hd (wholeUnits unit c - unit)
  have hgap := Int.le_of_dvd (by omega) (Int.dvd_sub hfine hlast)
  have hfar := lt_roundUp hu hc
    (wholeUnits unit d * ((wholeUnits unit c - unit).tdiv (wholeUnits unit d) + 1))
  have hfirst : (wholeUnits unit c - unit).tdiv (wholeUnits unit c) = 0 := by
    have hwhole := Int.le_of_dvd (wholeUnits_pos hu hc) (hunits c)
    exact Int.tdiv_eq_zero_of_lt (by omega) (by omega)
  rw [hsame, hfirst] at hfar
  omega

end Rounders

/-- Coarse bars are made from fine bars, with any aggregate that can be taken in stages, exactly
if the fine duration divides the coarse one, where both are rounded down; exactly if it divides
it an odd number of times, or is a unit, where both are rounded to the nearest; and never where
both are rounded up. -/
theorem rounders_resampleInStages_iff {V : Type} [Nonempty V] (unit d c : ℤ) (aggfn : List V → V)
    (hu : 0 < unit) (hd : unit ≤ d) (hc : unit ≤ c) (hagg : AggregatesInStages aggfn) :
    (ResamplesInStages roundDownToNearestDuration unit d c aggfn ↔
      durationCast unit d ∣ durationCast unit c) ∧
    (ResamplesInStages roundNearestToNearestDuration unit d c aggfn ↔
      ∃ n, durationCast unit c = durationCast unit d * n ∧
        (durationCast unit d = 1 ∨ Odd n)) ∧
    ¬ ResamplesInStages roundUpToNearestDuration unit d c aggfn :=
  ⟨resamplesInStages_roundDown_iff hu hd hc hagg, resamplesInStages_roundNearest_iff hu hd hc hagg,
    not_resamplesInStages_roundUp hu hd hc hagg⟩

/-- Bars of a minute cannot be made from bars of ten seconds that are rounded to the nearest, but
from bars of twelve. -/
theorem rounders_resampleInStages_minute :
    ¬ ResamplesInStages roundNearestToNearestDuration 1000000 10000000000 60000000000
        (List.sum : List ℤ → ℤ) ∧
      ResamplesInStages roundNearestToNearestDuration 1000000 12000000000 60000000000
        (List.sum : List ℤ → ℤ) := by
  have hsum : AggregatesInStages (List.sum : List ℤ → ℤ) := fun _ _ => List.sum_flatten
  constructor
  · rw [(rounders_resampleInStages_iff 1000000 10000000000 60000000000 List.sum (by decide)
      (by decide) (by decide) hsum).2.1]
    rintro ⟨n, hn, hone | ⟨j, rfl⟩⟩
    · exact absurd hone (by decide)
    · have heven : (60000 : ℤ) = 10000 * (2 * j + 1) := hn
      omega
  · exact (rounders_resampleInStages_iff 1000000 12000000000 60000000000 List.sum (by decide)
      (by decide) (by decide) hsum).2.1.mpr ⟨5, by decide, Or.inr (by decide)⟩

end ChronoExtensions

end Tspp
