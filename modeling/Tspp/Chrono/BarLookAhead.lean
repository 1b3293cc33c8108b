import Tspp.Chrono.LookAhead
import Tspp.Chrono.RounderLaws
import Tspp.Core.NestedRounding

/-!
# How far a join with bars looks ahead

Ticks are resampled into bars, and a series is merged with the bars under the backward as-of
comparator. Between keys of whole units the comparator points at no bar after the row, but a bar
that was rounded down, or to the nearest, carries ticks that are later than its own key.
-/

namespace Tspp

namespace ChronoExtensions

open TruncatedDivision

section Bars

variable {U V W O : Type} {unit lookBack : ℤ} {left : TimeSeries ℤ V} {bars : TimeSeries ℤ W}

/-- The merge of `left` with the bars of `ticks` combines the row `l` in some run with a bar that
has the key of the tick `r`. -/
def UsesTick (round : ℤ → ℤ → ℤ → Except Fault ℤ) (unit d lookBack : ℤ)
    (mode : Enums.MergeAsofMode) (aggfn : List U → W) (defaultValue : W) (func : V → W → O)
    (left : TimeSeries ℤ V) (ticks : TimeSeries ℤ U) (l : ℤ × V) (r : ℤ × U) : Prop :=
  ∃ bars s q, ticks.resampleAndAgg (round unit · d) aggfn = .ok bars ∧
    (left.mergeApplyAsofLoop bars defaultValue (some (mergeAsofPrior unit left bars lookBack))
      func mode).Reaches (.start left bars) s ∧
    left.UsesRow bars (some (mergeAsofPrior unit left bars lookBack)) mode s l q ∧
    r ∈ ticks.rows ∧ round unit r.1 d = .ok q.1

/-- The times by which a tick lies after a row that it is combined with, over all series of whole
units, in any order. -/
def leads (round : ℤ → ℤ → ℤ → Except Fault ℤ) (unit d lookBack : ℤ)
    (mode : Enums.MergeAsofMode) (aggfn : List U → W) (defaultValue : W) (func : V → W → O) :
    Set ℤ :=
  {x | ∃ (left : TimeSeries ℤ V) (ticks : TimeSeries ℤ U) (l : ℤ × V) (r : ℤ × U),
    (∀ k ∈ left.keys, unit ∣ k) ∧ (∀ k ∈ ticks.keys, unit ∣ k) ∧
    UsesTick round unit d lookBack mode aggfn defaultValue func left ticks l r ∧ x = r.1 - l.1}

/-- A row at which the backward comparator points has the key of the left row, or one that is not
after it by the truncated difference. -/
theorem of_mergeAsofPrior_eq_equal {itl itr cand it : IteratorPair} {l : ℤ × V} {q : ℤ × W}
    (hl : itl.deref left.toContainers = .ok l) (hq : it.deref bars.toContainers = .ok q)
    (h : mergeAsofPrior unit left bars lookBack itl itr cand = .ok (.equal, it)) :
    l.1 = q.1 ∨ 0 ≤ durationCast unit (l.1 - q.1) := by
  simp only [mergeAsofPrior, mergeAsofFrontend, mergeAsofPriorImpl, hl, bind, Except.bind, pure,
    Except.pure] at h
  cases hprior : cand.deref bars.toContainers with
  | error e =>
    rw [hprior] at h
    cases h
  | ok prior =>
    cases hr : itr.deref bars.toContainers with
    | error e =>
      rw [hprior, hr] at h
      cases h
    | ok r =>
      simp only [hprior, hr, Bool.and_eq_true, decide_eq_true_eq, bne_iff_ne, ne_eq] at h
      split_ifs at h with hneg hfar hnear
      · cases h
      · cases h
      · cases h
        obtain rfl := Except.ok.inj (hprior.symm.trans hq)
        right
        by_contra hlt
        exact hneg ⟨not_le.mp hlt, hnear.2⟩
      · cases h
        obtain rfl := Except.ok.inj (hr.symm.trans hq)
        left
        by_contra hne
        rcases lt_or_ge lookBack (durationCast unit (l.1 - prior.1) * unit) with hlt | hle
        · exact hfar ⟨hlt, hne⟩
        · exact hnear ⟨hle, hne⟩

/-- Between keys of whole units the backward comparator points at no row after the left row,
wherever the iterators stand. -/
theorem le_of_usesRow {mode : Enums.MergeAsofMode} (hu : 0 < unit)
    (hlw : ∀ k ∈ left.keys, unit ∣ k) (hbw : ∀ k ∈ bars.keys, unit ∣ k) {s : JoinState ℤ O}
    {l : ℤ × V} {q : ℤ × W}
    (huses : left.UsesRow bars (some (mergeAsofPrior unit left bars lookBack)) mode s l q) :
    q.1 ≤ l.1 := by
  obtain ⟨hl, cand, it, _, hans, hq⟩ := huses
  have hlu := hlw l.1 (TimeSeries.mem_keys_of_deref hl)
  have hqu := hbw q.1 (TimeSeries.mem_keys_of_deref hq)
  rcases of_mergeAsofPrior_eq_equal hl hq hans with hsame | hdiff
  · exact hsame.ge
  · by_contra hlt
    exact absurd hdiff (not_le.mpr ((tdiv_sub_neg_iff hu hlu hqu).mpr (not_le.mp hlt)))

/-- A row is combined with a bar that has its key. -/
theorem exists_usesRow_same (unit lookBack : ℤ) (mode : Enums.MergeAsofMode) (x : V) (w : W)
    (k : ℤ) :
    ∃ w', (TimeSeries.ofRows [(k, x)]).UsesRow (.ofRows [(k, w)])
      (some (mergeAsofPrior unit (.ofRows [(k, x)]) (.ofRows [(k, w)]) lookBack)) mode
      (.start (.ofRows [(k, x)]) (.ofRows [(k, w)]) : JoinState ℤ O) (k, x) (k, w') := by
  have hcarried : carriedKey (priorAnswer unit lookBack k k k) k k = some k := by
    rw [aligned_priorAnswer]
    rfl
  have hcand : (TimeSeries.ofRows [(k, w)]).keys[candPos mode 1 0]? = some k := by
    cases mode <;> rfl
  exact (TimeSeries.exists_usesRow_iff (asksKeys_mergeAsofPrior unit lookBack _ _) .empty rfl rfl
    hcand).mpr hcarried

/-- Where no time point is rounded back by more than `m`, and one is rounded back by `m`, ticks lie
after their rows by `m` at most. -/
theorem isGreatest_leads {U V W O : Type} [Nonempty U] [Nonempty V]
    {round : ℤ → ℤ → ℤ → Except Fault ℤ} {unit d lookBack m : ℤ} (hround : round ∈ rounders)
    (mode : Enums.MergeAsofMode) (aggfn : List U → W) (defaultValue : W) (func : V → W → O)
    (hu : 0 < unit) (hd : unit ≤ d)
    (hbound : ∀ t q, unit ∣ t → round unit t d = .ok q → t - q ≤ m)
    (hattained : ∃ t, unit ∣ t ∧ round unit t d = .ok (t - m)) :
    IsGreatest (leads round unit d lookBack mode aggfn defaultValue func) m := by
  obtain ⟨quotient, _, heq⟩ := exists_quotient hround hu hd
  constructor
  · obtain ⟨t, ht, hok⟩ := hattained
    obtain ⟨u⟩ := ‹Nonempty U›
    obtain ⟨x⟩ := ‹Nonempty V›
    have hbar : unit ∣ t - m := by
      rw [Except.ok.inj (hok.symm.trans (heq t ht))]
      exact Int.dvd_mul_of_dvd_left (Int.dvd_mul_left _ unit)
    have hbars : (TimeSeries.ofRows [(t, u)]).resampleAndAgg (round unit · d) aggfn =
        .ok (.ofRows [(t - m, aggfn [u])]) :=
      TimeSeries.resampleAndAgg_eq_runs (g := fun _ => t - m) _ aggfn (by simpa using hok)
    obtain ⟨w, huses⟩ := exists_usesRow_same (O := O) unit lookBack mode x (aggfn [u]) (t - m)
    refine ⟨.ofRows [(t - m, x)], .ofRows [(t, u)], (t - m, x), (t, u),
      by simpa using hbar, by simpa using ht, ⟨_, _, _, hbars, .refl _, huses, ?_, hok⟩, ?_⟩
    · simp
    · omega
  · rintro y ⟨left, ticks, l, r, hlw, htw, ⟨bars, s, q, hbars, _, huses, hr, hq⟩, rfl⟩
    have hbw : ∀ k ∈ bars.keys, unit ∣ k := by
      intro k hk
      have hgroup := (TimeSeries.mem_keys_of_resampleAndAgg
        (g := fun t => wholeUnits unit d * quotient t) (fun t ht => heq t (htw t ht)) hbars).mp hk
      obtain ⟨t, _, rfl⟩ := hgroup
      exact Int.dvd_mul_of_dvd_left (Int.dvd_mul_left _ unit)
    have hle := le_of_usesRow hu hlw hbw huses
    have hlead := hbound r.1 q.1 (htw r.1 (TimeSeries.mem_keys_of_mem_rows hr)) hq
    omega

end Bars

section Rounders

variable {unit d : ℤ}

theorem le_of_roundUp (hu : 0 < unit) (hd : unit ≤ d) {t q : ℤ} (ht : unit ∣ t)
    (h : roundUpToNearestDuration unit t d = .ok q) : t - q ≤ -unit := by
  rw [roundUp_eq hu hd ht] at h
  obtain rfl := Except.ok.inj h
  have hlt := lt_roundUp hu hd t
  have hdvd : unit ∣ wholeUnits unit d * (t.tdiv (wholeUnits unit d) + 1) - t :=
    Int.dvd_sub (Int.dvd_mul_of_dvd_left (Int.dvd_mul_left _ unit)) ht
  have hgap := Int.le_of_dvd (by omega) hdvd
  omega

theorem le_of_roundDown (hu : 0 < unit) (hd : unit ≤ d) {t q : ℤ} (ht : unit ∣ t)
    (h : roundDownToNearestDuration unit t d = .ok q) : t - q ≤ wholeUnits unit d - unit := by
  rw [roundDown_eq hu hd ht, Int.mul_tdiv_self] at h
  obtain rfl := Except.ok.inj h
  have hlt := Int.tmod_lt_of_pos t (wholeUnits_pos hu hd)
  have hdvd : unit ∣ wholeUnits unit d - t.tmod (wholeUnits unit d) :=
    Int.dvd_sub (Int.dvd_mul_left _ unit) (dvd_tmod_wholeUnits hu ht)
  have hgap := Int.le_of_dvd (by omega) hdvd
  omega

theorem le_of_roundNearest (hu : 0 < unit) (hd : unit ≤ d) {t q : ℤ} (ht : unit ∣ t)
    (h : roundNearestToNearestDuration unit t d = .ok q) :
    t - q ≤ durationCast unit d / 2 * unit := by
  have hwhole := wholeUnits_pos hu hd
  rw [roundNearest_eq_mul hu hd ht] at h
  obtain rfl := Except.ok.inj h
  have hback : 2 * (t - wholeUnits unit d * roundedQuotient (wholeUnits unit d) t) ≤
      wholeUnits unit d := by
    rcases le_total 0 t with hpos | hneg
    · have hnear := ((roundedQuotient_eq_iff hwhole hpos).mp rfl).2
      rw [Int.mul_add, Int.mul_one, Int.mul_left_comm] at hnear
      omega
    · have hrest := Int.tmod_nonneg (wholeUnits unit d) (show 0 ≤ -t by omega)
      rw [Int.neg_tmod] at hrest
      rw [roundedQuotient_of_nonpos hwhole hneg, Int.mul_tdiv_self]
      omega
  obtain ⟨e, he⟩ : unit ∣ t - wholeUnits unit d * roundedQuotient (wholeUnits unit d) t :=
    Int.dvd_sub ht (Int.dvd_mul_of_dvd_left (Int.dvd_mul_left _ unit))
  rw [he, wholeUnits, Int.mul_comm (durationCast unit d), Int.mul_left_comm] at hback
  have hhalf : e ≤ durationCast unit d / 2 := by
    have := le_of_mul_le_mul_left hback hu
    omega
  rw [he, Int.mul_comm unit]
  exact Int.mul_le_mul_of_nonneg_right hhalf hu.le

end Rounders

/-- Over all runs of all series of whole units, in any order and in any mode, a row is combined with
bars of ticks that were rounded up only if the ticks lie before it; with bars rounded to the nearest
its ticks lie up to half a duration after it, and with bars rounded down up to a duration, less one
unit. -/
theorem isGreatest_leads_rounders {U V W O : Type} [Nonempty U] [Nonempty V]
    (unit d lookBack : ℤ) (mode : Enums.MergeAsofMode) (aggfn : List U → W) (defaultValue : W)
    (func : V → W → O) (hu : 0 < unit) (hd : unit ≤ d) :
    IsGreatest (leads roundUpToNearestDuration unit d lookBack mode aggfn defaultValue func)
      (-unit) ∧
    IsGreatest (leads roundNearestToNearestDuration unit d lookBack mode aggfn defaultValue func)
      (durationCast unit d / 2 * unit) ∧
    IsGreatest (leads roundDownToNearestDuration unit d lookBack mode aggfn defaultValue func)
      (wholeUnits unit d - unit) := by
  have hunits : unit ∣ wholeUnits unit d := Int.dvd_mul_left _ unit
  have hwhole := wholeUnits_pos hu hd
  have hlast : unit ∣ wholeUnits unit d - unit := Int.dvd_sub hunits (Int.dvd_refl unit)
  have hfirst : (wholeUnits unit d - unit).tdiv (wholeUnits unit d) = 0 := by
    have hle := Int.le_of_dvd hwhole hunits
    exact Int.tdiv_eq_zero_of_lt (by omega) (by omega)
  have hstay : roundedQuotient (wholeUnits unit d) (durationCast unit d / 2 * unit) = 0 := by
    have hdur := durationCast_pos hu hd
    have hhalf : 2 * (durationCast unit d / 2) * unit ≤ wholeUnits unit d :=
      Int.mul_le_mul_of_nonneg_right (by omega) hu.le
    have hnonneg : 0 ≤ durationCast unit d / 2 * unit := Int.mul_nonneg (by omega) hu.le
    rw [Int.mul_assoc] at hhalf
    rw [roundedQuotient_eq_iff hwhole hnonneg]
    omega
  refine ⟨?_, ?_, ?_⟩
  · apply isGreatest_leads (by simp [rounders]) mode aggfn defaultValue func hu hd
    · exact fun t q ht h => le_of_roundUp hu hd ht h
    · refine ⟨wholeUnits unit d - unit, hlast, ?_⟩
      rw [roundUp_eq hu hd hlast, hfirst]
      congr 1
      omega
  · apply isGreatest_leads (by simp [rounders]) mode aggfn defaultValue func hu hd
    · exact fun t q ht h => le_of_roundNearest hu hd ht h
    · refine ⟨durationCast unit d / 2 * unit, Int.dvd_mul_left _ unit, ?_⟩
      rw [roundNearest_eq_mul hu hd (Int.dvd_mul_left _ unit), hstay]
      congr 1
      omega
  · apply isGreatest_leads (by simp [rounders]) mode aggfn defaultValue func hu hd
    · exact fun t q ht h => le_of_roundDown hu hd ht h
    · refine ⟨wholeUnits unit d - unit, hlast, ?_⟩
      rw [roundDown_eq hu hd hlast, hfirst]
      congr 1
      omega

/-- Bars of a minute that are rounded down show ticks of the whole minute but its last millisecond
at its start. -/
theorem isGreatest_leads_minute :
    IsGreatest (leads roundDownToNearestDuration 1000000 60000000000 0 .rollPrior
      (List.sum : List ℤ → ℤ) 0 fun v w : ℤ => v + w) 59999000000 :=
  (isGreatest_leads_rounders 1000000 60000000000 0 .rollPrior List.sum 0 (fun v w : ℤ => v + w)
    (by decide) (by decide)).2.2

end ChronoExtensions

end Tspp
