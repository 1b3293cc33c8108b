import Tspp.Chrono.Comparators
import Tspp.Core.TruncatedDivision

/-!
# Termination of the as-of merge

The branch for `greater_than` advances the left iterator on every right row but the last.
Once the cursor has come to the last right row, having matched all the others, a left key
that is answered `greater_than` there is answered so for ever. For each of the three
settings in which the merge is used this happens under a condition on the keys.
-/

namespace Tspp

namespace ChronoExtensions

open TruncatedDivision

variable {V W O : Type} {unit d : ℤ}

/-- `merge_asof_prior` answers `greater_than` for a left key too far behind the candidate. -/
theorem priorAnswer_eq_greaterThan (hu : 0 < unit) (hd : 0 ≤ d) {l r c : ℤ} :
    (priorAnswer unit d l r c).1 = .greaterThan ↔ l ≠ r ∧ d < (l - c).tdiv unit * unit := by
  by_cases hkeys : l = r
  · simp [priorAnswer, hkeys]
  · by_cases hneg : (l - c).tdiv unit < 0
    · have hle : (l - c).tdiv unit * unit ≤ 0 :=
        Int.mul_nonpos_of_nonpos_of_nonneg hneg.le hu.le
      simp [priorAnswer, hkeys, hneg, hle.trans hd]
    · by_cases hfar : d < (l - c).tdiv unit * unit
      · simp [priorAnswer, hkeys, hneg, hfar]
      · simp [priorAnswer, hkeys, hneg, hfar]

/-- A left key too far behind the candidate lies behind it. -/
theorem lt_of_priorAnswer_greaterThan (hu : 0 < unit) (hd : 0 ≤ d) {l r c : ℤ}
    (h : (priorAnswer unit d l r c).1 = .greaterThan) : c < l := by
  have hfar := ((priorAnswer_eq_greaterThan hu hd).mp h).2
  have hpos : 0 < (l - c).tdiv unit := by
    by_contra hle
    have hmul := Int.mul_nonpos_of_nonpos_of_nonneg (not_lt.mp hle) hu.le
    omega
  have hlt := pos_of_tdiv_pos hu hpos
  omega

/-- On the last right row `merge_asof_fwd` answers `greater_than` for a left key behind it. -/
theorem fwdAnswer_last_eq_greaterThan {l r : ℤ} :
    (fwdAnswer unit d l r r).1 = .greaterThan ↔ (r - l).tdiv unit < 0 := by
  have hdiff : min ((r - l).tdiv unit) (max ((r - l).tdiv unit) 0) = (r - l).tdiv unit :=
    min_eq_left (le_max_left _ _)
  by_cases hkeys : l = r
  · simp [fwdAnswer, hkeys]
  · simp only [fwdAnswer, hdiff, hkeys, if_false]
    by_cases hneg : (r - l).tdiv unit < 0
    · simp [hneg]
    · by_cases hfar : d < (r - l).tdiv unit * unit
      · simp [hneg, hfar]
      · simp [hneg, hfar]

/-- On the last right row the backward comparator answers `greater_than` only behind the other
right keys. -/
theorem greaterThan_behind_prior (hu : 0 < unit) (hd : 0 ≤ d) {rk : List ℤ} {last prev : ℤ}
    (hr : rk.Pairwise (· < ·)) (hcand : CandKey .rollPrior rk last prev) (l : ℤ)
    (hgt : (priorAnswer unit d l last prev).1 = .greaterThan) :
    ∀ k ∈ rk, k < last → k < l := by
  intro k hk hlt
  have hbehind := lt_of_priorAnswer_greaterThan hu hd hgt
  rcases hcand.rollPrior_cases hr with ⟨_, hfirst⟩ | ⟨_, hprev⟩
  · exact absurd hlt (not_lt_of_ge (hfirst k hk))
  · exact (hprev k hk hlt).trans_lt hbehind

variable {left : TimeSeries ℤ V} {other : TimeSeries ℤ W} {last : ℤ}

/-- The backward as-of merge returns exactly if some right key before the last one is not a
left key, or every left key but the last right key is close enough to the right key before
the last one. -/
theorem mergeApplyAsof_prior_returns_iff {prev : ℤ} (defaultValue : W) (func : V → W → O)
    (hu : 0 < unit) (hd : 0 ≤ d) (hl : left.StrictlyIncreasing) (hr : other.StrictlyIncreasing)
    (hlast : other.keys.getLast? = some last) (hprev : other.keys[other.size - 2]? = some prev) :
    (∃ t, (left.mergeApplyAsofLoop other defaultValue (some (mergeAsofPrior unit left other d))
        func .rollPrior).Returns (.start left other) t) ↔
      (∃ k ∈ other.keys.dropLast, k ∉ left.keys) ∨
        ∀ l ∈ left.keys, l = last ∨ (l - prev).tdiv unit * unit ≤ d := by
  have hcand : CandKey .rollPrior other.keys last prev := by
    rw [List.getLast?_eq_getElem?] at hlast
    exact ⟨_, hlast, hprev⟩
  rw [TimeSeries.mergeApplyAsof_returns_iff_last defaultValue
    (some (mergeAsofPrior unit left other d)) func hl hr
    (aligned_priorAnswer unit d) (asksKeys_mergeAsofPrior unit d left other) hlast hcand]
  · simp only [ne_eq, priorAnswer_eq_greaterThan hu hd, not_and_or, not_not, not_lt]
  · exact greaterThan_behind_prior hu hd hr hcand

/-- The forward as-of merge returns exactly if some right key before the last one is not a
left key, or no left key lies a whole unit behind the last right key. -/
theorem mergeApplyAsof_fwd_returns_iff (defaultValue : W) (func : V → W → O) (hu : 0 < unit)
    (hl : left.StrictlyIncreasing) (hr : other.StrictlyIncreasing)
    (hlast : other.keys.getLast? = some last) :
    (∃ t, (left.mergeApplyAsofLoop other defaultValue (some (mergeAsofFwd unit left other d))
        func .rollFollowing).Returns (.start left other) t) ↔
      (∃ k ∈ other.keys.dropLast, k ∉ left.keys) ∨
        ∀ l ∈ left.keys, 0 ≤ (last - l).tdiv unit := by
  have hcand : CandKey .rollFollowing other.keys last last := by
    rw [List.getLast?_eq_getElem?] at hlast
    exact ⟨_, hlast, by rw [candPos, if_pos rfl, hlast]⟩
  rw [TimeSeries.mergeApplyAsof_returns_iff_last defaultValue
    (some (mergeAsofFwd unit left other d)) func hl hr
    (aligned_fwdAnswer unit d) (asksKeys_mergeAsofFwd unit d left other) hlast hcand]
  · simp only [ne_eq, fwdAnswer_last_eq_greaterThan, not_lt]
  · intro l hgt k _ hlt
    rw [fwdAnswer_last_eq_greaterThan] at hgt
    have hneg : 0 < l - last := by
      apply pos_of_tdiv_pos hu
      rw [← Int.neg_sub, Int.neg_tdiv]
      omega
    omega

/-- In each of its three settings the merge ends exactly if the cursor cannot come to the last
right row or no left key is answered `greater_than` there. -/
theorem mergeApplyAsof_terminates_iff {V W O : Type} (defaultValue : W) (func : V → W → O)
    (unit d : ℤ) (hu : 0 < unit) (hd : 0 ≤ d) :
    (∀ (K : Type) [LinearOrder K] (left : TimeSeries K V) (other : TimeSeries K W) (last : K),
      left.StrictlyIncreasing → other.StrictlyIncreasing → other.keys.getLast? = some last →
      ((∃ t, (left.mergeApplyAsofLoop other defaultValue none func .noRoll).Returns
          (.start left other) t) ↔
        (∃ k ∈ other.keys.dropLast, k ∉ left.keys) ∨ ∀ l ∈ left.keys, l ≤ last)) ∧
    (∀ (left : TimeSeries ℤ V) (other : TimeSeries ℤ W) (last prev : ℤ),
      left.StrictlyIncreasing → other.StrictlyIncreasing → other.keys.getLast? = some last →
      other.keys[other.size - 2]? = some prev →
      ((∃ t, (left.mergeApplyAsofLoop other defaultValue
          (some (mergeAsofPrior unit left other d)) func .rollPrior).Returns
          (.start left other) t) ↔
        (∃ k ∈ other.keys.dropLast, k ∉ left.keys) ∨
          ∀ l ∈ left.keys, l = last ∨ (l - prev).tdiv unit * unit ≤ d)) ∧
    (∀ (left : TimeSeries ℤ V) (other : TimeSeries ℤ W) (last : ℤ),
      left.StrictlyIncreasing → other.StrictlyIncreasing → other.keys.getLast? = some last →
      ((∃ t, (left.mergeApplyAsofLoop other defaultValue
          (some (mergeAsofFwd unit left other d)) func .rollFollowing).Returns
          (.start left other) t) ↔
        (∃ k ∈ other.keys.dropLast, k ∉ left.keys) ∨
          ∀ l ∈ left.keys, 0 ≤ (last - l).tdiv unit)) := by
  refine ⟨?_, ?_, ?_⟩
  · intro K _ left other last hl hr hlast
    exact TimeSeries.mergeApplyAsof_noComparator_returns_iff defaultValue func hl hr hlast
  · intro left other last prev hl hr hlast hprev
    exact mergeApplyAsof_prior_returns_iff defaultValue func hu hd hl hr hlast hprev
  · intro left other last hl hr hlast
    exact mergeApplyAsof_fwd_returns_iff defaultValue func hu hl hr hlast

/-- A right series that ends behind the left one lets the merge end in all three settings. -/
theorem mergeApplyAsof_terminates_longer :
    (∃ t : JoinState ℤ ℤ, (TimeSeries.mergeApplyAsofLoop (.ofRows [(1, 10), (2, 20)])
        (.ofRows [(1, 5), (7, 6)]) 0 none (fun v w => v + w) .noRoll).Returns
        (.start (.ofRows [((1 : ℤ), (10 : ℤ)), (2, 20)])
          (.ofRows [((1 : ℤ), (5 : ℤ)), (7, 6)])) t) ∧
      (∃ t : JoinState ℤ ℤ, (TimeSeries.mergeApplyAsofLoop (.ofRows [(1, 10), (2, 20)])
        (.ofRows [(1, 5), (7, 6)]) 0 (some (mergeAsofPrior 1
          (.ofRows [((1 : ℤ), (10 : ℤ)), (2, 20)]) (.ofRows [((1 : ℤ), (5 : ℤ)), (7, 6)]) 3))
        (fun v w => v + w) .rollPrior).Returns
        (.start (.ofRows [((1 : ℤ), (10 : ℤ)), (2, 20)])
          (.ofRows [((1 : ℤ), (5 : ℤ)), (7, 6)])) t) ∧
      ∃ t : JoinState ℤ ℤ, (TimeSeries.mergeApplyAsofLoop (.ofRows [(1, 10), (2, 20)])
        (.ofRows [(1, 5), (7, 6)]) 0 (some (mergeAsofFwd 1
          (.ofRows [((1 : ℤ), (10 : ℤ)), (2, 20)]) (.ofRows [((1 : ℤ), (5 : ℤ)), (7, 6)]) 3))
        (fun v w => v + w) .rollFollowing).Returns
        (.start (.ofRows [((1 : ℤ), (10 : ℤ)), (2, 20)])
          (.ofRows [((1 : ℤ), (5 : ℤ)), (7, 6)])) t :=
  have hends := mergeApplyAsof_terminates_iff (0 : ℤ) (fun v w : ℤ => v + w) 1 3 (by decide)
    (by decide)
  ⟨(hends.1 ℤ _ _ 7 (by decide) (by decide) rfl).mpr (Or.inr (by decide)),
    (hends.2.1 _ _ 7 1 (by decide) (by decide) rfl rfl).mpr (Or.inr (by decide)),
    (hends.2.2 _ _ 7 (by decide) (by decide) rfl).mpr (Or.inr (by decide))⟩

/-- A left key behind a single right key keeps the backward merge busy for ever. -/
theorem mergeApplyAsof_runs_forever :
    (TimeSeries.ofRows [((6 : ℤ), (10 : ℤ))]).StrictlyIncreasing ∧
      (TimeSeries.ofRows [((5 : ℤ), (1 : ℤ))]).StrictlyIncreasing ∧
      ¬ ∃ t : JoinState ℤ ℤ, (TimeSeries.mergeApplyAsofLoop (.ofRows [(6, 10)]) (.ofRows [(5, 1)]) 0
        (some (mergeAsofPrior 1 (.ofRows [((6 : ℤ), (10 : ℤ))]) (.ofRows [((5 : ℤ), (1 : ℤ))]) 0))
        (fun v w => v + w) .rollPrior).Returns
        (.start (.ofRows [((6 : ℤ), (10 : ℤ))]) (.ofRows [((5 : ℤ), (1 : ℤ))])) t := by
  refine ⟨by decide, by decide, ?_⟩
  rintro ⟨t, ht⟩
  refine ht.not_diverges (WhileLoop.diverges_of_invariant
    (I := fun s => ∃ res, s = JoinState.atRows 0 0 res) ⟨_, rfl⟩ ?_ ?_)
  · rintro s ⟨res, rfl⟩
    rfl
  · rintro s ⟨res, rfl⟩
    exact ⟨_, rfl, _, rfl⟩

end ChronoExtensions

end Tspp
