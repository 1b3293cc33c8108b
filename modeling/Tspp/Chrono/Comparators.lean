import Tspp.Join.AsofDefault

/-!
# As-of comparators over time points

A time point is its count of clock ticks since the epoch, a duration its count of the
same ticks, and a unit of duration such as `time_arty_type` the number of clock ticks it
lasts. Counts are unbounded integers; `duration_cast` to a coarser unit truncates toward
zero. Both comparators compare truncated differences of keys, so both look at keys only.
-/

namespace Tspp

namespace ChronoExtensions

variable {V W O : Type}

/-- `std::chrono::duration_cast` to a unit of `unit` ticks: a count of these units. -/
def durationCast (unit duration : ℤ) : ℤ := duration.tdiv unit

/-- `gen_helpers::merge_asof_frontend` -/
def mergeAsofFrontend (duration : ℤ)
    (func : IteratorPair → IteratorPair → IteratorPair → ℤ →
      Except Fault (Enums.Ordering × IteratorPair)) : AsofComparator :=
  fun left right rightOther => func left right rightOther duration

/-- `merge_asof_prior_impl`, with a `time_arty_type` of `unit` ticks. -/
def mergeAsofPriorImpl (unit : ℤ) (left : TimeSeries ℤ V) (other : TimeSeries ℤ W)
    (itl itr itrPrior : IteratorPair) (duration : ℤ) :
    Except Fault (Enums.Ordering × IteratorPair) := do
  let l ← itl.deref left.toContainers
  let prior ← itrPrior.deref other.toContainers
  let diff := durationCast unit (l.1 - prior.1)
  let r ← itr.deref other.toContainers
  let areUnequal := l.1 != r.1
  if diff < 0 && areUnequal then return (.lessThan, itr)
  else if diff * unit > duration && areUnequal then return (.greaterThan, itr)
  else if diff * unit ≤ duration && areUnequal then return (.equal, itrPrior)
  else return (.equal, itr)

/-- `merge_asof_fwd_impl`, with a `time_arty_type` of `unit` ticks. -/
def mergeAsofFwdImpl (unit : ℤ) (left : TimeSeries ℤ V) (other : TimeSeries ℤ W)
    (itl itr itrPeek : IteratorPair) (duration : ℤ) :
    Except Fault (Enums.Ordering × IteratorPair) := do
  let l ← itl.deref left.toContainers
  let peek ← itrPeek.deref other.toContainers
  let diff1 := durationCast unit (peek.1 - l.1)
  let r ← itr.deref other.toContainers
  let diff2 := durationCast unit (r.1 - l.1)
  let diff := min diff1 (max diff2 0)
  let areUnequal := l.1 != r.1
  let itrChosen := if diff == diff2 then itr else itrPeek
  if diff < 0 && areUnequal then return (.greaterThan, itr)
  else if diff * unit > duration && areUnequal then return (.lessThan, itr)
  else if diff * unit ≤ duration && areUnequal then return (.equal, itrChosen)
  else return (.equal, itr)

/-- `merge_asof_prior` -/
def mergeAsofPrior (unit : ℤ) (left : TimeSeries ℤ V) (other : TimeSeries ℤ W) (lookBack : ℤ) :
    AsofComparator :=
  mergeAsofFrontend lookBack (mergeAsofPriorImpl unit left other)

/-- `merge_asof_fwd` -/
def mergeAsofFwd (unit : ℤ) (left : TimeSeries ℤ V) (other : TimeSeries ℤ W) (lookFwd : ℤ) :
    AsofComparator :=
  mergeAsofFrontend lookFwd (mergeAsofFwdImpl unit left other)

/-- `merge_asof_prior` by keys. -/
def priorAnswer (unit d : ℤ) : KeyAnswer ℤ := fun l r c =>
  let diff := (l - c).tdiv unit
  if l = r then (.equal, false)
  else if diff < 0 then (.lessThan, false)
  else if d < diff * unit then (.greaterThan, false)
  else (.equal, true)

/-- `merge_asof_fwd` by keys. -/
def fwdAnswer (unit d : ℤ) : KeyAnswer ℤ := fun l r c =>
  let diff2 := (r - l).tdiv unit
  let diff := min ((c - l).tdiv unit) (max diff2 0)
  if l = r then (.equal, false)
  else if diff < 0 then (.greaterThan, false)
  else if d < diff * unit then (.lessThan, false)
  else (.equal, diff != diff2)

theorem aligned_priorAnswer (unit d : ℤ) : Aligned (priorAnswer unit d) :=
  fun _ _ => if_pos rfl

theorem aligned_fwdAnswer (unit d : ℤ) : Aligned (fwdAnswer unit d) :=
  fun _ _ => if_pos rfl

/-- The backward comparator looks at keys only. -/
theorem asksKeys_mergeAsofPrior (unit d : ℤ) (left : TimeSeries ℤ V) (other : TimeSeries ℤ W) :
    left.AsksKeys other (mergeAsofPrior unit left other d) (priorAnswer unit d) := by
  intro i j c l r k hl hr hk
  obtain ⟨v, hl⟩ := TimeSeries.exists_deref_row hl
  obtain ⟨w, hr⟩ := TimeSeries.exists_deref_row hr
  obtain ⟨x, hk⟩ := TimeSeries.exists_deref_row hk
  simp only [mergeAsofPrior, mergeAsofFrontend, mergeAsofPriorImpl, durationCast, hl, hr, hk, bind,
    Except.bind, pure, Except.pure, priorAnswer]
  by_cases hkeys : l = r
  · simp [hkeys]
  · by_cases hneg : (l - k).tdiv unit < 0
    · simp [hkeys, hneg]
    · by_cases hfar : d < (l - k).tdiv unit * unit
      · simp [hkeys, hneg, hfar]
      · simp [hkeys, hneg, hfar, not_lt.mp hfar]

/-- The forward comparator looks at keys only. -/
theorem asksKeys_mergeAsofFwd (unit d : ℤ) (left : TimeSeries ℤ V) (other : TimeSeries ℤ W) :
    left.AsksKeys other (mergeAsofFwd unit left other d) (fwdAnswer unit d) := by
  intro i j c l r k hl hr hk
  obtain ⟨v, hl⟩ := TimeSeries.exists_deref_row hl
  obtain ⟨w, hr⟩ := TimeSeries.exists_deref_row hr
  obtain ⟨x, hk⟩ := TimeSeries.exists_deref_row hk
  simp only [mergeAsofFwd, mergeAsofFrontend, mergeAsofFwdImpl, durationCast, hl, hr, hk, bind,
    Except.bind, pure, Except.pure, fwdAnswer]
  obtain ⟨diff, hdiff⟩ : ∃ diff, min ((k - l).tdiv unit) (max ((r - l).tdiv unit) 0) = diff :=
    ⟨_, rfl⟩
  simp only [hdiff]
  by_cases hkeys : l = r
  · simp [hkeys]
  · by_cases hneg : diff < 0
    · simp [hkeys, hneg]
    · by_cases hfar : d < diff * unit
      · simp [hkeys, hneg, hfar]
      · by_cases hsame : diff = (r - l).tdiv unit
        · simp [hkeys, hneg, hfar, not_lt.mp hfar, ← hsame]
        · simp [hkeys, hneg, hfar, not_lt.mp hfar, hsame]

end ChronoExtensions

end Tspp
