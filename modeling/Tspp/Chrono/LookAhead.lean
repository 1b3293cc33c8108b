import Tspp.Join.AsofRows
import Tspp.Chrono.AsofPrior

/-!
# Look-ahead of the backward as-of join

The backward comparator tells equal keys from unequal ones exactly, but decides on a
difference that is truncated toward zero. A candidate less than a unit after the left key
passes for one that is not after it, and one less than a unit beyond the look-back for one
within. Which candidate a left key meets depends on the keys that have been matched.
-/

namespace Tspp

namespace ChronoExtensions

open TruncatedDivision

/-- The truncated difference of the left key `l` and the candidate `c` passes both tests of the
comparator, though `c` is after `l` or farther before it than the look-back. -/
def Misjudged (unit lookBack l c : ℤ) : Prop :=
  l < c ∧ c - l < unit ∨ lookBack < l - c ∧ durationCast unit (l - c) * unit ≤ lookBack

/-- The right keys before `l`, but for the last one, up to which all right keys are left keys. -/
def MatchedBefore (lk rk : List ℤ) (l : ℤ) : Set ℤ :=
  {x | x ∈ rk ∧ x < l ∧ (∃ y ∈ rk, x < y) ∧ ∀ y ∈ rk, y ≤ x → y ∈ lk}

/-- `c` is the candidate that the left key `l` meets: the last right key matched before it, or
the first right key where none is. -/
def PriorCandidate (lk rk : List ℤ) (l c : ℤ) : Prop :=
  IsGreatest (MatchedBefore lk rk l) c ∨ MatchedBefore lk rk l = ∅ ∧ IsLeast {x | x ∈ rk} c

/-- The left key `l` meets the same right key. -/
def MeetsItself (lk rk : List ℤ) (l : ℤ) : Prop := l ∈ rk ∧ ∀ x ∈ rk, x < l → x ∈ lk

section Keys

variable {lk rk : List ℤ} {unit d l r c k : ℤ}

/-- A candidate that passes the tests on the truncated difference is carried wrongly exactly if
it is misjudged. -/
theorem misjudged_iff (hu : 0 < unit) (hd : 0 ≤ d) :
    Misjudged unit d l c ↔
      (0 ≤ (l - c).tdiv unit ∧ (l - c).tdiv unit * unit ≤ d) ∧ ¬ (c ≤ l ∧ l - c ≤ d) := by
  unfold Misjudged durationCast
  constructor
  · rintro (⟨hlt, hnear⟩ | ⟨hfar, hpass⟩)
    · have hzero : (l - c).tdiv unit = 0 := tdiv_eq_zero (by omega) (by omega)
      rw [hzero]
      omega
    · exact ⟨⟨Int.tdiv_nonneg (by omega) hu.le, hpass⟩, by omega⟩
  · rintro ⟨⟨hnonneg, hpass⟩, hwrong⟩
    by_cases hlt : l < c
    · left
      refine ⟨hlt, ?_⟩
      by_contra hfar
      have hle := Int.tdiv_le_tdiv hu (show unit ≤ c - l by omega)
      rw [Int.tdiv_self hu.ne', ← Int.neg_sub, Int.neg_tdiv] at hle
      omega
    · right
      exact ⟨by omega, hpass⟩

/-- A matched right key has been passed by the cursor. -/
theorem lt_of_matchedBefore (hkey : CursorKey lk rk l r) {x : ℤ}
    (hx : x ∈ MatchedBefore lk rk l) : x < r := by
  obtain ⟨_, hxl, ⟨y, hy, hxy⟩, hall⟩ := hx
  by_contra hle
  rw [not_lt] at hle
  have hlast := hkey.last_of_matched (hall r hkey.mem hle) (hle.trans_lt hxl)
  exact absurd (hlast y hy) (not_le_of_gt (hle.trans_lt hxy))

/-- The row before the cursor is the candidate. -/
theorem CandKey.priorCandidate (hr : rk.Pairwise (· < ·)) (hkey : CursorKey lk rk l r)
    (hcand : CandKey .rollPrior rk r c) : PriorCandidate lk rk l c := by
  rcases hcand.rollPrior_cases hr with ⟨rfl, hfirst⟩ | ⟨hcr, hprev⟩
  · right
    refine ⟨Set.eq_empty_of_forall_notMem fun x hx => ?_, hcand.mem, hfirst⟩
    exact absurd (hfirst x hx.1) (not_le_of_gt (lt_of_matchedBefore hkey hx))
  · left
    refine ⟨⟨hcand.mem, (hkey.passed c hcand.mem hcr).2, ⟨r, hkey.mem, hcr⟩, ?_⟩, ?_⟩
    · exact fun y hy hyc => (hkey.passed y hy (hyc.trans_lt hcr)).1
    · exact fun x hx => hprev x hx.1 (lt_of_matchedBefore hkey hx)

theorem PriorCandidate.unique {c' : ℤ} (h : PriorCandidate lk rk l c)
    (h' : PriorCandidate lk rk l c') : c = c' := by
  rcases h with h | ⟨hempty, h⟩ <;> rcases h' with h' | ⟨hempty', h'⟩
  · exact h.unique h'
  · exact absurd (hempty' ▸ h.1) (Set.notMem_empty c)
  · exact absurd (hempty ▸ h'.1) (Set.notMem_empty c')
  · exact h.unique h'

/-- A left key is compared with the same right key exactly if it meets it. -/
theorem eq_cursorKey_iff (hkey : CursorKey lk rk l r) : l = r ↔ MeetsItself lk rk l := by
  constructor
  · rintro rfl
    exact ⟨hkey.mem, fun x hx hlt => (hkey.passed x hx hlt).1⟩
  · rintro ⟨hmem, hall⟩
    rcases lt_trichotomy l r with hlt | heq | hgt
    · exact absurd (hkey.passed l hmem hlt).2 (lt_irrefl l)
    · exact heq
    · have hlast := hkey.last_of_matched (hall r hkey.mem hgt) hgt
      exact absurd (hlast l hmem) (not_le_of_gt hgt)

/-- Behind a key where the merge is stuck no candidate is misjudged. -/
theorem not_misjudged_of_stuckAt (hu : 0 < unit) (hd : 0 ≤ d) (hr : rk.Pairwise (· < ·)) {x : ℤ}
    (hstuck : StuckAt .rollPrior (priorAnswer unit d) lk rk x) (hlt : x < l)
    (hcand : PriorCandidate lk rk l c) : ¬ Misjudged unit d l c := by
  obtain ⟨r, c', hkey, hcand', hlast, hgt⟩ := hstuck
  have hkey' : CursorKey lk rk l r := by
    refine ⟨hkey.mem, fun k hk hkr => ?_, Or.inl hlast⟩
    obtain ⟨hmem, hkx⟩ := hkey.passed k hk hkr
    exact ⟨hmem, hkx.trans hlt⟩
  obtain rfl := (CandKey.priorCandidate hr hkey' hcand').unique hcand
  have hbehind := lt_of_priorAnswer_greaterThan hu hd hgt
  have hfar := ((priorAnswer_eq_greaterThan hu hd).mp hgt).2
  have hle := Int.tdiv_le_tdiv hu (show x - c' ≤ l - c' by omega)
  have hmul := Int.mul_le_mul_of_nonneg_right hle hu.le
  rintro (⟨hafter, _⟩ | ⟨_, hpass⟩)
  · omega
  · unfold durationCast at hpass
    omega

/-- No carried key is after its left key or beyond the look-back exactly if no left key meets a
candidate that is misjudged. -/
theorem forall_carriedKey_prior_iff (hu : 0 < unit) (hd : 0 ≤ d) (hr : rk.Pairwise (· < ·))
    (hne : rk ≠ []) :
    (∀ l ∈ lk, (∀ x ∈ lk, x < l → ¬ StuckAt .rollPrior (priorAnswer unit d) lk rk x) →
      ∀ r c k, CursorKey lk rk l r → CandKey .rollPrior rk r c →
        carriedKey (priorAnswer unit d l r c) r c = some k → k ≤ l ∧ l - k ≤ d) ↔
    ∀ l ∈ lk, ∀ c, PriorCandidate lk rk l c → MeetsItself lk rk l ∨ ¬ Misjudged unit d l c := by
  constructor
  · intro h l hlk c hc
    rw [or_iff_not_imp_left]
    intro hself hbad
    obtain ⟨r, hkey⟩ := exists_cursorKey lk hr hne l
    obtain ⟨c', hcand⟩ := exists_candKey .rollPrior hkey.mem
    obtain rfl := (CandKey.priorCandidate hr hkey hcand).unique hc
    obtain ⟨⟨hnonneg, hpass⟩, hwrong⟩ := (misjudged_iff hu hd).mp hbad
    apply hwrong
    apply h l hlk _ r c' c' hkey hcand
    · rw [carriedKey_priorAnswer_eq_some]
      exact Or.inr ⟨(eq_cursorKey_iff hkey).not.mpr hself, hnonneg, hpass, rfl⟩
    · exact fun x _ hlt hstuck => not_misjudged_of_stuckAt hu hd hr hstuck hlt hc hbad
  · intro h l hlk _ r c k hkey hcand hcarried
    rcases carriedKey_priorAnswer_eq_some.mp hcarried with ⟨rfl, rfl⟩ | ⟨hlr, hnonneg, hpass, rfl⟩
    · omega
    · by_contra hwrong
      rcases h l hlk c (CandKey.priorCandidate hr hkey hcand) with hself | hgood
      · exact hlr ((eq_cursorKey_iff hkey).mpr hself)
      · exact hgood ((misjudged_iff hu hd).mpr ⟨⟨hnonneg, hpass⟩, hwrong⟩)

end Keys

/-- In every run of the backward as-of merge the right rows used are neither after their left rows
nor beyond the look-back exactly if no left key, but for those that meet the same right key, meets
a candidate that is misjudged. -/
theorem mergeApplyAsof_prior_noLookAhead_iff {V W O : Type} (left : TimeSeries ℤ V)
    (other : TimeSeries ℤ W) (defaultValue : W) (func : V → W → O) (unit lookBack : ℤ)
    (hu : 0 < unit) (hd : 0 ≤ lookBack) (hl : left.StrictlyIncreasing)
    (hr : other.StrictlyIncreasing) (hne : 0 < other.size) :
    (∀ s, (left.mergeApplyAsofLoop other defaultValue
        (some (mergeAsofPrior unit left other lookBack)) func .rollPrior).Reaches
        (.start left other) s →
      ∀ l q, left.UsesRow other (some (mergeAsofPrior unit left other lookBack)) .rollPrior s l q →
        q.1 ≤ l.1 ∧ l.1 - q.1 ≤ lookBack) ↔
    ∀ l ∈ left.keys, ∀ c, PriorCandidate left.keys other.keys l c →
      MeetsItself left.keys other.keys l ∨ ¬ Misjudged unit lookBack l c := by
  rw [TimeSeries.forall_usesRow_iff (P := fun l k => k ≤ l ∧ l - k ≤ lookBack) defaultValue
    (some (mergeAsofPrior unit left other lookBack)) func hl hr hne
    (aligned_priorAnswer unit lookBack) (asksKeys_mergeAsofPrior unit lookBack left other)]
  exact forall_carriedKey_prior_iff hu hd hr (List.ne_nil_of_length_pos hne)

/-- A right row two milliseconds before the left row is used within a look-back of 2.5. -/
theorem mergeApplyAsof_prior_noLookAhead_milliseconds :
    TimeSeries.UsesRow (.ofRows [((3000000 : ℤ), (30 : ℤ))])
      (.ofRows [((1000000 : ℤ), (5 : ℤ)), (9000000, 6)])
      (some (mergeAsofPrior 1000000 (.ofRows [((3000000 : ℤ), (30 : ℤ))])
        (.ofRows [((1000000 : ℤ), (5 : ℤ)), (9000000, 6)]) 2500000)) .rollPrior
      (.start (.ofRows [((3000000 : ℤ), (30 : ℤ))])
        (.ofRows [((1000000 : ℤ), (5 : ℤ)), (9000000, 6)]) : JoinState ℤ ℤ)
      (3000000, 30) (1000000, 5) ∧
    (1000000 : ℤ) ≤ 3000000 ∧ (3000000 : ℤ) - 1000000 ≤ 2500000 := by
  constructor
  · exact ⟨rfl, _, _, rfl, rfl, rfl⟩
  · refine (mergeApplyAsof_prior_noLookAhead_iff (.ofRows [((3000000 : ℤ), (30 : ℤ))])
      (.ofRows [((1000000 : ℤ), (5 : ℤ)), (9000000, 6)]) 0 (fun v w : ℤ => v + w) 1000000 2500000
      (by decide) (by decide) (by decide) (by decide) (by decide)).mpr ?_ _
      (WhileLoop.Reaches.refl _) (3000000, 30) (1000000, 5) ⟨rfl, _, _, rfl, rfl, rfl⟩
    intro l hl c hc
    obtain rfl : l = 3000000 := by simpa using hl
    have hmem : c = 1000000 ∨ c = 9000000 := by
      rcases hc with hc | ⟨_, hc⟩
      · simpa using hc.1.1
      · simpa using hc.1
    right
    unfold Misjudged
    omega

/-- A right row half a millisecond after the left row is used for it, with no look-back at all. -/
theorem mergeApplyAsof_prior_looks_ahead :
    (TimeSeries.ofRows [((500000 : ℤ), (30 : ℤ))]).StrictlyIncreasing ∧
      (TimeSeries.ofRows [((1000000 : ℤ), (5 : ℤ))]).StrictlyIncreasing ∧
      ∃ s : JoinState ℤ ℤ, (TimeSeries.mergeApplyAsofLoop (.ofRows [((500000 : ℤ), (30 : ℤ))])
          (.ofRows [((1000000 : ℤ), (5 : ℤ))]) 0
          (some (mergeAsofPrior 1000000 (.ofRows [((500000 : ℤ), (30 : ℤ))])
            (.ofRows [((1000000 : ℤ), (5 : ℤ))]) 0))
          (fun v w => v + w) .rollPrior).Reaches (.start (.ofRows [((500000 : ℤ), (30 : ℤ))])
            (.ofRows [((1000000 : ℤ), (5 : ℤ))])) s ∧
        ∃ l q, TimeSeries.UsesRow (.ofRows [((500000 : ℤ), (30 : ℤ))])
          (.ofRows [((1000000 : ℤ), (5 : ℤ))])
          (some (mergeAsofPrior 1000000 (.ofRows [((500000 : ℤ), (30 : ℤ))])
            (.ofRows [((1000000 : ℤ), (5 : ℤ))]) 0)) .rollPrior s l q ∧
          ¬ (q.1 ≤ l.1 ∧ l.1 - q.1 ≤ 0) := by
  refine ⟨by decide, by decide, _, WhileLoop.Reaches.refl _, (500000, 30), (1000000, 5), ?_,
    by decide⟩
  exact ⟨rfl, _, _, rfl, rfl, rfl⟩

end ChronoExtensions

end Tspp
