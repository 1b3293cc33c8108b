import Tspp.Chrono.Termination

/-!
# The backward as-of join

The backward comparator carries the row under the cursor to the same left key and the
row before the cursor to a later one. The row before the cursor is the latest right row
only if the cursor stands right behind it: if that row, and every right row before it,
has been matched, and it is not the last one.
-/

namespace Tspp

namespace ChronoExtensions

open TruncatedDivision

/-- `k` is the latest right key not after `l`, and within the look-back of `l`. -/
def LatestWithin (rk : List ℤ) (lookBack l k : ℤ) : Prop :=
  IsGreatest {x | x ∈ rk ∧ x ≤ l} k ∧ l - k ≤ lookBack

/-- Every right key but the last is a left key, and some left key other than the last right
key lies farther behind the right key before the last one than the look-back. -/
def PriorRunsForever (lk rk : List ℤ) (lookBack : ℤ) : Prop :=
  (∀ k ∈ rk.dropLast, k ∈ lk) ∧ ∃ last prev, rk.getLast? = some last ∧
    rk[rk.length - 2]? = some prev ∧ ∃ l ∈ lk, l ≠ last ∧ lookBack < l - prev

/-- The cursor is in place for the left key `l`: where the latest right key is `l` itself, the
right keys before it are left keys; where it is earlier, it is the first right key, or it is
not the last one and the right keys up to it are left keys. -/
def PriorInPlace (lk rk : List ℤ) (lookBack l : ℤ) : Prop :=
  ∀ k, LatestWithin rk lookBack l k →
    (k = l → ∀ x ∈ rk, x < k → x ∈ lk) ∧
    (k < l → (∀ x ∈ rk, k ≤ x) ∨ (∃ x ∈ rk, k < x) ∧ ∀ x ∈ rk, x ≤ k → x ∈ lk)

section Keys

variable {lk rk : List ℤ} {unit d l r c k : ℤ}

/-- The row that the backward comparator carries. -/
theorem carriedKey_priorAnswer_eq_some :
    carriedKey (priorAnswer unit d l r c) r c = some k ↔
      l = r ∧ r = k ∨ l ≠ r ∧ 0 ≤ (l - c).tdiv unit ∧ (l - c).tdiv unit * unit ≤ d ∧ c = k := by
  by_cases hkeys : l = r
  · simp [carriedKey, priorAnswer, hkeys]
  · by_cases hneg : (l - c).tdiv unit < 0
    · simp [carriedKey, priorAnswer, hkeys, hneg, not_le.mpr hneg]
    · by_cases hfar : d < (l - c).tdiv unit * unit
      · simp [carriedKey, priorAnswer, hkeys, hneg, hfar, not_le.mpr hfar]
      · simp [carriedKey, priorAnswer, hkeys, hneg, hfar, not_lt.mp hneg, not_lt.mp hfar]

/-- The row that the backward comparator carries between keys of whole units. -/
theorem carriedKey_priorAnswer (hu : 0 < unit) (hl : unit ∣ l) (hc : unit ∣ c) :
    carriedKey (priorAnswer unit d l r c) r c = some k ↔
      l = r ∧ r = k ∨ l ≠ r ∧ c ≤ l ∧ l - c ≤ d ∧ c = k := by
  rw [carriedKey_priorAnswer_eq_some, ← not_lt, tdiv_sub_neg_iff hu hl hc, not_lt,
    tdiv_mul_sub hl hc]

/-- A merge that carries every latest right key has its cursor in place. -/
theorem priorInPlace_of_carried (hr : rk.Pairwise (· < ·)) (hkey : CursorKey lk rk l r)
    (hcand : CandKey .rollPrior rk r c)
    (h : ∀ k, LatestWithin rk d l k → l = r ∧ r = k ∨ l ≠ r ∧ c ≤ l ∧ l - c ≤ d ∧ c = k) :
    PriorInPlace lk rk d l := by
  intro k hk
  obtain ⟨⟨⟨hmem, hle⟩, _⟩, _⟩ := id hk
  rcases h k hk with ⟨rfl, rfl⟩ | ⟨hne, _, _, rfl⟩
  · exact ⟨fun _ x hx hlt => (hkey.passed x hx hlt).1, fun hlt => absurd hlt (lt_irrefl _)⟩
  · rcases hcand.rollPrior_cases hr with ⟨rfl, hfirst⟩ | ⟨hlt, _⟩
    · exact ⟨fun he => absurd he.symm hne, fun _ => Or.inl hfirst⟩
    · have hpassed := hkey.passed c hmem hlt
      refine ⟨fun he => absurd hpassed.2 (not_lt_of_ge he.ge), fun _ => Or.inr ?_⟩
      refine ⟨⟨r, hkey.mem, hlt⟩, ?_⟩
      exact fun x hx hxc => (hkey.passed x hx (hxc.trans_lt hlt)).1

/-- Where the cursor is in place, only a latest right key is carried. -/
theorem latestWithin_of_carried (hr : rk.Pairwise (· < ·)) (hd : 0 ≤ d)
    (hkey : CursorKey lk rk l r) (hcand : CandKey .rollPrior rk r c)
    (hplace : PriorInPlace lk rk d l)
    (h : l = r ∧ r = k ∨ l ≠ r ∧ c ≤ l ∧ l - c ≤ d ∧ c = k) : LatestWithin rk d l k := by
  rcases h with ⟨rfl, rfl⟩ | ⟨hne, hle, hnear, rfl⟩
  · exact ⟨⟨⟨hkey.mem, le_refl l⟩, fun x hx => hx.2⟩, by omega⟩
  · -- Suppose a later right key `g` is the latest: then the cursor should have passed `r`.
    obtain ⟨g, hg⟩ := SortedKeys.exists_isGreatest_le hcand.mem hle
    obtain ⟨⟨hgmem, hgl⟩, hgmax⟩ := id hg
    have hcg : c ≤ g := hgmax ⟨hcand.mem, hle⟩
    rcases hcg.eq_or_lt with rfl | hlt
    · exact ⟨hg, hnear⟩
    have hrg : r ≤ g := by
      rcases hcand.rollPrior_cases hr with ⟨rfl, _⟩ | ⟨_, hprev⟩
      · exact hcg
      · by_contra hgr
        exact absurd (hprev g hgmem (not_le.mp hgr)) (not_le_of_gt hlt)
    have hwaits : r ∈ lk → ¬ r < g := by
      intro hrl hrlt
      have hlast := hkey.last_of_matched hrl (hrlt.trans_le hgl)
      exact absurd (hlast g hgmem) (not_le_of_gt hrlt)
    obtain ⟨hsame, hearlier⟩ := hplace g ⟨hg, by omega⟩
    rcases hgl.eq_or_lt with rfl | hgl
    · have hrlt : r < g := lt_of_le_of_ne hrg (Ne.symm hne)
      exact absurd hrlt (hwaits (hsame rfl r hkey.mem hrlt))
    · rcases hearlier hgl with hfirst | ⟨⟨x, hx, hgx⟩, hall⟩
      · exact absurd (hfirst c hcand.mem) (not_le_of_gt hlt)
      · have hlast := hkey.last_of_matched (hall r hkey.mem hrg) (hrg.trans_lt hgl)
        exact absurd (hlast x hx) (not_le_of_gt (hrg.trans_lt hgx))

/-- Where the cursor is in place, every latest right key is carried. -/
theorem carried_of_latestWithin (hr : rk.Pairwise (· < ·)) (hkey : CursorKey lk rk l r)
    (hcand : CandKey .rollPrior rk r c) (hplace : PriorInPlace lk rk d l)
    (h : LatestWithin rk d l k) : l = r ∧ r = k ∨ l ≠ r ∧ c ≤ l ∧ l - c ≤ d ∧ c = k := by
  obtain ⟨hsame, hearlier⟩ := hplace k h
  obtain ⟨⟨⟨hmem, hkl⟩, hmax⟩, hnear⟩ := h
  rcases hkl.eq_or_lt with rfl | hlt
  · left
    rcases lt_trichotomy k r with hkr | rfl | hrk
    · exact absurd (hkey.passed k hmem hkr).2 (lt_irrefl k)
    · exact ⟨rfl, rfl⟩
    · have hlast := hkey.last_of_matched (hsame rfl r hkey.mem hrk) hrk
      exact absurd (hlast k hmem) (not_le_of_gt hrk)
  · right
    have hne : l ≠ r := by
      rintro rfl
      exact absurd (hmax ⟨hkey.mem, le_refl l⟩) (not_le_of_gt hlt)
    have hck : c = k := by
      rcases hcand.rollPrior_cases hr with ⟨rfl, hfirst⟩ | ⟨hcr, hprev⟩
      · rcases hearlier hlt with hkfirst | ⟨⟨x, hx, hkx⟩, hall⟩
        · exact le_antisymm (hfirst k hmem) (hkfirst c hcand.mem)
        · have hck := hfirst k hmem
          have hlast := hkey.last_of_matched (hall c hcand.mem hck) (hck.trans_lt hlt)
          exact absurd ((hlast x hx).trans hck) (not_le_of_gt hkx)
      · have hcl := (hkey.passed c hcand.mem hcr).2
        have hck : c ≤ k := hmax ⟨hcand.mem, hcl.le⟩
        rcases hearlier hlt with hkfirst | ⟨⟨x, hx, hkx⟩, hall⟩
        · exact le_antisymm hck (hkfirst c hcand.mem)
        · refine le_antisymm hck (hprev k hmem ?_)
          by_contra hnot
          have hrk := not_lt.mp hnot
          have hlast := hkey.last_of_matched (hall r hkey.mem hrk) (hrk.trans_lt hlt)
          exact absurd ((hlast x hx).trans hrk) (not_le_of_gt hkx)
    exact ⟨hne, hck.le.trans hlt.le, by omega, hck⟩

/-- A left key to be stuck at exists exactly if the backward merge runs for ever. -/
theorem exists_stuckAt_prior_iff (hu : 0 < unit) (hd : 0 ≤ d) (hr : rk.Pairwise (· < ·))
    (hne : rk ≠ []) (hlu : ∀ l ∈ lk, unit ∣ l) (hru : ∀ k ∈ rk, unit ∣ k) :
    (∃ l ∈ lk, StuckAt .rollPrior (priorAnswer unit d) lk rk l) ↔ PriorRunsForever lk rk d := by
  obtain ⟨last, hlast⟩ : ∃ last, rk.getLast? = some last :=
    ⟨_, List.getLast?_eq_some_getLast hne⟩
  obtain ⟨prev, hcand⟩ := exists_candKey .rollPrior (List.mem_of_getLast? hlast)
  have hprev : rk[rk.length - 2]? = some prev := by
    obtain ⟨j, hj, hc⟩ := hcand
    have hlast' := hlast
    rw [List.getLast?_eq_getElem?] at hlast'
    rwa [SortedKeys.position_unique hr hj hlast'] at hc
  have hfar : ∀ l ∈ lk, (priorAnswer unit d l last prev).1 = .greaterThan ↔
      l ≠ last ∧ d < l - prev := by
    intro l hl
    rw [priorAnswer_eq_greaterThan hu hd, tdiv_mul_sub (hlu l hl) (hru prev hcand.mem)]
  rw [exists_stuckAt_iff lk hr hlast hcand]
  · constructor
    · rintro ⟨hall, l, hl, hgt⟩
      exact ⟨hall, last, prev, hlast, hprev, l, hl, (hfar l hl).mp hgt⟩
    · rintro ⟨hall, last', prev', hlast', hprev', l, hl, hcond⟩
      obtain rfl : last = last' := Option.some.inj (hlast.symm.trans hlast')
      obtain rfl : prev = prev' := Option.some.inj (hprev.symm.trans hprev')
      exact ⟨hall, l, hl, (hfar l hl).mpr hcond⟩
  · exact greaterThan_behind_prior hu hd hr hcand

end Keys

/-- The backward as-of merge carries the latest right row within the look-back to every left
key exactly if it runs for ever or its cursor is in place at every left key. -/
theorem mergeApplyAsof_prior_isAsofJoin_iff (unit lookBack : ℤ) (lk rk : List ℤ)
    (hu : 0 < unit) (hd : 0 ≤ lookBack) (hl : lk.Pairwise (· < ·)) (hr : rk.Pairwise (· < ·))
    (hne : rk ≠ []) (hlu : ∀ l ∈ lk, unit ∣ l) (hru : ∀ k ∈ rk, unit ∣ k) :
    (∀ (V W O : Type) (left : TimeSeries ℤ V) (other : TimeSeries ℤ W) (defaultValue : W)
        (func : V → W → O) (t : JoinState ℤ O), left.keys = lk → other.keys = rk →
      (left.mergeApplyAsofLoop other defaultValue (some (mergeAsofPrior unit left other lookBack))
        func .rollPrior).Returns (.start left other) t →
      left.IsAsofJoin other defaultValue func (LatestWithin rk lookBack) t.result) ↔
    PriorRunsForever lk rk lookBack ∨ ∀ l ∈ lk, PriorInPlace lk rk lookBack l := by
  rw [TimeSeries.isAsofJoin_iff_carriedKey
    (fun _ _ left other => some (mergeAsofPrior unit left other lookBack)) hl hr hne
    (aligned_priorAnswer unit lookBack) fun _ _ => asksKeys_mergeAsofPrior unit lookBack,
    exists_stuckAt_prior_iff hu hd hr hne hlu hru]
  refine or_congr_right ⟨fun hcarry l hlk => ?_, fun hplace l hlk r c hkey hcand k hk => ?_⟩
  · obtain ⟨r, hkey⟩ := exists_cursorKey lk hr hne l
    obtain ⟨c, hcand⟩ := exists_candKey .rollPrior hkey.mem
    refine priorInPlace_of_carried hr hkey hcand fun k hk => ?_
    rw [← carriedKey_priorAnswer hu (hlu l hlk) (hru c hcand.mem)]
    exact (hcarry l hlk r c hkey hcand k hk.1.1.1).mpr hk
  · rw [carriedKey_priorAnswer hu (hlu l hlk) (hru c hcand.mem)]
    exact ⟨latestWithin_of_carried hr hd hkey hcand (hplace l hlk),
      carried_of_latestWithin hr hkey hcand (hplace l hlk)⟩

/-- The first right row is carried to the same left key and to a later one near it. -/
theorem mergeApplyAsof_prior_isAsofJoin_first :
    TimeSeries.IsAsofJoin (.ofRows [((1 : ℤ), (10 : ℤ)), (2, 20), (3, 30)])
      (.ofRows [((2 : ℤ), (5 : ℤ)), (9, 6)]) 0 (fun v w => v + w) (LatestWithin [2, 9] 3)
      (.ofRows [((1 : ℤ), (10 : ℤ)), (2, 25), (3, 35)]) := by
  refine (mergeApplyAsof_prior_isAsofJoin_iff 1 3 [1, 2, 3] [2, 9] (by decide) (by decide)
    (by decide) (by decide) (by decide) (by decide) (by decide)).mpr (Or.inr ?_) ℤ ℤ ℤ
    (.ofRows [((1 : ℤ), (10 : ℤ)), (2, 20), (3, 30)]) (.ofRows [((2 : ℤ), (5 : ℤ)), (9, 6)]) 0
    (fun v w => v + w) ⟨.row 3, .row 1, _⟩ rfl rfl ⟨3, rfl, rfl⟩
  intro l hl k hk
  have hle := hk.1.1.2
  have hmem : k = 2 ∨ k = 9 := by simpa using hk.1.1.1
  rcases hmem with rfl | rfl
  · exact ⟨fun _ => by decide, fun _ => Or.inl (by decide)⟩
  · have hthree : ∀ l ∈ [(1 : ℤ), 2, 3], l ≤ 3 := by decide
    exact absurd (hle.trans (hthree l hl)) (by decide)

/-- With no right row matched the first right row is carried instead of the latest one. -/
theorem mergeApplyAsof_prior_carries_first_row :
    (TimeSeries.ofRows [((3 : ℤ), (30 : ℤ))]).StrictlyIncreasing ∧
      (TimeSeries.ofRows [((1 : ℤ), (5 : ℤ)), (2, 6), (9, 7)]).StrictlyIncreasing ∧
      ∃ t : JoinState ℤ ℤ, (TimeSeries.mergeApplyAsofLoop (.ofRows [(3, 30)])
          (.ofRows [(1, 5), (2, 6), (9, 7)]) 0 (some (mergeAsofPrior 1
            (.ofRows [((3 : ℤ), (30 : ℤ))]) (.ofRows [((1 : ℤ), (5 : ℤ)), (2, 6), (9, 7)]) 100))
          (fun v w => v + w) .rollPrior).Returns
          (.start (.ofRows [((3 : ℤ), (30 : ℤ))])
            (.ofRows [((1 : ℤ), (5 : ℤ)), (2, 6), (9, 7)])) t ∧
        ¬ TimeSeries.IsAsofJoin (.ofRows [((3 : ℤ), (30 : ℤ))])
          (.ofRows [((1 : ℤ), (5 : ℤ)), (2, 6), (9, 7)]) 0 (fun v w => v + w)
          (LatestWithin [1, 2, 9] 100) t.result := by
  refine ⟨by decide, by decide, _, ⟨1, rfl, rfl⟩, ?_⟩
  intro h
  have hlatest : LatestWithin [1, 2, 9] 100 3 2 := by
    refine ⟨⟨⟨by decide, by decide⟩, ?_⟩, by decide⟩
    rintro x ⟨hx, hle⟩
    revert x
    decide
  have hvalue := h.matched 0 3 30 2 6 rfl (by decide) hlatest
  revert hvalue
  decide

end ChronoExtensions

end Tspp
