import Tspp.Chrono.AsofPrior

/-!
# The forward as-of join

The forward comparator carries the row under the cursor to a left key not after it, and
then the look-forward is respected. Once the cursor waits at a right key that the left
series lacks, the later left keys are compared with the key after it: that row is carried
to every left key up to it however far away it is, and to no left key beyond it.
-/

namespace Tspp

namespace ChronoExtensions

open TruncatedDivision

/-- `k` is the earliest right key not before `l`, and within the look-forward of `l`. -/
def EarliestWithin (rk : List ℤ) (lookFwd l k : ℤ) : Prop :=
  IsLeast {x | x ∈ rk ∧ l ≤ x} k ∧ k - l ≤ lookFwd

/-- `f` is the first right key that is not a left key. -/
structure FirstMissing (lk rk : List ℤ) (f : ℤ) : Prop where
  mem : f ∈ rk
  missing : f ∉ lk
  earlier : ∀ x ∈ rk, x < f → x ∈ lk

/-- `s` is the right key after `f`. -/
structure NextKey (rk : List ℤ) (f s : ℤ) : Prop where
  mem : s ∈ rk
  lt : f < s
  least : ∀ x ∈ rk, f < x → s ≤ x

/-- Behind the first missing right key `f`, the right key `s` after it is within the
look-forward of every left key up to it, and no right key is within the look-forward of a
left key beyond it. -/
def FwdInBound (lk rk : List ℤ) (lookFwd : ℤ) : Prop :=
  ∀ f s, FirstMissing lk rk f → NextKey rk f s → ∀ l ∈ lk, f < l →
    (l ≤ s → s - l ≤ lookFwd) ∧ (s < l → ∀ k ∈ rk, l ≤ k → lookFwd < k - l)

section Keys

variable {lk rk : List ℤ} {unit d l r c k f s : ℤ}

/-- The row that the forward comparator carries. -/
theorem carriedKey_fwdAnswer (hu : 0 < unit) (hd : 0 ≤ d) (hl : unit ∣ l) (hr : unit ∣ r)
    (hc : unit ∣ c) (hrc : r ≤ c) :
    carriedKey (fwdAnswer unit d l r c) r c = some k ↔
      l ≤ r ∧ r - l ≤ d ∧ r = k ∨ r < l ∧ l ≤ c ∧ c = k := by
  rcases lt_trichotomy l r with hlt | rfl | hgt
  · have hmono : (r - l).tdiv unit ≤ (c - l).tdiv unit := Int.tdiv_le_tdiv hu (by omega)
    have hnonneg : 0 ≤ (r - l).tdiv unit := not_lt.mp (mt (tdiv_sub_neg_iff hu hr hl).mp (by omega))
    have hdiff : min ((c - l).tdiv unit) (max ((r - l).tdiv unit) 0) = (r - l).tdiv unit := by
      rw [max_eq_left hnonneg, min_eq_right hmono]
    simp only [fwdAnswer, hdiff, hlt.ne, if_false, not_lt_of_ge hnonneg, tdiv_mul_sub hr hl, hlt.le,
      true_and, not_lt_of_gt hlt, false_and, or_false, bne_self_eq_false]
    by_cases hfar : d < r - l
    · simp only [hfar, if_true, carriedKey, reduceCtorEq, not_le_of_gt hfar, false_and]
    · simp [hfar, carriedKey, not_lt.mp hfar]
  · simp [fwdAnswer, carriedKey, hd]
  · have hneg : (r - l).tdiv unit < 0 := (tdiv_sub_neg_iff hu hr hl).mpr hgt
    simp only [fwdAnswer, hgt.ne', if_false, max_eq_right hneg.le, not_le_of_gt hgt, false_and, hgt,
      true_and, false_or]
    by_cases hpast : c < l
    · have hneg' : (c - l).tdiv unit < 0 := (tdiv_sub_neg_iff hu hc hl).mpr hpast
      simp [carriedKey, min_eq_left hneg'.le, hneg', not_le_of_gt hpast]
    · have hnonneg : 0 ≤ (c - l).tdiv unit := not_lt.mp (mt (tdiv_sub_neg_iff hu hc hl).mp hpast)
      simp [carriedKey, min_eq_right hnonneg, not_lt_of_ge hd, not_lt.mp hpast, hneg.ne']

/-- The rolled-forward candidate is not before the cursor. -/
theorem le_of_rollFollowing (hr : rk.Pairwise (· < ·)) (h : CandKey .rollFollowing rk r c) :
    r ≤ c := by
  rcases h.rollFollowing_cases hr with ⟨rfl, _⟩ | ⟨hlt, _⟩
  · exact le_refl c
  · exact hlt.le

/-- The cursor waits at the first missing right key when it comes to a later left key. -/
theorem FirstMissing.cursorKey (h : FirstMissing lk rk f) (hfl : f < l) : CursorKey lk rk l f := by
  refine ⟨h.mem, fun x hx hlt => ⟨h.earlier x hx hlt, hlt.trans hfl⟩, Or.inr ?_⟩
  exact fun hmatched => h.missing hmatched.1

/-- The candidate next to a right key that is not the last one is the key after it. -/
theorem NextKey.candKey (hr : rk.Pairwise (· < ·)) (h : NextKey rk f s)
    (hcand : CandKey .rollFollowing rk f c) : s = c := by
  rcases hcand.rollFollowing_cases hr with ⟨_, hlast⟩ | ⟨hlt, hleast⟩
  · exact absurd (hlast s h.mem) (not_le_of_gt h.lt)
  · exact le_antisymm (h.least c hcand.mem hlt) (hleast s h.mem h.lt)

/-- Up to the cursor the row under it is the earliest one. -/
theorem earliestWithin_iff_cursor (hkey : CursorKey lk rk l r) (hlr : l ≤ r) :
    EarliestWithin rk d l k ↔ r - l ≤ d ∧ r = k := by
  have hleast : IsLeast {x | x ∈ rk ∧ l ≤ x} r := by
    refine ⟨⟨hkey.mem, hlr⟩, fun x hx => ?_⟩
    by_contra hxr
    exact absurd (hkey.passed x hx.1 (not_le.mp hxr)).2 (not_lt_of_ge hx.2)
  constructor
  · rintro ⟨hk, hnear⟩
    obtain rfl := hleast.unique hk
    exact ⟨hnear, rfl⟩
  · rintro ⟨hnear, rfl⟩
    exact ⟨hleast, hnear⟩

/-- A merge that carries exactly the earliest right keys respects the look-forward. -/
theorem fwdInBound_of_carried (hr : rk.Pairwise (· < ·))
    (h : ∀ l ∈ lk, ∀ r c, CursorKey lk rk l r → CandKey .rollFollowing rk r c → ∀ k ∈ rk,
      (l ≤ r ∧ r - l ≤ d ∧ r = k ∨ r < l ∧ l ≤ c ∧ c = k ↔ EarliestWithin rk d l k)) :
    FwdInBound lk rk d := by
  intro f s hf hs l hl hfl
  obtain ⟨c, hcand⟩ := exists_candKey .rollFollowing hf.mem
  obtain rfl := hs.candKey hr hcand
  have hcarry := h l hl f s (hf.cursorKey hfl) hcand
  constructor
  · intro hls
    exact ((hcarry s hs.mem).mp (Or.inr ⟨hfl, hls, rfl⟩)).2
  · intro hsl k hk hlk
    obtain ⟨g, hg⟩ := SortedKeys.exists_isLeast_ge hk hlk
    have hgk : g ≤ k := hg.2 ⟨hk, hlk⟩
    by_contra hnear
    rcases (hcarry g hg.1.1).mpr ⟨hg, by omega⟩ with ⟨hlf, _⟩ | ⟨_, hls, _⟩
    · exact absurd hfl (not_lt_of_ge hlf)
    · exact absurd hsl (not_lt_of_ge hls)

/-- A merge that respects the look-forward carries exactly the earliest right keys. -/
theorem carried_iff_of_fwdInBound (hr : rk.Pairwise (· < ·)) (hbound : FwdInBound lk rk d)
    (hl : l ∈ lk) (hkey : CursorKey lk rk l r) (hcand : CandKey .rollFollowing rk r c) :
    l ≤ r ∧ r - l ≤ d ∧ r = k ∨ r < l ∧ l ≤ c ∧ c = k ↔ EarliestWithin rk d l k := by
  by_cases hlr : l ≤ r
  · rw [earliestWithin_iff_cursor hkey hlr]
    simp [hlr, not_lt_of_ge hlr]
  have hrl := not_le.mp hlr
  rcases hcand.rollFollowing_cases hr with ⟨rfl, hlast⟩ | ⟨hrc, hleast⟩
  · -- Behind the last right key nothing is carried and nothing is admissible.
    refine iff_of_false (by omega) ?_
    rintro ⟨⟨⟨hmem, hlk⟩, _⟩, _⟩
    exact absurd (hlast k hmem) (not_le_of_gt (hrl.trans_le hlk))
  · have hmissing : FirstMissing lk rk r := by
      refine ⟨hkey.mem, fun hrk => ?_, fun x hx hlt => (hkey.passed x hx hlt).1⟩
      exact absurd (hkey.last_of_matched hrk hrl c hcand.mem) (not_le_of_gt hrc)
    obtain ⟨hupto, hbeyond⟩ := hbound r c hmissing ⟨hcand.mem, hrc, hleast⟩ l hl hrl
    by_cases hlc : l ≤ c
    · have hearliest : IsLeast {x | x ∈ rk ∧ l ≤ x} c :=
        ⟨⟨hcand.mem, hlc⟩, fun x hx => hleast x hx.1 (hrl.trans_le hx.2)⟩
      constructor
      · rintro (⟨hle, _⟩ | ⟨_, _, rfl⟩)
        · exact absurd hle hlr
        · exact ⟨hearliest, hupto hlc⟩
      · rintro ⟨hk, _⟩
        exact Or.inr ⟨hrl, hlc, hearliest.unique hk⟩
    · refine iff_of_false (by omega) ?_
      rintro ⟨⟨⟨hmem, hlk⟩, _⟩, hnear⟩
      exact absurd (hbeyond (not_le.mp hlc) k hmem hlk) (not_lt_of_ge hnear)

/-- A merge that is stuck has matched every right key but the last. -/
theorem fwdInBound_of_stuckAt {ans : KeyAnswer ℤ} {mode : Enums.MergeAsofMode}
    (h : StuckAt mode ans lk rk l) : FwdInBound lk rk d := by
  obtain ⟨r, _, hkey, _, hlast, _⟩ := h
  intro f s hf hs
  have hfr : f < r := hs.lt.trans_le (hlast s hs.mem)
  exact absurd (hkey.passed f hf.mem hfr).1 hf.missing

end Keys

/-- The forward as-of merge carries the earliest right row within the look-forward to every
left key exactly if the look-forward holds behind the first missing right key. -/
theorem mergeApplyAsof_fwd_isAsofJoin_iff (unit lookFwd : ℤ) (lk rk : List ℤ)
    (hu : 0 < unit) (hd : 0 ≤ lookFwd) (hl : lk.Pairwise (· < ·)) (hr : rk.Pairwise (· < ·))
    (hne : rk ≠ []) (hlu : ∀ l ∈ lk, unit ∣ l) (hru : ∀ k ∈ rk, unit ∣ k) :
    (∀ (V W O : Type) (left : TimeSeries ℤ V) (other : TimeSeries ℤ W) (defaultValue : W)
        (func : V → W → O) (t : JoinState ℤ O), left.keys = lk → other.keys = rk →
      (left.mergeApplyAsofLoop other defaultValue (some (mergeAsofFwd unit left other lookFwd))
        func .rollFollowing).Returns (.start left other) t →
      left.IsAsofJoin other defaultValue func (EarliestWithin rk lookFwd) t.result) ↔
    FwdInBound lk rk lookFwd := by
  rw [TimeSeries.isAsofJoin_iff_carriedKey
    (fun _ _ left other => some (mergeAsofFwd unit left other lookFwd)) hl hr hne
    (aligned_fwdAnswer unit lookFwd) fun _ _ => asksKeys_mergeAsofFwd unit lookFwd]
  have hcarried : ∀ l ∈ lk, ∀ r c, CursorKey lk rk l r → CandKey .rollFollowing rk r c → ∀ k,
      (carriedKey (fwdAnswer unit lookFwd l r c) r c = some k ↔
        l ≤ r ∧ r - l ≤ lookFwd ∧ r = k ∨ r < l ∧ l ≤ c ∧ c = k) :=
    fun l hlk r c hkey hcand k => carriedKey_fwdAnswer hu hd (hlu l hlk) (hru r hkey.mem)
      (hru c hcand.mem) (le_of_rollFollowing hr hcand)
  constructor
  · rintro (⟨l, _, hstuck⟩ | hcarry)
    · exact fwdInBound_of_stuckAt hstuck
    · refine fwdInBound_of_carried hr fun l hlk r c hkey hcand k hk => ?_
      rw [← hcarried l hlk r c hkey hcand k]
      exact hcarry l hlk r c hkey hcand k hk
  · intro hbound
    right
    intro l hlk r c hkey hcand k _
    rw [hcarried l hlk r c hkey hcand k]
    exact carried_iff_of_fwdInBound hr hbound hlk hkey hcand

/-- With only the last right key missing on the left the look-forward is respected. -/
theorem mergeApplyAsof_fwd_isAsofJoin_last_missing :
    TimeSeries.IsAsofJoin (.ofRows [((1 : ℤ), (10 : ℤ)), (2, 20), (3, 30)])
      (.ofRows [((2 : ℤ), (5 : ℤ)), (4, 6)]) 0 (fun v w => v + w) (EarliestWithin [2, 4] 1)
      (.ofRows [((1 : ℤ), (15 : ℤ)), (2, 25), (3, 36)]) := by
  refine (mergeApplyAsof_fwd_isAsofJoin_iff 1 1 [1, 2, 3] [2, 4] (by decide) (by decide)
    (by decide) (by decide) (by decide) (by decide) (by decide)).mpr ?_ ℤ ℤ ℤ
    (.ofRows [((1 : ℤ), (10 : ℤ)), (2, 20), (3, 30)]) (.ofRows [((2 : ℤ), (5 : ℤ)), (4, 6)]) 0
    (fun v w => v + w) ⟨.row 3, .row 1, _⟩ rfl rfl ⟨3, rfl, rfl⟩
  intro f s hf hs
  have hlast : ∀ f ∈ [(2 : ℤ), 4], f ∉ [(1 : ℤ), 2, 3] → ∀ s ∈ [(2 : ℤ), 4], ¬ f < s := by decide
  exact absurd hs.lt (hlast f hf.mem hf.missing s hs.mem)

/-- Behind a missing right key a row far beyond the look-forward is carried. -/
theorem mergeApplyAsof_fwd_exceeds_bound :
    (TimeSeries.ofRows [((2 : ℤ), (20 : ℤ))]).StrictlyIncreasing ∧
      (TimeSeries.ofRows [((1 : ℤ), (5 : ℤ)), (100, 6)]).StrictlyIncreasing ∧
      ∃ t : JoinState ℤ ℤ, (TimeSeries.mergeApplyAsofLoop (.ofRows [(2, 20)])
          (.ofRows [(1, 5), (100, 6)]) 0 (some (mergeAsofFwd 1 (.ofRows [((2 : ℤ), (20 : ℤ))])
            (.ofRows [((1 : ℤ), (5 : ℤ)), (100, 6)]) 1)) (fun v w => v + w) .rollFollowing).Returns
          (.start (.ofRows [((2 : ℤ), (20 : ℤ))])
            (.ofRows [((1 : ℤ), (5 : ℤ)), (100, 6)])) t ∧
        ¬ TimeSeries.IsAsofJoin (.ofRows [((2 : ℤ), (20 : ℤ))])
          (.ofRows [((1 : ℤ), (5 : ℤ)), (100, 6)]) 0 (fun v w => v + w)
          (EarliestWithin [1, 100] 1) t.result := by
  refine ⟨by decide, by decide, _, ⟨1, rfl, rfl⟩, ?_⟩
  intro h
  have hnone : ∀ k ∈ [(1 : ℤ), 100], ¬ EarliestWithin [1, 100] 1 2 k := by
    rintro k hk ⟨⟨⟨_, hle⟩, _⟩, hnear⟩
    have hfar : ∀ k ∈ [(1 : ℤ), 100], 2 ≤ k → ¬ k - 2 ≤ 1 := by decide
    exact hfar k hk hle hnear
  have hvalue := h.unmatched 0 2 20 rfl hnone
  revert hvalue
  decide

end ChronoExtensions

end Tspp
