import Tspp.Join.AsofKeys

/-!
# The as-of merge without a comparator

Where no comparator is given the merge compares the left key with the key under the
cursor. It is the left join as long as the cursor keeps up: at a right key that the left
series lacks the cursor waits for ever, and every later common key gets the default.
-/

namespace Tspp

variable {K V W O : Type} [LinearOrder K] {lk rk : List K} {l r c : K}

namespace TimeSeries

/-- The comparison that is used where no comparator is given, by keys. -/
def defaultAnswer : KeyAnswer K := fun l r _ =>
  (if l < r then .lessThan else if r < l then .greaterThan else .equal, false)

theorem aligned_defaultAnswer : Aligned (defaultAnswer (K := K)) := by
  intro l c
  simp [defaultAnswer]

theorem asksKeys_defaultCompare (left : TimeSeries K V) (other : TimeSeries K W) :
    AsksKeys left other (defaultCompare left other) defaultAnswer := by
  intro i j c l r k hl hr _
  rw [defaultCompare_row hl hr]
  rfl

/-- Without a comparator `greater_than` is answered behind the right key only. -/
theorem defaultAnswer_ne_greaterThan : (defaultAnswer l r c).1 ≠ .greaterThan ↔ l ≤ r := by
  rcases lt_trichotomy l r with hlt | rfl | hgt
  · simp [defaultAnswer, hlt, hlt.le]
  · simp [defaultAnswer]
  · simp [defaultAnswer, hgt, not_lt_of_gt hgt]

/-- Without a comparator the merge returns exactly if some right key before the last one is
not a left key, or no left key lies behind the last right key. -/
theorem mergeApplyAsof_noComparator_returns_iff {left : TimeSeries K V} {other : TimeSeries K W}
    {last : K} (d : W) (func : V → W → O) (hl : left.StrictlyIncreasing)
    (hr : other.StrictlyIncreasing) (hlast : other.keys.getLast? = some last) :
    (∃ t, (mergeApplyAsofLoop left other d none func .noRoll).Returns (.start left other) t) ↔
      (∃ k ∈ other.keys.dropLast, k ∉ left.keys) ∨ ∀ l ∈ left.keys, l ≤ last := by
  obtain ⟨c, hcand⟩ := exists_candKey .noRoll (List.mem_of_getLast? hlast)
  rw [mergeApplyAsof_returns_iff_last d none func hl hr aligned_defaultAnswer
    (asksKeys_defaultCompare left other) hlast hcand]
  · simp only [defaultAnswer_ne_greaterThan]
  · intro l hgt k _ hlt
    by_contra hle
    exact defaultAnswer_ne_greaterThan.mpr ((not_lt.mp hle).trans hlt.le) hgt

/-- Without a comparator only the row under the cursor is carried, to the same key. -/
theorem carriedKey_defaultAnswer {k : K} :
    carriedKey (defaultAnswer l r c) r c = some k ↔ l = r ∧ r = k := by
  rcases lt_trichotomy l r with hlt | rfl | hgt
  · simp [carriedKey, defaultAnswer, hlt, hlt.ne]
  · simp [carriedKey, defaultAnswer]
  · simp [carriedKey, defaultAnswer, hgt, not_lt_of_gt hgt, hgt.ne']

/-- Over an empty right series the merge returns only for an empty left series. -/
theorem isLeftJoin_of_returns_empty {left : TimeSeries K V} {other : TimeSeries K W} {d : W}
    {func : V → W → O} (hempty : other.keys = []) {t : JoinState K O}
    (ht : (mergeApplyAsofLoop left other d none func .noRoll).Returns (.start left other) t) :
    IsLeftJoin left other d func t.result := by
  have hsize : other.size = 0 := by rw [size, hempty]; rfl
  have hcond := mergeApplyAsofLoop_cond left other d none func .noRoll 0 0 .empty
  by_cases hleft : left.size = 0
  · have hdone : (mergeApplyAsofLoop left other d none func .noRoll).cond (.start left other) =
        false := by
      rw [← Bool.not_eq_true]
      exact fun h => hcond.mp h hleft.symm
    rw [WhileLoop.returns_of_not_cond hdone] at ht
    have hrow : ∀ i : ℕ, left.rows[i]? = none := fun i =>
      List.getElem?_eq_none (by rw [length_rows]; omega)
    refine ⟨?_, fun i k v w hi => ?_, fun i k v hi => ?_⟩
    · rw [ht, List.eq_nil_of_length_eq_zero hleft]
      rfl
    · rw [hrow] at hi
      cases hi
    · rw [hrow] at hi
      cases hi
  · obtain ⟨k, v, hl⟩ := exists_row (Nat.pos_of_ne_zero hleft)
    have hr : (IteratorPair.row 0).deref other.toContainers = .error .outOfRange :=
      deref_row_of_le (by omega)
    have hl' := deref_row hl
    have hbody : (mergeApplyAsofLoop left other d none func .noRoll).body (.start left other) =
        .error .outOfRange := by
      rw [JoinState.start, cbegin_eq, cbegin_eq]
      simp only [mergeApplyAsofLoop, candIdx, Option.getD_none, defaultCompare, hl', hr, bind,
        Except.bind, pure, Except.pure]
    exact absurd ht (WhileLoop.not_returns_of_error (hcond.mpr (Ne.symm hleft)) hbody t)

/-- Without a comparator the merge is the left join exactly if no right key before a common
key is missing on the left: the cursor waits at such a key for ever. -/
theorem mergeApplyAsof_noComparator_isLeftJoin_iff (lk rk : List K)
    (hl : lk.Pairwise (· < ·)) (hr : rk.Pairwise (· < ·)) :
    (∀ (V W O : Type) (left : TimeSeries K V) (other : TimeSeries K W) (defaultValue : W)
        (func : V → W → O) (t : JoinState K O), left.keys = lk → other.keys = rk →
      (mergeApplyAsofLoop left other defaultValue none func .noRoll).Returns
        (.start left other) t →
      IsLeftJoin left other defaultValue func t.result) ↔
    ∀ l ∈ lk, l ∈ rk → ∀ k ∈ rk, k < l → k ∈ lk := by
  by_cases hne : rk = []
  · subst hne
    refine iff_of_true ?_ (fun l _ hl => by cases hl)
    rintro V W O left other d func t - hempty ht
    exact isLeftJoin_of_returns_empty hempty ht
  simp only [isLeftJoin_iff_isAsofJoin]
  rw [isAsofJoin_iff_carriedKey (fun _ _ _ _ => none) hl hr hne aligned_defaultAnswer
    fun V W left other => asksKeys_defaultCompare left other]
  simp only [carriedKey_defaultAnswer]
  constructor
  · rintro (⟨_, _, r, c, hkey, _, hlast, _⟩ | hcarry) l hlk hlr k hk hlt
    · exact (hkey.passed k hk (hlt.trans_le (hlast l hlr))).1
    · obtain ⟨r, hkey⟩ := exists_cursorKey lk hr hne l
      obtain ⟨c, hcand⟩ := exists_candKey .noRoll hkey.mem
      obtain ⟨rfl, _⟩ := (hcarry l hlk r c hkey hcand l hlr).mpr rfl
      exact (hkey.passed k hk hlt).1
  · intro hcond
    right
    intro l hlk r c hkey _ k hk
    constructor
    · rintro ⟨rfl, rfl⟩
      rfl
    · rintro rfl
      rcases lt_trichotomy k r with hlt | rfl | hgt
      · exact absurd (hkey.passed k hk hlt).2 (lt_irrefl k)
      · exact ⟨rfl, rfl⟩
      · have hlast := hkey.last_of_matched (hcond k hlk hk r hkey.mem hgt) hgt
        exact absurd (hlast k hk) (not_le_of_gt hgt)

/-- With every right key on the left the merge is the left join. -/
theorem mergeApplyAsof_noComparator_isLeftJoin_subset :
    IsLeftJoin (ofRows [((1 : ℤ), 10), (2, 20)]) (ofRows [((2 : ℤ), 5)]) 0 (fun v w : ℤ => v + w)
      (ofRows [((1 : ℤ), 10), (2, 25)]) :=
  (mergeApplyAsof_noComparator_isLeftJoin_iff [(1 : ℤ), 2] [2] (by decide) (by decide)).mpr
    (by decide) ℤ ℤ ℤ (ofRows [((1 : ℤ), 10), (2, 20)]) (ofRows [((2 : ℤ), 5)]) 0
    (fun v w : ℤ => v + w) ⟨.row 2, .row 0, _⟩ rfl rfl ⟨2, rfl, rfl⟩

/-- The right key 1 is not a left key, so the common key 3 gets the default. -/
theorem mergeApplyAsof_noComparator_misses_key :
    (ofRows [((2 : ℤ), 20), (3, 30)]).StrictlyIncreasing ∧
      (ofRows [((1 : ℤ), 5), (3, 7)]).StrictlyIncreasing ∧
      ∃ t, (mergeApplyAsofLoop (ofRows [((2 : ℤ), 20), (3, 30)]) (ofRows [((1 : ℤ), 5), (3, 7)]) 0
          none (fun v w : ℤ => v + w) .noRoll).Returns
          (.start (ofRows [((2 : ℤ), 20), (3, 30)]) (ofRows [((1 : ℤ), 5), (3, 7)])) t ∧
        ¬ IsLeftJoin (ofRows [((2 : ℤ), 20), (3, 30)]) (ofRows [((1 : ℤ), 5), (3, 7)]) 0
          (fun v w : ℤ => v + w) t.result := by
  refine ⟨by decide, by decide, _, ⟨2, rfl, rfl⟩, ?_⟩
  intro h
  have hvalue := h.matched 1 3 30 7 rfl (by decide)
  revert hvalue
  decide

end TimeSeries

end Tspp
