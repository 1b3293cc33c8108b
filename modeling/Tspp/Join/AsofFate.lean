import Tspp.Join.Asof

/-!
# How an as-of merge ends, under any comparator

Every iteration of `merge_apply_asof` passes a left row, unless the comparator answers
`greater_than` on the last right row. So the merge either ends after as many iterations as there
are left rows, or comes to an iteration that it repeats for ever, and each repetition emits the
same row once more.
-/

namespace Tspp

variable {K V W O : Type} [LinearOrder K]

namespace TimeSeries

variable {left : TimeSeries K V} {other : TimeSeries K W} {d : W} {func : V → W → O}
  {mode : Enums.MergeAsofMode} {compare : Option AsofComparator} {i j : ℕ}

/-- Unless it stands still, an iteration passes a left row and emits one row under its key. -/
theorem mergeApplyAsofLoop_passes
    (hcomp : AnswersInside left other (compare.getD (defaultCompare left other)))
    (hi : i < left.size) (hj : j < other.size)
    (hmoves : ¬ StandsStill other (compare.getD (defaultCompare left other)) mode i j)
    (res : TimeSeries K O) :
    ∃ j' res', j' < other.size ∧ res'.size = res.size + 1 ∧
      (mergeApplyAsofLoop left other d compare func mode).body (.atRows i j res) =
        .ok (.atRows (i + 1) j' res') := by
  obtain ⟨k, v, hl⟩ := exists_row hi
  obtain ⟨k', w, hr⟩ := exists_row hj
  obtain ⟨o, p, hp, hans⟩ := hcomp i j _ hi hj (candPos_lt mode hj)
  obtain ⟨k'', w', hq⟩ := exists_row hp
  have hbody := mergeApplyAsofLoop_body d func res hl hr hq hans
  cases o with
  | lessThan => exact ⟨j, _, hj, size_insertEnd _ _, hbody⟩
  | equal =>
    refine ⟨_, _, ?_, size_insertEnd _ _, hbody⟩
    split <;> omega
  | greaterThan =>
    have hlast : j ≠ other.size - 1 := fun hlast => hmoves ⟨hlast, _, hans⟩
    rw [asofStep, if_neg hlast] at hbody
    exact ⟨j, _, hj, size_insertEnd _ _, hbody⟩

/-- An iteration that stands still only emits the left row with the default value. -/
theorem mergeApplyAsofLoop_stands
    (hcomp : AnswersInside left other (compare.getD (defaultCompare left other)))
    {l : K × V} (hl : left.rows[i]? = some l) (hj : j < other.size)
    (hstill : StandsStill other (compare.getD (defaultCompare left other)) mode i j)
    (res : TimeSeries K O) :
    (mergeApplyAsofLoop left other d compare func mode).body (.atRows i j res) =
      .ok (.atRows i j (res.insertEnd (l.1, func l.2 d))) := by
  obtain ⟨hlast, it, hgt⟩ := hstill
  obtain ⟨k', w, hr⟩ := exists_row hj
  obtain ⟨o, p, hp, hans⟩ := hcomp i j _ (lt_size_of_row hl) hj (candPos_lt mode hj)
  obtain ⟨k'', w', hq⟩ := exists_row hp
  have hbody := mergeApplyAsofLoop_body d func res hl hr hq hans
  rw [hgt] at hans
  cases hans
  rwa [asofStep, if_pos hlast] at hbody

/-- From an iteration that stands still on, every iteration emits the same row. -/
theorem mergeApplyAsofLoop_repeats (d : W) (func : V → W → O)
    (hcomp : AnswersInside left other (compare.getD (defaultCompare left other)))
    {l : K × V} (hl : left.rows[i]? = some l) (hj : j < other.size)
    (hstill : StandsStill other (compare.getD (defaultCompare left other)) mode i j)
    (n : ℕ) (res : TimeSeries K O) :
    ∃ r, (mergeApplyAsofLoop left other d compare func mode).iterate n (.atRows i j res) =
        .ok (.atRows i j r) ∧ r.rows = res.rows ++ List.replicate n (l.1, func l.2 d) := by
  have hlt := lt_size_of_row hl
  induction n generalizing res with
  | zero => exact ⟨res, rfl, by simp⟩
  | succ n ih =>
    have hc := (mergeApplyAsofLoop_cond left other d compare func mode i j res).mpr hlt.ne
    rw [WhileLoop.iterate_succ_of_body hc (mergeApplyAsofLoop_stands hcomp hl hj hstill res)]
    obtain ⟨r, hr, hrows⟩ := ih (res.insertEnd (l.1, func l.2 d))
    refine ⟨r, hr, ?_⟩
    rw [hrows, rows_insertEnd, List.append_assoc, List.singleton_append, List.replicate_succ]

/-- The merge has passed as many left rows as it made iterations, unless it stood still before. -/
theorem mergeApplyAsofLoop_run (d : W) (func : V → W → O) (mode : Enums.MergeAsofMode)
    (hne : 0 < other.size)
    (hcomp : AnswersInside left other (compare.getD (defaultCompare left other))) {n : ℕ}
    (hn : n ≤ left.size) :
    (∃ j res, j < other.size ∧ res.size = n ∧
      (mergeApplyAsofLoop left other d compare func mode).iterate n (.start left other) =
        .ok (.atRows n j res)) ∨
    ∃ i j res, i < n ∧ j < other.size ∧ res.size = i ∧
      (mergeApplyAsofLoop left other d compare func mode).iterate i (.start left other) =
        .ok (.atRows i j res) ∧
      StandsStill other (compare.getD (defaultCompare left other)) mode i j := by
  induction n with
  | zero => exact Or.inl ⟨0, .empty, hne, rfl, rfl⟩
  | succ n ih =>
    rcases ih (Nat.le_of_succ_le hn) with ⟨j, res, hj, hsize, hrun⟩ | ⟨i, j, res, hi, hrest⟩
    · by_cases hstill : StandsStill other (compare.getD (defaultCompare left other)) mode n j
      · exact Or.inr ⟨n, j, res, Nat.lt_succ_self n, hj, hsize, hrun, hstill⟩
      · obtain ⟨j', res', hj', hsize', hbody⟩ :=
          mergeApplyAsofLoop_passes (d := d) hcomp hn hj hstill res
        refine Or.inl ⟨j', res', hj', by rw [hsize', hsize], ?_⟩
        have hc := (mergeApplyAsofLoop_cond left other d compare func mode n j res).mpr
          (Nat.lt_of_succ_le hn).ne
        rw [WhileLoop.iterate_add, hrun]
        exact WhileLoop.iterate_succ_of_body hc hbody 0
    · exact Or.inr ⟨i, j, res, Nat.lt_succ_of_lt hi, hrest⟩

/-- A run that stands still somewhere does not return. -/
theorem mergeApplyAsof_not_returns
    (hcomp : AnswersInside left other (compare.getD (defaultCompare left other)))
    (hi : i < left.size) (hj : j < other.size) {res : TimeSeries K O}
    (hreach : (mergeApplyAsofLoop left other d compare func mode).Reaches (.start left other)
      (.atRows i j res))
    (hstill : StandsStill other (compare.getD (defaultCompare left other)) mode i j)
    (t : JoinState K O) :
    ¬ (mergeApplyAsofLoop left other d compare func mode).Returns (.start left other) t := by
  rintro ⟨n, hn, hc⟩
  obtain ⟨a, ha⟩ := hreach
  obtain ⟨k, v, hl⟩ := exists_row hi
  obtain ⟨r, hr, _⟩ := mergeApplyAsofLoop_repeats d func hcomp hl hj hstill n res
  have hboth := WhileLoop.iterate_eq_of_returns hn hc (Nat.le_add_left n a)
  rw [WhileLoop.iterate_add, ha] at hboth
  obtain rfl : JoinState.atRows i j r = t := Except.ok.inj (hr.symm.trans hboth)
  have hcond := (mergeApplyAsofLoop_cond left other d compare func mode i j r).mpr hi.ne
  rw [hc] at hcond
  cases hcond

/-- On a right series with rows, in any order, and under any comparator that answers on existing
rows, the merge has two fates. It returns after as many iterations as there are left rows, with
one row for each; or the comparator answers `greater_than` on the last right row, and from
this iteration on every iteration emits the same row. It returns exactly if no state it reaches
stands still. -/
theorem mergeApplyAsof_fate (left : TimeSeries K V) (other : TimeSeries K W) (defaultValue : W)
    (compareFunc : Option AsofComparator) (func : V → W → O) (mergeMode : Enums.MergeAsofMode)
    (hne : 0 < other.size)
    (hcomp : AnswersInside left other (compareFunc.getD (defaultCompare left other))) :
    let loop := mergeApplyAsofLoop left other defaultValue compareFunc func mergeMode
    let comp := compareFunc.getD (defaultCompare left other)
    ((∃ t, loop.iterate left.size (.start left other) = .ok t ∧ loop.cond t = false ∧
        t.result.keys = left.keys) ∨
      ∃ i j res l, left.rows[i]? = some l ∧ res.size = i ∧
        loop.iterate i (.start left other) = .ok (.atRows i j res) ∧
        StandsStill other comp mergeMode i j ∧
        ∀ n, ∃ r, loop.iterate (i + n) (.start left other) = .ok (.atRows i j r) ∧
          r.rows = res.rows ++ List.replicate n (l.1, func l.2 defaultValue)) ∧
    ((∃ t, loop.Returns (.start left other) t) ↔
      ∀ i j res, i < left.size → loop.Reaches (.start left other) (.atRows i j res) →
        ¬ StandsStill other comp mergeMode i j) := by
  intro loop comp
  have hrun := mergeApplyAsofLoop_run defaultValue func mergeMode hne hcomp (Nat.le_refl left.size)
  have hend : ∀ j res, loop.cond (.atRows left.size j res) = false := fun j res =>
    Bool.eq_false_iff.mpr ((mergeApplyAsofLoop_cond left other defaultValue compareFunc func
      mergeMode left.size j res).not.mpr (not_not.mpr rfl))
  constructor
  · rcases hrun with ⟨j, res, hj, _, hok⟩ | ⟨i, j, res, hi, hj, hsize, hok, hstill⟩
    · refine Or.inl ⟨_, hok, hend j res, ?_⟩
      obtain ⟨i', j', hstate, _, _, hkeys⟩ := asofInside_of_reaches hne hcomp ⟨_, hok⟩
      obtain rfl : left.size = i' := IteratorPair.row_inj.mp (congrArg JoinState.il hstate)
      rcases hkeys with hkeys | ⟨hlt, _⟩
      · rwa [size, List.take_length] at hkeys
      · exact absurd hlt (Nat.lt_irrefl _)
    · right
      obtain ⟨k, v, hl⟩ := exists_row hi
      refine ⟨i, j, res, (k, v), hl, hsize, hok, hstill, fun n => ?_⟩
      obtain ⟨r, hr, hrows⟩ := mergeApplyAsofLoop_repeats defaultValue func hcomp hl hj hstill n res
      refine ⟨r, ?_, hrows⟩
      rw [WhileLoop.iterate_add, hok]
      exact hr
  · constructor
    · rintro ⟨t, ht⟩ i j res hi hreach hstill
      obtain ⟨i', j', hstate, _, hj, _⟩ := asofInside_of_reaches hne hcomp hreach
      obtain rfl : j = j' := IteratorPair.row_inj.mp (congrArg JoinState.ir hstate)
      exact mergeApplyAsof_not_returns hcomp hi hj hreach hstill t ht
    · intro hmoves
      rcases hrun with ⟨j, res, _, _, hok⟩ | ⟨i, j, res, hi, _, _, hok, hstill⟩
      · exact ⟨_, _, hok, hend j res⟩
      · exact absurd hstill (hmoves i j res hi ⟨i, hok⟩)

/-- With the default comparator, a left key behind the only right key stands still. -/
theorem mergeApplyAsof_fate_default :
    (∃ t, (mergeApplyAsofLoop (ofRows [((1 : ℤ), (10 : ℤ)), (5, 50)]) (ofRows [((2 : ℤ), (7 : ℤ))])
        0 none (· + ·) .noRoll).Returns
        (.start (ofRows [((1 : ℤ), (10 : ℤ)), (5, 50)]) (ofRows [((2 : ℤ), (7 : ℤ))])) t) ↔
      ∀ i j res, i < 2 →
        (mergeApplyAsofLoop (ofRows [((1 : ℤ), (10 : ℤ)), (5, 50)]) (ofRows [((2 : ℤ), (7 : ℤ))])
          0 none (· + ·) .noRoll).Reaches
          (.start (ofRows [((1 : ℤ), (10 : ℤ)), (5, 50)]) (ofRows [((2 : ℤ), (7 : ℤ))]))
          (.atRows i j res) →
        ¬ StandsStill (ofRows [((2 : ℤ), (7 : ℤ))])
          (defaultCompare (ofRows [((1 : ℤ), (10 : ℤ)), (5, 50)]) (ofRows [((2 : ℤ), (7 : ℤ))]))
          .noRoll i j :=
  (mergeApplyAsof_fate (ofRows [((1 : ℤ), (10 : ℤ)), (5, 50)]) (ofRows [((2 : ℤ), (7 : ℤ))]) 0
    none (· + ·) .noRoll (by decide) (defaultCompare_answersInside _ _)).2

end TimeSeries

end Tspp
