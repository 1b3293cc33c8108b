import Tspp.Core.MergeLaws
import Tspp.Join.Left

/-!
# The matches of the left join

Every iteration of `cross_apply_left` emits one row. The rows of its equal-key branch are
the rows of the inner join: as long as the right cursor is not on its last row both loops
move alike, and past that point the keys on the left are larger than the last right key,
so that neither loop finds a match.
-/

namespace Tspp

variable {K V W O : Type} [LinearOrder K]

namespace TimeSeries

/-- The row that an iteration of `cross_apply_left` emits, and whether it is the branch for
equal keys that emits it. -/
def crossApplyLeftRow (left : TimeSeries K V) (other : TimeSeries K W) (defaultValue : W)
    (func : V → W → O) (s : JoinState K O) : Option (Bool × K × O) :=
  match s.il.deref left.toContainers, s.ir.deref other.toContainers with
  | .ok l, .ok r =>
    if l.1 < r.1 then some (false, l.1, func l.2 defaultValue)
    else if r.1 < l.1 then some (false, l.1, func l.2 defaultValue)
    else some (true, l.1, func l.2 r.2)
  | _, _ => none

/-- The match that a row carries, if the branch for equal keys emitted it. -/
def matchOf (row : Bool × K × O) : Option (K × O) := if row.1 then some row.2 else none

/-- The rows that the first `n` iterations emit, in order. -/
def emittedRows (left : TimeSeries K V) (other : TimeSeries K W) (defaultValue : W)
    (func : V → W → O) (n : ℕ) (s : JoinState K O) : List (Bool × K × O) :=
  ((crossApplyLeftLoop left other defaultValue func).visited n s).filterMap
    (crossApplyLeftRow left other defaultValue func)

section Run

variable {left : TimeSeries K V} {other : TimeSeries K W} {func : V → W → O}

theorem crossApplyLeftRow_atRows (d : W) (func : V → W → O) {i j : ℕ} {l : K × V} {r : K × W}
    (res : TimeSeries K O) (hl : left.rows[i]? = some l) (hr : other.rows[j]? = some r) :
    crossApplyLeftRow left other d func (.atRows i j res) =
      if l.1 < r.1 then some (false, l.1, func l.2 d)
      else if r.1 < l.1 then some (false, l.1, func l.2 d)
      else some (true, l.1, func l.2 r.2) := by
  simp only [crossApplyLeftRow, JoinState.atRows, deref_row hl, deref_row hr]

/-- An iteration appends its row to the result, and takes its match, if it is one, from the
inner merge of the remaining suffixes. -/
theorem crossApplyLeftLoop_step (d : W) (func : V → W → O) (hleft : left.NonDecreasing)
    {i j : ℕ} (hi : i < left.size) (hj : j < other.size) (res : TimeSeries K O) :
    ∃ row i' j', crossApplyLeftRow left other d func (.atRows i j res) = some row ∧
      (crossApplyLeftLoop left other d func).body (.atRows i j res) =
        .ok (.atRows i' j' (res.insertEnd row.2)) ∧
      i' ≤ left.size ∧ j' ≤ other.size ∧
      KeyedRows.innerMerge func (left.rows.drop i) (other.rows.drop j) =
        (matchOf row).toList ++
          KeyedRows.innerMerge func (left.rows.drop i') (other.rows.drop j') := by
  obtain ⟨a, v, hl⟩ := exists_row hi
  obtain ⟨b, w, hr⟩ := exists_row hj
  have hbody := crossApplyLeftLoop_body d func res hl hr
  have hrow := crossApplyLeftRow_atRows d func res hl hr
  rw [drop_rows hl, drop_rows hr]
  rcases lt_trichotomy a b with hlt | rfl | hgt
  · simp only [hlt, ite_true] at hbody hrow
    refine ⟨_, i + 1, j, hrow, hbody, by omega, by omega, ?_⟩
    rw [KeyedRows.innerMerge_of_lt hlt, drop_rows hr]
    rfl
  · simp only [lt_irrefl, ite_false] at hbody hrow
    refine ⟨_, i + 1, j + 1, hrow, hbody, by omega, by omega, ?_⟩
    rw [KeyedRows.innerMerge_of_eq]
    rfl
  · simp only [not_lt_of_gt hgt, hgt, ite_true, ite_false] at hbody hrow
    rw [KeyedRows.innerMerge_of_gt hgt]
    by_cases hlast : j = other.size - 1
    · -- The right cursor stays on the last row, whose key all remaining left keys exceed.
      have hnil : other.rows.drop (j + 1) = [] := drop_size_rows (by omega)
      rw [if_pos hlast] at hbody
      refine ⟨_, i + 1, j, hrow, hbody, by omega, by omega, ?_⟩
      have hsuffix : KeyedRows.NonDecreasing ((a, v) :: left.rows.drop (i + 1)) := by
        rw [← drop_rows hl]
        exact (left.nonDecreasing_iff_rows.mp hleft).sublist (List.drop_sublist _ _)
      have hgtAll := hsuffix.lt_of_lt_head hgt
      rw [drop_rows hr, hnil, KeyedRows.innerMerge_nil_right, KeyedRows.innerMerge_eq_nil_of_gt func
        fun r hmem => hgtAll r (List.mem_cons_of_mem _ hmem)]
      rfl
    · rw [if_neg hlast] at hbody
      refine ⟨_, i, j + 1, hrow, hbody, by omega, by omega, ?_⟩
      rw [drop_rows hl]
      rfl

/-- A finished loop has emitted its rows, and has no match left to emit. -/
theorem innerMerge_eq_nil_of_not_cond (d : W) (func : V → W → O) {i j : ℕ}
    {res : TimeSeries K O}
    (hc : (crossApplyLeftLoop left other d func).cond (.atRows i j res) = false) :
    KeyedRows.innerMerge func (left.rows.drop i) (other.rows.drop j) = [] := by
  have hend : ¬ i ≠ left.size := by
    rw [← crossApplyLeftLoop_cond left other d func i j res, hc]
    exact Bool.false_ne_true
  rw [drop_size_rows (by omega), KeyedRows.innerMerge_nil_left]

/-- The rows that a finished run from two cursor positions emits, and the matches among them. -/
theorem crossApplyLeftLoop_run (d : W) (hleft : left.NonDecreasing) {n i j : ℕ}
    {res : TimeSeries K O} {t : JoinState K O} (hi : i ≤ left.size) (hj : j ≤ other.size)
    (hrun : (crossApplyLeftLoop left other d func).iterate n (.atRows i j res) = .ok t)
    (hdone : (crossApplyLeftLoop left other d func).cond t = false) :
    t.result.rows =
        res.rows ++ (emittedRows left other d func n (.atRows i j res)).map Prod.snd ∧
      (emittedRows left other d func n (.atRows i j res)).filterMap matchOf =
        KeyedRows.innerMerge func (left.rows.drop i) (other.rows.drop j) := by
  unfold emittedRows
  induction n generalizing i j res with
  | zero =>
    cases hrun
    rw [innerMerge_eq_nil_of_not_cond d func hdone]
    exact ⟨(List.append_nil _).symm, rfl⟩
  | succ n ih =>
    cases hc : (crossApplyLeftLoop left other d func).cond (.atRows i j res) with
    | false =>
      rw [WhileLoop.iterate_of_not_cond hc] at hrun
      cases hrun
      rw [WhileLoop.visited_of_not_cond hc, innerMerge_eq_nil_of_not_cond d func hdone]
      exact ⟨(List.append_nil _).symm, rfl⟩
    | true =>
      have hne := (crossApplyLeftLoop_cond left other d func i j res).mp hc
      obtain ⟨a, v, hl⟩ := exists_row (show i < left.size by omega)
      by_cases hout : j = other.size
      · rw [hout] at hrun hc
        rw [WhileLoop.iterate_succ_of_error hc (crossApplyLeftLoop_body_end d func res hl)] at hrun
        cases hrun
      obtain ⟨row, i', j', hrow, hbody, hi', hj', hmerge⟩ :=
        crossApplyLeftLoop_step d func hleft (show i < left.size by omega)
          (show j < other.size by omega) res
      rw [WhileLoop.iterate_succ_of_body hc hbody] at hrun
      obtain ⟨hrows, hmatches⟩ := ih hi' hj' hrun
      rw [WhileLoop.visited_succ_of_body hc hbody, List.filterMap_cons_some hrow]
      constructor
      · rw [hrows, rows_insertEnd, List.append_assoc]
        rfl
      · rw [hmerge, ← hmatches, List.filterMap_cons]
        cases matchOf row <;> rfl

end Run

/-- The rows that a left join emits from its branch for equal keys are the rows of the inner
join, in the same order. -/
theorem crossApplyLeft_matches (left : TimeSeries K V) (other : TimeSeries K W) (defaultValue : W)
    (func : V → W → O) (hl : left.NonDecreasing) (n : ℕ) (t : JoinState K O)
    (hrun : (crossApplyLeftLoop left other defaultValue func).iterate n (.start left other) =
      .ok t)
    (hdone : (crossApplyLeftLoop left other defaultValue func).cond t = false) :
    t.result.rows =
        (emittedRows left other defaultValue func n (.start left other)).map Prod.snd ∧
      ∃ inner, crossApplyInner left other func = .ok inner ∧
        (emittedRows left other defaultValue func n (.start left other)).filterMap matchOf =
          inner.rows := by
  obtain ⟨hrows, hmatches⟩ :=
    crossApplyLeftLoop_run defaultValue hl (Nat.zero_le _) (Nat.zero_le _) hrun hdone
  obtain ⟨inner, hinner, hmerge⟩ := crossApplyInner_eq left other func
  refine ⟨hrows, inner, hinner, ?_⟩
  rw [hmerge]
  exact hmatches

/-- Two left rows against one right row, and a left key behind the last right key. -/
theorem crossApplyLeft_matches_behind_end :
    ∃ inner, crossApplyInner (ofRows [((1 : ℤ), 10), (1, 11), (5, 50)])
        (ofRows [((1 : ℤ), 5), (2, 6)]) (fun v w : ℤ => v + w) = .ok inner ∧
      inner.rows = [(1, 15)] ∧
      (emittedRows (ofRows [((1 : ℤ), 10), (1, 11), (5, 50)]) (ofRows [((1 : ℤ), 5), (2, 6)]) 0
        (fun v w : ℤ => v + w) 3 (.start (ofRows [((1 : ℤ), 10), (1, 11), (5, 50)])
          (ofRows [((1 : ℤ), 5), (2, 6)]))).filterMap matchOf = inner.rows := by
  obtain ⟨_, inner, hinner, hmatches⟩ := crossApplyLeft_matches
    (ofRows [((1 : ℤ), 10), (1, 11), (5, 50)]) (ofRows [((1 : ℤ), 5), (2, 6)]) 0
    (fun v w : ℤ => v + w) (by decide) 3 _ rfl rfl
  refine ⟨inner, hinner, ?_, hmatches⟩
  rw [← hmatches]
  rfl

end TimeSeries

end Tspp
