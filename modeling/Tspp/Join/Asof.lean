import Tspp.Join.Cursor
import Mathlib.Algebra.Order.Ring.Int

/-!
# The as-of merge

`merge_apply_asof` walks the left rows and asks a comparator, at each of them, about the
row under the right cursor and a candidate next to it. The comparator is a parameter:
a function of iterators that may fault. This file has the loop for every mode and every
comparator, what one iteration does, and what holds of all runs whatever is answered.
-/

namespace Tspp

namespace Enums

/-- `merge_asof_mode` -/
inductive MergeAsofMode
  | rollPrior
  | rollFollowing
  | noRoll
  deriving DecidableEq, Repr

/-- `ordering` -/
inductive Ordering
  | equal
  | greaterThan
  | lessThan
  deriving DecidableEq, Repr

end Enums

/-- A comparator: from the left iterator, the right iterator and the candidate to an ordering
and the right iterator to read. -/
abbrev AsofComparator :=
  IteratorPair → IteratorPair → IteratorPair → Except Fault (Enums.Ordering × IteratorPair)

variable {K V W O : Type}

/-- The position of the candidate next to position `j` of `m` right rows. -/
def candPos (mode : Enums.MergeAsofMode) (m j : ℕ) : ℕ :=
  match mode with
  | .noRoll => j
  | .rollFollowing => if j = m - 1 then m - 1 else j + 1
  | .rollPrior => j - 1

/-- The candidate of an existing row is an existing row. -/
theorem candPos_lt (mode : Enums.MergeAsofMode) {m j : ℕ} (h : j < m) : candPos mode m j < m := by
  cases mode with
  | noRoll => exact h
  | rollFollowing =>
    simp only [candPos]
    split <;> omega
  | rollPrior =>
    simp only [candPos]
    omega

namespace TimeSeries

/-- `cand_idx_func`: the candidate next to the right iterator `idx`. -/
def candIdx (mode : Enums.MergeAsofMode) (other : TimeSeries K W) (idx : IteratorPair) :
    Except Fault IteratorPair :=
  match mode with
  | .noRoll => return idx
  | .rollFollowing => do
    if idx == (← other.cend.sub 1) then other.cend.decr else idx.incr other.toContainers
  | .rollPrior => if idx == other.cbegin then return other.cbegin else idx.decr

/-- `cand_idx_func` at an existing row. -/
theorem candIdx_row {other : TimeSeries K W} (mode : Enums.MergeAsofMode) {j : ℕ}
    (h : j < other.size) :
    candIdx mode other (.row j) = .ok (.row (candPos mode other.size j)) := by
  have hlast : other.cend.sub 1 = .ok (.row (other.size - 1)) := by
    rw [cend_eq, sub_one_row (by omega)]
  cases mode with
  | noRoll => rfl
  | rollFollowing =>
    simp only [candIdx, candPos, hlast, IteratorPair.decr, incr_row h, bind, Except.bind,
      beq_iff_eq, IteratorPair.row_inj]
    split <;> rfl
  | rollPrior =>
    simp only [candIdx, candPos, cbegin_eq, beq_iff_eq, IteratorPair.row_inj]
    split
    · subst j
      rfl
    · rw [IteratorPair.decr, sub_one_row (by omega)]

section Loop

variable [LinearOrder K]

/-- The comparator that is used where none is given. -/
def defaultCompare (left : TimeSeries K V) (other : TimeSeries K W) : AsofComparator :=
  fun this o _ => do
    let l ← this.deref left.toContainers
    let r ← o.deref other.toContainers
    let ord :=
      if l.1 < r.1 then Enums.Ordering.lessThan
      else if l.1 > r.1 then .greaterThan
      else .equal
    return (ord, o)

/-- The loop of `merge_apply_asof`. -/
def mergeApplyAsofLoop (left : TimeSeries K V) (other : TimeSeries K W) (defaultValue : W)
    (compareFunc : Option AsofComparator) (func : V → W → O) (mergeMode : Enums.MergeAsofMode) :
    WhileLoop Fault (JoinState K O) where
  cond s := s.il != left.cend
  body s := do
    let compFunc := compareFunc.getD (defaultCompare left other)
    let (comp, it) ← compFunc s.il s.ir (← candIdx mergeMode other s.ir)
    match comp with
    | .lessThan =>
      let l ← s.il.deref left.toContainers
      let result := s.result.insertEnd (l.1, func l.2 defaultValue)
      return { s with il := ← s.il.incr left.toContainers, result }
    | .greaterThan =>
      let l ← s.il.deref left.toContainers
      let result := s.result.insertEnd (l.1, func l.2 defaultValue)
      if s.ir != (← other.cend.sub 1) then
        return { s with il := ← s.il.incr left.toContainers, result }
      else
        -- At the last right row neither iterator moves.
        return { s with result }
    | .equal =>
      let irOther := if it == s.ir then s.ir else it
      let l ← s.il.deref left.toContainers
      let q ← irOther.deref other.toContainers
      let result := s.result.insertEnd (l.1, func l.2 q.2)
      let r ← s.ir.deref other.toContainers
      let ir ←
        if l.1 = r.1 then do
          if s.ir != (← other.cend.sub 1) then s.ir.incr other.toContainers else pure s.ir
        else pure s.ir
      return { il := ← s.il.incr left.toContainers, ir, result }

/-- On existing rows the comparator answers, with an iterator to an existing right row. -/
def AnswersInside (left : TimeSeries K V) (other : TimeSeries K W) (comp : AsofComparator) :
    Prop :=
  ∀ i j c, i < left.size → j < other.size → c < other.size →
    ∃ o p, p < other.size ∧ comp (.row i) (.row j) (.row c) = .ok (o, .row p)

variable {left : TimeSeries K V} {other : TimeSeries K W}

/-- What one iteration makes of the rows `i` and `j`, by the answer of the comparator. -/
def asofStep (other : TimeSeries K W) (d : W) (func : V → W → O) (i j : ℕ)
    (res : TimeSeries K O) (l : K × V) (r q : K × W) : Enums.Ordering → JoinState K O
  | .lessThan => .atRows (i + 1) j (res.insertEnd (l.1, func l.2 d))
  | .greaterThan =>
    .atRows (if j = other.size - 1 then i else i + 1) j (res.insertEnd (l.1, func l.2 d))
  | .equal =>
    .atRows (i + 1) (if l.1 = r.1 ∧ j ≠ other.size - 1 then j + 1 else j)
      (res.insertEnd (l.1, func l.2 q.2))

section Run

variable {d : W} {func : V → W → O} {mode : Enums.MergeAsofMode}

theorem mergeApplyAsofLoop_cond (left : TimeSeries K V) (other : TimeSeries K W) (d : W)
    (compare : Option AsofComparator) (func : V → W → O) (mode : Enums.MergeAsofMode) (i j : ℕ)
    (res : TimeSeries K O) :
    (mergeApplyAsofLoop left other d compare func mode).cond (.atRows i j res) = true ↔
      i ≠ left.size := by
  simp [mergeApplyAsofLoop, JoinState.atRows, cend_eq]

/-- One iteration at two existing rows, once the comparator has answered. -/
theorem mergeApplyAsofLoop_body (d : W) (func : V → W → O) {compare : Option AsofComparator}
    {i j p : ℕ} {l : K × V} {r q : K × W} {o : Enums.Ordering} (res : TimeSeries K O)
    (hl : left.rows[i]? = some l) (hr : other.rows[j]? = some r) (hq : other.rows[p]? = some q)
    (hcomp : compare.getD (defaultCompare left other) (.row i) (.row j)
      (.row (candPos mode other.size j)) = .ok (o, .row p)) :
    (mergeApplyAsofLoop left other d compare func mode).body (.atRows i j res) =
      .ok (asofStep other d func i j res l r q o) := by
  have hj := lt_size_of_row hr
  have hlast : other.cend.sub 1 = .ok (.row (other.size - 1)) := by
    rw [cend_eq, sub_one_row (by omega)]
  have hi := incr_row (lt_size_of_row hl)
  simp only [mergeApplyAsofLoop, JoinState.atRows, candIdx_row mode hj, hcomp, bind, Except.bind]
  cases o with
  | lessThan =>
    simp only [deref_row hl, hi, pure, Except.pure]
    rfl
  | greaterThan =>
    simp only [deref_row hl, hi, hlast, pure, Except.pure, bne_iff_ne, ne_eq,
      IteratorPair.row_inj, ite_not, asofStep]
    split <;> rfl
  | equal =>
    have hit : (if IteratorPair.row p == .row j then IteratorPair.row j else .row p) = .row p := by
      rw [ite_eq_right_iff, beq_iff_eq]
      exact Eq.symm
    simp only [hit, deref_row hl, deref_row hr, deref_row hq, hi, hlast, incr_row hj, pure,
      Except.pure, bne_iff_ne, ne_eq, IteratorPair.row_inj, ite_not, asofStep]
    by_cases hkey : l.1 = r.1
    · by_cases hend : j = other.size - 1
      · simp only [hkey, hend, if_true, not_true_eq_false, and_false, if_false]
        rfl
      · simp only [hkey, hend, if_true, not_false_eq_true, and_self, if_false]
        rfl
    · simp only [hkey, if_false, false_and]
      rfl

/-- On the last right row the comparator answers `greater_than`: nothing moves from here on. -/
def StandsStill (other : TimeSeries K W) (comp : AsofComparator) (mode : Enums.MergeAsofMode)
    (i j : ℕ) : Prop :=
  j = other.size - 1 ∧
    ∃ it, comp (.row i) (.row j) (.row (candPos mode other.size j)) = .ok (.greaterThan, it)

/-- What holds whenever the loop tests its condition: both iterators stand inside, and the
left rows passed have been emitted once each, unless the loop stands still. -/
structure AsofInside (left : TimeSeries K V) (other : TimeSeries K W) (comp : AsofComparator)
    (mode : Enums.MergeAsofMode) (s : JoinState K O) (i j : ℕ) : Prop where
  state : s = .atRows i j s.result
  left_le : i ≤ left.size
  right_lt : j < other.size
  keys : s.result.keys = left.keys.take i ∨ i < left.size ∧ StandsStill other comp mode i j

/-- No iteration faults, and each keeps the iterators inside. -/
theorem AsofInside.step {compare : Option AsofComparator} {s : JoinState K O} {i j : ℕ}
    (hcomp : AnswersInside left other (compare.getD (defaultCompare left other)))
    (h : AsofInside left other (compare.getD (defaultCompare left other)) mode s i j)
    (hc : (mergeApplyAsofLoop left other d compare func mode).cond s = true) :
    ∃ s' i' j', (mergeApplyAsofLoop left other d compare func mode).body s = .ok s' ∧
      AsofInside left other (compare.getD (defaultCompare left other)) mode s' i' j' := by
  obtain ⟨hstate, hi, hj, hkeys⟩ := h
  rw [hstate, mergeApplyAsofLoop_cond] at hc
  have hlt : i < left.size := by omega
  obtain ⟨k, v, hl⟩ := exists_row hlt
  obtain ⟨k', w, hr⟩ := exists_row hj
  obtain ⟨o, p, hp, hans⟩ := hcomp i j _ hlt hj (candPos_lt mode hj)
  obtain ⟨k'', w', hq⟩ := exists_row hp
  have hbody := mergeApplyAsofLoop_body d func s.result hl hr hq hans
  rw [← hstate] at hbody
  -- A loop that stands still has just been given the same answer.
  have hemit : ∀ x, o ≠ .greaterThan ∨ j ≠ other.size - 1 →
      (s.result.insertEnd (k, x)).keys = left.keys.take (i + 1) := by
    intro x hmoves
    rw [keys_insertEnd, take_succ_keys hl]
    rcases hkeys with hkeys | ⟨_, hlast, it, hgt⟩
    · rw [hkeys]
    · rw [hans] at hgt
      cases hgt
      rcases hmoves with hne | hne
      · exact absurd rfl hne
      · exact absurd hlast hne
  cases o with
  | lessThan =>
    exact ⟨_, i + 1, j, hbody, rfl, hlt, hj, Or.inl (hemit _ (Or.inl (by simp)))⟩
  | equal =>
    refine ⟨_, i + 1, _, hbody, rfl, hlt, ?_, Or.inl (hemit _ (Or.inl (by simp)))⟩
    split <;> omega
  | greaterThan =>
    by_cases hlast : j = other.size - 1
    · refine ⟨_, i, j, hbody, ?_, hi, hj, Or.inr ⟨hlt, hlast, _, hans⟩⟩
      simp only [asofStep, if_pos hlast]
      rfl
    · refine ⟨_, i + 1, j, hbody, ?_, hlt, hj, Or.inl (hemit _ (Or.inr hlast))⟩
      simp only [asofStep, if_neg hlast]
      rfl

/-- Every state that the loop reaches has both iterators inside. -/
theorem asofInside_of_reaches {compare : Option AsofComparator} (hne : 0 < other.size)
    (hcomp : AnswersInside left other (compare.getD (defaultCompare left other)))
    {s : JoinState K O}
    (h : (mergeApplyAsofLoop left other d compare func mode).Reaches (.start left other) s) :
    ∃ i j, AsofInside left other (compare.getD (defaultCompare left other)) mode s i j := by
  apply h.invariant (I := fun s => ∃ i j,
    AsofInside left other (compare.getD (defaultCompare left other)) mode s i j)
  · exact ⟨0, 0, rfl, Nat.zero_le _, hne, Or.inl rfl⟩
  · intro a b ha hc hb
    obtain ⟨i, j, hinv⟩ := ha
    obtain ⟨s', i', j', hb', hinv'⟩ := hinv.step hcomp hc
    rw [hb] at hb'
    cases hb'
    exact ⟨i', j', hinv'⟩

/-- Under a comparator that answers inside, the merge never reads or steps past a series. -/
theorem mergeApplyAsof_not_faults {compare : Option AsofComparator} (hne : 0 < other.size)
    (hcomp : AnswersInside left other (compare.getD (defaultCompare left other))) (e : Fault) :
    ¬ (mergeApplyAsofLoop left other d compare func mode).Faults (.start left other) e := by
  apply WhileLoop.not_faults_of_invariant (I := fun s => ∃ i j,
    AsofInside left other (compare.getD (defaultCompare left other)) mode s i j)
  · exact ⟨0, 0, rfl, Nat.zero_le _, hne, Or.inl rfl⟩
  · intro a ha hc
    obtain ⟨i, j, hinv⟩ := ha
    obtain ⟨s', i', j', hb, hinv'⟩ := hinv.step hcomp hc
    exact ⟨s', hb, i', j', hinv'⟩

/-- The comparator used by default answers on every pair of existing rows. -/
theorem defaultCompare_row {i j c : ℕ} {l r : K} (hl : left.keys[i]? = some l)
    (hr : other.keys[j]? = some r) :
    defaultCompare left other (.row i) (.row j) (.row c) =
      .ok (if l < r then .lessThan else if r < l then .greaterThan else .equal, .row j) := by
  obtain ⟨v, hderef⟩ := exists_deref_row hl
  obtain ⟨w, hderef'⟩ := exists_deref_row hr
  simp only [defaultCompare, hderef, hderef', bind, Except.bind, pure, Except.pure, gt_iff_lt]

/-- The comparator used by default stays inside. -/
theorem defaultCompare_answersInside (left : TimeSeries K V) (other : TimeSeries K W) :
    AnswersInside left other (defaultCompare left other) := by
  intro i j c hi hj _
  obtain ⟨k, v, hl⟩ := exists_row hi
  obtain ⟨k', w, hr⟩ := exists_row hj
  exact ⟨_, j, hj, defaultCompare_row (getElem?_rows_eq_some.mp hl).1
    (getElem?_rows_eq_some.mp hr).1⟩

/-- Whatever the comparator answers, the right iterator and its candidate stay at existing
rows, and a merge that returns has emitted the left keys, once each and in order. -/
theorem mergeApplyAsof_keeps_left_keys (left : TimeSeries K V) (other : TimeSeries K W)
    (defaultValue : W) (compareFunc : Option AsofComparator) (func : V → W → O)
    (mergeMode : Enums.MergeAsofMode) (hne : 0 < other.size)
    (hcomp : ∀ comp ∈ compareFunc, AnswersInside left other comp) :
    (∀ s, (mergeApplyAsofLoop left other defaultValue compareFunc func mergeMode).Reaches
        (.start left other) s →
      ∃ i j c, i ≤ left.size ∧ s.il = .row i ∧ j < other.size ∧ s.ir = .row j ∧
        c < other.size ∧ candIdx mergeMode other s.ir = .ok (.row c)) ∧
    ∀ t, (mergeApplyAsofLoop left other defaultValue compareFunc func mergeMode).Returns
        (.start left other) t →
      t.result.keys = left.keys := by
  have hans : AnswersInside left other (compareFunc.getD (defaultCompare left other)) := by
    cases compareFunc with
    | none => exact defaultCompare_answersInside left other
    | some comp => exact hcomp comp rfl
  constructor
  · intro s hs
    obtain ⟨i, j, hstate, hi, hj, _⟩ := asofInside_of_reaches hne hans hs
    have hil : s.il = .row i := by rw [hstate]; rfl
    have hir : s.ir = .row j := by rw [hstate]; rfl
    refine ⟨i, j, _, hi, hil, hj, hir, candPos_lt mergeMode hj, ?_⟩
    rw [hir, candIdx_row mergeMode hj]
  · intro t ht
    obtain ⟨i, j, hstate, hi, _, hkeys⟩ := asofInside_of_reaches hne hans ht.reaches
    have hend := ht.not_cond
    rw [hstate, ← Bool.not_eq_true, mergeApplyAsofLoop_cond, not_not] at hend
    rcases hkeys with hkeys | ⟨hlt, _⟩
    · rw [hkeys, hend]
      exact List.take_length
    · omega

/-- A comparator that always reads the first right row, over right keys in no order. -/
theorem mergeApplyAsof_keeps_left_keys_unordered :
    (ofRows [((1 : ℤ), 15), (2, 25)]).keys = (ofRows [((1 : ℤ), 10), (2, 20)]).keys :=
  (mergeApplyAsof_keeps_left_keys (ofRows [((1 : ℤ), 10), (2, 20)]) (ofRows [((4 : ℤ), 5), (3, 6)])
    0 (some fun _ _ _ => .ok (.equal, .row 0)) (fun v w : ℤ => v + w) .rollFollowing (by decide)
    (by
      rintro comp ⟨⟩ i j c _ hj _
      exact ⟨_, 0, by omega, rfl⟩)).2 ⟨.row 2, .row 0, _⟩ ⟨2, rfl, rfl⟩

end Run

end Loop

end TimeSeries

end Tspp
