import Tspp.Core.MergeLaws
import Tspp.Join.Inner
import Tspp.Series.Operations

/-!
# Laws of the inner join

The inner join is the inner merge of the rows, so the laws of the merge are laws of the
join: it may be nested either way, its sides may be exchanged, and a range of dates may be
selected before or after it.
-/

namespace Tspp

namespace TimeSeries

variable {K V W X O : Type} [LinearOrder K]

/-- Three series may be joined in either order: the rows that meet are the same. -/
theorem crossApplyInner_assoc (a : TimeSeries K V) (b : TimeSeries K W) (c : TimeSeries K X)
    (collect : V → W → X → O) (ha : a.NonDecreasing) (hb : b.NonDecreasing)
    (hc : c.NonDecreasing) :
    ∃ result,
      (crossApplyInner a b (fun v w => (v, w)) >>= fun ab =>
        crossApplyInner ab c fun vw x => collect vw.1 vw.2 x) = .ok result ∧
      (crossApplyInner b c (fun w x => (w, x)) >>= fun bc =>
        crossApplyInner a bc fun v wx => collect v wx.1 wx.2) = .ok result := by
  obtain ⟨ab, hab, habr⟩ := crossApplyInner_eq a b fun v w => (v, w)
  obtain ⟨bc, hbc, hbcr⟩ := crossApplyInner_eq b c fun w x => (w, x)
  obtain ⟨left, hleft, hleftr⟩ := crossApplyInner_eq ab c fun vw x => collect vw.1 vw.2 x
  obtain ⟨right, hright, hrightr⟩ := crossApplyInner_eq a bc fun v wx => collect v wx.1 wx.2
  have hrows : left = right := by
    apply ext_rows
    rw [hleftr, hrightr, habr, hbcr]
    exact KeyedRows.innerMerge_assoc (a.nonDecreasing_iff_rows.mp ha)
      (b.nonDecreasing_iff_rows.mp hb) (c.nonDecreasing_iff_rows.mp hc) fun _ _ _ => rfl
  refine ⟨left, ?_, ?_⟩
  · rw [hab]
    exact hleft
  · rw [hbc, hrows]
    exact hright

/-- Two rows against one and against two under one key. -/
theorem crossApplyInner_assoc_repeated :
    ∃ result,
      (crossApplyInner (ofRows [((1 : ℤ), 10), (1, 11)]) (ofRows [((1 : ℤ), 5)])
          (fun v w : ℤ => (v, w)) >>= fun ab =>
        crossApplyInner ab (ofRows [((1 : ℤ), 7), (1, 8), (2, 9)])
          fun vw (x : ℤ) => (vw.1, vw.2, x)) = .ok result ∧
      (crossApplyInner (ofRows [((1 : ℤ), 5)]) (ofRows [((1 : ℤ), 7), (1, 8), (2, 9)])
          (fun w x : ℤ => (w, x)) >>= fun bc =>
        crossApplyInner (ofRows [((1 : ℤ), 10), (1, 11)]) bc
          fun (v : ℤ) wx => (v, wx.1, wx.2)) = .ok result :=
  crossApplyInner_assoc _ _ _ (fun v w x => (v, w, x)) (by decide) (by decide) (by decide)

/-- The sides of a join may be exchanged, whatever the order of the keys: the two runs take
mirrored steps. Every row it emits combines rows at positions that increase on both sides. -/
theorem crossApplyInner_swap (a : TimeSeries K V) (b : TimeSeries K W) (func : V → W → O) :
    ∃ result, crossApplyInner a b func = .ok result ∧
      crossApplyInner b a (fun w v => func v w) = .ok result ∧
      ∃ positions : List (ℕ × ℕ), positions.Pairwise (fun p q => p.1 < q.1 ∧ p.2 < q.2) ∧
        List.Forall₂ (KeyedRows.Combines func a.rows b.rows) positions result.rows := by
  obtain ⟨result, hok, hrows⟩ := crossApplyInner_eq a b func
  obtain ⟨result', hok', hrows'⟩ := crossApplyInner_eq b a fun w v => func v w
  refine ⟨result, hok, ?_, ?_⟩
  · have heq : result' = result := by
      apply ext_rows
      rw [hrows, hrows', KeyedRows.innerMerge_swap]
    rwa [heq] at hok'
  · rw [hrows]
    exact KeyedRows.exists_positions_innerMerge func a.rows b.rows

/-- A range of dates may be selected before or after a join, by `between` or by `where`. -/
theorem between_crossApplyInner (a : TimeSeries K V) (b : TimeSeries K W) (func : V → W → O)
    (startdt enddt : K) (ha : a.NonDecreasing) (hb : b.NonDecreasing) (hrange : startdt ≤ enddt) :
    ∃ ab result, crossApplyInner a b func = .ok ab ∧
      ab.between startdt enddt = .ok result ∧
      ab.where' (inRange startdt enddt) = result ∧
      a.between startdt enddt = .ok (a.where' (inRange startdt enddt)) ∧
      b.between startdt enddt = .ok (b.where' (inRange startdt enddt)) ∧
      (do crossApplyInner (← a.between startdt enddt) (← b.between startdt enddt) func) =
        .ok result := by
  obtain ⟨ab, hab, habr⟩ := crossApplyInner_eq a b func
  obtain ⟨result, hok, hrows⟩ := crossApplyInner_eq (a.where' (inRange startdt enddt))
    (b.where' (inRange startdt enddt)) func
  have har := a.nonDecreasing_iff_rows.mp ha
  have hbr := b.nonDecreasing_iff_rows.mp hb
  have habn : ab.NonDecreasing := by
    rw [nonDecreasing_iff_rows, habr]
    exact KeyedRows.innerMerge_nonDecreasing func b.rows har
  have hresult : ab.where' (inRange startdt enddt) = result := by
    apply ext_rows
    rw [rows_where', hrows, rows_where', rows_where', habr]
    exact KeyedRows.filter_innerMerge func har hbr
      fun k => decide (startdt ≤ k) && decide (k ≤ enddt)
  refine ⟨ab, result, hab, ?_, hresult, between_eq_where' ha hrange, between_eq_where' hb hrange,
    ?_⟩
  · rw [between_eq_where' habn hrange]
    exact congrArg Except.ok hresult
  · rw [between_eq_where' ha hrange, between_eq_where' hb hrange]
    exact hok

/-- Repeated keys on both boundaries of the range. -/
theorem between_crossApplyInner_boundary :
    ∃ ab result,
      crossApplyInner (ofRows [((1 : ℤ), 10), (2, 20), (2, 21), (4, 40), (4, 41), (5, 50)])
        (ofRows [((2 : ℤ), 5), (2, 6), (4, 7), (5, 8)]) (fun v w : ℤ => v + w) = .ok ab ∧
      ab.between 2 4 = .ok result ∧ result.keys = [2, 2, 4] := by
  obtain ⟨ab, result, hab, hok, hwhere, _⟩ := between_crossApplyInner
    (ofRows [((1 : ℤ), 10), (2, 20), (2, 21), (4, 40), (4, 41), (5, 50)])
    (ofRows [((2 : ℤ), 5), (2, 6), (4, 7), (5, 8)]) (fun v w : ℤ => v + w) 2 4
    (by decide) (by decide) (by decide)
  refine ⟨ab, result, hab, hok, ?_⟩
  cases hab
  rw [← hwhere]
  rfl

end TimeSeries

end Tspp
