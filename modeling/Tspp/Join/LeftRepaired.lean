import Tspp.Join.AnySeries
import Tspp.Series.Resample

/-!
# The left join and the rows it repeats

Where `cross_apply_left` passes a right key that the left series lacks it emits the current
left row early, without the right value, and once more later. The last row under each key is
the one of the left join, so that resampling by key with the last value gives the left join.
-/

namespace Runs

universe u v

variable {α : Type u} {β : Type v} [DecidableEq β] {f : α → β}

/-- Elements in front of the current run are in front of the first run. -/
theorem exists_runsFrom_append (k : β) {grp : List α} (hgrp : grp ≠ []) (before xs : List α) :
    ∃ run rest, run ≠ [] ∧ runsFrom f k grp xs = (k, run) :: rest ∧
      runsFrom f k (before ++ grp) xs = (k, before ++ run) :: rest := by
  induction xs generalizing grp with
  | nil => exact ⟨grp, [], hgrp, rfl, rfl⟩
  | cons x xs ih =>
    rw [runsFrom, runsFrom]
    split
    · rw [List.append_assoc]
      exact ih (List.append_ne_nil_of_left_ne_nil hgrp _)
    · exact ⟨grp, _, hgrp, rfl, rfl⟩

/-- An element with another label than the next one is a run of its own. -/
theorem runs_cons_of_ne {x : α} {xs : List α} (h : ∀ y ∈ xs.head?, f x ≠ f y) :
    runs f (x :: xs) = (f x, [x]) :: runs f xs :=
  runsFrom_eq_cons h [x]

/-- An element with the label of the next one joins the first run. -/
theorem runs_cons_of_eq {x y : α} (h : f y = f x) (xs : List α) :
    ∃ run rest, run ≠ [] ∧ runs f (y :: xs) = (f x, run) :: rest ∧
      runs f (x :: y :: xs) = (f x, x :: run) :: rest := by
  rw [runs, runs, runsFrom, if_pos h, h]
  exact exists_runsFrom_append (f x) (List.cons_ne_nil y []) [x] xs

end Runs

namespace Tspp

variable {K V W O : Type}

section LastValue

variable [DecidableEq K]

/-- An aggregate that gives the last of its values. -/
def GivesLast (agg : List O → O) : Prop := ∀ buffer v, agg (buffer ++ [v]) = v

variable {agg : List O → O}

/-- A value in front of others is not the last one. -/
theorem GivesLast.cons (h : GivesLast agg) (v : O) {buffer : List O} (hne : buffer ≠ []) :
    agg (v :: buffer) = agg buffer := by
  rw [← List.dropLast_append_getLast hne, ← List.cons_append, h, h]

/-- The rows that resampling by key makes of some rows. -/
def collapse (agg : List O → O) (rows : List (K × O)) : List (K × O) :=
  (Runs.runs Prod.fst rows).map (TimeSeries.aggregate agg)

/-- A row with another key than the next one is kept. -/
theorem collapse_cons_of_ne (h : GivesLast agg) {r : K × O} {rows : List (K × O)}
    (hrows : ∀ s ∈ rows.head?, r.1 ≠ s.1) : collapse agg (r :: rows) = r :: collapse agg rows := by
  have hlast : agg [r.2] = r.2 := h [] r.2
  rw [collapse, Runs.runs_cons_of_ne hrows, List.map_cons, collapse, TimeSeries.aggregate,
    List.map_singleton, hlast]

/-- A row with the key of the next one is dropped. -/
theorem collapse_cons_of_eq (h : GivesLast agg) {r s : K × O} {rows : List (K × O)}
    (hrows : rows.head? = some s) (hkey : s.1 = r.1) :
    collapse agg (r :: rows) = collapse agg rows := by
  obtain ⟨rows, rfl⟩ := List.head?_eq_some_iff.mp hrows
  obtain ⟨run, rest, hne, hold, hnew⟩ := Runs.runs_cons_of_eq hkey rows
  rw [collapse, collapse, hold, hnew, List.map_cons, List.map_cons, TimeSeries.aggregate,
    TimeSeries.aggregate, List.map_cons, h.cons r.2 (List.map_eq_nil_iff.not.mpr hne)]

end LastValue

section LeftLoopRows

open KeyedRows

variable [LinearOrder K] {d : W} {func : V → W → O} {agg : List O → O}

/-- The first row emitted has the first left key. -/
theorem head?_leftLoopRows {as : List (K × V)} {bs : List (K × W)} {out : List (K × O)}
    (h : leftLoopRows d func as bs = some out) :
    out.head?.map Prod.fst = as.head?.map Prod.fst := by
  cases as with
  | nil =>
    rw [leftLoopRows_nil] at h
    cases h
    rfl
  | cons l as =>
    cases bs with
    | nil => simp at h
    | cons r bs =>
      rw [leftLoopRows] at h
      split_ifs at h
      all_goals
        obtain ⟨rest, _, rfl⟩ := Option.map_eq_some_iff.mp h
        rfl

/-- No row of later left rows has the key of the first one. -/
theorem ne_head?_leftLoopRows {l : K × V} {as : List (K × V)} {bs : List (K × W)}
    {out : List (K × O)} (ha : Increasing (l :: as)) (h : leftLoopRows d func as bs = some out)
    (v : O) : ∀ s ∈ out.head?, ((l.1, v) : K × O).1 ≠ s.1 := by
  intro s hs
  have hhead := head?_leftLoopRows h
  rw [hs, Option.map_some] at hhead
  obtain ⟨r, hr, hkey⟩ := Option.map_eq_some_iff.mp hhead.symm
  rw [← hkey]
  exact (ha.head_lt (List.mem_of_mem_head? hr)).ne

/-- The last rows under each key are the rows of the left join. -/
theorem collapse_leftLoopRows (hagg : GivesLast agg) {as : List (K × V)} {bs : List (K × W)}
    (ha : Increasing as) (hb : Increasing bs) {out : List (K × O)}
    (hout : leftLoopRows d func as bs = some out) :
    collapse agg out = as.map fun r => (r.1, func r.2 ((bs.lookup r.1).getD d)) := by
  induction as, bs using leftLoopRows.induct generalizing out with
  | case1 bs =>
    rw [leftLoopRows_nil] at hout
    cases hout
    rfl
  | case2 r as => simp at hout
  | case3 a v as b w bs h ih =>
    rw [leftLoopRows_of_lt h] at hout
    obtain ⟨rest, hrest, rfl⟩ := Option.map_eq_some_iff.mp hout
    rw [collapse_cons_of_ne hagg (ne_head?_leftLoopRows ha hrest _), ih ha.tail hb hrest,
      List.map_cons, hb.nonDecreasing.lookup_eq_none h]
    rfl
  | case4 a v as b w bs h h' hbs ih =>
    obtain rfl : bs = [] := List.isEmpty_iff.mp hbs
    rw [leftLoopRows_of_gt_last h'] at hout
    obtain ⟨rest, hrest, rfl⟩ := Option.map_eq_some_iff.mp hout
    rw [collapse_cons_of_ne hagg (ne_head?_leftLoopRows ha hrest _), ih ha.tail hb hrest,
      List.map_cons, lookup_cons_of_lt h']
    rfl
  | case5 a v as b w bs h h' hbs ih =>
    rw [leftLoopRows_of_gt h' (by simpa using hbs)] at hout
    obtain ⟨rest, hrest, rfl⟩ := Option.map_eq_some_iff.mp hout
    -- The left row is emitted again, and the row emitted early is dropped.
    obtain ⟨s, hs, hkey⟩ := Option.map_eq_some_iff.mp (head?_leftLoopRows hrest)
    rw [collapse_cons_of_eq hagg hs hkey, ih ha hb.tail hrest]
    apply List.map_congr_left
    intro r hr
    have hlt : b < r.1 := ha.nonDecreasing.lt_key_of_lt_head h' r.1 (List.mem_map_of_mem hr)
    rw [lookup_cons_of_lt hlt]
  | case6 a v as b w bs h h' ih =>
    obtain rfl : a = b := le_antisymm (not_lt.mp h') (not_lt.mp h)
    rw [leftLoopRows_of_eq] at hout
    obtain ⟨rest, hrest, rfl⟩ := Option.map_eq_some_iff.mp hout
    rw [collapse_cons_of_ne hagg (ne_head?_leftLoopRows ha hrest _), ih ha.tail hb.tail hrest,
      List.map_cons, List.lookup_cons, beq_self_eq_true]
    congr 1
    apply List.map_congr_left
    intro r hr
    rw [lookup_cons_of_lt (ha.head_lt hr)]

end LeftLoopRows

namespace TimeSeries

variable [LinearOrder K]

/-- Whenever the left join of two strictly increasing series returns, resampling its result by key
with the last value gives the left join, repeated rows or not. -/
theorem crossApplyLeft_resampled (left : TimeSeries K V) (other : TimeSeries K W)
    (defaultValue : W) (func : V → W → O) (agg : List O → O) (hagg : GivesLast agg)
    (hl : left.StrictlyIncreasing) (hr : other.StrictlyIncreasing) {joined : TimeSeries K O}
    (hjoined : crossApplyLeft left other defaultValue func = .ok joined) :
    ∃ result, joined.resampleAndAgg (fun k => .ok k) agg = .ok result ∧
      IsLeftJoin left other defaultValue func result := by
  rw [crossApplyLeft_eq] at hjoined
  split at hjoined
  case h_2 => cases hjoined
  case h_1 out hout =>
    cases hjoined
    refine ⟨_, resampleAndAgg_ok_eq_runs _ id agg, isLeftJoin_of_rows hr ?_⟩
    rw [rows_ofRows, rows_ofRows]
    exact collapse_leftLoopRows hagg (left.strictlyIncreasing_iff_rows.mp hl)
      (other.strictlyIncreasing_iff_rows.mp hr) hout

/-- Both left rows are repeated, and the repetitions are gone. -/
theorem crossApplyLeft_resampled_repeated :
    ∃ result, (ofRows [((5 : ℤ), (50 : ℤ)), (5, 57), (9, 90), (9, 99)]).resampleAndAgg
        (fun k => .ok k) (fun b => b.getLast?.getD 0) = .ok result ∧
      IsLeftJoin (ofRows [((5 : ℤ), (50 : ℤ)), (9, 90)])
        (ofRows [((1 : ℤ), (10 : ℤ)), (5, 7), (7, 8), (9, 9)]) 0 (· + ·) result :=
  crossApplyLeft_resampled (ofRows [((5 : ℤ), (50 : ℤ)), (9, 90)])
    (ofRows [((1 : ℤ), (10 : ℤ)), (5, 7), (7, 8), (9, 9)]) 0 (· + ·) _
    (fun _ _ => by rw [List.getLast?_concat, Option.getD_some]) (by decide) (by decide) (by rfl)

end TimeSeries

end Tspp
