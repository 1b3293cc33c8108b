import Tspp.Series.Resample
import Tspp.Series.RollingWindows

/-!
# Rows that arrive later

Where rows are inserted at the end of a series, the results of `apply_rolling` and
`resample_and_agg` need not be computed anew. The windows that end at an old row stay as they
are, and those that end at a new row lie in the last old rows and the new ones; all groups but
the last stay as they are, and the last goes on with the new rows.
-/

namespace Runs

universe u v

variable {α : Type u} {β : Type v} [DecidableEq β] {f : α → β}

/-- The elements of the last run. -/
def lastRun (f : α → β) (xs : List α) : List α := ((runs f xs).getLast?.map Prod.snd).getD []

theorem runsFrom_ne_nil (k : β) (grp xs : List α) : runsFrom f k grp xs ≠ [] := by
  induction xs generalizing k grp with
  | nil => exact List.cons_ne_nil _ _
  | cons x xs ih =>
    rw [runsFrom]
    split
    · exact ih k _
    · exact List.cons_ne_nil _ _

/-- Elements behind a list leave all runs but the last, which goes on with them. -/
theorem runsFrom_concat (k : β) {grp : List α} (hne : grp ≠ []) (hgrp : ∀ x ∈ grp, f x = k)
    (xs ys : List α) : runsFrom f k grp (xs ++ ys) = (runsFrom f k grp xs).dropLast ++
      runs f (((runsFrom f k grp xs).getLast?.map Prod.snd).getD [] ++ ys) := by
  induction xs generalizing k grp with
  | nil =>
    obtain ⟨x, rest, rfl⟩ := List.exists_cons_of_ne_nil hne
    have hx : f x = k := hgrp x List.mem_cons_self
    have hrest : ∀ y ∈ rest, f y = k := fun y hy => hgrp y (List.mem_cons_of_mem x hy)
    simp only [runsFrom, List.nil_append, List.dropLast_singleton, List.getLast?_singleton,
      Option.map_some, Option.getD_some, List.cons_append, runs, hx]
    exact (runsFrom_append hrest [x] ys).symm
  | cons x xs ih =>
    rw [List.cons_append, runsFrom, runsFrom]
    split
    · next hx =>
      apply ih k (List.append_ne_nil_of_left_ne_nil hne _)
      intro y hy
      rcases List.mem_append.mp hy with hy | hy
      · exact hgrp y hy
      · rw [List.mem_singleton.mp hy, hx]
    · rw [ih (f x) (List.cons_ne_nil x []) (by simp),
        List.dropLast_cons_of_ne_nil (runsFrom_ne_nil _ _ _), List.cons_append,
        List.getLast?_cons_of_ne_nil (runsFrom_ne_nil _ _ _)]

/-- Elements behind a list leave all runs but the last. -/
theorem runs_append (f : α → β) (xs ys : List α) :
    runs f (xs ++ ys) = (runs f xs).dropLast ++ runs f (lastRun f xs ++ ys) := by
  cases xs with
  | nil => rfl
  | cons x xs => exact runsFrom_concat (f x) (List.cons_ne_nil x []) (by simp) xs ys

end Runs

namespace Tspp

/-- Windows over a continued list are the old windows, and those over its end and what follows. -/
theorem windows_append {α : Type} (m : ℕ) (xs ys : List α) :
    windows (m + 1) (xs ++ ys) = windows (m + 1) xs ++ windows (m + 1) (xs.rtake m ++ ys) := by
  have hend : xs.rtake m ++ ys = (xs ++ ys).drop (xs.length - m) := by
    rw [List.rtake, List.drop_append_of_le_length (Nat.sub_le _ _)]
  have hold : windows (m + 1) xs = (windows (m + 1) (xs ++ ys)).take (xs.length - m) := by
    have hlen := length_windows (m + 1) xs
    rw [Nat.add_sub_add_right] at hlen
    rw [← hlen]
    exact List.prefix_iff_eq_take.mp (windows_extend (m + 1) xs ys)
  rw [hend, windows_drop (Nat.le_add_left 1 m), hold, List.take_append_drop]

/-- Leaving out the first elements of a continued list leaves them out at its end. -/
theorem drop_append_rtake {α : Type} (m : ℕ) (xs ys : List α) :
    (xs ++ ys).drop m = xs.drop m ++ (xs.rtake m ++ ys).drop m := by
  have hlen := TimeSeries.length_rtake xs m
  by_cases h : m ≤ xs.length
  · rw [List.drop_append_of_le_length h, List.drop_left' (by omega)]
  · rw [List.drop_eq_nil_of_le (by omega : xs.length ≤ m), List.nil_append,
      TimeSeries.rtake_of_length_le (by omega)]

theorem map_rtake {α β : Type} (f : α → β) (m : ℕ) (xs : List α) :
    (xs.rtake m).map f = (xs.map f).rtake m := by
  rw [List.rtake, List.rtake, List.map_drop, List.length_map]

namespace TimeSeries

variable {K V O : Type}

/-- The rows of a series behind which more rows were inserted. -/
theorem rows_foldl_insertEnd (ts : TimeSeries K V) (rs : List (K × V)) :
    (rs.foldl insertEnd ts).rows = ts.rows ++ rs := by
  induction rs generalizing ts with
  | nil => rw [List.foldl_nil, List.append_nil]
  | cons r rs ih =>
    rw [List.foldl_cons, ih, rows_insertEnd, List.append_assoc, List.singleton_append]

/-- A series whose keys and values continue those of another has the rows of both. -/
theorem rows_append {a b c : TimeSeries K V} (hkeys : a.keys = b.keys ++ c.keys)
    (hvalues : a.values = b.values ++ c.values) : a.rows = b.rows ++ c.rows := by
  rw [rows, hkeys, hvalues, List.zip_append b.paired, rows, rows]

/-- Rows that are inserted at the end leave the rolled rows as they are, and add what rolling the
last rows, one fewer than a window holds, and the new ones gives. -/
theorem applyRolling_foldl_insertEnd (ts : TimeSeries K V) (rs : List (K × V)) (func : List V → O)
    (m : ℕ) : ∃ old fresh whole, ts.applyRolling func (m + 1) = .ok old ∧
      (ofRows (ts.rows.rtake m ++ rs)).applyRolling func (m + 1) = .ok fresh ∧
      (rs.foldl insertEnd ts).applyRolling func (m + 1) = .ok whole ∧
      whole.rows = old.rows ++ fresh.rows := by
  obtain ⟨old, hold, hkeys, hvalues⟩ := applyRolling_eq_windows ts func m
  obtain ⟨fresh, hfresh, hkeys', hvalues'⟩ :=
    applyRolling_eq_windows (ofRows (ts.rows.rtake m ++ rs)) func m
  obtain ⟨whole, hwhole, hkeys'', hvalues''⟩ :=
    applyRolling_eq_windows (rs.foldl insertEnd ts) func m
  refine ⟨old, fresh, whole, hold, hfresh, hwhole, rows_append ?_ ?_⟩
  · rw [hkeys'', hkeys, hkeys', ← map_fst_rows, ← map_fst_rows, ← map_fst_rows,
      rows_foldl_insertEnd, rows_ofRows, ← List.map_drop, ← List.map_drop, ← List.map_drop,
      drop_append_rtake, List.map_append]
  · rw [hvalues'', hvalues, hvalues', ← map_snd_rows, ← map_snd_rows, ← map_snd_rows,
      rows_foldl_insertEnd, rows_ofRows, List.map_append, List.map_append, windows_append,
      List.map_append, map_rtake]

section Resample

variable [DecidableEq K]

/-- Rows that are inserted at the end leave all bars but the last as they are, and the last one
goes on with them. -/
theorem resampleAndAgg_foldl_insertEnd (ts : TimeSeries K V) (rs : List (K × V)) (g : K → K)
    (aggfn : List V → O) : ∃ old fresh whole,
      ts.resampleAndAgg (fun k => .ok (g k)) aggfn = .ok old ∧
      (ofRows (Runs.lastRun (fun r => g r.1) ts.rows ++ rs)).resampleAndAgg
        (fun k => .ok (g k)) aggfn = .ok fresh ∧
      (rs.foldl insertEnd ts).resampleAndAgg (fun k => .ok (g k)) aggfn = .ok whole ∧
      whole.rows = old.rows.dropLast ++ fresh.rows := by
  refine ⟨_, _, _, resampleAndAgg_ok_eq_runs _ _ _, resampleAndAgg_ok_eq_runs _ _ _,
    resampleAndAgg_ok_eq_runs _ _ _, ?_⟩
  rw [rows_ofRows, rows_ofRows, rows_ofRows, rows_ofRows, rows_foldl_insertEnd, Runs.runs_append,
    List.map_append, List.map_dropLast]

end Resample

end TimeSeries

end Tspp
