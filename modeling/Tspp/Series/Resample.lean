import Tspp.Series.Lookup
import Tspp.Core.Runs

/-!
# Resampling

`resample_and_agg` keeps the values of the current group in a buffer and emits a row
whenever the group key changes, and once more at the end. The grouping function may
fail, and the operation fails with it. Where it does not fail, the rows that are
aggregated together are the runs of rows with equal group keys.
-/

namespace Tspp

variable {K V O : Type} [DecidableEq K]

/-- The local variables of `resample_and_agg`. -/
structure ResampleState (K V O : Type) where
  /-- The rows emitted so far. -/
  result : TimeSeries K O
  /-- The values of the current group. -/
  buffer : List V
  /-- The key of the current group, once a row has been read. -/
  priorKey : Option K

namespace TimeSeries

/-- The body of the loop of `resample_and_agg`. -/
def resampleStep (grpfn : K → Except Fault K) (aggfn : List V → O) (s : ResampleState K V O)
    (kvp : K × V) : Except Fault (ResampleState K V O) := do
  let keycand ← grpfn kvp.1
  let s :=
    match s.priorKey with
    | some priorKey =>
      if priorKey != keycand then
        { s with result := s.result.insertEnd (priorKey, aggfn s.buffer), buffer := [] }
      else s
    | none => s
  return { s with buffer := s.buffer ++ [kvp.2], priorKey := some keycand }

/-- The last chunk, after the loop of `resample_and_agg`. -/
def resampleFinish (aggfn : List V → O) (s : ResampleState K V O) : TimeSeries K O :=
  match s.priorKey with
  | some priorKey => s.result.insertEnd (priorKey, aggfn s.buffer)
  | none => s.result

/-- `resample_and_agg` -/
def resampleAndAgg (ts : TimeSeries K V) (grpfn : K → Except Fault K) (aggfn : List V → O) :
    Except Fault (TimeSeries K O) := do
  let s ← ts.rows.foldlM (resampleStep grpfn aggfn) ⟨.empty, [], none⟩
  return resampleFinish aggfn s

/-- The series whose values carry their keys: aggregating it shows which rows are aggregated. -/
def withDates (ts : TimeSeries K V) : TimeSeries K (K × V) :=
  ofRows (ts.rows.map fun r => (r.1, r))

/-- An aggregated row: the key of a run of rows and the aggregate of its values. -/
def aggregate (aggfn : List V → O) (bar : K × List (K × V)) : K × O :=
  (bar.1, aggfn (bar.2.map Prod.snd))

variable {grpfn : K → Except Fault K} {g : K → K}

/-- A row of the current group joins the buffer. -/
theorem resampleStep_of_eq (aggfn : List V → O) (out : List (K × O)) {k : K}
    (grp : List (K × V)) {r : K × V} (hr : grpfn r.1 = .ok k) :
    resampleStep grpfn aggfn ⟨.ofRows out, grp.map Prod.snd, some k⟩ r =
      .ok ⟨.ofRows out, (grp ++ [r]).map Prod.snd, some k⟩ := by
  simp [resampleStep, hr, bind, Except.bind, pure, Except.pure]

/-- A row of another group emits the current one. -/
theorem resampleStep_of_ne (aggfn : List V → O) (out : List (K × O)) {k k' : K}
    (grp : List (K × V)) {r : K × V} (hr : grpfn r.1 = .ok k') (hne : k' ≠ k) :
    resampleStep grpfn aggfn ⟨.ofRows out, grp.map Prod.snd, some k⟩ r =
      .ok ⟨.ofRows (out ++ [aggregate aggfn (k, grp)]), [r].map Prod.snd, some k'⟩ := by
  simp [resampleStep, hr, bind, Except.bind, pure, Except.pure, Ne.symm hne, aggregate,
    insertEnd_ofRows]

/-- From a current group on, the loop and the last chunk emit the remaining runs. -/
theorem foldlM_resampleStep (aggfn : List V → O) (out : List (K × O)) (k : K)
    (grp rs : List (K × V)) (hg : ∀ r ∈ rs, grpfn r.1 = .ok (g r.1)) :
    (rs.foldlM (resampleStep grpfn aggfn) ⟨.ofRows out, grp.map Prod.snd, some k⟩).map
        (resampleFinish aggfn) =
      .ok (.ofRows (out ++ (Runs.runsFrom (fun r => g r.1) k grp rs).map (aggregate aggfn))) := by
  induction rs generalizing out k grp with
  | nil =>
    rw [List.foldlM_nil, Runs.runsFrom, List.map_singleton, ← insertEnd_ofRows]
    rfl
  | cons r rs ih =>
    have hr := hg r List.mem_cons_self
    have hrs : ∀ x ∈ rs, grpfn x.1 = .ok (g x.1) := fun x hx => hg x (List.mem_cons_of_mem r hx)
    rw [List.foldlM_cons, Runs.runsFrom]
    by_cases hkey : g r.1 = k
    · rw [if_pos hkey, resampleStep_of_eq aggfn out grp (by rw [hr, hkey])]
      exact ih out k (grp ++ [r]) hrs
    · rw [if_neg hkey, resampleStep_of_ne aggfn out grp hr hkey]
      have hrest := ih (out ++ [aggregate aggfn (k, grp)]) (g r.1) [r] hrs
      rw [List.append_assoc] at hrest
      exact hrest

/-- Where the grouping does not fail, the output rows are the aggregated runs of equal group
keys. -/
theorem resampleAndAgg_eq_runs (ts : TimeSeries K V) (aggfn : List V → O)
    (hg : ∀ k ∈ ts.keys, grpfn k = .ok (g k)) :
    ts.resampleAndAgg grpfn aggfn =
      .ok (.ofRows ((Runs.runs (fun r => g r.1) ts.rows).map (aggregate aggfn))) := by
  have hrows : ∀ r ∈ ts.rows, grpfn r.1 = .ok (g r.1) := fun r hr =>
    hg r.1 (mem_keys_of_mem_rows (show (r.1, r.2) ∈ ts.rows from hr))
  rw [resampleAndAgg]
  cases hts : ts.rows with
  | nil => rfl
  | cons r rs =>
    rw [hts] at hrows
    have hstep : resampleStep grpfn aggfn ⟨.empty, [], none⟩ r =
        .ok ⟨.ofRows [], [r].map Prod.snd, some (g r.1)⟩ := by
      simp only [resampleStep, hrows r List.mem_cons_self]
      rfl
    rw [List.foldlM_cons, hstep]
    exact foldlM_resampleStep aggfn [] (g r.1) [r] rs
      fun x hx => hrows x (List.mem_cons_of_mem r hx)

/-- A grouping that never fails. -/
theorem resampleAndAgg_ok_eq_runs (ts : TimeSeries K V) (g : K → K) (aggfn : List V → O) :
    ts.resampleAndAgg (fun k => .ok (g k)) aggfn =
      .ok (.ofRows ((Runs.runs (fun r => g r.1) ts.rows).map (aggregate aggfn))) :=
  resampleAndAgg_eq_runs ts aggfn fun _ _ => rfl

/-- Resampling adds no row. -/
theorem size_resampleAndAgg_le {ts : TimeSeries K V} {g : K → K} {aggfn : List V → O}
    {result : TimeSeries K O}
    (h : ts.resampleAndAgg (fun k => .ok (g k)) aggfn = .ok result) : result.size ≤ ts.size := by
  rw [resampleAndAgg_ok_eq_runs] at h
  cases h
  rw [← length_rows, ← length_rows, rows_ofRows, List.length_map]
  exact (Runs.maximalRuns_runs _ ts.rows).length_le

/-- Aggregating the series whose values carry their keys gives the runs themselves. -/
theorem withDates_resampleAndAgg (ts : TimeSeries K V) (hg : ∀ k ∈ ts.keys, grpfn k = .ok (g k)) :
    ts.withDates.resampleAndAgg grpfn id = .ok (.ofRows (Runs.runs (fun r => g r.1) ts.rows)) := by
  have hkeys : ts.withDates.keys = ts.keys := by
    rw [withDates, keys_ofRows, List.map_map, ← map_fst_rows]
    rfl
  rw [resampleAndAgg_eq_runs ts.withDates id (by rwa [hkeys]), withDates, rows_ofRows,
    Runs.runs_map, List.map_map]
  congr 2
  refine (List.map_congr_left fun bar _ => ?_).trans (List.map_id _)
  have hrows : (bar.2.map fun r => (r.1, r)).map Prod.snd = bar.2 := by
    rw [List.map_map]
    exact List.map_id bar.2
  exact Prod.ext rfl hrows

/-- The output keys are the group keys of the input keys. -/
theorem mem_keys_of_resampleAndAgg {ts : TimeSeries K V} {aggfn : List V → O}
    (hg : ∀ k ∈ ts.keys, grpfn k = .ok (g k)) {result : TimeSeries K O}
    (h : ts.resampleAndAgg grpfn aggfn = .ok result) {k : K} :
    k ∈ result.keys ↔ ∃ x ∈ ts.keys, g x = k := by
  rw [resampleAndAgg_eq_runs ts aggfn hg] at h
  cases h
  rw [keys_ofRows, List.map_map, ← map_fst_rows]
  exact Runs.mem_labels_iff.trans (by simp only [List.mem_map, exists_exists_and_eq_and])

/-- Aggregating the aggregates of buffers is aggregating the buffers joined together. -/
def AggregatesInStages (aggfn : List V → V) : Prop :=
  ∀ buffers : List (List V), (∀ buffer ∈ buffers, buffer ≠ []) →
    aggfn buffers.flatten = aggfn (buffers.map aggfn)

omit [DecidableEq K] in
/-- Aggregating the aggregates of runs is aggregating the runs joined together. -/
theorem aggregate_join {aggfn : List V → V} (hagg : AggregatesInStages aggfn) (k : K)
    {bars : List (K × List (K × V))} (hbars : ∀ bar ∈ bars, bar.2 ≠ []) :
    aggregate aggfn (k, bars.map (aggregate aggfn)) =
      aggregate aggfn (k, (bars.map Prod.snd).flatten) := by
  have hne : ∀ buffer ∈ bars.map (fun bar => bar.2.map Prod.snd), buffer ≠ [] := by
    intro buffer hmem
    obtain ⟨bar, hbar, rfl⟩ := List.mem_map.mp hmem
    exact List.map_eq_nil_iff.not.mpr (hbars bar hbar)
  unfold aggregate
  congr 1
  calc aggfn ((bars.map fun bar => (bar.1, aggfn (bar.2.map Prod.snd))).map Prod.snd)
      = aggfn ((bars.map fun bar => bar.2.map Prod.snd).map aggfn) := by
        rw [List.map_map, List.map_map]
        rfl
    _ = aggfn (bars.map fun bar => bar.2.map Prod.snd).flatten := (hagg _ hne).symm
    _ = aggfn ((bars.map Prod.snd).flatten.map Prod.snd) := by
        rw [List.map_flatten, List.map_map]
        rfl

/-- The bars of bars are the bars of both groupings together. -/
theorem resampleAndAgg_stages {grpfn' : K → Except Fault K} {g' : K → K} {aggfn : List V → V}
    (ts : TimeSeries K V) (hg : ∀ k ∈ ts.keys, grpfn k = .ok (g k))
    (hg' : ∀ k, grpfn' k = .ok (g' k)) (hagg : AggregatesInStages aggfn) :
    (ts.resampleAndAgg grpfn aggfn >>= fun fine => fine.resampleAndAgg grpfn' aggfn) =
      .ok (.ofRows ((Runs.runs (fun r => g' (g r.1)) ts.rows).map (aggregate aggfn))) := by
  rw [ts.resampleAndAgg_eq_runs aggfn hg]
  refine (resampleAndAgg_eq_runs _ aggfn fun k _ => hg' k).trans ?_
  rw [rows_ofRows, Runs.runs_map, ← Runs.runs_runs (fun r : K × V => g r.1) g', List.map_map,
    List.map_map]
  congr 2
  apply List.map_congr_left
  intro bar hbar
  apply aggregate_join hagg
  intro run hrun
  exact (Runs.maximalRuns_runs _ ts.rows).nonempty run (Runs.mem_of_mem_runs hbar run hrun)

/-- Where aggregating the aggregates of buffers is aggregating the buffers joined together,
resampling in two stages is resampling once. -/
theorem resampleAndAgg_resampleAndAgg (ts : TimeSeries K V) (g1 g2 : K → K) (aggfn : List V → V)
    (hagg : AggregatesInStages aggfn) :
    ∃ result, (ts.resampleAndAgg (fun k => .ok (g1 k)) aggfn >>= fun fine =>
        fine.resampleAndAgg (fun k => .ok (g2 k)) aggfn) = .ok result ∧
      ts.resampleAndAgg (fun k => .ok (g2 (g1 k))) aggfn = .ok result :=
  ⟨_, ts.resampleAndAgg_stages (fun _ _ => rfl) (fun _ => rfl) hagg,
    resampleAndAgg_ok_eq_runs ts (fun k => g2 (g1 k)) aggfn⟩

/-- Two stages of sums: the fine groups 1 and 2 share a coarse group, and 1 comes back. -/
theorem resampleAndAgg_resampleAndAgg_sum :
    ∃ result, ((ofRows [((10 : ℤ), (1 : ℤ)), (15, 2), (20, 4), (30, 8), (10, 16)]).resampleAndAgg
        (fun k => .ok (k / 10)) List.sum >>= fun fine =>
          fine.resampleAndAgg (fun k => .ok (k / 3)) List.sum) = .ok result ∧
      (ofRows [((10 : ℤ), (1 : ℤ)), (15, 2), (20, 4), (30, 8), (10, 16)]).resampleAndAgg
        (fun k => .ok (k / 10 / 3)) List.sum = .ok result :=
  resampleAndAgg_resampleAndAgg _ (· / 10) (· / 3) List.sum fun _ _ => List.sum_flatten

section Ordered

variable {K V O : Type} [LinearOrder K]

/-- Along non-decreasing keys a non-decreasing grouping gives strictly increasing keys. -/
theorem resampleAndAgg_increasing {ts : TimeSeries K V} {grpfn : K → K} {aggfn : List V → O}
    {result : TimeSeries K O} (hts : ts.NonDecreasing) (hmono : Monotone grpfn)
    (h : ts.resampleAndAgg (fun k => .ok (grpfn k)) aggfn = .ok result) :
    result.StrictlyIncreasing := by
  rw [resampleAndAgg_ok_eq_runs] at h
  cases h
  have hlabels : (ts.rows.map fun r => grpfn r.1).Pairwise (· ≤ ·) := by
    rw [List.pairwise_map]
    exact List.Pairwise.imp (fun hle => hmono hle) (ts.nonDecreasing_iff_rows.mp hts)
  rw [strictlyIncreasing_iff_rows, rows_ofRows]
  exact List.pairwise_map.mpr (Runs.runs_increasing hlabels)

/-- Resampling aggregates the maximal runs of rows with equal group keys, in order and without
loss. Along non-decreasing keys and groups every group appears once. -/
theorem resampleAndAgg_partitions (ts : TimeSeries K V) (grpfn : K → K) (aggfn : List V → O) :
    ∃ (result : TimeSeries K O) (runs : List (K × List (K × V))),
      ts.resampleAndAgg (fun k => .ok (grpfn k)) aggfn = .ok result ∧
      Runs.MaximalRuns (fun r => grpfn r.1) ts.rows runs ∧
      result.rows = runs.map (fun run => (run.1, aggfn (run.2.map Prod.snd))) ∧
      (runs.map fun run => run.2.map Prod.snd).flatten = ts.values ∧
      (ts.NonDecreasing → Monotone grpfn → result.StrictlyIncreasing) := by
  have hok := resampleAndAgg_ok_eq_runs ts grpfn aggfn
  have hruns := Runs.maximalRuns_runs (fun r : K × V => grpfn r.1) ts.rows
  refine ⟨_, _, hok, hruns, ?_, ?_, fun hts hmono => resampleAndAgg_increasing hts hmono hok⟩
  · rw [rows_ofRows]
    rfl
  · have hvalues := congrArg (List.map Prod.snd) hruns.flatten
    rw [List.map_flatten, List.map_map, map_snd_rows] at hvalues
    exact hvalues

end Ordered

end TimeSeries

end Tspp
