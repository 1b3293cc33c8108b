import Tspp.Series.Pipeline
import Tspp.Series.RollingWindows

/-!
# Pipelines that do not look ahead

At a date a series shows the rows up to that date. An operation does not look ahead if what its
result shows at a date is a function of what the series shows at the same date. Shifts to
earlier dates look ahead, and so do groups of rows under a key before their last row; the
other operations do not, and neither does a pipeline without these.
-/

namespace Tspp

namespace TimeSeries

variable {K V O : Type} [LinearOrder K] {d : K} {ts : TimeSeries K V}

/-- The rows up to a date. -/
def past (d : K) (ts : TimeSeries K V) : List (K × V) := ts.rows.filter fun r => r.1 ≤ d

/-- The rows up to a date of what an operation returns; a fault shows none. -/
def shown (d : K) : Except Fault (TimeSeries K V) → List (K × V)
  | .ok ts => ts.past d
  | .error _ => []

/-- The past of a series and what comes after it. -/
theorem exists_future (h : ts.NonDecreasing) (d : K) :
    ∃ future, ts.rows = ts.past d ++ future ∧ ∀ r ∈ future, d < r.1 :=
  (ts.nonDecreasing_iff_rows.mp h).exists_future d

theorem length_past_le (d : K) (ts : TimeSeries K V) : (ts.past d).length ≤ ts.size := by
  rw [← length_rows]
  exact List.length_filter_le _ _

theorem shown_map (func : V → O) :
    shown d (.ok (ts.map func)) = (ts.past d).map (Prod.map id func) := by
  rw [shown, past, past, rows_map, List.filter_map]
  rfl

theorem shown_mapWithDate (func : K × V → O) :
    shown d (.ok (ts.mapWithDate func)) = (ts.past d).map fun r => (r.1, func r) := by
  rw [shown, past, past, rows_mapWithDate, List.filter_map]
  rfl

theorem shown_where' (predicate : K × V → Bool) :
    shown d (.ok (ts.where' predicate)) = (ts.past d).filter predicate := by
  rw [shown, past, past, rows_where', List.filter_comm]

theorem shown_between (h : ts.NonDecreasing) (startdt enddt : K) :
    shown d (ts.between startdt enddt) =
      if startdt ≤ enddt then (ts.past d).filter (inRange startdt enddt) else [] := by
  split
  · next hrange => rw [between_eq_where' h hrange, shown_where']
  · next hrange =>
    rw [between, if_neg hrange]
    rfl

theorem shown_skipOnIndex {toInt : ℤ → ℤ} (h : ts.StrictlyIncreasing)
    (hint : HoldsPositions toInt ts) {idxFunc : K → K} (hidx : ∀ k, idxFunc k ≤ k)
    (func : V → V → V) : shown d (ts.skipOnIndex toInt idxFunc func) =
      (ts.past d).filterMap fun r =>
        ((ts.past d).lookup (idxFunc r.1)).map fun prior => (r.1, func r.2 prior) := by
  obtain ⟨result, hok⟩ := exists_skipOnIndex h hint idxFunc func
  have hrow := priorRow_eq_lookup h hint idxFunc func
  rw [hok, shown, past, (skipOnIndex_eq_ok_iff.mp hok).2, KeyedRows.filter_filterMap]
  · apply List.filterMap_congr
    intro r hr
    have hdate : r.1 ≤ d := of_decide_eq_true (List.mem_filter.mp hr).2
    rw [hrow, past, (ts.strictlyIncreasing_iff_rows.mp h).lookup_filter ((hidx r.1).trans hdate)]
  · intro r s hs
    rw [hrow] at hs
    obtain ⟨prior, _, rfl⟩ := Option.map_eq_some_iff.mp hs
    rfl

theorem shown_crossApplyInner {W : Type} {other : TimeSeries K W} (h : ts.StrictlyIncreasing)
    (hother : other.StrictlyIncreasing) (func : V → W → O) :
    shown d (ts.crossApplyInner other func) =
      (ts.past d).filterMap fun r => (other.rows.lookup r.1).map fun w => (r.1, func r.2 w) := by
  obtain ⟨result, hok, hrows⟩ := crossApplyInner_eq ts other func
  rw [hok, shown, past, hrows, KeyedRows.innerMerge_eq_filterMap func
    (ts.strictlyIncreasing_iff_rows.mp h) (other.strictlyIncreasing_iff_rows.mp hother),
    KeyedRows.filter_filterMap]
  · rfl
  · intro r s hs
    obtain ⟨w, _, rfl⟩ := Option.map_eq_some_iff.mp hs
    rfl

/-- Groups whose keys do not come before their rows are complete once their keys are past. -/
theorem shown_resampleAndAgg (h : ts.NonDecreasing) {grpfn : K → K} (hmono : Monotone grpfn)
    (hgrp : ∀ k, k ≤ grpfn k) (aggfn : List V → O) :
    shown d (ts.resampleAndAgg (fun k => .ok (grpfn k)) aggfn) =
      (Runs.runs (fun r => grpfn r.1) ((ts.past d).filter fun r => grpfn r.1 ≤ d)).map
        (aggregate aggfn) := by
  have hlabels : (ts.rows.map fun r => grpfn r.1).Pairwise (· ≤ ·) := by
    rw [List.pairwise_map]
    exact (ts.nonDecreasing_iff_rows.mp h).imp fun hle => hmono hle
  have hpast : ((ts.past d).filter fun r => grpfn r.1 ≤ d) =
      ts.rows.filter fun r => grpfn r.1 ≤ d := by
    rw [past, List.filter_filter]
    apply List.filter_congr
    intro r _
    have hle := hgrp r.1
    rw [Bool.and_eq_left_iff_imp, decide_eq_true_eq, decide_eq_true_eq]
    exact hle.trans
  rw [resampleAndAgg_ok_eq_runs, shown, past, rows_ofRows, List.filter_map, hpast,
    Runs.runs_filter hlabels fun k => k ≤ d]
  rfl

/-- Keys that are moved over values: of the result, the past values decide the past rows. -/
theorem filter_zip_drop {past future : List K} (hpast : ∀ k ∈ past, k ≤ d)
    (hfuture : ∀ k ∈ future, d < k) {m : ℕ} {us all : List O} (hlen : us.length = past.length - m)
    (hus : us <+: all) :
    ((((past ++ future).drop m).zip all).filter fun r => r.1 ≤ d) = (past.drop m).zip us := by
  obtain ⟨more, rfl⟩ := hus
  have hkeep : (((past.drop m).zip us).filter fun r => r.1 ≤ d) = (past.drop m).zip us := by
    refine List.filter_eq_self.mpr fun r hr => decide_eq_true (hpast r.1 ?_)
    exact List.mem_of_mem_drop (List.of_mem_zip (show (r.1, r.2) ∈ _ from hr)).1
  have hdrop : ∀ (n : ℕ) (vs : List O),
      (((future.drop n).zip vs).filter fun r => r.1 ≤ d) = [] := by
    intro n vs
    refine List.filter_eq_nil_iff.mpr fun r hr => ?_
    have hmem := (List.of_mem_zip (show (r.1, r.2) ∈ _ from hr)).1
    simpa using hfuture r.1 (List.mem_of_mem_drop hmem)
  rw [List.drop_append]
  by_cases hm : m ≤ past.length
  · rw [List.zip_append (by rw [List.length_drop, hlen]), List.filter_append, hkeep, hdrop,
      List.append_nil]
  · have hnil : past.drop m = [] := List.drop_eq_nil_of_le (by omega)
    rw [hnil, List.nil_append, hdrop, List.zip_nil_left]

/-- The same of a series whose keys are the last keys of another. -/
theorem past_of_keys_drop (h : ts.NonDecreasing) {result : TimeSeries K O} {m : ℕ} {us : List O}
    (hkeys : result.keys = ts.keys.drop m) (hlen : us.length = (ts.past d).length - m)
    (hus : us <+: result.values) :
    result.past d = (((ts.past d).map Prod.fst).drop m).zip us := by
  obtain ⟨future, hrows, hfuture⟩ := exists_future h d
  rw [past, rows, hkeys, ← map_fst_rows ts, hrows, List.map_append]
  refine filter_zip_drop ?_ ?_ (by rw [List.length_map, hlen]) hus
  · intro k hk
    obtain ⟨r, hr, rfl⟩ := List.mem_map.mp hk
    exact of_decide_eq_true (List.mem_filter.mp hr).2
  · intro k hk
    obtain ⟨r, hr, rfl⟩ := List.mem_map.mp hk
    exact hfuture r hr

/-- The values of the past come first. -/
theorem exists_values_append (h : ts.NonDecreasing) (d : K) :
    ∃ future, ts.values = (ts.past d).map Prod.snd ++ future := by
  obtain ⟨future, hrows, _⟩ := exists_future h d
  exact ⟨future.map Prod.snd, by rw [← map_snd_rows ts, hrows, List.map_append]⟩

theorem shown_shift (h : ts.NonDecreasing) {shiftIdx : ℤ} (hlag : shiftIdx ≤ 0) :
    shown d (ts.shift shiftIdx) =
      (((ts.past d).map Prod.fst).drop shiftIdx.natAbs).zip
        (((ts.past d).map Prod.snd).take ((ts.past d).length - shiftIdx.natAbs)) := by
  have habs := Int.abs_eq_natAbs shiftIdx
  have hlen := length_past_le d ts
  by_cases hfits : |shiftIdx| ≤ ts.size
  · obtain ⟨result, hok, hshift⟩ := shift_eq_ok ts hfits
    obtain ⟨future, hvalues⟩ := exists_values_append h d
    have hmove : (-shiftIdx).toNat = shiftIdx.natAbs := by omega
    rw [hok, shown]
    apply past_of_keys_drop h
    · rw [hshift.keys, hmove, window, List.take_of_length_le]
      rw [List.length_drop, size]
      omega
    · rw [List.length_take, List.length_map]
      omega
    · have hlead : shiftIdx.toNat = 0 := by omega
      rw [hshift.values, hlead, hmove, window, List.drop_zero, hvalues,
        ← List.take_append_of_le_length (by rw [List.length_map]; omega)]
      exact List.take_prefix_take_left (by omega)
  · have hnil : ((ts.past d).map Prod.fst).drop shiftIdx.natAbs = [] :=
      List.drop_eq_nil_of_le (by rw [List.length_map]; omega)
    rw [shift_eq_error (not_le.mp hfits), hnil]
    rfl

/-- Lists that are continued are combined as far as they were, and on. -/
theorem zipWith_extend {V W : Type} (func : V → W → O) {vs vs' : List V} {ws ws' : List W}
    (hv : vs <+: vs') (hw : ws <+: ws') :
    List.zipWith func vs ws <+: List.zipWith func vs' ws' := by
  induction vs generalizing vs' ws ws' with
  | nil => exact List.nil_prefix
  | cons v vs ih =>
    cases ws with
    | nil => exact List.nil_prefix
    | cons w ws =>
      obtain ⟨vmore, rfl⟩ := hv
      obtain ⟨wmore, rfl⟩ := hw
      exact List.cons_prefix_cons.mpr
        ⟨rfl, ih (List.prefix_append vs vmore) (List.prefix_append ws wmore)⟩

theorem shown_skip (h : ts.NonDecreasing) (skipSize : ℕ) (func : V → V → V) :
    shown d (ts.skip skipSize func) =
      (((ts.past d).map Prod.fst).drop skipSize).zip
        (List.zipWith func (((ts.past d).map Prod.snd).drop skipSize)
          ((ts.past d).map Prod.snd)) := by
  have hlen := length_past_le d ts
  by_cases hsize : skipSize ≤ ts.size
  · obtain ⟨result, hok, hkeys, hvalues⟩ := skip_eq_ok hsize func
    obtain ⟨future, hall⟩ := exists_values_append h d
    rw [hok, shown]
    apply past_of_keys_drop h hkeys
    · rw [List.length_zipWith, List.length_drop, List.length_map]
      omega
    · rw [hvalues, hall]
      exact zipWith_extend func ((List.prefix_append _ future).drop skipSize)
        (List.prefix_append _ future)
  · have hnil : ((ts.past d).map Prod.fst).drop skipSize = [] :=
      List.drop_eq_nil_of_le (by rw [List.length_map]; omega)
    rw [skip_eq_error (not_le.mp hsize), hnil]
    rfl

theorem shown_applyRolling (h : ts.NonDecreasing) (func : List V → O) (m : ℕ) :
    shown d (ts.applyRolling func (m + 1)) =
      (((ts.past d).map Prod.fst).drop m).zip
        ((windows (m + 1) ((ts.past d).map Prod.snd)).map func) := by
  obtain ⟨result, hok, hkeys, hvalues⟩ := applyRolling_eq_windows ts func m
  obtain ⟨future, hall⟩ := exists_values_append h d
  rw [hok, shown]
  apply past_of_keys_drop h hkeys
  · rw [List.length_map, length_windows, List.length_map]
    omega
  · rw [hvalues, hall]
    exact (windows_extend _ _ future).map func

end TimeSeries

open TimeSeries

variable {K V O : Type} [LinearOrder K] {d : K}

/-- The operation does not look ahead: a shift moves values later, an index date is not after its
row, and the key of a group is not before its rows. -/
def Operation.Causal {V O : Type} : Operation K V O → Prop
  | .shift shiftIdx => shiftIdx ≤ 0
  | .skipOnIndex idxFunc _ => ∀ k, idxFunc k ≤ k
  | .resampleAndAgg grpfn _ _ => ∀ k, k ≤ grpfn k
  | _ => True

/-- No operation looks ahead. -/
def Pipeline.Causal {V O : Type} : Pipeline K V O → Prop
  | .nil => True
  | .cons op rest => op.Causal ∧ rest.Causal

/-- What the result of an operation shows at a date depends on what the series shows there. -/
theorem Operation.Causal.shown_apply {toInt : ℤ → ℤ} {op : Operation K V O} (hop : op.Causal)
    {a b : TimeSeries K V} (ha : a.StrictlyIncreasing) (hb : b.StrictlyIncreasing)
    (hai : HoldsPositions toInt a) (hbi : HoldsPositions toInt b) (h : a.past d = b.past d) :
    shown d (op.apply toInt a) = shown d (op.apply toInt b) := by
  cases op with
  | map func => rw [apply, apply, shown_map, shown_map, h]
  | mapWithDate func => rw [apply, apply, shown_mapWithDate, shown_mapWithDate, h]
  | fold func initval =>
    have hfold : ∀ ts : TimeSeries K V, ts.fold func initval = ts.map (func initval) := by
      intro ts
      apply ext_rows
      rw [rows, rows, keys_fold, values_fold]
      rfl
    rw [apply, apply, hfold, hfold, shown_map, shown_map, h]
  | between startdt enddt =>
    rw [apply, apply, shown_between ha.nonDecreasing, shown_between hb.nonDecreasing, h]
  | where' predicate => rw [apply, apply, shown_where', shown_where', h]
  | shift shiftIdx =>
    rw [apply, apply, shown_shift ha.nonDecreasing hop, shown_shift hb.nonDecreasing hop, h]
  | skip skipSize func =>
    rw [apply, apply, shown_skip ha.nonDecreasing, shown_skip hb.nonDecreasing, h]
  | skipOnIndex idxFunc func =>
    rw [apply, apply, shown_skipOnIndex ha hai hop, shown_skipOnIndex hb hbi hop, h]
  | applyRolling func windowSize hw =>
    obtain ⟨m, rfl⟩ := Nat.exists_eq_add_of_le' hw
    rw [apply, apply, shown_applyRolling ha.nonDecreasing, shown_applyRolling hb.nonDecreasing, h]
  | resampleAndAgg grpfn aggfn hmono =>
    rw [apply, apply, shown_resampleAndAgg ha.nonDecreasing hmono hop,
      shown_resampleAndAgg hb.nonDecreasing hmono hop, h]
  | crossApplyInner other func hother =>
    rw [apply, apply, shown_crossApplyInner ha hother, shown_crossApplyInner hb hother, h]

/-- A pipeline makes no rows of no rows. -/
theorem Pipeline.shown_run_empty (p : Pipeline K V O) (toInt : ℤ → ℤ) :
    shown d (p.run toInt empty) = [] := by
  cases hrun : p.run toInt empty with
  | error e => rfl
  | ok result =>
    have hstart : (empty : TimeSeries K V).StrictlyIncreasing := List.Pairwise.nil
    have hsize := (p.run_keeps hstart hrun).size_le
    have hnil : result.rows = [] := by
      rw [← List.length_eq_zero_iff, length_rows]
      exact Nat.le_zero.mp hsize
    rw [shown, past, hnil, List.filter_nil]

/-- At every date the result of a pipeline that does not look ahead shows what it shows of any
other series with the same rows up to that date. -/
theorem Pipeline.shown_run_eq (p : Pipeline K V O) (hp : p.Causal) (a b : TimeSeries K V)
    (ha : a.StrictlyIncreasing) (hb : b.StrictlyIncreasing) (hsa : a.size ≤ 2 ^ 31)
    (hsb : b.size ≤ 2 ^ 31) (d : K) (h : a.past d = b.past d) :
    shown d (p.run int32 a) = shown d (p.run int32 b) := by
  induction p with
  | nil => exact h
  | cons op rest ih =>
    have hop := hp.1.shown_apply ha hb (holdsPositions_int32 hsa) (holdsPositions_int32 hsb) h
    have hempty : ∀ mid, mid.StrictlyIncreasing → mid.size ≤ 2 ^ 31 → mid.past d = [] →
        shown d (rest.run int32 mid) = [] := by
      intro mid hmid hsize hnil
      rw [ih hp.2 mid empty hmid List.Pairwise.nil hsize (Nat.zero_le _) hnil]
      exact rest.shown_run_empty int32
    rw [run, run]
    cases hoa : op.apply int32 a with
    | error e =>
      cases hob : op.apply int32 b with
      | error e' => rfl
      | ok mid' =>
        have hkeeps := op.apply_keeps hb hob
        rw [hoa, hob] at hop
        exact (hempty mid' hkeeps.increasing (hkeeps.size_le.trans hsb) hop.symm).symm
    | ok mid =>
      have hkeeps := op.apply_keeps ha hoa
      cases hob : op.apply int32 b with
      | error e' =>
        rw [hoa, hob] at hop
        exact hempty mid hkeeps.increasing (hkeeps.size_le.trans hsa) hop
      | ok mid' =>
        have hkeeps' := op.apply_keeps hb hob
        rw [hoa, hob] at hop
        exact ih hp.2 mid mid' hkeeps.increasing hkeeps'.increasing (hkeeps.size_le.trans hsa)
          (hkeeps'.size_le.trans hsb) hop

/-- The sums of the prior values in groups that end at a multiple of twenty. -/
def sumsToTwenty : Pipeline ℤ ℤ ℤ :=
  .cons (.shift (-1)) (.cons (.resampleAndAgg (fun k => (k + 19) / 20 * 20) List.sum
    fun a b (hab : a ≤ b) => by dsimp only; omega) .nil)

theorem causal_sumsToTwenty : sumsToTwenty.Causal := by
  refine And.intro (by decide : (-1 : ℤ) ≤ 0) (And.intro (fun k => ?_) trivial)
  change k ≤ (k + 19) / 20 * 20
  omega

/-- Other rows behind a date change no sum up to that date. -/
theorem Pipeline.shown_run_eq_sums :
    shown 40 (sumsToTwenty.run int32
      (ofRows [((10 : ℤ), (1 : ℤ)), (20, 2), (30, 4), (40, 8), (50, 16), (70, 32)])) =
      [(20, 1), (40, 6)] :=
  (Pipeline.shown_run_eq sumsToTwenty causal_sumsToTwenty _
    (ofRows [((10 : ℤ), (1 : ℤ)), (20, 2), (30, 4), (40, 8), (45, 5)]) (by decide) (by decide)
    (by decide) (by decide) 40 rfl).trans rfl

/-- Values that are moved earlier are seen too soon. -/
example : shown 10 ((ofRows [((10 : ℤ), (1 : ℤ)), (20, 2)]).shift 1) ≠
    shown 10 ((ofRows [((10 : ℤ), (1 : ℤ)), (20, 3)]).shift 1) := by decide

end Tspp
