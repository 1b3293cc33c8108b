import Tspp.Core.OrderedMap
import Tspp.Series.Pipeline
import Tspp.Series.RollingWindows
import Tspp.Series.Store

/-!
# What operations make of the map of a series

A strictly increasing series writes a partial map from dates to values down. What an operation
makes of the map says, date by date, what the result holds, without rows and positions. The
operations by position use the order of the dates: the rank of a date, the values up to a date,
the value some dates away.
-/

namespace Tspp

open PartialMap KeyedRows

variable {K V O : Type} [LinearOrder K]

namespace Operation

/-- The value that the result of an operation has at a date, from the map of the series. -/
noncomputable def meaning {V O : Type} : Operation K V O → (K → Option V) → K → Option O
  | .map func, m, d => (m d).map func
  | .mapWithDate func, m, d => (m d).map fun v => func (d, v)
  | .fold func initval, m, d => (m d).map (func initval)
  | .between startdt enddt, m, d => if startdt ≤ d ∧ d ≤ enddt then m d else none
  | .where' predicate, m, d => (m d).filter fun v => predicate (d, v)
  | .shift shiftIdx, m, d => (m d).bind fun _ => neighbour m d shiftIdx
  | .skip skipSize func, m, d => (m d).bind fun v => (neighbour m d (-skipSize)).map (func v)
  | .skipOnIndex idxFunc func, m, d => (m d).bind fun v => (m (idxFunc d)).map (func v)
  | .applyRolling func windowSize _, m, d => (m d).bind fun _ =>
      if windowSize ≤ rank m d + 1 then
        some (func ((valuesIn m (Set.Iic d)).rtake windowSize))
      else none
  | .resampleAndAgg grpfn aggfn _, m, d =>
      let buffer := valuesIn m {k | grpfn k = d}
      if buffer.isEmpty then none else some (aggfn buffer)
  | .crossApplyInner other func _, m, d => (m d).bind fun v => (asMap other.rows d).map (func v)

/-- The maps on which an operation does not throw. -/
def Defined {V O : Type} : Operation K V O → (K → Option V) → Prop
  | .between startdt enddt, _ => startdt ≤ enddt
  | .shift shiftIdx, m => |shiftIdx| ≤ (domain m).ncard
  | .skip skipSize _, m => skipSize ≤ (domain m).ncard
  | _, _ => True

end Operation

namespace TimeSeries

section Rows

variable {ts : TimeSeries K V} {result : TimeSeries K O} {m : K → Option V}

/-- Where every row gives a row with its date or none, the value at a date gives the value. -/
theorem asMap_of_filterMap (h : Represents ts m) {f : K × V → Option (K × O)}
    (hf : ∀ r s, f r = some s → s.1 = r.1) (hrows : result.rows = ts.rows.filterMap f) :
    asMap result.rows = fun d => (m d).bind fun v => (f (d, v)).map Prod.snd := by
  rw [hrows, (ts.strictlyIncreasing_iff_rows.mp h.increasing).asMap_filterMap f hf, h.asMap]

/-- Where every row gives a value, the value at a date gives the value. -/
theorem asMap_of_map (h : Represents ts m) {f : K × V → O}
    (hrows : result.rows = ts.rows.map fun r => (r.1, f r)) :
    asMap result.rows = fun d => (m d).map fun v => f (d, v) := by
  rw [← List.filterMap_eq_map'] at hrows
  rw [asMap_of_filterMap h (by simp) hrows]
  ext1 d
  cases m d <;> rfl

/-- Where rows are selected, values are. -/
theorem asMap_of_filter (h : Represents ts m) {result : TimeSeries K V}
    {p : K × V → Bool} (hrows : result.rows = ts.rows.filter p) :
    asMap result.rows = fun d => (m d).filter fun v => p (d, v) := by
  rw [← List.filterMap_eq_filter] at hrows
  rw [asMap_of_filterMap h (by simp) hrows]
  ext1 d
  cases m d with
  | none => rfl
  | some v => by_cases hp : p (d, v) <;> simp [Option.filter, Option.guard, hp]

theorem asMap_between (h : Represents ts m) {startdt enddt : K} {result : TimeSeries K V}
    (hbetween : ts.between startdt enddt = .ok result) :
    asMap result.rows = (Operation.between startdt enddt).meaning m := by
  by_cases hrange : startdt ≤ enddt
  · rw [between_eq_where' h.increasing.nonDecreasing hrange] at hbetween
    cases hbetween
    rw [asMap_of_filter h (rows_where' _ _)]
    ext1 d
    simp only [Operation.meaning]
    cases m d <;> simp [inRange, Option.filter]
  · rw [between, if_neg hrange] at hbetween
    cases hbetween

/-- Where the dates are a stretch of the dates and the values come from the positions in it, the
value at a date comes from its position. -/
theorem asMap_of_window (h : Represents ts m) {start len : ℕ}
    (hkeys : result.keys = window ts.keys start len) {g : K → V → Option O}
    (hg : ∀ i k v, ts.rows[i]? = some (k, v) →
      g k v = if start ≤ i ∧ i < start + len then result.values[i - start]? else none) :
    asMap result.rows = fun d => (m d).bind (g d) := by
  have hts := ts.strictlyIncreasing_iff_rows.mp h.increasing
  have hresult : result.StrictlyIncreasing := by
    rw [StrictlyIncreasing, hkeys, window]
    exact h.increasing.sublist ((List.take_sublist _ _).trans (List.drop_sublist _ _))
  apply (result.strictlyIncreasing_iff_rows.mp hresult).asMap_eq
  intro k u
  rw [List.mem_iff_getElem?, Option.bind_eq_some_iff]
  constructor
  · rintro ⟨j, hj⟩
    obtain ⟨hk, hu⟩ := getElem?_rows_eq_some.mp hj
    rw [hkeys, window, List.getElem?_take] at hk
    split at hk
    · next hlt =>
      rw [List.getElem?_drop] at hk
      obtain ⟨v, hrow⟩ := exists_row_of_key hk
      refine ⟨v, h.eq_some hrow, ?_⟩
      rw [hg _ k v hrow, if_pos ⟨by omega, by omega⟩, Nat.add_sub_cancel_left, hu]
    · cases hk
  · rintro ⟨v, hv, hu⟩
    rw [← h.asMap] at hv
    obtain ⟨i, hi⟩ := List.mem_iff_getElem?.mp ((hts.lookup_eq_some k v).mp hv)
    rw [hg i k v hi] at hu
    split at hu
    · next hstretch =>
      refine ⟨i - start, getElem?_rows_eq_some.mpr ⟨?_, hu⟩⟩
      rw [hkeys, window, List.getElem?_take_of_lt (by omega), List.getElem?_drop,
        Nat.add_sub_cancel' hstretch.1]
      exact (getElem?_rows_eq_some.mp hi).1
    · cases hu

omit [LinearOrder K] in
/-- The dates from a position on are a stretch of the dates. -/
theorem drop_keys_eq_window (ts : TimeSeries K V) (n : ℕ) :
    ts.keys.drop n = window ts.keys n (ts.size - n) := by
  rw [window, List.take_of_length_le]
  rw [List.length_drop, size]

/-- The neighbour of a row is the value at another position. -/
theorem neighbour_of_row (h : Represents ts m) {i : ℕ} {k : K} {v : V}
    (hi : ts.rows[i]? = some (k, v)) (s : ℤ) :
    neighbour m k s = if 0 ≤ i + s then ts.values[(i + s).toNat]? else none := by
  rw [← h.asMap, (ts.strictlyIncreasing_iff_rows.mp h.increasing).neighbour_asMap hi, map_snd_rows]

theorem asMap_shift (h : Represents ts m) {s : ℤ} {result : TimeSeries K V}
    (hshift : ts.shift s = .ok result) : asMap result.rows = (Operation.shift s).meaning m := by
  by_cases hs : |s| ≤ ts.size
  · obtain ⟨shifted, hok, hmoved⟩ := shift_eq_ok ts hs
    obtain rfl : shifted = result := Except.ok.inj (hok.symm.trans hshift)
    have hfits := hmoved.fits
    apply asMap_of_window h hmoved.keys
    intro i k v hi
    have hlt := lt_size_of_row hi
    have hvalues := ts.length_values
    rw [neighbour_of_row h hi, hmoved.values]
    split_ifs with hbefore hstretch hstretch
    · rw [window, List.getElem?_take_of_lt (by omega), List.getElem?_drop]
      congr 1
      omega
    · exact List.getElem?_eq_none (by omega)
    · omega
    · rfl
  · rw [shift_eq_error (not_le.mp hs)] at hshift
    cases hshift

theorem asMap_skip (h : Represents ts m) {n : ℕ} {func : V → V → V} {result : TimeSeries K V}
    (hskip : ts.skip n func = .ok result) :
    asMap result.rows = (Operation.skip n func).meaning m := by
  by_cases hn : n ≤ ts.size
  · obtain ⟨skipped, hok, hkeys, hvalues⟩ := skip_eq_ok hn func
    obtain rfl : skipped = result := Except.ok.inj (hok.symm.trans hskip)
    apply asMap_of_window h (hkeys.trans (ts.drop_keys_eq_window n))
    intro i k v hi
    have hlt := lt_size_of_row hi
    have hv := (getElem?_rows_eq_some.mp hi).2
    rw [neighbour_of_row h hi, hvalues]
    by_cases hle : n ≤ i
    · have hpos : (i + -(n : ℤ)).toNat = i - n := by omega
      rw [if_pos (by omega), if_pos ⟨hle, by omega⟩, hpos, List.getElem?_zipWith,
        List.getElem?_drop, Nat.add_sub_cancel' hle, hv]
      cases ts.values[i - n]? <;> rfl
    · rw [if_neg (by omega), if_neg fun hstretch => hle hstretch.1, Option.map_none]
  · rw [skip_eq_error (not_le.mp hn)] at hskip
    cases hskip

theorem asMap_applyRolling (h : Represents ts m) {func : List V → O} {w : ℕ} (hw : 1 ≤ w)
    (hroll : ts.applyRolling func w = .ok result) :
    asMap result.rows = (Operation.applyRolling func w hw).meaning m := by
  obtain ⟨n, rfl⟩ := Nat.exists_eq_add_of_le' hw
  obtain ⟨rolled, hok, hkeys, hvalues⟩ := applyRolling_eq_windows ts func n
  obtain rfl : rolled = result := Except.ok.inj (hok.symm.trans hroll)
  have hts := ts.strictlyIncreasing_iff_rows.mp h.increasing
  apply asMap_of_window h (hkeys.trans (ts.drop_keys_eq_window n))
  intro i k v hi
  have hlt := lt_size_of_row hi
  have hlen := ts.length_values
  have hpast : valuesIn m (Set.Iic k) = ts.values.take (i + 1) := by
    rw [← h.asMap, hts.valuesIn_Iic hi, List.map_take, map_snd_rows]
  have hrank : rank m k = i := by rw [← h.asMap, hts.rank_asMap hi]
  rw [hrank, hpast, hvalues]
  by_cases hle : n ≤ i
  · have hlast : i + 1 = i - n + (n + 1) := by omega
    rw [if_pos (by omega), if_pos ⟨hle, by omega⟩, List.getElem?_map,
      getElem?_windows (by omega), Option.map_some, hlast, rtake_take (by omega), window]
  · rw [if_neg (by omega), if_neg fun hstretch => hle hstretch.1]

theorem asMap_resampleAndAgg (h : Represents ts m) {grpfn : K → K} {aggfn : List V → O}
    (hmono : Monotone grpfn)
    (hresample : ts.resampleAndAgg (fun k => .ok (grpfn k)) aggfn = .ok result) :
    asMap result.rows = (Operation.resampleAndAgg grpfn aggfn hmono).meaning m := by
  have hts := ts.strictlyIncreasing_iff_rows.mp h.increasing
  have hinc := resampleAndAgg_increasing h.increasing.nonDecreasing hmono hresample
  have hlabels : (ts.rows.map fun r => grpfn r.1).Pairwise (· ≤ ·) := by
    rw [List.pairwise_map]
    exact hts.imp fun hlt => hmono hlt.le
  rw [resampleAndAgg_ok_eq_runs] at hresample
  obtain rfl := Except.ok.inj hresample
  apply (strictlyIncreasing_iff_rows _).mp hinc |>.asMap_eq
  intro d u
  simp only [Operation.meaning]
  rw [← h.asMap, hts.valuesIn_asMap fun k => grpfn k = d, rows_ofRows, List.mem_map]
  constructor
  · rintro ⟨⟨a, grp⟩, hbar, hrow⟩
    obtain ⟨hne, hgrp⟩ := (Runs.mem_runs_iff hlabels).mp hbar
    obtain ⟨rfl, rfl⟩ := Prod.mk.inj hrow
    rw [← hgrp, if_neg (by simpa using hne)]
  · intro hu
    split at hu
    · cases hu
    · next hne =>
      refine ⟨(d, ts.rows.filter fun r => grpfn r.1 = d), ?_, ?_⟩
      · exact (Runs.mem_runs_iff hlabels).mpr ⟨by simpa using hne, rfl⟩
      · rw [aggregate, Option.some.inj hu]

theorem asMap_crossApplyInner {W : Type} {other : TimeSeries K W} (h : Represents ts m)
    (hother : other.StrictlyIncreasing) {func : V → W → O}
    (hjoin : ts.crossApplyInner other func = .ok result) :
    asMap result.rows = fun d => (m d).bind fun v => (asMap other.rows d).map (func v) := by
  obtain ⟨joined, hok, hrows⟩ := crossApplyInner_eq ts other func
  obtain rfl : joined = result := Except.ok.inj (hok.symm.trans hjoin)
  rw [innerMerge_eq_filterMap func (ts.strictlyIncreasing_iff_rows.mp h.increasing)
    (other.strictlyIncreasing_iff_rows.mp hother)] at hrows
  rw [asMap_of_filterMap h (by simp) hrows]
  ext1 d
  simp only [Option.map_map]
  rfl

theorem asMap_skipOnIndex (h : Represents ts m) {idxFunc : K → K} {func : V → V → V}
    {result : TimeSeries K V} (hskip : ts.skipOnIndex int32 idxFunc func = .ok result) :
    asMap result.rows = (Operation.skipOnIndex idxFunc func).meaning m := by
  have hrow := priorRow_eq_lookup h.increasing (holdsPositions_int32 h.size_le) idxFunc func
  have hrows := (skipOnIndex_eq_ok_iff.mp hskip).2
  rw [asMap_of_filterMap h (by simp [hrow]) hrows]
  ext1 d
  simp only [hrow, Option.map_map, Operation.meaning, ← h.asMap]
  rfl

end Rows

section Operations

variable {ts : TimeSeries K V} {m : K → Option V}

/-- Rows that write one map down are the same rows. -/
theorem Represents.unique {ts' : TimeSeries K V} (h : Represents ts m) (h' : Represents ts' m) :
    ts = ts' := by
  apply ext_rows
  apply (ts.strictlyIncreasing_iff_rows.mp h.increasing).ext_lookup
    (ts'.strictlyIncreasing_iff_rows.mp h'.increasing)
  exact congrFun (h.asMap.trans h'.asMap.symm)

/-- What an operation returns writes down what it makes of the map. -/
theorem Represents.apply (h : Represents ts m) (op : Operation K V O) {result : TimeSeries K O}
    (hok : op.apply int32 ts = .ok result) : Represents result (op.meaning m) := by
  have hkeeps := op.apply_keeps h.increasing hok
  refine ⟨hkeeps.increasing, ?_, hkeeps.size_le.trans h.size_le⟩
  cases op with
  | map func =>
    cases hok
    exact asMap_of_map h (ts.rows_map func)
  | mapWithDate func =>
    cases hok
    exact asMap_of_map h (ts.rows_mapWithDate func)
  | fold func initval =>
    cases hok
    have hfold : (ts.fold func initval).rows = (ts.map (func initval)).rows := by
      rw [rows, rows, keys_fold, values_fold]
      rfl
    exact asMap_of_map h (hfold.trans (ts.rows_map (func initval)))
  | between startdt enddt => exact asMap_between h hok
  | where' predicate =>
    cases hok
    exact asMap_of_filter h (rows_where' ts predicate)
  | shift shiftIdx => exact asMap_shift h hok
  | skip skipSize func => exact asMap_skip h hok
  | skipOnIndex idxFunc func => exact asMap_skipOnIndex h hok
  | applyRolling func windowSize hw => exact asMap_applyRolling h hw hok
  | resampleAndAgg grpfn aggfn hmono => exact asMap_resampleAndAgg h hmono hok
  | crossApplyInner other func hother => exact asMap_crossApplyInner h hother hok

/-- An operation returns exactly on the maps on which it is defined. -/
theorem Represents.returns_iff (h : Represents ts m) (op : Operation K V O) :
    (∃ result, op.apply int32 ts = .ok result) ↔ op.Defined m := by
  have hint := holdsPositions_int32 h.size_le
  cases op with
  | map func => exact iff_of_true ⟨_, rfl⟩ trivial
  | mapWithDate func => exact iff_of_true ⟨_, rfl⟩ trivial
  | fold func initval => exact iff_of_true ⟨_, rfl⟩ trivial
  | between startdt enddt =>
    rw [Operation.apply, between, Operation.Defined]
    split
    · next hrange => exact iff_of_true ⟨_, rfl⟩ hrange
    · next hrange => exact iff_of_false (by rintro ⟨_, ⟨⟩⟩) hrange
  | where' predicate => exact iff_of_true ⟨_, rfl⟩ trivial
  | shift shiftIdx =>
    rw [Operation.apply, Operation.Defined, h.ncard_domain]
    constructor
    · rintro ⟨result, hok⟩
      by_contra hsize
      rw [shift_eq_error (not_le.mp hsize)] at hok
      cases hok
    · intro hsize
      obtain ⟨result, hok, _⟩ := shift_eq_ok ts hsize
      exact ⟨result, hok⟩
  | skip skipSize func =>
    rw [Operation.apply, Operation.Defined, h.ncard_domain]
    constructor
    · rintro ⟨result, hok⟩
      by_contra hsize
      rw [skip_eq_error (not_le.mp hsize)] at hok
      cases hok
    · intro hsize
      obtain ⟨result, hok, _⟩ := skip_eq_ok hsize func
      exact ⟨result, hok⟩
  | skipOnIndex idxFunc func =>
    exact iff_of_true (exists_skipOnIndex h.increasing hint idxFunc func) trivial
  | applyRolling func windowSize hw =>
    obtain ⟨n, rfl⟩ := Nat.exists_eq_add_of_le' hw
    obtain ⟨result, hok, _⟩ := applyRolling_eq_windows ts func n
    exact iff_of_true ⟨result, hok⟩ trivial
  | resampleAndAgg grpfn aggfn hmono =>
    exact iff_of_true ⟨_, resampleAndAgg_ok_eq_runs ts grpfn aggfn⟩ trivial
  | crossApplyInner other func hother =>
    obtain ⟨result, hok, _⟩ := crossApplyInner_eq ts other func
    exact iff_of_true ⟨result, hok⟩ trivial

end Operations

end TimeSeries

end Tspp
