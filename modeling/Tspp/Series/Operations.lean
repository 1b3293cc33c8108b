import Tspp.Core.RangeLoop
import Tspp.Series.Lookup

/-!
# Operations on one series

Each operation builds the two containers of its result separately, so each carries a
proof that they end up paired. The ranges of `shift` and `skip` are suffixes and prefixes
of the containers; an iterator that is only moved forward is the suffix it has yet to read.
-/

namespace Tspp

namespace TimeSeries

variable {K V O : Type}

/-- `map` -/
def map (ts : TimeSeries K V) (func : V → O) : TimeSeries K O :=
  ⟨⟨ts.keys, ts.values.map func⟩, by rw [List.length_map, ts.paired]⟩

/-- `map_with_date` -/
def mapWithDate (ts : TimeSeries K V) (func : K × V → O) : TimeSeries K O :=
  ⟨⟨ts.keys, ts.rows.map func⟩, by rw [List.length_map, length_rows, size]⟩

/-- The loop of `fold`: `eval` is never assigned. -/
def foldValues (func : O → V → O) (eval : O) (values : List V) : List O :=
  values.foldl (fun resvals v => resvals ++ [func eval v]) []

theorem foldValues_eq_map (func : O → V → O) (eval : O) (values : List V) :
    foldValues func eval values = values.map (func eval) := by
  rw [foldValues, List.foldl_append_eq_append, List.nil_append, ← List.flatMap_def,
    ← List.map_eq_flatMap]

/-- `fold` -/
def fold (ts : TimeSeries K V) (func : O → V → O) (initval : O) : TimeSeries K O :=
  ⟨⟨ts.keys, foldValues func initval ts.values⟩, by
    rw [foldValues_eq_map, List.length_map, ts.paired]⟩

/-- `shift` -/
def shift (ts : TimeSeries K V) (shiftIdx : ℤ) : Except Fault (TimeSeries K V) :=
  if h : (ts.size : ℤ) - |shiftIdx| ≥ 0 then
    if shiftIdx < 0 then
      .ok ⟨⟨ts.keys.drop (-shiftIdx).toNat,
        ts.values.take (ts.values.length + shiftIdx).toNat⟩, by
          rw [List.length_drop, List.length_take, ← ts.paired]
          omega⟩
    else
      .ok ⟨⟨ts.keys.take (ts.keys.length - shiftIdx).toNat, ts.values.drop shiftIdx.toNat⟩, by
        rw [List.length_drop, List.length_take, ← ts.paired]
        omega⟩
  else
    .error (.timeSeriesError
      "atttempting to shift out of bounds series is too short for the given shift")

/-- The loop of `skip`, with the iterators `it` and `itprior`. -/
def skipLoop (func : V → V → V) : List V → List V → List V → Except Fault (List V)
  | [], _, resvals => .ok resvals
  | _ :: _, [], _ => .error .outOfRange
  | v :: it, prior :: itprior, resvals => skipLoop func it itprior (resvals ++ [func v prior])

/-- The prior iterator is never behind the end while the other is not. -/
theorem skipLoop_eq (func : V → V → V) {it itprior : List V} (resvals : List V)
    (h : it.length ≤ itprior.length) :
    skipLoop func it itprior resvals = .ok (resvals ++ List.zipWith func it itprior) := by
  induction it generalizing itprior resvals with
  | nil => rw [skipLoop, List.zipWith_nil_left, List.append_nil]
  | cons v it ih =>
    cases itprior with
    | nil => cases h
    | cons prior itprior =>
      rw [skipLoop, ih _ (Nat.le_of_succ_le_succ h), List.zipWith_cons_cons, List.append_assoc,
        List.singleton_append]

/-- The loop of `skip` on a whole series emits one value for each key that is left. -/
theorem length_skipLoop {ts : TimeSeries K V} {skipSize : ℕ} {func : V → V → V}
    {resvals : List V}
    (h : skipLoop func (ts.values.drop skipSize) ts.values [] = .ok resvals) :
    (ts.keys.drop skipSize).length = resvals.length := by
  rw [skipLoop_eq func [] (by rw [List.length_drop]; omega)] at h
  cases h
  rw [List.nil_append, List.length_zipWith, List.length_drop, List.length_drop, ts.paired]
  omega

/-- `skip`; its result has the input's value type. -/
def skip (ts : TimeSeries K V) (skipSize : ℕ) (func : V → V → V) : Except Fault (TimeSeries K V) :=
  if ts.size ≥ skipSize then
    match h : skipLoop func (ts.values.drop skipSize) ts.values [] with
    | .ok resvals => .ok ⟨⟨ts.keys.drop skipSize, resvals⟩, length_skipLoop h⟩
    | .error e => .error e
  else .error (.timeSeriesError "atttempting to skip a greater span than the ts")

/-- `where` -/
def where' (ts : TimeSeries K V) (predicate : K × V → Bool) : TimeSeries K V :=
  ts.rows.foldl (fun sub kvp => if predicate kvp then sub.insertEnd kvp else sub) .empty

section Ordered

variable [LinearOrder K]

/-- The loop of `between`, which breaks off behind the end date. -/
def betweenLoop (startdt enddt : K) : List (K × V) → TimeSeries K V → TimeSeries K V
  | [], sub => sub
  | kvp :: rest, sub =>
    if kvp.1 > enddt then sub
    else betweenLoop startdt enddt rest (if startdt ≤ kvp.1 then sub.insertEnd kvp else sub)

/-- `between` -/
def between (ts : TimeSeries K V) (startdt enddt : K) : Except Fault (TimeSeries K V) :=
  if enddt ≥ startdt then .ok (betweenLoop startdt enddt ts.rows .empty)
  else .error (.timeSeriesError "end date is not greater than start date")

/-- The body of the loop of `skip_on_index`. -/
def skipOnIndexStep (toInt : ℤ → ℤ) (ts : TimeSeries K V) (idxFunc : K → K) (func : V → V → V)
    (result : TimeSeries K V) (curpair : K × V) : Except Fault (TimeSeries K V) := do
  let priorv ← ts.tryAt toInt (idxFunc curpair.1)
  return match priorv with
    | some prior => result.insertEnd (curpair.1, func curpair.2 prior)
    | none => result

/-- `skip_on_index`; its result has the input's value type. -/
def skipOnIndex (toInt : ℤ → ℤ) (ts : TimeSeries K V) (idxFunc : K → K) (func : V → V → V) :
    Except Fault (TimeSeries K V) :=
  ts.rows.foldlM (skipOnIndexStep toInt ts idxFunc func) .empty

end Ordered

theorem rows_map (ts : TimeSeries K V) (func : V → O) :
    (ts.map func).rows = ts.rows.map (Prod.map id func) :=
  List.zip_map_right

theorem rows_mapWithDate (ts : TimeSeries K V) (func : K × V → O) :
    (ts.mapWithDate func).rows = ts.rows.map fun r => (r.1, func r) := by
  have hkeys : (ts.mapWithDate func).keys = ts.rows.map Prod.fst := (map_fst_rows ts).symm
  rw [rows, hkeys]
  exact List.zip_map'

@[simp] theorem keys_fold (ts : TimeSeries K V) (func : O → V → O) (initval : O) :
    (ts.fold func initval).keys = ts.keys := rfl

@[simp] theorem values_fold (ts : TimeSeries K V) (func : O → V → O) (initval : O) :
    (ts.fold func initval).values = ts.values.map (func initval) :=
  foldValues_eq_map func initval ts.values

/-- The loop of `where` appends the rows that satisfy the predicate. -/
theorem rows_foldl_where (predicate : K × V → Bool) (rs : List (K × V)) (sub : TimeSeries K V) :
    (rs.foldl (fun sub kvp => if predicate kvp then sub.insertEnd kvp else sub) sub).rows =
      sub.rows ++ rs.filter predicate := by
  induction rs generalizing sub with
  | nil => simp
  | cons r rs ih =>
    rw [List.foldl_cons, ih, List.filter_cons]
    split
    · rw [rows_insertEnd, List.append_assoc, List.singleton_append]
    · rfl

/-- `where` keeps the rows that satisfy the predicate. -/
@[simp] theorem rows_where' (ts : TimeSeries K V) (predicate : K × V → Bool) :
    (ts.where' predicate).rows = ts.rows.filter predicate := by
  rw [where', rows_foldl_where, rows_empty, List.nil_append]

/-- A shift moves a part of the keys over a part of the values. -/
theorem keys_sublist_of_shift {ts result : TimeSeries K V} {shiftIdx : ℤ}
    (h : ts.shift shiftIdx = .ok result) : result.keys.Sublist ts.keys := by
  unfold shift at h
  split at h
  · split at h
    · cases h
      exact List.drop_sublist _ _
    · cases h
      exact List.take_sublist _ _
  · cases h

/-- `skip` pairs the last keys with each value and the one `skipSize` rows before it. -/
theorem skip_eq_ok {ts : TimeSeries K V} {skipSize : ℕ} (h : skipSize ≤ ts.size)
    (func : V → V → V) :
    ∃ result, ts.skip skipSize func = .ok result ∧ result.keys = ts.keys.drop skipSize ∧
      result.values = List.zipWith func (ts.values.drop skipSize) ts.values := by
  have hlen : (ts.values.drop skipSize).length ≤ ts.values.length := by
    rw [List.length_drop]
    omega
  have hloop := skipLoop_eq func [] hlen
  unfold skip
  rw [if_pos h]
  split
  · next resvals hok =>
    rw [hok] at hloop
    exact ⟨_, rfl, rfl, Except.ok.inj hloop⟩
  · next e herr =>
    rw [herr] at hloop
    cases hloop

/-- `skip` throws on a series that is shorter than the skip. -/
theorem skip_eq_error {ts : TimeSeries K V} {skipSize : ℕ} (h : ts.size < skipSize)
    (func : V → V → V) : ts.skip skipSize func =
      .error (.timeSeriesError "atttempting to skip a greater span than the ts") :=
  if_neg (not_le.mpr h)

/-- The keys of a skipping series are the last keys of the series. -/
theorem keys_of_skip {ts result : TimeSeries K V} {skipSize : ℕ} {func : V → V → V}
    (h : ts.skip skipSize func = .ok result) : result.keys = ts.keys.drop skipSize := by
  by_cases hsize : skipSize ≤ ts.size
  · obtain ⟨result', hok, hkeys, _⟩ := skip_eq_ok hsize func
    rw [hok] at h
    cases h
    exact hkeys
  · rw [skip_eq_error (not_le.mp hsize)] at h
    cases h

/-- `where` keeps a part of the keys. -/
theorem keys_sublist_where' (ts : TimeSeries K V) (predicate : K × V → Bool) :
    (ts.where' predicate).keys.Sublist ts.keys := by
  rw [← map_fst_rows, ← map_fst_rows, rows_where']
  exact List.filter_sublist.map Prod.fst

section Ordered

variable [LinearOrder K]

/-- The rows with a date from `startdt` to `enddt`. -/
def inRange (startdt enddt : K) (row : K × V) : Bool :=
  decide (startdt ≤ row.1) && decide (row.1 ≤ enddt)

/-- Along non-decreasing keys the loop of `between` appends the rows in the range: behind the row
at which it breaks off there are none. -/
theorem rows_betweenLoop (startdt enddt : K) {rs : List (K × V)} (sub : TimeSeries K V)
    (hrs : KeyedRows.NonDecreasing rs) :
    (betweenLoop startdt enddt rs sub).rows = sub.rows ++ rs.filter (inRange startdt enddt) := by
  induction rs generalizing sub with
  | nil => simp [betweenLoop]
  | cons r rs ih =>
    rw [betweenLoop]
    by_cases hend : r.1 > enddt
    · rw [if_pos hend, List.filter_eq_nil_iff.mpr, List.append_nil]
      intro x hx
      have hlt := hrs.lt_of_lt_head hend x hx
      simp [inRange, not_le.mpr hlt]
    · rw [if_neg hend, ih _ hrs.tail, List.filter_cons]
      by_cases hstart : startdt ≤ r.1
      · simp [inRange, hstart, not_lt.mp hend]
      · simp [inRange, hstart]

/-- Along non-decreasing keys `between` selects what `where` selects with both bounds. -/
theorem between_eq_where' {ts : TimeSeries K V} {startdt enddt : K} (hts : ts.NonDecreasing)
    (h : startdt ≤ enddt) : ts.between startdt enddt =
      .ok (ts.where' (inRange startdt enddt)) := by
  rw [between, if_pos h]
  apply congrArg Except.ok
  apply ext_rows
  rw [rows_betweenLoop startdt enddt .empty (ts.nonDecreasing_iff_rows.mp hts), rows_where',
    rows_empty, List.nil_append]

/-- The row that `skip_on_index` lists for a row, if `try_at` finds the index date. -/
def priorRow (toInt : ℤ → ℤ) (ts : TimeSeries K V) (idxFunc : K → K) (func : V → V → V)
    (row : K × V) : Option (K × V) :=
  match ts.tryAt toInt (idxFunc row.1) with
  | .ok (some prior) => some (row.1, func row.2 prior)
  | _ => none

/-- The loop of `skip_on_index` succeeds exactly if every lookup does, and lists the rows found. -/
theorem foldlM_skipOnIndexStep_iff {toInt : ℤ → ℤ} {ts : TimeSeries K V} {idxFunc : K → K}
    {func : V → V → V} {rs : List (K × V)} {sub result : TimeSeries K V} :
    rs.foldlM (skipOnIndexStep toInt ts idxFunc func) sub = .ok result ↔
      (∀ r ∈ rs, ∃ priorv, ts.tryAt toInt (idxFunc r.1) = .ok priorv) ∧
        result.rows = sub.rows ++ rs.filterMap (priorRow toInt ts idxFunc func) := by
  induction rs generalizing sub with
  | nil =>
    rw [List.foldlM_nil, List.filterMap_nil, List.append_nil]
    constructor
    · rintro ⟨⟩
      exact ⟨fun r hr => absurd hr List.not_mem_nil, rfl⟩
    · exact fun h => congrArg Except.ok (ext_rows h.2.symm)
  | cons r rs ih =>
    rw [List.foldlM_cons, List.forall_mem_cons, List.filterMap_cons, skipOnIndexStep, priorRow]
    cases htry : ts.tryAt toInt (idxFunc r.1) with
    | error e =>
      constructor
      · rintro ⟨⟩
      · rintro ⟨⟨⟨_, ⟨⟩⟩, _⟩, _⟩
    | ok priorv =>
      refine Iff.trans ih ?_
      cases priorv with
      | none => simp
      | some prior => simp

/-- `skip_on_index` succeeds exactly if every lookup does, and lists the rows found. -/
theorem skipOnIndex_eq_ok_iff {toInt : ℤ → ℤ} {ts result : TimeSeries K V} {idxFunc : K → K}
    {func : V → V → V} : skipOnIndex toInt ts idxFunc func = .ok result ↔
      (∀ r ∈ ts.rows, ∃ priorv, ts.tryAt toInt (idxFunc r.1) = .ok priorv) ∧
        result.rows = ts.rows.filterMap (priorRow toInt ts idxFunc func) :=
  foldlM_skipOnIndexStep_iff

/-- `skip_on_index` keeps a part of the keys. -/
theorem keys_sublist_of_skipOnIndex {toInt : ℤ → ℤ} {ts result : TimeSeries K V}
    {idxFunc : K → K} {func : V → V → V}
    (h : skipOnIndex toInt ts idxFunc func = .ok result) : result.keys.Sublist ts.keys := by
  rw [← map_fst_rows ts]
  refine RangeLoop.sublist_of_ok Prod.fst (fun sub : TimeSeries K V => sub.keys) ?_ rfl h
  intro curpair sub sub' hstep
  unfold skipOnIndexStep at hstep
  obtain ⟨priorv, _, hresult⟩ := RangeLoop.exists_of_bind_eq_ok hstep
  cases priorv with
  | none =>
    cases hresult
    exact Or.inl rfl
  | some prior =>
    cases hresult
    exact Or.inr rfl

/-- With an `int` that holds every position, `skip_on_index` looks the index date up. -/
theorem priorRow_eq_lookup {toInt : ℤ → ℤ} {ts : TimeSeries K V} (h : ts.StrictlyIncreasing)
    (hint : HoldsPositions toInt ts) (idxFunc : K → K) (func : V → V → V) (r : K × V) :
    priorRow toInt ts idxFunc func r =
      (ts.rows.lookup (idxFunc r.1)).map fun prior => (r.1, func r.2 prior) := by
  rw [priorRow, tryAt_eq_lookup h hint]
  cases ts.rows.lookup (idxFunc r.1) <;> rfl

/-- With an `int` that holds every position, `skip_on_index` reads inside the values. -/
theorem exists_skipOnIndex {toInt : ℤ → ℤ} {ts : TimeSeries K V} (h : ts.StrictlyIncreasing)
    (hint : HoldsPositions toInt ts) (idxFunc : K → K) (func : V → V → V) :
    ∃ result, skipOnIndex toInt ts idxFunc func = .ok result :=
  ⟨ofRows (ts.rows.filterMap (priorRow toInt ts idxFunc func)), skipOnIndex_eq_ok_iff.mpr
    ⟨fun r _ => ⟨_, tryAt_eq_lookup h hint (idxFunc r.1)⟩, rows_ofRows _⟩⟩

end Ordered

/-- `result` carries the left fold of the values up to each row, over the same keys. -/
structure IsRunningFold (ts : TimeSeries K V) (func : O → V → O) (initval : O)
    (result : TimeSeries K O) : Prop where
  keys : result.keys = ts.keys
  values : ∀ i < ts.size, result.values[i]? = some ((ts.values.take (i + 1)).foldl func initval)

/-- Folding one value more applies the function once more. -/
theorem foldl_take_succ {values : List V} {i : ℕ} {v : V} (h : values[i]? = some v)
    (func : O → V → O) (initval : O) : (values.take (i + 1)).foldl func initval =
      func ((values.take i).foldl func initval) v := by
  rw [List.take_add_one, h, Option.toList_some, List.foldl_append, List.foldl_cons,
    List.foldl_nil]

/-- Every row of `fold` applies the function to the initial value itself, so the result
accumulates exactly where the row before never matters to the accumulated value. -/
theorem fold_isRunningFold_iff (ts : TimeSeries K V) (func : O → V → O) (initval : O) :
    IsRunningFold ts func initval (ts.fold func initval) ↔
      ∀ (i : ℕ) u v, ts.values[i]? = some u → ts.values[i + 1]? = some v →
        func (func initval u) v = func initval v := by
  have hvalue : ∀ (i : ℕ) v, ts.values[i]? = some v →
      (ts.fold func initval).values[i]? = some (func initval v) := by
    intro i v hv
    rw [values_fold, List.getElem?_map, hv, Option.map_some]
  constructor
  · intro h i u v hu hv
    have hrunning : ∀ (i : ℕ) v, ts.values[i]? = some v →
        func initval v = (ts.values.take (i + 1)).foldl func initval := by
      intro i v hv
      have hi : i < ts.values.length := (List.getElem?_eq_some_iff.mp hv).1
      have hsum := h.values i (by rwa [← length_values])
      rw [hvalue i v hv] at hsum
      exact Option.some.inj hsum
    rw [hrunning i u hu, hrunning (i + 1) v hv, foldl_take_succ hv]
  · intro h
    refine ⟨keys_fold ts func initval, ?_⟩
    have hrunning : ∀ (i : ℕ) v, ts.values[i]? = some v →
        (ts.values.take (i + 1)).foldl func initval = func initval v := by
      intro i
      induction i with
      | zero =>
        intro v hv
        rw [foldl_take_succ hv, List.take_zero, List.foldl_nil]
      | succ i ih =>
        intro v hv
        have hi : i < ts.values.length := Nat.lt_of_succ_lt (List.getElem?_eq_some_iff.mp hv).1
        have hu := List.getElem?_eq_getElem hi
        rw [foldl_take_succ hv, ih _ hu]
        exact h i _ v hu hv
    intro i hi
    have hv := List.getElem?_eq_getElem (show i < ts.values.length by rwa [length_values])
    rw [hvalue i _ hv, hrunning i _ hv]

/-- The second row of a sum of two values is not their sum. -/
theorem fold_forgets_first_value :
    ¬ IsRunningFold (ofRows [((1 : ℤ), (1 : ℤ)), (2, 2)]) (· + ·) 0
      ((ofRows [((1 : ℤ), (1 : ℤ)), (2, 2)]).fold (· + ·) 0) := by
  intro h
  have hsum := h.values 1 (by decide)
  exact absurd hsum (by decide)

end TimeSeries

end Tspp
