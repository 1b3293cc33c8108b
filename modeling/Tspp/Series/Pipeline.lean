import Tspp.Join.Inner
import Tspp.Series.Operations
import Tspp.Series.Resample
import Tspp.Series.Rolling

/-!
# Pipelines of operations

A pipeline applies operations one after another and stops at the first that fails. Every
operation keeps the keys strictly increasing and adds no row, so every pipeline does; a
series that an `int` can count stays one, and on such a series no operation reads outside
a container.
-/

namespace Tspp

/-- An operation of a series with its arguments. -/
inductive Operation (K : Type) [LinearOrder K] : Type → Type → Type 1
  | map {V O : Type} (func : V → O) : Operation K V O
  | mapWithDate {V O : Type} (func : K × V → O) : Operation K V O
  | fold {V O : Type} (func : O → V → O) (initval : O) : Operation K V O
  | between {V : Type} (startdt enddt : K) : Operation K V V
  | where' {V : Type} (predicate : K × V → Bool) : Operation K V V
  | shift {V : Type} (shiftIdx : ℤ) : Operation K V V
  | skip {V : Type} (skipSize : ℕ) (func : V → V → V) : Operation K V V
  | skipOnIndex {V : Type} (idxFunc : K → K) (func : V → V → V) : Operation K V V
  | applyRolling {V O : Type} (func : List V → O) (windowSize : ℕ) (hw : 1 ≤ windowSize) :
      Operation K V O
  | resampleAndAgg {V O : Type} (grpfn : K → K) (aggfn : List V → O) (hmono : Monotone grpfn) :
      Operation K V O
  | crossApplyInner {V W O : Type} (other : TimeSeries K W) (func : V → W → O)
      (hother : other.StrictlyIncreasing) : Operation K V O

/-- Operations to be applied one after another. -/
inductive Pipeline (K : Type) [LinearOrder K] : Type → Type → Type 1
  | nil {V : Type} : Pipeline K V V
  | cons {V W O : Type} (op : Operation K V W) (rest : Pipeline K W O) : Pipeline K V O

variable {K V O : Type} [LinearOrder K]

/-- The result of an operation. -/
def Operation.apply (toInt : ℤ → ℤ) {V O : Type} :
    Operation K V O → TimeSeries K V → Except Fault (TimeSeries K O)
  | .map func, ts => .ok (ts.map func)
  | .mapWithDate func, ts => .ok (ts.mapWithDate func)
  | .fold func initval, ts => .ok (ts.fold func initval)
  | .between startdt enddt, ts => ts.between startdt enddt
  | .where' predicate, ts => .ok (ts.where' predicate)
  | .shift shiftIdx, ts => ts.shift shiftIdx
  | .skip skipSize func, ts => ts.skip skipSize func
  | .skipOnIndex idxFunc func, ts => ts.skipOnIndex toInt idxFunc func
  | .applyRolling func windowSize _, ts => ts.applyRolling func windowSize
  | .resampleAndAgg grpfn aggfn _, ts => ts.resampleAndAgg (fun k => .ok (grpfn k)) aggfn
  | .crossApplyInner other func _, ts => ts.crossApplyInner other func

/-- The result of a pipeline. -/
def Pipeline.run (toInt : ℤ → ℤ) {V O : Type} :
    Pipeline K V O → TimeSeries K V → Except Fault (TimeSeries K O)
  | .nil, ts => .ok ts
  | .cons op rest, ts => op.apply toInt ts >>= rest.run toInt

namespace TimeSeries

/-- What an operation keeps of a series: ordered keys, and no more of them. -/
structure Keeps (ts : TimeSeries K V) (result : TimeSeries K O) : Prop where
  increasing : result.StrictlyIncreasing
  size_le : result.size ≤ ts.size

/-- A part of the keys is ordered as all of them are. -/
theorem Keeps.of_keys_sublist {ts : TimeSeries K V} {result : TimeSeries K O}
    (h : ts.StrictlyIncreasing) (hsub : result.keys.Sublist ts.keys) : Keeps ts result :=
  ⟨List.Pairwise.sublist hsub h, hsub.length_le⟩

/-- `between` selects a part of the keys. -/
theorem between_keeps {ts result : TimeSeries K V} {startdt enddt : K}
    (hts : ts.StrictlyIncreasing) (h : ts.between startdt enddt = .ok result) :
    Keeps ts result := by
  by_cases hrange : startdt ≤ enddt
  · rw [between_eq_where' hts.nonDecreasing hrange] at h
    cases h
    exact .of_keys_sublist hts (keys_sublist_where' _ _)
  · rw [between, if_neg hrange] at h
    cases h

/-- The inner join keeps a part of the left keys. -/
theorem keys_sublist_of_crossApplyInner {W : Type} {left : TimeSeries K V} {other : TimeSeries K W}
    {func : V → W → O} {result : TimeSeries K O}
    (h : left.crossApplyInner other func = .ok result) : result.keys.Sublist left.keys := by
  obtain ⟨merged, hok, hrows⟩ := crossApplyInner_eq left other func
  rw [hok] at h
  cases h
  rw [← map_fst_rows, ← map_fst_rows, hrows]
  exact KeyedRows.keys_innerMerge_sublist func left.rows other.rows

end TimeSeries

open TimeSeries

/-- Every operation keeps the keys strictly increasing and adds no row. -/
theorem Operation.apply_keeps {toInt : ℤ → ℤ} (op : Operation K V O) {ts : TimeSeries K V}
    {result : TimeSeries K O} (hts : ts.StrictlyIncreasing) (h : op.apply toInt ts = .ok result) :
    Keeps ts result := by
  cases op with
  | map func =>
    cases h
    exact .of_keys_sublist hts (List.Sublist.refl _)
  | mapWithDate func =>
    cases h
    exact .of_keys_sublist hts (List.Sublist.refl _)
  | fold func initval =>
    cases h
    exact .of_keys_sublist hts (List.Sublist.refl _)
  | between startdt enddt => exact between_keeps hts h
  | where' predicate =>
    cases h
    exact .of_keys_sublist hts (keys_sublist_where' ts predicate)
  | shift shiftIdx => exact .of_keys_sublist hts (keys_sublist_of_shift h)
  | skip skipSize func =>
    apply Keeps.of_keys_sublist hts
    rw [keys_of_skip h]
    exact List.drop_sublist _ _
  | skipOnIndex idxFunc func => exact .of_keys_sublist hts (keys_sublist_of_skipOnIndex h)
  | applyRolling func windowSize hw => exact .of_keys_sublist hts (keys_sublist_of_applyRolling h)
  | resampleAndAgg grpfn aggfn hmono =>
    exact ⟨resampleAndAgg_increasing hts.nonDecreasing hmono h, size_resampleAndAgg_le h⟩
  | crossApplyInner other func hother =>
    exact .of_keys_sublist hts (keys_sublist_of_crossApplyInner h)

/-- Every pipeline keeps the keys strictly increasing and adds no row. -/
theorem Pipeline.run_keeps {toInt : ℤ → ℤ} (p : Pipeline K V O) {ts : TimeSeries K V}
    {result : TimeSeries K O} (hts : ts.StrictlyIncreasing) (h : p.run toInt ts = .ok result) :
    Keeps ts result := by
  induction p with
  | nil =>
    cases h
    exact ⟨hts, Nat.le_refl _⟩
  | cons op rest ih =>
    rw [run] at h
    obtain ⟨mid, hop, hrun⟩ := RangeLoop.exists_of_bind_eq_ok h
    have hmid := op.apply_keeps hts hop
    have hrest := ih hmid.increasing hrun
    exact ⟨hrest.increasing, hrest.size_le.trans hmid.size_le⟩

end Tspp
