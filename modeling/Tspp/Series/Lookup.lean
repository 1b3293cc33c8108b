import Tspp.Series.State
import Tspp.Core.KeyedRows
import Tspp.Core.LowerBound
import Tspp.Core.SortedKeys
import Mathlib.Algebra.Order.Ring.Int

/-!
# Key order and point lookup

Lookups search the key container and read the value container at the position found.
The position is a `difference_type`; `get_value` takes an `int`, so the conversion
between the two is a parameter `toInt` of every lookup. It keeps the positions of a
series exactly if an `int` holds them.
-/

namespace Tspp

namespace TimeSeries

variable {K V : Type}

/-- The keys increase strictly. -/
def StrictlyIncreasing [LT K] (ts : TimeSeries K V) : Prop := ts.keys.Pairwise (· < ·)

/-- The keys never decrease; repeated keys are allowed. -/
def NonDecreasing [LE K] (ts : TimeSeries K V) : Prop := ts.keys.Pairwise (· ≤ ·)

instance [LT K] [DecidableLT K] (ts : TimeSeries K V) : Decidable ts.StrictlyIncreasing :=
  inferInstanceAs (Decidable (ts.keys.Pairwise (· < ·)))

instance [LE K] [DecidableLE K] (ts : TimeSeries K V) : Decidable ts.NonDecreasing :=
  inferInstanceAs (Decidable (ts.keys.Pairwise (· ≤ ·)))

theorem strictlyIncreasing_iff_rows [LT K] (ts : TimeSeries K V) :
    ts.StrictlyIncreasing ↔ KeyedRows.Increasing ts.rows := by
  rw [KeyedRows.increasing_iff, map_fst_rows, StrictlyIncreasing]

theorem nonDecreasing_iff_rows [LE K] (ts : TimeSeries K V) :
    ts.NonDecreasing ↔ KeyedRows.NonDecreasing ts.rows := by
  rw [KeyedRows.nonDecreasing_iff, map_fst_rows, NonDecreasing]

theorem StrictlyIncreasing.nonDecreasing [Preorder K] {ts : TimeSeries K V}
    (h : ts.StrictlyIncreasing) : ts.NonDecreasing :=
  List.Pairwise.imp (fun hlt => le_of_lt hlt) h

/-- A row of the series is a key with its value. -/
theorem mem_keys_of_mem_rows {ts : TimeSeries K V} {k : K} {v : V} (h : (k, v) ∈ ts.rows) :
    k ∈ ts.keys := by
  rw [← map_fst_rows]
  exact List.mem_map_of_mem h

/-- Every key of the series holds a row. -/
theorem exists_row_of_mem_keys {ts : TimeSeries K V} {k : K} (h : k ∈ ts.keys) :
    ∃ v, (k, v) ∈ ts.rows := by
  rw [← map_fst_rows] at h
  obtain ⟨⟨a, v⟩, hr, rfl⟩ := List.mem_map.mp h
  exact ⟨v, hr⟩

section Lookup

variable [LinearOrder K] (toInt : ℤ → ℤ)

/-- `locate` by key: whether the key is present, and the lower-bound position. -/
def locate (ts : TimeSeries K V) (d : K) : Bool × ℤ :=
  let key := LowerBound.lowerBound ts.keys d
  (ts.keys[key]? == some d, key)

/-- An `int` holds every position of the series. -/
def HoldsPositions (ts : TimeSeries K V) : Prop := ∀ n : ℕ, n < ts.size → toInt n = n

/-- `get_value`: read the value container at an `int` position. -/
def getValue (ts : TimeSeries K V) (idx : ℤ) : Except Fault V :=
  if idx < 0 then .error .outOfRange
  else
    match ts.values[idx.toNat]? with
    | some v => .ok v
    | none => .error .outOfRange

/-- `at`, which throws on a missing key. -/
def atKey (ts : TimeSeries K V) (d : K) : Except Fault V :=
  let loc := ts.locate d
  if loc.1 then ts.getValue (toInt loc.2) else .error (.timeSeriesError "date key not found")

/-- `try_at`, which returns nothing on a missing key. -/
def tryAt (ts : TimeSeries K V) (d : K) : Except Fault (Option V) :=
  let loc := ts.locate d
  if loc.1 then (ts.getValue (toInt loc.2)).map some else .ok none

/-- On ordered keys `locate` finds a key exactly if it is present. -/
theorem locate_fst {ts : TimeSeries K V} (h : ts.NonDecreasing) (d : K) :
    (ts.locate d).1 = true ↔ d ∈ ts.keys := by
  rw [LowerBound.mem_iff_getElem?_lowerBound h d, locate, beq_iff_eq]

/-- A key that `locate` finds stands at the position it returns. -/
theorem getElem?_of_locate {ts : TimeSeries K V} {d : K} (h : (ts.locate d).1 = true) :
    ts.keys[LowerBound.lowerBound ts.keys d]? = some d := by
  rwa [locate, beq_iff_eq] at h

/-- On strictly increasing keys `locate` finds every key at its position. -/
theorem locate_row {ts : TimeSeries K V} (h : ts.StrictlyIncreasing) {i : ℕ} {k : K}
    (hk : ts.keys[i]? = some k) : ts.locate k = (true, (i : ℤ)) := by
  have hfound := (locate_fst h.nonDecreasing k).mpr (List.mem_of_getElem? hk)
  have hpos := SortedKeys.position_unique h (getElem?_of_locate hfound) hk
  apply Prod.ext hfound
  exact congrArg Nat.cast hpos

omit [LinearOrder K] in
/-- `get_value` reads the value at any position of the series. -/
theorem getValue_natCast {ts : TimeSeries K V} {i : ℕ} {v : V} (hv : ts.values[i]? = some v) :
    ts.getValue i = .ok v := by
  rw [getValue, if_neg (by omega), Int.toNat_natCast, hv]

/-- `at` and `try_at` find every date and return the value paired with it. -/
def FindsEveryDate (ts : TimeSeries K V) : Prop :=
  ∀ (i : ℕ) k v, ts.keys[i]? = some k → ts.values[i]? = some v →
    ts.atKey toInt k = .ok v ∧ ts.tryAt toInt k = .ok (some v)

/-- With an `int` that holds every position, the lookups find every date. -/
theorem HoldsPositions.findsEveryDate {toInt : ℤ → ℤ} {ts : TimeSeries K V}
    (hint : HoldsPositions toInt ts) (h : ts.StrictlyIncreasing) : ts.FindsEveryDate toInt := by
  intro i k v hk hv
  have hpos : toInt i = i := hint i (List.getElem?_eq_some_iff.mp hk).1
  have hget := getValue_natCast hv
  constructor
  · simp only [atKey, locate_row h hk, ite_true, hpos, hget]
  · simp only [tryAt, locate_row h hk, ite_true, hpos, hget]
    rfl

/-- `try_at` on a missing date returns nothing. -/
theorem tryAt_of_notMem {ts : TimeSeries K V} (h : ts.NonDecreasing) {d : K}
    (hd : d ∉ ts.keys) : ts.tryAt toInt d = .ok none := by
  have hloc : ¬ (ts.locate d).1 = true := (locate_fst h d).not.mpr hd
  exact if_neg hloc

omit [LinearOrder K] in
/-- A missing date is not looked up in the rows. -/
theorem lookup_of_notMem [DecidableEq K] {ts : TimeSeries K V} {d : K} (hd : d ∉ ts.keys) :
    ts.rows.lookup d = none := by
  rw [List.lookup_eq_none_iff]
  intro r hr
  rw [bne_iff_ne]
  rintro rfl
  exact hd (mem_keys_of_mem_rows hr)

/-- With an `int` that holds every position, `try_at` is the lookup of the key. -/
theorem tryAt_eq_lookup {toInt : ℤ → ℤ} {ts : TimeSeries K V} (h : ts.StrictlyIncreasing)
    (hint : HoldsPositions toInt ts) (d : K) : ts.tryAt toInt d = .ok (ts.rows.lookup d) := by
  have hrows := ts.strictlyIncreasing_iff_rows.mp h
  by_cases hd : d ∈ ts.keys
  · obtain ⟨i, hkey⟩ := List.mem_iff_getElem?.mp hd
    obtain ⟨v, hrow⟩ := exists_row_of_key hkey
    have hv := (getElem?_rows_eq_some.mp hrow).2
    have hsome := (hrows.lookup_eq_some d v).mpr (List.mem_of_getElem? hrow)
    rw [(hint.findsEveryDate h i d v hkey hv).2, hsome]
  · rw [tryAt_of_notMem toInt h.nonDecreasing hd, lookup_of_notMem hd]

end Lookup

section Int32

/-- The conversion to an `int` of 32 bits, which wraps around. -/
def int32 (z : ℤ) : ℤ := (z + 2 ^ 31) % 2 ^ 32 - 2 ^ 31

/-- An `int` keeps a position exactly if it is below `2 ^ 31`. -/
theorem int32_eq_self_iff {n : ℕ} : int32 n = n ↔ n < 2 ^ 31 := by
  unfold int32
  omega

/-- A position becomes an index of the series exactly if its low 32 bits are not negative. -/
theorem int32_inside_iff {p n : ℕ} (h : p < n) :
    0 ≤ int32 p ∧ int32 p < n ↔ p % 2 ^ 32 < 2 ^ 31 := by
  unfold int32
  omega

/-- For a position converted to an `int`, `get_value` reads the position of its low 32 bits, unless
they are negative. -/
theorem getValue_int32_eq_ok_iff {ts : TimeSeries K V} {p : ℕ} {v : V} :
    ts.getValue (int32 p) = .ok v ↔ p % 2 ^ 32 < 2 ^ 31 ∧ ts.values[p % 2 ^ 32]? = some v := by
  by_cases hlow : p % 2 ^ 32 < 2 ^ 31
  · have hidx : int32 p = (p % 2 ^ 32 : ℕ) := by
      unfold int32
      omega
    rw [hidx, and_iff_right hlow]
    refine ⟨fun h => ?_, getValue_natCast⟩
    rw [getValue, if_neg (by omega), Int.toNat_natCast] at h
    split at h
    · next hv =>
      rw [hv, Except.ok.inj h]
    · cases h
  · have hneg : int32 p < 0 := by
      unfold int32
      omega
    rw [getValue, if_pos hneg]
    refine ⟨?_, fun h => absurd h.1 hlow⟩
    rintro ⟨⟩

/-- `try_at` on a key reads the value at the position of its low 32 bits. -/
theorem tryAt_int32_of_row [LinearOrder K] {ts : TimeSeries K V} (h : ts.StrictlyIncreasing)
    {p : ℕ} {d : K} {w : V} (hrow : ts.rows[p]? = some (d, w)) :
    ts.tryAt int32 d = (ts.getValue (int32 p)).map some := by
  simp only [tryAt, locate_row h (getElem?_rows_eq_some.mp hrow).1, ite_true]

theorem holdsPositions_int32 {ts : TimeSeries K V} (h : ts.size ≤ 2 ^ 31) :
    HoldsPositions int32 ts :=
  fun _ hn => int32_eq_self_iff.mpr (hn.trans_le h)

end Int32

end TimeSeries

open TimeSeries

/-- A series with a row for each of the first `n` whole numbers. -/
def countingSeries (n : ℕ) : TimeSeries ℤ ℤ :=
  ofRows ((List.range n).map fun i : ℕ => ((i : ℤ), (0 : ℤ)))

theorem size_countingSeries (n : ℕ) : (countingSeries n).size = n := by
  rw [← length_rows, countingSeries, rows_ofRows, List.length_map, List.length_range]

/-- The counting series holds every number at its own position. -/
theorem getElem?_keys_countingSeries {n i : ℕ} (h : i < n) :
    (countingSeries n).keys[i]? = some (i : ℤ) := by
  rw [countingSeries, keys_ofRows, List.map_map, List.getElem?_map, List.getElem?_range h]
  rfl

theorem countingSeries_increasing (n : ℕ) : (countingSeries n).StrictlyIncreasing := by
  rw [strictlyIncreasing_iff_rows, countingSeries, rows_ofRows]
  refine List.pairwise_map.mpr (List.Pairwise.imp ?_ List.pairwise_lt_range)
  intro a b hab
  exact Int.ofNat_lt.mpr hab

end Tspp
