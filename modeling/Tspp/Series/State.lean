import Mathlib.Data.List.Basic
import Mathlib.Order.Basic

/-!
# Series, paired iterators and faults

A series keeps its keys and its values in two containers of equal length. The raw
pair of containers is kept apart from the series proper, whose length equation is a
field. Paired iterators walk both containers at once; every dereference and every
step checks its range, so that undefined behaviour of the source shows up as a fault
and not as a made-up value.
-/

namespace Tspp

/-- What stops an operation: a failed precondition, or an operation without a meaning. -/
inductive Fault
  /-- `time_series_REQUIRE` failed and threw `time_series_error` with this message. -/
  | timeSeriesError (message : String)
  /-- An iterator was dereferenced or moved outside its container. -/
  | outOfRange
  /-- An integer remainder by zero was computed. -/
  | divisionByZero
  deriving DecidableEq, Repr

/-- The operation threw, and read nothing outside a container. -/
def Fault.Thrown (e : Fault) : Prop := ∃ message, e = .timeSeriesError message

/-- The two backing containers `keys_` and `values_`, with nothing known about them. -/
structure Containers (K V : Type) where
  /-- `keys_` -/
  keys : List K
  /-- `values_` -/
  values : List V
  deriving DecidableEq, Repr

/-- A series: as many values as keys. -/
structure TimeSeries (K V : Type) extends Containers K V where
  /-- Keys and values are paired by position. -/
  paired : keys.length = values.length
  deriving DecidableEq, Repr

/-- `iterator_pair`: a position in the key container and one in the value container. -/
structure IteratorPair where
  /-- Position of the key iterator `it.first`. -/
  first : ℕ
  /-- Position of the value iterator `it.second`. -/
  second : ℕ
  deriving DecidableEq, Repr

variable {K V : Type}

namespace IteratorPair

/-- `operator*`: both halves are dereferenced. -/
def deref (it : IteratorPair) (c : Containers K V) : Except Fault (K × V) :=
  match c.keys[it.first]?, c.values[it.second]? with
  | some k, some v => .ok (k, v)
  | _, _ => .error .outOfRange

/-- `operator++`: neither half may step past its end. -/
def incr (it : IteratorPair) (c : Containers K V) : Except Fault IteratorPair :=
  if it.first < c.keys.length ∧ it.second < c.values.length then
    .ok ⟨it.first + 1, it.second + 1⟩
  else .error .outOfRange

/-- `operator-`: neither half may move before its beginning. -/
def sub (it : IteratorPair) (n : ℕ) : Except Fault IteratorPair :=
  if n ≤ it.first ∧ n ≤ it.second then .ok ⟨it.first - n, it.second - n⟩
  else .error .outOfRange

/-- `operator--` -/
def decr (it : IteratorPair) : Except Fault IteratorPair := it.sub 1

/-- The iterator whose halves both stand at row `i`. -/
def row (i : ℕ) : IteratorPair := ⟨i, i⟩

@[simp] theorem row_inj {i j : ℕ} : row i = row j ↔ i = j := by
  simp [row]

end IteratorPair

namespace TimeSeries

/-- The default constructor. -/
def empty : TimeSeries K V := ⟨⟨[], []⟩, rfl⟩

/-- `size()` -/
def size (ts : TimeSeries K V) : ℕ := ts.keys.length

/-- `cbegin()` -/
def cbegin (_ : TimeSeries K V) : IteratorPair := ⟨0, 0⟩

/-- `cend()` -/
def cend (ts : TimeSeries K V) : IteratorPair := ⟨ts.keys.length, ts.values.length⟩

/-- `insert_end` -/
def insertEnd (ts : TimeSeries K V) (data : K × V) : TimeSeries K V :=
  ⟨⟨ts.keys ++ [data.1], ts.values ++ [data.2]⟩, by simp [ts.paired]⟩

/-- `insert_start` -/
def insertStart (ts : TimeSeries K V) (data : K × V) : TimeSeries K V :=
  ⟨⟨data.1 :: ts.keys, data.2 :: ts.values⟩, by simp [ts.paired]⟩

/-- `empty()` -/
def isEmpty (ts : TimeSeries K V) : Bool := ts.keys.isEmpty && ts.values.isEmpty

/-- The constructor from iterator ranges: rows are appended one by one. -/
def ofRows (rows : List (K × V)) : TimeSeries K V := rows.foldl insertEnd empty

/-- The rows of a series, as a paired traversal sees them. -/
def rows (ts : TimeSeries K V) : List (K × V) := ts.keys.zip ts.values

@[simp] theorem length_rows (ts : TimeSeries K V) : ts.rows.length = ts.size := by
  simp [rows, size, ← ts.paired]

theorem length_values (ts : TimeSeries K V) : ts.values.length = ts.size := ts.paired.symm

/-- The keys are the first components of the rows. -/
theorem map_fst_rows (ts : TimeSeries K V) : ts.rows.map Prod.fst = ts.keys :=
  List.map_fst_zip (Nat.le_of_eq ts.paired)

/-- The values are the second components of the rows. -/
theorem map_snd_rows (ts : TimeSeries K V) : ts.rows.map Prod.snd = ts.values :=
  List.map_snd_zip (Nat.le_of_eq ts.paired.symm)

/-- A series is determined by its rows. -/
theorem ext_rows {a b : TimeSeries K V} (h : a.rows = b.rows) : a = b := by
  have hk : a.keys = b.keys := by rw [← map_fst_rows, ← map_fst_rows, h]
  have hv : a.values = b.values := by rw [← map_snd_rows, ← map_snd_rows, h]
  obtain ⟨⟨ka, va⟩, pa⟩ := a
  obtain ⟨⟨kb, vb⟩, pb⟩ := b
  cases hk
  cases hv
  rfl

@[simp] theorem rows_empty : (empty : TimeSeries K V).rows = [] := rfl

@[simp] theorem keys_insertEnd (ts : TimeSeries K V) (data : K × V) :
    (ts.insertEnd data).keys = ts.keys ++ [data.1] := rfl

@[simp] theorem values_insertEnd (ts : TimeSeries K V) (data : K × V) :
    (ts.insertEnd data).values = ts.values ++ [data.2] := rfl

@[simp] theorem size_insertEnd (ts : TimeSeries K V) (data : K × V) :
    (ts.insertEnd data).size = ts.size + 1 := by
  simp [size]

/-- Appending a row appends exactly that row. -/
@[simp] theorem rows_insertEnd (ts : TimeSeries K V) (data : K × V) :
    (ts.insertEnd data).rows = ts.rows ++ [data] := by
  simp only [rows, keys_insertEnd, values_insertEnd]
  rw [List.zip_append ts.paired]
  rfl

/-- Inserting a row at the start puts it in front of the others. -/
@[simp] theorem rows_insertStart (ts : TimeSeries K V) (data : K × V) :
    (ts.insertStart data).rows = data :: ts.rows := rfl

@[simp] theorem keys_insertStart (ts : TimeSeries K V) (data : K × V) :
    (ts.insertStart data).keys = data.1 :: ts.keys := rfl

/-- Emitting a row moves it from the rows still to come to the rows emitted. -/
theorem map_append_insertEnd (res : TimeSeries K V) (r : K × V) (out : Option (List (K × V))) :
    (out.map (r :: ·)).map (res.rows ++ ·) = out.map ((res.insertEnd r).rows ++ ·) := by
  cases out <;> simp

/-- A series built from rows has exactly these rows. -/
@[simp] theorem rows_ofRows (rs : List (K × V)) : (ofRows rs).rows = rs := by
  have hfold : ∀ (rs : List (K × V)) (ts : TimeSeries K V),
      (rs.foldl insertEnd ts).rows = ts.rows ++ rs := by
    intro rs
    induction rs with
    | nil => simp
    | cons r rs ih => intro ts; simp [ih]
  simp [ofRows, hfold]

/-- Appending a row to a series built from rows builds it from one row more. -/
theorem insertEnd_ofRows (rs : List (K × V)) (r : K × V) :
    (ofRows rs).insertEnd r = ofRows (rs ++ [r]) := by
  rw [ofRows, ofRows, List.foldl_append, List.foldl_cons, List.foldl_nil]

@[simp] theorem keys_ofRows (rs : List (K × V)) : (ofRows rs).keys = rs.map Prod.fst := by
  rw [← map_fst_rows, rows_ofRows]

/-- Reading a row reads its key and its value at the same position. -/
theorem getElem?_rows_eq_some {ts : TimeSeries K V} {i : ℕ} {k : K} {v : V} :
    ts.rows[i]? = some (k, v) ↔ ts.keys[i]? = some k ∧ ts.values[i]? = some v := by
  rw [rows, List.getElem?_zip_eq_some]

/-- Every position below the size holds a row. -/
theorem exists_row {ts : TimeSeries K V} {i : ℕ} (hi : i < ts.size) :
    ∃ k v, ts.rows[i]? = some (k, v) := by
  have hlen : i < ts.rows.length := by rwa [length_rows]
  exact ⟨ts.rows[i].1, ts.rows[i].2, List.getElem?_eq_getElem hlen⟩

/-- Every position that holds a key holds a row with this key. -/
theorem exists_row_of_key {ts : TimeSeries K V} {i : ℕ} {k : K} (h : ts.keys[i]? = some k) :
    ∃ v, ts.rows[i]? = some (k, v) := by
  obtain ⟨k', v, hrow⟩ := exists_row (show i < ts.size from (List.getElem?_eq_some_iff.mp h).1)
  obtain rfl : k' = k := Option.some.inj ((getElem?_rows_eq_some.mp hrow).1.symm.trans h)
  exact ⟨v, hrow⟩

/-- A position holds a row with a key exactly if it holds the key. -/
theorem exists_getElem?_rows_iff {ts : TimeSeries K V} {i : ℕ} {k : K} :
    (∃ v, ts.rows[i]? = some (k, v)) ↔ ts.keys[i]? = some k :=
  ⟨fun ⟨_, hrow⟩ => (getElem?_rows_eq_some.mp hrow).1, exists_row_of_key⟩

/-- A position that holds a row is below the size. -/
theorem lt_size_of_row {ts : TimeSeries K V} {i : ℕ} {r : K × V} (h : ts.rows[i]? = some r) :
    i < ts.size := by
  have hlen := (List.getElem?_eq_some_iff.mp h).1
  rwa [length_rows] at hlen

/-- The rows from an existing position on start with the row at that position. -/
theorem drop_rows {ts : TimeSeries K V} {i : ℕ} {r : K × V} (h : ts.rows[i]? = some r) :
    ts.rows.drop i = r :: ts.rows.drop (i + 1) := by
  obtain ⟨hlen, hr⟩ := List.getElem?_eq_some_iff.mp h
  rw [← hr]
  exact List.drop_eq_getElem_cons hlen

theorem drop_size_rows {ts : TimeSeries K V} {i : ℕ} (h : ts.size ≤ i) : ts.rows.drop i = [] :=
  List.drop_eq_nil_of_le (by rwa [length_rows])

/-- Passing a row passes its key. -/
theorem take_succ_keys {ts : TimeSeries K V} {i : ℕ} {r : K × V} (h : ts.rows[i]? = some r) :
    ts.keys.take (i + 1) = ts.keys.take i ++ [r.1] := by
  have hkey := (getElem?_rows_eq_some.mp (show ts.rows[i]? = some (r.1, r.2) from h)).1
  rw [List.take_add_one, hkey, Option.toList_some]

theorem cbegin_eq (ts : TimeSeries K V) : ts.cbegin = .row 0 := rfl

/-- Both halves of the end iterator stand at the size, since the containers are paired. -/
theorem cend_eq (ts : TimeSeries K V) : ts.cend = .row ts.size := by
  simp [cend, IteratorPair.row, size, ← ts.paired]

/-- Dereferencing an iterator that stands at an existing row gives that row. -/
theorem deref_row {ts : TimeSeries K V} {i : ℕ} {r : K × V} (h : ts.rows[i]? = some r) :
    (IteratorPair.row i).deref ts.toContainers = .ok r := by
  obtain ⟨hk, hv⟩ := getElem?_rows_eq_some.mp (show ts.rows[i]? = some (r.1, r.2) from h)
  simp only [IteratorPair.deref, IteratorPair.row, hk, hv]

/-- The key of a row that an iterator reads is a key of the series, wherever its halves stand. -/
theorem mem_keys_of_deref {ts : TimeSeries K V} {it : IteratorPair} {r : K × V}
    (h : it.deref ts.toContainers = .ok r) : r.1 ∈ ts.keys := by
  unfold IteratorPair.deref at h
  split at h
  · next hk _ =>
    cases h
    exact List.mem_of_getElem? hk
  · cases h

/-- Dereferencing where the key container holds a key gives that key. -/
theorem exists_deref_row {ts : TimeSeries K V} {i : ℕ} {k : K} (h : ts.keys[i]? = some k) :
    ∃ v, (IteratorPair.row i).deref ts.toContainers = .ok (k, v) := by
  obtain ⟨v, hrow⟩ := exists_row_of_key h
  exact ⟨v, deref_row hrow⟩

/-- Dereferencing at or past the end faults. -/
theorem deref_row_of_le {ts : TimeSeries K V} {i : ℕ} (h : ts.size ≤ i) :
    (IteratorPair.row i).deref ts.toContainers = .error .outOfRange := by
  have hk : ts.keys[i]? = none := List.getElem?_eq_none h
  simp only [IteratorPair.deref, IteratorPair.row, hk]

/-- Dereferencing an iterator that stands at a row gives a row exactly if it exists. -/
theorem deref_row_iff {ts : TimeSeries K V} {i : ℕ} {r : K × V} :
    (IteratorPair.row i).deref ts.toContainers = .ok r ↔ ts.rows[i]? = some r := by
  refine ⟨fun h => ?_, deref_row⟩
  by_cases hi : i < ts.size
  · obtain ⟨k, v, hrow⟩ := exists_row hi
    rw [deref_row hrow] at h
    rw [hrow, Except.ok.inj h]
  · rw [deref_row_of_le (Nat.le_of_not_lt hi)] at h
    cases h

/-- Stepping from an existing row reaches the next position. -/
theorem incr_row {ts : TimeSeries K V} {i : ℕ} (h : i < ts.size) :
    (IteratorPair.row i).incr ts.toContainers = .ok (.row (i + 1)) := by
  have hv : i < ts.values.length := by rwa [length_values]
  exact if_pos ⟨h, hv⟩

theorem sub_one_row {i : ℕ} (h : 0 < i) : (IteratorPair.row i).sub 1 = .ok (.row (i - 1)) :=
  if_pos ⟨h, h⟩

end TimeSeries

end Tspp
