import Tspp.Core.CommandRuns
import Tspp.Core.WhileLoop
import Tspp.Series.State
import Mathlib.Algebra.Order.Ring.Int

/-!
# Walking a series with paired iterators

An iterator pair holds one iterator into each container and moves both; so do its reverse
counterparts, which walk from the last row to the first. A program that holds a pair moves
it, reads rows, writes rows and compares the pair with the ends of the series. All it can
see is one position in one list of rows: the two iterators never part.
-/

namespace Tspp

/-- The two kinds of iterators that a pair holds. -/
inductive Direction
  /-- `iterator` and `const_iterator` -/
  | forward
  /-- `reverse_iterator` and `const_reverse_iterator` -/
  | reverse
  deriving DecidableEq, Repr

variable {K V : Type}

namespace IteratorPair

/-- The index of the element at which an iterator stands after `i` steps through `len`. -/
def cell (dir : Direction) (len i : ℕ) : ℕ :=
  match dir with
  | .forward => i
  | .reverse => len - 1 - i

/-- The element at which an iterator stands. -/
def element {α : Type} (dir : Direction) (xs : List α) (i : ℕ) : Except Fault α :=
  if i < xs.length then
    match xs[cell dir xs.length i]? with
    | some x => .ok x
    | none => .error .outOfRange
  else .error .outOfRange

/-- An iterator moved by `n` steps, which leaves neither end of `len` elements behind. -/
def moved (i : ℕ) (n : ℤ) (len : ℕ) : Except Fault ℕ :=
  if 0 ≤ i + n ∧ i + n ≤ len then .ok (i + n).toNat else .error .outOfRange

/-- `operator*` -/
def dereference (dir : Direction) (it : IteratorPair) (c : Containers K V) :
    Except Fault (K × V) := do
  let first ← element dir c.keys it.first
  let second ← element dir c.values it.second
  return (first, second)

/-- `operator+` -/
def plus (it : IteratorPair) (n : ℤ) (c : Containers K V) : Except Fault IteratorPair := do
  let first ← moved it.first n c.keys.length
  let second ← moved it.second n c.values.length
  return ⟨first, second⟩

/-- `operator-`, by any difference. -/
def minus (it : IteratorPair) (n : ℤ) (c : Containers K V) : Except Fault IteratorPair := do
  let first ← moved it.first (-n) c.keys.length
  let second ← moved it.second (-n) c.values.length
  return ⟨first, second⟩

/-- `operator==`: both halves are compared. -/
def equals (it other : IteratorPair) : Bool :=
  let first := it.first == other.first
  let second := it.second == other.second
  first && second

end IteratorPair

/-- What a program does with an iterator pair that it holds. -/
inductive IteratorCommand (K V : Type)
  | preIncrement
  | postIncrement
  | preDecrement
  | postDecrement
  /-- The pair becomes the sum of itself and `n`. -/
  | plus (n : ℤ)
  /-- The pair becomes the difference of itself and `n`. -/
  | minus (n : ℤ)
  | dereference
  /-- `operator=` with a pair of values. -/
  | assign (value : K × V)
  | isBegin
  | isEnd

/-- What a program gets back, where an iterator is an `ι`. -/
inductive IteratorReply (ι K V : Type)
  | iterator (it : ι)
  | row (r : K × V)
  | test (b : Bool)
  | done

/-- The reply with its iterator translated. -/
def IteratorReply.map {ι κ : Type} (f : ι → κ) : IteratorReply ι K V → IteratorReply κ K V
  | .iterator it => .iterator (f it)
  | .row r => .row r
  | .test b => .test b
  | .done => .done

/-- A series and a pair of iterators into it. -/
structure Walk (K V : Type) where
  /-- The series that is walked. -/
  series : TimeSeries K V
  /-- The pair that the program holds. -/
  it : IteratorPair

namespace Walk

/-- `*(it.first) = value.first` and `*(it.second) = value.second`. -/
def store (dir : Direction) (w : Walk K V) (value : K × V) : Except Fault (TimeSeries K V) :=
  if w.it.first < w.series.keys.length ∧ w.it.second < w.series.values.length then
    .ok ⟨⟨w.series.keys.set (IteratorPair.cell dir w.series.keys.length w.it.first) value.1,
      w.series.values.set (IteratorPair.cell dir w.series.values.length w.it.second) value.2⟩, by
        rw [List.length_set, List.length_set, w.series.paired]⟩
  else .error .outOfRange

/-- The pair moved, and what the move answers. -/
def move (w : Walk K V) (target : Except Fault IteratorPair)
    (reply : IteratorPair → IteratorPair) :
    Except Fault (IteratorReply IteratorPair K V) × Walk K V :=
  match target with
  | .ok it => (.ok (.iterator (reply it)), { w with it })
  | .error e => (.error e, w)

/-- The answer to a command, and what it leaves. -/
def execute (dir : Direction) (w : Walk K V) :
    IteratorCommand K V → Except Fault (IteratorReply IteratorPair K V) × Walk K V
  | .preIncrement => w.move (w.it.incr w.series.toContainers) id
  | .postIncrement => w.move (w.it.incr w.series.toContainers) fun _ => w.it
  | .preDecrement => w.move w.it.decr id
  | .postDecrement => w.move w.it.decr fun _ => w.it
  | .plus n => w.move (w.it.plus n w.series.toContainers) id
  | .minus n => w.move (w.it.minus n w.series.toContainers) id
  | .dereference => ((w.it.dereference dir w.series.toContainers).map .row, w)
  | .assign value =>
    match w.store dir value with
    | .ok series => (.ok .done, { w with series })
    | .error e => (.error e, w)
  | .isBegin => (.ok (.test (w.it.equals w.series.cbegin)), w)
  | .isEnd => (.ok (.test (w.it.equals w.series.cend)), w)

end Walk

/-- A list of rows and a position in it, at a row or behind the last one. -/
structure Cursor (K V : Type) where
  /-- The rows, in the order in which they are walked. -/
  rows : List (K × V)
  /-- The number of steps from the first row. -/
  position : ℕ

namespace Cursor

/-- The cursor moved by `n`, and what the move answers. -/
def move (c : Cursor K V) (n : ℤ) (reply : ℕ → ℕ) :
    Except Fault (IteratorReply ℕ K V) × Cursor K V :=
  if 0 ≤ c.position + n ∧ c.position + n ≤ c.rows.length then
    let position := (c.position + n).toNat
    (.ok (.iterator (reply position)), { c with position })
  else (.error .outOfRange, c)

/-- The answer to a command, and what it leaves. -/
def execute (c : Cursor K V) :
    IteratorCommand K V → Except Fault (IteratorReply ℕ K V) × Cursor K V
  | .preIncrement => c.move 1 id
  | .postIncrement => c.move 1 fun _ => c.position
  | .preDecrement => c.move (-1) id
  | .postDecrement => c.move (-1) fun _ => c.position
  | .plus n => c.move n id
  | .minus n => c.move (-n) id
  | .dereference =>
    match c.rows[c.position]? with
    | some r => (.ok (.row r), c)
    | none => (.error .outOfRange, c)
  | .assign value =>
    if c.position < c.rows.length then (.ok .done, { c with rows := c.rows.set c.position value })
    else (.error .outOfRange, c)
  | .isBegin => (.ok (.test (c.position == 0)), c)
  | .isEnd => (.ok (.test (c.position == c.rows.length)), c)

/-- No command changes the number of rows. -/
theorem length_execute (c : Cursor K V) (cmd : IteratorCommand K V) :
    (c.execute cmd).2.rows.length = c.rows.length := by
  have hmove : ∀ n reply, (c.move n reply).2.rows = c.rows := by
    intro n reply
    unfold move
    split <;> rfl
  cases cmd with
  | dereference =>
    rw [execute]
    split <;> rfl
  | assign value =>
    rw [execute]
    split
    · exact List.length_set
    · rfl
  | isBegin => rfl
  | isEnd => rfl
  | preIncrement => exact congrArg List.length (hmove _ _)
  | postIncrement => exact congrArg List.length (hmove _ _)
  | preDecrement => exact congrArg List.length (hmove _ _)
  | postDecrement => exact congrArg List.length (hmove _ _)
  | plus n => exact congrArg List.length (hmove _ _)
  | minus n => exact congrArg List.length (hmove _ _)

end Cursor

namespace TimeSeries

/-- The rows in the order in which a kind of iterators walks them. -/
def walked (dir : Direction) (rows : List (K × V)) : List (K × V) :=
  match dir with
  | .forward => rows
  | .reverse => rows.reverse

@[simp] theorem length_walked (dir : Direction) (rows : List (K × V)) :
    (walked dir rows).length = rows.length := by
  cases dir with
  | forward => rfl
  | reverse => exact List.length_reverse

open IteratorPair

section Rows

variable {dir : Direction} {ts : TimeSeries K V} {i : ℕ}

theorem cell_lt {len : ℕ} (h : i < len) : cell dir len i < len := by
  cases dir with
  | forward => exact h
  | reverse =>
    rw [cell]
    omega

/-- After `i` steps an iterator stands at the row that is walked as the `i`-th. -/
theorem getElem?_walked {rows : List (K × V)} (h : i < rows.length) :
    (walked dir rows)[i]? = rows[cell dir rows.length i]? := by
  cases dir with
  | forward => rfl
  | reverse => exact List.getElem?_reverse h

/-- Replacing the row at which an iterator stands replaces it in the order of the walk. -/
theorem walked_set {rows : List (K × V)} (h : i < rows.length) (value : K × V) :
    walked dir (rows.set (cell dir rows.length i) value) = (walked dir rows).set i value := by
  cases dir with
  | forward => rfl
  | reverse =>
    apply List.ext_getElem?
    intro j
    by_cases hj : j < rows.length
    · rw [walked, walked, cell, List.getElem?_reverse (by rwa [List.length_set]),
        List.getElem?_set, List.getElem?_set, List.length_set, List.length_reverse,
        List.getElem?_reverse hj]
      by_cases hij : i = j
      · subst hij
        rw [if_pos rfl, if_pos rfl, if_pos h, if_pos (by omega)]
      · rw [if_neg hij, if_neg (by omega)]
    · rw [List.getElem?_eq_none, List.getElem?_eq_none]
      · rw [List.length_set, length_walked]
        omega
      · rw [length_walked, List.length_set]
        omega

/-- Replacing an element on both sides replaces the pair. -/
theorem zip_set_set (keys : List K) (values : List V) (p : ℕ) (value : K × V) :
    (keys.set p value.1).zip (values.set p value.2) = (keys.zip values).set p value := by
  induction keys generalizing values p with
  | nil => simp
  | cons k keys ih =>
    cases values with
    | nil => simp
    | cons v values =>
      cases p with
      | zero => rfl
      | succ p => simp [ih]

/-- A pair that stands at a row reads it. -/
theorem dereference_row {r : K × V} (hr : (walked dir ts.rows)[i]? = some r) :
    (row i).dereference dir ts.toContainers = .ok r := by
  have hi : i < ts.size := by
    have hlen := (List.getElem?_eq_some_iff.mp hr).1
    rwa [length_walked, length_rows] at hlen
  rw [getElem?_walked (by rwa [length_rows]), length_rows] at hr
  obtain ⟨hk, hv⟩ := getElem?_rows_eq_some.mp (show ts.rows[_]? = some (r.1, r.2) from hr)
  have hkeys : element dir ts.keys i = .ok r.1 := by
    rw [element, ← size, if_pos hi, hk]
  have hvalues : element dir ts.values i = .ok r.2 := by
    rw [element, length_values, if_pos hi, hv]
  rw [dereference, row, hkeys, hvalues]
  rfl

/-- A pair behind the last row reads nothing. -/
theorem dereference_end (h : ts.size ≤ i) :
    (row i).dereference dir ts.toContainers = .error .outOfRange := by
  have hkeys : element dir ts.keys i = .error .outOfRange := if_neg (not_lt.mpr h)
  rw [dereference, row, hkeys]
  rfl

/-- A forward pair reads what the loops over a series read. -/
theorem dereference_forward (it : IteratorPair) (c : Containers K V) :
    it.dereference .forward c = it.deref c := by
  have helement : ∀ {α : Type} (xs : List α) (i : ℕ), element .forward xs i =
      match xs[i]? with
      | some x => .ok x
      | none => .error .outOfRange := by
    intro α xs i
    rw [element, cell]
    split
    · rfl
    · next hi => rw [List.getElem?_eq_none (not_lt.mp hi)]
  rw [dereference, deref, helement, helement]
  cases c.keys[it.first]? with
  | none => rfl
  | some k => cases c.values[it.second]? <;> rfl

/-- Moving a pair moves both of its halves. -/
theorem plus_row (n : ℤ) : (row i).plus n ts.toContainers =
    if 0 ≤ i + n ∧ i + n ≤ ts.size then .ok (row (i + n).toNat) else .error .outOfRange := by
  rw [plus, row, moved, moved, length_values, ← size]
  split <;> rfl

theorem minus_row (n : ℤ) : (row i).minus n ts.toContainers =
    if 0 ≤ i + -n ∧ i + -n ≤ ts.size then .ok (row (i + -n).toNat) else .error .outOfRange := by
  rw [minus, row, moved, moved, length_values, ← size]
  split <;> rfl

/-- `operator++` is a move by one. -/
theorem incr_row_eq : (row i).incr ts.toContainers =
    if 0 ≤ (i : ℤ) + 1 ∧ (i : ℤ) + 1 ≤ ts.size then .ok (row ((i : ℤ) + 1).toNat)
    else .error .outOfRange := by
  by_cases hlt : i < ts.size
  · rw [incr_row hlt, if_pos (by omega)]
    rfl
  · have hguard : ¬ (i < ts.keys.length ∧ i < ts.values.length) := fun hbelow => hlt hbelow.1
    rw [if_neg (by omega)]
    exact if_neg hguard

/-- `operator--` is a move back by one. -/
theorem decr_row_eq (h : i ≤ ts.size) : (row i).decr =
    if 0 ≤ (i : ℤ) + -1 ∧ (i : ℤ) + -1 ≤ ts.size then .ok (row ((i : ℤ) + -1).toNat)
    else .error .outOfRange := by
  by_cases hpos : 0 < i
  · rw [decr, sub_one_row hpos, if_pos (by omega), show ((i : ℤ) + -1).toNat = i - 1 by omega]
  · have hguard : ¬ (1 ≤ i ∧ 1 ≤ i) := fun hge => hpos hge.1
    rw [if_neg (by omega)]
    exact if_neg hguard

theorem equals_row (j : ℕ) : (row i).equals (row j) = (i == j) := by
  rw [equals, row, row, Bool.and_self]

end Rows

/-- The pair stands at the position of the cursor, and the series has its rows. -/
structure IsCursor (dir : Direction) (w : Walk K V) (c : Cursor K V) : Prop where
  it : w.it = row c.position
  rows : c.rows = walked dir w.series.rows
  inside : c.position ≤ c.rows.length

section Step

variable {dir : Direction} {w : Walk K V} {c : Cursor K V}

theorem IsCursor.length_rows (h : IsCursor dir w c) : c.rows.length = w.series.size := by
  rw [h.rows, length_walked, TimeSeries.length_rows]

/-- A move of the pair is a move of the cursor. -/
theorem IsCursor.move (h : IsCursor dir w c) {n : ℤ} {target : Except Fault IteratorPair}
    {reply : IteratorPair → IteratorPair} {reply' : ℕ → ℕ}
    (htarget : target = if 0 ≤ c.position + n ∧ c.position + n ≤ w.series.size then
      .ok (row (c.position + n).toNat) else .error .outOfRange)
    (hreply : ∀ j, reply (row j) = row (reply' j)) :
    (w.move target reply).1 = (c.move n reply').1.map (IteratorReply.map row) ∧
      IsCursor dir (w.move target reply).2 (c.move n reply').2 := by
  rw [htarget, Cursor.move, h.length_rows]
  split
  · next hinside =>
    refine ⟨congrArg (fun it => Except.ok (IteratorReply.iterator it)) (hreply _), rfl, h.rows, ?_⟩
    rw [h.length_rows]
    simp only
    omega
  · exact ⟨rfl, h⟩

/-- Writing a row through the pair replaces the row at the position of the cursor. -/
theorem IsCursor.store (h : IsCursor dir w c) (value : K × V) (hlt : c.position < c.rows.length) :
    ∃ series, w.store dir value = .ok series ∧
      walked dir series.rows = c.rows.set c.position value := by
  have hpos : c.position < w.series.size := by rwa [← h.length_rows]
  have hrows : c.position < w.series.rows.length := by rwa [TimeSeries.length_rows]
  have hguard : w.it.first < w.series.keys.length ∧ w.it.second < w.series.values.length := by
    rw [h.it, length_values]
    exact ⟨hpos, hpos⟩
  rw [Walk.store, if_pos hguard]
  refine ⟨_, rfl, ?_⟩
  rw [h.rows, ← walked_set hrows, TimeSeries.length_rows]
  change walked dir ((w.series.keys.set (cell dir w.series.size w.it.first) value.1).zip
    (w.series.values.set (cell dir w.series.values.length w.it.second) value.2)) = _
  rw [h.it, length_values]
  exact congrArg (walked dir) (zip_set_set _ _ _ value)

/-- Every command has the same reply from the pair as from the cursor, and leaves them together. -/
theorem IsCursor.execute (h : IsCursor dir w c) (cmd : IteratorCommand K V) :
    (w.execute dir cmd).1 = (c.execute cmd).1.map (IteratorReply.map row) ∧
      IsCursor dir (w.execute dir cmd).2 (c.execute cmd).2 := by
  have hsize := h.length_rows
  have hinside := h.inside
  have hdecr := decr_row_eq (show c.position ≤ w.series.size by rwa [← hsize])
  cases cmd with
  | preIncrement => exact h.move (by rw [h.it, incr_row_eq]) fun _ => rfl
  | postIncrement => exact h.move (by rw [h.it, incr_row_eq]) fun _ => h.it
  | preDecrement => exact h.move (by rw [h.it, hdecr]) fun _ => rfl
  | postDecrement => exact h.move (by rw [h.it, hdecr]) fun _ => h.it
  | plus n => exact h.move (by rw [h.it, plus_row]) fun _ => rfl
  | minus n => exact h.move (by rw [h.it, minus_row]) fun _ => rfl
  | dereference =>
    rw [Walk.execute, Cursor.execute, h.it]
    cases hrow : c.rows[c.position]? with
    | none =>
      have hend := List.getElem?_eq_none_iff.mp hrow
      rw [dereference_end (by rwa [← hsize])]
      exact ⟨rfl, h⟩
    | some r =>
      rw [h.rows] at hrow
      rw [dereference_row hrow]
      exact ⟨rfl, h⟩
  | assign value =>
    rw [Walk.execute, Cursor.execute]
    by_cases hlt : c.position < c.rows.length
    · obtain ⟨series, hstore, hrows⟩ := h.store value hlt
      rw [hstore, if_pos hlt]
      refine ⟨rfl, h.it, hrows.symm, ?_⟩
      rw [List.length_set]
      exact hinside
    · have hguard : ¬ (w.it.first < w.series.keys.length ∧
          w.it.second < w.series.values.length) := by
        rw [h.it]
        exact fun hbelow => hlt (by rw [hsize]; exact hbelow.1)
      rw [Walk.store, if_neg hguard, if_neg hlt]
      exact ⟨rfl, h⟩
  | isBegin =>
    rw [Walk.execute, Cursor.execute, h.it, cbegin_eq, equals_row]
    exact ⟨rfl, h⟩
  | isEnd =>
    rw [Walk.execute, Cursor.execute, h.it, cend_eq, equals_row, hsize]
    exact ⟨rfl, h⟩

end Step

/-- Whatever a program does with a pair of iterators, or of reverse iterators, it sees one cursor
in the rows of the series: the two iterators stay together and inside, and no row is lost. -/
theorem walk_isCursor (dir : Direction) (ts : TimeSeries K V) (cmds : List (IteratorCommand K V)) :
    let walk := CommandRuns.run (Walk.execute dir) ⟨ts, ts.cbegin⟩ cmds
    let cursor := CommandRuns.run Cursor.execute ⟨walked dir ts.rows, 0⟩ cmds
    walk.1 = cursor.1.map (Except.map (IteratorReply.map row)) ∧
      walk.2.it = row cursor.2.position ∧ cursor.2.position ≤ ts.size ∧
      walked dir walk.2.series.rows = cursor.2.rows ∧ walk.2.series.size = ts.size := by
  have hstep : ∀ (w : Walk K V) (c : Cursor K V) cmd,
      IsCursor dir w c ∧ c.rows.length = ts.size →
      (w.execute dir cmd).1 = Except.map (IteratorReply.map row) (c.execute cmd).1 ∧
        IsCursor dir (w.execute dir cmd).2 (c.execute cmd).2 ∧
          (c.execute cmd).2.rows.length = ts.size := by
    intro w c cmd h
    obtain ⟨hreply, hnext⟩ := h.1.execute cmd
    exact ⟨hreply, hnext, (c.length_execute cmd).trans h.2⟩
  have hlen : (walked dir ts.rows).length = ts.size := by
    rw [length_walked, TimeSeries.length_rows]
  have hstart : IsCursor dir ⟨ts, ts.cbegin⟩ ⟨walked dir ts.rows, 0⟩ :=
    ⟨rfl, rfl, Nat.zero_le _⟩
  obtain ⟨hreplies, hlast, hsize⟩ := CommandRuns.run_translates hstep ⟨hstart, hlen⟩ cmds
  refine ⟨hreplies, hlast.it, ?_, hlast.rows.symm, ?_⟩
  · rw [← hsize]
    exact hlast.inside
  · rw [← hsize, hlast.length_rows]

/-- The local variables of `print_ts` and `reverse_print_ts`, and what they have written. -/
structure PrintState where
  /-- The iterator `il`. -/
  il : IteratorPair
  /-- The messages written so far. -/
  messages : List String

/-- `PRINT_TEST_MESSAGE`, up to the line break. -/
def printTestMessage (str : String) : String := "MSG! |>" ++ str

/-- The message for a row, with `chrono_to_str` and `to_string` as parameters. -/
def rowMessage (chronoToStr : K → String) (toString : V → String) (r : K × V) : String :=
  printTestMessage (chronoToStr r.1 ++ "|" ++ toString r.2)

/-- The loop of `print_ts`, and over reverse iterators that of `reverse_print_ts`. -/
def printLoop (dir : Direction) (ts : TimeSeries K V) (chronoToStr : K → String)
    (toString : V → String) : WhileLoop Fault PrintState where
  cond s := !s.il.equals ts.cend
  body s := do
    let r ← s.il.dereference dir ts.toContainers
    let messages := s.messages ++ [rowMessage chronoToStr toString r]
    return { il := ← s.il.incr ts.toContainers, messages }

/-- The messages that the loop writes, if there are rows; every iteration moves the iterator, so
the size bounds the run. -/
def printRows (dir : Direction) (ts : TimeSeries K V) (chronoToStr : K → String)
    (toString : V → String) : Except Fault (List String) :=
  if ts.size > 0 then
    ((printLoop dir ts chronoToStr toString).iterate ts.size ⟨ts.cbegin, []⟩).map
      PrintState.messages
  else .ok []

/-- `print_ts` -/
def printTs (ts : TimeSeries K V) (chronoToStr : K → String) (toString : V → String) :
    Except Fault (List String) :=
  printRows .forward ts chronoToStr toString

/-- `reverse_print_ts` -/
def reversePrintTs (ts : TimeSeries K V) (chronoToStr : K → String) (toString : V → String) :
    Except Fault (List String) :=
  printRows .reverse ts chronoToStr toString

section Print

variable {dir : Direction} {ts : TimeSeries K V} {chronoToStr : K → String}
  {toString : V → String}

/-- The messages of the first `i` rows have been written. -/
structure Printed (dir : Direction) (ts : TimeSeries K V) (chronoToStr : K → String)
    (toString : V → String) (s : PrintState) (i : ℕ) : Prop where
  il : s.il = row i
  le_size : i ≤ ts.size
  messages : s.messages =
    ((walked dir ts.rows).take i).map (rowMessage chronoToStr toString)

/-- The loop goes on exactly as long as a row is left. -/
theorem Printed.cond {s : PrintState} {i : ℕ} (h : Printed dir ts chronoToStr toString s i) :
    (printLoop dir ts chronoToStr toString).cond s = true ↔ i < ts.size := by
  have hle := h.le_size
  simp only [printLoop, h.il, cend_eq, equals_row, Bool.not_eq_true', beq_eq_false_iff_ne]
  omega

/-- An iteration writes the message of the next row. -/
theorem Printed.step {s : PrintState} {i : ℕ} (h : Printed dir ts chronoToStr toString s i)
    (hi : i < ts.size) : ∃ s', (printLoop dir ts chronoToStr toString).body s = .ok s' ∧
      Printed dir ts chronoToStr toString s' (i + 1) := by
  have hlen : i < (walked dir ts.rows).length := by
    rwa [length_walked, TimeSeries.length_rows]
  have hr := List.getElem?_eq_getElem hlen
  refine ⟨⟨row (i + 1), s.messages ++ [rowMessage chronoToStr toString (walked dir ts.rows)[i]]⟩,
    ?_, rfl, hi, ?_⟩
  · simp only [printLoop, h.il, dereference_row hr, incr_row hi, bind, Except.bind, pure,
      Except.pure]
  · rw [h.messages, List.take_add_one, hr, Option.toList_some, List.map_append, List.map_singleton]

/-- In either direction the loop writes one message for each row, in the order of the walk, and
then ends. -/
theorem printLoop_returns (dir : Direction) (ts : TimeSeries K V) (chronoToStr : K → String)
    (toString : V → String) :
    ∃ t, (printLoop dir ts chronoToStr toString).iterate ts.size ⟨ts.cbegin, []⟩ = .ok t ∧
      (printLoop dir ts chronoToStr toString).Returns ⟨ts.cbegin, []⟩ t ∧
      t.messages = (walked dir ts.rows).map (rowMessage chronoToStr toString) := by
  have hstep : ∀ s, (∃ i, Printed dir ts chronoToStr toString s i) →
      (printLoop dir ts chronoToStr toString).cond s = true →
      ∃ s', (printLoop dir ts chronoToStr toString).body s = .ok s' ∧
        (∃ i, Printed dir ts chronoToStr toString s' i) ∧
        ts.size - s'.il.first < ts.size - s.il.first := by
    intro s ⟨i, h⟩ hc
    have hi := h.cond.mp hc
    obtain ⟨s', hbody, h'⟩ := h.step hi
    refine ⟨s', hbody, ⟨i + 1, h'⟩, ?_⟩
    rw [h'.il, h.il]
    simp only [row]
    omega
  obtain ⟨t, hrun, hc, i, h⟩ := WhileLoop.iterate_variant_total
    (fun s : PrintState => ts.size - s.il.first) hstep ts.size ⟨ts.cbegin, []⟩
    ⟨0, rfl, Nat.zero_le _, rfl⟩ (Nat.sub_le _ _)
  refine ⟨t, hrun, ⟨_, hrun, hc⟩, ?_⟩
  have hend : ¬ i < ts.size := by
    rw [← h.cond, hc]
    exact Bool.false_ne_true
  rw [h.messages, List.take_of_length_le]
  rw [length_walked, TimeSeries.length_rows]
  exact not_lt.mp hend

/-- `print_ts`, or over reverse iterators `reverse_print_ts`, ends having written the messages. -/
def Prints (dir : Direction) (ts : TimeSeries K V) (chronoToStr : K → String)
    (toString : V → String) (messages : List String) : Prop :=
  if ts.size > 0 then
    ∃ t, (printLoop dir ts chronoToStr toString).Returns ⟨ts.cbegin, []⟩ t ∧
      t.messages = messages
  else messages = []

theorem walked_eq_nil_of_size (h : ¬ ts.size > 0) : walked dir ts.rows = [] := by
  apply List.eq_nil_of_length_eq_zero
  rw [length_walked, TimeSeries.length_rows]
  omega

/-- A series without rows is written as its loop would write it. -/
theorem prints_iff {messages : List String} : Prints dir ts chronoToStr toString messages ↔
    messages = (walked dir ts.rows).map (rowMessage chronoToStr toString) := by
  obtain ⟨t, _, ht, hmsgs⟩ := printLoop_returns dir ts chronoToStr toString
  rw [Prints, ← hmsgs]
  split
  · constructor
    · intro ⟨u, hu, hmessages⟩
      rw [← hmessages, hu.unique ht]
    · exact fun hmessages => ⟨t, ht, hmessages.symm⟩
  · next hempty => rw [hmsgs, walked_eq_nil_of_size hempty, List.map_nil]

theorem printRows_eq : printRows dir ts chronoToStr toString =
    .ok ((walked dir ts.rows).map (rowMessage chronoToStr toString)) := by
  obtain ⟨t, hrun, _, hmsgs⟩ := printLoop_returns dir ts chronoToStr toString
  rw [printRows, hrun, ← hmsgs]
  split
  · rfl
  · next hempty => rw [hmsgs, walked_eq_nil_of_size hempty, List.map_nil]

/-- `print_ts` and `reverse_print_ts` never leave the series and always end; each writes one message
for each row, the one in the order of the rows and the other in the opposite order. -/
theorem prints_reverse (ts : TimeSeries K V) (chronoToStr : K → String) (toString : V → String)
    (messages : List String) :
    (Prints .forward ts chronoToStr toString messages ↔
      messages = ts.rows.map (rowMessage chronoToStr toString)) ∧
    (Prints .reverse ts chronoToStr toString messages ↔
      Prints .forward ts chronoToStr toString messages.reverse) ∧
    (printTs ts chronoToStr toString = .ok messages ↔
      Prints .forward ts chronoToStr toString messages) ∧
    (reversePrintTs ts chronoToStr toString = .ok messages ↔
      Prints .reverse ts chronoToStr toString messages) ∧
    ∀ dir e, ¬ (printLoop dir ts chronoToStr toString).Faults ⟨ts.cbegin, []⟩ e := by
  refine ⟨prints_iff, ?_, ?_, ?_, fun dir e => ?_⟩
  · rw [prints_iff, prints_iff, walked, walked, List.map_reverse, List.reverse_eq_iff]
  · rw [printTs, printRows_eq, prints_iff, Except.ok.injEq, eq_comm]
  · rw [reversePrintTs, printRows_eq, prints_iff, Except.ok.injEq, eq_comm]
  · obtain ⟨t, _, ht, _⟩ := printLoop_returns dir ts chronoToStr toString
    exact ht.not_faults e

end Print

end TimeSeries

end Tspp
