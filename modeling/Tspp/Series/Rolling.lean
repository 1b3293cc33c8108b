import Tspp.Core.RangeLoop
import Tspp.Series.State
import Mathlib.Algebra.Order.Ring.Int
import Mathlib.Data.List.DropRight

/-!
# Rolling windows

`apply_rolling` keeps the last values in a deque. Until the first window is full a row only
fills the deque; then each row first makes room, unless the deque is one short. In all
three phases the deque holds the last values of the rows visited, at most as many as the
window has.
-/

namespace Tspp

variable {K V O : Type}

/-- The local variables of `apply_rolling`. -/
structure RollingState (K V O : Type) where
  /-- The rows emitted so far. -/
  result : TimeSeries K O
  /-- The deque of the last values. -/
  buffer : List V

namespace TimeSeries

/-- `window_size - 1` in `std::size_t`, which wraps around at zero. -/
def sizePred (windowSize : ℕ) : ℕ := if windowSize = 0 then 2 ^ 64 - 1 else windowSize - 1

/-- `buffer.pop_front()`, which needs a value to remove. -/
def popFront : List V → Except Fault (List V)
  | [] => .error .outOfRange
  | _ :: buffer => .ok buffer

/-- A deque that holds a whole window makes room for the next value. -/
def makeRoom (windowSize : ℕ) (buffer : List V) : Except Fault (List V) :=
  if buffer.length = windowSize then popFront buffer else .ok buffer

/-- The body of the loop of `apply_rolling`. -/
def rollingStep (func : List V → O) (windowSize : ℕ) (s : RollingState K V O) (it : K × V) :
    Except Fault (RollingState K V O) := do
  if s.buffer.length < sizePred windowSize ∧ windowSize > 1 then
    return { s with buffer := s.buffer ++ [it.2] }
  else
    let buffer := (← makeRoom windowSize s.buffer) ++ [it.2]
    let eval := func buffer
    return { result := s.result.insertEnd (it.1, eval), buffer }

/-- `apply_rolling` -/
def applyRolling (ts : TimeSeries K V) (func : List V → O) (windowSize : ℕ) :
    Except Fault (TimeSeries K O) := do
  if windowSize > ts.size then
    return .empty
  let s ← ts.rows.foldlM (rollingStep func windowSize) ⟨.empty, []⟩
  return s.result

/-- Removing the first of the last `m + 1` values leaves the last `m`. -/
theorem popFront_rtake {values : List V} {m : ℕ} (h : m < values.length) :
    popFront (values.rtake (m + 1)) = .ok (values.rtake m) := by
  unfold List.rtake
  have hdrop : values.length - m = values.length - (m + 1) + 1 := by omega
  rw [hdrop, List.drop_eq_getElem_cons (by omega : values.length - (m + 1) < values.length)]
  rfl

/-- A list no longer than the window is kept whole. -/
theorem rtake_of_length_le {values : List V} {m : ℕ} (h : values.length ≤ m) :
    values.rtake m = values := by
  rw [List.rtake, Nat.sub_eq_zero_of_le h, List.drop_zero]

theorem length_rtake (values : List V) (m : ℕ) :
    (values.rtake m).length = min m values.length := by
  rw [List.rtake, List.length_drop]
  omega

/-- Whether or not the deque is full, it keeps one value less than the window has. -/
theorem makeRoom_rtake {values : List V} {m : ℕ} (h : m ≤ values.length) :
    makeRoom (m + 1) (values.rtake (m + 1)) = .ok (values.rtake m) := by
  unfold makeRoom
  rw [length_rtake]
  by_cases hfull : m < values.length
  · rw [if_pos (by omega), popFront_rtake hfull]
  · rw [if_neg (by omega), rtake_of_length_le (by omega), rtake_of_length_le (by omega)]

/-- The last values of the first `i + w` are the `w` values from position `i` on. -/
theorem rtake_take {values : List V} {i w : ℕ} (h : i + w ≤ values.length) :
    (values.take (i + w)).rtake w = (values.drop i).take w := by
  rw [List.rtake, List.length_take_of_le h, Nat.add_sub_cancel, List.drop_take,
    Nat.add_sub_cancel_left]

/-- After the rows `visited` the deque holds their last values, and the result has one row
for each window that they fill. -/
structure RollingInvariant (func : List V → O) (w : ℕ) (visited : List (K × V))
    (s : RollingState K V O) : Prop where
  buffer : s.buffer = (visited.map Prod.snd).rtake w
  size : s.result.size = visited.length + 1 - w
  rows : ∀ i k v, i + w ≤ visited.length → visited[i + w - 1]? = some (k, v) →
    s.result.rows[i]? = some (k, func (((visited.map Prod.snd).take (i + w)).rtake w))

variable {func : List V → O}

/-- Before the first window is full, a row only fills the deque. -/
theorem rollingStep_fill {m : ℕ} {s : RollingState K V O} (it : K × V) (h : s.buffer.length < m) :
    rollingStep func (m + 1) s it = .ok { s with buffer := s.buffer ++ [it.2] } := by
  have hfill : s.buffer.length < sizePred (m + 1) ∧ m + 1 > 1 := by
    rw [sizePred, if_neg (Nat.succ_ne_zero m)]
    omega
  rw [rollingStep, if_pos hfill]
  rfl

/-- Once the deque is at most one value short, a row ends a window. -/
theorem rollingStep_emit {m : ℕ} {values : List V} {s : RollingState K V O} (it : K × V)
    (hs : s.buffer = values.rtake (m + 1)) (h : m ≤ values.length) :
    rollingStep func (m + 1) s it = .ok
      { result := s.result.insertEnd (it.1, func (values.rtake m ++ [it.2]))
        buffer := values.rtake m ++ [it.2] } := by
  have hlen : s.buffer.length = min (m + 1) values.length := by rw [hs, length_rtake]
  have hfill : ¬ (s.buffer.length < sizePred (m + 1) ∧ m + 1 > 1) := by
    rw [sizePred, if_neg (Nat.succ_ne_zero m)]
    omega
  rw [rollingStep, if_neg hfill, hs, makeRoom_rtake h]
  rfl

/-- A row that is not yet the end of a window keeps the invariant. -/
theorem RollingInvariant.fill {m : ℕ} {visited : List (K × V)} {s : RollingState K V O}
    (h : RollingInvariant func (m + 1) visited s) (it : K × V) (hlen : visited.length < m) :
    RollingInvariant func (m + 1) (visited ++ [it]) { s with buffer := s.buffer ++ [it.2] } := by
  have hlen' : (visited ++ [it]).length = visited.length + 1 := List.length_append
  constructor
  · rw [h.buffer, rtake_of_length_le (by rw [List.length_map]; omega),
      rtake_of_length_le (by rw [List.length_map]; omega), List.map_append]
    rfl
  · have hsize := h.size
    simp only
    omega
  · intro i k v hi
    omega

/-- A row that ends a window keeps the invariant. -/
theorem RollingInvariant.emit {m : ℕ} {visited : List (K × V)} {s : RollingState K V O}
    (h : RollingInvariant func (m + 1) visited s) (it : K × V) (hlen : m ≤ visited.length) :
    RollingInvariant func (m + 1) (visited ++ [it])
      { result := s.result.insertEnd
          (it.1, func ((visited.map Prod.snd).rtake m ++ [it.2]))
        buffer := (visited.map Prod.snd).rtake m ++ [it.2] } := by
  have hlen' : (visited ++ [it]).length = visited.length + 1 := List.length_append
  have hvalues : (visited ++ [it]).map Prod.snd = visited.map Prod.snd ++ [it.2] :=
    List.map_append
  have hsize := h.size
  constructor
  · rw [hvalues, List.rtake_concat_succ]
  · rw [size_insertEnd, hsize]
    omega
  · intro i k v hi hrow
    rw [rows_insertEnd]
    by_cases hnew : i + (m + 1) ≤ visited.length
    · rw [List.getElem?_append_left (by omega)] at hrow
      rw [List.getElem?_append_left (by rw [length_rows]; omega), h.rows i k v hnew hrow, hvalues,
        List.take_append_of_le_length (by rwa [List.length_map])]
    · -- The window ends at the new row, and the row emitted for it is the last one.
      have hi' : i + (m + 1) - 1 = visited.length := by omega
      rw [hi', List.getElem?_concat_length] at hrow
      cases hrow
      have hlast : i = s.result.rows.length := by
        rw [length_rows]
        omega
      rw [hlast, List.getElem?_concat_length, ← hlast, List.take_of_length_le, hvalues,
        List.rtake_concat_succ]
      rw [List.length_map]
      omega

/-- Every row keeps the invariant, and no row makes the loop fault. -/
theorem rollingStep_invariant {m : ℕ} (visited : List (K × V)) (it : K × V)
    (s : RollingState K V O) (h : RollingInvariant func (m + 1) visited s) :
    ∃ t, rollingStep func (m + 1) s it = .ok t ∧
      RollingInvariant func (m + 1) (visited ++ [it]) t := by
  by_cases hlen : visited.length < m
  · refine ⟨_, rollingStep_fill it ?_, h.fill it hlen⟩
    rw [h.buffer, length_rtake, List.length_map]
    omega
  · refine ⟨_, rollingStep_emit it h.buffer ?_, h.emit it (not_lt.mp hlen)⟩
    rw [List.length_map]
    omega

/-- Before the first row no window is full. -/
theorem rollingInvariant_start (func : List V → O) (m : ℕ) :
    RollingInvariant func (m + 1) ([] : List (K × V)) ⟨.empty, []⟩ := by
  refine ⟨(List.rtake_nil _).symm, ?_, ?_⟩
  · rw [List.length_nil, Nat.sub_eq_zero_of_le (by omega)]
    rfl
  · intro i k v hi
    rw [List.length_nil] at hi
    omega

/-- With a window of at least one value `apply_rolling` never fails: it returns nothing for a
window longer than the series, and what the loop emits otherwise. -/
theorem exists_applyRolling (ts : TimeSeries K V) (func : List V → O) (m : ℕ) :
    ∃ result, ts.applyRolling func (m + 1) = .ok result ∧
      (m + 1 > ts.size → result = .empty) ∧
      (m + 1 ≤ ts.size → ∃ s, result = s.result ∧ RollingInvariant func (m + 1) ts.rows s) := by
  unfold applyRolling
  by_cases hsize : m + 1 > ts.size
  · rw [if_pos hsize]
    exact ⟨.empty, rfl, fun _ => rfl, fun hle => absurd hle (not_le.mpr hsize)⟩
  · obtain ⟨s, hok, hs⟩ := RangeLoop.exists_ok (RollingInvariant func (m + 1))
      rollingStep_invariant ts.rows (rollingInvariant_start func m)
    rw [if_neg hsize, hok]
    exact ⟨s.result, rfl, fun hgt => absurd hgt hsize, fun _ => ⟨s, rfl, hs⟩⟩

/-- The rows of `apply_rolling` carry a part of the keys. -/
theorem keys_sublist_of_applyRolling {ts : TimeSeries K V} {windowSize : ℕ}
    {result : TimeSeries K O} (h : ts.applyRolling func windowSize = .ok result) :
    result.keys.Sublist ts.keys := by
  unfold applyRolling at h
  by_cases hsize : windowSize > ts.size
  · rw [if_pos hsize] at h
    cases h
    exact List.nil_sublist _
  rw [if_neg hsize] at h
  obtain ⟨s, hloop, hresult⟩ := RangeLoop.exists_of_bind_eq_ok h
  cases hresult
  rw [← map_fst_rows ts]
  refine RangeLoop.sublist_of_ok Prod.fst (fun s : RollingState K V O => s.result.keys) ?_ rfl hloop
  intro it a b hstep
  unfold rollingStep at hstep
  split at hstep
  · cases hstep
    exact Or.inl rfl
  · obtain ⟨buffer, _, hb⟩ := RangeLoop.exists_of_bind_eq_ok hstep
    cases hb
    exact Or.inr rfl

/-- `apply_rolling` has a row for every window, with the key of the last row of the window
and the function of its values. -/
theorem applyRolling_windows (ts : TimeSeries K V) (func : List V → O) (windowSize : ℕ)
    (hw : 1 ≤ windowSize) :
    ∃ result, ts.applyRolling func windowSize = .ok result ∧
      result.size = (if windowSize > ts.size then 0 else ts.size - windowSize + 1) ∧
      ∀ i k, i + windowSize ≤ ts.size → ts.keys[i + windowSize - 1]? = some k →
        result.rows[i]? = some (k, func ((ts.values.drop i).take windowSize)) := by
  obtain ⟨m, rfl⟩ := Nat.exists_eq_add_of_le' hw
  obtain ⟨result, hok, hempty, hloop⟩ := exists_applyRolling ts func m
  refine ⟨result, hok, ?_, ?_⟩
  · by_cases hsize : m + 1 > ts.size
    · rw [if_pos hsize, hempty hsize]
      rfl
    · obtain ⟨s, rfl, hs⟩ := hloop (not_lt.mp hsize)
      rw [if_neg hsize, hs.size, length_rows]
      omega
  · intro i k hi hk
    obtain ⟨s, rfl, hs⟩ := hloop (by omega)
    obtain ⟨v, hrow⟩ := exists_row_of_key hk
    rw [hs.rows i k v (by rwa [length_rows]) hrow, map_snd_rows,
      rtake_take (by rwa [length_values])]

/-- Windows of two over three values. -/
theorem applyRolling_windows_two :
    ∃ result, (ofRows [((10 : ℤ), (1 : ℤ)), (20, 2), (30, 4)]).applyRolling List.sum 2 =
        .ok result ∧
      result.size = 2 ∧ result.rows[0]? = some (20, 3) ∧ result.rows[1]? = some (30, 6) := by
  obtain ⟨result, hok, hsize, hrows⟩ :=
    applyRolling_windows (ofRows [((10 : ℤ), (1 : ℤ)), (20, 2), (30, 4)]) List.sum 2 (by decide)
  exact ⟨result, hok, hsize, hrows 0 20 (by decide) rfl, hrows 1 30 (by decide) rfl⟩

/-- The deque that the body of the loop passes to `func`, if it calls it. -/
def rollingArgument (windowSize : ℕ) (buffer : List V) (value : V) :
    Except Fault (Option (List V)) :=
  if buffer.length < sizePred windowSize ∧ windowSize > 1 then .ok none
  else (makeRoom windowSize buffer).map fun buffer => some (buffer ++ [value])

/-- The body of the loop faults exactly where its deque does, and calls `func` for its argument. -/
theorem rollingStep_eq (func : List V → O) (windowSize : ℕ) (s : RollingState K V O)
    (it : K × V) : rollingStep func windowSize s it =
      (rollingArgument windowSize s.buffer it.2).map fun
        | none => { s with buffer := s.buffer ++ [it.2] }
        | some buffer => { result := s.result.insertEnd (it.1, func buffer), buffer } := by
  unfold rollingStep rollingArgument
  split
  · rfl
  · cases makeRoom windowSize s.buffer <;> rfl

/-- In every state that the loop reaches, the next row pops no empty deque, and if it calls
`func`, then with `windowSize` values. -/
def RollingSafe (ts : TimeSeries K V) (func : List V → O) (windowSize : ℕ) : Prop :=
  ∀ visited it rest s, windowSize ≤ ts.size → ts.rows = visited ++ it :: rest →
    visited.foldlM (rollingStep func windowSize) ⟨.empty, []⟩ = .ok s →
    (∃ s', rollingStep func windowSize s it = .ok s') ∧
      ∀ buffer, rollingArgument windowSize s.buffer it.2 = .ok (some buffer) →
        buffer.length = windowSize

/-- The argument of `func` is the last values together with the new one. -/
theorem rollingArgument_rtake {values : List V} {m : ℕ} (value : V) :
    rollingArgument (m + 1) (values.rtake (m + 1)) value =
      .ok (if values.length < m then none else some (values.rtake m ++ [value])) := by
  unfold rollingArgument
  rw [length_rtake, sizePred, if_neg (Nat.succ_ne_zero m)]
  by_cases hfill : values.length < m
  · rw [if_pos (by omega), if_pos hfill]
  · rw [if_neg (by omega), if_neg hfill, makeRoom_rtake (by omega)]
    rfl

/-- A state that the loop reaches satisfies the invariant. -/
theorem rollingInvariant_of_reached {m : ℕ} {visited : List (K × V)} {s : RollingState K V O}
    (h : visited.foldlM (rollingStep func (m + 1)) ⟨.empty, []⟩ = .ok s) :
    RollingInvariant func (m + 1) visited s := by
  obtain ⟨t, ht, hinv⟩ := RangeLoop.exists_ok (RollingInvariant func (m + 1))
    rollingStep_invariant visited (rollingInvariant_start func m)
  rwa [Except.ok.inj (h.symm.trans ht)]

/-- The loop of `apply_rolling` is safe exactly for windows of at least one value, and for every
window over a series without rows. -/
theorem rollingSafe_iff (ts : TimeSeries K V) (func : List V → O) (windowSize : ℕ) :
    RollingSafe ts func windowSize ↔ 1 ≤ windowSize ∨ ts.size = 0 := by
  constructor
  · intro hsafe
    by_contra hbad
    obtain rfl : windowSize = 0 := by omega
    obtain ⟨k, v, hrow⟩ := exists_row (show 0 < ts.size by omega)
    have hrows : ts.rows = [] ++ (k, v) :: ts.rows.drop 1 := drop_rows hrow
    obtain ⟨⟨s', hstep⟩, _⟩ := hsafe [] (k, v) _ _ (Nat.zero_le _) hrows rfl
    cases hstep
  · intro h visited it rest s _ hrows hreached
    rcases h with hw | hempty
    · obtain ⟨m, rfl⟩ := Nat.exists_eq_add_of_le' hw
      rw [rollingStep_eq, (rollingInvariant_of_reached hreached).buffer, rollingArgument_rtake]
      refine ⟨⟨_, rfl⟩, fun buffer hbuffer => ?_⟩
      split at hbuffer
      · cases hbuffer
      · cases hbuffer
        rw [List.length_append, length_rtake, List.length_singleton]
        omega
    · have hlen := congrArg List.length hrows
      rw [length_rows, hempty, List.length_append, List.length_cons] at hlen
      omega

/-- A window of no values pops the empty deque at the first row. -/
theorem not_rollingSafe_zero :
    ¬ RollingSafe (ofRows [((1 : ℤ), (10 : ℤ))]) List.sum 0 ∧
      (ofRows [((1 : ℤ), (10 : ℤ))]).applyRolling List.sum 0 = .error .outOfRange := by
  refine ⟨fun hsafe => ?_, rfl⟩
  obtain ⟨⟨s', hstep⟩, _⟩ := hsafe [] (1, 10) [] _ (by decide) rfl rfl
  cases hstep

end TimeSeries

end Tspp
