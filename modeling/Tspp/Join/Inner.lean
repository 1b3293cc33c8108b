import Tspp.Join.Cursor
import Tspp.Series.Lookup

/-!
# The inner merge join

`cross_apply_inner` moves the cursor with the smaller key and emits a row where the
keys meet. The rows it emits from two suffixes are their inner merge, so that the
result is described key by key, repeated keys included.
-/

namespace Tspp

variable {K V W O : Type} [LinearOrder K]

namespace TimeSeries

/-- The loop of `cross_apply_inner`. -/
def crossApplyInnerLoop (left : TimeSeries K V) (other : TimeSeries K W) (func : V → W → O) :
    WhileLoop Fault (JoinState K O) where
  cond s := s.il != left.cend && s.ir != other.cend
  body s := do
    let l ← s.il.deref left.toContainers
    let r ← s.ir.deref other.toContainers
    if l.1 < r.1 then
      return { s with il := ← s.il.incr left.toContainers }
    else if r.1 < l.1 then
      return { s with ir := ← s.ir.incr other.toContainers }
    else
      return {
        il := ← s.il.incr left.toContainers
        ir := ← s.ir.incr other.toContainers
        result := s.result.insertEnd (l.1, func l.2 r.2) }

/-- `cross_apply_inner`; every iteration moves a cursor, so the sizes bound the run. -/
def crossApplyInner (left : TimeSeries K V) (other : TimeSeries K W) (func : V → W → O) :
    Except Fault (TimeSeries K O) :=
  ((crossApplyInnerLoop left other func).iterate (left.size + other.size)
    (.start left other)).map JoinState.result

section Inner

variable {left : TimeSeries K V} {other : TimeSeries K W} {func : V → W → O}

theorem crossApplyInnerLoop_cond (left : TimeSeries K V) (other : TimeSeries K W)
    (func : V → W → O) (i j : ℕ) (res : TimeSeries K O) :
    (crossApplyInnerLoop left other func).cond (.atRows i j res) = true ↔
      i ≠ left.size ∧ j ≠ other.size := by
  simp [crossApplyInnerLoop, JoinState.atRows, cend_eq]

/-- One iteration at two existing rows: the smaller key moves, equal keys emit a row. -/
theorem crossApplyInnerLoop_body (func : V → W → O) {i j : ℕ} {l : K × V} {r : K × W}
    (res : TimeSeries K O) (hl : left.rows[i]? = some l) (hr : other.rows[j]? = some r) :
    (crossApplyInnerLoop left other func).body (.atRows i j res) = .ok
      (if l.1 < r.1 then .atRows (i + 1) j res
      else if r.1 < l.1 then .atRows i (j + 1) res
      else .atRows (i + 1) (j + 1) (res.insertEnd (l.1, func l.2 r.2))) := by
  simp only [crossApplyInnerLoop, JoinState.atRows, deref_row hl, deref_row hr,
    incr_row (lt_size_of_row hl), incr_row (lt_size_of_row hr), bind, Except.bind, pure,
    Except.pure]
  split
  · rfl
  · split <;> rfl

/-- The loop emits the inner merge of the remaining suffixes, and never faults. -/
theorem crossApplyInnerLoop_emitsRest (left : TimeSeries K V) (other : TimeSeries K W)
    (func : V → W → O) : EmitsRest (crossApplyInnerLoop left other func) left other
      fun as bs => some (KeyedRows.innerMerge func as bs) := by
  constructor
  · intro i j res hi hj hc
    have hend : ¬ (i ≠ left.size ∧ j ≠ other.size) := by
      rw [← crossApplyInnerLoop_cond left other func i j res, hc]
      exact Bool.false_ne_true
    by_cases hil : i = left.size
    · rw [drop_size_rows (Nat.le_of_eq hil.symm), KeyedRows.innerMerge_nil_left]
    · have hjr : j = other.size := by omega
      rw [drop_size_rows (Nat.le_of_eq hjr.symm), KeyedRows.innerMerge_nil_right]
  · intro i j res hi hj hc
    rw [crossApplyInnerLoop_cond] at hc
    right
    obtain ⟨a, v, hl⟩ := exists_row (show i < left.size by omega)
    obtain ⟨b, w, hr⟩ := exists_row (show j < other.size by omega)
    have hbody := crossApplyInnerLoop_body func res hl hr
    rw [drop_rows hl, drop_rows hr]
    rcases lt_trichotomy a b with hlt | rfl | hgt
    · simp only [hlt, ite_true] at hbody
      refine ⟨i + 1, j, res, hbody, by omega, hj, by omega, ?_⟩
      rw [KeyedRows.innerMerge_of_lt hlt, drop_rows hr]
    · simp only [lt_irrefl, ite_false] at hbody
      refine ⟨i + 1, j + 1, _, hbody, by omega, by omega, by omega, ?_⟩
      rw [KeyedRows.innerMerge_of_eq]
      simp
    · simp only [not_lt_of_gt hgt, hgt, ite_true, ite_false] at hbody
      refine ⟨i, j + 1, res, hbody, hi, by omega, by omega, ?_⟩
      rw [KeyedRows.innerMerge_of_gt hgt, drop_rows hl]

/-- `cross_apply_inner` never faults, and its result is what its loop returns. -/
theorem crossApplyInner_returns (left : TimeSeries K V) (other : TimeSeries K W)
    (func : V → W → O) :
    ∃ t, (crossApplyInnerLoop left other func).Returns (.start left other) t ∧
      crossApplyInner left other func = .ok t.result ∧
      t.result.rows = KeyedRows.innerMerge func left.rows other.rows := by
  rcases (crossApplyInnerLoop_emitsRest left other func).fate with
    ⟨t, ht, hc, hrows⟩ | ⟨_, hnone⟩
  · refine ⟨t, ⟨_, ht, hc⟩, ?_, (Option.some.inj hrows).symm⟩
    rw [crossApplyInner, ht]
    rfl
  · cases hnone

/-- The join merges the rows, and never fails. -/
theorem crossApplyInner_eq (left : TimeSeries K V) (other : TimeSeries K W) (func : V → W → O) :
    ∃ result, crossApplyInner left other func = .ok result ∧
      result.rows = KeyedRows.innerMerge func left.rows other.rows :=
  let ⟨t, _, hok, hrows⟩ := crossApplyInner_returns left other func
  ⟨t.result, hok, hrows⟩

end Inner

/-- The left rows whose key `try_at` finds on the right, combined with the value found. -/
def rowsFoundAt (toInt : ℤ → ℤ) (left : TimeSeries K V) (other : TimeSeries K W)
    (func : V → W → O) : List (K × O) :=
  left.rows.filterMap fun r =>
    match other.tryAt toInt r.1 with
    | .ok (some w) => some (r.1, func r.2 w)
    | _ => none

/-- Wherever the key of a left row is a key on the right, the position of the low 32 bits of its
position there holds a value that combines to the same. -/
def KeepsMatches (left : TimeSeries K V) (other : TimeSeries K W) (func : V → W → O) : Prop :=
  ∀ k v p w, (k, v) ∈ left.rows → other.rows[p]? = some (k, w) →
    p % 2 ^ 32 < 2 ^ 31 ∧ ∃ w', other.values[p % 2 ^ 32]? = some w' ∧ func v w' = func v w

section Found

variable {left : TimeSeries K V} {other : TimeSeries K W} {func : V → W → O}

omit [LinearOrder K] in
/-- An `int` that counts the right rows keeps all matches. -/
theorem keepsMatches_of_size_le (hsize : other.size ≤ 2 ^ 31) : KeepsMatches left other func := by
  intro k v p w _ hp
  have hlt := lt_size_of_row hp
  rw [Nat.mod_eq_of_lt (by omega)]
  exact ⟨by omega, w, (getElem?_rows_eq_some.mp hp).2, rfl⟩

/-- For one left row `try_at` and the rows agree exactly if the match of the row is kept. -/
theorem lookup_eq_tryAt_int32_iff (h : other.StrictlyIncreasing) (k : K) (v : V) :
    ((other.rows.lookup k).map fun w => (k, func v w)) =
        (match other.tryAt int32 k with
        | .ok (some w) => some (k, func v w)
        | _ => none) ↔
      ∀ p w, other.rows[p]? = some (k, w) →
        p % 2 ^ 32 < 2 ^ 31 ∧ ∃ w', other.values[p % 2 ^ 32]? = some w' ∧ func v w' = func v w := by
  have hrows := other.strictlyIncreasing_iff_rows.mp h
  by_cases hk : k ∈ other.keys
  · obtain ⟨i, hi⟩ := List.mem_iff_getElem?.mp hk
    obtain ⟨u, hrow⟩ := exists_row_of_key hi
    have hlookup := (hrows.lookup_eq_some k u).mpr (List.mem_of_getElem? hrow)
    have honly : ∀ p w, other.rows[p]? = some (k, w) → p = i ∧ w = u := by
      intro p w hp
      have hpos := SortedKeys.position_unique h (getElem?_rows_eq_some.mp hp).1 hi
      exact ⟨hpos, hrows.value_unique (List.mem_of_getElem? hp) (List.mem_of_getElem? hrow)⟩
    rw [tryAt_int32_of_row h hrow, hlookup]
    cases hget : other.getValue (int32 i) with
    | error e =>
      constructor
      · rintro ⟨⟩
      · intro hkept
        obtain ⟨hlow, w', hw', _⟩ := hkept i u hrow
        rw [getValue_int32_eq_ok_iff.mpr ⟨hlow, hw'⟩] at hget
        cases hget
    | ok w' =>
      obtain ⟨hlow, hw'⟩ := getValue_int32_eq_ok_iff.mp hget
      constructor
      · intro heq p w hp
        obtain ⟨rfl, rfl⟩ := honly p w hp
        exact ⟨hlow, w', hw', (Prod.ext_iff.mp (Option.some.inj heq)).2.symm⟩
      · intro hkept
        obtain ⟨_, w'', hw'', hsame⟩ := hkept i u hrow
        obtain rfl := Option.some.inj (hw'.symm.trans hw'')
        exact congrArg (fun o => some (k, o)) hsame.symm
  · rw [tryAt_of_notMem int32 h.nonDecreasing hk, lookup_of_notMem hk]
    refine iff_of_true rfl fun p w hp => ?_
    exact absurd (mem_keys_of_mem_rows (List.mem_of_getElem? hp)) hk

/-- On strictly increasing keys the merged rows are those that `try_at` finds exactly if every
match is kept. -/
theorem innerMerge_eq_rowsFoundAt_iff (hl : left.StrictlyIncreasing)
    (ho : other.StrictlyIncreasing) (func : V → W → O) :
    KeyedRows.innerMerge func left.rows other.rows = rowsFoundAt int32 left other func ↔
      KeepsMatches left other func := by
  have hlr := left.strictlyIncreasing_iff_rows.mp hl
  rw [KeyedRows.innerMerge_eq_filterMap func hlr (other.strictlyIncreasing_iff_rows.mp ho),
    rowsFoundAt, hlr.filterMap_eq_iff]
  · constructor
    · intro hall k v p w hrow
      exact (lookup_eq_tryAt_int32_iff ho k v).mp (hall (k, v) hrow) p w
    · rintro hkeeps ⟨k, v⟩ hrow
      exact (lookup_eq_tryAt_int32_iff ho k v).mpr fun p w => hkeeps k v p w hrow
  · intro r s hs
    obtain ⟨w, _, rfl⟩ := Option.map_eq_some_iff.mp hs
    rfl
  · intro r s hs
    split at hs
    · cases hs
      rfl
    · cases hs

end Found

/-- The inner join is exact on ordered keys, repeated keys included: under every key it
pairs the left and the right values off in order, and it has no other rows. On strictly
increasing keys it lists the left rows whose key `try_at` finds on the right exactly if every
match is kept. -/
theorem crossApplyInner_exact_iff (a : TimeSeries K V) (b : TimeSeries K W) (func : V → W → O)
    (ha : a.NonDecreasing) (hb : b.NonDecreasing) :
    ∃ result, crossApplyInner a b func = .ok result ∧
      (∃ t, (crossApplyInnerLoop a b func).Returns (.start a b) t ∧ t.result = result) ∧
      result.NonDecreasing ∧
      (∀ k, (KeyedRows.valuesAt k result.rows).length =
          min (KeyedRows.valuesAt k a.rows).length (KeyedRows.valuesAt k b.rows).length ∧
        ∀ (j : ℕ) v w, (KeyedRows.valuesAt k a.rows)[j]? = some v →
          (KeyedRows.valuesAt k b.rows)[j]? = some w →
          (KeyedRows.valuesAt k result.rows)[j]? = some (func v w)) ∧
      (a.StrictlyIncreasing → b.StrictlyIncreasing →
        (result.rows = rowsFoundAt int32 a b func ↔ KeepsMatches a b func)) := by
  obtain ⟨t, ht, hok, hrows⟩ := crossApplyInner_returns a b func
  have har := a.nonDecreasing_iff_rows.mp ha
  have hbr := b.nonDecreasing_iff_rows.mp hb
  refine ⟨t.result, hok, ⟨t, ht, rfl⟩, ?_, ?_, ?_⟩
  · rw [nonDecreasing_iff_rows, hrows]
    exact KeyedRows.innerMerge_nonDecreasing func b.rows har
  · intro k
    rw [hrows, KeyedRows.valuesAt_innerMerge func har hbr]
    refine ⟨List.length_zipWith, ?_⟩
    intro j v w hv hw
    rw [List.getElem?_zipWith, hv, hw]
  · intro hsa hsb
    rw [hrows]
    exact innerMerge_eq_rowsFoundAt_iff hsa hsb func

/-- Repeated keys on both sides, and the rows found where the keys increase strictly. -/
theorem crossApplyInner_exact_iff_repeated :
    (∃ result, crossApplyInner (ofRows [((1 : ℤ), 10), (1, 11), (2, 20)])
        (ofRows [((1 : ℤ), 5), (2, 6), (2, 7)]) (fun v w : ℤ => v + w) = .ok result ∧
      result.NonDecreasing ∧ (KeyedRows.valuesAt 2 result.rows).length = 1 ∧
      (KeyedRows.valuesAt 2 result.rows)[0]? = some 26) ∧
    ∃ result, crossApplyInner (ofRows [((1 : ℤ), 10), (2, 20)]) (ofRows [((2 : ℤ), 5), (3, 6)])
        (fun v w : ℤ => v + w) = .ok result ∧
      result.rows = rowsFoundAt int32 (ofRows [((1 : ℤ), 10), (2, 20)])
        (ofRows [((2 : ℤ), 5), (3, 6)]) (fun v w : ℤ => v + w) := by
  constructor
  · obtain ⟨result, hok, _, hord, hvals, _⟩ :=
      crossApplyInner_exact_iff (ofRows [((1 : ℤ), 10), (1, 11), (2, 20)])
        (ofRows [((1 : ℤ), 5), (2, 6), (2, 7)]) (fun v w : ℤ => v + w) (by decide) (by decide)
    obtain ⟨hlen, hget⟩ := hvals 2
    refine ⟨result, hok, hord, ?_, ?_⟩
    · rw [hlen]
      rfl
    · exact hget 0 20 6 rfl rfl
  · obtain ⟨result, hok, _, _, _, hfound⟩ :=
      crossApplyInner_exact_iff (ofRows [((1 : ℤ), 10), (2, 20)])
        (ofRows [((2 : ℤ), 5), (3, 6)]) (fun v w : ℤ => v + w) (by decide) (by decide)
    exact ⟨result, hok, (hfound (by decide) (by decide)).mpr (keepsMatches_of_size_le (by decide))⟩

/-- The match in the first row that an `int` cannot count is emitted but not found. -/
theorem not_rowsFoundAt_countingSeries :
    (countingSeries (2 ^ 31 + 1)).StrictlyIncreasing ∧
      ¬ ∃ result, crossApplyInner (countingSeries (2 ^ 31 + 1)) (countingSeries (2 ^ 31 + 1))
          (· + ·) = .ok result ∧
        result.rows = rowsFoundAt int32 (countingSeries (2 ^ 31 + 1))
          (countingSeries (2 ^ 31 + 1)) (· + ·) := by
  have hinc := countingSeries_increasing (2 ^ 31 + 1)
  refine ⟨hinc, ?_⟩
  rintro ⟨result, hok, hfound⟩
  obtain ⟨t, _, hok', hrows⟩ := crossApplyInner_returns (countingSeries (2 ^ 31 + 1))
    (countingSeries (2 ^ 31 + 1)) ((· + ·) : ℤ → ℤ → ℤ)
  obtain rfl := Except.ok.inj (hok.symm.trans hok')
  rw [hrows] at hfound
  have hkeeps := (innerMerge_eq_rowsFoundAt_iff hinc hinc _).mp hfound
  obtain ⟨v, hrow⟩ := exists_row_of_key (getElem?_keys_countingSeries (Nat.lt_add_one (2 ^ 31)))
  have hlow := (hkeeps _ v (2 ^ 31) v (List.mem_of_getElem? hrow) hrow).1
  omega

end TimeSeries

end Tspp
