import Tspp.Series.Rolling
import Tspp.Series.Shift

/-!
# The windows of a series

With a window of at least one value `apply_rolling` gives every window of the values its
aggregate, under the key of its last row. What it does together with other operations is then
a matter of windows alone: windows of windows, windows of a prefix, windows of differences.
-/

namespace Tspp

/-- The stretches of `w` neighbouring elements, in order. -/
def windows {α : Type} (w : ℕ) (xs : List α) : List (List α) :=
  (List.range (xs.length + 1 - w)).map fun i => window xs i w

section Windows

variable {α β : Type} {w i : ℕ} {xs : List α}

@[simp] theorem length_windows (w : ℕ) (xs : List α) :
    (windows w xs).length = xs.length + 1 - w := by
  rw [windows, List.length_map, List.length_range]

/-- The window at a position that leaves room for it. -/
theorem getElem?_windows (h : i < xs.length + 1 - w) :
    (windows w xs)[i]? = some (window xs i w) := by
  rw [windows, List.getElem?_map, List.getElem?_range h, Option.map_some]

/-- A window holds the elements at its positions. -/
theorem mem_window {start len : ℕ} {x : α} :
    x ∈ window xs start len ↔ ∃ t, start ≤ t ∧ t < start + len ∧ xs[t]? = some x := by
  rw [window, List.mem_iff_getElem?]
  constructor
  · rintro ⟨j, hj⟩
    rw [List.getElem?_take, List.getElem?_drop] at hj
    split at hj
    · exact ⟨start + j, by omega, by omega, hj⟩
    · cases hj
  · rintro ⟨t, hle, hlt, ht⟩
    refine ⟨t - start, ?_⟩
    rw [List.getElem?_take_of_lt (by omega), List.getElem?_drop, Nat.add_sub_cancel' hle, ht]

/-- A window of mapped elements is the window, mapped. -/
theorem window_map (f : α → β) (xs : List α) (start len : ℕ) :
    window (xs.map f) start len = (window xs start len).map f := by
  rw [window, window, List.map_take, List.map_drop]

/-- A window that grows by one element. -/
theorem window_succ {start len : ℕ} {x : α} (hx : xs[start + len]? = some x) :
    window xs start (len + 1) = window xs start len ++ [x] := by
  rw [window, window, List.take_add_one, List.getElem?_drop, hx, Option.toList_some]

/-- Elements that are added behind the others change no window. -/
theorem window_append {start len : ℕ} (h : start + len ≤ xs.length) (ys : List α) :
    window (xs ++ ys) start len = window xs start len := by
  rw [window, window, List.drop_append_of_le_length (by omega),
    List.take_append_of_le_length (by rw [List.length_drop]; omega)]

/-- Elements that are added behind the others only add windows. -/
theorem windows_extend (w : ℕ) (xs ys : List α) : windows w xs <+: windows w (xs ++ ys) := by
  rw [List.prefix_iff_eq_take, length_windows, windows, windows, ← List.map_take,
    List.take_range, List.length_append, Nat.min_eq_left (by omega)]
  apply List.map_congr_left
  intro i hi
  have hlt := List.mem_range.mp hi
  rw [window_append (by omega)]

/-- The windows of the elements from a position on are the windows from that position on. -/
theorem windows_drop (hw : 1 ≤ w) (m : ℕ) (xs : List α) :
    windows w (xs.drop m) = (windows w xs).drop m := by
  apply List.ext_getElem?
  intro i
  rw [List.getElem?_drop]
  have hlen : (xs.drop m).length = xs.length - m := List.length_drop
  by_cases hi : i < (xs.drop m).length + 1 - w
  · rw [getElem?_windows hi, getElem?_windows (by omega), window, window, List.drop_drop]
  · rw [List.getElem?_eq_none (by rw [length_windows]; omega), List.getElem?_eq_none]
    rw [length_windows]
    omega

/-- The windows of the first elements are the first windows. -/
theorem windows_take (w len : ℕ) (xs : List α) :
    windows w (xs.take len) = (windows w xs).take (len + 1 - w) := by
  have h := windows_extend w (xs.take len) (xs.drop len)
  rw [List.take_append_drop, List.prefix_iff_eq_take, length_windows, List.length_take] at h
  rw [h, List.take_eq_take_iff, length_windows]
  omega

/-- Neighbouring windows cover the stretch from the first element of the first to the last of the
last. -/
theorem mem_flatten_windows {m n : ℕ} (hi : i + (m + n + 1) ≤ xs.length) {x : α} :
    x ∈ (window (windows (n + 1) xs) i (m + 1)).flatten ↔ x ∈ window xs i (m + n + 1) := by
  have hwindow : ∀ t, t < i + (m + 1) →
      (windows (n + 1) xs)[t]? = some (window xs t (n + 1)) :=
    fun t ht => getElem?_windows (by omega)
  rw [List.mem_flatten, mem_window]
  constructor
  · rintro ⟨b, hb, hx⟩
    obtain ⟨t, hle, hlt, ht⟩ := mem_window.mp hb
    obtain rfl : window xs t (n + 1) = b := Option.some.inj ((hwindow t hlt).symm.trans ht)
    obtain ⟨j, hjle, hjlt, hj⟩ := mem_window.mp hx
    exact ⟨j, by omega, by omega, hj⟩
  · rintro ⟨j, hle, hlt, hj⟩
    -- The last window that starts no later than the element, among those that are there.
    have hlast : max i (j - n) < i + (m + 1) := by omega
    exact ⟨window xs (max i (j - n)) (n + 1),
      mem_window.mpr ⟨max i (j - n), by omega, hlast, hwindow _ hlast⟩,
      mem_window.mpr ⟨j, by omega, by omega, hj⟩⟩

end Windows

namespace TimeSeries

variable {K V O : Type}

/-- The result of `apply_rolling`: the aggregate of every window, under the key of its last row. -/
theorem applyRolling_eq_windows (ts : TimeSeries K V) (func : List V → O) (m : ℕ) :
    ∃ result, ts.applyRolling func (m + 1) = .ok result ∧ result.keys = ts.keys.drop m ∧
      result.values = (windows (m + 1) ts.values).map func := by
  obtain ⟨result, hok, hempty, hloop⟩ := exists_applyRolling ts func m
  refine ⟨result, hok, ?_⟩
  by_cases hsize : m + 1 > ts.size
  · have hkeys : ts.keys.drop m = [] := List.drop_eq_nil_of_le (by rw [size] at hsize; omega)
    have hvalues : windows (m + 1) ts.values = [] := by
      rw [← List.length_eq_zero_iff, length_windows, length_values]
      omega
    rw [hempty hsize, hkeys, hvalues]
    exact ⟨rfl, rfl⟩
  · obtain ⟨s, rfl, hs⟩ := hloop (not_lt.mp hsize)
    have hlen : s.result.size = ts.size - m := by
      have hsize' := hs.size
      rw [length_rows] at hsize'
      omega
    have hrow : ∀ i k, i < ts.size - m → ts.keys[m + i]? = some k →
        s.result.rows[i]? = some (k, func (window ts.values i (m + 1))) := by
      intro i k hi hk
      obtain ⟨v, hv⟩ := exists_row_of_key hk
      have hlast : i + (m + 1) - 1 = m + i := by omega
      rw [hs.rows i k v (by rw [length_rows]; omega) (by rw [hlast, hv]), map_snd_rows,
        rtake_take (by rw [length_values]; omega), window]
    constructor
    · apply List.ext_getElem?
      intro i
      rw [List.getElem?_drop]
      by_cases hi : i < ts.size - m
      · obtain ⟨k, v, hv⟩ := exists_row (show m + i < ts.size by omega)
        have hk := (getElem?_rows_eq_some.mp hv).1
        rw [hk, (getElem?_rows_eq_some.mp (hrow i k hi hk)).1]
      · rw [List.getElem?_eq_none (by rw [size] at hlen; omega),
          List.getElem?_eq_none (by rw [size] at hi; omega)]
    · apply List.ext_getElem?
      intro i
      rw [List.getElem?_map]
      by_cases hi : i < ts.size - m
      · obtain ⟨k, v, hv⟩ := exists_row (show m + i < ts.size by omega)
        have hk := (getElem?_rows_eq_some.mp hv).1
        rw [(getElem?_rows_eq_some.mp (hrow i k hi hk)).2,
          getElem?_windows (by rw [length_values]; omega), Option.map_some]
      · rw [List.getElem?_eq_none (by rw [length_values]; omega),
          List.getElem?_eq_none (by rw [length_windows, length_values]; omega), Option.map_none]

end TimeSeries

end Tspp
