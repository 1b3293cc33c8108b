import Tspp.Series.Operations

/-!
# Shifts of a series

`shift` cuts rows off opposite ends of the two containers. A series whose values are moved
`lag` rows later and `lead` rows earlier is one window of the keys over another of the
values; windows of windows add their offsets, so shifts compose and commute.
-/

namespace Tspp

/-- The `len` elements of a list from the position `start` on. -/
def window {α : Type} (xs : List α) (start len : ℕ) : List α := (xs.drop start).take len

section Window

variable {α : Type} {xs : List α} {start len : ℕ}

theorem length_window (h : start + len ≤ xs.length) : (window xs start len).length = len := by
  rw [window, List.length_take, List.length_drop]
  omega

/-- A window of a window starts at the sum of the two positions. -/
theorem window_window {start' len' : ℕ} (h : start' + len' ≤ len) :
    window (window xs start len) start' len' = window xs (start + start') len' := by
  rw [window, window, window, List.drop_take, List.drop_drop, List.take_take,
    Nat.min_eq_left (by omega)]

end Window

namespace TimeSeries

variable {K V : Type}

/-- `result` is the series with its values moved `lag` rows later and `lead` rows earlier. -/
structure Shifted (ts : TimeSeries K V) (lag lead : ℕ) (result : TimeSeries K V) : Prop where
  fits : lag + lead ≤ ts.size
  keys : result.keys = window ts.keys lag (ts.size - (lag + lead))
  values : result.values = window ts.values lead (ts.size - (lag + lead))

section Shifted

variable {ts mid result : TimeSeries K V} {lag lead lag' lead' : ℕ}

/-- A shifted series has lost the rows that either move cuts off. -/
theorem Shifted.size_eq (h : Shifted ts lag lead result) :
    result.size = ts.size - (lag + lead) := by
  have hfits := h.fits
  rw [size, h.keys]
  apply length_window
  rw [size] at *
  omega

/-- The two moves determine the result. -/
theorem Shifted.unique {result' : TimeSeries K V} (h : Shifted ts lag lead result)
    (h' : Shifted ts lag lead result') : result = result' := by
  apply ext_rows
  rw [rows, rows, h.keys, h'.keys, h.values, h'.values]

/-- Moves one after another add up. -/
theorem Shifted.trans (h : Shifted ts lag lead mid) (h' : Shifted mid lag' lead' result) :
    Shifted ts (lag + lag') (lead + lead') result := by
  have hfits := h.fits
  have hfits' := h'.fits
  have hsize := h.size_eq
  have hrest : mid.size - (lag' + lead') = ts.size - (lag + lag' + (lead + lead')) := by omega
  constructor
  · omega
  · rw [h'.keys, h.keys, window_window (by omega), hrest]
  · rw [h'.values, h.values, window_window (by omega), hrest]

end Shifted

/-- One of the two moves of a shift is by its magnitude, and the other by nothing. -/
theorem abs_eq_toNat (s : ℤ) : |s| = ((-s).toNat + s.toNat : ℕ) := by
  rw [Int.abs_eq_natAbs]
  omega

/-- `shift` moves the values by its argument, in the direction of its sign. -/
theorem shift_eq_ok (ts : TimeSeries K V) {s : ℤ} (h : |s| ≤ ts.size) :
    ∃ result, ts.shift s = .ok result ∧ Shifted ts (-s).toNat s.toNat result := by
  have hguard : (ts.size : ℤ) - |s| ≥ 0 := by omega
  have habs := abs_eq_toNat s
  have hkeys : ts.keys.length = ts.size := rfl
  have hvalues := ts.length_values
  unfold shift
  rw [dif_pos hguard]
  by_cases hneg : s < 0
  · rw [if_pos hneg]
    refine ⟨_, rfl, by omega, ?_, ?_⟩
    · exact (List.take_of_length_le (by rw [List.length_drop]; omega)).symm
    · rw [window, show s.toNat = 0 by omega, List.drop_zero]
      exact congrArg (List.take · ts.values) (by omega)
  · rw [if_neg hneg]
    refine ⟨_, rfl, by omega, ?_, ?_⟩
    · rw [window, show (-s).toNat = 0 by omega, List.drop_zero]
      exact congrArg (List.take · ts.keys) (by omega)
    · exact (List.take_of_length_le (by rw [List.length_drop]; omega)).symm

/-- `shift` throws on a series that is shorter than the shift. -/
theorem shift_eq_error {ts : TimeSeries K V} {s : ℤ} (h : ts.size < |s|) :
    ts.shift s = .error (.timeSeriesError
      "atttempting to shift out of bounds series is too short for the given shift") := by
  unfold shift
  exact dif_neg (by omega)

/-- Two shifts in a row move the values by both, and fit if both together do. -/
theorem shift_shift_eq_ok (ts : TimeSeries K V) {s t : ℤ} (h : |s| + |t| ≤ ts.size) :
    ∃ result, (ts.shift s >>= fun mid => mid.shift t) = .ok result ∧
      Shifted ts ((-s).toNat + (-t).toNat) (s.toNat + t.toNat) result := by
  have hs := abs_eq_toNat s
  have ht := abs_eq_toNat t
  obtain ⟨mid, hmid, hshift⟩ := shift_eq_ok ts (s := s) (by omega)
  have hsize := hshift.size_eq
  obtain ⟨result, hresult, hshift'⟩ := shift_eq_ok mid (s := t) (by omega)
  refine ⟨result, ?_, hshift.trans hshift'⟩
  rw [hmid]
  exact hresult

/-- Two shifts in a row that do not fit together throw. -/
theorem shift_shift_eq_error {ts : TimeSeries K V} {s t : ℤ} (h : ts.size < |s| + |t|) :
    (ts.shift s >>= fun mid => mid.shift t) = .error (.timeSeriesError
      "atttempting to shift out of bounds series is too short for the given shift") := by
  have hs := abs_eq_toNat s
  have ht := abs_eq_toNat t
  by_cases hfits : |s| ≤ ts.size
  · obtain ⟨mid, hmid, hshift⟩ := shift_eq_ok ts hfits
    have hsize := hshift.size_eq
    rw [hmid]
    exact shift_eq_error (by omega)
  · rw [shift_eq_error (not_le.mp hfits)]
    rfl

/-- Two shifts in a row throw exactly if they do not fit together. -/
theorem shift_shift_throws_iff (ts : TimeSeries K V) (s t : ℤ) :
    (∃ e, e.Thrown ∧ (ts.shift s >>= fun mid => mid.shift t) = .error e) ↔
      ts.size < |s| + |t| := by
  constructor
  · intro ⟨e, _, he⟩
    by_contra hfits
    obtain ⟨result, hok, _⟩ := shift_shift_eq_ok ts (not_lt.mp hfits)
    rw [hok] at he
    cases he
  · exact fun hlong => ⟨_, ⟨_, rfl⟩, shift_shift_eq_error hlong⟩

/-- Two shifts can be made in either order. -/
theorem shift_comm (ts : TimeSeries K V) (s t : ℤ) :
    (ts.shift s >>= fun mid => mid.shift t) = (ts.shift t >>= fun mid => mid.shift s) := by
  by_cases hfits : |s| + |t| ≤ ts.size
  · obtain ⟨result, hok, hshift⟩ := shift_shift_eq_ok ts hfits
    obtain ⟨result', hok', hshift'⟩ := shift_shift_eq_ok ts (Int.add_comm |s| |t| ▸ hfits)
    rw [Nat.add_comm (-t).toNat, Nat.add_comm t.toNat] at hshift'
    rw [hok, hok', hshift.unique hshift']
  · rw [shift_shift_eq_error (not_le.mp hfits), shift_shift_eq_error (by omega)]

/-- Two shifts in one direction are one shift by their sum. -/
theorem shift_shift_of_sameSign (ts : TimeSeries K V) {s t : ℤ}
    (hsign : 0 ≤ s ∧ 0 ≤ t ∨ s ≤ 0 ∧ t ≤ 0) :
    (ts.shift s >>= fun mid => mid.shift t) = ts.shift (s + t) := by
  have hs := abs_eq_toNat s
  have ht := abs_eq_toNat t
  have hsum := abs_eq_toNat (s + t)
  have hlag : (-(s + t)).toNat = (-s).toNat + (-t).toNat := by omega
  have hlead : (s + t).toNat = s.toNat + t.toNat := by omega
  by_cases hfits : |s| + |t| ≤ ts.size
  · obtain ⟨result, hok, hshift⟩ := shift_shift_eq_ok ts hfits
    obtain ⟨result', hok', hshift'⟩ := shift_eq_ok ts (s := s + t) (by omega)
    rw [hlag, hlead] at hshift'
    rw [hok, hok', hshift.unique hshift']
  · rw [shift_shift_eq_error (not_le.mp hfits), shift_eq_error (by omega)]

/-- A shift there and back leaves the rows that neither cuts off. -/
theorem shift_neg (ts : TimeSeries K V) {s : ℤ} (hfits : 2 * |s| ≤ ts.size) :
    ∃ result, (ts.shift s >>= fun mid => mid.shift (-s)) = .ok result ∧
      result.rows = window ts.rows s.natAbs (ts.size - 2 * s.natAbs) := by
  have hs := abs_eq_toNat s
  obtain ⟨result, hok, hshift⟩ := shift_shift_eq_ok ts (s := s) (t := -s) (by
    rw [abs_neg]
    omega)
  refine ⟨result, hok, ?_⟩
  have hlag : (-s).toNat + (- -s).toNat = s.natAbs := by omega
  have hlead : s.toNat + (-s).toNat = s.natAbs := by omega
  rw [rows, hshift.keys, hshift.values, hlag, hlead, window, window, window, rows,
    List.zip_eq_zipWith, List.zip_eq_zipWith, List.drop_zipWith, List.take_zipWith, Nat.two_mul]

/-- Shifts commute and add up; a shift there and back leaves the rows that neither cuts off. -/
theorem shift_shift (ts : TimeSeries K V) (s t : ℤ) :
    ((∃ e, e.Thrown ∧ (ts.shift s >>= fun mid => mid.shift t) = .error e) ↔
      ts.size < |s| + |t|) ∧
    (ts.shift s >>= fun mid => mid.shift t) = (ts.shift t >>= fun mid => mid.shift s) ∧
    (|s| + |t| ≤ ts.size → ∃ result, (ts.shift s >>= fun mid => mid.shift t) = .ok result ∧
      (result.size : ℤ) = ts.size - |s| - |t|) ∧
    (0 ≤ s ∧ 0 ≤ t ∨ s ≤ 0 ∧ t ≤ 0 →
      (ts.shift s >>= fun mid => mid.shift t) = ts.shift (s + t)) ∧
    (2 * |s| ≤ ts.size → ∃ result, (ts.shift s >>= fun mid => mid.shift (-s)) = .ok result ∧
      result.rows = window ts.rows s.natAbs (ts.size - 2 * s.natAbs)) := by
  refine ⟨shift_shift_throws_iff ts s t, shift_comm ts s t, ?_, shift_shift_of_sameSign ts,
    shift_neg ts⟩
  intro hfits
  have hs := abs_eq_toNat s
  have ht := abs_eq_toNat t
  obtain ⟨result, hok, hshift⟩ := shift_shift_eq_ok ts hfits
  have hsize := hshift.size_eq
  exact ⟨result, hok, by omega⟩

/-- Earlier by one row and later by two leaves the one row that none of the moves cuts off. -/
example :
    ((ofRows [((1 : ℤ), (10 : ℤ)), (2, 20), (3, 30), (4, 40)]).shift 1 >>= fun mid =>
      mid.shift (-2)) = .ok (ofRows [((3 : ℤ), (20 : ℤ))]) := by decide

end TimeSeries

end Tspp
