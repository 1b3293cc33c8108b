import Tspp.Core.MergeLaws
import Tspp.Join.Inner
import Tspp.Series.Shift

/-!
# Joining a series with its own lag

`skip` walks two value iterators a fixed distance apart, and the lagged series moves the
values that distance over the keys. The keys of the lagged series are the last keys of the
series, so an inner join passes the first rows and then matches row by row.
-/

namespace Tspp

namespace TimeSeries

variable {K V : Type}

/-- A pairing with a longer list uses as many of its elements as the shorter one has. -/
theorem zipWith_take_length {A B C : Type} (f : A → B → C) {xs : List A} {ys : List B}
    (h : xs.length ≤ ys.length) :
    List.zipWith f xs (ys.take xs.length) = List.zipWith f xs ys := by
  have hshort : List.zipWith f xs ys =
      List.zipWith f (xs.take (min xs.length ys.length)) (ys.take (min xs.length ys.length)) :=
    List.zipWith_eq_zipWith_take_min
  rw [Nat.min_eq_left h, List.take_length] at hshort
  exact hshort.symm

/-- The rows split where the first `n` keys and values end. -/
theorem rows_eq_append (ts : TimeSeries K V) (n : ℕ) :
    ts.rows = (ts.keys.take n).zip (ts.values.take n) ++
      (ts.keys.drop n).zip (ts.values.drop n) := by
  rw [← List.zip_append (by rw [List.length_take, List.length_take, ts.paired]),
    List.take_append_drop, List.take_append_drop, rows]

variable [LinearOrder K]

/-- A series joined with its lag matches its last rows one by one. -/
theorem innerMerge_lagged {ts lagged : TimeSeries K V} {n : ℕ} (hts : ts.StrictlyIncreasing)
    (h : Shifted ts n 0 lagged) (func : V → V → V) :
    KeyedRows.innerMerge func ts.rows lagged.rows =
      (ts.keys.drop n).zip (List.zipWith func (ts.values.drop n) ts.values) := by
  have hfits := h.fits
  have hkeys : ts.keys.length = ts.size := rfl
  have hvalues := ts.length_values
  have hrest : ts.size - (n + 0) = (ts.values.drop n).length := by
    rw [List.length_drop]
    omega
  have hlagged : lagged.rows = (ts.keys.drop n).zip (ts.values.take (ts.values.drop n).length) := by
    rw [rows, h.keys, h.values, window, window, hrest, List.drop_zero, List.take_of_length_le]
    rw [List.length_drop, List.length_drop]
    omega
  have hbefore : ∀ r ∈ (ts.keys.take n).zip (ts.values.take n),
      ∀ b ∈ (ts.keys.drop n).zip (ts.values.take (ts.values.drop n).length), r.1 < b.1 := by
    have hsplit : (ts.keys.take n ++ ts.keys.drop n).Pairwise (· < ·) := by
      rwa [List.take_append_drop]
    intro r hr b hb
    exact (List.pairwise_append.mp hsplit).2.2 r.1 (List.of_mem_zip hr).1 b.1 (List.of_mem_zip hb).1
  rw [hlagged, rows_eq_append ts n, KeyedRows.innerMerge_append_of_lt func hbefore,
    KeyedRows.innerMerge_zip, zipWith_take_length]
  rw [List.length_drop]
  omega

/-- `skip` throws exactly when the lag does, and otherwise is the join with the lagged series. -/
theorem skip_eq_crossApplyInner_shift (ts : TimeSeries K V) (skipSize : ℕ) (func : V → V → V)
    (hts : ts.StrictlyIncreasing) :
    ((∃ e, e.Thrown ∧ ts.skip skipSize func = .error e) ↔
      ∃ e, e.Thrown ∧ ts.shift (-skipSize) = .error e) ∧
    ∀ lagged, ts.shift (-skipSize) = .ok lagged → ∃ result,
      ts.skip skipSize func = .ok result ∧ crossApplyInner ts lagged func = .ok result := by
  have habs : |-(skipSize : ℤ)| = skipSize := by
    rw [Int.abs_eq_natAbs]
    omega
  have hlag : (- -(skipSize : ℤ)).toNat = skipSize := by omega
  have hlead : (-(skipSize : ℤ)).toNat = 0 := by omega
  by_cases hfits : skipSize ≤ ts.size
  · obtain ⟨lagged, hshift, hlagged⟩ := shift_eq_ok ts (s := -skipSize) (by omega)
    rw [hlag, hlead] at hlagged
    obtain ⟨result, hskip, hkeys, hvalues⟩ := skip_eq_ok hfits func
    obtain ⟨joined, hjoin, hrows⟩ := crossApplyInner_eq ts lagged func
    have hsame : joined = result := by
      apply ext_rows
      rw [hrows, innerMerge_lagged hts hlagged, rows, hkeys, hvalues]
    rw [hskip, hshift]
    refine ⟨⟨?_, ?_⟩, ?_⟩
    · rintro ⟨_, _, ⟨⟩⟩
    · rintro ⟨_, _, ⟨⟩⟩
    · rintro _ ⟨⟩
      exact ⟨result, rfl, hsame ▸ hjoin⟩
  · rw [skip_eq_error (by omega), shift_eq_error (by omega)]
    refine ⟨⟨?_, ?_⟩, ?_⟩
    · exact fun _ => ⟨_, ⟨_, rfl⟩, rfl⟩
    · exact fun _ => ⟨_, ⟨_, rfl⟩, rfl⟩
    · rintro _ ⟨⟩

/-- Differences over two rows. -/
theorem skip_eq_crossApplyInner_shift_two :
    ∃ result, (ofRows [((1 : ℤ), (1 : ℤ)), (2, 2), (3, 4), (4, 8)]).skip 2 (· - ·) = .ok result ∧
      crossApplyInner (ofRows [((1 : ℤ), (1 : ℤ)), (2, 2), (3, 4), (4, 8)])
        (ofRows [((3 : ℤ), (1 : ℤ)), (4, 2)]) (· - ·) = .ok result ∧
      result.rows = [(3, 3), (4, 6)] := by
  obtain ⟨result, hskip, hjoin⟩ :=
    (skip_eq_crossApplyInner_shift (ofRows [((1 : ℤ), (1 : ℤ)), (2, 2), (3, 4), (4, 8)]) 2
      (· - ·) (by decide)).2 (ofRows [((3 : ℤ), (1 : ℤ)), (4, 2)]) (by decide)
  refine ⟨result, hskip, hjoin, ?_⟩
  cases hskip
  rfl

end TimeSeries

end Tspp
