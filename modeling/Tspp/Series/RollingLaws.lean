import Tspp.Series.Operations
import Tspp.Series.RollingWindows
import Mathlib.Algebra.BigOperators.Group.List.Basic
import Mathlib.Order.Bounds.Basic

/-!
# Laws of rolling windows

What `apply_rolling` does before and after other operations. Aggregates that are least upper
bounds of their windows do not mind overlaps, so rolling twice rolls once over a longer window;
the sum over a window of differences telescopes; and rolling commutes with shifts as long as
a window is left.
-/

namespace Tspp

namespace TimeSeries

variable {K V O : Type}

/-- The rows of a series whose keys and values are given. -/
theorem eq_of_keys_of_values {a b : TimeSeries K V} (hkeys : a.keys = b.keys)
    (hvalues : a.values = b.values) : a = b := by
  apply ext_rows
  rw [rows, rows, hkeys, hvalues]

/-- On rows fewer than the window nothing is rolled. -/
theorem applyRolling_eq_empty {ts : TimeSeries K V} {m : ℕ} (h : ts.size ≤ m)
    (func : List V → O) : ts.applyRolling func (m + 1) = .ok empty := by
  obtain ⟨result, hok, hkeys, _⟩ := applyRolling_eq_windows ts func m
  have hempty : result = empty := by
    apply ext_rows
    rw [rows, hkeys, List.drop_eq_nil_of_le h, List.zip_nil_left]
    rfl
  rw [hok, hempty]

section Bounds

variable [PartialOrder V] {agg : List V → V}

/-- An aggregate that is the least upper bound of its values. -/
def IsBound (agg : List V → V) : Prop := ∀ buffer ≠ [], IsLUB {v | v ∈ buffer} (agg buffer)

/-- The bound of the bounds of some stretches is the bound of all their values. -/
theorem IsBound.flatten (hagg : IsBound agg) {buffers : List (List V)} (hne : buffers ≠ [])
    (hbuffers : ∀ buffer ∈ buffers, buffer ≠ []) :
    IsLUB {v | v ∈ buffers.flatten} (agg (buffers.map agg)) := by
  have hall := hagg (buffers.map agg) (by rwa [ne_eq, List.map_eq_nil_iff])
  constructor
  · intro v hv
    obtain ⟨buffer, hmem, hv⟩ := List.mem_flatten.mp hv
    exact ((hagg buffer (hbuffers buffer hmem)).1 hv).trans
      (hall.1 (List.mem_map_of_mem hmem))
  · intro c hc
    apply hall.2
    intro v hv
    obtain ⟨buffer, hmem, rfl⟩ := List.mem_map.mp hv
    apply (hagg buffer (hbuffers buffer hmem)).2
    intro w hw
    exact hc (List.mem_flatten.mpr ⟨buffer, hmem, hw⟩)

/-- The bound of the bounds of neighbouring windows is the bound of the stretch they cover. -/
theorem IsBound.window_windows (hagg : IsBound agg) {m n i : ℕ} {vs : List V}
    (hi : i + (m + n + 1) ≤ vs.length) :
    agg ((window (windows (n + 1) vs) i (m + 1)).map agg) = agg (window vs i (m + n + 1)) := by
  have hwhole : window vs i (m + n + 1) ≠ [] := by
    rw [← List.length_pos_iff_ne_nil, length_window hi]
    omega
  have hparts : window (windows (n + 1) vs) i (m + 1) ≠ [] := by
    rw [← List.length_pos_iff_ne_nil, length_window (by rw [length_windows]; omega)]
    omega
  have hpart : ∀ b ∈ window (windows (n + 1) vs) i (m + 1), b ≠ [] := by
    intro b hb
    obtain ⟨t, _, hlt, ht⟩ := mem_window.mp hb
    rw [getElem?_windows (by omega)] at ht
    rw [← List.length_pos_iff_ne_nil, ← Option.some.inj ht, length_window (by omega)]
    omega
  have hbound := hagg.flatten hparts hpart
  simp only [mem_flatten_windows hi] at hbound
  exact hbound.unique (hagg _ hwhole)

/-- Rolling twice with an aggregate that is a bound of its values is rolling once, over the values
that both windows reach. -/
theorem applyRolling_applyRolling (ts : TimeSeries K V) (agg : List V → V) (hagg : IsBound agg)
    (v w : ℕ) (hv : 1 ≤ v) (hw : 1 ≤ w) :
    (ts.applyRolling agg v >>= fun mid => mid.applyRolling agg w) =
      ts.applyRolling agg (v + w - 1) := by
  obtain ⟨n, rfl⟩ := Nat.exists_eq_add_of_le' hv
  obtain ⟨m, rfl⟩ := Nat.exists_eq_add_of_le' hw
  have hsum : n + 1 + (m + 1) - 1 = m + n + 1 := by omega
  obtain ⟨mid, hmid, hkeys, hvalues⟩ := applyRolling_eq_windows ts agg n
  obtain ⟨twice, htwice, hkeys', hvalues'⟩ := applyRolling_eq_windows mid agg m
  obtain ⟨once, honce, hkeys'', hvalues''⟩ := applyRolling_eq_windows ts agg (m + n)
  have heq : twice = once := by
    apply eq_of_keys_of_values
    · rw [hkeys', hkeys'', hkeys, List.drop_drop, Nat.add_comm]
    · rw [hvalues', hvalues'', hvalues]
      apply List.ext_getElem?
      intro i
      rw [List.getElem?_map, List.getElem?_map]
      by_cases hi : i + (m + n + 1) ≤ ts.values.length
      · rw [getElem?_windows (by rw [List.length_map, length_windows]; omega),
          getElem?_windows (by omega), Option.map_some, Option.map_some, window_map,
          hagg.window_windows hi]
      · rw [List.getElem?_eq_none, List.getElem?_eq_none]
        · rw [length_windows]
          omega
        · rw [length_windows, List.length_map, length_windows]
          omega
  rw [hsum, honce, hmid, ← heq]
  exact htwice

end Bounds

/-- The larger of the last two values, and then the largest of the last three. -/
theorem applyRolling_applyRolling_max :
    ((ofRows [((1 : ℤ), (5 : ℤ)), (2, 1), (3, 4), (4, 0), (5, 3)]).applyRolling
      (fun b => b.max?.getD 0) 2 >>= fun mid => mid.applyRolling (fun b => b.max?.getD 0) 3) =
      .ok (ofRows [(4, 5), (5, 4)]) := by
  have hbound : IsBound fun b : List ℤ => b.max?.getD 0 := by
    intro b hb
    obtain ⟨v, hv⟩ := Option.ne_none_iff_exists'.mp (mt List.max?_eq_none_iff.mp hb)
    obtain ⟨hmem, hle⟩ := List.max?_eq_some_iff.mp hv
    change IsLUB _ (b.max?.getD 0)
    rw [hv, Option.getD_some]
    exact IsGreatest.isLUB ⟨hmem, hle⟩
  exact (applyRolling_applyRolling _ _ hbound 2 3 (by decide) (by decide)).trans rfl

section Differences

variable [AddCommGroup V]

/-- The sum of neighbouring differences is the difference of the ends. -/
theorem sum_window_differences {vs : List V} {i len : ℕ} {first last : V}
    (hfirst : vs[i]? = some first) (hlast : vs[i + len]? = some last) :
    (window (List.zipWith (· - ·) (vs.drop 1) vs) i len).sum = last - first := by
  induction len generalizing last with
  | zero =>
    rw [Nat.add_zero, hfirst, Option.some.injEq] at hlast
    rw [← hlast, sub_self, window, List.take_zero, List.sum_nil]
  | succ len ih =>
    obtain ⟨prior, hprior⟩ : ∃ prior, vs[i + len]? = some prior := by
      have hlt := (List.getElem?_eq_some_iff.mp hlast).1
      exact ⟨_, List.getElem?_eq_getElem (show i + len < vs.length by omega)⟩
    have hdiff : (List.zipWith (· - ·) (vs.drop 1) vs)[i + len]? = some (last - prior) := by
      rw [List.getElem?_zipWith_eq_some]
      refine ⟨last, prior, ?_, hprior, rfl⟩
      rw [List.getElem?_drop, ← hlast]
      congr 1
      omega
    rw [window_succ hdiff, List.sum_append, ih hprior, List.sum_singleton, sub_add_sub_cancel']

/-- The sums over windows of differences are the differences over windows. -/
theorem windows_differences (vs : List V) (m : ℕ) :
    (windows (m + 1) (List.zipWith (· - ·) (vs.drop 1) vs)).map List.sum =
      List.zipWith (· - ·) (vs.drop (m + 1)) vs := by
  have hlen : (List.zipWith (· - ·) (vs.drop 1) vs).length = vs.length - 1 := by
    rw [List.length_zipWith, List.length_drop]
    omega
  apply List.ext_getElem?
  intro i
  rw [List.getElem?_map]
  by_cases hi : i + (m + 1) < vs.length
  · have hfirst := List.getElem?_eq_getElem (show i < vs.length by omega)
    have hlast := List.getElem?_eq_getElem hi
    rw [getElem?_windows (by omega), Option.map_some, sum_window_differences hfirst hlast, eq_comm,
      List.getElem?_zipWith_eq_some]
    exact ⟨_, _, by rw [List.getElem?_drop, Nat.add_comm, hlast], hfirst, rfl⟩
  · rw [List.getElem?_eq_none, List.getElem?_eq_none, Option.map_none]
    · rw [List.length_zipWith, List.length_drop]
      omega
    · rw [length_windows]
      omega

/-- Where the window is not longer than the series, the rolling sum of the differences to the row
before is the difference to the row as many rows before as the window has. -/
theorem applyRolling_skip_eq {ts : TimeSeries K V} {m : ℕ} (h : m + 1 ≤ ts.size) :
    (ts.skip 1 (· - ·) >>= fun mid => mid.applyRolling List.sum (m + 1)) =
      ts.skip (m + 1) (· - ·) := by
  obtain ⟨mid, hmid, hkeys, hvalues⟩ := skip_eq_ok (show 1 ≤ ts.size by omega) (· - ·)
  obtain ⟨rolled, hrolled, hkeys', hvalues'⟩ := applyRolling_eq_windows mid List.sum m
  obtain ⟨skipped, hskipped, hkeys'', hvalues''⟩ := skip_eq_ok h (· - ·)
  have heq : rolled = skipped := by
    apply eq_of_keys_of_values
    · rw [hkeys', hkeys, hkeys'', List.drop_drop, Nat.add_comm]
    · rw [hvalues', hvalues, hvalues'', windows_differences]
  rw [hskipped, hmid, ← heq]
  exact hrolled

/-- On fewer rows than the window there are differences to the row before, but no window of them,
while the difference over the window throws. -/
theorem applyRolling_skip_of_lt {ts : TimeSeries K V} {m : ℕ} (hne : 0 < ts.size)
    (h : ts.size < m + 1) :
    (ts.skip 1 (· - ·) >>= fun mid => mid.applyRolling List.sum (m + 1)) = .ok empty ∧
      ts.skip (m + 1) (· - ·) =
        .error (.timeSeriesError "atttempting to skip a greater span than the ts") := by
  obtain ⟨mid, hmid, hkeys, _⟩ := skip_eq_ok hne (· - ·)
  have hsize : mid.size ≤ m := by
    rw [size, hkeys, List.length_drop, ← size]
    omega
  refine ⟨?_, skip_eq_error h (· - ·)⟩
  rw [hmid]
  exact applyRolling_eq_empty hsize List.sum

/-- The rolling sum of the differences to the row before is the difference to the row as many rows
before as the window has, exactly except on rows fewer than the window, where the sum gives no rows
and the difference throws. -/
theorem applyRolling_skip_iff (ts : TimeSeries K V) (w : ℕ) (hw : 1 ≤ w) :
    ((ts.skip 1 (· - ·) >>= fun mid => mid.applyRolling List.sum w) = ts.skip w (· - ·) ↔
      w ≤ ts.size ∨ ts.size = 0) ∧
    (0 < ts.size → ts.size < w →
      (ts.skip 1 (· - ·) >>= fun mid => mid.applyRolling List.sum w) = .ok empty ∧
        ts.skip w (· - ·) =
          .error (.timeSeriesError "atttempting to skip a greater span than the ts")) := by
  obtain ⟨m, rfl⟩ := Nat.exists_eq_add_of_le' hw
  refine ⟨⟨fun heq => ?_, ?_⟩, applyRolling_skip_of_lt⟩
  · by_contra hsize
    obtain ⟨hrolled, hskipped⟩ :=
      applyRolling_skip_of_lt (show 0 < ts.size by omega) (show ts.size < m + 1 by omega)
    cases hrolled.symm.trans (heq.trans hskipped)
  · rintro (hsize | hempty)
    · exact applyRolling_skip_eq hsize
    · rw [skip_eq_error (show ts.size < 1 by omega), skip_eq_error (show ts.size < m + 1 by omega)]
      rfl

/-- Differences over two rows. -/
theorem applyRolling_skip_two :
    ((ofRows [((1 : ℤ), (5 : ℤ)), (2, 1), (3, 4), (4, 0)]).skip 1 (· - ·) >>= fun mid =>
      mid.applyRolling List.sum 2) = .ok (ofRows [(3, -1), (4, -1)]) :=
  ((applyRolling_skip_iff _ 2 (by decide)).1.mpr (Or.inl (by decide))).trans rfl

end Differences

/-- A shift that leaves a window can be made before or after rolling. -/
theorem shift_applyRolling_eq {ts : TimeSeries K V} {s : ℤ} {m : ℕ} (func : List V → O)
    (hs : |s| ≤ (ts.size - m : ℕ)) :
    (ts.shift s >>= fun mid => mid.applyRolling func (m + 1)) =
      (ts.applyRolling func (m + 1) >>= fun mid => mid.shift s) := by
  have habs := abs_eq_toNat s
  obtain ⟨shifted, hshifted, hs₁⟩ := shift_eq_ok ts (s := s) (by omega)
  obtain ⟨left, hleft, hkeys, hvalues⟩ := applyRolling_eq_windows shifted func m
  obtain ⟨rolled, hrolled, hkeys', hvalues'⟩ := applyRolling_eq_windows ts func m
  have hsize : rolled.size = ts.size - m := by rw [size, hkeys', List.length_drop, size]
  obtain ⟨right, hright, hs₂⟩ := shift_eq_ok rolled (s := s) (by omega)
  have hlen : ts.size - ((-s).toNat + s.toNat) - m =
      rolled.size - ((-s).toNat + s.toNat) := by omega
  have heq : left = right := by
    apply eq_of_keys_of_values
    · rw [hkeys, hs₁.keys, hs₂.keys, hkeys', window, window, List.drop_take, List.drop_drop,
        List.drop_drop, hlen, Nat.add_comm m]
    · rw [hvalues, hs₁.values, hs₂.values, hvalues', window_map, window, window, windows_take,
        windows_drop (by omega), ← hlen]
      congr 2
      omega
  rw [hshifted, hrolled]
  exact hleft.trans (heq ▸ hright.symm)

/-- Where a shift leaves rows, but no window, there is nothing to roll after it, and the rolled
series is too short for it. -/
theorem shift_applyRolling_of_lt {ts : TimeSeries K V} {s : ℤ} {m : ℕ} (func : List V → O)
    (hs : |s| ≤ ts.size) (hshort : (ts.size - m : ℕ) < |s|) :
    (ts.shift s >>= fun mid => mid.applyRolling func (m + 1)) = .ok empty ∧
      (ts.applyRolling func (m + 1) >>= fun mid => mid.shift s) = .error (.timeSeriesError
        "atttempting to shift out of bounds series is too short for the given shift") := by
  have habs := abs_eq_toNat s
  obtain ⟨shifted, hshifted, hmoved⟩ := shift_eq_ok ts hs
  obtain ⟨rolled, hrolled, hkeys, _⟩ := applyRolling_eq_windows ts func m
  have hsize := hmoved.size_eq
  have hrest : rolled.size = ts.size - m := by rw [size, hkeys, List.length_drop, size]
  rw [hshifted, hrolled]
  exact ⟨applyRolling_eq_empty (by omega) func, shift_eq_error (by omega)⟩

/-- `shift` and `apply_rolling` can change places exactly if the shift leaves a window, or nothing
to shift over, or moves nothing: otherwise the rolled series is too short for it, while rolling the
shifted series gives no rows. -/
theorem shift_applyRolling_comm_iff (ts : TimeSeries K V) (func : List V → O) (s : ℤ) (w : ℕ)
    (hw : 1 ≤ w) :
    ((ts.shift s >>= fun mid => mid.applyRolling func w) =
        (ts.applyRolling func w >>= fun mid => mid.shift s) ↔
      |s| + w ≤ ts.size + 1 ∨ ts.size < |s| ∨ s = 0) ∧
    (¬ (|s| + w ≤ ts.size + 1 ∨ ts.size < |s| ∨ s = 0) →
      (ts.shift s >>= fun mid => mid.applyRolling func w) = .ok empty ∧
        (ts.applyRolling func w >>= fun mid => mid.shift s) = .error (.timeSeriesError
          "atttempting to shift out of bounds series is too short for the given shift")) := by
  obtain ⟨m, rfl⟩ := Nat.exists_eq_add_of_le' hw
  have habs := abs_eq_toNat s
  refine ⟨⟨fun heq => ?_, fun hcond => ?_⟩,
    fun hcond => shift_applyRolling_of_lt func (by omega) (by omega)⟩
  · by_contra hcond
    obtain ⟨hleft, hright⟩ :=
      shift_applyRolling_of_lt func (show |s| ≤ ts.size by omega)
        (show (ts.size - m : ℕ) < |s| by omega)
    cases hleft.symm.trans (heq.trans hright)
  · by_cases hlong : ts.size < |s|
    · obtain ⟨rolled, hrolled, hkeys, _⟩ := applyRolling_eq_windows ts func m
      have hsize : rolled.size = ts.size - m := by rw [size, hkeys, List.length_drop, size]
      have herror : rolled.shift s = _ := shift_eq_error (by omega)
      rw [shift_eq_error hlong, hrolled]
      exact herror.symm
    · exact shift_applyRolling_eq func (by omega)

/-- A lag of one row before a sum over two rows. -/
theorem shift_applyRolling_comm_two :
    ((ofRows [((1 : ℤ), (5 : ℤ)), (2, 1), (3, 4)]).applyRolling List.sum 2 >>= fun mid =>
      mid.shift (-1)) = .ok (ofRows [(3, 6)]) :=
  ((shift_applyRolling_comm_iff _ List.sum (-1) 2 (by decide)).1.mpr
    (Or.inl (by decide))).symm.trans rfl

end TimeSeries

end Tspp
