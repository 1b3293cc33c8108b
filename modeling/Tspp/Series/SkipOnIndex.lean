import Tspp.Series.Operations
import Mathlib.Algebra.Order.Monoid.Unbundled.Pow

/-!
# Looking up prior rows by date

`skip_on_index` looks a date up for every row and combines the two values where the date is a
key. On a regular grid the date that lies `m` steps back is the key `m` rows before, so
that it lists what `skip` lists by position.
-/

namespace Tspp

namespace TimeSeries

variable {K V : Type} [LinearOrder K]

/-- `result` lists, in the order of the keys, the rows whose index date is a key, each with its
own value and the value of that date combined. -/
structure ListsPriors (ts : TimeSeries K V) (idxFunc : K → K) (func : V → V → V)
    (result : TimeSeries K V) : Prop where
  increasing : result.StrictlyIncreasing
  rows : ∀ k u, (k, u) ∈ result.rows ↔
    ∃ v w, (k, v) ∈ ts.rows ∧ (idxFunc k, w) ∈ ts.rows ∧ u = func v w

/-- Wherever the index date of a row is a key, the position of the low 32 bits of its position
holds a value that combines to the same. -/
def KeepsPriors (ts : TimeSeries K V) (idxFunc : K → K) (func : V → V → V) : Prop :=
  ∀ k v p w, (k, v) ∈ ts.rows → ts.rows[p]? = some (idxFunc k, w) →
    p % 2 ^ 32 < 2 ^ 31 ∧ ∃ w', ts.values[p % 2 ^ 32]? = some w' ∧ func v w' = func v w

section Lookups

variable {ts result : TimeSeries K V} {idxFunc : K → K} {func : V → V → V}

/-- The rows listed determine the result. -/
theorem ListsPriors.unique {result' : TimeSeries K V} (h : ListsPriors ts idxFunc func result)
    (h' : ListsPriors ts idxFunc func result') : result = result' := by
  apply ext_rows
  refine KeyedRows.Increasing.ext_mem (result.strictlyIncreasing_iff_rows.mp h.increasing)
    (result'.strictlyIncreasing_iff_rows.mp h'.increasing) fun r => ?_
  rw [h.rows r.1 r.2, h'.rows r.1 r.2]

omit [LinearOrder K] in
/-- An `int` that counts the rows keeps the values of all index dates. -/
theorem keepsPriors_of_size_le (hsize : ts.size ≤ 2 ^ 31) : KeepsPriors ts idxFunc func := by
  intro k v p w _ hp
  have hlt := lt_size_of_row hp
  rw [Nat.mod_eq_of_lt (by omega)]
  exact ⟨by omega, w, (getElem?_rows_eq_some.mp hp).2, rfl⟩

/-- Where the values of the index dates are kept, the row listed is the one of the index date. -/
theorem priorRow_of_keepsPriors (h : ts.StrictlyIncreasing)
    (hkeeps : KeepsPriors ts idxFunc func) {k : K} {v : V} (hrow : (k, v) ∈ ts.rows) :
    (∃ priorv, ts.tryAt int32 (idxFunc k) = .ok priorv) ∧
      ∀ r, priorRow int32 ts idxFunc func (k, v) = some r ↔
        ∃ w, (idxFunc k, w) ∈ ts.rows ∧ r = (k, func v w) := by
  unfold priorRow
  by_cases hd : idxFunc k ∈ ts.keys
  · obtain ⟨w, hw⟩ := exists_row_of_mem_keys hd
    obtain ⟨p, hp⟩ := List.mem_iff_getElem?.mp hw
    obtain ⟨hlow, w', hw', hsame⟩ := hkeeps k v p w hrow hp
    have htry : ts.tryAt int32 (idxFunc k) = .ok (some w') := by
      rw [tryAt_int32_of_row h hp, getValue_int32_eq_ok_iff.mpr ⟨hlow, hw'⟩]
      rfl
    refine ⟨⟨_, htry⟩, fun r => ?_⟩
    simp only [htry, Option.some.injEq, hsame]
    constructor
    · exact fun hr => ⟨w, hw, hr.symm⟩
    · rintro ⟨x, hx, rfl⟩
      rw [(ts.strictlyIncreasing_iff_rows.mp h).value_unique hx hw]
  · have htry := tryAt_of_notMem int32 h.nonDecreasing hd
    refine ⟨⟨_, htry⟩, fun r => ?_⟩
    simp only [htry]
    constructor
    · rintro ⟨⟩
    · rintro ⟨w, hw, _⟩
      exact absurd (mem_keys_of_mem_rows hw) hd

/-- Where the values of the index dates are kept, `skip_on_index` lists the prior rows. -/
theorem exists_listsPriors (h : ts.StrictlyIncreasing) (hkeeps : KeepsPriors ts idxFunc func) :
    ∃ result, skipOnIndex int32 ts idxFunc func = .ok result ∧
      ListsPriors ts idxFunc func result := by
  have hspec : skipOnIndex int32 ts idxFunc func =
      .ok (ofRows (ts.rows.filterMap (priorRow int32 ts idxFunc func))) :=
    skipOnIndex_eq_ok_iff.mpr
      ⟨fun r hr => (priorRow_of_keepsPriors h hkeeps hr).1, rows_ofRows _⟩
  refine ⟨_, hspec, List.Pairwise.sublist (keys_sublist_of_skipOnIndex hspec) h, fun k u => ?_⟩
  rw [rows_ofRows, List.mem_filterMap]
  constructor
  · rintro ⟨⟨a, v⟩, hrow, hprior⟩
    obtain ⟨w, hw, heq⟩ := ((priorRow_of_keepsPriors h hkeeps hrow).2 _).mp hprior
    cases heq
    exact ⟨v, w, hrow, hw, rfl⟩
  · rintro ⟨v, w, hrow, hw, rfl⟩
    exact ⟨(k, v), hrow, ((priorRow_of_keepsPriors h hkeeps hrow).2 _).mpr ⟨w, hw, rfl⟩⟩

/-- Where `skip_on_index` lists the prior rows, it keeps the values of the index dates. -/
theorem keepsPriors_of_listsPriors (h : ts.StrictlyIncreasing)
    (hok : skipOnIndex int32 ts idxFunc func = .ok result)
    (hlists : ListsPriors ts idxFunc func result) : KeepsPriors ts idxFunc func := by
  obtain ⟨htry, hrows⟩ := skipOnIndex_eq_ok_iff.mp hok
  intro k v p w hrow hp
  obtain ⟨priorv, hpriorv⟩ := htry (k, v) hrow
  have hread := tryAt_int32_of_row h hp
  rw [hpriorv] at hread
  cases hget : ts.getValue (int32 p) with
  | error e =>
    rw [hget] at hread
    cases hread
  | ok w' =>
    rw [hget] at hread
    cases hread
    obtain ⟨hlow, hw'⟩ := getValue_int32_eq_ok_iff.mp hget
    refine ⟨hlow, w', hw', ?_⟩
    have hlisted : (k, func v w') ∈ result.rows := by
      rw [hrows, List.mem_filterMap]
      refine ⟨(k, v), hrow, ?_⟩
      simp only [priorRow, hpriorv]
    obtain ⟨v₂, w₂, hv₂, hw₂, heq⟩ := (hlists.rows k _).mp hlisted
    have hinc := ts.strictlyIncreasing_iff_rows.mp h
    rw [heq, hinc.value_unique hv₂ hrow, hinc.value_unique hw₂ (List.mem_of_getElem? hp)]

end Lookups

section Grid

variable {G : Type} [AddCommGroup G] [LinearOrder G] [IsOrderedAddMonoid G]

/-- The keys start at `k0` and are `h` apart. -/
def OnGrid (ts : TimeSeries G V) (k0 h : G) : Prop :=
  ts.keys = (List.range ts.size).map fun i => k0 + i • h

variable {ts : TimeSeries G V} {k0 h : G}

omit [LinearOrder G] [IsOrderedAddMonoid G] in
/-- The key at a position of a grid. -/
theorem OnGrid.getElem?_keys_iff (hgrid : OnGrid ts k0 h) {i : ℕ} {k : G} :
    ts.keys[i]? = some k ↔ i < ts.size ∧ k = k0 + i • h := by
  rw [hgrid, List.getElem?_map]
  by_cases hi : i < ts.size
  · rw [List.getElem?_range hi, Option.map_some, Option.some.injEq, eq_comm, and_iff_right hi]
  · rw [List.getElem?_eq_none (by rw [List.length_range]; omega), Option.map_none]
    constructor
    · rintro ⟨⟩
    · exact fun hk => absurd hk.1 hi

/-- The keys of a grid increase. -/
theorem OnGrid.strictlyIncreasing (hgrid : OnGrid ts k0 h) (hh : 0 < h) :
    ts.StrictlyIncreasing := by
  unfold StrictlyIncreasing
  rw [hgrid, List.pairwise_map]
  refine List.pairwise_lt_range.imp fun hij => ?_
  exact (add_lt_add_iff_left k0).mpr (nsmul_left_strictMono hh hij)

/-- On a grid the date `m` steps before a key is the key `m` positions before. -/
theorem OnGrid.prior_iff (hgrid : OnGrid ts k0 h) (hh : 0 < h) {i j m : ℕ} {k : G}
    (hk : ts.keys[i]? = some k) : ts.keys[j]? = some (k - m • h) ↔ m + j = i := by
  obtain ⟨hlt, heq⟩ := hgrid.getElem?_keys_iff.mp hk
  rw [hgrid.getElem?_keys_iff, sub_eq_iff_eq_add, heq, add_assoc, add_right_inj, ← add_nsmul,
    (nsmul_left_strictMono hh).injective.eq_iff]
  omega

/-- On a grid the rows of `skip` are the rows with their prior rows. -/
theorem OnGrid.listsPriors {func : V → V → V} {result : TimeSeries G V} {m : ℕ}
    (hgrid : OnGrid ts k0 h) (hh : 0 < h) (hkeys : result.keys = ts.keys.drop m)
    (hvalues : result.values = List.zipWith func (ts.values.drop m) ts.values) :
    ListsPriors ts (fun k => k - m • h) func result := by
  have hinc := hgrid.strictlyIncreasing hh
  refine ⟨?_, fun k u => ?_⟩
  · unfold StrictlyIncreasing
    rw [hkeys]
    exact List.Pairwise.sublist (List.drop_sublist m ts.keys) hinc
  · constructor
    · intro hrow
      obtain ⟨j, hj⟩ := List.mem_iff_getElem?.mp hrow
      obtain ⟨hk, hu⟩ := getElem?_rows_eq_some.mp hj
      rw [hkeys, List.getElem?_drop] at hk
      rw [hvalues, List.getElem?_zipWith_eq_some] at hu
      obtain ⟨v, w, hv, hw, rfl⟩ := hu
      rw [List.getElem?_drop] at hv
      have hprior := (hgrid.prior_iff hh hk).mpr rfl
      exact ⟨v, w, List.mem_of_getElem? (getElem?_rows_eq_some.mpr ⟨hk, hv⟩),
        List.mem_of_getElem? (getElem?_rows_eq_some.mpr ⟨hprior, hw⟩), rfl⟩
    · rintro ⟨v, w, hrow, hprior, rfl⟩
      obtain ⟨i, hi⟩ := List.mem_iff_getElem?.mp hrow
      obtain ⟨j, hj⟩ := List.mem_iff_getElem?.mp hprior
      obtain ⟨hik, hiv⟩ := getElem?_rows_eq_some.mp hi
      obtain ⟨hjk, hjw⟩ := getElem?_rows_eq_some.mp hj
      have hpos := (hgrid.prior_iff hh hik).mp hjk
      refine List.mem_iff_getElem?.mpr ⟨j, getElem?_rows_eq_some.mpr ⟨?_, ?_⟩⟩
      · rw [hkeys, List.getElem?_drop, hpos]
        exact hik
      · rw [hvalues, List.getElem?_zipWith_eq_some]
        exact ⟨v, w, by rwa [List.getElem?_drop, hpos], hjw, rfl⟩

end Grid

/-- `skip_on_index` lists the prior rows exactly if every value of an index date is kept, and
under the same condition it agrees with `skip` on a regular grid. -/
theorem skipOnIndex_listsPriors_iff (ts : TimeSeries K V) (idxFunc : K → K) (func : V → V → V)
    (hts : ts.StrictlyIncreasing) :
    ((∃ result, skipOnIndex int32 ts idxFunc func = .ok result ∧
      ListsPriors ts idxFunc func result) ↔ KeepsPriors ts idxFunc func) ∧
    ∀ {G : Type} [AddCommGroup G] [LinearOrder G] [IsOrderedAddMonoid G] (grid : TimeSeries G V)
      (k0 h : G) (m : ℕ), 0 < h → OnGrid grid k0 h → m ≤ grid.size →
      (skipOnIndex int32 grid (fun k => k - m • h) func = grid.skip m func ↔
        KeepsPriors grid (fun k => k - m • h) func) := by
  refine ⟨⟨?_, exists_listsPriors hts⟩, ?_⟩
  · rintro ⟨result, hok, hlists⟩
    exact keepsPriors_of_listsPriors hts hok hlists
  · intro G _ _ _ grid k0 h m hh hgrid hm
    have hinc := hgrid.strictlyIncreasing hh
    obtain ⟨result, hskip, hkeys, hvalues⟩ := skip_eq_ok hm func
    have hlists := hgrid.listsPriors hh hkeys hvalues
    rw [hskip]
    constructor
    · exact fun hok => keepsPriors_of_listsPriors hinc hok hlists
    · intro hkeeps
      obtain ⟨result', hok, hlists'⟩ := exists_listsPriors hinc hkeeps
      rw [hok, hlists.unique hlists']

/-- Differences to the row one step of ten before. -/
theorem skipOnIndex_listsPriors_step :
    skipOnIndex int32 (ofRows [((10 : ℤ), (1 : ℤ)), (20, 2), (30, 4)]) (fun k => k - 1 • 10)
        (· - ·) = (ofRows [((10 : ℤ), (1 : ℤ)), (20, 2), (30, 4)]).skip 1 (· - ·) ∧
      (ofRows [((10 : ℤ), (1 : ℤ)), (20, 2), (30, 4)]).skip 1 (· - ·) =
        .ok (ofRows [(20, 1), (30, 2)]) := by
  refine ⟨?_, rfl⟩
  exact ((skipOnIndex_listsPriors_iff (ofRows [((10 : ℤ), (1 : ℤ)), (20, 2), (30, 4)])
    (fun k => k - 1 • 10) (· - ·) (by decide)).2 (ofRows [((10 : ℤ), (1 : ℤ)), (20, 2), (30, 4)])
    10 10 1 (by decide) rfl (by decide)).mpr (keepsPriors_of_size_le (by decide))

/-- The row of the first key that an `int` cannot count is not found. -/
theorem not_listsPriors_countingSeries :
    (countingSeries (2 ^ 31 + 1)).StrictlyIncreasing ∧
      ¬ ∃ result, skipOnIndex int32 (countingSeries (2 ^ 31 + 1)) (fun k => k) (· + ·) =
        .ok result ∧ ListsPriors (countingSeries (2 ^ 31 + 1)) (fun k => k) (· + ·) result := by
  have hinc := countingSeries_increasing (2 ^ 31 + 1)
  refine ⟨hinc, ?_⟩
  rintro ⟨result, hok, hlists⟩
  have hkey := getElem?_keys_countingSeries (Nat.lt_add_one (2 ^ 31))
  obtain ⟨v, hrow⟩ := exists_row_of_key hkey
  have hlow := (keepsPriors_of_listsPriors hinc hok hlists _ v (2 ^ 31) v
    (List.mem_of_getElem? hrow) hrow).1
  omega

end TimeSeries

end Tspp
