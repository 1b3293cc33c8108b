import Tspp.Series.PointLookups

/-!
# Agreement of the point lookups

A key is read at its position by every lookup. A missing date stands in a gap between the
keys: `at` and `try_at` report it, `at_or_first_prior` reads the row before the gap and
`at_or_first_following` the row behind it, each unless there is none.
-/

namespace Tspp

namespace TimeSeries

variable {K V : Type} [LinearOrder K]

/-- The four lookups of a date find the same key, or report the date and read beside it. -/
structure LookupsAgree (toInt : ℤ → ℤ) (ts : TimeSeries K V) (d : K) : Prop where
  at_iff : (∃ v, ts.atKey toInt d = .ok v) ↔ d ∈ ts.keys
  tryAt_iff : (∃ v, ts.tryAt toInt d = .ok (some v)) ↔ d ∈ ts.keys
  key : ∀ v, (d, v) ∈ ts.rows → AllReturn toInt ts d v
  at_throws : d ∉ ts.keys → ∃ e, e.Thrown ∧ ts.atKey toInt d = .error e
  tryAt_none : d ∉ ts.keys → ts.tryAt toInt d = .ok none
  prior : d ∉ ts.keys → ∀ k v, (k, v) ∈ ts.rows → IsGreatest {x | x ∈ ts.keys ∧ x < d} k →
    ts.atOrFirstPrior toInt d = .ok v
  prior_throws : d ∉ ts.keys →
    ((∃ e, e.Thrown ∧ ts.atOrFirstPrior toInt d = .error e) ↔ ∀ x ∈ ts.keys, d < x)
  following : d ∉ ts.keys → ∀ k v, (k, v) ∈ ts.rows → IsLeast {x | x ∈ ts.keys ∧ d < x} k →
    ts.atOrFirstFollowing toInt d = .ok v
  following_throws : d ∉ ts.keys →
    ((∃ e, e.Thrown ∧ ts.atOrFirstFollowing toInt d = .error e) ↔ ∀ x ∈ ts.keys, x < d)
  adjacent : d ∉ ts.keys → ∀ v w, ts.atOrFirstPrior toInt d = .ok v →
    ts.atOrFirstFollowing toInt d = .ok w → ∃ idx : ℤ, ts.priorIndex toInt d = some idx ∧
      ts.followingIndex toInt d = some (idx + 1)

section Agreement

variable {toInt : ℤ → ℤ} {ts : TimeSeries K V} {d : K}

/-- After the conversion `get_value` reads the value that stands at the position. -/
def ReadsValue (toInt : ℤ → ℤ) (ts : TimeSeries K V) (p : ℕ) : Prop :=
  ∀ v, ts.values[p]? = some v → ts.getValue (toInt p) = .ok v

/-- The date lies between the keys before the position `q` and the keys from it on. -/
structure Gap (ts : TimeSeries K V) (d : K) (q : ℕ) : Prop where
  le_size : q ≤ ts.size
  before : ∀ i k, i < q → ts.keys[i]? = some k → k < d
  after : ∀ i k, q ≤ i → ts.keys[i]? = some k → d < k

/-- A missing date stands in a gap between the keys. -/
theorem gap_of_missing (h : ts.NonDecreasing) (hd : d ∉ ts.keys) :
    Gap ts d (LowerBound.lowerBound ts.keys d) := by
  have hsplit := LowerBound.lowerBound_splits h d
  refine ⟨LowerBound.lowerBound_le ts.keys d, hsplit.below, fun i k hi hk => ?_⟩
  refine lt_of_le_of_ne (hsplit.above i k hi hk) ?_
  rintro rfl
  exact hd (List.mem_of_getElem? hk)

/-- The greatest key before a missing date stands right before the gap. -/
theorem Gap.isGreatest_iff {q j : ℕ} {k : K} (hgap : Gap ts d q) (h : ts.StrictlyIncreasing)
    (hk : ts.keys[j]? = some k) : IsGreatest {x | x ∈ ts.keys ∧ x < d} k ↔ j + 1 = q := by
  have hle : q ≤ ts.keys.length := hgap.le_size
  constructor
  · intro hgreatest
    have hj : j < q := by
      by_contra hjq
      exact lt_asymm hgreatest.1.2 (hgap.after j k (not_lt.mp hjq) hk)
    by_contra hne
    have hnext := List.getElem?_eq_getElem (show j + 1 < ts.keys.length by omega)
    have hbefore := hgap.before (j + 1) _ (by omega) hnext
    have hgt := (SortedKeys.lt_iff h hk hnext).mpr (Nat.lt_succ_self j)
    exact absurd (hgreatest.2 ⟨List.mem_of_getElem? hnext, hbefore⟩) (not_le.mpr hgt)
  · rintro rfl
    refine ⟨⟨List.mem_of_getElem? hk, hgap.before j k (Nat.lt_succ_self j) hk⟩, ?_⟩
    rintro x ⟨hx, hlt⟩
    obtain ⟨i, hi⟩ := List.mem_iff_getElem?.mp hx
    have hij : i < j + 1 := by
      by_contra hji
      exact lt_asymm hlt (hgap.after i x (not_lt.mp hji) hi)
    exact LowerBound.le_of_pairwise h.nonDecreasing hi hk (Nat.le_of_lt_succ hij)

/-- The least key after a missing date stands right behind the gap. -/
theorem Gap.isLeast_iff {q j : ℕ} {k : K} (hgap : Gap ts d q) (h : ts.StrictlyIncreasing)
    (hk : ts.keys[j]? = some k) : IsLeast {x | x ∈ ts.keys ∧ d < x} k ↔ j = q := by
  constructor
  · intro hleast
    have hj : q ≤ j := by
      by_contra hjq
      exact lt_asymm hleast.1.2 (hgap.before j k (not_le.mp hjq) hk)
    by_contra hne
    have hlen := (List.getElem?_eq_some_iff.mp hk).1
    have hfirst := List.getElem?_eq_getElem (show q < ts.keys.length by omega)
    have hafter := hgap.after q _ (Nat.le_refl q) hfirst
    have hlt := (SortedKeys.lt_iff h hfirst hk).mpr (by omega)
    exact absurd (hleast.2 ⟨List.mem_of_getElem? hfirst, hafter⟩) (not_le.mpr hlt)
  · rintro rfl
    refine ⟨⟨List.mem_of_getElem? hk, hgap.after j k (Nat.le_refl j) hk⟩, ?_⟩
    rintro x ⟨hx, hlt⟩
    obtain ⟨i, hi⟩ := List.mem_iff_getElem?.mp hx
    have hji : j ≤ i := by
      by_contra hij
      exact lt_asymm hlt (hgap.before i x (not_le.mp hij) hi)
    exact LowerBound.le_of_pairwise h.nonDecreasing hk hi hji

/-- The gap is before all keys exactly if they are all after the date. -/
theorem Gap.eq_zero_iff {q : ℕ} (hgap : Gap ts d q) (hne : 0 < ts.size) :
    q = 0 ↔ ∀ x ∈ ts.keys, d < x := by
  constructor
  · rintro rfl x hx
    obtain ⟨i, hi⟩ := List.mem_iff_getElem?.mp hx
    exact hgap.after i x (Nat.zero_le i) hi
  · intro hall
    by_contra hq
    have hfirst := List.getElem?_eq_getElem (show 0 < ts.keys.length from hne)
    exact lt_asymm (hall _ (List.mem_of_getElem? hfirst))
      (hgap.before 0 _ (Nat.pos_of_ne_zero hq) hfirst)

/-- The gap is behind all keys exactly if they are all before the date. -/
theorem Gap.eq_size_iff {q : ℕ} (hgap : Gap ts d q) :
    q = ts.size ↔ ∀ x ∈ ts.keys, x < d := by
  constructor
  · rintro rfl x hx
    obtain ⟨i, hi⟩ := List.mem_iff_getElem?.mp hx
    exact hgap.before i x (List.getElem?_eq_some_iff.mp hi).1 hi
  · intro hall
    by_contra hq
    have hlen : q < ts.keys.length := lt_of_le_of_ne hgap.le_size hq
    have hkey := List.getElem?_eq_getElem hlen
    exact lt_asymm (hall _ (List.mem_of_getElem? hkey)) (hgap.after q _ (Nat.le_refl q) hkey)

/-- The lookups of a missing date read the rows on both sides of its gap. -/
theorem Gap.isReadPosition_iff {p q : ℕ} (hgap : Gap ts d q) (hd : d ∉ ts.keys) :
    IsReadPosition ts d p ↔ p < ts.size ∧ (p = q ∨ p + 1 = q) := by
  have hle := hgap.le_size
  constructor
  · intro hp
    cases hp with
    | found hp _ => exact absurd (List.mem_of_getElem? hp) hd
    | following hp hbefore =>
      obtain ⟨k, hk, hge⟩ := hp
      have hlt : p < ts.keys.length := (List.getElem?_eq_some_iff.mp hk).1
      refine ⟨hlt, Or.inl ?_⟩
      rcases Nat.lt_trichotomy p q with hpq | heq | hqp
      · exact absurd (hgap.before p k hpq hk) (not_lt.mpr hge)
      · exact heq
      · have hkey := List.getElem?_eq_getElem (hqp.trans hlt)
        exact absurd (hbefore q _ hqp hkey) (lt_asymm (hgap.after q _ (Nat.le_refl q) hkey))
    | prior hp hupto hnext =>
      refine ⟨hp, Or.inr ?_⟩
      have hkey := List.getElem?_eq_getElem (show p < ts.keys.length from hp)
      have hpq : p < q := by
        by_contra hqp
        exact absurd (hupto p _ (Nat.le_refl p) hkey)
          (not_le.mpr (hgap.after p _ (not_lt.mp hqp) hkey))
      by_contra hne
      have hnextKey := List.getElem?_eq_getElem (show p + 1 < ts.keys.length by
        rw [size] at hle
        omega)
      exact lt_asymm (hnext _ hnextKey) (hgap.before (p + 1) _ (by omega) hnextKey)
  · rintro ⟨hp, rfl | rfl⟩
    · have hkey := List.getElem?_eq_getElem (show p < ts.keys.length from hp)
      exact .following ⟨_, hkey, (hgap.after p _ (Nat.le_refl p) hkey).le⟩ hgap.before
    · exact .prior hp (fun j k hj hk => (hgap.before j k (Nat.lt_succ_of_le hj) hk).le)
        fun k hk => hgap.after (p + 1) k (Nat.le_refl _) hk

/-- The lookups of a key read its position only. -/
theorem isReadPosition_iff_of_key (h : ts.StrictlyIncreasing) {i p : ℕ}
    (hd : ts.keys[i]? = some d) : IsReadPosition ts d p ↔ p = i := by
  have hi := (List.getElem?_eq_some_iff.mp hd).1
  constructor
  · intro hp
    cases hp with
    | found hp _ => exact SortedKeys.position_unique h hp hd
    | following hp hbefore =>
      obtain ⟨k, hk, hge⟩ := hp
      rcases Nat.lt_trichotomy p i with hpi | heq | hip
      · exact absurd ((SortedKeys.lt_iff h hk hd).mpr hpi) (not_lt.mpr hge)
      · exact heq
      · exact absurd (hbefore i d hip hd) (lt_irrefl d)
    | prior hp hupto hnext =>
      have hkey := List.getElem?_eq_getElem (show p < ts.keys.length from hp)
      rcases Nat.lt_trichotomy p i with hpi | heq | hip
      · have hnextKey := List.getElem?_eq_getElem (show p + 1 < ts.keys.length by omega)
        have hgt := (SortedKeys.lt_iff h hd hnextKey).mp (hnext _ hnextKey)
        omega
      · exact heq
      · exact absurd (hupto p _ (Nat.le_refl p) hkey)
          (not_le.mpr ((SortedKeys.lt_iff h hd hkey).mpr hip))
  · rintro rfl
    exact .found hd (Int.ofNat_inj.mp (congrArg Prod.snd (locate_row h hd)))

/-- The lookups of a key agree exactly if its value is read. -/
theorem lookupsAgree_iff_of_key (h : ts.StrictlyIncreasing) {i : ℕ} (hd : ts.keys[i]? = some d) :
    LookupsAgree toInt ts d ↔ ReadsValue toInt ts i := by
  have hmem := List.mem_of_getElem? hd
  obtain ⟨hat, hprior, hfollowing⟩ := index_of_key toInt h hd
  obtain ⟨v, hrow⟩ := exists_row_of_key hd
  have hv := (getElem?_rows_eq_some.mp hrow).2
  constructor
  · intro hagree w hw
    have heq := (hagree.key v (List.mem_of_getElem? hrow)).at_eq
    rw [atKey_eq, hat] at heq
    rw [Option.some.inj (hw.symm.trans hv)]
    exact heq
  · intro hread
    have hget := hread v hv
    have hall : AllReturn toInt ts d v := allReturn_of_index hat hprior hfollowing hget
    exact {
      at_iff := ⟨fun _ => hmem, fun _ => ⟨v, hall.at_eq⟩⟩
      tryAt_iff := ⟨fun _ => hmem, fun _ => ⟨v, hall.tryAt_eq⟩⟩
      key := fun w hw => by
        obtain rfl := (ts.strictlyIncreasing_iff_rows.mp h).value_unique
          (List.mem_of_getElem? hrow) hw
        exact hall
      at_throws := fun hmissing => absurd hmem hmissing
      tryAt_none := fun hmissing => absurd hmem hmissing
      prior := fun hmissing => absurd hmem hmissing
      prior_throws := fun hmissing => absurd hmem hmissing
      following := fun hmissing => absurd hmem hmissing
      following_throws := fun hmissing => absurd hmem hmissing
      adjacent := fun hmissing => absurd hmem hmissing }

/-- What the lookups of a missing date return, by where its gap is. -/
structure GapResults (toInt : ℤ → ℤ) (ts : TimeSeries K V) (d : K) (q : ℕ) : Prop where
  at_eq : ts.atKey toInt d = .error (.timeSeriesError "date key not found")
  tryAt_eq : ts.tryAt toInt d = .ok none
  prior_zero : q = 0 → ts.atOrFirstPrior toInt d = .error (.timeSeriesError "date key not found")
  prior_succ : ∀ p, p + 1 = q → ts.atOrFirstPrior toInt d = ts.getValue (toInt p) ∧
    ts.priorIndex toInt d = some (toInt p)
  following_end : q = ts.size →
    ts.atOrFirstFollowing toInt d = .error (.timeSeriesError "date key not found")
  following_lt : q < ts.size → ts.atOrFirstFollowing toInt d = ts.getValue (toInt q) ∧
    ts.followingIndex toInt d = some (toInt q)

/-- The lookups of a missing date read beside the place where halving stops. -/
theorem gapResults (toInt : ℤ → ℤ) (h : ts.NonDecreasing) (hne : 0 < ts.size)
    (hd : d ∉ ts.keys) : GapResults toInt ts d (LowerBound.lowerBound ts.keys d) := by
  obtain ⟨hat, hprior, hfollowing⟩ := index_of_missing toInt h hne hd
  constructor
  · rw [atKey_eq, hat]
    rfl
  · rw [tryAt_eq, hat]
  · intro hzero
    rw [atOrFirstPrior_eq, hprior, if_pos hzero]
    rfl
  · intro p hp
    have hidx : ((LowerBound.lowerBound ts.keys d : ℕ) : ℤ) - 1 = p := by omega
    rw [if_neg (by omega), hidx] at hprior
    rw [atOrFirstPrior_eq, hprior]
    exact ⟨rfl, rfl⟩
  · intro hend
    rw [atOrFirstFollowing_eq, hfollowing, if_neg (by omega)]
    rfl
  · intro hlt
    rw [if_pos hlt] at hfollowing
    rw [atOrFirstFollowing_eq, hfollowing]
    exact ⟨rfl, rfl⟩

/-- Lookups of a missing date that agree read the values on both sides of its gap. -/
theorem LookupsAgree.readsValue_of_gap {p q : ℕ} (hagree : LookupsAgree toInt ts d)
    (h : ts.StrictlyIncreasing) (hgap : Gap ts d q) (hres : GapResults toInt ts d q)
    (hd : d ∉ ts.keys) (hp : p < ts.size) (hpq : p = q ∨ p + 1 = q) : ReadsValue toInt ts p := by
  obtain ⟨k, v, hrow⟩ := exists_row hp
  obtain ⟨hk, hv⟩ := getElem?_rows_eq_some.mp hrow
  have hmem := List.mem_of_getElem? hrow
  intro w hw
  rw [Option.some.inj (hw.symm.trans hv)]
  rcases hpq with heq | heq
  · have hfollowing := hagree.following hd k v hmem ((hgap.isLeast_iff h hk).mpr heq)
    rw [(hres.following_lt (heq ▸ hp)).1, ← heq] at hfollowing
    exact hfollowing
  · have hprior := hagree.prior hd k v hmem ((hgap.isGreatest_iff h hk).mpr heq)
    rwa [(hres.prior_succ p heq).1] at hprior

/-- Where the value before the gap is read, the lookup before throws only for a gap before all
rows. -/
theorem GapResults.prior_throws_iff {q : ℕ} (hres : GapResults toInt ts d q)
    (hread : ∀ p, p + 1 = q → ∃ v, ts.getValue (toInt p) = .ok v) :
    (∃ e, e.Thrown ∧ ts.atOrFirstPrior toInt d = .error e) ↔ q = 0 := by
  constructor
  · intro ⟨e, _, herr⟩
    by_contra hpos
    obtain ⟨p, rfl⟩ := Nat.exists_eq_succ_of_ne_zero hpos
    obtain ⟨v, hget⟩ := hread p rfl
    rw [(hres.prior_succ p rfl).1, hget] at herr
    cases herr
  · exact fun hzero => ⟨_, ⟨_, rfl⟩, hres.prior_zero hzero⟩

/-- Where the value behind the gap is read, the lookup behind throws only for a gap behind all
rows. -/
theorem GapResults.following_throws_iff {q : ℕ} (hres : GapResults toInt ts d q)
    (hle : q ≤ ts.size) (hread : q < ts.size → ∃ v, ts.getValue (toInt q) = .ok v) :
    (∃ e, e.Thrown ∧ ts.atOrFirstFollowing toInt d = .error e) ↔ q = ts.size := by
  constructor
  · intro ⟨e, _, herr⟩
    by_contra hend
    have hlt : q < ts.size := lt_of_le_of_ne hle hend
    obtain ⟨v, hget⟩ := hread hlt
    rw [(hres.following_lt hlt).1, hget] at herr
    cases herr
  · exact fun hend => ⟨_, ⟨_, rfl⟩, hres.following_end hend⟩

/-- Where both lookups return, they read for indices on both sides of the gap. -/
theorem GapResults.indices_of_both {q : ℕ} {v w : V} (hres : GapResults toInt ts d q)
    (hle : q ≤ ts.size) (hv : ts.atOrFirstPrior toInt d = .ok v)
    (hw : ts.atOrFirstFollowing toInt d = .ok w) :
    ∃ p, p + 1 = q ∧ q < ts.size ∧ ts.priorIndex toInt d = some (toInt p) ∧
      ts.followingIndex toInt d = some (toInt q) := by
  have hpos : q ≠ 0 := by
    intro hzero
    rw [hres.prior_zero hzero] at hv
    cases hv
  have hlt : q < ts.size := by
    by_contra hend
    rw [hres.following_end (by omega)] at hw
    cases hw
  obtain ⟨p, rfl⟩ := Nat.exists_eq_succ_of_ne_zero hpos
  exact ⟨p, rfl, hlt, (hres.prior_succ p rfl).2, (hres.following_lt hlt).2⟩

/-- Reading the values on both sides of its gap, for indices side by side, the lookups of a
missing date agree. -/
theorem lookupsAgree_of_gap {q : ℕ} (h : ts.StrictlyIncreasing) (hne : 0 < ts.size)
    (hgap : Gap ts d q) (hres : GapResults toInt ts d q) (hd : d ∉ ts.keys)
    (hread : ∀ p < ts.size, p = q ∨ p + 1 = q → ReadsValue toInt ts p)
    (hadjacent : ∀ p, p + 1 = q → q < ts.size → toInt q = toInt p + 1) :
    LookupsAgree toInt ts d := by
  have hle := hgap.le_size
  have hvalue : ∀ p < ts.size, p = q ∨ p + 1 = q → ∃ v, ts.getValue (toInt p) = .ok v := by
    intro p hp hpq
    have hv := List.getElem?_eq_getElem (show p < ts.values.length by rwa [length_values])
    exact ⟨_, hread p hp hpq _ hv⟩
  constructor
  · refine ⟨fun hv => ?_, fun hmem => absurd hmem hd⟩
    obtain ⟨v, hv⟩ := hv
    rw [hres.at_eq] at hv
    cases hv
  · refine ⟨fun hv => ?_, fun hmem => absurd hmem hd⟩
    obtain ⟨v, hv⟩ := hv
    rw [hres.tryAt_eq] at hv
    cases hv
  · exact fun v hrow => absurd (mem_keys_of_mem_rows hrow) hd
  · exact fun _ => ⟨_, ⟨_, rfl⟩, hres.at_eq⟩
  · exact fun _ => hres.tryAt_eq
  · intro _ k v hrow hgreatest
    obtain ⟨j, hj⟩ := List.mem_iff_getElem?.mp hrow
    obtain ⟨hk, hv⟩ := getElem?_rows_eq_some.mp hj
    have heq := (hgap.isGreatest_iff h hk).mp hgreatest
    rw [(hres.prior_succ j heq).1]
    exact hread j (lt_size_of_row hj) (Or.inr heq) v hv
  · intro _
    rw [← hgap.eq_zero_iff hne]
    exact hres.prior_throws_iff fun p hp => hvalue p (by omega) (Or.inr hp)
  · intro _ k v hrow hleast
    obtain ⟨j, hj⟩ := List.mem_iff_getElem?.mp hrow
    obtain ⟨hk, hv⟩ := getElem?_rows_eq_some.mp hj
    obtain rfl := (hgap.isLeast_iff h hk).mp hleast
    rw [(hres.following_lt (lt_size_of_row hj)).1]
    exact hread j (lt_size_of_row hj) (Or.inl rfl) v hv
  · intro _
    rw [← hgap.eq_size_iff]
    exact hres.following_throws_iff hle fun hlt => hvalue q hlt (Or.inl rfl)
  · intro _ v w hv hw
    obtain ⟨p, hp, hlt, hprior, hfollowing⟩ := hres.indices_of_both hle hv hw
    rw [hadjacent p hp hlt] at hfollowing
    exact ⟨toInt p, hprior, hfollowing⟩

end Agreement

section Int32

variable {ts : TimeSeries K V} {d : K}

omit [LinearOrder K] in
/-- The value at a position is read exactly if the position of its low 32 bits holds it. -/
theorem readsValue_int32_iff {p : ℕ} (hp : p < ts.size) :
    ReadsValue int32 ts p ↔
      p % 2 ^ 32 < 2 ^ 31 ∧ ts.values[p % 2 ^ 32]? = ts.values[p]? := by
  have hv := List.getElem?_eq_getElem (show p < ts.values.length by rwa [length_values])
  rw [hv]
  constructor
  · exact fun hread => getValue_int32_eq_ok_iff.mp (hread _ hv)
  · intro hlow v hv'
    rw [hv] at hv'
    cases hv'
    exact getValue_int32_eq_ok_iff.mpr hlow

/-- On a series with rows and strictly increasing keys the lookups of a date agree exactly if
every position read for it has low 32 bits that are not negative, and its value also stands at the
position of the low 32 bits. -/
theorem lookupsAgree_int32_iff (ts : TimeSeries K V) (d : K) (h : ts.StrictlyIncreasing)
    (hne : 0 < ts.size) :
    LookupsAgree int32 ts d ↔ ∀ p, IsReadPosition ts d p →
      p % 2 ^ 32 < 2 ^ 31 ∧ ts.values[p % 2 ^ 32]? = ts.values[p]? := by
  by_cases hd : d ∈ ts.keys
  · obtain ⟨i, hi⟩ := List.mem_iff_getElem?.mp hd
    rw [lookupsAgree_iff_of_key h hi, readsValue_int32_iff (List.getElem?_eq_some_iff.mp hi).1]
    simp only [isReadPosition_iff_of_key h hi, forall_eq]
  · have hgap := gap_of_missing h.nonDecreasing hd
    have hres := gapResults int32 h.nonDecreasing hne hd
    simp only [hgap.isReadPosition_iff hd, and_imp]
    constructor
    · intro hagree p hp hpq
      exact (readsValue_int32_iff hp).mp (hagree.readsValue_of_gap h hgap hres hd hp hpq)
    · intro hlow
      refine lookupsAgree_of_gap h hne hgap hres hd
        (fun p hp hpq => (readsValue_int32_iff hp).mpr (hlow p hp hpq)) fun p hp hlt => ?_
      have hprior := (hlow p (by omega) (Or.inr hp)).1
      have hfollowing := (hlow _ hlt (Or.inl rfl)).1
      unfold int32
      omega

/-- Between two rows the prior and the following value are found. -/
theorem lookupsAgree_int32_between :
    LookupsAgree int32 (ofRows [((10 : ℤ), (1 : ℤ)), (20, 2)]) 15 := by
  refine (lookupsAgree_int32_iff (ofRows [((10 : ℤ), (1 : ℤ)), (20, 2)]) 15 (by decide)
    (by decide)).mpr fun p hp => ?_
  have hlt : p < 2 := hp.lt_size
  rw [Nat.mod_eq_of_lt (by omega)]
  exact ⟨by omega, rfl⟩

/-- The value of the first key that an `int` cannot count is not read. -/
theorem not_lookupsAgree_countingSeries :
    (countingSeries (2 ^ 31 + 1)).StrictlyIncreasing ∧ 0 < (countingSeries (2 ^ 31 + 1)).size ∧
      ¬ LookupsAgree int32 (countingSeries (2 ^ 31 + 1)) ((2 ^ 31 : ℕ) : ℤ) := by
  have hkeys := countingSeries_increasing (2 ^ 31 + 1)
  have hkey := getElem?_keys_countingSeries (Nat.lt_add_one (2 ^ 31))
  have hsize := size_countingSeries (2 ^ 31 + 1)
  refine ⟨hkeys, by omega, ?_⟩
  rw [lookupsAgree_iff_of_key hkeys hkey, readsValue_int32_iff (by omega)]
  rintro ⟨hlow, _⟩
  omega

end Int32

end TimeSeries

end Tspp
