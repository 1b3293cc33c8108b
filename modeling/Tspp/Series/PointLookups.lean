import Tspp.Series.Lookup

/-!
# Point lookups

`at` and `try_at` search the keys by halving, `at_or_first_prior` and
`at_or_first_following` one by one with a strict and a non-strict comparison. Each derives
from the position found the index for which it calls `get_value`, or reports that there is
none. On strictly increasing keys the three searches stop at the date or beside it.
-/

namespace Tspp

namespace TimeSeries

variable {K V : Type} [LinearOrder K]

section Definitions

variable (toInt : ℤ → ℤ)

/-- `locate` by predicate: whether a key satisfies it, and the position of the first that does. -/
def locateIf (ts : TimeSeries K V) (datePred : K → Bool) : Bool × ℤ :=
  let key := ts.keys.findIdx datePred
  (key != ts.keys.length, key)

/-- `at_or_first_prior` -/
def atOrFirstPrior (ts : TimeSeries K V) (d : K) : Except Fault V :=
  let loc := ts.locateIf fun dt => decide (dt > d)
  let precondMet := !(loc.1 && loc.2 == 0)
  if precondMet then ts.getValue (toInt (loc.2 - 1))
  else .error (.timeSeriesError "date key not found")

/-- `at_or_first_following` -/
def atOrFirstFollowing (ts : TimeSeries K V) (d : K) : Except Fault V :=
  let loc := ts.locateIf fun dt => decide (dt ≥ d)
  let precondMet := loc.1
  if precondMet then ts.getValue (toInt loc.2)
  else .error (.timeSeriesError "date key not found")

/-- The index for which `at` and `try_at` call `get_value`, if they do. -/
def atIndex (ts : TimeSeries K V) (d : K) : Option ℤ :=
  let loc := ts.locate d
  if loc.1 then some (toInt loc.2) else none

/-- The index for which `at_or_first_prior` calls `get_value`, if it does. -/
def priorIndex (ts : TimeSeries K V) (d : K) : Option ℤ :=
  let loc := ts.locateIf fun dt => decide (dt > d)
  if loc.1 && loc.2 == 0 then none else some (toInt (loc.2 - 1))

/-- The index for which `at_or_first_following` calls `get_value`, if it does. -/
def followingIndex (ts : TimeSeries K V) (d : K) : Option ℤ :=
  let loc := ts.locateIf fun dt => decide (dt ≥ d)
  if loc.1 then some (toInt loc.2) else none

/-- `get_value` for an index, or a report that there is none. -/
def getValueOrThrow (ts : TimeSeries K V) : Option ℤ → Except Fault V
  | some idx => ts.getValue idx
  | none => .error (.timeSeriesError "date key not found")

variable (ts : TimeSeries K V) (d : K)

/-- `at` reports a missing index by throwing. -/
theorem atKey_eq : ts.atKey toInt d = ts.getValueOrThrow (ts.atIndex toInt d) := by
  simp only [atKey, atIndex]
  split <;> rfl

/-- `try_at` reports a missing index by returning nothing. -/
theorem tryAt_eq : ts.tryAt toInt d =
    match ts.atIndex toInt d with
    | some idx => (ts.getValue idx).map some
    | none => .ok none := by
  simp only [tryAt, atIndex]
  split <;> rfl

theorem atOrFirstPrior_eq :
    ts.atOrFirstPrior toInt d = ts.getValueOrThrow (ts.priorIndex toInt d) := by
  simp only [atOrFirstPrior, priorIndex]
  cases (ts.locateIf fun dt => decide (dt > d)).1 &&
    (ts.locateIf fun dt => decide (dt > d)).2 == 0 <;> rfl

theorem atOrFirstFollowing_eq :
    ts.atOrFirstFollowing toInt d = ts.getValueOrThrow (ts.followingIndex toInt d) := by
  simp only [atOrFirstFollowing, followingIndex]
  split <;> rfl

end Definitions

section Positions

variable {toInt : ℤ → ℤ} {ts : TimeSeries K V} {d : K}

omit [LinearOrder K] in
/-- A search by predicate finds a key exactly if it stops before the end. -/
theorem locateIf_eq {p : K → Bool} {q : ℕ} (h : ts.keys.findIdx p = q) :
    ts.locateIf p = (decide (q < ts.size), (q : ℤ)) := by
  have hle : q ≤ ts.size := h ▸ List.findIdx_le_length
  have hfound : (q != ts.keys.length) = decide (q < ts.size) := by
    rw [Bool.eq_iff_iff, bne_iff_ne, decide_eq_true_eq, ← size]
    omega
  rw [locateIf, h, hfound]

/-- `at_or_first_following` reads the position where its search stops, unless it is the end. -/
theorem followingIndex_eq {q : ℕ} (h : (ts.keys.findIdx fun dt => decide (dt ≥ d)) = q) :
    ts.followingIndex toInt d = if q < ts.size then some (toInt q) else none := by
  simp only [followingIndex, locateIf_eq h, decide_eq_true_eq]

/-- `at_or_first_prior` reads one position before its search stops, unless it stops at a first
key. -/
theorem priorIndex_eq {q : ℕ} (h : (ts.keys.findIdx fun dt => decide (dt > d)) = q) :
    ts.priorIndex toInt d =
      if 0 < ts.size ∧ q = 0 then none else some (toInt ((q : ℤ) - 1)) := by
  simp only [priorIndex, locateIf_eq h, Bool.and_eq_true, decide_eq_true_eq, beq_iff_eq]
  split_ifs <;> first | rfl | omega

/-- `at` and `try_at` read the position where halving stops, if the date stands there. -/
theorem atIndex_eq : ts.atIndex toInt d =
    if ts.keys[LowerBound.lowerBound ts.keys d]? = some d then
      some (toInt (LowerBound.lowerBound ts.keys d)) else none := by
  simp only [atIndex, locate, beq_iff_eq]

/-- On strictly increasing keys all lookups of a key read its position. -/
theorem index_of_key (toInt : ℤ → ℤ) (h : ts.StrictlyIncreasing) {i : ℕ}
    (hd : ts.keys[i]? = some d) :
    ts.atIndex toInt d = some (toInt i) ∧ ts.priorIndex toInt d = some (toInt i) ∧
      ts.followingIndex toInt d = some (toInt i) := by
  have hi : i < ts.size := (List.getElem?_eq_some_iff.mp hd).1
  refine ⟨?_, ?_, ?_⟩
  · simp only [atIndex, locate_row h hd, ite_true]
  · rw [priorIndex_eq (LowerBound.findIdx_gt_of_mem h hd), if_neg (by omega)]
    congr 2
    omega
  · have hloc := congrArg Prod.snd (locate_row h hd)
    have hq : (ts.keys.findIdx fun dt => decide (dt ≥ d)) = i := by
      rw [LowerBound.findIdx_ge_eq_lowerBound h.nonDecreasing]
      exact Int.ofNat_inj.mp hloc
    rw [followingIndex_eq hq, if_pos hi]

/-- On ordered keys the lookups of a missing date read the positions on both sides of the place
where it would be. -/
theorem index_of_missing (toInt : ℤ → ℤ) (h : ts.NonDecreasing) (hne : 0 < ts.size)
    (hd : d ∉ ts.keys) :
    ts.atIndex toInt d = none ∧
    ts.priorIndex toInt d = (if LowerBound.lowerBound ts.keys d = 0 then none
      else some (toInt ((LowerBound.lowerBound ts.keys d : ℤ) - 1))) ∧
    ts.followingIndex toInt d = (if LowerBound.lowerBound ts.keys d < ts.size then
      some (toInt (LowerBound.lowerBound ts.keys d)) else none) := by
  refine ⟨?_, ?_, ?_⟩
  · rw [atIndex_eq, if_neg]
    exact fun hfound => hd (List.mem_of_getElem? hfound)
  · rw [priorIndex_eq (LowerBound.findIdx_gt_of_notMem h hd)]
    simp only [hne, true_and]
  · exact followingIndex_eq (LowerBound.findIdx_ge_eq_lowerBound h d)

end Positions

/-- All lookups of the key `k` call `get_value` for the position `i`. -/
structure ReadsRow (toInt : ℤ → ℤ) (ts : TimeSeries K V) (k : K) (i : ℕ) : Prop where
  at_index : ts.atIndex toInt k = some (i : ℤ)
  prior_index : ts.priorIndex toInt k = some (i : ℤ)
  following_index : ts.followingIndex toInt k = some (i : ℤ)

/-- All lookups of `d` return `v`. -/
structure AllReturn (toInt : ℤ → ℤ) (ts : TimeSeries K V) (d : K) (v : V) : Prop where
  at_eq : ts.atKey toInt d = .ok v
  tryAt_eq : ts.tryAt toInt d = .ok (some v)
  prior_eq : ts.atOrFirstPrior toInt d = .ok v
  following_eq : ts.atOrFirstFollowing toInt d = .ok v

/-- Lookups that call `get_value` for one index all return its value. -/
theorem allReturn_of_index {toInt : ℤ → ℤ} {ts : TimeSeries K V} {d : K} {idx : ℤ} {v : V}
    (hat : ts.atIndex toInt d = some idx) (hprior : ts.priorIndex toInt d = some idx)
    (hfollowing : ts.followingIndex toInt d = some idx) (hget : ts.getValue idx = .ok v) :
    AllReturn toInt ts d v := by
  refine ⟨?_, ?_, ?_, ?_⟩
  · rw [atKey_eq, hat]
    exact hget
  · rw [tryAt_eq, hat]
    exact congrArg (Except.map some) hget
  · rw [atOrFirstPrior_eq, hprior]
    exact hget
  · rw [atOrFirstFollowing_eq, hfollowing]
    exact hget

/-- On strictly increasing keys the lookups of a key read its row exactly if the conversion keeps
its position. -/
theorem readsRow_iff {toInt : ℤ → ℤ} {ts : TimeSeries K V} (h : ts.StrictlyIncreasing) {k : K}
    {i : ℕ} (hk : ts.keys[i]? = some k) : ReadsRow toInt ts k i ↔ toInt i = i := by
  obtain ⟨hat, hprior, hfollowing⟩ := index_of_key toInt h hk
  constructor
  · intro hreads
    exact Option.some.inj (hat.symm.trans hreads.at_index)
  · intro hpos
    rw [hpos] at hat hprior hfollowing
    exact ⟨hat, hprior, hfollowing⟩

/-- On strictly increasing keys the lookups of the key at a position read that position exactly
if it is below `2 ^ 31`, and then return the value stored there. -/
theorem readsRow_int32_iff (ts : TimeSeries K V) (i : ℕ) (k : K) (h : ts.StrictlyIncreasing)
    (hk : ts.keys[i]? = some k) :
    (ReadsRow int32 ts k i ↔ i < 2 ^ 31) ∧
      (i < 2 ^ 31 → ∀ v, ts.values[i]? = some v → AllReturn int32 ts k v) := by
  have hiff : ReadsRow int32 ts k i ↔ i < 2 ^ 31 := (readsRow_iff h hk).trans int32_eq_self_iff
  refine ⟨hiff, fun hi v hv => ?_⟩
  have hreads := hiff.mpr hi
  exact allReturn_of_index hreads.at_index hreads.prior_index hreads.following_index
    (getValue_natCast hv)

/-- The second of two rows. -/
theorem readsRow_int32_second : AllReturn int32 (ofRows [((10 : ℤ), (1 : ℤ)), (20, 2)]) 20 2 :=
  (readsRow_int32_iff (ofRows [((10 : ℤ), (1 : ℤ)), (20, 2)]) 1 20 (by decide) (by decide)).2
    (by decide) 2 (by decide)

/-- The first row that an `int` cannot count is not read. -/
theorem not_readsRow_countingSeries :
    (countingSeries (2 ^ 31 + 1)).StrictlyIncreasing ∧
      (countingSeries (2 ^ 31 + 1)).keys[2 ^ 31]? = some ((2 ^ 31 : ℕ) : ℤ) ∧
      ¬ ReadsRow int32 (countingSeries (2 ^ 31 + 1)) ((2 ^ 31 : ℕ) : ℤ) (2 ^ 31) := by
  have hkey := getElem?_keys_countingSeries (Nat.lt_add_one (2 ^ 31))
  refine ⟨countingSeries_increasing _, hkey, ?_⟩
  rw [readsRow_iff (countingSeries_increasing _) hkey, int32_eq_self_iff]
  exact lt_irrefl _

/-- A lookup reports failure, or calls `get_value` for an index of the series. -/
def ReadsInside (ts : TimeSeries K V) (index : Option ℤ) : Prop :=
  ∀ idx, index = some idx → 0 ≤ idx ∧ idx < ts.size

/-- The positions that the lookups of `d` read, whatever the order of the keys. -/
inductive IsReadPosition (ts : TimeSeries K V) (d : K) (p : ℕ) : Prop
  /-- Halving stops at the date. -/
  | found (hp : ts.keys[p]? = some d) (hstop : LowerBound.lowerBound ts.keys d = p)
  /-- The first key that is not before the date. -/
  | following (hp : ∃ k, ts.keys[p]? = some k ∧ d ≤ k)
      (hbefore : ∀ j k, j < p → ts.keys[j]? = some k → k < d)
  /-- The last of the leading keys that are not after the date. -/
  | prior (hp : p < ts.size) (hupto : ∀ j k, j ≤ p → ts.keys[j]? = some k → k ≤ d)
      (hnext : ∀ k, ts.keys[p + 1]? = some k → d < k)

/-- The lookups derive their indices from positions of the series. -/
theorem IsReadPosition.lt_size {ts : TimeSeries K V} {d : K} {p : ℕ} (h : IsReadPosition ts d p) :
    p < ts.size := by
  cases h with
  | found hp _ => exact (List.getElem?_eq_some_iff.mp hp).1
  | following hp _ =>
    obtain ⟨k, hk, _⟩ := hp
    exact (List.getElem?_eq_some_iff.mp hk).1
  | prior hp _ _ => exact hp

section Inside

variable {ts : TimeSeries K V} {d : K}

omit [LinearOrder K] in
/-- A position converted to an `int` is inside the series exactly if its low 32 bits are not
negative. -/
theorem readsInside_int32_iff {p : ℕ} (hp : p < ts.size) :
    ReadsInside ts (some (int32 p)) ↔ p % 2 ^ 32 < 2 ^ 31 := by
  rw [← int32_inside_iff hp]
  constructor
  · exact fun h => h _ rfl
  · intro h idx hidx
    obtain rfl := Option.some.inj hidx
    exact h

omit [LinearOrder K] in
theorem readsInside_none : ReadsInside ts none := fun _ h => by cases h

omit [LinearOrder K] in
/-- `get_value` leaves the value container exactly for an index that is not inside. -/
theorem getValueOrThrow_eq_outOfRange_iff {index : Option ℤ} :
    ts.getValueOrThrow index = .error .outOfRange ↔ ¬ ReadsInside ts index := by
  cases index with
  | none =>
    constructor
    · rintro ⟨⟩
    · exact fun h => absurd readsInside_none h
  | some idx =>
    have hread : ReadsInside ts (some idx) ↔ 0 ≤ idx ∧ idx < ts.size := by
      refine ⟨fun h => h idx rfl, fun h idx' hidx => ?_⟩
      rwa [← Option.some.inj hidx]
    rw [hread, getValueOrThrow, getValue, ← length_values]
    split
    · next hneg => exact ⟨fun _ => by omega, fun _ => rfl⟩
    · split
      · next v hv =>
        have hlen := (List.getElem?_eq_some_iff.mp hv).1
        constructor
        · rintro ⟨⟩
        · exact fun h => absurd ⟨by omega, by omega⟩ h
      · next hv =>
        have hlen := List.getElem?_eq_none_iff.mp hv
        exact ⟨fun _ => by omega, fun _ => rfl⟩

omit [LinearOrder K] in
/-- Wrapping the value that is read changes no failure. -/
theorem map_some_eq_error_iff {result : Except Fault V} {e : Fault} :
    result.map some = .error e ↔ result = .error e := by
  cases result <;> simp [Except.map]

/-- `try_at` leaves the value container exactly if `at` does. -/
theorem tryAt_eq_outOfRange_iff {toInt : ℤ → ℤ} :
    ts.tryAt toInt d = .error .outOfRange ↔ ¬ ReadsInside ts (ts.atIndex toInt d) := by
  rw [tryAt_eq, ← getValueOrThrow_eq_outOfRange_iff]
  cases ts.atIndex toInt d with
  | none =>
    constructor
    · rintro ⟨⟩
    · rintro ⟨⟩
  | some idx => exact map_some_eq_error_iff

/-- A position read by `at` is where halving stops. -/
theorem readsInside_atIndex_iff : ReadsInside ts (ts.atIndex int32 d) ↔
    ∀ p, ts.keys[p]? = some d → LowerBound.lowerBound ts.keys d = p → p % 2 ^ 32 < 2 ^ 31 := by
  rw [atIndex_eq]
  split
  · next hfound =>
    rw [readsInside_int32_iff (List.getElem?_eq_some_iff.mp hfound).1]
    constructor
    · rintro h _ _ rfl
      exact h
    · exact fun h => h _ hfound rfl
  · next hmissing =>
    refine ⟨?_, fun _ => readsInside_none⟩
    rintro _ p hp rfl
    exact absurd hp hmissing

/-- A position read by `at_or_first_following` is the first whose key is not before the date. -/
theorem readsInside_followingIndex_iff : ReadsInside ts (ts.followingIndex int32 d) ↔
    ∀ p, (∃ k, ts.keys[p]? = some k ∧ d ≤ k) →
      (∀ j k, j < p → ts.keys[j]? = some k → k < d) → p % 2 ^ 32 < 2 ^ 31 := by
  obtain ⟨q, hq⟩ : ∃ q, (ts.keys.findIdx fun dt => decide (dt ≥ d)) = q := ⟨_, rfl⟩
  obtain ⟨_, hbefore, hat⟩ := LowerBound.findIdx_eq_iff.mp hq
  rw [followingIndex_eq hq]
  -- Both descriptions of the position read fix it.
  have hstop : ∀ p, (∃ k, ts.keys[p]? = some k ∧ d ≤ k) →
      (∀ j k, j < p → ts.keys[j]? = some k → k < d) → p = q := by
    rintro p ⟨k, hp, hge⟩ hall
    rw [← hq, eq_comm, LowerBound.findIdx_eq_iff]
    refine ⟨(List.getElem?_eq_some_iff.mp hp).1.le, fun j x hj hx => ?_, fun x hx => ?_⟩
    · exact decide_eq_false (not_le.mpr (hall j x hj hx))
    · rw [hp] at hx
      cases hx
      exact decide_eq_true hge
  by_cases hlt : q < ts.size
  · rw [if_pos hlt, readsInside_int32_iff hlt]
    constructor
    · intro h p hp hall
      rwa [hstop p hp hall]
    · intro h
      have hkey := List.getElem?_eq_getElem (show q < ts.keys.length from hlt)
      exact h q ⟨_, hkey, of_decide_eq_true (hat _ hkey)⟩ fun j k hj hk =>
        not_le.mp (of_decide_eq_false (hbefore j k hj hk))
  · rw [if_neg hlt]
    refine ⟨fun _ p hp hall => ?_, fun _ => readsInside_none⟩
    obtain rfl := hstop p hp hall
    obtain ⟨k, hk, _⟩ := hp
    exact absurd (List.getElem?_eq_some_iff.mp hk).1 hlt

/-- A position read by `at_or_first_prior` is the last of the leading keys not after the date. -/
theorem readsInside_priorIndex_iff (hne : 0 < ts.size) :
    ReadsInside ts (ts.priorIndex int32 d) ↔
      ∀ p, p < ts.size → (∀ j k, j ≤ p → ts.keys[j]? = some k → k ≤ d) →
        (∀ k, ts.keys[p + 1]? = some k → d < k) → p % 2 ^ 32 < 2 ^ 31 := by
  obtain ⟨q, hq⟩ : ∃ q, (ts.keys.findIdx fun dt => decide (dt > d)) = q := ⟨_, rfl⟩
  obtain ⟨hle, hupto, hat⟩ := LowerBound.findIdx_eq_iff.mp hq
  rw [priorIndex_eq hq]
  have hstop : ∀ p, p < ts.size → (∀ j k, j ≤ p → ts.keys[j]? = some k → k ≤ d) →
      (∀ k, ts.keys[p + 1]? = some k → d < k) → q = p + 1 := by
    intro p hp hall hnext
    rw [← hq, LowerBound.findIdx_eq_iff]
    refine ⟨hp, fun j x hj hx => ?_, fun x hx => decide_eq_true (hnext x hx)⟩
    exact decide_eq_false (not_lt.mpr (hall j x (Nat.le_of_lt_succ hj) hx))
  cases q with
  | zero =>
    rw [if_pos ⟨hne, rfl⟩]
    refine ⟨fun _ p hp hall hnext => ?_, fun _ => readsInside_none⟩
    cases hstop p hp hall hnext
  | succ p =>
    have hidx : ((p + 1 : ℕ) : ℤ) - 1 = p := by omega
    rw [if_neg (by omega), hidx, readsInside_int32_iff hle]
    constructor
    · intro h p' hp' hall hnext
      obtain rfl : p = p' := Nat.succ.inj (hstop p' hp' hall hnext)
      exact h
    · intro h
      refine h p hle (fun j k hj hk => ?_) fun k hk => of_decide_eq_true (hat k hk)
      exact not_lt.mp (of_decide_eq_false (hupto j k (Nat.lt_succ_of_le hj) hk))

/-- On a series without rows `at_or_first_prior` calls `get_value` for the index before the
first. -/
theorem not_readsInside_priorIndex_of_empty (hempty : ts.size = 0) :
    ¬ ReadsInside ts (ts.priorIndex int32 d) := by
  have hq : (ts.keys.findIdx fun dt => decide (dt > d)) = 0 := by
    rw [List.eq_nil_of_length_eq_zero (show ts.keys.length = 0 from hempty)]
    rfl
  rw [priorIndex_eq hq, if_neg (by omega)]
  intro h
  exact absurd (h _ rfl).1 (by decide)

end Inside

/-- The lookups of a date call `get_value` for indices of the series only exactly if it has rows
and every position read for the date has low 32 bits that are not negative. For any other index
a lookup leaves the value container. -/
theorem lookups_readInside_iff (ts : TimeSeries K V) (d : K) :
    ((ReadsInside ts (ts.atIndex int32 d) ∧ ReadsInside ts (ts.priorIndex int32 d) ∧
        ReadsInside ts (ts.followingIndex int32 d)) ↔
      0 < ts.size ∧ ∀ p, IsReadPosition ts d p → p % 2 ^ 32 < 2 ^ 31) ∧
    (ts.atKey int32 d = .error .outOfRange ↔ ¬ ReadsInside ts (ts.atIndex int32 d)) ∧
    (ts.tryAt int32 d = .error .outOfRange ↔ ¬ ReadsInside ts (ts.atIndex int32 d)) ∧
    (ts.atOrFirstPrior int32 d = .error .outOfRange ↔
      ¬ ReadsInside ts (ts.priorIndex int32 d)) ∧
    (ts.atOrFirstFollowing int32 d = .error .outOfRange ↔
      ¬ ReadsInside ts (ts.followingIndex int32 d)) := by
  refine ⟨?_, ?_, tryAt_eq_outOfRange_iff, ?_, ?_⟩
  · rcases Nat.eq_zero_or_pos ts.size with hempty | hne
    · constructor
      · exact fun h => absurd h.2.1 (not_readsInside_priorIndex_of_empty hempty)
      · exact fun h => absurd h.1 (by omega)
    · rw [readsInside_atIndex_iff, readsInside_priorIndex_iff hne, readsInside_followingIndex_iff]
      constructor
      · intro ⟨hat, hprior, hfollowing⟩
        refine ⟨hne, fun p hp => ?_⟩
        cases hp with
        | found hp hstop => exact hat p hp hstop
        | following hp hbefore => exact hfollowing p hp hbefore
        | prior hp hupto hnext => exact hprior p hp hupto hnext
      · intro ⟨_, h⟩
        exact ⟨fun p hp hstop => h p (.found hp hstop),
          fun p hp hupto hnext => h p (.prior hp hupto hnext),
          fun p hp hbefore => h p (.following hp hbefore)⟩
  · rw [atKey_eq, getValueOrThrow_eq_outOfRange_iff]
  · rw [atOrFirstPrior_eq, getValueOrThrow_eq_outOfRange_iff]
  · rw [atOrFirstFollowing_eq, getValueOrThrow_eq_outOfRange_iff]

/-- The prior date of a series without rows is read before the beginning. -/
theorem not_readsInside_empty :
    ¬ (ReadsInside (ofRows ([] : List (ℤ × ℤ))) ((ofRows ([] : List (ℤ × ℤ))).atIndex int32 0) ∧
      ReadsInside (ofRows ([] : List (ℤ × ℤ))) ((ofRows ([] : List (ℤ × ℤ))).priorIndex int32 0) ∧
      ReadsInside (ofRows ([] : List (ℤ × ℤ)))
        ((ofRows ([] : List (ℤ × ℤ))).followingIndex int32 0)) := by
  rintro ⟨_, hprior, _⟩
  exact absurd (hprior (-1) (by decide)).1 (by decide)

end TimeSeries

end Tspp
