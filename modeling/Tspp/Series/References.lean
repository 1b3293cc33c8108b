import Tspp.Series.LookupsAgree
import Tspp.Core.PartialMap

/-!
# Writing through the point lookups

On a series that may change, the point lookups return references into the value container:
`at(d) = v` replaces a value and leaves the keys alone. A reference is the position in the
container that it refers to. The overloads that return references search as the others do,
so a written value is the one that the same lookup reads back.
-/

namespace Tspp

/-- The point lookups by date. -/
inductive PointLookup
  | atKey
  | tryAt
  | atOrFirstPrior
  | atOrFirstFollowing
  deriving DecidableEq, Repr

namespace TimeSeries

variable {K V : Type}

/-- `get_value` on a series that may change: the position that the reference refers to. -/
def getValueRef (ts : TimeSeries K V) (idx : ℤ) : Except Fault ℕ :=
  if idx < 0 then .error .outOfRange
  else if idx.toNat < ts.values.length then .ok idx.toNat
  else .error .outOfRange

/-- Assignment to the value at a position. -/
def assign (ts : TimeSeries K V) (position : ℕ) (v : V) : TimeSeries K V :=
  ⟨⟨ts.keys, ts.values.set position v⟩, by rw [List.length_set, ts.paired]⟩

variable [LinearOrder K] (toInt : ℤ → ℤ)

/-- `at` on a series that may change. -/
def atKeyRef (ts : TimeSeries K V) (d : K) : Except Fault ℕ :=
  let loc := ts.locate d
  if loc.1 then ts.getValueRef (toInt loc.2) else .error (.timeSeriesError "date key not found")

/-- `try_at` on a series that may change. -/
def tryAtRef (ts : TimeSeries K V) (d : K) : Except Fault (Option ℕ) :=
  let loc := ts.locate d
  if loc.1 then (ts.getValueRef (toInt loc.2)).map some else .ok none

/-- `at_or_first_prior` on a series that may change. -/
def atOrFirstPriorRef (ts : TimeSeries K V) (d : K) : Except Fault ℕ :=
  let loc := ts.locateIf fun dt => decide (dt > d)
  let precondMet := !(loc.1 && loc.2 == 0)
  if precondMet then ts.getValueRef (toInt (loc.2 - 1))
  else .error (.timeSeriesError "date key not found")

/-- `at_or_first_following` on a series that may change. -/
def atOrFirstFollowingRef (ts : TimeSeries K V) (d : K) : Except Fault ℕ :=
  let loc := ts.locateIf fun dt => decide (dt ≥ d)
  let precondMet := loc.1
  if precondMet then ts.getValueRef (toInt loc.2)
  else .error (.timeSeriesError "date key not found")

section Search

/-- The index for which a lookup calls `get_value`, if it does. -/
def indexOf (ts : TimeSeries K V) (d : K) : PointLookup → Option ℤ
  | .atKey => ts.atIndex toInt d
  | .tryAt => ts.atIndex toInt d
  | .atOrFirstPrior => ts.priorIndex toInt d
  | .atOrFirstFollowing => ts.followingIndex toInt d

/-- The date of which a lookup is to find the value, given the dates that have one. -/
def Addresses (dates : Set K) (d : K) : PointLookup → K → Prop
  | .atKey, k => k ∈ dates ∧ k = d
  | .tryAt, k => k ∈ dates ∧ k = d
  | .atOrFirstPrior, k => IsGreatest {x | x ∈ dates ∧ x ≤ d} k
  | .atOrFirstFollowing, k => IsLeast {x | x ∈ dates ∧ d ≤ x} k

variable {toInt : ℤ → ℤ} {ts : TimeSeries K V} {d : K}

/-- A lookup is to find one date at most. -/
theorem Addresses.unique {dates : Set K} {lookup : PointLookup} {k k' : K}
    (h : Addresses dates d lookup k) (h' : Addresses dates d lookup k') : k = k' := by
  cases lookup with
  | atKey => exact h.2.trans h'.2.symm
  | tryAt => exact h.2.trans h'.2.symm
  | atOrFirstPrior => exact IsGreatest.unique h h'
  | atOrFirstFollowing => exact IsLeast.unique h h'

theorem Addresses.mem {dates : Set K} {lookup : PointLookup} {k : K}
    (h : Addresses dates d lookup k) : k ∈ dates := by
  cases lookup with
  | atKey => exact h.1
  | tryAt => exact h.1
  | atOrFirstPrior => exact h.1.1
  | atOrFirstFollowing => exact h.1.1

/-- A date of the series is what all lookups of it are to find. -/
theorem addresses_of_mem {dates : Set K} (hd : d ∈ dates) (lookup : PointLookup) :
    Addresses dates d lookup d := by
  cases lookup with
  | atKey => exact ⟨hd, rfl⟩
  | tryAt => exact ⟨hd, rfl⟩
  | atOrFirstPrior => exact ⟨⟨hd, le_refl d⟩, fun x hx => hx.2⟩
  | atOrFirstFollowing => exact ⟨⟨hd, le_refl d⟩, fun x hx => hx.2⟩

/-- Without the date itself, not after it means before it. -/
theorem setOf_le_eq_setOf_lt (hd : d ∉ ts.keys) :
    {x | x ∈ {k | k ∈ ts.keys} ∧ x ≤ d} = {x | x ∈ ts.keys ∧ x < d} := by
  ext x
  refine and_congr_right fun hx => ⟨fun hle => lt_of_le_of_ne hle ?_, le_of_lt⟩
  rintro rfl
  exact hd hx

/-- Without the date itself, not before it means after it. -/
theorem setOf_ge_eq_setOf_gt (hd : d ∉ ts.keys) :
    {x | x ∈ {k | k ∈ ts.keys} ∧ d ≤ x} = {x | x ∈ ts.keys ∧ d < x} := by
  ext x
  refine and_congr_right fun hx => ⟨fun hle => lt_of_le_of_ne hle ?_, le_of_lt⟩
  rintro rfl
  exact hd hx

/-- What a lookup does: it reads the position of the date that it is to find, or reports that
there is none. -/
inductive Found (toInt : ℤ → ℤ) (ts : TimeSeries K V) (d : K) (lookup : PointLookup) : Prop
  | position (p : ℕ) (k : K) (hindex : ts.indexOf toInt d lookup = some (toInt p))
      (hk : ts.keys[p]? = some k) (haddr : Addresses {x | x ∈ ts.keys} d lookup k)
  | missing (hindex : ts.indexOf toInt d lookup = none)
      (hnone : ∀ k, ¬ Addresses {x | x ∈ ts.keys} d lookup k)

/-- On strictly increasing keys a missing date is looked up beside its gap. -/
theorem found_of_missing (h : ts.StrictlyIncreasing) (hne : 0 < ts.size) (hd : d ∉ ts.keys)
    (lookup : PointLookup) : Found toInt ts d lookup := by
  have hgap := gap_of_missing h.nonDecreasing hd
  obtain ⟨hat, hprior, hfollowing⟩ := index_of_missing toInt h.nonDecreasing hne hd
  cases lookup with
  | atKey => exact .missing hat fun k hk => hd (hk.2 ▸ hk.1)
  | tryAt => exact .missing hat fun k hk => hd (hk.2 ▸ hk.1)
  | atOrFirstPrior =>
    cases hq : LowerBound.lowerBound ts.keys d with
    | zero =>
      rw [hq, if_pos rfl] at hprior
      refine .missing hprior fun k hk => ?_
      have hafter := (hgap.eq_zero_iff hne).mp hq k hk.1.1
      exact absurd hk.1.2 (not_le.mpr hafter)
    | succ p =>
      have hlt : p < ts.keys.length := by
        have hle := hgap.le_size
        rw [hq] at hle
        exact hle
      have hk := List.getElem?_eq_getElem hlt
      have hidx : ((p + 1 : ℕ) : ℤ) - 1 = p := by omega
      rw [hq, if_neg (Nat.succ_ne_zero p), hidx] at hprior
      refine .position p _ hprior hk ?_
      rw [Addresses, setOf_le_eq_setOf_lt hd]
      exact (hgap.isGreatest_iff h hk).mpr hq.symm
  | atOrFirstFollowing =>
    by_cases hlt : LowerBound.lowerBound ts.keys d < ts.size
    · have hk := List.getElem?_eq_getElem (show _ < ts.keys.length from hlt)
      rw [if_pos hlt] at hfollowing
      refine .position _ _ hfollowing hk ?_
      rw [Addresses, setOf_ge_eq_setOf_gt hd]
      exact (hgap.isLeast_iff h hk).mpr rfl
    · rw [if_neg hlt] at hfollowing
      refine .missing hfollowing fun k hk => ?_
      have hend : LowerBound.lowerBound ts.keys d = ts.size :=
        Nat.le_antisymm hgap.le_size (not_lt.mp hlt)
      have hbefore := hgap.eq_size_iff.mp hend k hk.1.1
      exact absurd hk.1.2 (not_le.mpr hbefore)

/-- A series without rows reports every date, unless a prior one is asked for. -/
theorem found_of_empty (hempty : ts.keys = []) {lookup : PointLookup}
    (hlookup : lookup ≠ .atOrFirstPrior) : Found toInt ts d lookup := by
  have hnone : ∀ k, ¬ Addresses {x | x ∈ ts.keys} d lookup k := by
    intro k hk
    have hmem : k ∈ ts.keys := hk.mem
    rw [hempty] at hmem
    cases hmem
  refine .missing ?_ hnone
  have hfirst : ∀ i : ℕ, ts.keys[i]? = none := fun i => by rw [hempty, List.getElem?_nil]
  cases lookup with
  | atKey => rw [indexOf, atIndex_eq, hfirst, if_neg (Option.some_ne_none d).symm]
  | tryAt => rw [indexOf, atIndex_eq, hfirst, if_neg (Option.some_ne_none d).symm]
  | atOrFirstPrior => exact absurd rfl hlookup
  | atOrFirstFollowing =>
    have hstop : (ts.keys.findIdx fun dt => decide (dt ≥ d)) = 0 := by rw [hempty]; rfl
    rw [indexOf, followingIndex_eq hstop, if_neg]
    rw [size, hempty]
    exact Nat.lt_irrefl 0

/-- On strictly increasing keys every lookup finds the date that it is to find, if no prior date
is asked of a series without rows. -/
theorem found (h : ts.StrictlyIncreasing) (d : K) (lookup : PointLookup)
    (hprior : lookup = .atOrFirstPrior → 0 < ts.size) : Found toInt ts d lookup := by
  rcases Nat.eq_zero_or_pos ts.size with hempty | hne
  · apply found_of_empty (List.eq_nil_of_length_eq_zero hempty)
    intro hlookup
    exact absurd (hprior hlookup) (by omega)
  by_cases hd : d ∈ ts.keys
  · obtain ⟨i, hi⟩ := List.mem_iff_getElem?.mp hd
    obtain ⟨hat, hbefore, hfollowing⟩ := index_of_key toInt h hi
    have haddr := addresses_of_mem (show d ∈ {x | x ∈ ts.keys} from hd) lookup
    refine .position i d ?_ hi haddr
    cases lookup with
    | atKey => exact hat
    | tryAt => exact hat
    | atOrFirstPrior => exact hbefore
    | atOrFirstFollowing => exact hfollowing
  · exact found_of_missing h hne hd lookup

end Search

section Values

variable {toInt : ℤ → ℤ} {ts : TimeSeries K V} {d : K}

/-- The reference for an index, or a report that there is none. -/
def getValueRefOrThrow (ts : TimeSeries K V) : Option ℤ → Except Fault ℕ
  | some idx => ts.getValueRef idx
  | none => .error (.timeSeriesError "date key not found")

theorem atKeyRef_eq : ts.atKeyRef toInt d = ts.getValueRefOrThrow (ts.atIndex toInt d) := by
  simp only [atKeyRef, atIndex]
  split <;> rfl

theorem tryAtRef_eq : ts.tryAtRef toInt d =
    match ts.atIndex toInt d with
    | some idx => (ts.getValueRef idx).map some
    | none => .ok none := by
  simp only [tryAtRef, atIndex]
  split <;> rfl

theorem atOrFirstPriorRef_eq :
    ts.atOrFirstPriorRef toInt d = ts.getValueRefOrThrow (ts.priorIndex toInt d) := by
  simp only [atOrFirstPriorRef, priorIndex]
  cases (ts.locateIf fun dt => decide (dt > d)).1 &&
    (ts.locateIf fun dt => decide (dt > d)).2 == 0 <;> rfl

theorem atOrFirstFollowingRef_eq :
    ts.atOrFirstFollowingRef toInt d = ts.getValueRefOrThrow (ts.followingIndex toInt d) := by
  simp only [atOrFirstFollowingRef, followingIndex]
  split <;> rfl

omit [LinearOrder K] in
/-- The reference for a position of the series refers to it. -/
theorem getValueRef_natCast {p : ℕ} (hp : p < ts.size) : ts.getValueRef p = .ok p := by
  rw [← length_values] at hp
  rw [getValueRef, if_neg (by omega), Int.toNat_natCast, if_pos hp]

omit [LinearOrder K] in
/-- A reference refers to the index for which it is asked. -/
theorem eq_of_getValueRef_eq_ok {idx : ℤ} {p : ℕ} (h : ts.getValueRef idx = .ok p) :
    idx = p := by
  unfold getValueRef at h
  split_ifs at h
  cases h
  omega

omit [LinearOrder K] in
/-- Assigning a value replaces it in its row. -/
theorem rows_assign {p : ℕ} {k : K} (hk : ts.keys[p]? = some k) (v : V) :
    (ts.assign p v).rows = ts.rows.set p (k, v) :=
  KeyedRows.zip_set hk ts.values v

end Values

end TimeSeries

end Tspp
