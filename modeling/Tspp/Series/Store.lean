import Tspp.Core.CommandRuns
import Tspp.Series.References
import Mathlib.Data.Set.Card

/-!
# A series as a store

A series is built by inserting rows at either end and then asked for values and changed in
place, by date. What it is for is a partial map from dates to values, with the dates in
order. As long as every inserted row fits, that is, its date lies beyond all dates on the
side where it is inserted, an `int` counts the rows, and `at_or_first_prior` is not asked on
a series without rows, the replies to any sequence of commands are those of the map. The
order that insertions keep is what the lookups need to find every row.
-/

namespace Tspp

/-- What a program does with a series that it keeps. -/
inductive StoreCommand (K V : Type)
  | insertEnd (data : K × V)
  | insertStart (data : K × V)
  | read (lookup : PointLookup) (d : K)
  /-- Assignment through the reference that a lookup returns. -/
  | write (lookup : PointLookup) (d : K) (v : V)
  | size
  | isEmpty
  | dates
  | values

/-- What a program gets back. -/
inductive StoreReply (K V : Type)
  | done
  | value (v : V)
  /-- `try_at` returned nothing. -/
  | absent
  | size (n : ℕ)
  | isEmpty (b : Bool)
  | dates (ks : List K)
  | values (vs : List V)

variable {K V : Type} [LinearOrder K]

namespace TimeSeries

section Commands

variable (toInt : ℤ → ℤ) (ts : TimeSeries K V) (d : K)

/-- The value that a lookup reads. -/
def read : PointLookup → Except Fault (StoreReply K V)
  | .atKey => (ts.atKey toInt d).map .value
  | .tryAt => (ts.tryAt toInt d).map fun
    | some v => .value v
    | none => .absent
  | .atOrFirstPrior => (ts.atOrFirstPrior toInt d).map .value
  | .atOrFirstFollowing => (ts.atOrFirstFollowing toInt d).map .value

/-- The position that a lookup refers to, on a series that may change. -/
def reference : PointLookup → Except Fault (Option ℕ)
  | .atKey => (ts.atKeyRef toInt d).map some
  | .tryAt => ts.tryAtRef toInt d
  | .atOrFirstPrior => (ts.atOrFirstPriorRef toInt d).map some
  | .atOrFirstFollowing => (ts.atOrFirstFollowingRef toInt d).map some

/-- Assignment through a lookup: what it answers, and the series that it leaves. -/
def write (lookup : PointLookup) (v : V) : Except Fault (StoreReply K V) × TimeSeries K V :=
  match ts.reference toInt d lookup with
  | .ok (some position) => (.ok .done, ts.assign position v)
  | .ok none => (.ok .absent, ts)
  | .error e => (.error e, ts)

/-- The answer to a command, and the series that it leaves. -/
def execute : StoreCommand K V → Except Fault (StoreReply K V) × TimeSeries K V
  | .insertEnd data => (.ok .done, ts.insertEnd data)
  | .insertStart data => (.ok .done, ts.insertStart data)
  | .read lookup d => (ts.read toInt d lookup, ts)
  | .write lookup d v => ts.write toInt d lookup v
  | .size => (.ok (.size ts.size), ts)
  | .isEmpty => (.ok (.isEmpty ts.isEmpty), ts)
  | .dates => (.ok (.dates ts.keys), ts)
  | .values => (.ok (.values ts.values), ts)

end Commands

/-- An inserted row lies beyond the others on its side. -/
def Fits (ts : TimeSeries K V) : StoreCommand K V → Prop
  | .insertEnd data => ∀ k ∈ ts.keys, k < data.1
  | .insertStart data => ∀ k ∈ ts.keys, data.1 < k
  | _ => True

/-- An `int` holds the position of an inserted row. -/
def HasRoom (ts : TimeSeries K V) : StoreCommand K V → Prop
  | .insertEnd _ => ts.size < 2 ^ 31
  | .insertStart _ => ts.size < 2 ^ 31
  | _ => True

/-- A series that is asked for a prior date has rows. -/
def HasRows (ts : TimeSeries K V) : StoreCommand K V → Prop
  | .read .atOrFirstPrior _ => 0 < ts.size
  | .write .atOrFirstPrior _ _ => 0 < ts.size
  | _ => True

/-- What a program has to see to before it issues a command. -/
structure Accepts (ts : TimeSeries K V) (c : StoreCommand K V) : Prop where
  fits : ts.Fits c
  hasRoom : ts.HasRoom c
  hasRows : ts.HasRows c

instance (ts : TimeSeries K V) : ∀ c : StoreCommand K V, Decidable (ts.Fits c)
  | .insertEnd data => inferInstanceAs (Decidable (∀ k ∈ ts.keys, k < data.1))
  | .insertStart data => inferInstanceAs (Decidable (∀ k ∈ ts.keys, data.1 < k))
  | .read _ _ | .write _ _ _ | .size | .isEmpty | .dates | .values => .isTrue trivial

omit [LinearOrder K] in
/-- The containers are empty together. -/
theorem isEmpty_iff {ts : TimeSeries K V} : ts.isEmpty = true ↔ ts.keys = [] := by
  rw [isEmpty, Bool.and_eq_true, List.isEmpty_iff, List.isEmpty_iff]
  refine and_iff_left_of_imp fun hkeys => List.eq_nil_of_length_eq_zero ?_
  rw [← ts.paired, hkeys, List.length_nil]

/-- A write leaves the keys as they are. -/
theorem keys_write (toInt : ℤ → ℤ) (ts : TimeSeries K V) (d : K) (lookup : PointLookup) (v : V) :
    (ts.write toInt d lookup v).2.keys = ts.keys := by
  unfold write
  split <;> rfl

/-- Only insertions change the keys. -/
theorem keys_execute (toInt : ℤ → ℤ) (ts : TimeSeries K V) (c : StoreCommand K V) :
    (ts.execute toInt c).2.keys =
      match c with
      | .insertEnd data => ts.keys ++ [data.1]
      | .insertStart data => data.1 :: ts.keys
      | _ => ts.keys := by
  cases c with
  | write lookup d v => exact ts.keys_write toInt d lookup v
  | insertEnd | insertStart | read | size | isEmpty | dates | values => rfl

/-- A command keeps the keys increasing exactly if the row that it inserts fits. -/
theorem execute_increasing_iff (toInt : ℤ → ℤ) (ts : TimeSeries K V) (c : StoreCommand K V) :
    (ts.execute toInt c).2.StrictlyIncreasing ↔ ts.StrictlyIncreasing ∧ ts.Fits c := by
  rw [StrictlyIncreasing, keys_execute]
  cases c with
  | insertEnd data =>
    simp only [StrictlyIncreasing, Fits, List.pairwise_append, List.pairwise_singleton,
      List.mem_singleton, forall_eq, true_and]
  | insertStart data =>
    simp only [StrictlyIncreasing, Fits, List.pairwise_cons]
    exact and_comm
  | read | write | size | isEmpty | dates | values => exact (and_iff_left trivial).symm

/-- A command leaves rows that an `int` counts exactly if there were such rows, and room for the
row that it inserts. -/
theorem execute_size_le_iff (toInt : ℤ → ℤ) (ts : TimeSeries K V) (c : StoreCommand K V) :
    (ts.execute toInt c).2.size ≤ 2 ^ 31 ↔ ts.size ≤ 2 ^ 31 ∧ ts.HasRoom c := by
  rw [size, keys_execute]
  cases c with
  | insertEnd data =>
    rw [List.length_append, List.length_singleton, ← size, HasRoom]
    omega
  | insertStart data =>
    rw [List.length_cons, ← size, HasRoom]
    omega
  | read | write | size | isEmpty | dates | values => exact (and_iff_left trivial).symm

/-- Every lookup of the date of a row refers to that row. -/
def FindsRows (ts : TimeSeries K V) : Prop :=
  ∀ (lookup : PointLookup) (i : ℕ) (k : K), ts.keys[i]? = some k →
    ts.reference int32 k lookup = .ok (some i)

/-- A lookup that asks for a position of the series refers to it. -/
theorem reference_of_index {toInt : ℤ → ℤ} {ts : TimeSeries K V} {d : K} {lookup : PointLookup}
    {p : ℕ} (hindex : ts.indexOf toInt d lookup = some (p : ℤ)) (hp : p < ts.size) :
    ts.reference toInt d lookup = .ok (some p) := by
  have href := getValueRef_natCast hp
  cases lookup with
  | atKey =>
    rw [indexOf] at hindex
    rw [reference, atKeyRef_eq, hindex, getValueRefOrThrow, href]
    rfl
  | tryAt =>
    rw [indexOf] at hindex
    rw [reference, tryAtRef_eq, hindex]
    simp only [href]
    rfl
  | atOrFirstPrior =>
    rw [indexOf] at hindex
    rw [reference, atOrFirstPriorRef_eq, hindex, getValueRefOrThrow, href]
    rfl
  | atOrFirstFollowing =>
    rw [indexOf] at hindex
    rw [reference, atOrFirstFollowingRef_eq, hindex, getValueRefOrThrow, href]
    rfl

/-- The search of `at_or_first_following` passes no row with the date or a later one, so that the
position to which it refers is never behind the row. -/
theorem findIdx_of_reference {ts : TimeSeries K V} {i : ℕ} {k : K} (hk : ts.keys[i]? = some k)
    (href : ts.reference int32 k .atOrFirstFollowing = .ok (some i)) :
    (ts.keys.findIdx fun dt => decide (dt ≥ k)) = i ∧ i < 2 ^ 31 := by
  obtain ⟨q, hq⟩ : ∃ q, (ts.keys.findIdx fun dt => decide (dt ≥ k)) = q := ⟨_, rfl⟩
  obtain ⟨_, hbelow, _⟩ := LowerBound.findIdx_eq_iff.mp hq
  have hqi : q ≤ i := by
    by_contra hlt
    have hbefore := hbelow i k (not_le.mp hlt) hk
    exact absurd (le_refl k) (of_decide_eq_false hbefore)
  have hi : i < ts.size := (List.getElem?_eq_some_iff.mp hk).1
  rw [reference, atOrFirstFollowingRef_eq, followingIndex_eq hq, if_pos (hqi.trans_lt hi),
    getValueRefOrThrow] at href
  cases hget : ts.getValueRef (int32 q) with
  | error e =>
    rw [hget] at href
    cases href
  | ok p =>
    rw [hget] at href
    cases href
    have hidx := eq_of_getValueRef_eq_ok hget
    unfold int32 at hidx
    omega

/-- The lookups find the rows of their dates exactly if the keys increase strictly and an `int`
counts them. -/
theorem findsRows_iff (ts : TimeSeries K V) :
    ts.FindsRows ↔ ts.StrictlyIncreasing ∧ ts.size ≤ 2 ^ 31 := by
  constructor
  · intro hfinds
    have hstop := fun i k hk => findIdx_of_reference hk (hfinds .atOrFirstFollowing i k hk)
    refine ⟨LowerBound.pairwise_lt_of_findIdx_ge fun i k hk => (hstop i k hk).1, ?_⟩
    by_contra hsize
    obtain ⟨k, v, hrow⟩ := exists_row (not_le.mp hsize)
    exact lt_irrefl _ (hstop _ k (getElem?_rows_eq_some.mp hrow).1).2
  · rintro ⟨hinc, hsize⟩ lookup i k hk
    have hi : i < ts.size := (List.getElem?_eq_some_iff.mp hk).1
    have hreads : ReadsRow int32 ts k i :=
      (readsRow_iff hinc hk).mpr (holdsPositions_int32 hsize i hi)
    apply reference_of_index _ hi
    cases lookup with
    | atKey => exact hreads.at_index
    | tryAt => exact hreads.at_index
    | atOrFirstPrior => exact hreads.prior_index
    | atOrFirstFollowing => exact hreads.following_index

/-- Whatever is done with a series, all lookups find the rows of all dates in the end exactly if
the keys increased strictly at first, with an `int` that counts them, and every row fitted and had
room when it was inserted. -/
theorem run_findsRows_iff (ts : TimeSeries K V) (cmds : List (StoreCommand K V)) :
    (CommandRuns.run (execute int32) ts cmds).2.FindsRows ↔
      (ts.StrictlyIncreasing ∧ ts.size ≤ 2 ^ 31) ∧
        CommandRuns.Accepted (execute int32) (fun ts c => ts.Fits c ∧ ts.HasRoom c) ts cmds := by
  rw [← findsRows_iff]
  refine CommandRuns.run_iff (P := FindsRows) (fun ts c => ?_) ts cmds
  rw [findsRows_iff, findsRows_iff, execute_increasing_iff, execute_size_le_iff,
    and_and_and_comm]

open PartialMap KeyedRows

/-- The dates of a map, in order. -/
def IsListing (dates : Set K) (ks : List K) : Prop :=
  ks.Pairwise (· < ·) ∧ ∀ k, k ∈ ks ↔ k ∈ dates

/-- The report of a lookup that finds no date. -/
def missing : PointLookup → Except Fault (StoreReply K V)
  | .tryAt => .ok .absent
  | _ => .error (.timeSeriesError "date key not found")

/-- The replies of a partial map and the maps that it becomes. -/
inductive StoreStep : (K → Option V) → StoreCommand K V → Except Fault (StoreReply K V) →
    (K → Option V) → Prop
  | insertEnd {m : K → Option V} {data : K × V} (h : ∀ k ∈ domain m, k < data.1) :
      StoreStep m (.insertEnd data) (.ok .done) (Function.update m data.1 (some data.2))
  | insertStart {m : K → Option V} {data : K × V} (h : ∀ k ∈ domain m, data.1 < k) :
      StoreStep m (.insertStart data) (.ok .done) (Function.update m data.1 (some data.2))
  | read {m : K → Option V} {lookup : PointLookup} {d k : K} {v : V}
      (haddr : Addresses (domain m) d lookup k) (hv : m k = some v) :
      StoreStep m (.read lookup d) (.ok (.value v)) m
  | readMissing {m : K → Option V} {lookup : PointLookup} {d : K}
      (hnone : ∀ k, ¬ Addresses (domain m) d lookup k) :
      StoreStep m (.read lookup d) (missing lookup) m
  | write {m : K → Option V} {lookup : PointLookup} {d k : K} {v : V}
      (haddr : Addresses (domain m) d lookup k) :
      StoreStep m (.write lookup d v) (.ok .done) (Function.update m k (some v))
  | writeMissing {m : K → Option V} {lookup : PointLookup} {d : K} {v : V}
      (hnone : ∀ k, ¬ Addresses (domain m) d lookup k) :
      StoreStep m (.write lookup d v) (missing lookup) m
  | size {m : K → Option V} : StoreStep m .size (.ok (.size (domain m).ncard)) m
  | isEmpty {m : K → Option V} {b : Bool} (h : b = true ↔ domain m = ∅) :
      StoreStep m .isEmpty (.ok (.isEmpty b)) m
  | dates {m : K → Option V} {ks : List K} (h : IsListing (domain m) ks) :
      StoreStep m .dates (.ok (.dates ks)) m
  | values {m : K → Option V} {ks : List K} {vs : List V} (h : IsListing (domain m) ks)
      (hvs : vs.map some = ks.map m) : StoreStep m .values (.ok (.values vs)) m

/-- Dates have one order. -/
theorem IsListing.unique {dates : Set K} {ks ks' : List K} (h : IsListing dates ks)
    (h' : IsListing dates ks') : ks = ks' :=
  h.1.sortedLT.eq_of_mem_iff h'.1.sortedLT fun k => (h.2 k).trans (h'.2 k).symm

/-- A map has one reply to a command and becomes one map. -/
theorem StoreStep.deterministic {m m₁ m₂ : K → Option V} {c : StoreCommand K V}
    {r₁ r₂ : Except Fault (StoreReply K V)} (h₁ : StoreStep m c r₁ m₁)
    (h₂ : StoreStep m c r₂ m₂) : r₁ = r₂ ∧ m₁ = m₂ := by
  cases h₁ with
  | insertEnd =>
    cases h₂
    exact ⟨rfl, rfl⟩
  | insertStart =>
    cases h₂
    exact ⟨rfl, rfl⟩
  | read haddr hv =>
    cases h₂ with
    | read haddr' hv' =>
      obtain rfl := haddr.unique haddr'
      obtain rfl := Option.some.inj (hv.symm.trans hv')
      exact ⟨rfl, rfl⟩
    | readMissing hnone => exact absurd haddr (hnone _)
  | readMissing hnone =>
    cases h₂ with
    | read haddr _ => exact absurd haddr (hnone _)
    | readMissing => exact ⟨rfl, rfl⟩
  | write haddr =>
    cases h₂ with
    | write haddr' =>
      obtain rfl := haddr.unique haddr'
      exact ⟨rfl, rfl⟩
    | writeMissing hnone => exact absurd haddr (hnone _)
  | writeMissing hnone =>
    cases h₂ with
    | write haddr => exact absurd haddr (hnone _)
    | writeMissing => exact ⟨rfl, rfl⟩
  | size =>
    cases h₂
    exact ⟨rfl, rfl⟩
  | isEmpty h =>
    cases h₂ with
    | isEmpty h' => exact ⟨by rw [Bool.eq_iff_iff.mpr (h.trans h'.symm)], rfl⟩
  | dates h =>
    cases h₂ with
    | dates h' => exact ⟨by rw [h.unique h'], rfl⟩
  | values h hvs =>
    cases h₂ with
    | values h' hvs' =>
      obtain rfl := h.unique h'
      have hsame := List.map_injective_iff.mpr (Option.some_injective V) (hvs.trans hvs'.symm)
      exact ⟨by rw [hsame], rfl⟩

/-- The rows of the series write the map down, in order, and an `int` holds their positions. -/
structure Represents (ts : TimeSeries K V) (m : K → Option V) : Prop where
  increasing : ts.StrictlyIncreasing
  asMap : asMap ts.rows = m
  size_le : ts.size ≤ 2 ^ 31

section Refines

variable {ts : TimeSeries K V} {m : K → Option V} {toInt : ℤ → ℤ} {d : K} {lookup : PointLookup}

theorem represents_empty : Represents (empty : TimeSeries K V) fun _ => none :=
  ⟨List.Pairwise.nil, rfl, Nat.zero_le _⟩

/-- The dates of the map are the keys of the series. -/
theorem Represents.domain_eq (h : Represents ts m) : domain m = {k | k ∈ ts.keys} := by
  ext k
  rw [← h.asMap, mem_domain_asMap, map_fst_rows]
  rfl

theorem Represents.isListing (h : Represents ts m) : IsListing (domain m) ts.keys := by
  refine ⟨h.increasing, fun k => ?_⟩
  rw [h.domain_eq]
  rfl

/-- The map assigns to each key the value in its row. -/
theorem Represents.eq_some (h : Represents ts m) {p : ℕ} {k : K} {v : V}
    (hrow : ts.rows[p]? = some (k, v)) : m k = some v := by
  have hrows := ts.strictlyIncreasing_iff_rows.mp h.increasing
  rw [← h.asMap]
  exact (hrows.lookup_eq_some k v).mpr (List.mem_of_getElem? hrow)

/-- The values of the series are the values of its keys. -/
theorem Represents.map_values (h : Represents ts m) : ts.values.map some = ts.keys.map m := by
  rw [← map_fst_rows, ← map_snd_rows, List.map_map, List.map_map]
  apply List.map_congr_left
  intro r hr
  obtain ⟨p, hp⟩ := List.mem_iff_getElem?.mp hr
  exact (h.eq_some hp).symm

theorem Represents.ncard_domain (h : Represents ts m) : (domain m).ncard = ts.size := by
  have hnodup : ts.keys.Nodup := h.increasing.imp fun hlt => hlt.ne
  rw [h.domain_eq, ← List.coe_toFinset, Set.ncard_coe_finset,
    List.toFinset_card_of_nodup hnodup, size]

/-- A lookup that finds a position reads its value, and a write through it replaces this value. -/
theorem read_of_position {p : ℕ} {k : K} {v : V} (hint : HoldsPositions toInt ts)
    (hindex : ts.indexOf toInt d lookup = some (toInt p)) (hrow : ts.rows[p]? = some (k, v)) :
    ts.read toInt d lookup = .ok (.value v) ∧
      ∀ w, ts.write toInt d lookup w = (.ok .done, ts.assign p w) := by
  have hp := lt_size_of_row hrow
  have hget := getValue_natCast (getElem?_rows_eq_some.mp hrow).2
  rw [hint p hp] at hindex
  refine ⟨?_, fun w => by rw [write, reference_of_index hindex hp]⟩
  cases lookup with
  | atKey =>
    rw [indexOf] at hindex
    simp only [read, atKey_eq, hindex, getValueOrThrow, hget]
    rfl
  | tryAt =>
    rw [indexOf] at hindex
    simp only [read, tryAt_eq, hindex, hget]
    rfl
  | atOrFirstPrior =>
    rw [indexOf] at hindex
    simp only [read, atOrFirstPrior_eq, hindex, getValueOrThrow, hget]
    rfl
  | atOrFirstFollowing =>
    rw [indexOf] at hindex
    simp only [read, atOrFirstFollowing_eq, hindex, getValueOrThrow, hget]
    rfl

/-- A lookup that finds no position reports that, and a write through it changes nothing. -/
theorem read_of_missing (hindex : ts.indexOf toInt d lookup = none) :
    ts.read toInt d lookup = missing lookup ∧
      ∀ v, ts.write toInt d lookup v = (missing lookup, ts) := by
  cases lookup with
  | atKey =>
    rw [indexOf] at hindex
    simp only [read, write, reference, atKey_eq, atKeyRef_eq, hindex]
    exact ⟨rfl, fun _ => rfl⟩
  | tryAt =>
    rw [indexOf] at hindex
    simp only [read, write, reference, tryAt_eq, tryAtRef_eq, hindex]
    exact ⟨rfl, fun _ => rfl⟩
  | atOrFirstPrior =>
    rw [indexOf] at hindex
    simp only [read, write, reference, atOrFirstPrior_eq, atOrFirstPriorRef_eq, hindex]
    exact ⟨rfl, fun _ => rfl⟩
  | atOrFirstFollowing =>
    rw [indexOf] at hindex
    simp only [read, write, reference, atOrFirstFollowing_eq, atOrFirstFollowingRef_eq, hindex]
    exact ⟨rfl, fun _ => rfl⟩

/-- Inserting a row that fits updates the map at its date. -/
theorem Represents.insertEnd (h : Represents ts m) {data : K × V}
    (hfits : ∀ k ∈ ts.keys, k < data.1) (hroom : ts.size < 2 ^ 31) :
    Represents (ts.insertEnd data) (Function.update m data.1 (some data.2)) := by
  refine ⟨?_, ?_, ?_⟩
  · exact (execute_increasing_iff id ts (.insertEnd data)).mpr ⟨h.increasing, hfits⟩
  · rw [rows_insertEnd, asMap_concat, h.asMap]
    rw [map_fst_rows]
    exact fun hmem => lt_irrefl _ (hfits _ hmem)
  · rw [size_insertEnd]
    exact hroom

theorem Represents.insertStart (h : Represents ts m) {data : K × V}
    (hfits : ∀ k ∈ ts.keys, data.1 < k) (hroom : ts.size < 2 ^ 31) :
    Represents (ts.insertStart data) (Function.update m data.1 (some data.2)) := by
  refine ⟨?_, ?_, ?_⟩
  · exact (execute_increasing_iff id ts (.insertStart data)).mpr ⟨h.increasing, hfits⟩
  · rw [rows_insertStart, asMap_cons, h.asMap]
  · exact hroom

/-- Assigning to the value of a row updates the map at its date. -/
theorem Represents.assign (h : Represents ts m) {p : ℕ} {k : K} (hk : ts.keys[p]? = some k)
    (v : V) : Represents (ts.assign p v) (Function.update m k (some v)) := by
  obtain ⟨w, hrow⟩ := exists_row_of_key hk
  refine ⟨h.increasing, ?_, h.size_le⟩
  rw [rows_assign hk, (ts.strictlyIncreasing_iff_rows.mp h.increasing).asMap_set hrow, h.asMap]

/-- Every command that the series accepts is a step of the map. -/
theorem execute_refines (h : Represents ts m) {c : StoreCommand K V} (hc : ts.Accepts c) :
    ∃ m', StoreStep m c (ts.execute int32 c).1 m' ∧ Represents (ts.execute int32 c).2 m' := by
  have hint := holdsPositions_int32 h.size_le
  have hdomain := h.domain_eq
  cases c with
  | insertEnd data =>
    refine ⟨_, .insertEnd ?_, h.insertEnd hc.fits hc.hasRoom⟩
    rw [hdomain]
    exact hc.fits
  | insertStart data =>
    refine ⟨_, .insertStart ?_, h.insertStart hc.fits hc.hasRoom⟩
    rw [hdomain]
    exact hc.fits
  | read lookup d =>
    refine ⟨m, ?_, h⟩
    have hfound : Found int32 ts d lookup := found h.increasing d lookup fun heq => by
      subst heq
      exact hc.hasRows
    cases hfound with
    | position p k hindex hk haddr =>
      obtain ⟨v, hrow⟩ := exists_row_of_key hk
      rw [execute, (read_of_position hint hindex hrow).1]
      rw [← hdomain] at haddr
      exact .read haddr (h.eq_some hrow)
    | missing hindex hnone =>
      rw [execute, (read_of_missing hindex).1]
      rw [← hdomain] at hnone
      exact .readMissing hnone
  | write lookup d v =>
    have hfound : Found int32 ts d lookup := found h.increasing d lookup fun heq => by
      subst heq
      exact hc.hasRows
    cases hfound with
    | position p k hindex hk haddr =>
      obtain ⟨w, hrow⟩ := exists_row_of_key hk
      rw [execute, (read_of_position hint hindex hrow).2]
      rw [← hdomain] at haddr
      exact ⟨_, .write haddr, h.assign hk v⟩
    | missing hindex hnone =>
      rw [execute, (read_of_missing hindex).2]
      rw [← hdomain] at hnone
      exact ⟨m, .writeMissing hnone, h⟩
  | size =>
    refine ⟨m, ?_, h⟩
    rw [execute, ← h.ncard_domain]
    exact .size
  | isEmpty =>
    refine ⟨m, .isEmpty ?_, h⟩
    rw [hdomain, isEmpty_iff, List.eq_nil_iff_forall_not_mem, Set.eq_empty_iff_forall_notMem]
    rfl
  | dates => exact ⟨m, .dates h.isListing, h⟩
  | values => exact ⟨m, .values h.isListing h.map_values, h⟩

end Refines

/-- From a series without rows, as long as every inserted row fits, an `int` counts the rows, and no
prior date is asked of a series without rows, the replies to any sequence of commands are the only
ones that the map gives, and the series always writes the map down. -/
theorem run_refines (cmds : List (StoreCommand K V))
    (hcmds : CommandRuns.Accepted (execute int32) Accepts (empty : TimeSeries K V) cmds)
    (replies : List (Except Fault (StoreReply K V))) (m : K → Option V) :
    (CommandRuns.run (execute int32) (empty : TimeSeries K V) cmds).2.StrictlyIncreasing ∧
    (CommandRuns.SpecRun StoreStep (fun _ => none) cmds replies m ↔
      replies = (CommandRuns.run (execute int32) (empty : TimeSeries K V) cmds).1 ∧
        m = asMap (CommandRuns.run (execute int32) (empty : TimeSeries K V) cmds).2.rows) := by
  have hstep : ∀ (ts : TimeSeries K V) (m : K → Option V) c, ts.Represents m → ts.Accepts c →
      ∃ m', StoreStep m c (ts.execute int32 c).1 m' ∧ (ts.execute int32 c).2.Represents m' :=
    fun _ _ _ h hc => execute_refines h hc
  obtain ⟨m', hrun, hm'⟩ := CommandRuns.specRun_run hstep represents_empty hcmds
  refine ⟨hm'.increasing, ?_⟩
  constructor
  · intro h
    obtain ⟨hreplies, hm⟩ := h.unique (fun _ _ _ _ _ _ h₁ h₂ => h₁.deterministic h₂) hrun
    exact ⟨hreplies, by rw [hm, hm'.asMap]⟩
  · rintro ⟨rfl, rfl⟩
    rw [hm'.asMap]
    exact hrun

/-- Two rows, the second of which is changed through the lookup of a later date. -/
theorem run_refines_two_rows :
    (CommandRuns.run (execute int32) (empty : TimeSeries ℤ ℤ)
      [.insertEnd (2, 20), .insertStart (1, 10), .write .atOrFirstPrior 3 25,
        .read .atKey 2]).1 = [.ok .done, .ok .done, .ok .done, .ok (.value 25)] := by
  have haccepted : CommandRuns.Accepted (execute int32) Accepts (empty : TimeSeries ℤ ℤ)
      [.insertEnd (2, 20), .insertStart (1, 10), .write .atOrFirstPrior 3 25, .read .atKey 2] := by
    refine ⟨?_, ?_, ?_, ?_, trivial⟩
    · exact ⟨by decide, Nat.two_pow_pos 31, trivial⟩
    · exact ⟨by decide, Nat.one_lt_two_pow (by decide), trivial⟩
    · exact ⟨trivial, trivial, Nat.two_pos⟩
    · exact ⟨trivial, trivial, trivial⟩
  refine ((run_refines _ haccepted _ _).2.mp
    (.cons (.insertEnd ?_) (.cons (.insertStart ?_) (.cons (.write (k := 2) ?_)
      (.cons (.read (k := 2) ?_ ?_) (.nil _)))))).1.symm
  · intro k hk
    cases hk
  · intro k hk
    rw [mem_domain, Function.update_apply] at hk
    split at hk
    · omega
    · cases hk
  · refine ⟨⟨rfl, by decide⟩, fun x hx => ?_⟩
    have hsome := hx.1
    rw [mem_domain, Function.update_apply, Function.update_apply] at hsome
    split at hsome
    · omega
    · split at hsome
      · omega
      · cases hsome
  · exact ⟨rfl, rfl⟩
  · rfl

end TimeSeries

end Tspp
