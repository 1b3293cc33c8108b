import Tspp.Join.AsofCursor
import Tspp.Join.Left

/-!
# As-of merges over increasing keys

Under a comparator that looks at keys only, what the merge carries to a left key and
whether it ever gets past it are conditions on two key lists. The merge is an as-of join,
for whatever values the rows hold, exactly if it gets stuck or carries the admissible
right key to every left key.
-/

namespace Tspp

variable {K V W O : Type} {lk rk : List K} {l r c : K} {mode : Enums.MergeAsofMode}

namespace TimeSeries

/-- What an as-of join is: the left keys in the left order, each with the value of the right
row that is admissible for it, or with the default where no right row is. -/
structure IsAsofJoin (left : TimeSeries K V) (other : TimeSeries K W) (defaultValue : W)
    (func : V → W → O) (admissible : K → K → Prop) (result : TimeSeries K O) : Prop where
  keys : result.keys = left.keys
  matched : ∀ (i : ℕ) l v k w, left.rows[i]? = some (l, v) → (k, w) ∈ other.rows →
    admissible l k → result.values[i]? = some (func v w)
  unmatched : ∀ (i : ℕ) l v, left.rows[i]? = some (l, v) →
    (∀ k ∈ other.keys, ¬ admissible l k) → result.values[i]? = some (func v defaultValue)

/-- The left join is the as-of join in which only equal keys are admissible. -/
theorem isLeftJoin_iff_isAsofJoin {left : TimeSeries K V} {other : TimeSeries K W} {d : W}
    {func : V → W → O} {result : TimeSeries K O} :
    IsLeftJoin left other d func result ↔
      IsAsofJoin left other d func (fun l k => k = l) result := by
  constructor
  · rintro ⟨hkeys, hmatched, hunmatched⟩
    refine ⟨hkeys, ?_, fun i l v hrow hadm => hunmatched i l v hrow fun hl => hadm l hl rfl⟩
    rintro i l v k w hrow hw rfl
    exact hmatched i k v w hrow hw
  · rintro ⟨hkeys, hmatched, hunmatched⟩
    refine ⟨hkeys, fun i k v w hrow hw => hmatched i k v k w hrow hw rfl, ?_⟩
    intro i k v hrow hk
    apply hunmatched i k v hrow
    rintro x hx rfl
    exact hk hx

/-- The series that holds every key under itself. -/
def selfRows (ks : List K) : TimeSeries K (Option K) := ofRows (ks.map fun k => (k, some k))

@[simp] theorem keys_selfRows (ks : List K) : (selfRows ks).keys = ks := by
  simp [selfRows, Function.comp_def]

/-- Position `i` of the list is row `i` of the series. -/
theorem getElem?_rows_selfRows {ks : List K} {i : ℕ} {k : K} (h : ks[i]? = some k) :
    (selfRows ks).rows[i]? = some (k, some k) := by
  rw [selfRows, rows_ofRows, List.getElem?_map, h, Option.map_some]

theorem mem_rows_selfRows {ks : List K} {k : K} (h : k ∈ ks) :
    (k, some k) ∈ (selfRows ks).rows := by
  obtain ⟨i, hi⟩ := List.mem_iff_getElem?.mp h
  exact List.mem_of_getElem? (getElem?_rows_selfRows hi)

section Ordered

variable [LinearOrder K]

/-- On existing rows the comparator looks at the three keys only. -/
def AsksKeys (left : TimeSeries K V) (other : TimeSeries K W) (comp : AsofComparator)
    (ans : KeyAnswer K) : Prop :=
  ∀ i j c l r k, left.keys[i]? = some l → other.keys[j]? = some r → other.keys[c]? = some k →
    comp (.row i) (.row j) (.row c) =
      .ok ((ans l r k).1, if (ans l r k).2 then .row c else .row j)

/-- The value that the merge emits where it carries the row of `key`, if any. -/
def carriedValue (other : TimeSeries K W) (d : W) (func : V → W → O) (v : V) (key : Option K) : O :=
  func v ((key.bind fun k => other.rows.lookup k).getD d)

/-- What holds whenever the loop tests its condition: the right cursor is where the keys put
it, no left key passed was one to be stuck at, and every row emitted carries what the
comparator answers at its key. -/
structure AsofProgress (left : TimeSeries K V) (other : TimeSeries K W) (d : W)
    (func : V → W → O) (mode : Enums.MergeAsofMode) (ans : KeyAnswer K) (s : JoinState K O)
    (i j : ℕ) : Prop where
  state : s = .atRows i j s.result
  left_le : i ≤ left.size
  cursor : CursorAt left.keys other.keys i j
  free : ∀ l ∈ left.keys.take i, ¬ StuckAt mode ans left.keys other.keys l
  emitted : (s.result.keys = left.keys.take i ∧
      ∀ (n : ℕ) l v, n < i → left.rows[n]? = some (l, v) →
      ∃ r c, CursorKey left.keys other.keys l r ∧ CandKey mode other.keys r c ∧
        s.result.values[n]? = some (carriedValue other d func v (carriedKey (ans l r c) r c))) ∨
    ∃ l, left.keys[i]? = some l ∧ StuckAt mode ans left.keys other.keys l

section Merge

variable {left : TimeSeries K V} {other : TimeSeries K W} {d : W} {func : V → W → O}
  {compare : Option AsofComparator} {ans : KeyAnswer K}

/-- Reading the row of a right key. -/
theorem carriedValue_some (hr : other.StrictlyIncreasing) {k : K} {w : W}
    (h : (k, w) ∈ other.rows) (d : W) (func : V → W → O) (v : V) :
    carriedValue other d func v (some k) = func v w := by
  have hlookup := ((other.strictlyIncreasing_iff_rows.mp hr).lookup_eq_some k w).mpr h
  rw [carriedValue, Option.bind_some, hlookup, Option.getD_some]

@[simp] theorem carriedValue_none (other : TimeSeries K W) (d : W) (func : V → W → O) (v : V) :
    carriedValue other d func v none = func v d := rfl

/-- One iteration, under a comparator that looks at keys: unless it is stuck, the row emitted
is the carried one and the left cursor moves. -/
theorem mergeApplyAsofLoop_body_keys (d : W) (func : V → W → O)
    (hr : other.StrictlyIncreasing) (hal : Aligned ans)
    (hcomp : AsksKeys left other (compare.getD (defaultCompare left other)) ans) {i j : ℕ}
    {v : V} {w : W} (res : TimeSeries K O) (hl : left.rows[i]? = some (l, v))
    (hrj : other.rows[j]? = some (r, w))
    (hc : other.keys[candPos mode other.size j]? = some c) :
    (mergeApplyAsofLoop left other d compare func mode).body (.atRows i j res) = .ok
      (if j = other.size - 1 ∧ (ans l r c).1 = .greaterThan then
        .atRows i j (res.insertEnd (l, func v d))
      else .atRows (i + 1) (if l = r ∧ j ≠ other.size - 1 then j + 1 else j)
        (res.insertEnd (l, carriedValue other d func v (carriedKey (ans l r c) r c)))) := by
  have hlk := (getElem?_rows_eq_some.mp hl).1
  have hrk := (getElem?_rows_eq_some.mp hrj).1
  have hans := hcomp i j _ l r c hlk hrk hc
  obtain ⟨w', hcrow⟩ := exists_row_of_key hc
  have hne : (ans l r c).1 ≠ .equal → l ≠ r := by
    rintro hne rfl
    rw [hal] at hne
    exact hne rfl
  generalize ans l r c = a at hans hne ⊢
  obtain ⟨o, pick⟩ := a
  -- The row that the comparator points at, and its key.
  obtain ⟨p, key, w'', hp, hrow, hkey⟩ : ∃ p key w'',
      (if pick then IteratorPair.row (candPos mode other.size j) else .row j) = .row p ∧
      other.rows[p]? = some (key, w'') ∧ key = if pick then c else r := by
    cases pick with
    | true => exact ⟨_, c, w', rfl, hcrow, rfl⟩
    | false => exact ⟨j, r, w, rfl, hrj, rfl⟩
  rw [hp] at hans
  rw [mergeApplyAsofLoop_body d func res hl hrj hrow hans]
  cases o with
  | lessThan =>
    have hlr : l ≠ r := hne (by simp)
    simp only [asofStep, reduceCtorEq, and_false, if_false, hlr, false_and, carriedKey,
      carriedValue_none]
  | greaterThan =>
    have hlr : l ≠ r := hne (by simp)
    by_cases hlast : j = other.size - 1
    · simp only [asofStep, hlast, and_self, if_true]
    · simp only [asofStep, hlast, false_and, if_false, hlr, carriedKey, carriedValue_none]
  | equal =>
    have hvalue := carriedValue_some hr (List.mem_of_getElem? hrow) d func v
    rw [hkey] at hvalue
    simp only [asofStep, reduceCtorEq, and_false, if_false, carriedKey, hvalue]

/-- The row that an iteration emits continues the rows emitted before it. -/
theorem emitted_succ {i : ℕ} {v : V} {res : TimeSeries K O} (hi : i ≤ left.size)
    (hlrow : left.rows[i]? = some (l, v)) (hkey : CursorKey left.keys other.keys l r)
    (hcand : CandKey mode other.keys r c) (hkeys : res.keys = left.keys.take i)
    (hemit : ∀ (n : ℕ) l v, n < i → left.rows[n]? = some (l, v) →
      ∃ r c, CursorKey left.keys other.keys l r ∧ CandKey mode other.keys r c ∧
        res.values[n]? = some (carriedValue other d func v (carriedKey (ans l r c) r c))) :
    (res.insertEnd (l, carriedValue other d func v (carriedKey (ans l r c) r c))).keys =
        left.keys.take (i + 1) ∧
      ∀ (n : ℕ) l' v', n < i + 1 → left.rows[n]? = some (l', v') →
        ∃ r' c', CursorKey left.keys other.keys l' r' ∧ CandKey mode other.keys r' c' ∧
          (res.insertEnd (l, carriedValue other d func v (carriedKey (ans l r c) r c))).values[n]? =
            some (carriedValue other d func v' (carriedKey (ans l' r' c') r' c')) := by
  have hlen : res.values.length = i := by
    rw [length_values, size, hkeys, List.length_take]
    exact Nat.min_eq_left hi
  refine ⟨?_, fun n l' v' hn hrow => ?_⟩
  · rw [keys_insertEnd, take_succ_keys hlrow, hkeys]
  · rw [values_insertEnd]
    rcases Nat.lt_or_eq_of_le (Nat.le_of_lt_succ hn) with hn | rfl
    · rw [List.getElem?_append_left (by omega)]
      exact hemit n l' v' hn hrow
    · rw [hlrow] at hrow
      cases hrow
      refine ⟨r, c, hkey, hcand, ?_⟩
      rw [List.getElem?_append_right (by omega), hlen, Nat.sub_self, List.getElem?_cons_zero]

/-- No iteration faults, and each keeps the progress; unless it is stuck it moves the left
cursor. -/
theorem AsofProgress.step (hl : left.StrictlyIncreasing) (hr : other.StrictlyIncreasing)
    (hal : Aligned ans)
    (hcomp : AsksKeys left other (compare.getD (defaultCompare left other)) ans)
    {s : JoinState K O} {i j : ℕ} (h : AsofProgress left other d func mode ans s i j)
    (hc : (mergeApplyAsofLoop left other d compare func mode).cond s = true) :
    ∃ s' i' j', (mergeApplyAsofLoop left other d compare func mode).body s = .ok s' ∧
      AsofProgress left other d func mode ans s' i' j' ∧
      ∀ l, left.keys[i]? = some l → ¬ StuckAt mode ans left.keys other.keys l → i' = i + 1 := by
  obtain ⟨hstate, hi, hcur, hfree, hemit⟩ := h
  rw [hstate, mergeApplyAsofLoop_cond] at hc
  have hlt : i < left.size := by omega
  obtain ⟨l, v, hlrow⟩ := exists_row hlt
  obtain ⟨r, w, hrrow⟩ := exists_row (show j < other.size from hcur.lt)
  obtain ⟨c, w', hcrow⟩ := exists_row (candPos_lt mode (show j < other.size from hcur.lt))
  have hlk := (getElem?_rows_eq_some.mp hlrow).1
  have hrk := (getElem?_rows_eq_some.mp hrrow).1
  have hck := (getElem?_rows_eq_some.mp hcrow).1
  have hkey : CursorKey left.keys other.keys l r := hcur.cursorKey hl hr hlk hrk
  have hcand : CandKey mode other.keys r c := ⟨j, hrk, hck⟩
  have hbody := mergeApplyAsofLoop_body_keys d func hr hal hcomp s.result hlrow hrrow hck
  rw [← hstate] at hbody
  have hat : StuckAt mode ans left.keys other.keys l ↔
      j = other.size - 1 ∧ (ans l r c).1 = .greaterThan := hkey.stuckAt_iff hr hrk hcand
  by_cases hstuck : j = other.size - 1 ∧ (ans l r c).1 = .greaterThan
  · rw [if_pos hstuck] at hbody
    refine ⟨_, i, j, hbody, ⟨rfl, hi, hcur, hfree, Or.inr ⟨l, hlk, hat.mpr hstuck⟩⟩, ?_⟩
    intro k hk hno
    obtain rfl : l = k := Option.some.inj (hlk.symm.trans hk)
    exact absurd (hat.mpr hstuck) hno
  · rw [if_neg hstuck] at hbody
    refine ⟨_, i + 1, _, hbody, ⟨rfl, hlt, hcur.succ hl hr hlk hrk, ?_, Or.inl ?_⟩,
      fun _ _ _ => rfl⟩
    · intro k hk
      rw [take_succ_keys hlrow, List.mem_append, List.mem_singleton] at hk
      rcases hk with hk | rfl
      · exact hfree k hk
      · exact hat.not.mpr hstuck
    · rcases hemit with ⟨hkeys, hemit⟩ | ⟨k, hk, hkat⟩
      · exact emitted_succ hi hlrow hkey hcand hkeys hemit
      · obtain rfl : l = k := Option.some.inj (hlk.symm.trans hk)
        exact absurd (hat.mp hkat) hstuck

theorem asofProgress_start (d : W) (func : V → W → O) (mode : Enums.MergeAsofMode)
    (ans : KeyAnswer K) (hne : 0 < other.size) :
    AsofProgress left other d func mode ans (.start left other) 0 0 := by
  refine ⟨rfl, Nat.zero_le _, cursorAt_zero left.keys hne, ?_, Or.inl ⟨rfl, ?_⟩⟩
  · intro l hl
    rw [List.take_zero] at hl
    cases hl
  · exact fun n _ _ hn => absurd hn (Nat.not_lt_zero n)

/-- Every state that the merge reaches has the progress. -/
theorem asofProgress_of_reaches (hl : left.StrictlyIncreasing) (hr : other.StrictlyIncreasing)
    (hne : 0 < other.size) (hal : Aligned ans)
    (hcomp : AsksKeys left other (compare.getD (defaultCompare left other)) ans)
    {s : JoinState K O}
    (h : (mergeApplyAsofLoop left other d compare func mode).Reaches (.start left other) s) :
    ∃ i j, AsofProgress left other d func mode ans s i j := by
  apply h.invariant (I := fun s => ∃ i j, AsofProgress left other d func mode ans s i j)
  · exact ⟨0, 0, asofProgress_start d func mode ans hne⟩
  · rintro a b ⟨i, j, hp⟩ hc hb
    obtain ⟨s', i', j', hb', hp', _⟩ := hp.step hl hr hal hcomp hc
    rw [hb] at hb'
    cases hb'
    exact ⟨i', j', hp'⟩

/-- A merge that returns was never stuck, and has carried to every left key what the
comparator answers there. -/
theorem mergeApplyAsof_of_returns (hl : left.StrictlyIncreasing)
    (hr : other.StrictlyIncreasing) (hne : 0 < other.size) (hal : Aligned ans)
    (hcomp : AsksKeys left other (compare.getD (defaultCompare left other)) ans)
    {t : JoinState K O}
    (ht : (mergeApplyAsofLoop left other d compare func mode).Returns (.start left other) t) :
    (∀ l ∈ left.keys, ¬ StuckAt mode ans left.keys other.keys l) ∧
      t.result.keys = left.keys ∧
      ∀ (n : ℕ) l v, left.rows[n]? = some (l, v) →
        ∃ r c, CursorKey left.keys other.keys l r ∧ CandKey mode other.keys r c ∧
          t.result.values[n]? =
            some (carriedValue other d func v (carriedKey (ans l r c) r c)) := by
  obtain ⟨i, j, hp⟩ := asofProgress_of_reaches hl hr hne hal hcomp ht.reaches
  have hend := ht.not_cond
  rw [hp.state, ← Bool.not_eq_true, mergeApplyAsofLoop_cond, not_not] at hend
  have hall : left.keys.take i = left.keys := by
    rw [hend]
    exact List.take_length
  refine ⟨fun l hlk => hp.free l (by rwa [hall]), ?_⟩
  rcases hp.emitted with ⟨hkeys, hemit⟩ | ⟨l, hlk, _⟩
  · refine ⟨by rw [hkeys, hall], ?_⟩
    exact fun n l v hrow => hemit n l v (by rw [hend]; exact lt_size_of_row hrow) hrow
  · have hlt := (List.getElem?_eq_some_iff.mp hlk).1
    rw [hend] at hlt
    exact absurd hlt (Nat.lt_irrefl _)

/-- The merge returns exactly if there is no left key to be stuck at. -/
theorem mergeApplyAsof_returns_iff (d : W) (func : V → W → O)
    (mode : Enums.MergeAsofMode) (hl : left.StrictlyIncreasing)
    (hr : other.StrictlyIncreasing) (hne : 0 < other.size) (hal : Aligned ans)
    (hcomp : AsksKeys left other (compare.getD (defaultCompare left other)) ans) :
    (∃ t, (mergeApplyAsofLoop left other d compare func mode).Returns (.start left other) t) ↔
      ∀ l ∈ left.keys, ¬ StuckAt mode ans left.keys other.keys l := by
  constructor
  · rintro ⟨t, ht⟩
    exact (mergeApplyAsof_of_returns hl hr hne hal hcomp ht).1
  · intro hno
    obtain ⟨t, ht, hc, _⟩ := WhileLoop.iterate_variant_total
      (L := mergeApplyAsofLoop left other d compare func mode)
      (I := fun s => ∃ i j, AsofProgress left other d func mode ans s i j)
      (fun s => left.size - s.il.first)
      (by
        rintro s ⟨i, j, hp⟩ hc
        obtain ⟨s', i', j', hb, hp', hmoves⟩ := hp.step hl hr hal hcomp hc
        refine ⟨s', hb, ⟨i', j', hp'⟩, ?_⟩
        have hcond := hc
        rw [hp.state, mergeApplyAsofLoop_cond] at hcond
        have hle := hp.left_le
        obtain ⟨k, v, hrow⟩ := exists_row (show i < left.size by omega)
        have hk := (getElem?_rows_eq_some.mp hrow).1
        have hmoved := hmoves k hk (hno k (List.mem_of_getElem? hk))
        rw [hp.state, hp'.state]
        simp only [JoinState.atRows, IteratorPair.row]
        omega)
      left.size (.start left other) ⟨0, 0, asofProgress_start d func mode ans hne⟩
      (Nat.sub_le _ _)
    exact ⟨t, _, ht, hc⟩

/-- The merge returns exactly if some right key before the last one is not a left key, or
`greater_than` is not answered on the last right row. -/
theorem mergeApplyAsof_returns_iff_last {last : K} (d : W)
    (compare : Option AsofComparator) (func : V → W → O)
    (hl : left.StrictlyIncreasing) (hr : other.StrictlyIncreasing) (hal : Aligned ans)
    (hcomp : AsksKeys left other (compare.getD (defaultCompare left other)) ans)
    (hlast : other.keys.getLast? = some last) (hcand : CandKey mode other.keys last c)
    (hbehind : ∀ l, (ans l last c).1 = .greaterThan → ∀ k ∈ other.keys, k < last → k < l) :
    (∃ t, (mergeApplyAsofLoop left other d compare func mode).Returns (.start left other) t) ↔
      (∃ k ∈ other.keys.dropLast, k ∉ left.keys) ∨
        ∀ l ∈ left.keys, (ans l last c).1 ≠ .greaterThan := by
  have hne : 0 < other.size := List.length_pos_of_mem (List.mem_of_getLast? hlast)
  have hstuck := exists_stuckAt_iff left.keys hr hlast hcand hbehind
  rw [mergeApplyAsof_returns_iff d func mode hl hr hne hal hcomp]
  constructor
  · intro hfree
    by_contra hno
    simp only [not_or, not_exists, not_and, not_not, not_forall, exists_prop] at hno
    obtain ⟨hall, hgt⟩ := hno
    obtain ⟨l, hlk, hat⟩ := hstuck.mpr ⟨hall, hgt⟩
    exact hfree l hlk hat
  · rintro (⟨k, hk, hmissing⟩ | hgt) l hlk hat
    · exact hmissing ((hstuck.mp ⟨l, hlk, hat⟩).1 k hk)
    · obtain ⟨_, l', hlk', hl'⟩ := hstuck.mp ⟨l, hlk, hat⟩
      exact hgt l' hlk' hl'

/-- A merge whose comparator carries exactly the admissible right keys is the as-of join. -/
theorem isAsofJoin_of_carriedKey {admissible : K → K → Prop} (hl : left.StrictlyIncreasing)
    (hr : other.StrictlyIncreasing) (hne : 0 < other.size) (hal : Aligned ans)
    (hcomp : AsksKeys left other (compare.getD (defaultCompare left other)) ans)
    (hcarry : ∀ l ∈ left.keys, ∀ r c, CursorKey left.keys other.keys l r →
      CandKey mode other.keys r c → ∀ k ∈ other.keys,
        (carriedKey (ans l r c) r c = some k ↔ admissible l k))
    {t : JoinState K O}
    (ht : (mergeApplyAsofLoop left other d compare func mode).Returns (.start left other) t) :
    IsAsofJoin left other d func admissible t.result := by
  obtain ⟨_, hkeys, hvalues⟩ := mergeApplyAsof_of_returns hl hr hne hal hcomp ht
  refine ⟨hkeys, ?_, ?_⟩
  · intro i l v k w hrow hw hadm
    obtain ⟨r, c, hkey, hcand, hvalue⟩ := hvalues i l v hrow
    have hlk := mem_keys_of_mem_rows (List.mem_of_getElem? hrow)
    rw [hvalue, (hcarry l hlk r c hkey hcand k (mem_keys_of_mem_rows hw)).mpr hadm,
      carriedValue_some hr hw]
  · intro i l v hrow hadm
    obtain ⟨r, c, hkey, hcand, hvalue⟩ := hvalues i l v hrow
    have hlk := mem_keys_of_mem_rows (List.mem_of_getElem? hrow)
    have hnone : carriedKey (ans l r c) r c = none := by
      rw [Option.eq_none_iff_forall_ne_some]
      intro k hk
      have hmem := carriedKey_mem hkey.mem hcand.mem hk
      exact hadm k hmem ((hcarry l hlk r c hkey hcand k hmem).mp hk)
    rw [hvalue, hnone, carriedValue_none]

end Merge

/-- Right values that name their key show which right row a merge carries. -/
theorem values_selfRows {ans : KeyAnswer K} {compare : Option AsofComparator}
    (hl : lk.Pairwise (· < ·)) (hr : rk.Pairwise (· < ·)) (hne : rk ≠ []) (hal : Aligned ans)
    (hcomp : AsksKeys (selfRows lk) (selfRows rk)
      (compare.getD (defaultCompare (selfRows lk) (selfRows rk))) ans)
    {t : JoinState K (Option K)}
    (ht : (mergeApplyAsofLoop (selfRows lk) (selfRows rk) none compare (fun _ w => w) mode).Returns
      (.start (selfRows lk) (selfRows rk)) t)
    {i : ℕ} (hi : lk[i]? = some l) (hkey : CursorKey lk rk l r) (hcand : CandKey mode rk r c) :
    t.result.values[i]? = some (carriedKey (ans l r c) r c) := by
  have hr' : (selfRows rk).StrictlyIncreasing := by rwa [StrictlyIncreasing, keys_selfRows]
  obtain ⟨_, _, hvalues⟩ := mergeApplyAsof_of_returns
    (by rwa [StrictlyIncreasing, keys_selfRows]) hr'
    (by rw [size, keys_selfRows]; exact List.length_pos_of_ne_nil hne) hal hcomp ht
  obtain ⟨r', c', hkey', hcand', hvalue⟩ := hvalues i l _ (getElem?_rows_selfRows hi)
  rw [keys_selfRows, keys_selfRows] at hkey'
  rw [keys_selfRows] at hcand'
  obtain rfl := hkey.unique hkey'
  obtain rfl := hcand.unique hr hcand'
  rw [hvalue]
  cases hcarried : carriedKey (ans l r c) r c with
  | none => rfl
  | some k =>
    have hmem := carriedKey_mem hkey.mem hcand.mem hcarried
    rw [carriedValue_some hr' (mem_rows_selfRows hmem)]

/-- For all values at once, a merge is the as-of join exactly if it gets stuck or carries
exactly the admissible right keys. -/
theorem isAsofJoin_iff_carriedKey {admissible : K → K → Prop} {ans : KeyAnswer K}
    (comp : (V W : Type) → TimeSeries K V → TimeSeries K W → Option AsofComparator)
    (hl : lk.Pairwise (· < ·)) (hr : rk.Pairwise (· < ·)) (hne : rk ≠ []) (hal : Aligned ans)
    (hcomp : ∀ V W left other,
      AsksKeys left other ((comp V W left other).getD (defaultCompare left other)) ans) :
    (∀ (V W O : Type) (left : TimeSeries K V) (other : TimeSeries K W) (d : W)
        (func : V → W → O) (t : JoinState K O), left.keys = lk → other.keys = rk →
      (mergeApplyAsofLoop left other d (comp V W left other) func mode).Returns
        (.start left other) t →
      IsAsofJoin left other d func admissible t.result) ↔
    (∃ l ∈ lk, StuckAt mode ans lk rk l) ∨
      ∀ l ∈ lk, ∀ r c, CursorKey lk rk l r → CandKey mode rk r c →
        ∀ k ∈ rk, (carriedKey (ans l r c) r c = some k ↔ admissible l k) := by
  constructor
  · intro hjoin
    rw [or_iff_not_imp_left, not_exists]
    intro hno l hlk r c hkey hcand k hk
    have hne' : 0 < (selfRows rk).size := by
      rw [size, keys_selfRows]
      exact List.length_pos_of_ne_nil hne
    have hret := mergeApplyAsof_returns_iff none (fun _ w : Option K => w) mode
      (by rwa [StrictlyIncreasing, keys_selfRows]) (by rwa [StrictlyIncreasing, keys_selfRows])
      hne' hal (hcomp _ _ (selfRows lk) (selfRows rk))
    rw [keys_selfRows, keys_selfRows] at hret
    obtain ⟨t, ht⟩ := hret.mpr fun x hx hat => hno x ⟨hx, hat⟩
    have hresult := hjoin _ _ _ _ _ _ _ t (keys_selfRows lk) (keys_selfRows rk) ht
    obtain ⟨i, hi⟩ := List.mem_iff_getElem?.mp hlk
    have hrow := getElem?_rows_selfRows hi
    have hvalue := values_selfRows hl hr hne hal (hcomp _ _ _ _) ht hi hkey hcand
    have hmatched : ∀ x ∈ rk, admissible l x → carriedKey (ans l r c) r c = some x := by
      intro x hx hadm
      have hx' := hresult.matched i l _ x _ hrow (mem_rows_selfRows hx) hadm
      rw [hvalue] at hx'
      exact Option.some.inj hx'
    refine ⟨fun hcarried => ?_, hmatched k hk⟩
    by_contra hnot
    by_cases hex : ∃ x ∈ rk, admissible l x
    · obtain ⟨x, hx, hadm⟩ := hex
      rw [hmatched x hx hadm] at hcarried
      cases hcarried
      exact hnot hadm
    · have hdefault := hresult.unmatched i l _ hrow (by
        rw [keys_selfRows]
        exact fun x hx hadm => hex ⟨x, hx, hadm⟩)
      rw [hvalue, hcarried] at hdefault
      cases hdefault
  · rintro hcond V W O left other d func t rfl rfl ht
    have hne' : 0 < other.size := List.length_pos_of_ne_nil hne
    rcases hcond with ⟨l, hlk, hat⟩ | hcarry
    · have hfree := (mergeApplyAsof_of_returns hl hr hne' hal (hcomp V W left other) ht).1
      exact absurd hat (hfree l hlk)
    · exact isAsofJoin_of_carriedKey hl hr hne' hal (hcomp V W left other) hcarry ht

end Ordered

end TimeSeries

end Tspp
