import Tspp.Join.Inner

/-!
# The left merge join

The loop of `cross_apply_left` tests only the left cursor. What it does from two
remaining suffixes is a function of these suffixes, `leftLoopRows`: it is undefined
exactly where the loop dereferences the exhausted right cursor, and it emits a second
row for a left key whenever it passes a right key that the left series lacks. Both
events are characterised by the key lists alone.
-/

namespace Tspp

variable {K V W O : Type} [LinearOrder K]

namespace TimeSeries

/-- The loop of `cross_apply_left`. -/
def crossApplyLeftLoop (left : TimeSeries K V) (other : TimeSeries K W) (defaultValue : W)
    (func : V → W → O) : WhileLoop Fault (JoinState K O) where
  cond s := s.il != left.cend
  body s := do
    let l ← s.il.deref left.toContainers
    let r ← s.ir.deref other.toContainers
    if l.1 < r.1 then
      let result := s.result.insertEnd (l.1, func l.2 defaultValue)
      return { s with il := ← s.il.incr left.toContainers, result }
    else if r.1 < l.1 then
      let result := s.result.insertEnd (l.1, func l.2 defaultValue)
      if s.ir != (← other.cend.sub 1) then
        return { s with ir := ← s.ir.incr other.toContainers, result }
      else
        return { s with il := ← s.il.incr left.toContainers, result }
    else
      let result := s.result.insertEnd (l.1, func l.2 r.2)
      return {
        il := ← s.il.incr left.toContainers
        ir := ← s.ir.incr other.toContainers
        result }

/-- What a left join is: the left keys in the left order, each with the value of the right
row under the same key, or with the default where the right series lacks the key. -/
structure IsLeftJoin (left : TimeSeries K V) (other : TimeSeries K W) (defaultValue : W)
    (func : V → W → O) (result : TimeSeries K O) : Prop where
  keys : result.keys = left.keys
  matched : ∀ (i : ℕ) k v w, left.rows[i]? = some (k, v) → (k, w) ∈ other.rows →
    result.values[i]? = some (func v w)
  unmatched : ∀ (i : ℕ) k v, left.rows[i]? = some (k, v) → k ∉ other.keys →
    result.values[i]? = some (func v defaultValue)

/-- The right keys run out before the left keys: some left key is left over once the last
right key, if there is one, has been matched. -/
def RightRunsOut (left right : List K) : Prop :=
  left ≠ [] ∧ ∀ k, right.getLast? = some k → k ∈ left ∧ ∃ l ∈ left, k < l

/-- Every right key that the loop moves past, other than the last one, is a left key. -/
def NoSkippedKey (left right : List K) : Prop :=
  ∀ k ∈ right.dropLast, (∃ l ∈ left, k < l) → k ∈ left

instance (left right : List K) : Decidable (NoSkippedKey left right) :=
  inferInstanceAs (Decidable (∀ k ∈ right.dropLast, (∃ l ∈ left, k < l) → k ∈ left))

end TimeSeries

/-- The rows that the loop emits from two suffixes, `none` where it reads past the right end. -/
def leftLoopRows (defaultValue : W) (func : V → W → O) :
    List (K × V) → List (K × W) → Option (List (K × O))
  | [], _ => some []
  | _ :: _, [] => none
  | (a, v) :: as, (b, w) :: bs =>
    if a < b then
      (leftLoopRows defaultValue func as ((b, w) :: bs)).map ((a, func v defaultValue) :: ·)
    else if b < a then
      if bs.isEmpty then
        (leftLoopRows defaultValue func as ((b, w) :: bs)).map ((a, func v defaultValue) :: ·)
      else
        (leftLoopRows defaultValue func ((a, v) :: as) bs).map ((a, func v defaultValue) :: ·)
    else (leftLoopRows defaultValue func as bs).map ((a, func v w) :: ·)
termination_by as bs => as.length + bs.length

section LeftLoopRows

variable {d : W} {func : V → W → O} {a b : K} {v : V} {w : W}
  {as : List (K × V)} {bs : List (K × W)}

@[simp] theorem leftLoopRows_nil (d : W) (func : V → W → O) (bs : List (K × W)) :
    leftLoopRows d func ([] : List (K × V)) bs = some [] := by
  rw [leftLoopRows]

@[simp] theorem leftLoopRows_cons_nil (d : W) (func : V → W → O) (r : K × V)
    (as : List (K × V)) : leftLoopRows d func (r :: as) ([] : List (K × W)) = none := by
  rw [leftLoopRows]

theorem leftLoopRows_of_lt (h : a < b) : leftLoopRows d func ((a, v) :: as) ((b, w) :: bs) =
    (leftLoopRows d func as ((b, w) :: bs)).map ((a, func v d) :: ·) := by
  rw [leftLoopRows, if_pos h]

theorem leftLoopRows_of_gt_last (h : b < a) : leftLoopRows d func ((a, v) :: as) [(b, w)] =
    (leftLoopRows d func as [(b, w)]).map ((a, func v d) :: ·) := by
  rw [leftLoopRows, if_neg (not_lt_of_gt h), if_pos h]
  rfl

theorem leftLoopRows_of_gt (h : b < a) (hbs : bs ≠ []) :
    leftLoopRows d func ((a, v) :: as) ((b, w) :: bs) =
      (leftLoopRows d func ((a, v) :: as) bs).map ((a, func v d) :: ·) := by
  rw [leftLoopRows, if_neg (not_lt_of_gt h), if_pos h, if_neg]
  simpa using hbs

theorem leftLoopRows_of_eq : leftLoopRows d func ((a, v) :: as) ((a, w) :: bs) =
    (leftLoopRows d func as bs).map ((a, func v w) :: ·) := by
  rw [leftLoopRows, if_neg (lt_irrefl a), if_neg (lt_irrefl a)]

end LeftLoopRows

section Conditions

open TimeSeries

variable {a b : K} {left right : List K}

/-- A key after the head of the left list is found in its tail. -/
theorem exists_gt_cons {k : K} (h : a < k) :
    (∃ l ∈ a :: left, k < l) ↔ ∃ l ∈ left, k < l := by
  simp [not_lt_of_gt h]

theorem mem_cons_of_lt {k : K} (h : a < k) : k ∈ a :: left ↔ k ∈ left := by
  simp [h.ne']

/-- A left key before the last right key does not matter. -/
theorem rightRunsOut_cons_left {last : K} (hlast : right.getLast? = some last) (h : a < last) :
    RightRunsOut (a :: left) right ↔ RightRunsOut left right := by
  simp only [RightRunsOut, hlast, Option.some.injEq, forall_eq', mem_cons_of_lt h,
    exists_gt_cons h]
  constructor
  · rintro ⟨_, hmem, hgt⟩
    exact ⟨List.ne_nil_of_mem hmem, hmem, hgt⟩
  · rintro ⟨_, hmem, hgt⟩
    exact ⟨List.cons_ne_nil _ _, hmem, hgt⟩

/-- Only the last right key matters. -/
theorem rightRunsOut_cons_right (h : right ≠ []) :
    RightRunsOut left (b :: right) ↔ RightRunsOut left right := by
  rw [RightRunsOut, RightRunsOut, List.getLast?_cons_of_ne_nil h]

/-- A right key smaller than every left key is never matched, so it does not run out. -/
theorem not_rightRunsOut_singleton (h : ∀ l ∈ left, b < l) : ¬ RightRunsOut left [b] := by
  rintro ⟨_, hk⟩
  obtain ⟨hmem, _⟩ := hk b rfl
  exact lt_irrefl b (h b hmem)

/-- Matching the only right key leaves the left side alone. -/
theorem rightRunsOut_cons_self (h : ∀ l ∈ left, a < l) :
    RightRunsOut (a :: left) [a] ↔ RightRunsOut left [] := by
  constructor
  · rintro ⟨_, hk⟩
    obtain ⟨_, l, hl, hlt⟩ := hk a rfl
    exact ⟨List.ne_nil_of_mem ((mem_cons_of_lt hlt).mp hl), fun k hk' => by cases hk'⟩
  · rintro ⟨hne, _⟩
    refine ⟨List.cons_ne_nil _ _, ?_⟩
    rintro k ⟨⟩
    obtain ⟨l, hl⟩ := List.exists_mem_of_ne_nil left hne
    exact ⟨List.mem_cons_self, l, List.mem_cons_of_mem a hl, h l hl⟩

/-- A left key before every right key does not matter for skipping. -/
theorem noSkippedKey_cons_left (h : ∀ k ∈ right, a < k) :
    NoSkippedKey (a :: left) right ↔ NoSkippedKey left right := by
  apply forall₂_congr
  intro k hk
  have hlt := h k (List.dropLast_subset _ hk)
  rw [exists_gt_cons hlt, mem_cons_of_lt hlt]

theorem noSkippedKey_singleton (left : List K) (b : K) : NoSkippedKey left [b] := by
  intro k hk
  cases hk

/-- A matched right key is not skipped. -/
theorem noSkippedKey_cons_self (h : ∀ k ∈ right, a < k) :
    NoSkippedKey (a :: left) (a :: right) ↔ NoSkippedKey left right := by
  rw [← noSkippedKey_cons_left h]
  cases right with
  | nil =>
    refine iff_of_true (noSkippedKey_singleton _ _) ?_
    intro k hk
    cases hk
  | cons b right =>
    simp only [NoSkippedKey, List.dropLast_cons_cons, List.mem_cons, forall_eq_or_imp, true_or,
      implies_true, true_and]

/-- A right key that is followed by another one and precedes every left key is skipped. -/
theorem not_noSkippedKey_cons (h : ∀ l ∈ a :: left, b < l) (hne : right ≠ []) :
    ¬ NoSkippedKey (a :: left) (b :: right) := by
  intro hno
  have hdrop : b ∈ (b :: right).dropLast := by
    rw [List.dropLast_cons_of_ne_nil hne]
    exact List.mem_cons_self
  have hmem := hno b hdrop ⟨a, List.mem_cons_self, h a List.mem_cons_self⟩
  exact lt_irrefl b (h b hmem)

end Conditions

section Characterisation

open KeyedRows TimeSeries

variable {d : W} {func : V → W → O}

/-- The loop reads past the right end exactly if the right keys run out first. -/
theorem leftLoopRows_eq_none_iff (d : W) (func : V → W → O) {as : List (K × V)}
    {bs : List (K × W)} (ha : Increasing as)
    (hb : Increasing bs) : leftLoopRows d func as bs = none ↔
      RightRunsOut (as.map Prod.fst) (bs.map Prod.fst) := by
  induction as, bs using leftLoopRows.induct with
  | case1 bs => simp [RightRunsOut]
  | case2 r as => simp [RightRunsOut]
  | case3 a v as b w bs h ih =>
    rw [leftLoopRows_of_lt h, Option.map_eq_none_iff, ih ha.tail hb]
    obtain ⟨last, hlast⟩ : ∃ last, (((b, w) :: bs).map Prod.fst).getLast? = some last := by
      simp [List.getLast?_cons]
    have hlt := hb.nonDecreasing.lt_key_of_lt_head h last (List.mem_of_getLast? hlast)
    exact (rightRunsOut_cons_left hlast hlt).symm
  | case4 a v as b w bs h h' hbs ih =>
    obtain rfl : bs = [] := List.isEmpty_iff.mp hbs
    rw [leftLoopRows_of_gt_last h', Option.map_eq_none_iff, ih ha.tail hb]
    have hall := ha.nonDecreasing.lt_key_of_lt_head h'
    have hleft := not_rightRunsOut_singleton fun l hl => hall l (List.mem_cons_of_mem a hl)
    have hright := not_rightRunsOut_singleton hall
    exact ⟨fun h => absurd h hleft, fun h => absurd h hright⟩
  | case5 a v as b w bs h h' hbs ih =>
    have hne : bs ≠ [] := by simpa using hbs
    rw [leftLoopRows_of_gt h' hne, Option.map_eq_none_iff, ih ha hb.tail, List.map_cons (l := bs),
      rightRunsOut_cons_right (by simpa using hne)]
  | case6 a v as b w bs h h' ih =>
    obtain rfl : a = b := le_antisymm (not_lt.mp h') (not_lt.mp h)
    rw [leftLoopRows_of_eq, Option.map_eq_none_iff, ih ha.tail hb.tail, List.map_cons,
      List.map_cons]
    cases hbs : bs.map Prod.fst with
    | nil => exact (rightRunsOut_cons_self ha.head_lt_key).symm
    | cons k ks =>
      rw [rightRunsOut_cons_right (List.cons_ne_nil _ _)]
      obtain ⟨last, hlast⟩ : ∃ last, (k :: ks).getLast? = some last := by
        simp [List.getLast?_cons]
      have hlt : a < last :=
        hb.head_lt_key last (by rw [hbs]; exact List.mem_of_getLast? hlast)
      exact (rightRunsOut_cons_left hlast hlt).symm

/-- A run that skips no right key emits the left join. -/
theorem leftLoopRows_of_noSkippedKey {as : List (K × V)} {bs : List (K × W)}
    (ha : Increasing as) (hb : Increasing bs)
    (hno : NoSkippedKey (as.map Prod.fst) (bs.map Prod.fst)) {out : List (K × O)}
    (hout : leftLoopRows d func as bs = some out) :
    out = as.map fun r => (r.1, func r.2 ((bs.lookup r.1).getD d)) := by
  induction as, bs using leftLoopRows.induct generalizing out with
  | case1 bs =>
    rw [leftLoopRows_nil] at hout
    cases hout
    rfl
  | case2 r as => simp at hout
  | case3 a v as b w bs h ih =>
    rw [leftLoopRows_of_lt h] at hout
    obtain ⟨rest, hrest, rfl⟩ := Option.map_eq_some_iff.mp hout
    have hall := hb.nonDecreasing.lt_key_of_lt_head h
    have htail := (noSkippedKey_cons_left hall).mp hno
    rw [ih ha.tail hb htail hrest, List.map_cons, hb.nonDecreasing.lookup_eq_none h]
    rfl
  | case4 a v as b w bs h h' hbs ih =>
    obtain rfl : bs = [] := List.isEmpty_iff.mp hbs
    rw [leftLoopRows_of_gt_last h'] at hout
    obtain ⟨rest, hrest, rfl⟩ := Option.map_eq_some_iff.mp hout
    rw [ih ha.tail hb (noSkippedKey_singleton _ b) hrest, List.map_cons, lookup_cons_of_lt h']
    rfl
  | case5 a v as b w bs h h' hbs ih =>
    have hall := ha.nonDecreasing.lt_key_of_lt_head h'
    exact absurd hno (not_noSkippedKey_cons hall (by simpa using hbs))
  | case6 a v as b w bs h h' ih =>
    obtain rfl : a = b := le_antisymm (not_lt.mp h') (not_lt.mp h)
    rw [leftLoopRows_of_eq] at hout
    obtain ⟨rest, hrest, rfl⟩ := Option.map_eq_some_iff.mp hout
    have htail := (noSkippedKey_cons_self hb.head_lt_key).mp hno
    rw [ih ha.tail hb.tail htail hrest, List.map_cons, List.lookup_cons, beq_self_eq_true]
    congr 1
    apply List.map_congr_left
    intro r hr
    rw [lookup_cons_of_lt (ha.head_lt hr)]

/-- A run never loses a left row, and one that skips a right key emits too many rows. -/
theorem length_leftLoopRows {as : List (K × V)} {bs : List (K × W)} (ha : Increasing as)
    (hb : Increasing bs) {out : List (K × O)} (hout : leftLoopRows d func as bs = some out) :
    as.length ≤ out.length ∧
      (¬ NoSkippedKey (as.map Prod.fst) (bs.map Prod.fst) → as.length < out.length) := by
  induction as, bs using leftLoopRows.induct generalizing out with
  | case1 bs =>
    rw [leftLoopRows_nil] at hout
    cases hout
    refine ⟨Nat.le_refl _, fun hskip => (hskip ?_).elim⟩
    rintro k hk ⟨l, hl, _⟩
    cases hl
  | case2 r as => simp at hout
  | case3 a v as b w bs h ih =>
    rw [leftLoopRows_of_lt h] at hout
    obtain ⟨rest, hrest, rfl⟩ := Option.map_eq_some_iff.mp hout
    have hall := hb.nonDecreasing.lt_key_of_lt_head h
    obtain ⟨hle, hlt⟩ := ih ha.tail hb hrest
    refine ⟨Nat.succ_le_succ hle, fun hskip => Nat.succ_lt_succ (hlt fun hno => hskip ?_)⟩
    exact (noSkippedKey_cons_left hall).mpr hno
  | case4 a v as b w bs h h' hbs ih =>
    obtain rfl : bs = [] := List.isEmpty_iff.mp hbs
    rw [leftLoopRows_of_gt_last h'] at hout
    obtain ⟨rest, hrest, rfl⟩ := Option.map_eq_some_iff.mp hout
    obtain ⟨hle, _⟩ := ih ha.tail hb hrest
    exact ⟨Nat.succ_le_succ hle, fun hskip => (hskip (noSkippedKey_singleton _ b)).elim⟩
  | case5 a v as b w bs h h' hbs ih =>
    rw [leftLoopRows_of_gt h' (by simpa using hbs)] at hout
    obtain ⟨rest, hrest, rfl⟩ := Option.map_eq_some_iff.mp hout
    obtain ⟨hle, _⟩ := ih ha hb.tail hrest
    -- The left row is still to be emitted again, so this row is one too many.
    exact ⟨Nat.le_succ_of_le hle, fun _ => Nat.lt_succ_of_le hle⟩
  | case6 a v as b w bs h h' ih =>
    obtain rfl : a = b := le_antisymm (not_lt.mp h') (not_lt.mp h)
    rw [leftLoopRows_of_eq] at hout
    obtain ⟨rest, hrest, rfl⟩ := Option.map_eq_some_iff.mp hout
    obtain ⟨hle, hlt⟩ := ih ha.tail hb.tail hrest
    refine ⟨Nat.succ_le_succ hle, fun hskip => Nat.succ_lt_succ (hlt fun hno => hskip ?_)⟩
    exact (noSkippedKey_cons_self hb.head_lt_key).mpr hno

end Characterisation

namespace TimeSeries

section Run

variable {left : TimeSeries K V} {other : TimeSeries K W} {d : W} {func : V → W → O}

theorem crossApplyLeftLoop_cond (left : TimeSeries K V) (other : TimeSeries K W) (d : W)
    (func : V → W → O) (i j : ℕ) (res : TimeSeries K O) :
    (crossApplyLeftLoop left other d func).cond (.atRows i j res) = true ↔ i ≠ left.size := by
  simp [crossApplyLeftLoop, JoinState.atRows, cend_eq]

/-- With the right cursor at the end the first dereference of an iteration faults. -/
theorem crossApplyLeftLoop_body_end (d : W) (func : V → W → O) {i : ℕ} {l : K × V}
    (res : TimeSeries K O) (hl : left.rows[i]? = some l) :
    (crossApplyLeftLoop left other d func).body (.atRows i other.size res) =
      .error .outOfRange := by
  simp only [crossApplyLeftLoop, JoinState.atRows, deref_row hl,
    deref_row_of_le (Nat.le_refl _), bind, Except.bind]

/-- One iteration at two existing rows. -/
theorem crossApplyLeftLoop_body (d : W) (func : V → W → O) {i j : ℕ} {l : K × V} {r : K × W}
    (res : TimeSeries K O) (hl : left.rows[i]? = some l) (hr : other.rows[j]? = some r) :
    (crossApplyLeftLoop left other d func).body (.atRows i j res) = .ok
      (if l.1 < r.1 then .atRows (i + 1) j (res.insertEnd (l.1, func l.2 d))
      else if r.1 < l.1 then
        if j = other.size - 1 then .atRows (i + 1) j (res.insertEnd (l.1, func l.2 d))
        else .atRows i (j + 1) (res.insertEnd (l.1, func l.2 d))
      else .atRows (i + 1) (j + 1) (res.insertEnd (l.1, func l.2 r.2))) := by
  have hpos : 0 < other.size := Nat.zero_lt_of_lt (lt_size_of_row hr)
  simp only [crossApplyLeftLoop, JoinState.atRows, deref_row hl, deref_row hr,
    incr_row (lt_size_of_row hl), incr_row (lt_size_of_row hr), cend_eq, sub_one_row hpos,
    bind, Except.bind, pure, Except.pure, bne_iff_ne, ne_eq, IteratorPair.row_inj, ite_not]
  split
  · rfl
  · split
    · split <;> rfl
    · rfl

/-- The loop emits the rows of `leftLoopRows`. -/
theorem crossApplyLeftLoop_emitsRest (left : TimeSeries K V) (other : TimeSeries K W) (d : W)
    (func : V → W → O) : EmitsRest (crossApplyLeftLoop left other d func) left other
      (leftLoopRows d func) := by
  constructor
  · intro i j res hi hj hc
    have hend : ¬ i ≠ left.size := by
      rw [← crossApplyLeftLoop_cond left other d func i j res, hc]
      exact Bool.false_ne_true
    rw [drop_size_rows (by omega), leftLoopRows_nil]
  · intro i j res hi hj hc
    rw [crossApplyLeftLoop_cond] at hc
    obtain ⟨a, v, hl⟩ := exists_row (show i < left.size by omega)
    by_cases hend : j = other.size
    · left
      rw [hend, drop_rows hl, drop_size_rows (Nat.le_refl _), leftLoopRows_cons_nil]
      exact ⟨crossApplyLeftLoop_body_end d func res hl, rfl⟩
    right
    obtain ⟨b, w, hr⟩ := exists_row (show j < other.size by omega)
    have hbody := crossApplyLeftLoop_body d func res hl hr
    rw [drop_rows hl, drop_rows hr]
    rcases lt_trichotomy a b with hlt | rfl | hgt
    · simp only [hlt, ite_true] at hbody
      refine ⟨i + 1, j, _, hbody, by omega, hj, by omega, ?_⟩
      rw [leftLoopRows_of_lt hlt, drop_rows hr, map_append_insertEnd]
    · simp only [lt_irrefl, ite_false] at hbody
      refine ⟨i + 1, j + 1, _, hbody, by omega, by omega, by omega, ?_⟩
      rw [leftLoopRows_of_eq, map_append_insertEnd]
    · simp only [not_lt_of_gt hgt, hgt, ite_true, ite_false] at hbody
      by_cases hlast : j = other.size - 1
      · have hnil : other.rows.drop (j + 1) = [] := drop_size_rows (by omega)
        rw [if_pos hlast] at hbody
        refine ⟨i + 1, j, _, hbody, by omega, hj, by omega, ?_⟩
        rw [drop_rows hr, hnil, leftLoopRows_of_gt_last hgt, map_append_insertEnd]
      · have hne : other.rows.drop (j + 1) ≠ [] := by
          rw [ne_eq, List.drop_eq_nil_iff, length_rows]
          omega
        rw [if_neg hlast] at hbody
        refine ⟨i, j + 1, _, hbody, hi, by omega, by omega, ?_⟩
        rw [leftLoopRows_of_gt hgt hne, drop_rows hl, map_append_insertEnd]

/-- Looking every left key up on the right gives the left join. -/
theorem isLeftJoin_of_rows {result : TimeSeries K O} (hr : other.StrictlyIncreasing)
    (h : result.rows = left.rows.map fun r => (r.1, func r.2 ((other.rows.lookup r.1).getD d))) :
    IsLeftJoin left other d func result := by
  have hrows := other.strictlyIncreasing_iff_rows.mp hr
  have hvalue : ∀ (i : ℕ) k v, left.rows[i]? = some (k, v) →
      result.values[i]? = some (func v ((other.rows.lookup k).getD d)) := by
    intro i k v hi
    rw [← map_snd_rows, h, List.map_map, List.getElem?_map, hi]
    rfl
  refine ⟨?_, ?_, ?_⟩
  · rw [← map_fst_rows, h, List.map_map, ← map_fst_rows]
    rfl
  · intro i k v w hi hw
    rw [hvalue i k v hi, (hrows.lookup_eq_some k w).mpr hw, Option.getD_some]
  · intro i k v hi hk
    have hnone : other.rows.lookup k = none := by
      rw [Option.eq_none_iff_forall_ne_some]
      intro w hw
      exact hk (mem_keys_of_mem_rows ((hrows.lookup_eq_some k w).mp hw))
    rw [hvalue i k v hi, hnone, Option.getD_none]

end Run

/-- The left join emits a second row for a left key exactly where it skips a right key: the
result of a run that returns is the left join if and only if the right side runs out (and
the run does not return) or every right key that is passed is a left key. -/
theorem crossApplyLeft_isLeftJoin_iff (left : TimeSeries K V) (other : TimeSeries K W)
    (defaultValue : W) (func : V → W → O) (hl : left.StrictlyIncreasing)
    (hr : other.StrictlyIncreasing) :
    (∀ t, (crossApplyLeftLoop left other defaultValue func).Returns (.start left other) t →
      IsLeftJoin left other defaultValue func t.result) ↔
    RightRunsOut left.keys other.keys ∨ NoSkippedKey left.keys other.keys := by
  have hla := left.strictlyIncreasing_iff_rows.mp hl
  have hrb := other.strictlyIncreasing_iff_rows.mp hr
  rw [← map_fst_rows left, ← map_fst_rows other]
  constructor
  · intro hjoin
    by_cases hout : RightRunsOut (left.rows.map Prod.fst) (other.rows.map Prod.fst)
    · exact Or.inl hout
    right
    rw [← leftLoopRows_eq_none_iff defaultValue func hla hrb] at hout
    rcases (crossApplyLeftLoop_emitsRest left other defaultValue func).fate with
      ⟨t, ht, hc, hrows⟩ | ⟨_, hnone⟩
    · by_contra hskip
      have hlen := (length_leftLoopRows hla hrb hrows).2 hskip
      have hkeys := congrArg List.length (hjoin t ⟨_, ht, hc⟩).keys
      rw [length_rows, length_rows] at hlen
      exact Nat.lt_irrefl _ (hlen.trans_eq hkeys)
    · exact absurd hnone hout
  · rintro (hout | hno) t ht
    · rw [← leftLoopRows_eq_none_iff defaultValue func hla hrb,
        (crossApplyLeftLoop_emitsRest left other defaultValue func).rows_of_returns ht] at hout
      cases hout
    · apply isLeftJoin_of_rows hr
      exact leftLoopRows_of_noSkippedKey hla hrb hno
        ((crossApplyLeftLoop_emitsRest left other defaultValue func).rows_of_returns ht)

/-- A right series whose keys all occur on the left is joined correctly. -/
theorem crossApplyLeft_isLeftJoin_subset :
    IsLeftJoin (ofRows [((1 : ℤ), 10), (2, 20), (3, 30)]) (ofRows [((2 : ℤ), 5), (3, 6)]) 0
      (fun v w : ℤ => v + w) (ofRows [((1 : ℤ), 10), (2, 25), (3, 36)]) :=
  (crossApplyLeft_isLeftJoin_iff (ofRows [((1 : ℤ), 10), (2, 20), (3, 30)])
    (ofRows [((2 : ℤ), 5), (3, 6)]) 0 (fun v w : ℤ => v + w) (by decide) (by decide)).mpr
    (Or.inr (by decide)) ⟨.row 3, .row 2, _⟩ ⟨3, rfl, rfl⟩

/-- A right key before the left key makes the left row appear twice. -/
theorem crossApplyLeft_repeats_row :
    (ofRows [((5 : ℤ), 50)]).StrictlyIncreasing ∧
      (ofRows [((1 : ℤ), 10), (5, 7)]).StrictlyIncreasing ∧
      ∃ t, (crossApplyLeftLoop (ofRows [((5 : ℤ), 50)]) (ofRows [((1 : ℤ), 10), (5, 7)]) 0
          (fun v w : ℤ => v + w)).Returns
          (.start (ofRows [((5 : ℤ), 50)]) (ofRows [((1 : ℤ), 10), (5, 7)])) t ∧
        ¬ IsLeftJoin (ofRows [((5 : ℤ), 50)]) (ofRows [((1 : ℤ), 10), (5, 7)]) 0
          (fun v w : ℤ => v + w) t.result := by
  refine ⟨by decide, by decide, _, ⟨2, rfl, rfl⟩, ?_⟩
  intro h
  exact absurd h.keys (by decide)

/-- The left join stays inside both series exactly if the right keys do not run out first. -/
theorem crossApplyLeft_never_faults_iff (left : TimeSeries K V) (other : TimeSeries K W)
    (defaultValue : W) (func : V → W → O) (hl : left.StrictlyIncreasing)
    (hr : other.StrictlyIncreasing) :
    (∀ e, ¬ (crossApplyLeftLoop left other defaultValue func).Faults (.start left other) e) ↔
      ¬ RightRunsOut left.keys other.keys := by
  rw [← not_exists, (crossApplyLeftLoop_emitsRest left other defaultValue func).faults_iff,
    leftLoopRows_eq_none_iff _ _
    (left.strictlyIncreasing_iff_rows.mp hl) (other.strictlyIncreasing_iff_rows.mp hr),
    map_fst_rows, map_fst_rows]

/-- A right series that ends behind the left one is never left. -/
theorem crossApplyLeft_never_faults_longer :
    ¬ (crossApplyLeftLoop (ofRows [((1 : ℤ), 10), (2, 20)]) (ofRows [((1 : ℤ), 5), (3, 6)]) 0
      (fun v w : ℤ => v + w)).Faults
        (.start (ofRows [((1 : ℤ), 10), (2, 20)]) (ofRows [((1 : ℤ), 5), (3, 6)])) .outOfRange := by
  refine (crossApplyLeft_never_faults_iff (ofRows [((1 : ℤ), 10), (2, 20)])
    (ofRows [((1 : ℤ), 5), (3, 6)]) 0 (fun v w : ℤ => v + w) (by decide) (by decide)).mpr ?_ _
  rintro ⟨_, hk⟩
  exact absurd (hk 3 rfl).1 (by decide)

/-- Matching the last right key before the last left key reads past the right end. -/
theorem crossApplyLeft_reads_past_end :
    (ofRows [((1 : ℤ), 10), (2, 20)]).StrictlyIncreasing ∧
      (ofRows [((1 : ℤ), 5)]).StrictlyIncreasing ∧
      (crossApplyLeftLoop (ofRows [((1 : ℤ), 10), (2, 20)]) (ofRows [((1 : ℤ), 5)]) 0
        (fun v w : ℤ => v + w)).Faults
        (.start (ofRows [((1 : ℤ), 10), (2, 20)]) (ofRows [((1 : ℤ), 5)])) .outOfRange :=
  ⟨by decide, by decide, 2, rfl⟩

end TimeSeries

end Tspp
