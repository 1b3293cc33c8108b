import Tspp.Core.WhileLoop
import Tspp.Series.Lookup
import Mathlib.Algebra.Order.Group.Unbundled.Abs
import Mathlib.Algebra.Order.Ring.Rat
import Mathlib.Tactic.NormNum

/-!
# Equality of series

`operator==` walks two series together and breaks off at the first rows that `flex_compare`
tells apart. On most types `flex_compare` is `==`, and then equal series have equal rows. On
floating-point types and on pairs of `double` it is a comparison up to a tolerance, under
which no infinite value is equal to anything, not even to itself.
-/

namespace Tspp

/-- The local variables of `operator==`, and whether the loop was left by `break`. -/
structure EqualsState where
  /-- The iterator `il` over this series. -/
  il : IteratorPair
  /-- The iterator `ir` over the other series. -/
  ir : IteratorPair
  /-- `is_same_so_far` -/
  isSameSoFar : Bool
  /-- The loop was left by `break`. -/
  broken : Bool

namespace TimeSeries

variable {K K' V V' : Type}

/-- The loop of `operator==`, with `flex_compare` on keys and on values as parameters. -/
def equalsLoop (compareKeys : K → K' → Bool) (compareValues : V → V' → Bool)
    (ts : TimeSeries K V) (other : TimeSeries K' V') : WhileLoop Fault EqualsState where
  cond s := !s.broken && (s.il != ts.cend && s.ir != other.cend)
  body s := do
    let l ← s.il.deref ts.toContainers
    let r ← s.ir.deref other.toContainers
    let first := compareKeys l.1 r.1
    let second := compareValues l.2 r.2
    let isSameSoFar := s.isSameSoFar && first && second
    if !isSameSoFar then
      return { s with isSameSoFar, broken := true }
    else
      return {
        il := ← s.il.incr ts.toContainers
        ir := ← s.ir.incr other.toContainers
        isSameSoFar, broken := false }

/-- The state before the loop of `operator==`. -/
def equalsStart (ts : TimeSeries K V) (other : TimeSeries K' V') : EqualsState :=
  ⟨ts.cbegin, other.cbegin, ts.size == other.size, false⟩

/-- `operator==`; every iteration breaks off or moves both iterators, so the size bounds the run. -/
def equals (compareKeys : K → K' → Bool) (compareValues : V → V' → Bool) (ts : TimeSeries K V)
    (other : TimeSeries K' V') : Except Fault Bool :=
  ((equalsLoop compareKeys compareValues ts other).iterate ts.size
    (equalsStart ts other)).map EqualsState.isSameSoFar

section Loop

variable {compareKeys : K → K' → Bool} {compareValues : V → V' → Bool} {ts : TimeSeries K V}
  {other : TimeSeries K' V'}

/-- `flex_compare` takes the keys and the values of the rows for equal. -/
def RowsEqual (compareKeys : K → K' → Bool) (compareValues : V → V' → Bool) (l : K × V)
    (r : K' × V') : Prop := compareKeys l.1 r.1 = true ∧ compareValues l.2 r.2 = true

/-- The sizes are equal, and so are the rows before a position. -/
def EqualUpTo (compareKeys : K → K' → Bool) (compareValues : V → V' → Bool)
    (ts : TimeSeries K V) (other : TimeSeries K' V') (i : ℕ) : Prop :=
  ts.size = other.size ∧ ∀ j < i, ∀ l r, ts.rows[j]? = some l → other.rows[j]? = some r →
    RowsEqual compareKeys compareValues l r

variable (compareKeys compareValues) in
theorem equalUpTo_succ {i : ℕ} {l : K × V} {r : K' × V'} (hl : ts.rows[i]? = some l)
    (hr : other.rows[i]? = some r) : EqualUpTo compareKeys compareValues ts other (i + 1) ↔
      EqualUpTo compareKeys compareValues ts other i ∧
        RowsEqual compareKeys compareValues l r := by
  constructor
  · intro ⟨hsize, hrows⟩
    exact ⟨⟨hsize, fun j hj => hrows j (by omega)⟩, hrows i (by omega) l r hl hr⟩
  · intro ⟨⟨hsize, hrows⟩, hrow⟩
    refine ⟨hsize, fun j hj l' r' hl' hr' => ?_⟩
    by_cases hlast : j = i
    · subst hlast
      rw [hl, Option.some.injEq] at hl'
      rw [hr, Option.some.injEq] at hr'
      rwa [← hl', ← hr']
    · exact hrows j (by omega) l' r' hl' hr'

/-- Up to the end of either series, all rows are equal. -/
theorem equalUpTo_iff {i : ℕ} (hi : ts.size ≤ i ∨ other.size ≤ i) :
    EqualUpTo compareKeys compareValues ts other i ↔
      List.Forall₂ (RowsEqual compareKeys compareValues) ts.rows other.rows := by
  have hlen : ts.size = other.size ↔ ts.rows.length = other.rows.length := by
    rw [length_rows, length_rows]
  rw [EqualUpTo, List.forall₂_iff_get, hlen]
  refine and_congr_right fun hsize => ⟨fun hrows j hl hr => ?_, fun hrows j _ l r hl hr => ?_⟩
  · rw [length_rows] at hl hr
    exact hrows j (by omega) _ _ (List.getElem?_eq_getElem _) (List.getElem?_eq_getElem _)
  · obtain ⟨hlt, rfl⟩ := List.getElem?_eq_some_iff.mp hl
    obtain ⟨hlt', rfl⟩ := List.getElem?_eq_some_iff.mp hr
    exact hrows j hlt hlt'

/-- At the loop head the rows before the iterators have been compared, unless the loop was left
over rows that differ. -/
inductive Compared (compareKeys : K → K' → Bool) (compareValues : V → V' → Bool)
    (ts : TimeSeries K V) (other : TimeSeries K' V') : EqualsState → Prop
  | running {i : ℕ} {b : Bool} (hl : i ≤ ts.size) (hr : i ≤ other.size)
      (hb : b = true ↔ EqualUpTo compareKeys compareValues ts other i) :
      Compared compareKeys compareValues ts other ⟨.row i, .row i, b, false⟩
  | broken {il ir : IteratorPair}
      (h : ¬ List.Forall₂ (RowsEqual compareKeys compareValues) ts.rows other.rows) :
      Compared compareKeys compareValues ts other ⟨il, ir, false, true⟩

theorem compared_start (ts : TimeSeries K V) (other : TimeSeries K' V') :
    Compared compareKeys compareValues ts other (equalsStart ts other) := by
  refine .running (Nat.zero_le _) (Nat.zero_le _) ?_
  rw [beq_iff_eq, EqualUpTo]
  exact (and_iff_left fun j hj => absurd hj (Nat.not_lt_zero j)).symm

variable (compareKeys compareValues) in
theorem equalsLoop_cond (i : ℕ) (b : Bool) :
    (equalsLoop compareKeys compareValues ts other).cond ⟨.row i, .row i, b, false⟩ = true ↔
      i ≠ ts.size ∧ i ≠ other.size := by
  simp [equalsLoop, cend_eq]

variable (compareKeys compareValues) in
/-- One iteration compares the rows at which the iterators stand. -/
theorem equalsLoop_body {i : ℕ} {l : K × V} {r : K' × V'} (b : Bool)
    (hl : ts.rows[i]? = some l) (hr : other.rows[i]? = some r) :
    (equalsLoop compareKeys compareValues ts other).body ⟨.row i, .row i, b, false⟩ = .ok
      (if b && compareKeys l.1 r.1 && compareValues l.2 r.2 then
        ⟨.row (i + 1), .row (i + 1), true, false⟩
      else ⟨.row i, .row i, false, true⟩) := by
  simp only [equalsLoop, deref_row hl, deref_row hr, incr_row (lt_size_of_row hl),
    incr_row (lt_size_of_row hr), bind, Except.bind, pure, Except.pure]
  cases hsame : b && compareKeys l.1 r.1 && compareValues l.2 r.2 <;> rfl

/-- An iteration keeps the invariant, and brings the end of the loop nearer. -/
theorem Compared.step {s : EqualsState} (h : Compared compareKeys compareValues ts other s)
    (hc : (equalsLoop compareKeys compareValues ts other).cond s = true) :
    ∃ s', (equalsLoop compareKeys compareValues ts other).body s = .ok s' ∧
      Compared compareKeys compareValues ts other s' ∧
      (if s'.broken then 0 else ts.size - s'.il.first) <
        if s.broken then 0 else ts.size - s.il.first := by
  cases h with
  | broken h => cases hc
  | @running i b hi hj hb =>
    obtain ⟨hl, hr⟩ := (equalsLoop_cond _ _ i b).mp hc
    obtain ⟨a, v, hrow⟩ := exists_row (show i < ts.size by omega)
    obtain ⟨a', v', hrow'⟩ := exists_row (show i < other.size by omega)
    have hbody := equalsLoop_body compareKeys compareValues b hrow hrow'
    have hnext := equalUpTo_succ compareKeys compareValues hrow hrow'
    have hsame : (b && compareKeys a a' && compareValues v v') = true ↔
        EqualUpTo compareKeys compareValues ts other (i + 1) := by
      rw [hnext, ← hb, Bool.and_eq_true, Bool.and_eq_true, and_assoc, RowsEqual]
    split at hbody
    · next heq =>
      refine ⟨_, hbody, .running (by omega) (by omega) (by simpa using hsame.mp heq), ?_⟩
      simp only [IteratorPair.row, Bool.false_eq_true, ite_false]
      omega
    · next hne =>
      refine ⟨_, hbody, .broken fun hall => hne (hsame.mpr ?_), ?_⟩
      · obtain ⟨hsize, hrows⟩ := (equalUpTo_iff (Or.inl (Nat.le_refl _))).mpr hall
        exact ⟨hsize, fun j hj => hrows j (by omega)⟩
      · simp only [IteratorPair.row, Bool.false_eq_true, ite_false, ite_true]
        omega

/-- A finished loop has compared all rows, or met rows that differ. -/
theorem Compared.done {s : EqualsState} (h : Compared compareKeys compareValues ts other s)
    (hc : (equalsLoop compareKeys compareValues ts other).cond s = false) :
    s.isSameSoFar = true ↔
      List.Forall₂ (RowsEqual compareKeys compareValues) ts.rows other.rows := by
  cases h with
  | broken h => exact iff_of_false Bool.false_ne_true h
  | @running i b hi hj hb =>
    have hend : ¬ (i ≠ ts.size ∧ i ≠ other.size) := by
      rw [← equalsLoop_cond compareKeys compareValues i b, hc]
      exact Bool.false_ne_true
    exact hb.trans (equalUpTo_iff (by omega))

/-- `operator==` reads inside both series and ends; it holds exactly of series of one size whose
rows `flex_compare` takes for equal one by one. -/
theorem equals_returns (compareKeys : K → K' → Bool) (compareValues : V → V' → Bool)
    (ts : TimeSeries K V) (other : TimeSeries K' V') :
    ∃ t, (equalsLoop compareKeys compareValues ts other).Returns (equalsStart ts other) t ∧
      equals compareKeys compareValues ts other = .ok t.isSameSoFar ∧
      (t.isSameSoFar = true ↔
        List.Forall₂ (RowsEqual compareKeys compareValues) ts.rows other.rows) := by
  obtain ⟨t, hrun, hc, ht⟩ := WhileLoop.iterate_variant_total
    (fun s : EqualsState => if s.broken then 0 else ts.size - s.il.first)
    (fun _ h hc => h.step hc) ts.size (equalsStart ts other) (compared_start ts other)
    (by simp [equalsStart, cbegin])
  refine ⟨t, ⟨_, hrun, hc⟩, ?_, ht.done hc⟩
  rw [equals, hrun]
  rfl

/-- On keys and values that compare by `==` the loop of `operator==` never faults, always returns,
and decides whether the series are equal. -/
theorem equals_eq_decide [DecidableEq K] [DecidableEq V] (ts other : TimeSeries K V) :
    equals (· == ·) (· == ·) ts other = .ok (decide (ts = other)) ∧
      (∃ t, (equalsLoop (· == ·) (· == ·) ts other).Returns (equalsStart ts other) t ∧
        t.isSameSoFar = decide (ts = other)) ∧
      ∀ e, ¬ (equalsLoop (· == ·) (· == ·) ts other).Faults (equalsStart ts other) e := by
  obtain ⟨t, hreturns, hequals, ht⟩ := equals_returns (· == ·) (· == ·) ts other
  have hrow : RowsEqual (· == ·) (· == ·) = fun l r : K × V => l = r := by
    ext l r
    rw [RowsEqual, beq_iff_eq, beq_iff_eq, Prod.ext_iff]
  have hsame : t.isSameSoFar = decide (ts = other) := by
    rw [hrow, List.forall₂_eq_eq_eq] at ht
    rw [Bool.eq_iff_iff, ht, decide_eq_true_eq]
    exact ⟨ext_rows, congrArg rows⟩
  exact ⟨hequals.trans (congrArg Except.ok hsame), ⟨t, hreturns, hsame⟩, hreturns.not_faults⟩

/-- What `operator==` answers, as a statement about the rows. -/
theorem equals_iff : equals compareKeys compareValues ts other = .ok true ↔
    List.Forall₂ (RowsEqual compareKeys compareValues) ts.rows other.rows := by
  obtain ⟨t, _, hequals, ht⟩ := equals_returns compareKeys compareValues ts other
  rw [hequals, Except.ok.injEq, ht]

/-- A series is equal to itself if its rows are. -/
theorem equals_self_iff [DecidableEq K] {compareValues : V → V → Bool} {ts : TimeSeries K V} :
    equals (· == ·) compareValues ts ts = .ok true ↔ ∀ v ∈ ts.values, compareValues v v = true := by
  rw [equals_iff, List.forall₂_same, ← map_snd_rows, List.forall_mem_map]
  exact forall₂_congr fun r _ => and_iff_right (beq_self_eq_true r.1)

end Loop

end TimeSeries

/-- A value of a floating-point type. The two zeros are one, as no function here tells them
apart. -/
inductive Floating
  | nan
  | infinite (negative : Bool)
  | finite (value : ℚ)
  deriving DecidableEq

/-- The value with the opposite sign. -/
def Floating.neg : Floating → Floating
  | .nan => .nan
  | .infinite negative => .infinite !negative
  | .finite value => .finite (-value)

namespace CompareExtensions

/-- The types of which `std::is_floating_point` holds. -/
inductive FloatingType
  | float
  | double
  | longDouble
  deriving DecidableEq, Repr

/-- What a floating-point type adds to exact arithmetic: the rounding of the difference of two
finite values, and the value of the literal `0.0000001`. -/
structure Arithmetic (type : FloatingType) where
  round : ℚ → Floating
  /-- Two equal values have the difference zero. -/
  round_zero : round 0 = .finite 0
  /-- Exchanged operands change the sign of the difference, as in rounding to nearest. -/
  round_neg : ∀ q, round (-q) = (round q).neg
  epsilon : ℚ
  epsilon_pos : 0 < epsilon

variable {type : FloatingType} (arith : Arithmetic type)

/-- `lhs - rhs` -/
def sub : Floating → Floating → Floating
  | .nan, _ => .nan
  | _, .nan => .nan
  | .infinite l, .infinite r => if l = r then .nan else .infinite l
  | .infinite l, .finite _ => .infinite l
  | .finite _, .infinite r => .infinite !r
  | .finite l, .finite r => arith.round (l - r)

/-- `std::abs` -/
def abs : Floating → Floating
  | .nan => .nan
  | .infinite _ => .infinite false
  | .finite value => .finite |value|

/-- `value < epsilon`, with a finite right side. -/
def lt : Floating → ℚ → Bool
  | .nan, _ => false
  | .infinite negative, _ => negative
  | .finite value, epsilon => decide (value < epsilon)

/-- `std::isnan` -/
def isNan : Floating → Bool
  | .nan => true
  | _ => false

/-- The operator `==` on floating-point values. -/
def eq : Floating → Floating → Bool
  | .infinite l, .infinite r => l == r
  | .finite l, .finite r => l == r
  | _, _ => false

/-- `flex_compare` on two values of a floating-point type. -/
def flexCompare (lhs rhs : Floating) : Bool :=
  let diff := abs (sub arith lhs rhs)
  lt diff arith.epsilon || (isNan lhs && isNan rhs)

/-- `flex_compare` on two pairs of values of one type. Only for pairs of `double` there is an
overload that compares up to the tolerance; other pairs are compared by `==`. -/
def flexComparePair (lhs rhs : Floating × Floating) : Bool :=
  match type with
  | .double =>
    let first := flexCompare arith lhs.1 rhs.1
    let second := flexCompare arith lhs.2 rhs.2
    first && second
  | .float | .longDouble => eq lhs.1 rhs.1 && eq lhs.2 rhs.2

end CompareExtensions

open CompareExtensions

/-- The value is not infinite. -/
def Floating.Comparable : Floating → Prop
  | .infinite _ => False
  | _ => True

section Compare

variable {type : FloatingType} (arith : Arithmetic type) (x y : Floating)

theorem flexCompare_self_iff : flexCompare arith x x = true ↔ x.Comparable := by
  cases x with
  | nan => exact iff_of_true rfl trivial
  | infinite negative =>
    refine iff_of_false ?_ id
    simp [flexCompare, sub, CompareExtensions.abs, lt, isNan]
  | finite value =>
    refine iff_of_true ?_ trivial
    simp [flexCompare, sub, CompareExtensions.abs, lt, arith.round_zero, arith.epsilon_pos]

/-- A value that is taken for equal to some value is not infinite. -/
theorem comparable_of_flexCompare (h : flexCompare arith x y = true) : x.Comparable := by
  cases x with
  | nan => trivial
  | finite value => trivial
  | infinite negative =>
    cases y with
    | nan => cases h
    | finite value => cases h
    | infinite r =>
      rw [flexCompare, sub] at h
      split at h <;> cases h

/-- The difference of exchanged operands has the same magnitude. -/
theorem abs_sub_comm : CompareExtensions.abs (sub arith x y) =
    CompareExtensions.abs (sub arith y x) := by
  have hneg : ∀ z : Floating, CompareExtensions.abs z.neg = CompareExtensions.abs z := by
    intro z
    cases z with
    | nan => rfl
    | infinite negative => rfl
    | finite value => exact congrArg Floating.finite (abs_neg value)
  cases x with
  | nan => cases y <;> rfl
  | infinite l =>
    cases y with
    | nan => rfl
    | finite r => rfl
    | infinite r =>
      rw [sub, sub]
      by_cases h : l = r
      · rw [if_pos h, if_pos h.symm]
      · rw [if_neg h, if_neg (Ne.symm h)]
        rfl
  | finite l =>
    cases y with
    | nan => rfl
    | infinite r => rfl
    | finite r => rw [sub, sub, ← neg_sub, arith.round_neg, hneg]

theorem flexCompare_comm : flexCompare arith x y = flexCompare arith y x := by
  rw [flexCompare, flexCompare, abs_sub_comm arith x y, Bool.and_comm]

/-- By `==` only NaN differs from itself. -/
theorem eq_self_iff : CompareExtensions.eq x x = true ↔ x ≠ .nan := by
  cases x with
  | nan => exact iff_of_false Bool.false_ne_true fun h => h rfl
  | infinite negative => exact iff_of_true (beq_self_eq_true negative) Floating.noConfusion
  | finite value => exact iff_of_true (beq_self_eq_true value) Floating.noConfusion

theorem flexComparePair_self_iff (v : Floating × Floating) :
    flexComparePair arith v v = true ↔
      if type = .double then v.1.Comparable ∧ v.2.Comparable else v.1 ≠ .nan ∧ v.2 ≠ .nan := by
  cases type with
  | double => simp [flexComparePair, flexCompare_self_iff]
  | float => simp [flexComparePair, eq_self_iff]
  | longDouble => simp [flexComparePair, eq_self_iff]

end Compare

namespace TimeSeries

variable {K : Type} [DecidableEq K]

/-- `operator==` on floating-point values does not depend on the order of its operands, and takes
no series with an infinite value for equal to any series; these are the only series that are not
equal to themselves. So it is for pairs of `double`, while of other pairs the series with a NaN
are not equal to themselves. -/
theorem equals_flexCompare {type : FloatingType} (arith : Arithmetic type)
    (ts other : TimeSeries K Floating) (pairs : TimeSeries K (Floating × Floating)) :
    equals (· == ·) (flexCompare arith) ts other = equals (· == ·) (flexCompare arith) other ts ∧
    (equals (· == ·) (flexCompare arith) ts other = .ok true →
      ts.keys = other.keys ∧ ∀ v ∈ ts.values, v.Comparable) ∧
    (equals (· == ·) (flexCompare arith) ts ts = .ok true ↔ ∀ v ∈ ts.values, v.Comparable) ∧
    (equals (· == ·) (flexComparePair arith) pairs pairs = .ok true ↔ ∀ v ∈ pairs.values,
      if type = .double then v.1.Comparable ∧ v.2.Comparable else v.1 ≠ .nan ∧ v.2 ≠ .nan) := by
  refine ⟨?_, ?_, ?_, ?_⟩
  · obtain ⟨t, _, hequals, ht⟩ := equals_returns (· == ·) (flexCompare arith) ts other
    obtain ⟨t', _, hequals', ht'⟩ := equals_returns (· == ·) (flexCompare arith) other ts
    have hcomm : ∀ rs rs' : List (K × Floating),
        List.Forall₂ (RowsEqual (· == ·) (flexCompare arith)) rs rs' →
          List.Forall₂ (RowsEqual (· == ·) (flexCompare arith)) rs' rs := by
      intro rs rs' h
      refine List.Forall₂.flip (h.imp fun l r hrow => ⟨?_, ?_⟩)
      · exact beq_iff_eq.mpr (eq_of_beq hrow.1).symm
      · exact (flexCompare_comm arith r.2 l.2).trans hrow.2
    rw [hequals, hequals', Except.ok.injEq, Bool.eq_iff_iff, ht, ht']
    exact ⟨hcomm _ _, hcomm _ _⟩
  · intro h
    have hrows := equals_iff.mp h
    constructor
    · rw [← map_fst_rows, ← map_fst_rows other]
      exact List.forall₂_eq_eq_eq ▸ List.rel_map (fun _ _ hrow => eq_of_beq hrow.1) hrows
    · rw [← map_snd_rows, List.forall_mem_map]
      have hboth := hrows.imp fun l r hrow =>
        And.intro (comparable_of_flexCompare arith l.2 r.2 hrow.2) hrow
      exact ((List.forall₂_and_left (p := fun l : K × Floating => l.2.Comparable) _ _).mp hboth).1
  · simp only [equals_self_iff, flexCompare_self_iff]
  · simp only [equals_self_iff, flexComparePair_self_iff]

end TimeSeries

/-- Exact differences, with the tolerance of the source. -/
def exactArithmetic (type : FloatingType) : Arithmetic type where
  round := .finite
  round_zero := rfl
  round_neg _ := rfl
  epsilon := 1 / 10000000
  epsilon_pos := by norm_num

/-- A series with an infinite value is not equal to itself. -/
example : TimeSeries.equals (· == ·) (flexCompare (exactArithmetic .double))
    (.ofRows [((1 : ℤ), Floating.nan), (2, .infinite false)])
    (.ofRows [((1 : ℤ), Floating.nan), (2, .infinite false)]) = .ok false := by decide

end Tspp
