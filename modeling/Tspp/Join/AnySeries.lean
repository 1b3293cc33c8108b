import Tspp.Join.Inner
import Tspp.Join.Interweave
import Tspp.Join.Left

/-!
# Joins of any two series

The inner join, the left join and `interweave` move a cursor in every iteration, whatever the
keys are. On series in any order and with any repeated keys they end after as many iterations
as there are rows: with a result whose size is bounded from both sides, or, the latter two,
with a read past an end.
-/

namespace Tspp

variable {K V W O : Type} [LinearOrder K]

/-- The loop of the left join emits a row for every left row, and at most one more for every right
row. -/
theorem length_of_leftLoopRows {d : W} {func : V → W → O} {as : List (K × V)} {bs : List (K × W)}
    {out : List (K × O)} (h : leftLoopRows d func as bs = some out) :
    as.length ≤ out.length ∧ out.length ≤ as.length + bs.length := by
  induction as, bs using leftLoopRows.induct generalizing out with
  | case1 bs =>
    rw [leftLoopRows_nil] at h
    cases h
    exact ⟨Nat.le_refl _, Nat.zero_le _⟩
  | case2 r as => simp at h
  | case3 a v as b w bs hlt ih =>
    rw [leftLoopRows_of_lt hlt] at h
    obtain ⟨rest, hrest, rfl⟩ := Option.map_eq_some_iff.mp h
    have hlen := ih hrest
    simp only [List.length_cons] at hlen ⊢
    omega
  | case4 a v as b w bs hlt hgt hbs ih =>
    obtain rfl : bs = [] := List.isEmpty_iff.mp hbs
    rw [leftLoopRows_of_gt_last hgt] at h
    obtain ⟨rest, hrest, rfl⟩ := Option.map_eq_some_iff.mp h
    have hlen := ih hrest
    simp only [List.length_cons] at hlen ⊢
    omega
  | case5 a v as b w bs hlt hgt hbs ih =>
    rw [leftLoopRows_of_gt hgt (by simpa using hbs)] at h
    obtain ⟨rest, hrest, rfl⟩ := Option.map_eq_some_iff.mp h
    have hlen := ih hrest
    simp only [List.length_cons] at hlen ⊢
    omega
  | case6 a v as b w bs hlt hgt ih =>
    obtain rfl : a = b := le_antisymm (not_lt.mp hgt) (not_lt.mp hlt)
    rw [leftLoopRows_of_eq] at h
    obtain ⟨rest, hrest, rfl⟩ := Option.map_eq_some_iff.mp h
    have hlen := ih hrest
    simp only [List.length_cons] at hlen ⊢
    omega

/-- `interweave` emits a row for every row of either series, or one for a row of each. -/
theorem length_of_interweaveRows {sel : K × V → K × V → K × V} {as bs out : List (K × V)}
    (h : interweaveRows sel as bs = some out) :
    as.length ≤ out.length ∧ bs.length ≤ out.length ∧ out.length ≤ as.length + bs.length := by
  induction as, bs using interweaveRows.induct generalizing out with
  | case1 =>
    rw [interweaveRows_nil] at h
    cases h
    simp
  | case2 b bs => simp at h
  | case3 a as => simp at h
  | case4 a as b bs hgt ih =>
    rw [interweaveRows_of_gt hgt] at h
    obtain ⟨rest, hrest, rfl⟩ := Option.map_eq_some_iff.mp h
    have hlen := ih hrest
    simp only [List.length_cons] at hlen ⊢
    omega
  | case5 a as b bs hngt hlt ih =>
    rw [interweaveRows_of_lt hlt] at h
    obtain ⟨rest, hrest, rfl⟩ := Option.map_eq_some_iff.mp h
    have hlen := ih hrest
    simp only [List.length_cons] at hlen ⊢
    omega
  | case6 a as b bs hngt hnlt ih =>
    rw [interweaveRows_of_eq (le_antisymm (not_lt.mp hngt) (not_lt.mp hnlt))] at h
    obtain ⟨rest, hrest, rfl⟩ := Option.map_eq_some_iff.mp h
    have hlen := ih hrest
    simp only [List.length_cons] at hlen ⊢
    omega

namespace TimeSeries

/-- `cross_apply_left`; in the iteration after the last move a fault shows. -/
def crossApplyLeft (left : TimeSeries K V) (other : TimeSeries K W) (defaultValue : W)
    (func : V → W → O) : Except Fault (TimeSeries K O) :=
  ((crossApplyLeftLoop left other defaultValue func).iterate (left.size + other.size + 1)
    (.start left other)).map JoinState.result

/-- `interweave`; in the iteration after the last move a fault shows. -/
def interweave (left other : TimeSeries K V) (selecfn : K × V → K × V → K × V) :
    Except Fault (TimeSeries K V) :=
  ((interweaveLoop left other selecfn).iterate (left.size + other.size + 1)
    (.start left other)).map JoinState.result

/-- The rows of `cross_apply_left`, or a read past an end. -/
theorem crossApplyLeft_eq (left : TimeSeries K V) (other : TimeSeries K W) (d : W)
    (func : V → W → O) : crossApplyLeft left other d func =
      match leftLoopRows d func left.rows other.rows with
      | some out => .ok (.ofRows out)
      | none => .error .outOfRange :=
  (crossApplyLeftLoop_emitsRest left other d func).result_eq

/-- The rows of `interweave`, or a read past an end. -/
theorem interweave_eq (left other : TimeSeries K V) (sel : K × V → K × V → K × V) :
    interweave left other sel = match interweaveRows sel left.rows other.rows with
      | some out => .ok (.ofRows out)
      | none => .error .outOfRange :=
  (interweaveLoop_emitsRest left other sel).result_eq

/-- On any two series, however ordered, the inner join, the left join and `interweave` end within
as many iterations as there are rows; the inner join returns, and the others return or read past
an end. What they return has at most the rows of the smaller series, at least the left rows, or
at least the rows of the larger series, and never more than the rows of both. -/
theorem joins_end (left : TimeSeries K V) (other : TimeSeries K W) (same : TimeSeries K V)
    (d : W) (func : V → W → O) (sel : K × V → K × V → K × V) :
    (∃ t, (crossApplyInnerLoop left other func).iterate (left.size + other.size)
        (.start left other) = .ok t ∧
      (crossApplyInnerLoop left other func).cond t = false ∧
      t.result.size ≤ min left.size other.size) ∧
    ((crossApplyLeftLoop left other d func).iterate (left.size + other.size)
        (.start left other) = .error .outOfRange ∨
      ∃ t, (crossApplyLeftLoop left other d func).iterate (left.size + other.size)
          (.start left other) = .ok t ∧
        (crossApplyLeftLoop left other d func).cond t = false ∧
        left.size ≤ t.result.size ∧ t.result.size ≤ left.size + other.size) ∧
    ((interweaveLoop left same sel).iterate (left.size + same.size)
        (.start left same) = .error .outOfRange ∨
      ∃ t, (interweaveLoop left same sel).iterate (left.size + same.size)
          (.start left same) = .ok t ∧
        (interweaveLoop left same sel).cond t = false ∧
        max left.size same.size ≤ t.result.size ∧
        t.result.size ≤ left.size + same.size) := by
  have hinner := crossApplyInnerLoop_emitsRest left other func
  have hleft := crossApplyLeftLoop_emitsRest left other d func
  have hboth := interweaveLoop_emitsRest left same sel
  refine ⟨?_, ?_, ?_⟩
  · rcases hinner.fate with ⟨t, ht, hc, hrows⟩ | ⟨_, hnone⟩
    · refine ⟨t, ht, hc, ?_⟩
      have hlen := KeyedRows.length_innerMerge_le func left.rows other.rows
      rw [Option.some.inj hrows, length_rows, length_rows, length_rows] at hlen
      exact le_min hlen.1 hlen.2
    · cases hnone
  · rcases hleft.fate with ⟨t, ht, hc, hrows⟩ | ⟨hfault, _⟩
    · refine Or.inr ⟨t, ht, hc, ?_⟩
      have hlen := length_of_leftLoopRows hrows
      rwa [length_rows, length_rows, length_rows] at hlen
    · exact Or.inl (hleft.iterate_eq_error (leftLoopRows_nil d func []) hfault)
  · rcases hboth.fate with ⟨t, ht, hc, hrows⟩ | ⟨hfault, _⟩
    · refine Or.inr ⟨t, ht, hc, ?_⟩
      obtain ⟨hl, hr, hlen⟩ := length_of_interweaveRows hrows
      rw [length_rows, length_rows] at hl hr hlen
      rw [length_rows] at hlen
      exact ⟨max_le hl hr, hlen⟩
    · exact Or.inl (hboth.iterate_eq_error (interweaveRows_nil sel) hfault)

end TimeSeries

end Tspp
