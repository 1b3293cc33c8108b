import Tspp.Series.Iteration
import Tspp.Series.Operations
import Tspp.Series.Resample
import Tspp.Series.Rolling

/-!
# Loops over the rows

`between`, `where`, `skip_on_index`, `resample_and_agg` and `apply_rolling` walk a series
with an iterator pair that is compared with the end before every row. The constructor from
two containers does not compare their sizes, and neither do the loops: on containers of
different sizes the pair never equals the end, and it leaves the shorter container unless
the body stops before. On the containers of a series the loops are the folds over its rows.
-/

namespace Tspp

variable {K V σ : Type}

/-- A loop over the rows, before the comparison of its iterator with the end. -/
structure Traversal (σ : Type) where
  /-- The iterator. -/
  it : IteratorPair
  /-- The variables that the body changes. -/
  locals : σ
  /-- The body has left the loop by `break`. -/
  broke : Bool

namespace Containers

/-- The position behind the last element of each container. -/
def finish (c : Containers K V) : IteratorPair := ⟨c.keys.length, c.values.length⟩

/-- The rows at positions of both containers. -/
def commonRows (c : Containers K V) : List (K × V) := c.keys.zip c.values

/-- `for (iterator it = begin(); it != end(); ++it)` with a body that may throw or break. -/
def traverse (c : Containers K V) (body : σ → K × V → Except Fault (ForInStep σ)) :
    WhileLoop Fault (Traversal σ) where
  cond t := !t.broke && !t.it.equals c.finish
  body t := do
    let row ← t.it.deref c
    match ← body t.locals row with
    | .done locals => return { t with locals, broke := true }
    | .yield locals =>
      let it ← t.it.incr c
      return { t with it, locals }

/-- The loop before its first row. -/
def start (s : σ) : Traversal σ := ⟨.row 0, s, false⟩

/-- The body of the loop of `where`. -/
def whereBody (predicate : K × V → Bool) (sub : TimeSeries K V) (kvp : K × V) :
    Except Fault (ForInStep (TimeSeries K V)) :=
  .ok (.yield (if predicate kvp then sub.insertEnd kvp else sub))

/-- The body of the loop of `between`. -/
def betweenBody [LinearOrder K] (startdt enddt : K) (sub : TimeSeries K V) (kvp : K × V) :
    Except Fault (ForInStep (TimeSeries K V)) :=
  if kvp.1 > enddt then .ok (.done sub)
  else .ok (.yield (if startdt ≤ kvp.1 then sub.insertEnd kvp else sub))

section Row

variable {c : Containers K V} {body : σ → K × V → Except Fault (ForInStep σ)} {i : ℕ} {s : σ}
  {r : K × V}

theorem lt_of_commonRow (h : c.commonRows[i]? = some r) :
    i < c.keys.length ∧ i < c.values.length := by
  have hlen := (List.getElem?_eq_some_iff.mp h).1
  rw [commonRows, List.length_zip] at hlen
  omega

/-- A row that both containers have is not the end. -/
theorem cond_commonRow (h : c.commonRows[i]? = some r) :
    (c.traverse body).cond ⟨.row i, s, false⟩ = true := by
  have hlt := (lt_of_commonRow h).1
  simp only [traverse, IteratorPair.equals, IteratorPair.row, finish, Bool.not_false,
    Bool.true_and, Bool.not_eq_true', Bool.and_eq_false_iff, beq_eq_false_iff_ne]
  exact Or.inl (Nat.ne_of_lt hlt)

theorem deref_commonRow (h : c.commonRows[i]? = some r) : (IteratorPair.row i).deref c = .ok r := by
  obtain ⟨hk, hv⟩ := List.getElem?_zip_eq_some.mp h
  simp only [IteratorPair.deref, IteratorPair.row, hk, hv]

/-- The iteration at a row that both containers have. -/
theorem body_commonRow (h : c.commonRows[i]? = some r) :
    (c.traverse body).body ⟨.row i, s, false⟩ =
      match body s r with
      | .error e => .error e
      | .ok (.done s') => .ok ⟨.row i, s', true⟩
      | .ok (.yield s') => .ok ⟨.row (i + 1), s', false⟩ := by
  have hincr : (IteratorPair.row i).incr c = .ok (.row (i + 1)) := if_pos (lt_of_commonRow h)
  simp only [traverse, deref_commonRow h]
  cases hbody : body s r with
  | error e => simp [bind, Except.bind, hbody]
  | ok step =>
    cases step with
    | done s' => simp [bind, Except.bind, pure, Except.pure, hbody]
    | yield s' => simp [bind, Except.bind, pure, Except.pure, hbody, hincr]

/-- Behind the rows of both containers the iterator is the end only if the containers have one
size. -/
theorem cond_behind (hi : i = c.commonRows.length) :
    (c.traverse body).cond ⟨.row i, s, false⟩ = true ↔ c.keys.length ≠ c.values.length := by
  rw [commonRows, List.length_zip] at hi
  simp only [traverse, IteratorPair.equals, IteratorPair.row, finish, Bool.not_false,
    Bool.true_and, Bool.not_eq_true', Bool.and_eq_false_iff, beq_eq_false_iff_ne]
  omega

/-- Behind the rows of both containers there is nothing to read. -/
theorem body_behind (hi : i = c.commonRows.length) :
    (c.traverse body).body ⟨.row i, s, false⟩ = .error .outOfRange := by
  rw [commonRows, List.length_zip] at hi
  have hderef : (IteratorPair.row i).deref c = .error .outOfRange := by
    rcases Nat.le_total c.keys.length c.values.length with hle | hle
    · have hk : c.keys[i]? = none := List.getElem?_eq_none (by omega)
      simp only [IteratorPair.deref, IteratorPair.row, hk]
    · have hv : c.values[i]? = none := List.getElem?_eq_none (by omega)
      simp only [IteratorPair.deref, IteratorPair.row, hv]
      split <;> simp_all
  simp [traverse, hderef, bind, Except.bind]

end Row

theorem upToBreak_whereBody (predicate : K × V → Bool) (rows : List (K × V))
    (sub : TimeSeries K V) : RangeLoop.upToBreak (whereBody predicate) rows sub =
      .ok (.yield (rows.foldl (fun sub kvp => if predicate kvp then sub.insertEnd kvp else sub)
        sub)) := by
  induction rows generalizing sub with
  | nil => rfl
  | cons r rows ih => exact ih _

/-- `between` breaks off exactly if it comes to a row behind the end date. -/
theorem upToBreak_betweenBody [LinearOrder K] (startdt enddt : K) (rows : List (K × V))
    (sub : TimeSeries K V) : RangeLoop.upToBreak (betweenBody startdt enddt) rows sub =
      .ok (if ∃ r ∈ rows, enddt < r.1 then
        .done (TimeSeries.betweenLoop startdt enddt rows sub)
      else .yield (TimeSeries.betweenLoop startdt enddt rows sub)) := by
  induction rows generalizing sub with
  | nil => simp [RangeLoop.upToBreak, TimeSeries.betweenLoop]
  | cons r rows ih =>
    rw [RangeLoop.upToBreak, TimeSeries.betweenLoop, betweenBody]
    by_cases hbehind : r.1 > enddt
    · simp [hbehind]
    · have hbefore : ¬ enddt < r.1 := hbehind
      simp only [gt_iff_lt, List.exists_mem_cons_iff, hbefore, if_false, false_or, ih]

/-- How a loop ends whose body does this over the rows that both containers have. -/
def Ends (c : Containers K V) (body : σ → K × V → Except Fault (ForInStep σ)) (t : Traversal σ) :
    Except Fault (ForInStep σ) → Prop
  | .error e => (c.traverse body).Faults t e
  | .ok (.done s) => ∃ it, (c.traverse body).Returns t ⟨it, s, true⟩
  | .ok (.yield s) =>
    if c.keys.length = c.values.length then (c.traverse body).Returns t ⟨c.finish, s, false⟩
    else (c.traverse body).Faults t .outOfRange

/-- A loop ends as the rest of it does. -/
theorem Ends.head {c : Containers K V} {body : σ → K × V → Except Fault (ForInStep σ)}
    {t t' : Traversal σ} {last : Except Fault (ForInStep σ)} (h : c.Ends body t' last)
    (hcond : (c.traverse body).cond t = true) (hstep : (c.traverse body).body t = .ok t') :
    c.Ends body t last := by
  cases last with
  | error e => exact WhileLoop.Faults.head hcond hstep h
  | ok last =>
    cases last with
    | done s =>
      obtain ⟨it, hit⟩ := h
      exact ⟨it, hit.head hcond hstep⟩
    | yield s =>
      by_cases hpaired : c.keys.length = c.values.length
      · simp only [Ends, if_pos hpaired] at h ⊢
        exact h.head hcond hstep
      · simp only [Ends, if_neg hpaired] at h ⊢
        exact h.head hcond hstep

/-- The loop ends as its body does over the rows that are left, or behind them. -/
theorem ends_drop (c : Containers K V) (body : σ → K × V → Except Fault (ForInStep σ)) (i : ℕ)
    (hi : i ≤ c.commonRows.length) (s : σ) :
    c.Ends body ⟨.row i, s, false⟩ (RangeLoop.upToBreak body (c.commonRows.drop i) s) := by
  -- the induction is on the number of rows that are left
  induction hn : c.commonRows.length - i generalizing i s with
  | zero =>
    have hend : i = c.commonRows.length := by omega
    rw [List.drop_eq_nil_of_le (by omega), RangeLoop.upToBreak, Ends]
    split
    · next hpaired =>
      have hfinish : c.finish = .row i := by
        rw [hend, commonRows, List.length_zip, finish, IteratorPair.row, ← hpaired, Nat.min_self]
      have hcond : (c.traverse body).cond ⟨.row i, s, false⟩ = false := by
        rw [← Bool.not_eq_true, cond_behind hend]
        exact not_not.mpr hpaired
      rw [hfinish]
      exact ((WhileLoop.returns_of_not_cond hcond _).mpr rfl)
    · next hunpaired =>
      exact WhileLoop.faults_of_error ((cond_behind hend).mpr hunpaired) (body_behind hend)
  | succ n ih =>
    have hlt : i < c.commonRows.length := by omega
    have hrow : c.commonRows[i]? = some c.commonRows[i] := List.getElem?_eq_getElem hlt
    have hcond : (c.traverse body).cond ⟨.row i, s, false⟩ = true := cond_commonRow hrow
    have hstep : (c.traverse body).body ⟨.row i, s, false⟩ = _ := body_commonRow hrow
    rw [List.drop_eq_getElem_cons hlt, RangeLoop.upToBreak]
    cases hbody : body s c.commonRows[i] with
    | error e =>
      rw [hbody] at hstep
      exact WhileLoop.faults_of_error hcond hstep
    | ok step =>
      cases step with
      | done s' =>
        rw [hbody] at hstep
        exact ⟨_, .head hcond hstep ((WhileLoop.returns_of_not_cond rfl _).mpr rfl)⟩
      | yield s' =>
        rw [hbody] at hstep
        exact (ih (i + 1) (by omega) s' (by omega)).head hcond hstep

theorem ends (c : Containers K V) (body : σ → K × V → Except Fault (ForInStep σ)) (s : σ) :
    c.Ends body (start s) (RangeLoop.upToBreak body c.commonRows s) :=
  c.ends_drop body 0 (Nat.zero_le _) s

/-- A loop over the rows of any two containers never runs on. It breaks off exactly if its body
does at a row that both containers have, it throws what the body throws there, and it comes to
the end exactly if the containers have one size; otherwise it leaves the shorter one. -/
theorem traverse_fate (c : Containers K V) (body : σ → K × V → Except Fault (ForInStep σ))
    (s : σ) :
    (∀ s', (∃ it, (c.traverse body).Returns (start s) ⟨it, s', true⟩) ↔
      RangeLoop.upToBreak body c.commonRows s = .ok (.done s')) ∧
    (∀ it s', (c.traverse body).Returns (start s) ⟨it, s', false⟩ ↔
      it = c.finish ∧ c.keys.length = c.values.length ∧
        RangeLoop.upToBreak body c.commonRows s = .ok (.yield s')) ∧
    (∀ e, (c.traverse body).Faults (start s) e ↔
      RangeLoop.upToBreak body c.commonRows s = .error e ∨
        e = .outOfRange ∧ c.keys.length ≠ c.values.length ∧
          ∃ s', RangeLoop.upToBreak body c.commonRows s = .ok (.yield s')) ∧
    ¬ (c.traverse body).Diverges (start s) := by
  have hends := c.ends body s
  cases hlast : RangeLoop.upToBreak body c.commonRows s with
  | error e =>
    rw [hlast] at hends
    simp [hends.not_returns, hends.faults_iff, hends.not_diverges, eq_comm]
  | ok last =>
    cases last with
    | done s' =>
      rw [hlast] at hends
      obtain ⟨it, hit⟩ := hends
      simp [hit.returns_iff, hit.not_faults, hit.not_diverges, eq_comm]
    | yield s' =>
      rw [hlast] at hends
      by_cases hpaired : c.keys.length = c.values.length
      · simp only [Ends, if_pos hpaired] at hends
        simp [hpaired, hends.returns_iff, hends.not_faults, hends.not_diverges, eq_comm]
      · simp only [Ends, if_neg hpaired] at hends
        simp [hpaired, hends.not_returns, hends.faults_iff, hends.not_diverges]

/-- Of containers of different sizes, `where` always leaves the shorter one. -/
theorem where_unpaired {c : Containers K V} (predicate : K × V → Bool)
    (h : c.keys.length ≠ c.values.length) :
    (c.traverse (whereBody predicate)).Faults (start .empty) .outOfRange := by
  have hyield : ∃ sub, RangeLoop.upToBreak (whereBody predicate) c.commonRows .empty =
      .ok (.yield sub) := ⟨_, upToBreak_whereBody predicate c.commonRows .empty⟩
  exact ((c.traverse_fate _ _).2.2.1 _).mpr (Or.inr ⟨rfl, h, hyield⟩)

/-- Of containers of different sizes, `between` stays inside both exactly if a row that both have
lies behind the end date. -/
theorem between_unpaired_iff {c : Containers K V} [LinearOrder K] (startdt enddt : K)
    (h : c.keys.length ≠ c.values.length) :
    (∃ t, (c.traverse (betweenBody startdt enddt)).Returns (start .empty) t) ↔
      ∃ r ∈ c.commonRows, enddt < r.1 := by
  obtain ⟨hbroke, hfinished, _, _⟩ := c.traverse_fate (betweenBody startdt enddt) .empty
  simp only [upToBreak_betweenBody] at hbroke hfinished
  constructor
  · rintro ⟨⟨it, sub, broke⟩, ht⟩
    cases broke with
    | false => exact absurd ((hfinished it sub).mp ht).2.1 h
    | true =>
      by_contra hnone
      have hyield := (hbroke sub).mp ⟨it, ht⟩
      rw [if_neg hnone] at hyield
      cases hyield
  · intro hbehind
    obtain ⟨it, hit⟩ := (hbroke _).mpr (congrArg Except.ok (if_pos hbehind))
    exact ⟨_, hit⟩

end Containers

namespace TimeSeries

open Containers

/-- On a series a loop that does not break off is the fold over the rows. -/
theorem traverse_foldlM (ts : TimeSeries K V) (body : σ → K × V → Except Fault σ) (s : σ) :
    (∀ s', ts.rows.foldlM body s = .ok s' ↔
      (ts.traverse fun s r => (body s r).map .yield).Returns (start s) ⟨ts.cend, s', false⟩) ∧
    ∀ e, ts.rows.foldlM body s = .error e ↔
      (ts.traverse fun s r => (body s r).map .yield).Faults (start s) e := by
  obtain ⟨_, hfinished, hfaults, _⟩ := ts.traverse_fate (fun s r => (body s r).map .yield) s
  have hrows : ts.commonRows = ts.rows := rfl
  simp only [RangeLoop.upToBreak_yield, hrows] at hfinished hfaults
  constructor
  · intro s'
    rw [hfinished]
    cases ts.rows.foldlM body s with
    | error e => simp [Except.map]
    | ok s₁ => simp [Except.map, ts.paired, cend, finish]
  · intro e
    rw [hfaults]
    cases ts.rows.foldlM body s with
    | error e' => simp [Except.map]
    | ok s₁ => simp [Except.map, ts.paired]

/-- The loop of `where` -/
theorem where_traverse (ts : TimeSeries K V) (predicate : K × V → Bool) :
    (ts.traverse (whereBody predicate)).Returns (start .empty)
      ⟨ts.cend, ts.where' predicate, false⟩ := by
  obtain ⟨_, hfinished, _⟩ := ts.traverse_fate (whereBody predicate) .empty
  exact (hfinished _ _).mpr ⟨rfl, ts.paired, upToBreak_whereBody predicate ts.rows .empty⟩

/-- The loop of `between` -/
theorem between_traverse [LinearOrder K] {ts result : TimeSeries K V} {startdt enddt : K}
    (h : ts.between startdt enddt = .ok result) :
    ∃ it broke, (ts.traverse (betweenBody startdt enddt)).Returns (start .empty)
      ⟨it, result, broke⟩ := by
  have hresult : betweenLoop startdt enddt ts.rows .empty = result := by
    unfold between at h
    split at h
    · exact Except.ok.inj h
    · cases h
  obtain ⟨hbroke, hfinished, _, _⟩ := ts.traverse_fate (betweenBody startdt enddt) .empty
  simp only [upToBreak_betweenBody] at hbroke hfinished
  by_cases hbehind : ∃ r ∈ ts.commonRows, enddt < r.1
  · obtain ⟨it, hit⟩ := (hbroke result).mpr (by rw [if_pos hbehind]; exact hresult ▸ rfl)
    exact ⟨it, true, hit⟩
  · refine ⟨ts.cend, false, (hfinished _ _).mpr ⟨rfl, ts.paired, ?_⟩⟩
    rw [if_neg hbehind]
    exact hresult ▸ rfl

/-- The loop of `skip_on_index` -/
theorem skipOnIndex_traverse [LinearOrder K] (toInt : ℤ → ℤ) (ts : TimeSeries K V)
    (idxFunc : K → K) (func : V → V → V) :
    (∀ result, skipOnIndex toInt ts idxFunc func = .ok result ↔
      (ts.traverse fun s r => (skipOnIndexStep toInt ts idxFunc func s r).map .yield).Returns
        (start .empty) ⟨ts.cend, result, false⟩) ∧
    ∀ e, skipOnIndex toInt ts idxFunc func = .error e ↔
      (ts.traverse fun s r => (skipOnIndexStep toInt ts idxFunc func s r).map .yield).Faults
        (start .empty) e :=
  ts.traverse_foldlM (skipOnIndexStep toInt ts idxFunc func) .empty

/-- A fold over the rows and what follows it are the loop and what follows it. -/
theorem traverse_foldlM_map {τ : Type} (ts : TimeSeries K V) (body : σ → K × V → Except Fault σ)
    (s : σ) (result : σ → τ) :
    (∀ t, (ts.rows.foldlM body s).map result = .ok t ↔
      ∃ s', (ts.traverse fun s r => (body s r).map .yield).Returns (start s)
        ⟨ts.cend, s', false⟩ ∧ result s' = t) ∧
    ∀ e, (ts.rows.foldlM body s).map result = .error e ↔
      (ts.traverse fun s r => (body s r).map .yield).Faults (start s) e := by
  obtain ⟨hreturns, hfaults⟩ := ts.traverse_foldlM body s
  simp only [← hreturns, ← hfaults]
  cases ts.rows.foldlM body s with
  | error e => simp [Except.map]
  | ok s' => simp [Except.map]

/-- The loop of `resample_and_agg`, and the last chunk behind it -/
theorem resampleAndAgg_traverse [DecidableEq K] (ts : TimeSeries K V)
    (grpfn : K → Except Fault K) (aggfn : List V → σ) :
    (∀ result, ts.resampleAndAgg grpfn aggfn = .ok result ↔
      ∃ s, (ts.traverse fun s r => (resampleStep grpfn aggfn s r).map .yield).Returns
        (start ⟨.empty, [], none⟩) ⟨ts.cend, s, false⟩ ∧ resampleFinish aggfn s = result) ∧
    ∀ e, ts.resampleAndAgg grpfn aggfn = .error e ↔
      (ts.traverse fun s r => (resampleStep grpfn aggfn s r).map .yield).Faults
        (start ⟨.empty, [], none⟩) e :=
  ts.traverse_foldlM_map (resampleStep grpfn aggfn) _ (resampleFinish aggfn)

/-- The loop of `apply_rolling` on a series that holds a window -/
theorem applyRolling_traverse {ts : TimeSeries K V} (func : List V → σ) {windowSize : ℕ}
    (h : windowSize ≤ ts.size) :
    (∀ result, ts.applyRolling func windowSize = .ok result ↔
      ∃ s, (ts.traverse fun s r => (rollingStep func windowSize s r).map .yield).Returns
        (start ⟨.empty, []⟩) ⟨ts.cend, s, false⟩ ∧ s.result = result) ∧
    ∀ e, ts.applyRolling func windowSize = .error e ↔
      (ts.traverse fun s r => (rollingStep func windowSize s r).map .yield).Faults
        (start ⟨.empty, []⟩) e := by
  have hloop : ts.applyRolling func windowSize =
      (ts.rows.foldlM (rollingStep func windowSize) ⟨.empty, []⟩).map RollingState.result := by
    rw [applyRolling, if_neg (not_lt.mpr h)]
    rfl
  rw [hloop]
  exact ts.traverse_foldlM_map (rollingStep func windowSize) _ RollingState.result

end TimeSeries

end Tspp
