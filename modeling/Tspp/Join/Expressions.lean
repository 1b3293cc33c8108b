import Tspp.Join.InterweaveLaws
import Tspp.Series.Meaning

/-!
# Expressions of series

Operations and joins put together make expressions. An expression of strictly increasing series
means a partial map from dates to values, date by date, and evaluating it gives the series that
writes this map down, or fails exactly where the meaning does not allow an operation or a union.
-/

namespace Tspp

open PartialMap KeyedRows TimeSeries

/-- An expression of series: the series named in it, operations on one series, inner joins and
unions. -/
inductive Expression (K : Type) [LinearOrder K] : Type → Type 1
  | series {V : Type} (ts : TimeSeries K V) (hts : ts.StrictlyIncreasing) : Expression K V
  | operation {V O : Type} (op : Operation K V O) (arg : Expression K V) : Expression K O
  | crossApplyInner {V W O : Type} (left : Expression K V) (other : Expression K W)
      (func : V → W → O) : Expression K O
  | interweave {V : Type} (left other : Expression K V) (selecfn : K × V → K × V → K × V)
      (hsel : ∀ x y, x.1 = y.1 → (selecfn x y).1 = x.1) : Expression K V

variable {K V W O : Type} [LinearOrder K]

namespace Expression

/-- The series that an expression gives. -/
def eval {V : Type} : Expression K V → Except Fault (TimeSeries K V)
  | series ts _ => .ok ts
  | operation op arg => arg.eval >>= op.apply int32
  | crossApplyInner left other func => do
    let l ← left.eval
    let r ← other.eval
    l.crossApplyInner r func
  | interweave left other selecfn _ => do
    let l ← left.eval
    let r ← other.eval
    l.interweave r selecfn

/-- The rows of the series that are named in an expression. -/
def rowCount {V : Type} : Expression K V → ℕ
  | series ts _ => ts.size
  | operation _ arg => arg.rowCount
  | crossApplyInner left other _ => left.rowCount + other.rowCount
  | interweave left other _ _ => left.rowCount + other.rowCount

/-- The value that an expression has at a date. -/
noncomputable def meaning {V : Type} : Expression K V → K → Option V
  | series ts _ => asMap ts.rows
  | operation op arg => op.meaning arg.meaning
  | crossApplyInner left other func => fun d =>
      (left.meaning d).bind fun v => (other.meaning d).map (func v)
  | interweave left other selecfn _ => fun d =>
      unionValue selecfn d (left.meaning d) (other.meaning d)

/-- What keeps an expression from failing: no operation throws, and the two sides of a union end
on the same date or have no dates. -/
def Defined {V : Type} : Expression K V → Prop
  | series _ _ => True
  | operation op arg => arg.Defined ∧ op.Defined arg.meaning
  | crossApplyInner left other _ => left.Defined ∧ other.Defined
  | interweave left other _ _ => left.Defined ∧ other.Defined ∧
      ∀ d, IsGreatest (domain left.meaning) d ↔ IsGreatest (domain other.meaning) d

end Expression

namespace TimeSeries

/-- Where `defined` holds the computation gives a series of at most `n` rows that write `m` down;
where it does not, the computation fails. -/
structure Yields (computation : Except Fault (TimeSeries K V)) (m : K → Option V) (n : ℕ)
    (defined : Prop) : Prop where
  represents : ∀ ts, computation = .ok ts → Represents ts m
  size_le : ∀ ts, computation = .ok ts → ts.size ≤ n
  returns_iff : (∃ ts, computation = .ok ts) ↔ defined

/-- A computation goes on with what it gave. -/
theorem Yields.bind {computation : Except Fault (TimeSeries K V)} {m : K → Option V} {a b : ℕ}
    {defined defined' : Prop} (h : Yields computation m a defined)
    {rest : TimeSeries K V → Except Fault (TimeSeries K O)} {m' : K → Option O}
    (hrest : ∀ ts, Represents ts m → ts.size ≤ a → Yields (rest ts) m' b defined') :
    Yields (computation >>= rest) m' b (defined ∧ defined') := by
  have hnext : ∀ {ts}, computation = .ok ts → Yields (rest ts) m' b defined' :=
    fun hok => hrest _ (h.represents _ hok) (h.size_le _ hok)
  refine ⟨?_, ?_, ?_⟩
  · intro result hok
    obtain ⟨ts, hts, hok⟩ := RangeLoop.exists_of_bind_eq_ok hok
    exact (hnext hts).represents result hok
  · intro result hok
    obtain ⟨ts, hts, hok⟩ := RangeLoop.exists_of_bind_eq_ok hok
    exact (hnext hts).size_le result hok
  · rw [← h.returns_iff]
    constructor
    · rintro ⟨result, hok⟩
      obtain ⟨ts, hts, hok⟩ := RangeLoop.exists_of_bind_eq_ok hok
      exact ⟨⟨ts, hts⟩, (hnext hts).returns_iff.mp ⟨result, hok⟩⟩
    · rintro ⟨⟨ts, hts⟩, hdefined⟩
      rw [hts]
      exact (hnext hts).returns_iff.mpr hdefined

section Steps

variable {left : TimeSeries K V} {other : TimeSeries K W} {m : K → Option V} {n : K → Option W}

theorem Represents.yields_apply (h : Represents left m) (op : Operation K V O) :
    Yields (op.apply int32 left) (op.meaning m) left.size (op.Defined m) :=
  ⟨fun _ hok => h.apply op hok, fun _ hok => (op.apply_keeps h.increasing hok).size_le,
    h.returns_iff op⟩

/-- An inner join combines the values that both sides have at a date. -/
theorem Represents.yields_crossApplyInner (h : Represents left m) (h' : Represents other n)
    (func : V → W → O) : Yields (left.crossApplyInner other func)
      (fun d => (m d).bind fun v => (n d).map (func v)) left.size True := by
  have hkeeps : ∀ result, left.crossApplyInner other func = .ok result → Keeps left result :=
    fun _ hok => .of_keys_sublist h.increasing (keys_sublist_of_crossApplyInner hok)
  refine ⟨?_, fun result hok => (hkeeps result hok).size_le, ?_⟩
  · intro result hok
    refine ⟨(hkeeps result hok).increasing, ?_, (hkeeps result hok).size_le.trans h.size_le⟩
    rw [asMap_crossApplyInner h h'.increasing hok, h'.asMap]
  · obtain ⟨result, hok, _⟩ := crossApplyInner_eq left other func
    exact iff_of_true ⟨result, hok⟩ trivial

/-- The last date of a series is the greatest date of its map. -/
theorem Represents.getLast?_keys (h : Represents left m) {d : K} :
    left.keys.getLast? = some d ↔ IsGreatest (domain m) d := by
  rw [List.getLast?_eq_getElem?, h.domain_eq]
  constructor
  · intro hlast
    exact ⟨List.mem_of_getElem? hlast, fun k hk => SortedKeys.le_of_last h.increasing hlast k hk⟩
  · intro hgreatest
    exact SortedKeys.getElem?_last_of_le h.increasing hgreatest.1 fun k hk => hgreatest.2 hk

/-- A union of two sides that end on one date selects at a date where both have a value. -/
theorem Represents.yields_interweave {other : TimeSeries K V} {n : K → Option V}
    (h : Represents left m) (h' : Represents other n) {sel : K × V → K × V → K × V}
    (hsel : ∀ x y, x.1 = y.1 → (sel x y).1 = x.1) (hsize : left.size + other.size ≤ 2 ^ 31) :
    Yields (left.interweave other sel) (fun d => unionValue sel d (m d) (n d))
      (left.size + other.size) (∀ d, IsGreatest (domain m) d ↔ IsGreatest (domain n) d) := by
  have hl := left.strictlyIncreasing_iff_rows.mp h.increasing
  have hr := other.strictlyIncreasing_iff_rows.mp h'.increasing
  have hunion : ∀ result, left.interweave other sel = .ok result →
      result.rows = unionMerge sel left.rows other.rows ∧
        result.size ≤ left.size + other.size := by
    intro result hok
    rw [interweave_eq] at hok
    split at hok
    · next out hout =>
      cases hok
      have hlen := (length_of_interweaveRows hout).2.2
      rw [length_rows, length_rows] at hlen
      rw [rows_ofRows, ← length_rows, rows_ofRows]
      exact ⟨interweaveRows_eq_unionMerge hout, hlen⟩
    · cases hok
  refine ⟨?_, fun result hok => (hunion result hok).2, ?_⟩
  · intro result hok
    obtain ⟨hrows, hlen⟩ := hunion result hok
    refine ⟨?_, ?_, hlen.trans hsize⟩
    · rw [strictlyIncreasing_iff_rows, hrows]
      exact unionMerge_increasing hsel hl hr
    · ext1 d
      rw [hrows, KeyedRows.asMap, lookup_unionMerge hsel hl hr, ← h.asMap, ← h'.asMap]
      rfl
  · rw [interweave_eq_union h.increasing h'.increasing]
    simp only [← h.getLast?_keys, ← h'.getLast?_keys, ← Option.ext_iff]
    split
    · next hlast => exact iff_of_true ⟨_, rfl⟩ hlast
    · next hlast => exact iff_of_false (by rintro ⟨_, ⟨⟩⟩) hlast

end Steps

end TimeSeries

namespace Expression

/-- Evaluation yields the meaning of an expression. -/
theorem yields (e : Expression K V) (hrows : e.rowCount ≤ 2 ^ 31) :
    Yields e.eval e.meaning e.rowCount e.Defined := by
  induction e with
  | series ts hts =>
    have hrep : Represents ts (asMap ts.rows) := ⟨hts, rfl, hrows⟩
    refine ⟨?_, ?_, iff_of_true ⟨ts, rfl⟩ trivial⟩
    · rintro _ ⟨⟩
      exact hrep
    · rintro _ ⟨⟩
      exact Nat.le_refl _
  | operation op arg ih =>
    apply (ih hrows).bind
    intro ts hts hsize
    obtain ⟨hrep, hle, hreturns⟩ := hts.yields_apply op
    exact ⟨hrep, fun result hok => (hle result hok).trans hsize, hreturns⟩
  | crossApplyInner left other func ihl ihr =>
    rw [rowCount] at hrows
    rw [Defined, ← and_true other.Defined]
    apply (ihl (by omega)).bind
    intro l hl hlsize
    apply (ihr (by omega)).bind
    intro r hr hrsize
    obtain ⟨hrep, hle, hreturns⟩ := hl.yields_crossApplyInner hr func
    refine ⟨hrep, fun result hok => (hle result hok).trans ?_, hreturns⟩
    rw [rowCount]
    omega
  | interweave left other selecfn hsel ihl ihr =>
    rw [rowCount] at hrows
    apply (ihl (by omega)).bind
    intro l hl hlsize
    apply (ihr (by omega)).bind
    intro r hr hrsize
    obtain ⟨hrep, hle, hreturns⟩ := hl.yields_interweave hr hsel (by omega)
    refine ⟨hrep, fun result hok => (hle result hok).trans ?_, hreturns⟩
    rw [rowCount]
    omega

/-- An expression whose rows an `int` counts gives a series exactly if it is defined, and then the
series that writes its meaning down, which `try_at` reads. -/
theorem eval_eq_ok_iff (e : Expression K V) (hrows : e.rowCount ≤ 2 ^ 31) (ts : TimeSeries K V) :
    (e.eval = .ok ts ↔ e.Defined ∧ Represents ts e.meaning) ∧
      (e.eval = .ok ts → ∀ d, ts.tryAt int32 d = .ok (e.meaning d)) := by
  have h := e.yields hrows
  refine ⟨⟨fun hok => ⟨h.returns_iff.mp ⟨ts, hok⟩, h.represents ts hok⟩, ?_⟩, ?_⟩
  · rintro ⟨hdefined, hts⟩
    obtain ⟨result, hok⟩ := h.returns_iff.mpr hdefined
    rw [hok, (h.represents result hok).unique hts]
  · intro hok d
    have hts := h.represents ts hok
    rw [tryAt_eq_lookup hts.increasing (holdsPositions_int32 hts.size_le), ← hts.asMap]
    rfl

/-- In a union of two series that end on the same date, the value after the one at 2. -/
theorem eval_eq_ok_iff_union :
    (ofRows [((1 : ℤ), (20 : ℤ)), (2, 81)]).tryAt int32 2 = .ok
      ((operation (.shift 1) (interweave (series (ofRows [((1 : ℤ), (10 : ℤ)), (4, 40)])
        (by decide)) (series (ofRows [(2, 20), (4, 41)]) (by decide))
          (fun x y => (x.1, x.2 + y.2)) fun _ _ _ => rfl)).meaning 2) :=
  (eval_eq_ok_iff (operation (.shift 1) (interweave
    (series (ofRows [((1 : ℤ), (10 : ℤ)), (4, 40)]) (by decide))
    (series (ofRows [(2, 20), (4, 41)]) (by decide)) (fun x y => (x.1, x.2 + y.2))
      fun _ _ _ => rfl)) (by decide) (ofRows [(1, 20), (2, 81)])).2 rfl 2

end Expression

end Tspp
