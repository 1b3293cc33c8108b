import Tspp.Core.PartialMap
import Tspp.Core.SortedKeys
import Tspp.Join.AnySeries

/-!
# Laws of the ordered union

Key by key the union merge selects a value, or takes the only one there is. So it is associative
if the selection is, and so is `interweave`, which fails on three series in either order if their
last keys are not all equal. Exchanging the two series exchanges the arguments of the selection,
also where the loop reads past an end.
-/

namespace KeyedRows

universe u v

variable {K : Type u} {V : Type v} [LinearOrder K] {sel : K × V → K × V → K × V}
  {as bs cs : List (K × V)} {k : K}

/-- The value of a key in a union, from its values on both sides. -/
def unionValue (sel : K × V → K × V → K × V) (k : K) : Option V → Option V → Option V
  | some v, some w => some (sel (k, v) (k, w)).2
  | some v, none => some v
  | none, w => w

/-- Key by key a union selects a value or takes the only one. -/
theorem lookup_unionMerge (hsel : ∀ x y, x.1 = y.1 → (sel x y).1 = x.1) (ha : Increasing as)
    (hb : Increasing bs) : (unionMerge sel as bs).lookup k =
      unionValue sel k (as.lookup k) (bs.lookup k) := by
  have hunion := unionMerge_increasing hsel ha hb
  cases hv : as.lookup k with
  | none =>
    have hka := lookup_eq_none_iff.mp hv
    cases hw : bs.lookup k with
    | none =>
      have hkb := lookup_eq_none_iff.mp hw
      rw [unionValue, lookup_eq_none_iff, mem_keys_unionMerge hsel]
      exact fun h => h.elim hka hkb
    | some w =>
      rw [unionValue, hunion.lookup_eq_some]
      exact mem_unionMerge_right ((hb.lookup_eq_some k w).mp hw) hka
  | some v =>
    have hrow := (ha.lookup_eq_some k v).mp hv
    cases hw : bs.lookup k with
    | none =>
      rw [unionValue, hunion.lookup_eq_some]
      exact mem_unionMerge_left hrow (lookup_eq_none_iff.mp hw)
    | some w =>
      have hkey : sel (k, v) (k, w) = (k, (sel (k, v) (k, w)).2) := Prod.ext (hsel _ _ rfl) rfl
      rw [unionValue, hunion.lookup_eq_some, ← hkey]
      exact mem_unionMerge_both ha hb hrow ((hb.lookup_eq_some k w).mp hw) rfl

/-- A union of unions does not depend on where it starts. -/
theorem unionMerge_assoc (hsel : ∀ x y, x.1 = y.1 → (sel x y).1 = x.1)
    (hassoc : ∀ x y z, x.1 = y.1 → y.1 = z.1 → sel (sel x y) z = sel x (sel y z))
    (ha : Increasing as) (hb : Increasing bs) (hc : Increasing cs) :
    unionMerge sel (unionMerge sel as bs) cs = unionMerge sel as (unionMerge sel bs cs) := by
  have hab := unionMerge_increasing hsel ha hb
  have hbc := unionMerge_increasing hsel hb hc
  apply (unionMerge_increasing hsel hab hc).ext_lookup (unionMerge_increasing hsel ha hbc)
  intro k
  rw [lookup_unionMerge hsel hab hc, lookup_unionMerge hsel ha hb, lookup_unionMerge hsel ha hbc,
    lookup_unionMerge hsel hb hc]
  have hkey : ∀ v w : V, sel (k, v) (k, w) = (k, (sel (k, v) (k, w)).2) :=
    fun v w => Prod.ext (hsel _ _ rfl) rfl
  cases as.lookup k with
  | none => rfl
  | some u =>
    cases bs.lookup k with
    | none => rfl
    | some v =>
      cases cs.lookup k with
      | none => rfl
      | some w =>
        have heq := hassoc (k, u) (k, v) (k, w) rfl rfl
        simp only [unionValue]
        rw [← hkey u v, ← hkey v w, heq]

/-- A union of lists with one last key ends on it. -/
theorem getLast?_unionMerge (hsel : ∀ x y, x.1 = y.1 → (sel x y).1 = x.1) (ha : Increasing as)
    (hb : Increasing bs) (h : (as.map Prod.fst).getLast? = (bs.map Prod.fst).getLast?) :
    ((unionMerge sel as bs).map Prod.fst).getLast? = (bs.map Prod.fst).getLast? := by
  have hka := (increasing_iff as).mp ha
  have hkb := (increasing_iff bs).mp hb
  have hunion := (increasing_iff _).mp (unionMerge_increasing hsel ha hb)
  cases hlast : (bs.map Prod.fst).getLast? with
  | none =>
    rw [hlast] at h
    have hnil := List.map_eq_nil_iff.mp (List.getLast?_eq_none_iff.mp h)
    rw [hnil, unionMerge_nil_left, hlast]
  | some l =>
    rw [hlast] at h
    have hmem := List.mem_of_getLast? hlast
    rw [List.getLast?_eq_getElem?] at h hlast ⊢
    refine SortedKeys.getElem?_last_of_le hunion ?_ ?_
    · exact (mem_keys_unionMerge hsel as bs l).mpr (Or.inr hmem)
    · intro k hk
      rcases (mem_keys_unionMerge hsel as bs k).mp hk with hk | hk
      · exact SortedKeys.le_of_last hka h k hk
      · exact SortedKeys.le_of_last hkb hlast k hk

end KeyedRows

namespace Tspp

variable {K V : Type} [LinearOrder K]

/-- Exchanging the lists exchanges the arguments of the selection. -/
theorem interweaveRows_swap (sel : K × V → K × V → K × V) (as bs : List (K × V)) :
    interweaveRows sel as bs = interweaveRows (fun x y => sel y x) bs as := by
  induction as, bs using interweaveRows.induct with
  | case1 => rw [interweaveRows_nil, interweaveRows_nil]
  | case2 b bs => rw [interweaveRows_nil_cons, interweaveRows_cons_nil]
  | case3 a as => rw [interweaveRows_cons_nil, interweaveRows_nil_cons]
  | case4 a as b bs hgt ih => rw [interweaveRows_of_gt hgt, interweaveRows_of_lt hgt, ih]
  | case5 a as b bs hngt hlt ih => rw [interweaveRows_of_lt hlt, interweaveRows_of_gt hlt, ih]
  | case6 a as b bs hngt hnlt ih =>
    have he : a.1 = b.1 := le_antisymm (not_lt.mp hngt) (not_lt.mp hnlt)
    rw [interweaveRows_of_eq he, interweaveRows_of_eq he.symm, ih]

namespace TimeSeries

variable {a b c : TimeSeries K V} {sel : K × V → K × V → K × V}

/-- On increasing keys `interweave` is the union if the last keys agree, and fails otherwise. -/
theorem interweave_eq_union (ha : a.StrictlyIncreasing) (hb : b.StrictlyIncreasing)
    (sel : K × V → K × V → K × V) : interweave a b sel =
      if a.keys.getLast? = b.keys.getLast? then
        .ok (ofRows (KeyedRows.unionMerge sel a.rows b.rows))
      else .error .outOfRange := by
  have hsome : (interweaveRows sel a.rows b.rows).isSome = true ↔ _ :=
    interweaveRows_isSome_iff (a.strictlyIncreasing_iff_rows.mp ha)
      (b.strictlyIncreasing_iff_rows.mp hb)
  rw [map_fst_rows, map_fst_rows] at hsome
  rw [interweave_eq]
  cases h : interweaveRows sel a.rows b.rows with
  | none =>
    rw [h] at hsome
    rw [if_neg fun hlast => Bool.false_ne_true (hsome.mpr hlast)]
  | some out =>
    rw [h] at hsome
    rw [if_pos (hsome.mp rfl), interweaveRows_eq_unionMerge h]

/-- What `interweave` returns is increasing and ends on the common last key. -/
theorem interweave_eq_ok (hsel : ∀ x y, x.1 = y.1 → (sel x y).1 = x.1)
    (ha : a.StrictlyIncreasing) (hb : b.StrictlyIncreasing)
    (hlast : a.keys.getLast? = b.keys.getLast?) :
    ∃ result, interweave a b sel = .ok result ∧ result.StrictlyIncreasing ∧
      result.rows = KeyedRows.unionMerge sel a.rows b.rows ∧
      result.keys.getLast? = b.keys.getLast? := by
  have hra := a.strictlyIncreasing_iff_rows.mp ha
  have hrb := b.strictlyIncreasing_iff_rows.mp hb
  refine ⟨ofRows (KeyedRows.unionMerge sel a.rows b.rows), ?_, ?_, rows_ofRows _, ?_⟩
  · rw [interweave_eq_union ha hb, if_pos hlast]
  · rw [strictlyIncreasing_iff_rows, rows_ofRows]
    exact KeyedRows.unionMerge_increasing hsel hra hrb
  · rw [keys_ofRows,
      KeyedRows.getLast?_unionMerge hsel hra hrb (by rwa [map_fst_rows, map_fst_rows]),
      map_fst_rows]

/-- Exchanging the series exchanges the arguments of the selection, on any two series; and on
increasing keys three series can be interwoven from either side, with the same result or a read
past an end both times. -/
theorem interweave_laws (a b c : TimeSeries K V) (sel : K × V → K × V → K × V)
    (ha : a.StrictlyIncreasing) (hb : b.StrictlyIncreasing) (hc : c.StrictlyIncreasing)
    (hsel : ∀ x y, x.1 = y.1 → (sel x y).1 = x.1)
    (hassoc : ∀ x y z, x.1 = y.1 → y.1 = z.1 → sel (sel x y) z = sel x (sel y z)) :
    (∀ x y : TimeSeries K V, interweave x y sel = interweave y x fun r s => sel s r) ∧
    (interweave a b sel >>= fun ab => interweave ab c sel) =
      (interweave b c sel >>= fun bc => interweave a bc sel) := by
  constructor
  · intro x y
    rw [interweave_eq, interweave_eq, interweaveRows_swap]
  · by_cases hab : a.keys.getLast? = b.keys.getLast?
    · obtain ⟨ab, hok, hinc, hrows, hlast⟩ := interweave_eq_ok hsel ha hb hab
      rw [hok]
      by_cases hbc : b.keys.getLast? = c.keys.getLast?
      · obtain ⟨bc, hok', hinc', hrows', hlast'⟩ := interweave_eq_ok hsel hb hc hbc
        rw [hok']
        refine (interweave_eq_union hinc hc sel).trans
          (Eq.trans ?_ (interweave_eq_union ha hinc' sel).symm)
        rw [if_pos (hlast.trans hbc), if_pos (hab.trans (hbc.trans hlast'.symm)), hrows, hrows',
          KeyedRows.unionMerge_assoc hsel hassoc (a.strictlyIncreasing_iff_rows.mp ha)
            (b.strictlyIncreasing_iff_rows.mp hb) (c.strictlyIncreasing_iff_rows.mp hc)]
      · rw [interweave_eq_union hb hc, if_neg hbc]
        refine (interweave_eq_union hinc hc sel).trans ?_
        rw [if_neg (hlast ▸ hbc)]
        rfl
    · rw [interweave_eq_union ha hb, if_neg hab]
      by_cases hbc : b.keys.getLast? = c.keys.getLast?
      · obtain ⟨bc, hok', hinc', hrows', hlast'⟩ := interweave_eq_ok hsel hb hc hbc
        rw [hok']
        refine Eq.trans ?_ (interweave_eq_union ha hinc' sel).symm
        rw [if_neg (by rwa [hlast', ← hbc])]
        rfl
      · rw [interweave_eq_union hb hc, if_neg hbc]
        rfl

/-- Three series that end on the same key, the later value winning. -/
theorem interweave_laws_common_end :
    (interweave (ofRows [((2 : ℤ), (20 : ℤ)), (4, 40)]) (ofRows [(3, 31), (4, 41)])
        (fun _ s => s) >>= fun bc =>
      interweave (ofRows [((1 : ℤ), (10 : ℤ)), (4, 0)]) bc fun _ s => s) =
      .ok (ofRows [(1, 10), (2, 20), (3, 31), (4, 41)]) :=
  ((interweave_laws (ofRows [((1 : ℤ), (10 : ℤ)), (4, 0)]) (ofRows [(2, 20), (4, 40)])
    (ofRows [(3, 31), (4, 41)]) (fun _ s => s) (by decide) (by decide) (by decide)
    (fun _ _ h => h.symm) (fun _ _ _ _ _ => rfl)).2).symm.trans rfl

end TimeSeries

end Tspp
