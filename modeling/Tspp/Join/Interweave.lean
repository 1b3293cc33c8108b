import Tspp.Join.Cursor
import Tspp.Series.Lookup

/-!
# Interweaving two series

`interweave` should list the rows of both series in key order. Its two exhaustion
branches are swapped: once one side is used up, the loop dereferences that very side.
The run therefore survives only if both sides are used up in the same iteration, which
happens exactly if their last keys agree, and then the result is the ordered union.
-/

namespace Tspp

variable {K V : Type} [LinearOrder K]

namespace TimeSeries

/-- The loop of `interweave`. -/
def interweaveLoop (left other : TimeSeries K V) (selecfn : K × V → K × V → K × V) :
    WhileLoop Fault (JoinState K V) where
  cond s := s.il != left.cend || s.ir != other.cend
  body s := do
    if s.il == left.cend then
      let result := s.result.insertEnd (← s.il.deref left.toContainers)
      return { s with il := ← s.il.incr left.toContainers, result }
    else if s.ir == other.cend then
      let result := s.result.insertEnd (← s.ir.deref other.toContainers)
      return { s with ir := ← s.ir.incr other.toContainers, result }
    else
      let candL ← s.il.deref left.toContainers
      let candR ← s.ir.deref other.toContainers
      if candL.1 > candR.1 then
        let result := s.result.insertEnd candR
        return { s with ir := ← s.ir.incr other.toContainers, result }
      else if candL.1 < candR.1 then
        let result := s.result.insertEnd candL
        return { s with il := ← s.il.incr left.toContainers, result }
      else
        let result := s.result.insertEnd (selecfn candL candR)
        return {
          il := ← s.il.incr left.toContainers
          ir := ← s.ir.incr other.toContainers
          result }

/-- What the ordered union of two series is: increasing keys, the keys of either side, the
row of the only side that holds a key, and the selected row where both hold it. -/
structure IsOrderedUnion (left other : TimeSeries K V) (selecfn : K × V → K × V → K × V)
    (result : TimeSeries K V) : Prop where
  increasing : result.StrictlyIncreasing
  mem_keys : ∀ k, k ∈ result.keys ↔ k ∈ left.keys ∨ k ∈ other.keys
  left_only : ∀ k v, (k, v) ∈ left.rows → k ∉ other.keys → (k, v) ∈ result.rows
  right_only : ∀ k v, (k, v) ∈ other.rows → k ∉ left.keys → (k, v) ∈ result.rows
  both : ∀ k v w, (k, v) ∈ left.rows → (k, w) ∈ other.rows →
    selecfn (k, v) (k, w) ∈ result.rows

end TimeSeries

/-- The rows that the loop emits from two suffixes, `none` where it reads past an end. -/
def interweaveRows (sel : K × V → K × V → K × V) :
    List (K × V) → List (K × V) → Option (List (K × V))
  | [], [] => some []
  | [], _ :: _ => none
  | _ :: _, [] => none
  | a :: as, b :: bs =>
    if b.1 < a.1 then (interweaveRows sel (a :: as) bs).map (b :: ·)
    else if a.1 < b.1 then (interweaveRows sel as (b :: bs)).map (a :: ·)
    else (interweaveRows sel as bs).map (sel a b :: ·)
termination_by as bs => as.length + bs.length

section InterweaveRows

variable {sel : K × V → K × V → K × V} {a b : K × V} {as bs : List (K × V)}

@[simp] theorem interweaveRows_nil (sel : K × V → K × V → K × V) :
    interweaveRows sel [] [] = some [] := by
  rw [interweaveRows]

@[simp] theorem interweaveRows_nil_cons (sel : K × V → K × V → K × V) (b : K × V)
    (bs : List (K × V)) : interweaveRows sel [] (b :: bs) = none := by
  rw [interweaveRows]

@[simp] theorem interweaveRows_cons_nil (sel : K × V → K × V → K × V) (a : K × V)
    (as : List (K × V)) : interweaveRows sel (a :: as) [] = none := by
  rw [interweaveRows]

theorem interweaveRows_of_gt (h : b.1 < a.1) : interweaveRows sel (a :: as) (b :: bs) =
    (interweaveRows sel (a :: as) bs).map (b :: ·) := by
  rw [interweaveRows, if_pos h]

theorem interweaveRows_of_lt (h : a.1 < b.1) : interweaveRows sel (a :: as) (b :: bs) =
    (interweaveRows sel as (b :: bs)).map (a :: ·) := by
  rw [interweaveRows, if_neg (not_lt_of_gt h), if_pos h]

theorem interweaveRows_of_eq (h : a.1 = b.1) : interweaveRows sel (a :: as) (b :: bs) =
    (interweaveRows sel as bs).map (sel a b :: ·) := by
  rw [interweaveRows, if_neg (not_lt_of_ge (le_of_eq h)),
    if_neg (not_lt_of_ge (le_of_eq h.symm))]

/-- Where the loop survives, it emits the union merge. -/
theorem interweaveRows_eq_unionMerge {out : List (K × V)}
    (h : interweaveRows sel as bs = some out) : out = KeyedRows.unionMerge sel as bs := by
  induction as, bs using interweaveRows.induct generalizing out with
  | case1 =>
    rw [interweaveRows_nil] at h
    cases h
    simp
  | case2 b bs => simp at h
  | case3 a as => simp at h
  | case4 a as b bs hgt ih =>
    rw [interweaveRows_of_gt hgt] at h
    obtain ⟨rest, hrest, rfl⟩ := Option.map_eq_some_iff.mp h
    rw [KeyedRows.unionMerge_of_gt hgt, ih hrest]
  | case5 a as b bs hngt hlt ih =>
    rw [interweaveRows_of_lt hlt] at h
    obtain ⟨rest, hrest, rfl⟩ := Option.map_eq_some_iff.mp h
    rw [KeyedRows.unionMerge_of_lt hlt, ih hrest]
  | case6 a as b bs hngt hnlt ih =>
    have he : a.1 = b.1 := le_antisymm (not_lt.mp hngt) (not_lt.mp hnlt)
    rw [interweaveRows_of_eq he] at h
    obtain ⟨rest, hrest, rfl⟩ := Option.map_eq_some_iff.mp h
    rw [KeyedRows.unionMerge_of_eq he, ih hrest]

/-- A key below every key of a nonempty list has no part in comparing the last keys. -/
theorem getLast?_cons_eq_iff {k : K} (ks : List K) {ls : List K} (hls : ls ≠ [])
    (h : ∀ l ∈ ls, k < l) :
    (k :: ks).getLast? = ls.getLast? ↔ ks.getLast? = ls.getLast? := by
  cases ks with
  | nil =>
    have hlast := List.getLast?_eq_some_getLast hls
    rw [hlast]
    have hlt := h _ (List.getLast_mem hls)
    simp [hlt.ne]
  | cons k' ks => rw [List.getLast?_cons_cons]

/-- The loop survives exactly if the last keys of both sides agree. -/
theorem interweaveRows_isSome_iff (ha : KeyedRows.Increasing as) (hb : KeyedRows.Increasing bs) :
    (interweaveRows sel as bs).isSome = true ↔
      (as.map Prod.fst).getLast? = (bs.map Prod.fst).getLast? := by
  induction as, bs using interweaveRows.induct with
  | case1 => simp
  | case2 b bs => simp [List.getLast?_cons]
  | case3 a as => simp [List.getLast?_cons]
  | case4 a as b bs hgt ih =>
    rw [interweaveRows_of_gt hgt, Option.isSome_map, ih ha hb.tail, eq_comm]
    have hlast := getLast?_cons_eq_iff (bs.map Prod.fst) (List.cons_ne_nil _ _)
      (ha.nonDecreasing.lt_key_of_lt_head hgt)
    exact hlast.symm.trans eq_comm
  | case5 a as b bs hngt hlt ih =>
    rw [interweaveRows_of_lt hlt, Option.isSome_map, ih ha.tail hb]
    exact (getLast?_cons_eq_iff _ (List.cons_ne_nil _ _)
      (hb.nonDecreasing.lt_key_of_lt_head hlt)).symm
  | case6 a as b bs hngt hnlt ih =>
    have he : a.1 = b.1 := le_antisymm (not_lt.mp hngt) (not_lt.mp hnlt)
    rw [interweaveRows_of_eq he, Option.isSome_map, ih ha.tail hb.tail, List.map_cons,
      List.map_cons]
    cases has : as.map Prod.fst with
    | nil =>
      cases hbs : bs.map Prod.fst with
      | nil => simp [he]
      | cons k ks =>
        have hall : ∀ l ∈ k :: ks, a.1 < l := by
          rw [he, ← hbs]
          exact hb.head_lt_key
        rw [List.getLast?_cons_cons, getLast?_cons_eq_iff _ (List.cons_ne_nil _ _) hall]
    | cons k ks =>
      have hall : ∀ l ∈ k :: ks, b.1 < l := by
        rw [← he, ← has]
        exact ha.head_lt_key
      rw [List.getLast?_cons_cons, eq_comm (a := (k :: ks).getLast?) (b := (b.1 :: _).getLast?),
        getLast?_cons_eq_iff _ (List.cons_ne_nil _ _) hall, eq_comm]

end InterweaveRows

namespace TimeSeries

section Run

variable {left other : TimeSeries K V} {sel : K × V → K × V → K × V}

theorem interweaveLoop_cond (left other : TimeSeries K V) (sel : K × V → K × V → K × V)
    (i j : ℕ) (res : TimeSeries K V) :
    (interweaveLoop left other sel).cond (.atRows i j res) = true ↔
      i ≠ left.size ∨ j ≠ other.size := by
  simp [interweaveLoop, JoinState.atRows, cend_eq]

/-- Once the left side is used up, the loop dereferences it. -/
theorem interweaveLoop_body_left_end (sel : K × V → K × V → K × V) (j : ℕ)
    (res : TimeSeries K V) :
    (interweaveLoop left other sel).body (.atRows left.size j res) = .error .outOfRange := by
  simp only [interweaveLoop, JoinState.atRows, cend_eq, beq_self_eq_true, ite_true,
    deref_row_of_le (Nat.le_refl _), bind, Except.bind]

/-- Once the right side is used up, the loop dereferences it. -/
theorem interweaveLoop_body_right_end (sel : K × V → K × V → K × V) {i : ℕ}
    (hi : i ≠ left.size) (res : TimeSeries K V) :
    (interweaveLoop left other sel).body (.atRows i other.size res) = .error .outOfRange := by
  simp only [interweaveLoop, JoinState.atRows, cend_eq, ite_true,
    beq_iff_eq, IteratorPair.row_inj, hi, ite_false, deref_row_of_le (Nat.le_refl _), bind,
    Except.bind]

/-- One iteration at two existing rows. -/
theorem interweaveLoop_body (sel : K × V → K × V → K × V) {i j : ℕ} {l r : K × V}
    (res : TimeSeries K V) (hl : left.rows[i]? = some l) (hr : other.rows[j]? = some r) :
    (interweaveLoop left other sel).body (.atRows i j res) = .ok
      (if l.1 > r.1 then .atRows i (j + 1) (res.insertEnd r)
      else if l.1 < r.1 then .atRows (i + 1) j (res.insertEnd l)
      else .atRows (i + 1) (j + 1) (res.insertEnd (sel l r))) := by
  have hi := lt_size_of_row hl
  have hj := lt_size_of_row hr
  simp only [interweaveLoop, JoinState.atRows, cend_eq, beq_iff_eq, IteratorPair.row_inj,
    hi.ne, hj.ne, ite_false, deref_row hl, deref_row hr, incr_row hi, incr_row hj, bind,
    Except.bind, pure, Except.pure]
  split
  · rfl
  · split <;> rfl

/-- The loop emits the rows of `interweaveRows`. -/
theorem interweaveLoop_emitsRest (left other : TimeSeries K V)
    (sel : K × V → K × V → K × V) :
    EmitsRest (interweaveLoop left other sel) left other (interweaveRows sel) := by
  constructor
  · intro i j res hi hj hc
    have hend : ¬ (i ≠ left.size ∨ j ≠ other.size) := by
      rw [← interweaveLoop_cond left other sel i j res, hc]
      exact Bool.false_ne_true
    rw [drop_size_rows (by omega), drop_size_rows (by omega), interweaveRows_nil]
  · intro i j res hi hj hc
    rw [interweaveLoop_cond] at hc
    by_cases hil : i = left.size
    · left
      obtain ⟨b, w, hr⟩ := exists_row (show j < other.size by omega)
      rw [hil, drop_size_rows (Nat.le_refl _), drop_rows hr, interweaveRows_nil_cons]
      exact ⟨interweaveLoop_body_left_end sel j res, rfl⟩
    obtain ⟨a, v, hl⟩ := exists_row (show i < left.size by omega)
    by_cases hjr : j = other.size
    · left
      rw [hjr, drop_size_rows (Nat.le_refl _), drop_rows hl, interweaveRows_cons_nil]
      exact ⟨interweaveLoop_body_right_end sel hil res, rfl⟩
    right
    obtain ⟨b, w, hr⟩ := exists_row (show j < other.size by omega)
    have hbody := interweaveLoop_body sel res hl hr
    rw [drop_rows hl, drop_rows hr]
    rcases lt_trichotomy a b with hlt | he | hgt
    · simp only [hlt, not_lt_of_gt hlt, ite_true, ite_false] at hbody
      refine ⟨i + 1, j, _, hbody, by omega, hj, by omega, ?_⟩
      rw [interweaveRows_of_lt hlt, drop_rows hr, map_append_insertEnd]
    · simp only [he, lt_irrefl, ite_false] at hbody
      refine ⟨i + 1, j + 1, _, hbody, by omega, by omega, by omega, ?_⟩
      rw [interweaveRows_of_eq he, map_append_insertEnd]
      subst he
      rfl
    · simp only [hgt, ite_true] at hbody
      refine ⟨i, j + 1, _, hbody, hi, by omega, by omega, ?_⟩
      rw [interweaveRows_of_gt hgt, drop_rows hl, map_append_insertEnd]

/-- The union merge of two increasing series is their ordered union. -/
theorem isOrderedUnion_of_rows (hl : left.StrictlyIncreasing) (hr : other.StrictlyIncreasing)
    (hsel : ∀ x y, x.1 = y.1 → (sel x y).1 = x.1) {result : TimeSeries K V}
    (h : result.rows = KeyedRows.unionMerge sel left.rows other.rows) :
    IsOrderedUnion left other sel result := by
  have hla := left.strictlyIncreasing_iff_rows.mp hl
  have hrb := other.strictlyIncreasing_iff_rows.mp hr
  refine ⟨?_, ?_, ?_, ?_, ?_⟩
  · rw [strictlyIncreasing_iff_rows, h]
    exact KeyedRows.unionMerge_increasing hsel hla hrb
  · intro k
    rw [← map_fst_rows, h, KeyedRows.mem_keys_unionMerge hsel, map_fst_rows, map_fst_rows]
  · intro k v hv hk
    rw [h]
    exact KeyedRows.mem_unionMerge_left hv (by rwa [map_fst_rows])
  · intro k v hv hk
    rw [h]
    exact KeyedRows.mem_unionMerge_right hv (by rwa [map_fst_rows])
  · intro k v w hv hw
    rw [h]
    exact KeyedRows.mem_unionMerge_both hla hrb hv hw rfl

end Run

/-- Interweaving ends inside both series, with their ordered union, exactly if the last keys
of the two series agree (both series being empty included). -/
theorem interweave_isOrderedUnion_iff (a b : TimeSeries K V) (selecfn : K × V → K × V → K × V)
    (ha : a.StrictlyIncreasing) (hb : b.StrictlyIncreasing)
    (hsel : ∀ x y, x.1 = y.1 → (selecfn x y).1 = x.1) :
    (∃ t, (interweaveLoop a b selecfn).Returns (.start a b) t ∧
      IsOrderedUnion a b selecfn t.result) ↔ a.keys.getLast? = b.keys.getLast? := by
  have hemits := interweaveLoop_emitsRest a b selecfn
  rw [← map_fst_rows a, ← map_fst_rows b, ← interweaveRows_isSome_iff
    (a.strictlyIncreasing_iff_rows.mp ha) (b.strictlyIncreasing_iff_rows.mp hb)]
  constructor
  · rintro ⟨t, ht, _⟩
    rw [hemits.rows_of_returns ht]
    rfl
  · intro hsome
    obtain ⟨out, hout⟩ := Option.isSome_iff_exists.mp hsome
    obtain ⟨t, ht, hrows⟩ := hemits.returns_of_rows hout
    refine ⟨t, ht, isOrderedUnion_of_rows ha hb hsel ?_⟩
    rw [hrows]
    exact interweaveRows_eq_unionMerge hout

/-- Two series that end on the same key are interwoven correctly. -/
theorem interweave_isOrderedUnion_common_end :
    ∃ t, (interweaveLoop (ofRows [((1 : ℤ), 10), (3, 30)]) (ofRows [((2 : ℤ), 20), (3, 31)])
        (fun x _ => x)).Returns
        (.start (ofRows [((1 : ℤ), 10), (3, 30)]) (ofRows [((2 : ℤ), 20), (3, 31)])) t ∧
      IsOrderedUnion (ofRows [((1 : ℤ), (10 : ℤ)), (3, 30)]) (ofRows [((2 : ℤ), 20), (3, 31)])
        (fun x _ => x) t.result :=
  (interweave_isOrderedUnion_iff (ofRows [((1 : ℤ), 10), (3, 30)])
    (ofRows [((2 : ℤ), 20), (3, 31)]) (fun x _ => x) (by decide) (by decide)
    (fun _ _ _ => rfl)).mpr rfl

/-- A left series that ends first is dereferenced past its end. -/
theorem interweave_reads_past_end :
    (ofRows [((1 : ℤ), (10 : ℤ))]).StrictlyIncreasing ∧
      (ofRows [((2 : ℤ), (20 : ℤ))]).StrictlyIncreasing ∧
      (interweaveLoop (ofRows [((1 : ℤ), (10 : ℤ))]) (ofRows [((2 : ℤ), 20)])
        (fun x _ => x)).Faults
        (.start (ofRows [((1 : ℤ), (10 : ℤ))]) (ofRows [((2 : ℤ), (20 : ℤ))])) .outOfRange ∧
      ¬ ∃ t, (interweaveLoop (ofRows [((1 : ℤ), (10 : ℤ))]) (ofRows [((2 : ℤ), 20)])
        (fun x _ => x)).Returns
        (.start (ofRows [((1 : ℤ), (10 : ℤ))]) (ofRows [((2 : ℤ), (20 : ℤ))])) t := by
  have hfault : (interweaveLoop (ofRows [((1 : ℤ), (10 : ℤ))]) (ofRows [((2 : ℤ), 20)])
      (fun x _ => x)).Faults
      (.start (ofRows [((1 : ℤ), (10 : ℤ))]) (ofRows [((2 : ℤ), (20 : ℤ))])) .outOfRange :=
    ⟨2, rfl⟩
  exact ⟨by decide, by decide, hfault, fun ⟨t, ht⟩ => ht.not_faults _ hfault⟩

end TimeSeries

end Tspp
