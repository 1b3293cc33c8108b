import Tspp.Core.KeyedRows
import Mathlib.Data.List.Zip

/-!
# Laws of the inner merge

An ordered list of rows is determined by the values that each key carries, and the merge
acts on these values key by key. So equations between merges of ordered lists are
equations between pairings of value lists. Symmetry needs no order: the two walks take
mirrored steps.
-/

universe u v w x y z

namespace KeyedRows

variable {K : Type u} {V : Type v} {W : Type w} {O : Type x} [LinearOrder K]

/-- The first key of an ordered list is the least key that carries a value. -/
theorem NonDecreasing.head_le_of_valuesAt_ne_nil {r : K × V} {rows : List (K × V)} {k : K}
    (h : NonDecreasing (r :: rows)) (hk : valuesAt k (r :: rows) ≠ []) : r.1 ≤ k := by
  by_contra hlt
  apply hk
  apply valuesAt_eq_nil
  intro s hs
  exact (h.lt_of_lt_head (not_le.mp hlt) s hs).ne'

/-- An ordered list is determined by the values under each key. -/
theorem NonDecreasing.ext_valuesAt {as bs : List (K × V)} (ha : NonDecreasing as)
    (hb : NonDecreasing bs) (h : ∀ k, valuesAt k as = valuesAt k bs) : as = bs := by
  induction as generalizing bs with
  | nil =>
    cases bs with
    | nil => rfl
    | cons b bs =>
      have hval := h b.1
      rw [valuesAt_nil, valuesAt_cons_self] at hval
      cases hval
  | cons a as ih =>
    have hself : valuesAt a.1 (a :: as) ≠ [] := by
      rw [valuesAt_cons_self]
      exact List.cons_ne_nil _ _
    cases bs with
    | nil => exact absurd (h a.1) hself
    | cons b bs =>
      have hself' : valuesAt b.1 (b :: bs) ≠ [] := by
        rw [valuesAt_cons_self]
        exact List.cons_ne_nil _ _
      have hle : b.1 ≤ a.1 := hb.head_le_of_valuesAt_ne_nil (by rwa [← h])
      have hge : a.1 ≤ b.1 := ha.head_le_of_valuesAt_ne_nil (by rwa [h])
      obtain ⟨k, v⟩ := a
      obtain ⟨k', w⟩ := b
      obtain rfl : k = k' := le_antisymm hge hle
      have hvals := h k
      rw [valuesAt_cons_self, valuesAt_cons_self] at hvals
      obtain ⟨rfl, hrest⟩ := List.cons.inj hvals
      have htail : as = bs := by
        apply ih ha.tail hb.tail
        intro l
        by_cases hl : k = l
        · rw [← hl, hrest]
        · have hval := h l
          rwa [valuesAt_cons_of_ne hl, valuesAt_cons_of_ne hl] at hval
      rw [htail]

/-- Filtering by key keeps the values of the keys that pass. -/
theorem valuesAt_filter (p : K → Bool) (k : K) (rows : List (K × V)) :
    valuesAt k (rows.filter fun r => p r.1) = if p k then valuesAt k rows else [] := by
  induction rows with
  | nil => simp
  | cons r rows ih =>
    obtain ⟨a, v⟩ := r
    rw [List.filter_cons]
    by_cases hk : a = k
    · subst hk
      by_cases hp : p a = true
      · simp only [hp, if_true] at ih ⊢
        rw [valuesAt_cons_self, valuesAt_cons_self, ih]
      · simp only [hp, Bool.false_eq_true, if_false] at ih ⊢
        exact ih
    · rw [valuesAt_cons_of_ne hk, ← ih]
      split
      · rw [valuesAt_cons_of_ne hk]
      · rfl

theorem NonDecreasing.filter {rows : List (K × V)} (h : NonDecreasing rows) (p : K × V → Bool) :
    NonDecreasing (rows.filter p) :=
  List.Pairwise.sublist List.filter_sublist h

section Ordered

variable {as : List (K × V)} {bs : List (K × W)}

/-- Merging three ordered lists in either order combines the same values. -/
theorem innerMerge_assoc {X : Type y} {A : Type z} {B : Type z} {cs : List (K × X)}
    (ha : NonDecreasing as) (hb : NonDecreasing bs) (hc : NonDecreasing cs)
    {g : V → W → A} {f : A → X → O} {g' : W → X → B} {f' : V → B → O}
    (h : ∀ v w x, f (g v w) x = f' v (g' w x)) :
    innerMerge f (innerMerge g as bs) cs = innerMerge f' as (innerMerge g' bs cs) := by
  have hab := innerMerge_nonDecreasing g bs ha
  have hbc := innerMerge_nonDecreasing g' cs hb
  apply (innerMerge_nonDecreasing f cs hab).ext_valuesAt (innerMerge_nonDecreasing f' _ ha)
  intro k
  rw [valuesAt_innerMerge f hab hc, valuesAt_innerMerge g ha hb, valuesAt_innerMerge f' ha hbc,
    valuesAt_innerMerge g' hb hc, List.zipWith_zipWith_left, List.zipWith_zipWith_right]
  simp only [h]

/-- A filter by key may be applied before the merge. -/
theorem filter_innerMerge (f : V → W → O) (ha : NonDecreasing as) (hb : NonDecreasing bs)
    (p : K → Bool) : (innerMerge f as bs).filter (fun r => p r.1) =
      innerMerge f (as.filter fun r => p r.1) (bs.filter fun r => p r.1) := by
  have hfa := ha.filter fun r => p r.1
  have hfb := hb.filter fun r => p r.1
  apply ((innerMerge_nonDecreasing f bs ha).filter _).ext_valuesAt
    (innerMerge_nonDecreasing f _ hfa)
  intro k
  rw [valuesAt_filter, valuesAt_innerMerge f ha hb, valuesAt_innerMerge f hfa hfb,
    valuesAt_filter, valuesAt_filter]
  split
  · rfl
  · rw [List.zipWith_nil_left]

/-- A list of keys that are all larger than the only key of the other has no match. -/
theorem innerMerge_eq_nil_of_gt (f : V → W → O) {b : K × W} (h : ∀ r ∈ as, b.1 < r.1) :
    innerMerge f as [b] = [] := by
  cases as with
  | nil => rw [innerMerge_nil_left]
  | cons a as => rw [innerMerge_of_gt (h a List.mem_cons_self), innerMerge_nil_right]

end Ordered

section Unordered

/-- Merging the other way round combines the same values. -/
theorem innerMerge_swap (f : V → W → O) (as : List (K × V)) (bs : List (K × W)) :
    innerMerge (fun w v => f v w) bs as = innerMerge f as bs := by
  induction as, bs using innerMerge.induct with
  | case1 bs => rw [innerMerge_nil_left, innerMerge_nil_right]
  | case2 a as => rw [innerMerge_nil_left, innerMerge_nil_right]
  | case3 a v as b w bs h ih => rw [innerMerge_of_lt h, innerMerge_of_gt h, ih]
  | case4 a v as b w bs h h' ih => rw [innerMerge_of_gt h', innerMerge_of_lt h', ih]
  | case5 a v as b w bs h h' ih =>
    obtain rfl : a = b := le_antisymm (not_lt.mp h') (not_lt.mp h)
    rw [innerMerge_of_eq, innerMerge_of_eq, ih]

/-- Rows whose keys are all smaller than those of the other list are passed without a match. -/
theorem innerMerge_append_of_lt (f : V → W → O) {pre as : List (K × V)} {bs : List (K × W)}
    (h : ∀ r ∈ pre, ∀ b ∈ bs, r.1 < b.1) : innerMerge f (pre ++ as) bs = innerMerge f as bs := by
  cases bs with
  | nil => rw [innerMerge_nil_right, innerMerge_nil_right]
  | cons b bs =>
    induction pre with
    | nil => rfl
    | cons r pre ih =>
      rw [List.cons_append, innerMerge_of_lt (h r List.mem_cons_self b List.mem_cons_self)]
      exact ih fun r' hr' => h r' (List.mem_cons_of_mem r hr')

/-- Over the same keys on both sides every row matches the row at its position. -/
theorem innerMerge_zip (f : V → W → O) (ks : List K) (vs : List V) (ws : List W) :
    innerMerge f (ks.zip vs) (ks.zip ws) = ks.zip (List.zipWith f vs ws) := by
  induction ks generalizing vs ws with
  | nil => rw [List.zip_nil_left, List.zip_nil_left, List.zip_nil_left, innerMerge_nil_left]
  | cons k ks ih =>
    cases vs with
    | nil => rw [List.zip_nil_right, innerMerge_nil_left, List.zipWith_nil_left, List.zip_nil_right]
    | cons v vs =>
      cases ws with
      | nil =>
        rw [List.zip_nil_right, innerMerge_nil_right, List.zipWith_nil_right, List.zip_nil_right]
      | cons w ws =>
        rw [List.zip_cons_cons, List.zip_cons_cons, innerMerge_of_eq, ih, List.zipWith_cons_cons,
          List.zip_cons_cons]

/-- `r` combines the rows of the two lists at the positions `p`, which hold one key. -/
def Combines (f : V → W → O) (as : List (K × V)) (bs : List (K × W)) (p : ℕ × ℕ) (r : K × O) :
    Prop :=
  ∃ k v w, as[p.1]? = some (k, v) ∧ bs[p.2]? = some (k, w) ∧ r = (k, f v w)

/-- Every row of the merge combines a row of each list, at positions that increase in both. -/
theorem exists_positions_innerMerge (f : V → W → O) (as : List (K × V)) (bs : List (K × W)) :
    ∃ ps : List (ℕ × ℕ), ps.Pairwise (fun p q => p.1 < q.1 ∧ p.2 < q.2) ∧
      List.Forall₂ (Combines f as bs) ps (innerMerge f as bs) := by
  induction as, bs using innerMerge.induct with
  | case1 bs => exact ⟨[], List.Pairwise.nil, by rw [innerMerge_nil_left]; exact .nil⟩
  | case2 a as => exact ⟨[], List.Pairwise.nil, by rw [innerMerge_nil_right]; exact .nil⟩
  | case3 a v as b w bs h ih =>
    obtain ⟨ps, hinc, hps⟩ := ih
    refine ⟨ps.map fun p => (p.1 + 1, p.2), ?_, ?_⟩
    · rw [List.pairwise_map]
      exact hinc.imp fun hpq => ⟨Nat.succ_lt_succ hpq.1, hpq.2⟩
    · rw [innerMerge_of_lt h, List.forall₂_map_left_iff]
      exact hps
  | case4 a v as b w bs h h' ih =>
    obtain ⟨ps, hinc, hps⟩ := ih
    refine ⟨ps.map fun p => (p.1, p.2 + 1), ?_, ?_⟩
    · rw [List.pairwise_map]
      exact hinc.imp fun hpq => ⟨hpq.1, Nat.succ_lt_succ hpq.2⟩
    · rw [innerMerge_of_gt h', List.forall₂_map_left_iff]
      exact hps
  | case5 a v as b w bs h h' ih =>
    obtain rfl : a = b := le_antisymm (not_lt.mp h') (not_lt.mp h)
    obtain ⟨ps, hinc, hps⟩ := ih
    refine ⟨(0, 0) :: ps.map fun p => (p.1 + 1, p.2 + 1), ?_, ?_⟩
    · rw [List.pairwise_cons, List.pairwise_map]
      refine ⟨fun q hq => ?_, hinc.imp fun hpq =>
        ⟨Nat.succ_lt_succ hpq.1, Nat.succ_lt_succ hpq.2⟩⟩
      obtain ⟨p, _, rfl⟩ := List.mem_map.mp hq
      exact ⟨Nat.succ_pos _, Nat.succ_pos _⟩
    · rw [innerMerge_of_eq]
      refine List.Forall₂.cons ⟨a, v, w, rfl, rfl, rfl⟩ ?_
      rw [List.forall₂_map_left_iff]
      exact hps

end Unordered

end KeyedRows
