import Mathlib.Data.List.Basic
import Mathlib.Data.List.Pairwise
import Mathlib.Data.List.Sort
import Mathlib.Order.Lattice

/-!
# Keyed rows and their merges

Lists of key-value rows over a linear order of keys. The inner merge walks two lists
at once and keeps the rows with a common key; the union merge keeps every row of
either list. Both are ordinary recursive functions on lists, and the facts about them
are stated key by key: which values a key carries, how often, and in which order.
-/

universe u v w x

namespace KeyedRows

variable {K : Type u} {V : Type v} {W : Type w} {O : Type x}

/-- The keys of the rows increase strictly. -/
def Increasing [LT K] (rows : List (K × V)) : Prop := rows.Pairwise fun a b => a.1 < b.1

/-- The keys of the rows never decrease; repeated keys are allowed. -/
def NonDecreasing [LE K] (rows : List (K × V)) : Prop := rows.Pairwise fun a b => a.1 ≤ b.1

theorem increasing_iff [LT K] (rows : List (K × V)) :
    Increasing rows ↔ (rows.map Prod.fst).Pairwise (· < ·) := by
  rw [Increasing, List.pairwise_map]

theorem nonDecreasing_iff [LE K] (rows : List (K × V)) :
    NonDecreasing rows ↔ (rows.map Prod.fst).Pairwise (· ≤ ·) := by
  rw [NonDecreasing, List.pairwise_map]

theorem Increasing.nonDecreasing [Preorder K] {rows : List (K × V)} (h : Increasing rows) :
    NonDecreasing rows :=
  List.Pairwise.imp (fun hlt => le_of_lt hlt) h

/-- The values stored under one key, in the order of the rows. -/
def valuesAt [DecidableEq K] (k : K) (rows : List (K × V)) : List V :=
  (rows.filter fun r => r.1 = k).map Prod.snd

section Values

variable [DecidableEq K]

@[simp] theorem valuesAt_nil (k : K) : valuesAt k ([] : List (K × V)) = [] := rfl

theorem valuesAt_cons_self (k : K) (v : V) (rows : List (K × V)) :
    valuesAt k ((k, v) :: rows) = v :: valuesAt k rows := by
  simp [valuesAt]

theorem valuesAt_cons_of_ne {k a : K} (h : a ≠ k) (v : V) (rows : List (K × V)) :
    valuesAt k ((a, v) :: rows) = valuesAt k rows := by
  simp [valuesAt, h]

/-- A key that no row carries has no values. -/
theorem valuesAt_eq_nil {k : K} {rows : List (K × V)} (h : ∀ r ∈ rows, r.1 ≠ k) :
    valuesAt k rows = [] := by
  simp only [valuesAt, List.map_eq_nil_iff, List.filter_eq_nil_iff, decide_eq_true_eq]
  exact h

end Values

variable [LinearOrder K]

/-- Every key after the first row of an increasing list is larger than the first key. -/
theorem Increasing.head_lt {r : K × V} {rows : List (K × V)} (h : Increasing (r :: rows))
    {s : K × V} (hs : s ∈ rows) : r.1 < s.1 :=
  (List.pairwise_cons.mp h).1 s hs

theorem Increasing.tail {r : K × V} {rows : List (K × V)} (h : Increasing (r :: rows)) :
    Increasing rows :=
  (List.pairwise_cons.mp h).2

theorem NonDecreasing.tail {r : K × V} {rows : List (K × V)} (h : NonDecreasing (r :: rows)) :
    NonDecreasing rows :=
  (List.pairwise_cons.mp h).2

/-- A key smaller than the first key of an ordered list occurs nowhere in it. -/
theorem NonDecreasing.lt_of_lt_head {k : K} {b : K × W} {rows : List (K × W)}
    (h : NonDecreasing (b :: rows)) (hk : k < b.1) : ∀ r ∈ b :: rows, k < r.1 := by
  intro r hr
  rcases List.mem_cons.mp hr with rfl | hr
  · exact hk
  · exact lt_of_lt_of_le hk ((List.pairwise_cons.mp h).1 r hr)

/-- Up to a key there are the first rows of an ordered list, and behind them no more. -/
theorem NonDecreasing.exists_future {rows : List (K × V)} (h : NonDecreasing rows) (k : K) :
    ∃ future, rows = (rows.filter fun r => r.1 ≤ k) ++ future ∧ ∀ r ∈ future, k < r.1 := by
  induction rows with
  | nil => exact ⟨[], rfl, fun r hr => absurd hr List.not_mem_nil⟩
  | cons r rows ih =>
    by_cases hr : r.1 ≤ k
    · obtain ⟨future, hrows, hfuture⟩ := ih h.tail
      refine ⟨future, ?_, hfuture⟩
      rw [List.filter_cons_of_pos (by simpa using hr), List.cons_append, ← hrows]
    · have hall := h.lt_of_lt_head (not_le.mp hr)
      refine ⟨r :: rows, ?_, hall⟩
      rw [List.filter_eq_nil_iff.mpr, List.nil_append]
      intro s hs
      simpa using hall s hs

/-- Where every row gives a row with its key or none, the rows up to a key come from the rows up to
that key. -/
theorem filter_filterMap (f : K × V → Option (K × O)) (hf : ∀ r s, f r = some s → s.1 = r.1)
    (rows : List (K × V)) (k : K) :
    ((rows.filterMap f).filter fun s => s.1 ≤ k) =
      (rows.filter fun r => r.1 ≤ k).filterMap f := by
  induction rows with
  | nil => rfl
  | cons r rows ih =>
    rw [List.filterMap_cons, List.filter_cons]
    cases hr : f r with
    | none =>
      rw [ih]
      split
      · rw [List.filterMap_cons, hr]
      · rfl
    | some s =>
      rw [List.filter_cons, hf r s hr, ih]
      split
      · rw [List.filterMap_cons, hr]
      · rfl

/-- The same bound on the keys alone. -/
theorem NonDecreasing.lt_key_of_lt_head {k : K} {b : K × W} {rows : List (K × W)}
    (h : NonDecreasing (b :: rows)) (hk : k < b.1) :
    ∀ a ∈ (b :: rows).map Prod.fst, k < a := by
  intro a ha
  obtain ⟨r, hr, rfl⟩ := List.mem_map.mp ha
  exact h.lt_of_lt_head hk r hr

/-- The first key of an increasing list is smaller than every later key. -/
theorem Increasing.head_lt_key {a : K × V} {rows : List (K × V)}
    (h : Increasing (a :: rows)) : ∀ k ∈ rows.map Prod.fst, a.1 < k := by
  intro k hk
  obtain ⟨r, hr, rfl⟩ := List.mem_map.mp hk
  exact h.head_lt hr

/-- In an increasing list a key determines its value. -/
theorem Increasing.value_unique {rows : List (K × V)} (h : Increasing rows) {k : K} {v v' : V}
    (hv : (k, v) ∈ rows) (hv' : (k, v') ∈ rows) : v = v' := by
  induction rows with
  | nil => cases hv
  | cons r rows ih =>
    rcases List.mem_cons.mp hv with rfl | hrest <;> rcases List.mem_cons.mp hv' with heq | hrest'
    · exact (congrArg Prod.snd heq).symm
    · have hlt := h.head_lt hrest'
      exact (lt_irrefl k hlt).elim
    · subst heq
      have hlt := h.head_lt hrest
      exact (lt_irrefl k hlt).elim
    · exact ih h.tail hrest hrest'

/-- Where two functions give each row of an increasing list a row with its key or none, they give
the same rows exactly if they agree on every row. -/
theorem Increasing.filterMap_eq_iff {rows : List (K × V)} (h : Increasing rows)
    {f g : K × V → Option (K × O)} (hf : ∀ r s, f r = some s → s.1 = r.1)
    (hg : ∀ r s, g r = some s → s.1 = r.1) :
    rows.filterMap f = rows.filterMap g ↔ ∀ r ∈ rows, f r = g r := by
  have hgives : ∀ {f g : K × V → Option (K × O)}, (∀ r s, f r = some s → s.1 = r.1) →
      (∀ r s, g r = some s → s.1 = r.1) → rows.filterMap f = rows.filterMap g →
      ∀ r ∈ rows, ∀ s, f r = some s → g r = some s := by
    intro f g hf hg heq r hr s hs
    have hmem : s ∈ rows.filterMap g := by
      rw [← heq]
      exact List.mem_filterMap.mpr ⟨r, hr, hs⟩
    obtain ⟨⟨k, v⟩, hr', hs'⟩ := List.mem_filterMap.mp hmem
    obtain rfl : k = r.1 := (hg _ s hs').symm.trans (hf r s hs)
    obtain rfl := h.value_unique hr hr'
    exact hs'
  constructor
  · intro heq r hr
    ext s
    exact ⟨hgives hf hg heq r hr s, hgives hg hf heq.symm r hr s⟩
  · exact List.filterMap_congr

/-- Increasing lists with the same rows are equal. -/
theorem Increasing.ext_mem {as bs : List (K × V)} (ha : Increasing as) (hb : Increasing bs)
    (h : ∀ r, r ∈ as ↔ r ∈ bs) : as = bs := by
  have hirrefl : Std.Irrefl fun a b : K × V => a.1 < b.1 := ⟨fun a => lt_irrefl a.1⟩
  have hantisymm : Std.Antisymm fun a b : K × V => a.1 < b.1 :=
    ⟨fun _ _ hab hba => absurd hba (lt_asymm hab)⟩
  exact List.Pairwise.eq_of_mem_iff ha hb h

/-- Looking a key up in an increasing list finds exactly the row stored under it. -/
theorem Increasing.lookup_eq_some {rows : List (K × V)} (h : Increasing rows) (k : K) (v : V) :
    rows.lookup k = some v ↔ (k, v) ∈ rows := by
  induction rows with
  | nil => simp
  | cons r rows ih =>
    obtain ⟨a, b⟩ := r
    rw [List.lookup_cons]
    by_cases hk : k = a
    · subst hk
      simp only [beq_self_eq_true, Option.some.injEq, List.mem_cons, Prod.mk.injEq, true_and]
      constructor
      · exact fun he => Or.inl he.symm
      · rintro (he | hmem)
        · exact he.symm
        · exact absurd (h.head_lt hmem) (lt_irrefl k)
    · have hb : (k == a) = false := by simp [hk]
      simp [hb, hk, ih h.tail]

/-- A key up to `d` is looked up in the rows up to `d`. -/
theorem Increasing.lookup_filter {rows : List (K × V)} (h : Increasing rows) {k d : K}
    (hk : k ≤ d) : (rows.filter fun r => r.1 ≤ d).lookup k = rows.lookup k := by
  apply Option.ext
  intro v
  rw [Increasing.lookup_eq_some (h.sublist List.filter_sublist), h.lookup_eq_some, List.mem_filter]
  exact and_iff_left (decide_eq_true hk)

/-- Walk two lists together and combine the rows whose keys meet. -/
def innerMerge (f : V → W → O) : List (K × V) → List (K × W) → List (K × O)
  | [], _ => []
  | _ :: _, [] => []
  | (a, v) :: as, (b, w) :: bs =>
    if a < b then innerMerge f as ((b, w) :: bs)
    else if b < a then innerMerge f ((a, v) :: as) bs
    else (a, f v w) :: innerMerge f as bs
termination_by as bs => as.length + bs.length

section InnerMerge

variable {f : V → W → O} {a b : K} {v : V} {w : W} {as : List (K × V)} {bs : List (K × W)}

@[simp] theorem innerMerge_nil_left (f : V → W → O) (bs : List (K × W)) :
    innerMerge f ([] : List (K × V)) bs = [] := by
  rw [innerMerge]

@[simp] theorem innerMerge_nil_right (f : V → W → O) (as : List (K × V)) :
    innerMerge f as ([] : List (K × W)) = [] := by
  cases as <;> rw [innerMerge]

theorem innerMerge_of_lt (h : a < b) : innerMerge f ((a, v) :: as) ((b, w) :: bs) =
    innerMerge f as ((b, w) :: bs) := by
  rw [innerMerge, if_pos h]

theorem innerMerge_of_gt (h : b < a) : innerMerge f ((a, v) :: as) ((b, w) :: bs) =
    innerMerge f ((a, v) :: as) bs := by
  rw [innerMerge, if_neg (not_lt_of_gt h), if_pos h]

theorem innerMerge_of_eq : innerMerge f ((a, v) :: as) ((a, w) :: bs) =
    (a, f v w) :: innerMerge f as bs := by
  rw [innerMerge, if_neg (lt_irrefl a), if_neg (lt_irrefl a)]

/-- The keys of the merge are some of the left keys, in the left order. -/
theorem keys_innerMerge_sublist (f : V → W → O) (as : List (K × V)) (bs : List (K × W)) :
    ((innerMerge f as bs).map Prod.fst).Sublist (as.map Prod.fst) := by
  induction as, bs using innerMerge.induct with
  | case1 bs => simp
  | case2 a as => simp
  | case3 a v as b w bs h ih =>
    rw [innerMerge_of_lt h]
    exact ih.trans (List.sublist_cons_self _ _)
  | case4 a v as b w bs h h' ih =>
    rw [innerMerge_of_gt h']
    exact ih
  | case5 a v as b w bs h h' ih =>
    obtain rfl : a = b := le_antisymm (not_lt.mp h') (not_lt.mp h)
    rw [innerMerge_of_eq]
    exact ih.cons_cons a

/-- The inner merge has no more rows than either list. -/
theorem length_innerMerge_le (f : V → W → O) (as : List (K × V)) (bs : List (K × W)) :
    (innerMerge f as bs).length ≤ as.length ∧ (innerMerge f as bs).length ≤ bs.length := by
  induction as, bs using innerMerge.induct with
  | case1 bs => simp
  | case2 a as => simp
  | case3 a v as b w bs h ih =>
    rw [innerMerge_of_lt h]
    exact ⟨Nat.le_succ_of_le ih.1, ih.2⟩
  | case4 a v as b w bs h h' ih =>
    rw [innerMerge_of_gt h']
    exact ⟨ih.1, Nat.le_succ_of_le ih.2⟩
  | case5 a v as b w bs h h' ih =>
    obtain rfl : a = b := le_antisymm (not_lt.mp h') (not_lt.mp h)
    rw [innerMerge_of_eq]
    exact ⟨Nat.succ_le_succ ih.1, Nat.succ_le_succ ih.2⟩

/-- Under each key the merge pairs the values of both lists off in order, so a key that
occurs `p` and `q` times gives `min p q` rows. -/
theorem valuesAt_innerMerge (f : V → W → O) {as : List (K × V)} {bs : List (K × W)}
    (ha : NonDecreasing as) (hb : NonDecreasing bs) (k : K) :
    valuesAt k (innerMerge f as bs) = List.zipWith f (valuesAt k as) (valuesAt k bs) := by
  induction as, bs using innerMerge.induct with
  | case1 bs => simp
  | case2 a as => simp
  | case3 a v as b w bs h ih =>
    rw [innerMerge_of_lt h, ih ha.tail hb]
    by_cases hk : a = k
    · subst hk
      have hnone : valuesAt a ((b, w) :: bs) = [] :=
        valuesAt_eq_nil fun r hr => (hb.lt_of_lt_head h r hr).ne'
      rw [hnone, List.zipWith_nil_right, List.zipWith_nil_right]
    · rw [valuesAt_cons_of_ne hk]
  | case4 a v as b w bs h h' ih =>
    rw [innerMerge_of_gt h', ih ha hb.tail]
    by_cases hk : b = k
    · subst hk
      have hnone : valuesAt b ((a, v) :: as) = [] :=
        valuesAt_eq_nil fun r hr => (ha.lt_of_lt_head h' r hr).ne'
      rw [hnone, List.zipWith_nil_left, List.zipWith_nil_left]
    · rw [valuesAt_cons_of_ne hk]
  | case5 a v as b w bs h h' ih =>
    obtain rfl : a = b := le_antisymm (not_lt.mp h') (not_lt.mp h)
    have htail := ih ha.tail hb.tail
    rw [innerMerge_of_eq]
    by_cases hk : a = k
    · subst hk
      rw [valuesAt_cons_self, valuesAt_cons_self, valuesAt_cons_self, List.zipWith_cons_cons,
        htail]
    · rw [valuesAt_cons_of_ne hk, valuesAt_cons_of_ne hk, valuesAt_cons_of_ne hk, htail]

theorem innerMerge_nonDecreasing (f : V → W → O) {as : List (K × V)} (bs : List (K × W))
    (ha : NonDecreasing as) : NonDecreasing (innerMerge f as bs) := by
  rw [nonDecreasing_iff] at ha ⊢
  exact ha.sublist (keys_innerMerge_sublist f as bs)

/-- A key larger than the first key of a list is looked up in the rest. -/
theorem lookup_cons_of_lt {k : K} (h : b < k) : ((b, w) :: bs).lookup k = bs.lookup k := by
  have hne : (k == b) = false := by simp [h.ne']
  rw [List.lookup_cons, hne]

/-- A key smaller than every key of an ordered list is not found in it. -/
theorem NonDecreasing.lookup_eq_none {k : K} (hb : NonDecreasing ((b, w) :: bs)) (h : k < b) :
    ((b, w) :: bs).lookup k = none := by
  rw [List.lookup_eq_none_iff]
  intro r hr
  have hne : k ≠ r.1 := (hb.lt_of_lt_head h r hr).ne
  simpa using hne

/-- On increasing lists the merge looks every left key up on the right. -/
theorem innerMerge_eq_filterMap (f : V → W → O) {as : List (K × V)} {bs : List (K × W)}
    (ha : Increasing as) (hb : Increasing bs) :
    innerMerge f as bs = as.filterMap fun r => (bs.lookup r.1).map fun w => (r.1, f r.2 w) := by
  induction as, bs using innerMerge.induct with
  | case1 bs => simp
  | case2 a as => simp
  | case3 a v as b w bs h ih =>
    rw [innerMerge_of_lt h, ih ha.tail hb, List.filterMap_cons,
      hb.nonDecreasing.lookup_eq_none h]
    rfl
  | case4 a v as b w bs h h' ih =>
    rw [innerMerge_of_gt h', ih ha hb.tail]
    apply List.filterMap_congr
    intro r hr
    rw [lookup_cons_of_lt (ha.nonDecreasing.lt_of_lt_head h' r hr)]
  | case5 a v as b w bs h h' ih =>
    obtain rfl : a = b := le_antisymm (not_lt.mp h') (not_lt.mp h)
    rw [innerMerge_of_eq, ih ha.tail hb.tail, List.filterMap_cons, List.lookup_cons,
      beq_self_eq_true]
    simp only [Option.map_some]
    congr 1
    apply List.filterMap_congr
    intro r hr
    rw [lookup_cons_of_lt (ha.head_lt hr)]

end InnerMerge

/-- Walk two lists together, keep every row, and let `sel` choose where keys meet. -/
def unionMerge (sel : K × V → K × V → K × V) : List (K × V) → List (K × V) → List (K × V)
  | [], bs => bs
  | a :: as, [] => a :: as
  | a :: as, b :: bs =>
    if a.1 < b.1 then a :: unionMerge sel as (b :: bs)
    else if b.1 < a.1 then b :: unionMerge sel (a :: as) bs
    else sel a b :: unionMerge sel as bs
termination_by as bs => as.length + bs.length

section UnionMerge

variable {sel : K × V → K × V → K × V} {a b : K × V} {as bs : List (K × V)}

@[simp] theorem unionMerge_nil_left (sel : K × V → K × V → K × V) (bs : List (K × V)) :
    unionMerge sel [] bs = bs := by
  rw [unionMerge]

@[simp] theorem unionMerge_nil_right (sel : K × V → K × V → K × V) (as : List (K × V)) :
    unionMerge sel as [] = as := by
  cases as <;> rw [unionMerge]

theorem unionMerge_of_lt (h : a.1 < b.1) : unionMerge sel (a :: as) (b :: bs) =
    a :: unionMerge sel as (b :: bs) := by
  rw [unionMerge, if_pos h]

theorem unionMerge_of_gt (h : b.1 < a.1) : unionMerge sel (a :: as) (b :: bs) =
    b :: unionMerge sel (a :: as) bs := by
  rw [unionMerge, if_neg (not_lt_of_gt h), if_pos h]

theorem unionMerge_of_eq (h : a.1 = b.1) : unionMerge sel (a :: as) (b :: bs) =
    sel a b :: unionMerge sel as bs := by
  rw [unionMerge, if_neg (not_lt_of_ge (le_of_eq h.symm)), if_neg (not_lt_of_ge (le_of_eq h))]

/-- The keys of the merge are the keys of either list. -/
theorem mem_keys_unionMerge (hsel : ∀ x y, x.1 = y.1 → (sel x y).1 = x.1) (as bs : List (K × V))
    (k : K) : k ∈ (unionMerge sel as bs).map Prod.fst ↔
      k ∈ as.map Prod.fst ∨ k ∈ bs.map Prod.fst := by
  induction as, bs using unionMerge.induct with
  | case1 bs => simp
  | case2 a as => simp
  | case3 a as b bs h ih =>
    simp only [unionMerge_of_lt h, List.map_cons, List.mem_cons, or_assoc] at ih ⊢
    rw [ih]
  | case4 a as b bs h h' ih =>
    simp only [unionMerge_of_gt h', List.map_cons, List.mem_cons] at ih ⊢
    rw [ih]
    exact or_left_comm
  | case5 a as b bs h h' ih =>
    have he : a.1 = b.1 := le_antisymm (not_lt.mp h') (not_lt.mp h)
    simp only [unionMerge_of_eq he, List.map_cons, List.mem_cons, hsel a b he, ← he] at ih ⊢
    rw [ih]
    exact or_or_distrib_left

/-- The merge of increasing lists is increasing. -/
theorem unionMerge_increasing (hsel : ∀ x y, x.1 = y.1 → (sel x y).1 = x.1)
    {as bs : List (K × V)} (ha : Increasing as) (hb : Increasing bs) :
    Increasing (unionMerge sel as bs) := by
  have hcons : ∀ (r : K × V) (as bs : List (K × V)),
      (∀ k ∈ as.map Prod.fst, r.1 < k) → (∀ k ∈ bs.map Prod.fst, r.1 < k) →
      Increasing (unionMerge sel as bs) → Increasing (r :: unionMerge sel as bs) := by
    intro r as bs hleft hright h
    refine List.pairwise_cons.mpr ⟨?_, h⟩
    intro s hs
    have hk := List.mem_map_of_mem (f := Prod.fst) hs
    rw [mem_keys_unionMerge hsel] at hk
    exact hk.elim (hleft s.1) (hright s.1)
  induction as, bs using unionMerge.induct with
  | case1 bs => rwa [unionMerge_nil_left]
  | case2 a as => rwa [unionMerge_nil_right]
  | case3 a as b bs h ih =>
    rw [unionMerge_of_lt h]
    exact hcons a as (b :: bs) ha.head_lt_key (hb.nonDecreasing.lt_key_of_lt_head h)
      (ih ha.tail hb)
  | case4 a as b bs h h' ih =>
    rw [unionMerge_of_gt h']
    exact hcons b (a :: as) bs (ha.nonDecreasing.lt_key_of_lt_head h') hb.head_lt_key
      (ih ha hb.tail)
  | case5 a as b bs h h' ih =>
    have he : a.1 = b.1 := le_antisymm (not_lt.mp h') (not_lt.mp h)
    rw [unionMerge_of_eq he]
    apply hcons
    · rw [hsel a b he]
      exact ha.head_lt_key
    · rw [hsel a b he, he]
      exact hb.head_lt_key
    · exact ih ha.tail hb.tail

/-- A left row whose key the right list lacks is kept. -/
theorem mem_unionMerge_left {as bs : List (K × V)} {r : K × V} (hr : r ∈ as)
    (hk : r.1 ∉ bs.map Prod.fst) : r ∈ unionMerge sel as bs := by
  induction as, bs using unionMerge.induct with
  | case1 bs => cases hr
  | case2 a as => rwa [unionMerge_nil_right]
  | case3 a as b bs h ih =>
    rw [unionMerge_of_lt h]
    rcases List.mem_cons.mp hr with rfl | hr
    · exact List.mem_cons_self
    · exact List.mem_cons_of_mem a (ih hr hk)
  | case4 a as b bs h h' ih =>
    rw [unionMerge_of_gt h']
    exact List.mem_cons_of_mem b (ih hr fun hmem => hk (List.mem_cons_of_mem b.1 hmem))
  | case5 a as b bs h h' ih =>
    have he : a.1 = b.1 := le_antisymm (not_lt.mp h') (not_lt.mp h)
    rw [unionMerge_of_eq he]
    rcases List.mem_cons.mp hr with rfl | hr
    · exact absurd (he ▸ List.mem_cons_self) hk
    · exact List.mem_cons_of_mem _ (ih hr fun hmem => hk (List.mem_cons_of_mem b.1 hmem))

/-- A right row whose key the left list lacks is kept. -/
theorem mem_unionMerge_right {as bs : List (K × V)} {r : K × V} (hr : r ∈ bs)
    (hk : r.1 ∉ as.map Prod.fst) : r ∈ unionMerge sel as bs := by
  induction as, bs using unionMerge.induct with
  | case1 bs => rwa [unionMerge_nil_left]
  | case2 a as => cases hr
  | case3 a as b bs h ih =>
    rw [unionMerge_of_lt h]
    exact List.mem_cons_of_mem a (ih hr fun hmem => hk (List.mem_cons_of_mem a.1 hmem))
  | case4 a as b bs h h' ih =>
    rw [unionMerge_of_gt h']
    rcases List.mem_cons.mp hr with rfl | hr
    · exact List.mem_cons_self
    · exact List.mem_cons_of_mem b (ih hr hk)
  | case5 a as b bs h h' ih =>
    have he : a.1 = b.1 := le_antisymm (not_lt.mp h') (not_lt.mp h)
    rw [unionMerge_of_eq he]
    rcases List.mem_cons.mp hr with rfl | hr
    · exact absurd (he ▸ List.mem_cons_self) hk
    · exact List.mem_cons_of_mem _ (ih hr fun hmem => hk (List.mem_cons_of_mem a.1 hmem))

/-- Where both lists hold a key, the merge holds the selected row. -/
theorem mem_unionMerge_both {as bs : List (K × V)} (ha : Increasing as) (hb : Increasing bs)
    {r s : K × V} (hr : r ∈ as) (hs : s ∈ bs) (hk : r.1 = s.1) :
    sel r s ∈ unionMerge sel as bs := by
  induction as, bs using unionMerge.induct with
  | case1 bs => cases hr
  | case2 a as => cases hs
  | case3 a as b bs h ih =>
    rw [unionMerge_of_lt h]
    rcases List.mem_cons.mp hr with rfl | hr
    · exact absurd hk (hb.nonDecreasing.lt_of_lt_head h s hs).ne
    · exact List.mem_cons_of_mem a (ih ha.tail hb hr hs)
  | case4 a as b bs h h' ih =>
    rw [unionMerge_of_gt h']
    rcases List.mem_cons.mp hs with rfl | hs
    · exact absurd hk (ha.nonDecreasing.lt_of_lt_head h' r hr).ne'
    · exact List.mem_cons_of_mem b (ih ha hb.tail hr hs)
  | case5 a as b bs h h' ih =>
    have he : a.1 = b.1 := le_antisymm (not_lt.mp h') (not_lt.mp h)
    rw [unionMerge_of_eq he]
    rcases List.mem_cons.mp hr with rfl | hr <;> rcases List.mem_cons.mp hs with rfl | hs
    · exact List.mem_cons_self
    · exact absurd (hk.symm.trans he) (hb.head_lt hs).ne'
    · exact absurd (hk.trans he.symm) (ha.head_lt hr).ne'
    · exact List.mem_cons_of_mem _ (ih ha.tail hb.tail hr hs)

end UnionMerge

end KeyedRows
