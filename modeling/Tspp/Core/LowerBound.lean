import Mathlib.Data.List.Pairwise
import Mathlib.Order.Lattice

/-!
# Binary lower-bound search

The search halves a range `[first, first + count)` of positions, as the standard
algorithm does. On an ordered list it returns the first position whose element is not
less than the key; on any list it stays within the range it was given. There a linear
search for an element not less than the key stops at the same position, and one for a
larger element stops there or one position later.
-/

universe u

namespace LowerBound

variable {α : Type u} [LinearOrder α]

/-- Halve the range of `count` positions from `first` until it is empty. -/
def search (xs : List α) (d : α) (first count : ℕ) : ℕ :=
  if count = 0 then first
  else
    match xs[first + count / 2]? with
    | some x =>
      if x < d then search xs d (first + count / 2 + 1) (count - (count / 2 + 1))
      else search xs d first (count / 2)
    | none => first
termination_by count

/-- `std::lower_bound` over the whole list, as a position. -/
def lowerBound (xs : List α) (d : α) : ℕ := search xs d 0 xs.length

/-- The position returned splits the list at `d`. -/
structure Splits (xs : List α) (d : α) (r : ℕ) : Prop where
  /-- Elements before the position are less than `d`. -/
  below : ∀ i x, i < r → xs[i]? = some x → x < d
  /-- Elements from the position on are not less than `d`. -/
  above : ∀ i x, r ≤ i → xs[i]? = some x → d ≤ x

/-- An ordered list is monotone in the position. -/
theorem le_of_pairwise {xs : List α} (hs : xs.Pairwise (· ≤ ·)) {i j : ℕ} {x y : α}
    (hx : xs[i]? = some x) (hy : xs[j]? = some y) (hij : i ≤ j) : x ≤ y := by
  obtain ⟨hi, rfl⟩ := List.getElem?_eq_some_iff.mp hx
  obtain ⟨hj, rfl⟩ := List.getElem?_eq_some_iff.mp hy
  rcases Nat.eq_or_lt_of_le hij with rfl | hlt
  · exact le_refl _
  · exact List.pairwise_iff_getElem.mp hs i j hi hj hlt

/-- The search never leaves its range, whatever the order of the list. -/
theorem search_bounds (xs : List α) (d : α) (first count : ℕ) :
    first ≤ search xs d first count ∧ search xs d first count ≤ first + count := by
  induction first, count using search.induct xs d with
  | case1 first => rw [search, if_pos rfl]; omega
  | case2 first count hc x hx hlt ih =>
    rw [search, if_neg hc, hx]
    simp only [hlt, ite_true]
    omega
  | case3 first count hc x hx hlt ih =>
    rw [search, if_neg hc, hx]
    simp only [hlt, ite_false]
    omega
  | case4 first count hc hx =>
    rw [search, if_neg hc, hx]
    simp only
    omega

/-- The loop invariant of the halving: what lies outside the range is already decided. -/
theorem search_splits {xs : List α} (hs : xs.Pairwise (· ≤ ·)) (d : α) (first count : ℕ)
    (hlen : first + count ≤ xs.length)
    (hlo : ∀ i x, i < first → xs[i]? = some x → x < d)
    (hhi : ∀ i x, first + count ≤ i → xs[i]? = some x → d ≤ x) :
    Splits xs d (search xs d first count) := by
  induction first, count using search.induct xs d with
  | case1 first =>
    rw [search, if_pos rfl]
    exact ⟨hlo, hhi⟩
  | case2 first count hc x hx hlt ih =>
    rw [search, if_neg hc, hx]
    simp only [hlt, ite_true]
    apply ih
    · omega
    · intro i y hi hy
      exact (le_of_pairwise hs hy hx (by omega)).trans_lt hlt
    · intro i y hi hy
      exact hhi i y (by omega) hy
  | case3 first count hc x hx hlt ih =>
    rw [search, if_neg hc, hx]
    simp only [hlt, ite_false]
    apply ih
    · omega
    · exact hlo
    · intro i y hi hy
      exact (not_lt.mp hlt).trans (le_of_pairwise hs hx hy (by omega))
  | case4 first count hc hx =>
    have hout := List.getElem?_eq_none_iff.mp hx
    omega

theorem lowerBound_le (xs : List α) (d : α) : lowerBound xs d ≤ xs.length := by
  have h := (search_bounds xs d 0 xs.length).2
  rwa [Nat.zero_add] at h

/-- On an ordered list the search returns the first position not less than `d`. -/
theorem lowerBound_splits {xs : List α} (hs : xs.Pairwise (· ≤ ·)) (d : α) :
    Splits xs d (lowerBound xs d) := by
  apply search_splits hs
  · omega
  · intro i x hi
    omega
  · intro i x hi hx
    obtain ⟨hlt, _⟩ := List.getElem?_eq_some_iff.mp hx
    omega

/-- In an ordered list a key is present exactly where the search stops. -/
theorem mem_iff_getElem?_lowerBound {xs : List α} (hs : xs.Pairwise (· ≤ ·)) (d : α) :
    d ∈ xs ↔ xs[lowerBound xs d]? = some d := by
  have hsplit := lowerBound_splits hs d
  constructor
  · intro hd
    obtain ⟨i, hi⟩ := List.getElem?_of_mem hd
    have hle : lowerBound xs d ≤ i := by
      by_contra hlt
      exact lt_irrefl d (hsplit.below i d (Nat.lt_of_not_le hlt) hi)
    obtain ⟨hlen, _⟩ := List.getElem?_eq_some_iff.mp hi
    have hr := List.getElem?_eq_getElem (show lowerBound xs d < xs.length by omega)
    have hge := hsplit.above _ _ (Nat.le_refl _) hr
    have hup := le_of_pairwise hs hr hi hle
    rw [hr, le_antisymm hup hge]
  · exact List.mem_of_getElem?

omit [LinearOrder α] in
/-- A linear search stops at the first element that satisfies the predicate, or at the end. -/
theorem findIdx_eq_iff {p : α → Bool} {xs : List α} {r : ℕ} :
    xs.findIdx p = r ↔ r ≤ xs.length ∧ (∀ i x, i < r → xs[i]? = some x → p x = false) ∧
      ∀ x, xs[r]? = some x → p x = true := by
  constructor
  · rintro rfl
    refine ⟨List.findIdx_le_length, ?_, fun x => List.findIdx_of_getElem?_eq_some⟩
    intro i x hi hx
    obtain ⟨_, rfl⟩ := List.getElem?_eq_some_iff.mp hx
    exact List.not_of_lt_findIdx hi
  · rintro ⟨hr, hbelow, hat⟩
    rcases Nat.eq_or_lt_of_le hr with rfl | hlt
    · refine List.findIdx_eq_length.mpr fun x hx => ?_
      obtain ⟨i, hi, rfl⟩ := List.mem_iff_getElem.mp hx
      exact hbelow i _ hi (List.getElem?_eq_getElem hi)
    · refine (List.findIdx_eq hlt).mpr ⟨hat _ (List.getElem?_eq_getElem hlt), fun i hi => ?_⟩
      exact hbelow i _ hi (List.getElem?_eq_getElem (hi.trans hlt))

/-- Only on a strictly ordered list the search for each element stops at its own position. -/
theorem pairwise_lt_of_findIdx_ge {xs : List α}
    (h : ∀ i x, xs[i]? = some x → (xs.findIdx fun y => decide (y ≥ x)) = i) :
    xs.Pairwise (· < ·) := by
  refine List.pairwise_iff_getElem.mpr fun i j hi hj hij => ?_
  obtain ⟨_, hbelow, _⟩ := findIdx_eq_iff.mp (h j _ (List.getElem?_eq_getElem hj))
  have hbefore := hbelow i _ hij (List.getElem?_eq_getElem hi)
  exact not_le.mp (of_decide_eq_false hbefore)

/-- On an ordered list both searches stop at the first position not less than `d`. -/
theorem findIdx_ge_eq_lowerBound {xs : List α} (hs : xs.Pairwise (· ≤ ·)) (d : α) :
    (xs.findIdx fun x => decide (x ≥ d)) = lowerBound xs d := by
  have hsplit := lowerBound_splits hs d
  refine findIdx_eq_iff.mpr ⟨lowerBound_le xs d, fun i x hi hx => ?_, fun x hx => ?_⟩
  · exact decide_eq_false (not_le.mpr (hsplit.below i x hi hx))
  · exact decide_eq_true (hsplit.above _ x (Nat.le_refl _) hx)

/-- On a strictly ordered list the search for a larger element passes the key itself. -/
theorem findIdx_gt_of_mem {xs : List α} (hs : xs.Pairwise (· < ·)) {d : α} {r : ℕ}
    (hd : xs[r]? = some d) : (xs.findIdx fun x => decide (x > d)) = r + 1 := by
  have hr := (List.getElem?_eq_some_iff.mp hd).1
  have hle : xs.Pairwise (· ≤ ·) := hs.imp fun h => le_of_lt h
  refine findIdx_eq_iff.mpr ⟨hr, fun i x hi hx => ?_, fun x hx => ?_⟩
  · exact decide_eq_false (not_lt.mpr (le_of_pairwise hle hx hd (Nat.le_of_lt_succ hi)))
  · obtain ⟨hlen, rfl⟩ := List.getElem?_eq_some_iff.mp hx
    obtain ⟨_, rfl⟩ := List.getElem?_eq_some_iff.mp hd
    exact decide_eq_true (List.pairwise_iff_getElem.mp hs r (r + 1) hr hlen (Nat.lt_succ_self r))

/-- Where the key is missing, the search for a larger element stops where the key would be. -/
theorem findIdx_gt_of_notMem {xs : List α} (hs : xs.Pairwise (· ≤ ·)) {d : α} (hd : d ∉ xs) :
    (xs.findIdx fun x => decide (x > d)) = lowerBound xs d := by
  have hsplit := lowerBound_splits hs d
  refine findIdx_eq_iff.mpr ⟨lowerBound_le xs d, fun i x hi hx => ?_, fun x hx => ?_⟩
  · exact decide_eq_false (not_lt.mpr (hsplit.below i x hi hx).le)
  · refine decide_eq_true (lt_of_le_of_ne (hsplit.above _ x (Nat.le_refl _) hx) ?_)
    rintro rfl
    exact hd (List.mem_of_getElem? hx)

end LowerBound
