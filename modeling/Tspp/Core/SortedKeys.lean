import Mathlib.Data.Finset.Max
import Mathlib.Data.List.Sort

/-!
# Positions in an increasing list

In a strictly increasing list the order of positions is the order of elements. The
lemmas read elements through `getElem?`, as a cursor does, and turn what a cursor has
passed, a prefix of the list, into a condition on the elements.
-/

universe u

namespace SortedKeys

variable {α : Type u} [LinearOrder α] {l : List α} {i j : ℕ} {a b : α}

/-- Elements compare as their positions do. -/
theorem lt_iff (h : l.Pairwise (· < ·)) (ha : l[i]? = some a) (hb : l[j]? = some b) :
    a < b ↔ i < j := by
  obtain ⟨hi, rfl⟩ := List.getElem?_eq_some_iff.mp ha
  obtain ⟨hj, rfl⟩ := List.getElem?_eq_some_iff.mp hb
  exact h.sortedLT.getElem_lt_getElem_iff

/-- An element stands at one position only. -/
theorem position_unique (h : l.Pairwise (· < ·)) (hi : l[i]? = some a) (hj : l[j]? = some a) :
    i = j := by
  have hij := (lt_iff h hi hj).not.mp (lt_irrefl a)
  have hji := (lt_iff h hj hi).not.mp (lt_irrefl a)
  omega

/-- The elements before a position are the elements less than the one at it. -/
theorem mem_take_iff (h : l.Pairwise (· < ·)) (ha : l[i]? = some a) {x : α} :
    x ∈ l.take i ↔ x ∈ l ∧ x < a := by
  constructor
  · intro hx
    obtain ⟨k, hk⟩ := List.mem_iff_getElem?.mp hx
    rw [List.getElem?_take] at hk
    split at hk
    · exact ⟨List.mem_of_getElem? hk, (lt_iff h hk ha).mpr ‹_›⟩
    · cases hk
  · rintro ⟨hx, hlt⟩
    obtain ⟨k, hk⟩ := List.mem_iff_getElem?.mp hx
    have hki := (lt_iff h hk ha).mp hlt
    apply List.mem_iff_getElem?.mpr
    refine ⟨k, ?_⟩
    rw [List.getElem?_take, if_pos hki, hk]

/-- Nothing is greater than the element at the last position. -/
theorem le_of_last (h : l.Pairwise (· < ·)) (ha : l[l.length - 1]? = some a) :
    ∀ x ∈ l, x ≤ a := by
  intro x hx
  obtain ⟨k, hk⟩ := List.mem_iff_getElem?.mp hx
  obtain ⟨hlen, _⟩ := List.getElem?_eq_some_iff.mp hk
  rw [← not_lt, lt_iff h ha hk]
  omega

/-- An element that nothing exceeds stands at the last position. -/
theorem getElem?_last_of_le (h : l.Pairwise (· < ·)) (ha : a ∈ l) (hle : ∀ x ∈ l, x ≤ a) :
    l[l.length - 1]? = some a := by
  obtain ⟨k, hk⟩ := List.mem_iff_getElem?.mp ha
  obtain ⟨hlen, _⟩ := List.getElem?_eq_some_iff.mp hk
  obtain ⟨b, hb⟩ : ∃ b, l[l.length - 1]? = some b :=
    ⟨_, List.getElem?_eq_getElem (by omega)⟩
  have hba := hle b (List.mem_of_getElem? hb)
  rw [← not_lt, lt_iff h hk hb] at hba
  rw [show l.length - 1 = k by omega, hk]

/-- A list with an element not above a bound has a greatest such element. -/
theorem exists_isGreatest_le (ha : a ∈ l) (hab : a ≤ b) :
    ∃ g, IsGreatest {x | x ∈ l ∧ x ≤ b} g := by
  have hne : (l.toFinset.filter (· ≤ b)).Nonempty :=
    ⟨a, Finset.mem_filter.mpr ⟨List.mem_toFinset.mpr ha, hab⟩⟩
  have hmax := Finset.isGreatest_max' _ hne
  rw [Finset.coe_filter] at hmax
  simp only [List.mem_toFinset] at hmax
  exact ⟨_, hmax⟩

/-- A list with an element not below a bound has a least such element. -/
theorem exists_isLeast_ge (ha : a ∈ l) (hab : b ≤ a) :
    ∃ g, IsLeast {x | x ∈ l ∧ b ≤ x} g := by
  have hne : (l.toFinset.filter (b ≤ ·)).Nonempty :=
    ⟨a, Finset.mem_filter.mpr ⟨List.mem_toFinset.mpr ha, hab⟩⟩
  have hmin := Finset.isLeast_min' _ hne
  rw [Finset.coe_filter] at hmin
  simp only [List.mem_toFinset] at hmin
  exact ⟨_, hmin⟩

end SortedKeys
