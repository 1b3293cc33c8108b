import Tspp.Core.PartialMap
import Tspp.Core.SortedKeys

/-!
# Partial maps in the order of their keys

A partial map that rows can write down is written down by one increasing list. Its order gives
the map more than a value for each key: the values of a set of keys in order, and the value some
keys before or after a key.
-/

universe u v w

namespace KeyedRows

open PartialMap

variable {K : Type u} {V : Type v} {O : Type w} [LinearOrder K] {rows : List (K × V)}

/-- A map is the map of increasing rows if it assigns to the keys what the rows do. -/
theorem Increasing.asMap_eq (h : Increasing rows) {m : K → Option V}
    (hm : ∀ k v, (k, v) ∈ rows ↔ m k = some v) : asMap rows = m := by
  ext k v
  rw [← hm k v]
  exact h.lookup_eq_some k v

theorem Increasing.asMap_of_mem (h : Increasing rows) {k : K} {v : V} (hr : (k, v) ∈ rows) :
    asMap rows k = some v :=
  (h.lookup_eq_some k v).mpr hr

/-- Rows made from rows with the same keys write down what is made of the map. -/
theorem Increasing.asMap_filterMap (h : Increasing rows) (f : K × V → Option (K × O))
    (hf : ∀ r s, f r = some s → s.1 = r.1) :
    asMap (rows.filterMap f) = fun k => (asMap rows k).bind fun v => (f (k, v)).map Prod.snd := by
  have hinc : Increasing (rows.filterMap f) := by
    rw [Increasing, List.pairwise_filterMap]
    refine List.Pairwise.imp (fun {r s} hlt r' hr s' hs => ?_) h
    rw [hf r r' hr, hf s s' hs]
    exact hlt
  apply hinc.asMap_eq
  intro k u
  simp only [List.mem_filterMap, Option.bind_eq_some_iff, Option.map_eq_some_iff]
  constructor
  · rintro ⟨⟨a, v⟩, hr, hs⟩
    obtain rfl : k = a := hf _ _ hs
    exact ⟨v, h.asMap_of_mem hr, (k, u), hs, rfl⟩
  · rintro ⟨v, hv, ⟨a, u⟩, hs, rfl⟩
    obtain rfl : a = k := hf _ _ hs
    exact ⟨(a, v), (h.lookup_eq_some a v).mp hv, hs⟩

/-- Two rows are ordered as their positions are. -/
theorem Increasing.lt_iff (h : Increasing rows) {i j : ℕ} {r s : K × V} (hi : rows[i]? = some r)
    (hj : rows[j]? = some s) : r.1 < s.1 ↔ i < j := by
  have hkey : ∀ {n : ℕ} {x : K × V}, rows[n]? = some x → (rows.map Prod.fst)[n]? = some x.1 :=
    fun hn => by rw [List.getElem?_map, hn, Option.map_some]
  exact SortedKeys.lt_iff ((increasing_iff rows).mp h) (hkey hi) (hkey hj)

end KeyedRows

namespace PartialMap

open KeyedRows

variable {K : Type u} {V : Type v} [LinearOrder K]

open Classical in
/-- The increasing rows that write a map down, if there are any. -/
noncomputable def listing (m : K → Option V) : List (K × V) :=
  if h : ∃ rows, Increasing rows ∧ asMap rows = m then h.choose else []

open Classical in
/-- The values of the keys in a set, in the order of the keys. -/
noncomputable def valuesIn (m : K → Option V) (s : Set K) : List V :=
  ((listing m).filter fun r => r.1 ∈ s).map Prod.snd

/-- The number of keys before a key. -/
noncomputable def rank (m : K → Option V) (k : K) : ℕ := (valuesIn m (Set.Iio k)).length

/-- The value `s` keys after a key, or before it if `s` is negative. -/
noncomputable def neighbour (m : K → Option V) (k : K) (s : ℤ) : Option V :=
  if 0 ≤ rank m k + s then (valuesIn m Set.univ)[(rank m k + s).toNat]? else none

end PartialMap

namespace KeyedRows

open PartialMap

variable {K : Type u} {V : Type v} [LinearOrder K] {rows : List (K × V)}

/-- The listing of a map that is written down. -/
theorem Increasing.listing_asMap (h : Increasing rows) : listing (asMap rows) = rows := by
  have hex : ∃ rows', Increasing rows' ∧ asMap rows' = asMap rows := ⟨rows, h, rfl⟩
  rw [listing, dif_pos hex]
  exact hex.choose_spec.1.ext_lookup h (congrFun hex.choose_spec.2)

/-- The values of the keys that satisfy a condition. -/
theorem Increasing.valuesIn_asMap (h : Increasing rows) (p : K → Prop) [DecidablePred p] :
    valuesIn (asMap rows) {k | p k} = (rows.filter fun r => p r.1).map Prod.snd := by
  rw [valuesIn, h.listing_asMap]
  congr 2
  ext r
  simp

/-- The values of all keys. -/
theorem Increasing.valuesIn_univ (h : Increasing rows) :
    valuesIn (asMap rows) Set.univ = rows.map Prod.snd := by
  have hall := h.valuesIn_asMap fun _ => True
  simpa using hall

/-- A condition that holds at the first positions only selects the first elements. -/
theorem filter_eq_take {α : Type u} {xs : List α} {p : α → Bool} {n : ℕ}
    (h : ∀ j x, xs[j]? = some x → (p x = true ↔ j < n)) : xs.filter p = xs.take n := by
  conv_lhs => rw [← List.take_append_drop n xs, List.filter_append]
  have hfirst : (xs.take n).filter p = xs.take n := by
    rw [List.filter_eq_self]
    intro x hx
    obtain ⟨j, hj⟩ := List.mem_iff_getElem?.mp hx
    rw [List.getElem?_take] at hj
    split at hj
    · next hlt => exact (h j x hj).mpr hlt
    · cases hj
  have hrest : (xs.drop n).filter p = [] := by
    rw [List.filter_eq_nil_iff]
    intro x hx
    obtain ⟨j, hj⟩ := List.mem_iff_getElem?.mp hx
    rw [List.getElem?_drop] at hj
    exact (h _ x hj).not.mpr (by omega)
  rw [hfirst, hrest, List.append_nil]

/-- The values of the keys up to the key of a row. -/
theorem Increasing.valuesIn_Iic (h : Increasing rows) {i : ℕ} {k : K} {v : V}
    (hi : rows[i]? = some (k, v)) :
    valuesIn (asMap rows) (Set.Iic k) = (rows.take (i + 1)).map Prod.snd := by
  rw [Set.Iic, h.valuesIn_asMap (· ≤ k), filter_eq_take]
  intro j s hj
  rw [decide_eq_true_eq, ← not_lt, h.lt_iff hi hj]
  omega

/-- The rank of the key of a row is its position. -/
theorem Increasing.rank_asMap (h : Increasing rows) {i : ℕ} {k : K} {v : V}
    (hi : rows[i]? = some (k, v)) : rank (asMap rows) k = i := by
  have hbefore : (rows.filter fun r => r.1 < k) = rows.take i := by
    apply filter_eq_take
    intro j s hj
    rw [decide_eq_true_eq, h.lt_iff hj hi]
  obtain ⟨hlt, _⟩ := List.getElem?_eq_some_iff.mp hi
  rw [rank, Set.Iio, h.valuesIn_asMap (· < k), hbefore, List.length_map,
    List.length_take_of_le hlt.le]

/-- The neighbour of a row is found at its position. -/
theorem Increasing.neighbour_asMap (h : Increasing rows) {i : ℕ} {k : K} {v : V}
    (hi : rows[i]? = some (k, v)) (s : ℤ) : neighbour (asMap rows) k s =
      if 0 ≤ i + s then (rows.map Prod.snd)[(i + s).toNat]? else none := by
  rw [neighbour, h.rank_asMap hi, h.valuesIn_univ]

end KeyedRows
