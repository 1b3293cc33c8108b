import Mathlib.Data.Set.Card
import Mathlib.Order.Bounds.Basic
import Tspp.Core.KeyedRows

/-!
# Partial maps over ordered keys

A partial map assigns a value to some of the keys. Rows in key order are a way to write a
finite one down: looking a key up in them is the map. Appending a row with a larger key,
putting one with a smaller key in front and replacing the value of a row are updates of the
map at one key.
-/

universe u v

namespace PartialMap

variable {K : Type u} {V : Type v}

/-- The keys that have a value. -/
def domain (m : K → Option V) : Set K := {k | (m k).isSome}

theorem mem_domain {m : K → Option V} {k : K} : k ∈ domain m ↔ (m k).isSome := Iff.rfl

end PartialMap

namespace KeyedRows

open PartialMap

variable {K : Type u} {V : Type v}

/-- Replacing a value replaces it in the row of its key. -/
theorem zip_set {keys : List K} {p : ℕ} {k : K} (hk : keys[p]? = some k) (values : List V)
    (v : V) : keys.zip (values.set p v) = (keys.zip values).set p (k, v) := by
  induction keys generalizing p values with
  | nil => simp at hk
  | cons a keys ih =>
    cases values with
    | nil => simp
    | cons w values =>
      cases p with
      | zero =>
        obtain rfl : a = k := by simpa using hk
        simp
      | succ p =>
        rw [List.getElem?_cons_succ] at hk
        simp [ih hk]

variable [LinearOrder K] {rows : List (K × V)}

/-- The partial map that rows write down. -/
def asMap (rows : List (K × V)) : K → Option V := fun k => rows.lookup k

@[simp] theorem asMap_nil : asMap ([] : List (K × V)) = fun _ => none := rfl

/-- The keys of the map are the keys of the rows. -/
theorem mem_domain_asMap {k : K} : k ∈ domain (asMap rows) ↔ k ∈ rows.map Prod.fst := by
  rw [mem_domain, asMap, Option.isSome_iff_ne_none, ne_eq, List.lookup_eq_none_iff]
  constructor
  · intro h
    by_contra hk
    apply h
    intro r hr
    have hne : k ≠ r.1 := fun heq => hk (heq ▸ List.mem_map_of_mem hr)
    simpa using hne
  · intro hk h
    obtain ⟨r, hr, rfl⟩ := List.mem_map.mp hk
    have hne := h r hr
    simp at hne

/-- A key that no row has is not found. -/
theorem lookup_eq_none_iff {k : K} : rows.lookup k = none ↔ k ∉ rows.map Prod.fst := by
  rw [← Option.not_isSome_iff_eq_none]
  exact mem_domain_asMap.not

/-- Increasing lists in which every key has the same value are equal. -/
theorem Increasing.ext_lookup {as bs : List (K × V)} (ha : Increasing as) (hb : Increasing bs)
    (h : ∀ k, as.lookup k = bs.lookup k) : as = bs := by
  apply ha.ext_mem hb
  intro r
  rw [← ha.lookup_eq_some, ← hb.lookup_eq_some, h]

/-- A row in front gives its key its value. -/
theorem asMap_cons (r : K × V) (rows : List (K × V)) :
    asMap (r :: rows) = Function.update (asMap rows) r.1 (some r.2) := by
  ext1 k
  obtain ⟨a, v⟩ := r
  by_cases hk : k = a
  · subst hk
    simp [asMap]
  · have hne : (k == a) = false := by simpa using hk
    rw [asMap, List.lookup_cons, hne, Function.update_of_ne hk, asMap]

/-- A row at the end gives its key its value, if no row before it has this key. -/
theorem asMap_concat {r : K × V} (h : r.1 ∉ rows.map Prod.fst) :
    asMap (rows ++ [r]) = Function.update (asMap rows) r.1 (some r.2) := by
  induction rows with
  | nil => rw [List.nil_append, asMap_cons]
  | cons s rows ih =>
    have hne : r.1 ≠ s.1 := fun heq => h (heq ▸ List.mem_cons_self)
    rw [List.cons_append, asMap_cons, asMap_cons,
      ih fun hmem => h (List.mem_cons_of_mem s.1 hmem), Function.update_comm hne]

/-- Replacing the value of a row updates its key, if no other row has it. -/
theorem Increasing.asMap_set (h : Increasing rows) {i : ℕ} {k : K} {v w : V}
    (hi : rows[i]? = some (k, w)) :
    asMap (rows.set i (k, v)) = Function.update (asMap rows) k (some v) := by
  induction rows generalizing i with
  | nil => simp at hi
  | cons r rows ih =>
    cases i with
    | zero =>
      obtain rfl : r = (k, w) := by simpa using hi
      rw [List.set_cons_zero, asMap_cons, asMap_cons,
        Function.update_idem]
    | succ i =>
      rw [List.getElem?_cons_succ] at hi
      have hne : r.1 ≠ k := (h.head_lt (List.mem_of_getElem? hi)).ne
      rw [List.set_cons_succ, asMap_cons, asMap_cons, ih h.tail hi,
        Function.update_comm hne]

end KeyedRows
