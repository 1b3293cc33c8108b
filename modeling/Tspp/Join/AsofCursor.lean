import Tspp.Join.Asof
import Tspp.Core.SortedKeys

/-!
# The right cursor of an as-of merge

The comparators of the repository look at the keys under the three iterators only and
call a left key equal to the same right key. Under such a comparator the right cursor
depends on the two key lists alone: it stands at the first right key that is not a left
key already passed, and it never leaves the last right row. This file is about the key
lists; nothing here runs the loop.
-/

namespace Tspp

variable {K : Type}

/-- An answer by keys: the ordering, and whether the candidate's row is the one to read. -/
abbrev KeyAnswer (K : Type) := K → K → K → Enums.Ordering × Bool

/-- A left key is answered by the row of the same right key. -/
def Aligned (ans : KeyAnswer K) : Prop := ∀ l c, ans l l c = (.equal, false)

/-- The right key whose row an answer carries, given the cursor's key and the candidate's. -/
def carriedKey (a : Enums.Ordering × Bool) (r c : K) : Option K :=
  match a.1 with
  | .equal => some (if a.2 then c else r)
  | _ => none

/-- A key is carried where the answer is `equal`. -/
theorem carriedKey_eq_some {a : Enums.Ordering × Bool} {r c k : K} :
    carriedKey a r c = some k ↔ a.1 = .equal ∧ (if a.2 then c else r) = k := by
  obtain ⟨o, pick⟩ := a
  cases o <;> simp [carriedKey]

/-- `c` is the right key of the candidate next to `r`. -/
def CandKey (mode : Enums.MergeAsofMode) (rk : List K) (r c : K) : Prop :=
  ∃ j : ℕ, rk[j]? = some r ∧ rk[candPos mode rk.length j]? = some c

variable {lk rk : List K} {l r c : K} {mode : Enums.MergeAsofMode}

theorem CandKey.mem (h : CandKey mode rk r c) : c ∈ rk := by
  obtain ⟨j, _, hc⟩ := h
  exact List.mem_of_getElem? hc

/-- Every right key has a candidate next to it. -/
theorem exists_candKey (mode : Enums.MergeAsofMode) (h : r ∈ rk) : ∃ c, CandKey mode rk r c := by
  obtain ⟨j, hj⟩ := List.mem_iff_getElem?.mp h
  have hlt := candPos_lt mode (List.getElem?_eq_some_iff.mp hj).1
  exact ⟨_, j, hj, List.getElem?_eq_getElem hlt⟩

/-- A carried key is a right key. -/
theorem carriedKey_mem {a : Enums.Ordering × Bool} {k : K} (hr : r ∈ rk) (hc : c ∈ rk)
    (h : carriedKey a r c = some k) : k ∈ rk := by
  obtain ⟨o, pick⟩ := a
  cases o with
  | lessThan => cases h
  | greaterThan => cases h
  | equal =>
    cases h
    cases pick
    · exact hr
    · exact hc

/-- With the left cursor at position `i` the right cursor is at position `j`. -/
structure CursorAt (lk rk : List K) (i j : ℕ) : Prop where
  lt : j < rk.length
  passed : ∀ k ∈ rk.take j, k ∈ lk.take i
  waits : j = rk.length - 1 ∨ ∀ r, rk[j]? = some r → r ∉ lk.take i

/-- Nothing has been passed at the beginning. -/
theorem cursorAt_zero (lk : List K) (h : 0 < rk.length) : CursorAt lk rk 0 0 :=
  ⟨h, fun k hk => by simp at hk, Or.inr fun r _ hr => by simp at hr⟩

section Ordered

variable [LinearOrder K]

/-- `r` is the right key under the cursor when the merge is at the left key `l`. -/
structure CursorKey (lk rk : List K) (l r : K) : Prop where
  mem : r ∈ rk
  /-- What has been passed was matched. -/
  passed : ∀ k ∈ rk, k < r → k ∈ lk ∧ k < l
  /-- The cursor stays because the row is the last one or has not been matched. -/
  waits : (∀ k ∈ rk, k ≤ r) ∨ ¬ (r ∈ lk ∧ r < l)

/-- At the left key `l` the merge answers `greater_than` on the last right row. -/
def StuckAt (mode : Enums.MergeAsofMode) (ans : KeyAnswer K) (lk rk : List K) (l : K) : Prop :=
  ∃ r c, CursorKey lk rk l r ∧ CandKey mode rk r c ∧ (∀ k ∈ rk, k ≤ r) ∧
    (ans l r c).1 = .greaterThan

/-- The cursor stays at a key that has been matched only on the last right row. -/
theorem CursorKey.last_of_matched (h : CursorKey lk rk l r) (hmem : r ∈ lk) (hlt : r < l) :
    ∀ k ∈ rk, k ≤ r :=
  h.waits.resolve_right (not_not_intro ⟨hmem, hlt⟩)

/-- There is one right key under the cursor. -/
theorem CursorKey.unique {r' : K} (h : CursorKey lk rk l r) (h' : CursorKey lk rk l r') :
    r = r' := by
  have hle : ∀ {a b}, CursorKey lk rk l a → CursorKey lk rk l b → b ≤ a := by
    intro a b ha hb
    by_contra hlt
    rw [not_le] at hlt
    obtain ⟨hmem, hpassed⟩ := hb.passed a ha.mem hlt
    have hlast := ha.last_of_matched hmem hpassed
    exact absurd (hlast b hb.mem) (not_le_of_gt hlt)
  exact le_antisymm (hle h' h) (hle h h')

/-- A nonempty right key list has a key under the cursor. -/
theorem exists_cursorKey (lk : List K) (hr : rk.Pairwise (· < ·)) (hne : rk ≠ []) (l : K) :
    ∃ r, CursorKey lk rk l r := by
  induction rk with
  | nil => exact absurd rfl hne
  | cons k ks ih =>
    obtain ⟨hhead, htail⟩ := List.pairwise_cons.mp hr
    have hpass : ∀ x ∈ k :: ks, ¬ x < k := by
      intro x hx
      rcases List.mem_cons.mp hx with rfl | hx
      · exact lt_irrefl x
      · exact not_lt_of_gt (hhead x hx)
    by_cases hmatch : k ∈ lk ∧ k < l
    · by_cases hks : ks = []
      · subst hks
        refine ⟨k, List.mem_cons_self, fun x hx hlt => absurd hlt (hpass x hx), Or.inl ?_⟩
        intro x hx
        exact le_of_eq (List.mem_singleton.mp hx)
      · obtain ⟨r, hmem, hpassed, hwaits⟩ := ih htail hks
        refine ⟨r, List.mem_cons_of_mem k hmem, ?_, ?_⟩
        · intro x hx hlt
          rcases List.mem_cons.mp hx with rfl | hx
          · exact hmatch
          · exact hpassed x hx hlt
        · refine hwaits.imp_left fun hlast x hx => ?_
          rcases List.mem_cons.mp hx with rfl | hx
          · exact le_of_lt (hhead r hmem)
          · exact hlast x hx
    · exact ⟨k, List.mem_cons_self, fun x hx hlt => absurd hlt (hpass x hx), Or.inr hmatch⟩

/-- There is one candidate next to a right key. -/
theorem CandKey.unique {c' : K} (hr : rk.Pairwise (· < ·)) (h : CandKey mode rk r c)
    (h' : CandKey mode rk r c') : c = c' := by
  obtain ⟨j, hj, hc⟩ := h
  obtain ⟨j', hj', hc'⟩ := h'
  rw [SortedKeys.position_unique hr hj hj', hc'] at hc
  exact (Option.some.inj hc).symm

/-- Under a cursor the merge is stuck exactly where it answers `greater_than` on the last row. -/
theorem CursorKey.stuckAt_iff {ans : KeyAnswer K} {j : ℕ} (hr : rk.Pairwise (· < ·))
    (hkey : CursorKey lk rk l r) (hrk : rk[j]? = some r) (hcand : CandKey mode rk r c) :
    StuckAt mode ans lk rk l ↔ j = rk.length - 1 ∧ (ans l r c).1 = .greaterThan := by
  constructor
  · intro ⟨r', c', hkey', hcand', hlast, hgt⟩
    obtain rfl := hkey.unique hkey'
    obtain rfl := hcand.unique hr hcand'
    have hend := SortedKeys.getElem?_last_of_le hr hkey.mem hlast
    exact ⟨SortedKeys.position_unique hr hrk hend, hgt⟩
  · intro ⟨hlast, hgt⟩
    rw [hlast] at hrk
    exact ⟨r, c, hkey, hcand, SortedKeys.le_of_last hr hrk, hgt⟩

/-- The cursor advances exactly when its key is matched, except at the last right row. -/
theorem CursorAt.succ {i j : ℕ} (hl : lk.Pairwise (· < ·)) (hr : rk.Pairwise (· < ·))
    (h : CursorAt lk rk i j) (hli : lk[i]? = some l) (hrj : rk[j]? = some r) :
    CursorAt lk rk (i + 1) (if l = r ∧ j ≠ rk.length - 1 then j + 1 else j) := by
  obtain ⟨hlt, hpassed, hwaits⟩ := h
  have htake : ∀ k, k ∈ lk.take (i + 1) ↔ k ∈ lk.take i ∨ k = l := by
    intro k
    rw [List.take_add_one, hli, Option.toList_some, List.mem_append, List.mem_singleton]
  split
  · rename_i hmatch
    obtain ⟨rfl, hlast⟩ := hmatch
    refine ⟨by omega, ?_, Or.inr ?_⟩
    · intro k hk
      rw [List.take_add_one, hrj, Option.toList_some, List.mem_append, List.mem_singleton] at hk
      exact (htake k).mpr (hk.imp_left (hpassed k))
    · -- The next right key is beyond every left key read so far.
      intro r hnext hmem
      have hgt : l < r := (SortedKeys.lt_iff hr hrj hnext).mpr (Nat.lt_succ_self j)
      rcases (htake r).mp hmem with hold | rfl
      · exact not_lt_of_gt hgt ((SortedKeys.mem_take_iff hl hli).mp hold).2
      · exact lt_irrefl r hgt
  · rename_i hstay
    refine ⟨hlt, fun k hk => (htake k).mpr (Or.inl (hpassed k hk)), ?_⟩
    by_cases hlast : j = rk.length - 1
    · exact Or.inl hlast
    · right
      intro r' hr' hmem
      obtain rfl : r = r' := Option.some.inj (hrj.symm.trans hr')
      rcases (htake r).mp hmem with hold | rfl
      · rcases hwaits with hend | hwait
        · exact hlast hend
        · exact hwait r hrj hold
      · exact hstay ⟨rfl, hlast⟩

/-- The position of the cursor holds the key under the cursor. -/
theorem CursorAt.cursorKey {i j : ℕ} (hl : lk.Pairwise (· < ·)) (hr : rk.Pairwise (· < ·))
    (h : CursorAt lk rk i j) (hli : lk[i]? = some l) (hrj : rk[j]? = some r) :
    CursorKey lk rk l r := by
  refine ⟨List.mem_of_getElem? hrj, ?_, ?_⟩
  · intro k hk hlt
    have htake := h.passed k ((SortedKeys.mem_take_iff hr hrj).mpr ⟨hk, hlt⟩)
    exact (SortedKeys.mem_take_iff hl hli).mp htake
  · refine h.waits.imp (fun hlast => ?_) fun hwait => ?_
    · rw [hlast] at hrj
      exact SortedKeys.le_of_last hr hrj
    · rw [← SortedKeys.mem_take_iff hl hli]
      exact hwait r hrj

/-- The rolled-back candidate is the right key before the cursor's, if there is one. -/
theorem CandKey.rollPrior_cases (hr : rk.Pairwise (· < ·)) (h : CandKey .rollPrior rk r c) :
    (c = r ∧ ∀ x ∈ rk, r ≤ x) ∨ (c < r ∧ ∀ x ∈ rk, x < r → x ≤ c) := by
  obtain ⟨j, hj, hc⟩ := h
  simp only [candPos] at hc
  by_cases hzero : j = 0
  · subst hzero
    refine Or.inl ⟨Option.some.inj (hc.symm.trans hj), fun x hx => ?_⟩
    obtain ⟨k, hk⟩ := List.mem_iff_getElem?.mp hx
    rw [← not_lt, SortedKeys.lt_iff hr hk hj]
    exact Nat.not_lt_zero k
  · refine Or.inr ⟨(SortedKeys.lt_iff hr hc hj).mpr (by omega), fun x hx hlt => ?_⟩
    obtain ⟨k, hk⟩ := List.mem_iff_getElem?.mp hx
    rw [SortedKeys.lt_iff hr hk hj] at hlt
    rw [← not_lt, SortedKeys.lt_iff hr hc hk]
    omega

/-- The rolled-forward candidate is the right key after the cursor's, if there is one. -/
theorem CandKey.rollFollowing_cases (hr : rk.Pairwise (· < ·))
    (h : CandKey .rollFollowing rk r c) :
    (c = r ∧ ∀ x ∈ rk, x ≤ r) ∨ (r < c ∧ ∀ x ∈ rk, r < x → c ≤ x) := by
  obtain ⟨j, hj, hc⟩ := h
  simp only [candPos] at hc
  by_cases hlast : j = rk.length - 1
  · rw [if_pos hlast, ← hlast] at hc
    refine Or.inl ⟨Option.some.inj (hc.symm.trans hj), ?_⟩
    rw [hlast] at hj
    exact SortedKeys.le_of_last hr hj
  · rw [if_neg hlast] at hc
    refine Or.inr ⟨(SortedKeys.lt_iff hr hj hc).mpr (Nat.lt_succ_self j), fun x hx hlt => ?_⟩
    obtain ⟨k, hk⟩ := List.mem_iff_getElem?.mp hx
    rw [SortedKeys.lt_iff hr hj hk] at hlt
    rw [← not_lt, SortedKeys.lt_iff hr hk hc]
    omega

/-- The keys before the last one. -/
theorem mem_dropLast_iff (hr : rk.Pairwise (· < ·)) {last : K} (hlast : rk.getLast? = some last)
    {k : K} : k ∈ rk.dropLast ↔ k ∈ rk ∧ k < last := by
  rw [List.getLast?_eq_getElem?] at hlast
  rw [List.dropLast_eq_take, SortedKeys.mem_take_iff hr hlast]

/-- Some left key is one to be stuck at exactly if every right key before the last one is a left
key and `greater_than` is answered somewhere on the last right row, provided that this answer
is given only behind the other right keys. -/
theorem exists_stuckAt_iff (lk : List K) {ans : KeyAnswer K} {last : K} (hr : rk.Pairwise (· < ·))
    (hlast : rk.getLast? = some last) (hcand : CandKey mode rk last c)
    (hbehind : ∀ l, (ans l last c).1 = .greaterThan → ∀ k ∈ rk, k < last → k < l) :
    (∃ l ∈ lk, StuckAt mode ans lk rk l) ↔
      (∀ k ∈ rk.dropLast, k ∈ lk) ∧ ∃ l ∈ lk, (ans l last c).1 = .greaterThan := by
  have hmax : ∀ k ∈ rk, k ≤ last := by
    rw [List.getLast?_eq_getElem?] at hlast
    exact SortedKeys.le_of_last hr hlast
  have hmem := List.mem_of_getLast? hlast
  constructor
  · rintro ⟨l, hl, r, c', hkey, hcand', hrmax, hgt⟩
    obtain rfl : r = last := le_antisymm (hmax r hkey.mem) (hrmax last hmem)
    obtain rfl := hcand.unique hr hcand'
    refine ⟨fun k hk => ?_, l, hl, hgt⟩
    obtain ⟨hk, hlt⟩ := (mem_dropLast_iff hr hlast).mp hk
    exact (hkey.passed k hk hlt).1
  · rintro ⟨hall, l, hl, hgt⟩
    refine ⟨l, hl, last, c, ⟨hmem, fun k hk hlt => ?_, Or.inl hmax⟩, hcand, hmax, hgt⟩
    exact ⟨hall k ((mem_dropLast_iff hr hlast).mpr ⟨hk, hlt⟩), hbehind l hgt k hk hlt⟩

end Ordered

end Tspp
