import Tspp.Join.AsofKeys

/-!
# The right rows that an as-of merge uses

An iteration that is answered `equal` combines the left row with the right row that the
comparator points at; every other iteration emits the default. What holds of every pair of
rows that any run combines is again a condition on two key lists: a left key is reached
exactly if the merge gets stuck at none before it.
-/

namespace Tspp

namespace TimeSeries

variable {K V W O : Type} [LinearOrder K]

/-- The iteration from `s` combines the left row `l` with the right row `q`. -/
def UsesRow (left : TimeSeries K V) (other : TimeSeries K W) (compareFunc : Option AsofComparator)
    (mergeMode : Enums.MergeAsofMode) (s : JoinState K O) (l : K × V) (q : K × W) : Prop :=
  s.il.deref left.toContainers = .ok l ∧
    ∃ cand it, candIdx mergeMode other s.ir = .ok cand ∧
      (compareFunc.getD (defaultCompare left other)) s.il s.ir cand = .ok (.equal, it) ∧
      it.deref other.toContainers = .ok q

section Rows

variable {left : TimeSeries K V} {other : TimeSeries K W} {d : W} {func : V → W → O}
  {compare : Option AsofComparator} {mode : Enums.MergeAsofMode} {ans : KeyAnswer K}

/-- At existing rows an iteration uses the row that a comparator points at when it answers
`equal`. -/
theorem usesRow_atRows_iff {i j p : ℕ} {l : K × V} {q : K × W} {o : Enums.Ordering}
    (res : TimeSeries K O) (hl : left.rows[i]? = some l) (hj : j < other.size)
    (hans : compare.getD (defaultCompare left other) (.row i) (.row j)
      (.row (candPos mode other.size j)) = .ok (o, .row p)) :
    UsesRow left other compare mode (.atRows i j res) l q ↔
      o = .equal ∧ other.rows[p]? = some q := by
  unfold UsesRow
  rw [JoinState.atRows, candIdx_row mode hj, ← deref_row_iff]
  constructor
  · rintro ⟨_, cand, it, hcand, hit, hq⟩
    cases hcand
    rw [hans] at hit
    obtain ⟨hord, rfl⟩ := Prod.ext_iff.mp (Except.ok.inj hit)
    exact ⟨hord, hq⟩
  · rintro ⟨rfl, hq⟩
    exact ⟨deref_row hl, _, _, rfl, hans, hq⟩

/-- In every run an iteration emits the left row with the right row that it uses, or with the
default where it uses none. -/
theorem mergeApplyAsofLoop_emits (hne : 0 < other.size)
    (hcomp : AnswersInside left other (compare.getD (defaultCompare left other)))
    {s : JoinState K O}
    (hreach : (mergeApplyAsofLoop left other d compare func mode).Reaches (.start left other) s)
    (hc : (mergeApplyAsofLoop left other d compare func mode).cond s = true) :
    ∃ t l, (mergeApplyAsofLoop left other d compare func mode).body s = .ok t ∧
      s.il.deref left.toContainers = .ok l ∧
      ((∃ q, UsesRow left other compare mode s l q ∧
          t.result = s.result.insertEnd (l.1, func l.2 q.2)) ∨
        (∀ q, ¬ UsesRow left other compare mode s l q) ∧
          t.result = s.result.insertEnd (l.1, func l.2 d)) := by
  obtain ⟨i, j, hstate, hi, hj, _⟩ := asofInside_of_reaches hne hcomp hreach
  rw [hstate, mergeApplyAsofLoop_cond] at hc
  obtain ⟨k, v, hl⟩ := exists_row (show i < left.size by omega)
  obtain ⟨k', w, hr⟩ := exists_row hj
  obtain ⟨o, p, hp, hans⟩ := hcomp i j _ (lt_size_of_row hl) hj (candPos_lt mode hj)
  obtain ⟨k'', w', hq⟩ := exists_row hp
  have hbody := mergeApplyAsofLoop_body d func s.result hl hr hq hans
  rw [← hstate] at hbody
  have hderef : s.il.deref left.toContainers = .ok (k, v) := by
    rw [hstate]
    exact deref_row hl
  have huses : ∀ q, UsesRow left other compare mode s (k, v) q ↔
      o = .equal ∧ other.rows[p]? = some q := by
    intro q
    rw [hstate]
    exact usesRow_atRows_iff s.result hl hj hans
  refine ⟨_, (k, v), hbody, hderef, ?_⟩
  simp only [huses]
  cases o with
  | lessThan => exact Or.inr ⟨by simp, rfl⟩
  | greaterThan => exact Or.inr ⟨by simp, rfl⟩
  | equal => exact Or.inl ⟨(k'', w'), ⟨rfl, hq⟩, rfl⟩

/-- Under a comparator that looks at keys the key of the row used is the carried one. -/
theorem exists_usesRow_iff
    (hcomp : AsksKeys left other (compare.getD (defaultCompare left other)) ans) {i j : ℕ}
    {l : K × V} {r c k : K} (res : TimeSeries K O) (hl : left.rows[i]? = some l)
    (hr : other.keys[j]? = some r) (hc : other.keys[candPos mode other.size j]? = some c) :
    (∃ w, UsesRow left other compare mode (.atRows i j res) l (k, w)) ↔
      carriedKey (ans l.1 r c) r c = some k := by
  have hlk := (getElem?_rows_eq_some.mp (show left.rows[i]? = some (l.1, l.2) from hl)).1
  have hj : j < other.size := (List.getElem?_eq_some_iff.mp hr).1
  have hans := hcomp i j _ l.1 r c hlk hr hc
  rw [← apply_ite IteratorPair.row] at hans
  have hkey : other.keys[if (ans l.1 r c).2 then candPos mode other.size j else j]? =
      some (if (ans l.1 r c).2 then c else r) := by
    split
    · exact hc
    · exact hr
  simp only [usesRow_atRows_iff res hl hj hans, exists_and_left, exists_getElem?_rows_iff, hkey,
    carriedKey_eq_some, Option.some.injEq]

/-- The merge comes to every left key before which it does not get stuck. -/
theorem exists_reaches_of_free (d : W) (func : V → W → O) (hl : left.StrictlyIncreasing)
    (hr : other.StrictlyIncreasing) (hne : 0 < other.size) (hal : Aligned ans)
    (hcomp : AsksKeys left other (compare.getD (defaultCompare left other)) ans) {i : ℕ}
    (hi : i ≤ left.size)
    (hfree : ∀ l ∈ left.keys.take i, ¬ StuckAt mode ans left.keys other.keys l) :
    ∃ s j, (mergeApplyAsofLoop left other d compare func mode).Reaches (.start left other) s ∧
      AsofProgress left other d func mode ans s i j := by
  induction i with
  | zero => exact ⟨_, 0, WhileLoop.Reaches.refl _, asofProgress_start d func mode ans hne⟩
  | succ i ih =>
    obtain ⟨l, v, hrow⟩ := exists_row (show i < left.size from hi)
    have hlk := (getElem?_rows_eq_some.mp hrow).1
    rw [take_succ_keys hrow] at hfree
    obtain ⟨s, j, hreach, hp⟩ := ih (Nat.le_of_succ_le hi) fun k hk =>
      hfree k (List.mem_append_left _ hk)
    have hc : (mergeApplyAsofLoop left other d compare func mode).cond s = true := by
      rw [hp.state, mergeApplyAsofLoop_cond]
      omega
    obtain ⟨s', i', j', hb, hp', hmoves⟩ := hp.step hl hr hal hcomp hc
    have hmoved := hmoves l hlk (hfree l (List.mem_append_right _ (List.mem_singleton_self l)))
    subst hmoved
    exact ⟨s', j', hreach.tail hc hb, hp'⟩

/-- All pairs of rows that a merge combines are related exactly if the keys carried to the left
keys that it comes to are. -/
theorem forall_usesRow_iff {P : K → K → Prop} (d : W) (compare : Option AsofComparator)
    (func : V → W → O) (hl : left.StrictlyIncreasing) (hr : other.StrictlyIncreasing)
    (hne : 0 < other.size) (hal : Aligned ans)
    (hcomp : AsksKeys left other (compare.getD (defaultCompare left other)) ans) :
    (∀ s, (mergeApplyAsofLoop left other d compare func mode).Reaches (.start left other) s →
      ∀ l q, UsesRow left other compare mode s l q → P l.1 q.1) ↔
    ∀ l ∈ left.keys, (∀ x ∈ left.keys, x < l → ¬ StuckAt mode ans left.keys other.keys x) →
      ∀ r c k, CursorKey left.keys other.keys l r → CandKey mode other.keys r c →
        carriedKey (ans l r c) r c = some k → P l k := by
  constructor
  · intro h l hlk hfree r c k hkey hcand hcarried
    obtain ⟨i, hi⟩ := List.mem_iff_getElem?.mp hlk
    obtain ⟨v, hrow⟩ := exists_row_of_key hi
    obtain ⟨s, j, hreach, hp⟩ := exists_reaches_of_free d func hl hr hne hal hcomp
      (lt_size_of_row hrow).le fun x hx => by
        obtain ⟨hx, hlt⟩ := (SortedKeys.mem_take_iff hl hi).mp hx
        exact hfree x hx hlt
    obtain ⟨r', hrj⟩ : ∃ r', other.keys[j]? = some r' := ⟨_, List.getElem?_eq_getElem hp.cursor.lt⟩
    obtain ⟨c', hcj⟩ : ∃ c', other.keys[candPos mode other.size j]? = some c' :=
      ⟨_, List.getElem?_eq_getElem (candPos_lt mode hp.cursor.lt)⟩
    obtain rfl := hkey.unique (hp.cursor.cursorKey hl hr hi hrj)
    obtain rfl := hcand.unique hr ⟨j, hrj, hcj⟩
    obtain ⟨w, huses⟩ := (exists_usesRow_iff hcomp s.result hrow hrj hcj).mpr hcarried
    rw [← hp.state] at huses
    exact h s hreach (l, v) (k, w) huses
  · intro h s hreach l q huses
    obtain ⟨i, j, hp⟩ := asofProgress_of_reaches hl hr hne hal hcomp hreach
    rw [hp.state] at huses
    have hrow : left.rows[i]? = some l := deref_row_iff.mp huses.1
    have hlk := (getElem?_rows_eq_some.mp (show left.rows[i]? = some (l.1, l.2) from hrow)).1
    obtain ⟨r, hrj⟩ : ∃ r, other.keys[j]? = some r := ⟨_, List.getElem?_eq_getElem hp.cursor.lt⟩
    obtain ⟨c, hcj⟩ : ∃ c, other.keys[candPos mode other.size j]? = some c :=
      ⟨_, List.getElem?_eq_getElem (candPos_lt mode hp.cursor.lt)⟩
    apply h l.1 (List.mem_of_getElem? hlk) _ r c q.1 (hp.cursor.cursorKey hl hr hlk hrj)
      ⟨j, hrj, hcj⟩
    · exact (exists_usesRow_iff hcomp s.result hrow hrj hcj).mp ⟨q.2, huses⟩
    · intro x hx hlt
      exact hp.free x ((SortedKeys.mem_take_iff hl hlk).mpr ⟨hx, hlt⟩)

end Rows

end TimeSeries

end Tspp
