import Tspp.Chrono.Comparators
import Tspp.Series.Incremental

/-!
# Joins of series that are continued

A join never looks at rows that it has not come to. So where rows are inserted at the end of the
left series, the joins run as before until the old rows are used up, and only then go on: what
they have emitted by then stays. The inner join can be continued on both sides; for the others
the end of the right series matters.
-/

namespace Tspp

variable {K V W O : Type}

/-- The run of `L'` is the run of `L`, and what follows it only adds rows. -/
structure Continues (L L' : WhileLoop Fault (JoinState K O)) (s : JoinState K O) : Prop where
  faults : ∀ e, L.Faults s e → L'.Faults s e
  diverges : L.Diverges s → L'.Diverges s
  reaches : ∀ t, L.Returns s t → L'.Reaches s t
  rows : ∀ t, L.Returns s t → ∀ t', L'.Reaches t t' → t.result.rows <+: t'.result.rows

/-- In `I` every iteration of `L` only adds rows. -/
def OnlyAdds (L : WhileLoop Fault (JoinState K O)) (I : JoinState K O → Prop) : Prop :=
  ∀ a b, I a → L.cond a = true → L.body a = .ok b → I b ∧ a.result.rows <+: b.result.rows

theorem continues_of_onlyAdds {L L' : WhileLoop Fault (JoinState K O)}
    {I I' : JoinState K O → Prop} {s : JoinState K O} (hL : OnlyAdds L I) (hL' : OnlyAdds L' I')
    (hsame : ∀ a, I a → L.cond a = true → L'.cond a = true ∧ L'.body a = L.body a) (h0 : I s)
    (h0' : I' s) : Continues L L' s := by
  have hstep : ∀ a b, I a → L.cond a = true → L.body a = .ok b → I b :=
    fun a b ha hc hb => (hL a b ha hc hb).1
  refine ⟨fun e he => he.goesOn hstep hsame h0, fun hd => hd.goesOn hstep hsame h0,
    fun t ht => ht.reaches.goesOn hstep hsame h0, ?_⟩
  intro t ht t' ht'
  have hinside : I' t := (ht.reaches.goesOn hstep hsame h0).invariant h0'
    fun a b ha hc hb => (hL' a b ha hc hb).1
  refine (ht'.invariant (I := fun b => I' b ∧ t.result.rows <+: b.result.rows)
    ⟨hinside, List.prefix_refl _⟩ ?_).2
  rintro a b ⟨ha, hrows⟩ hc hb
  obtain ⟨hb', hmore⟩ := hL' a b ha hc hb
  exact ⟨hb', hrows.trans hmore⟩

namespace TimeSeries

section Prefix

variable {ts ts' : TimeSeries K V} {i : ℕ}

/-- A row of a series is one of a series that continues it. -/
theorem row_of_continued (h : ts.rows <+: ts'.rows) {r : K × V} (hr : ts.rows[i]? = some r) :
    ts'.rows[i]? = some r := by
  obtain ⟨more, hmore⟩ := h
  rw [← hmore, List.getElem?_append_left (List.getElem?_eq_some_iff.mp hr).1, hr]

theorem deref_of_continued (h : ts.rows <+: ts'.rows) (hi : i < ts.size) :
    (IteratorPair.row i).deref ts'.toContainers = (IteratorPair.row i).deref ts.toContainers := by
  obtain ⟨k, v, hrow⟩ := exists_row hi
  rw [deref_row hrow, deref_row (row_of_continued h hrow)]

end Prefix

theorem prefix_foldl_insertEnd (ts : TimeSeries K V) (more : List (K × V)) :
    ts.rows <+: (more.foldl insertEnd ts).rows := by
  rw [rows_foldl_insertEnd]
  exact List.prefix_append _ _

theorem prefix_insertEnd (ts : TimeSeries K V) (r : K × V) : ts.rows <+: (ts.insertEnd r).rows := by
  rw [rows_insertEnd]
  exact List.prefix_append _ _

section Loops

variable [LinearOrder K] {left left' : TimeSeries K V} {other other' : TimeSeries K W}

/-- Both iterators stand at a row or at the end. -/
def Within (left : TimeSeries K V) (other : TimeSeries K W) (s : JoinState K O) : Prop :=
  ∃ i j, s = .atRows i j s.result ∧ i ≤ left.size ∧ j ≤ other.size

theorem crossApplyInnerLoop_onlyAdds (left : TimeSeries K V) (other : TimeSeries K W)
    (func : V → W → O) :
    OnlyAdds (crossApplyInnerLoop left other func) (Within left other) := by
  rintro a b ⟨i, j, hstate, hi, hj⟩ hc hb
  rw [hstate, crossApplyInnerLoop_cond] at hc
  obtain ⟨k, v, hl⟩ := exists_row (show i < left.size by omega)
  obtain ⟨k', w, hr⟩ := exists_row (show j < other.size by omega)
  rw [hstate, crossApplyInnerLoop_body func a.result hl hr] at hb
  obtain rfl := Except.ok.inj hb
  split
  · exact ⟨⟨i + 1, j, rfl, by omega, hj⟩, List.prefix_refl _⟩
  · split
    · exact ⟨⟨i, j + 1, rfl, hi, by omega⟩, List.prefix_refl _⟩
    · exact ⟨⟨i + 1, j + 1, rfl, by omega, by omega⟩, prefix_insertEnd _ _⟩

theorem crossApplyLeftLoop_onlyAdds (left : TimeSeries K V) (other : TimeSeries K W) (d : W)
    (func : V → W → O) :
    OnlyAdds (crossApplyLeftLoop left other d func) (Within left other) := by
  rintro a b ⟨i, j, hstate, hi, hj⟩ hc hb
  rw [hstate, crossApplyLeftLoop_cond] at hc
  obtain ⟨k, v, hl⟩ := exists_row (show i < left.size by omega)
  rcases hj.lt_or_eq with hlt | rfl
  · obtain ⟨k', w, hr⟩ := exists_row hlt
    rw [hstate, crossApplyLeftLoop_body d func a.result hl hr] at hb
    obtain rfl := Except.ok.inj hb
    split
    · exact ⟨⟨i + 1, j, rfl, by omega, hj⟩, prefix_insertEnd _ _⟩
    · split
      · split
        · exact ⟨⟨i + 1, j, rfl, by omega, hj⟩, prefix_insertEnd _ _⟩
        · exact ⟨⟨i, j + 1, rfl, hi, by omega⟩, prefix_insertEnd _ _⟩
      · exact ⟨⟨i + 1, j + 1, rfl, by omega, by omega⟩, prefix_insertEnd _ _⟩
  · rw [hstate, crossApplyLeftLoop_body_end d func a.result hl] at hb
    cases hb

/-- The inner join of continued series runs the iterations of the inner join. -/
theorem crossApplyInnerLoop_same (func : V → W → O) (hleft : left.rows <+: left'.rows)
    (hother : other.rows <+: other'.rows) (a : JoinState K O) (h : Within left other a)
    (hc : (crossApplyInnerLoop left other func).cond a = true) :
    (crossApplyInnerLoop left' other' func).cond a = true ∧
      (crossApplyInnerLoop left' other' func).body a =
        (crossApplyInnerLoop left other func).body a := by
  obtain ⟨i, j, hstate, hi, hj⟩ := h
  rw [hstate, crossApplyInnerLoop_cond] at hc
  obtain ⟨k, v, hl⟩ := exists_row (show i < left.size by omega)
  obtain ⟨k', w, hr⟩ := exists_row (show j < other.size by omega)
  have hl' := row_of_continued hleft hl
  have hr' := row_of_continued hother hr
  rw [hstate, crossApplyInnerLoop_cond, crossApplyInnerLoop_body func a.result hl hr,
    crossApplyInnerLoop_body func a.result hl' hr']
  exact ⟨⟨(lt_size_of_row hl').ne, (lt_size_of_row hr').ne⟩, rfl⟩

/-- The left join of a continued left series runs the iterations of the left join. -/
theorem crossApplyLeftLoop_same (d : W) (func : V → W → O) (hleft : left.rows <+: left'.rows)
    (a : JoinState K O) (h : Within left other a)
    (hc : (crossApplyLeftLoop left other d func).cond a = true) :
    (crossApplyLeftLoop left' other d func).cond a = true ∧
      (crossApplyLeftLoop left' other d func).body a =
        (crossApplyLeftLoop left other d func).body a := by
  obtain ⟨i, j, hstate, hi, hj⟩ := h
  rw [hstate, crossApplyLeftLoop_cond] at hc
  obtain ⟨k, v, hl⟩ := exists_row (show i < left.size by omega)
  have hl' := row_of_continued hleft hl
  rw [hstate, crossApplyLeftLoop_cond]
  refine ⟨(lt_size_of_row hl').ne, ?_⟩
  rcases hj.lt_or_eq with hlt | rfl
  · obtain ⟨k', w, hr⟩ := exists_row hlt
    rw [crossApplyLeftLoop_body d func a.result hl hr,
      crossApplyLeftLoop_body d func a.result hl' hr]
  · rw [crossApplyLeftLoop_body_end d func a.result hl,
      crossApplyLeftLoop_body_end d func a.result hl']

/-- The left iterator stands at a row or at the end, the right one at a row. -/
def AsofWithin (left : TimeSeries K V) (other : TimeSeries K W) (s : JoinState K O) : Prop :=
  ∃ i j, s = .atRows i j s.result ∧ i ≤ left.size ∧ j < other.size

/-- On the rows of the shorter left series both comparators answer alike. -/
def SameAnswers (left : TimeSeries K V) (other : TimeSeries K W) (comp comp' : AsofComparator) :
    Prop :=
  ∀ i j c, i < left.size → j < other.size → c < other.size →
    comp' (.row i) (.row j) (.row c) = comp (.row i) (.row j) (.row c)

theorem sameAnswers_defaultCompare (hleft : left.rows <+: left'.rows) (other : TimeSeries K W) :
    SameAnswers left other (defaultCompare left other) (defaultCompare left' other) := by
  intro i j c hi _ _
  simp only [defaultCompare, deref_of_continued hleft hi]

variable {d : W} {func : V → W → O} {mode : Enums.MergeAsofMode}
  {compare compare' : Option AsofComparator}

theorem mergeApplyAsofLoop_onlyAdds
    (hcomp : AnswersInside left other (compare.getD (defaultCompare left other))) :
    OnlyAdds (mergeApplyAsofLoop left other d compare func mode) (AsofWithin left other) := by
  rintro a b ⟨i, j, hstate, hi, hj⟩ hc hb
  rw [hstate, mergeApplyAsofLoop_cond] at hc
  have hlt : i < left.size := by omega
  obtain ⟨k, v, hl⟩ := exists_row hlt
  obtain ⟨k', w, hr⟩ := exists_row hj
  obtain ⟨o, p, hp, hans⟩ := hcomp i j _ hlt hj (candPos_lt mode hj)
  obtain ⟨k'', w', hq⟩ := exists_row hp
  rw [hstate, mergeApplyAsofLoop_body d func a.result hl hr hq hans] at hb
  obtain rfl := Except.ok.inj hb
  cases o with
  | lessThan => exact ⟨⟨i + 1, j, rfl, hlt, hj⟩, prefix_insertEnd _ _⟩
  | greaterThan =>
    refine ⟨⟨_, j, rfl, ?_, hj⟩, prefix_insertEnd _ _⟩
    split <;> omega
  | equal =>
    refine ⟨⟨i + 1, _, rfl, hlt, ?_⟩, prefix_insertEnd _ _⟩
    split <;> omega

/-- The merge of a continued left series runs the iterations of the merge. -/
theorem mergeApplyAsofLoop_same (hleft : left.rows <+: left'.rows)
    (hcomp : AnswersInside left other (compare.getD (defaultCompare left other)))
    (hanswers : SameAnswers left other (compare.getD (defaultCompare left other))
      (compare'.getD (defaultCompare left' other)))
    (a : JoinState K O) (h : AsofWithin left other a)
    (hc : (mergeApplyAsofLoop left other d compare func mode).cond a = true) :
    (mergeApplyAsofLoop left' other d compare' func mode).cond a = true ∧
      (mergeApplyAsofLoop left' other d compare' func mode).body a =
        (mergeApplyAsofLoop left other d compare func mode).body a := by
  obtain ⟨i, j, hstate, hi, hj⟩ := h
  rw [hstate, mergeApplyAsofLoop_cond] at hc
  have hlt : i < left.size := by omega
  obtain ⟨k, v, hl⟩ := exists_row hlt
  obtain ⟨k', w, hr⟩ := exists_row hj
  obtain ⟨o, p, hp, hans⟩ := hcomp i j _ hlt hj (candPos_lt mode hj)
  obtain ⟨k'', w', hq⟩ := exists_row hp
  have hl' := row_of_continued hleft hl
  have hans' := (hanswers i j _ hlt hj (candPos_lt mode hj)).trans hans
  rw [hstate, mergeApplyAsofLoop_cond, mergeApplyAsofLoop_body d func a.result hl hr hq hans,
    mergeApplyAsofLoop_body d func a.result hl' hr hq hans']
  exact ⟨(lt_size_of_row hl').ne, rfl⟩

omit [LinearOrder K] in
/-- Comparators that look at keys stay inside. -/
theorem AsksKeys.answersInside {comp : AsofComparator} {ans : KeyAnswer K}
    (h : left.AsksKeys other comp ans) : AnswersInside left other comp := by
  intro i j c hi hj hc
  obtain ⟨l, _, hl⟩ := exists_row hi
  obtain ⟨r, _, hr⟩ := exists_row hj
  obtain ⟨k, _, hk⟩ := exists_row hc
  have hans := h i j c l r k (getElem?_rows_eq_some.mp hl).1 (getElem?_rows_eq_some.mp hr).1
    (getElem?_rows_eq_some.mp hk).1
  refine ⟨(ans l r k).1, if (ans l r k).2 then c else j, ?_, ?_⟩
  · split
    · exact hc
    · exact hj
  · rw [hans, apply_ite IteratorPair.row]

end Loops

/-- The inner join of two continued series, and the left join and the as-of merge of a continued
left series with a right one, run as before on the old rows: they fault where they faulted, they
run on where they ran on, and where they returned they come to the same state and from there
only add rows. For the merge the right series has rows, and the comparators answer on the rows
of their series, alike on the old ones. -/
theorem joins_continue [LinearOrder K] (left left' : TimeSeries K V) (other other' : TimeSeries K W)
    (d : W) (func : V → W → O) (compare compare' : Option AsofComparator)
    (mode : Enums.MergeAsofMode) (hleft : left.rows <+: left'.rows)
    (hother : other.rows <+: other'.rows) :
    Continues (crossApplyInnerLoop left other func) (crossApplyInnerLoop left' other' func)
      (.start left other) ∧
    Continues (crossApplyLeftLoop left other d func) (crossApplyLeftLoop left' other d func)
      (.start left other) ∧
    (0 < other.size →
      AnswersInside left other (compare.getD (defaultCompare left other)) →
      AnswersInside left' other (compare'.getD (defaultCompare left' other)) →
      SameAnswers left other (compare.getD (defaultCompare left other))
        (compare'.getD (defaultCompare left' other)) →
      Continues (mergeApplyAsofLoop left other d compare func mode)
        (mergeApplyAsofLoop left' other d compare' func mode) (.start left other)) := by
  refine ⟨?_, ?_, fun hne hcomp hcomp' hanswers => ?_⟩
  · exact continues_of_onlyAdds (crossApplyInnerLoop_onlyAdds left other func)
      (crossApplyInnerLoop_onlyAdds left' other' func)
      (crossApplyInnerLoop_same func hleft hother)
      ⟨0, 0, rfl, Nat.zero_le _, Nat.zero_le _⟩ ⟨0, 0, rfl, Nat.zero_le _, Nat.zero_le _⟩
  · exact continues_of_onlyAdds (crossApplyLeftLoop_onlyAdds left other d func)
      (crossApplyLeftLoop_onlyAdds left' other d func) (crossApplyLeftLoop_same d func hleft)
      ⟨0, 0, rfl, Nat.zero_le _, Nat.zero_le _⟩ ⟨0, 0, rfl, Nat.zero_le _, Nat.zero_le _⟩
  · exact continues_of_onlyAdds (mergeApplyAsofLoop_onlyAdds hcomp)
      (mergeApplyAsofLoop_onlyAdds hcomp') (mergeApplyAsofLoop_same hleft hcomp hanswers)
      ⟨0, 0, rfl, Nat.zero_le _, hne⟩ ⟨0, 0, rfl, Nat.zero_le _, hne⟩

end TimeSeries

namespace ChronoExtensions

open TimeSeries

variable {left left' : TimeSeries ℤ V}

theorem sameAnswers_mergeAsofPrior (unit lookBack : ℤ) (hleft : left.rows <+: left'.rows)
    (other : TimeSeries ℤ W) : SameAnswers left other (mergeAsofPrior unit left other lookBack)
      (mergeAsofPrior unit left' other lookBack) := by
  intro i j c hi _ _
  simp only [mergeAsofPrior, mergeAsofFrontend, mergeAsofPriorImpl, deref_of_continued hleft hi]

theorem sameAnswers_mergeAsofFwd (unit lookFwd : ℤ) (hleft : left.rows <+: left'.rows)
    (other : TimeSeries ℤ W) : SameAnswers left other (mergeAsofFwd unit left other lookFwd)
      (mergeAsofFwd unit left' other lookFwd) := by
  intro i j c hi _ _
  simp only [mergeAsofFwd, mergeAsofFrontend, mergeAsofFwdImpl, deref_of_continued hleft hi]

/-- A row that is inserted behind the left row, under the backward comparator. -/
theorem joins_continue_prior :
    Continues
      (mergeApplyAsofLoop (.ofRows [((3000000 : ℤ), (30 : ℤ))])
        (.ofRows [((1000000 : ℤ), (5 : ℤ)), (9000000, 6)]) 0
        (some (mergeAsofPrior 1000000 (.ofRows [((3000000 : ℤ), (30 : ℤ))])
          (.ofRows [((1000000 : ℤ), (5 : ℤ)), (9000000, 6)]) 2500000)) (· + ·) .rollPrior)
      (mergeApplyAsofLoop ([(5000000, 40)].foldl insertEnd (.ofRows [(3000000, (30 : ℤ))]))
        (.ofRows [((1000000 : ℤ), (5 : ℤ)), (9000000, 6)]) 0
        (some (mergeAsofPrior 1000000
          ([(5000000, 40)].foldl insertEnd (.ofRows [(3000000, (30 : ℤ))]))
          (.ofRows [((1000000 : ℤ), (5 : ℤ)), (9000000, 6)]) 2500000)) (· + ·) .rollPrior)
      (.start (.ofRows [((3000000 : ℤ), (30 : ℤ))])
        (.ofRows [((1000000 : ℤ), (5 : ℤ)), (9000000, 6)])) := by
  have hleft := prefix_foldl_insertEnd (.ofRows [((3000000 : ℤ), (30 : ℤ))]) [(5000000, 40)]
  exact (joins_continue _ _ _ _ 0 (· + ·) _ _ .rollPrior hleft (List.prefix_refl _)).2.2 (by decide)
    (asksKeys_mergeAsofPrior 1000000 2500000 _ _).answersInside
    (asksKeys_mergeAsofPrior 1000000 2500000 _ _).answersInside
    (sameAnswers_mergeAsofPrior 1000000 2500000 hleft _)

end ChronoExtensions

end Tspp
