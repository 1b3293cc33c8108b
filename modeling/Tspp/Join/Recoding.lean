import Tspp.Chrono.Comparators
import Tspp.Join.Interweave

/-!
# Joins of recoded series

The join loops compare dates with each other and hand values to functions. So recoding the
dates of both series in a way that keeps their order, and the values in a way that the functions
respect, recodes every state of a run: iteration by iteration the loops go on, return and fault
together. The as-of comparators also measure how far dates lie apart, and so they keep only
translations of the dates apart from the values.
-/

namespace Tspp

variable {K K' V V' W W' O O' : Type}

namespace TimeSeries

/-- A series with every key and every value replaced. -/
def recode (ts : TimeSeries K V) (e : K → K') (f : V → V') : TimeSeries K' V' :=
  ⟨⟨ts.keys.map e, ts.values.map f⟩, by rw [List.length_map, List.length_map, ts.paired]⟩

section Recode

variable (e : K → K') (f : V → V') (ts : TimeSeries K V) (it : IteratorPair)

theorem deref_recode : it.deref (ts.recode e f).toContainers =
    (it.deref ts.toContainers).map (Prod.map e f) := by
  simp only [IteratorPair.deref, recode, List.getElem?_map]
  cases ts.keys[it.first]? with
  | none => rfl
  | some k => cases ts.values[it.second]? <;> rfl

theorem incr_recode : it.incr (ts.recode e f).toContainers = it.incr ts.toContainers := by
  simp [IteratorPair.incr, recode]

theorem cend_recode : (ts.recode e f).cend = ts.cend := by
  simp [cend, recode]

theorem insertEnd_recode (r : K × V) :
    (ts.recode e f).insertEnd (Prod.map e f r) = (ts.insertEnd r).recode e f := by
  simp [insertEnd, recode]

theorem candIdx_recode (mode : Enums.MergeAsofMode) :
    candIdx mode (ts.recode e f) it = candIdx mode ts it := by
  cases mode with
  | noRoll => rfl
  | rollFollowing => simp only [candIdx, cend_recode, incr_recode]
  | rollPrior => rfl

end Recode

end TimeSeries

namespace ChronoExtensions

open TimeSeries

section Translation

variable (unit d c : ℤ) (f : V → V') (g : W → W') (left : TimeSeries ℤ V)
  (other : TimeSeries ℤ W)

/-- Adding the same duration to all dates does not change what `merge_asof_prior` answers. -/
theorem mergeAsofPrior_translate :
    mergeAsofPrior unit (left.recode (· + c) f) (other.recode (· + c) g) d =
      mergeAsofPrior unit left other d := by
  ext1 itl
  ext1 itr
  ext1 itrPrior
  simp only [mergeAsofPrior, mergeAsofFrontend, mergeAsofPriorImpl, deref_recode]
  cases itl.deref left.toContainers with
  | error e => rfl
  | ok l =>
    cases itrPrior.deref other.toContainers with
    | error e => rfl
    | ok prior =>
      cases itr.deref other.toContainers with
      | error e => rfl
      | ok r => simp [Except.map, bind, Except.bind]

/-- Adding the same duration to all dates does not change what `merge_asof_fwd` answers. -/
theorem mergeAsofFwd_translate :
    mergeAsofFwd unit (left.recode (· + c) f) (other.recode (· + c) g) d =
      mergeAsofFwd unit left other d := by
  ext1 itl
  ext1 itr
  ext1 itrPeek
  simp only [mergeAsofFwd, mergeAsofFrontend, mergeAsofFwdImpl, deref_recode]
  cases itl.deref left.toContainers with
  | error e => rfl
  | ok l =>
    cases itrPeek.deref other.toContainers with
    | error e => rfl
    | ok peek =>
      cases itr.deref other.toContainers with
      | error e => rfl
      | ok r => simp [Except.map, bind, Except.bind]

end Translation

end ChronoExtensions

/-- A join state with the rows emitted so far recoded. -/
def JoinState.recode (s : JoinState K O) (e : K → K') (h : O → O') : JoinState K' O' :=
  ⟨s.il, s.ir, s.result.recode e h⟩

namespace TimeSeries

section Loops

variable [LinearOrder K] [LinearOrder K'] {e : K → K'} {f : V → V'} {g : W → W'} {h : O → O'}
  {func : V → W → O} {func' : V' → W' → O'}

theorem crossApplyInnerLoop_recode (he : StrictMono e)
    (hfunc : ∀ v w, func' (f v) (g w) = h (func v w)) (left : TimeSeries K V)
    (other : TimeSeries K W) (s : JoinState K O) :
    (crossApplyInnerLoop (left.recode e f) (other.recode e g) func').body (s.recode e h) =
      ((crossApplyInnerLoop left other func).body s).map (JoinState.recode · e h) := by
  simp only [crossApplyInnerLoop, JoinState.recode, deref_recode, incr_recode]
  cases s.il.deref left.toContainers with
  | error e => rfl
  | ok l =>
    cases s.ir.deref other.toContainers with
    | error e => rfl
    | ok r =>
      simp only [Except.map, bind, Except.bind, Prod.map_fst, he.lt_iff_lt]
      split_ifs
      · cases s.il.incr left.toContainers <;> rfl
      · cases s.ir.incr other.toContainers <;> rfl
      · cases s.il.incr left.toContainers with
        | error e => rfl
        | ok il =>
          cases s.ir.incr other.toContainers with
          | error e => rfl
          | ok ir =>
            simp only [Prod.map_snd, hfunc, pure, Except.pure, ← insertEnd_recode]
            rfl

theorem crossApplyLeftLoop_recode (he : StrictMono e)
    (hfunc : ∀ v w, func' (f v) (g w) = h (func v w)) (left : TimeSeries K V)
    (other : TimeSeries K W) (d : W) (s : JoinState K O) :
    (crossApplyLeftLoop (left.recode e f) (other.recode e g) (g d) func').body (s.recode e h) =
      ((crossApplyLeftLoop left other d func).body s).map (JoinState.recode · e h) := by
  simp only [crossApplyLeftLoop, JoinState.recode, deref_recode, incr_recode, cend_recode]
  cases s.il.deref left.toContainers with
  | error e => rfl
  | ok l =>
    cases s.ir.deref other.toContainers with
    | error e => rfl
    | ok r =>
      simp only [Except.map, bind, Except.bind, Prod.map_fst, Prod.map_snd, he.lt_iff_lt, hfunc]
      have hemit : ∀ v, (s.result.recode e h).insertEnd (e l.1, h v) =
          (s.result.insertEnd (l.1, v)).recode e h := fun v => insertEnd_recode e h _ (l.1, v)
      simp only [hemit]
      split_ifs
      · cases s.il.incr left.toContainers <;> rfl
      · cases other.cend.sub 1 with
        | error e => rfl
        | ok last =>
          simp only [pure, Except.pure]
          split_ifs
          · cases s.ir.incr other.toContainers <;> rfl
          · cases s.il.incr left.toContainers <;> rfl
      · cases s.il.incr left.toContainers with
        | error e => rfl
        | ok il => cases s.ir.incr other.toContainers <;> rfl

theorem interweaveLoop_recode (he : StrictMono e) {sel : K × V → K × V → K × V}
    {sel' : K' × V' → K' × V' → K' × V'}
    (hsel : ∀ r s, sel' (Prod.map e f r) (Prod.map e f s) = Prod.map e f (sel r s))
    (left other : TimeSeries K V) (s : JoinState K V) :
    (interweaveLoop (left.recode e f) (other.recode e f) sel').body (s.recode e f) =
      ((interweaveLoop left other sel).body s).map (JoinState.recode · e f) := by
  simp only [interweaveLoop, JoinState.recode, deref_recode, incr_recode, cend_recode]
  split_ifs
  · cases s.il.deref left.toContainers with
    | error e => rfl
    | ok l =>
      simp only [Except.map, bind, Except.bind, insertEnd_recode]
      cases s.il.incr left.toContainers <;> rfl
  · cases s.ir.deref other.toContainers with
    | error e => rfl
    | ok r =>
      simp only [Except.map, bind, Except.bind, insertEnd_recode]
      cases s.ir.incr other.toContainers <;> rfl
  · cases s.il.deref left.toContainers with
    | error e => rfl
    | ok l =>
      cases s.ir.deref other.toContainers with
      | error e => rfl
      | ok r =>
        simp only [Except.map, bind, Except.bind, Prod.map_fst, he.lt_iff_lt, hsel, gt_iff_lt,
          insertEnd_recode]
        split_ifs
        · cases s.ir.incr other.toContainers <;> rfl
        · cases s.il.incr left.toContainers <;> rfl
        · cases s.il.incr left.toContainers with
          | error e => rfl
          | ok il => cases s.ir.incr other.toContainers <;> rfl

/-- The default comparator answers on recoded series as on the series. -/
theorem defaultCompare_recode (he : StrictMono e) (f : V → V') (g : W → W')
    (left : TimeSeries K V) (other : TimeSeries K W) :
    defaultCompare (left.recode e f) (other.recode e g) = defaultCompare left other := by
  ext1 it
  ext1 o
  ext1 alt
  simp only [defaultCompare, deref_recode]
  cases it.deref left.toContainers with
  | error e => rfl
  | ok l =>
    cases o.deref other.toContainers with
    | error e => rfl
    | ok r =>
      simp only [Except.map, bind, Except.bind, Prod.map_fst, he.lt_iff_lt, gt_iff_lt]

theorem mergeApplyAsofLoop_recode (he : StrictMono e)
    (hfunc : ∀ v w, func' (f v) (g w) = h (func v w)) (left : TimeSeries K V)
    (other : TimeSeries K W) (d : W) {compare compare' : Option AsofComparator}
    (hcompare : compare'.getD (defaultCompare (left.recode e f) (other.recode e g)) =
      compare.getD (defaultCompare left other)) (mode : Enums.MergeAsofMode)
    (s : JoinState K O) :
    (mergeApplyAsofLoop (left.recode e f) (other.recode e g) (g d) compare' func' mode).body
        (s.recode e h) =
      ((mergeApplyAsofLoop left other d compare func mode).body s).map
        (JoinState.recode · e h) := by
  simp only [mergeApplyAsofLoop, JoinState.recode, deref_recode, incr_recode, cend_recode,
    candIdx_recode, hcompare]
  cases candIdx mode other s.ir with
  | error e => rfl
  | ok cand =>
    simp only [bind, Except.bind]
    cases compare.getD (defaultCompare left other) s.il s.ir cand with
    | error e => rfl
    | ok answer =>
      obtain ⟨o, it⟩ := answer
      cases s.il.deref left.toContainers with
      | error e => cases o <;> rfl
      | ok l =>
        have hemit : ∀ v, (s.result.recode e h).insertEnd (e l.1, h v) =
            (s.result.insertEnd (l.1, v)).recode e h := fun v => insertEnd_recode e h _ (l.1, v)
        cases o with
        | lessThan =>
          simp only [Except.map, Prod.map_fst, Prod.map_snd, hfunc, hemit]
          cases s.il.incr left.toContainers <;> rfl
        | greaterThan =>
          simp only [Except.map, Prod.map_fst, Prod.map_snd, hfunc, hemit]
          cases other.cend.sub 1 with
          | error e => rfl
          | ok last =>
            simp only [pure, Except.pure]
            split_ifs
            · cases s.il.incr left.toContainers <;> rfl
            · rfl
        | equal =>
          simp only [Except.map]
          cases IteratorPair.deref (if it == s.ir then s.ir else it) other.toContainers with
          | error e => rfl
          | ok q =>
            simp only [Prod.map_fst, Prod.map_snd, hfunc, hemit]
            cases s.ir.deref other.toContainers with
            | error e => rfl
            | ok r =>
              simp only [Prod.map_fst, he.injective.eq_iff]
              split_ifs
              · cases other.cend.sub 1 with
                | error e => rfl
                | ok last =>
                  simp only [pure, Except.pure]
                  split_ifs
                  · cases s.ir.incr other.toContainers with
                    | error e => rfl
                    | ok ir => cases s.il.incr left.toContainers <;> rfl
                  · cases s.il.incr left.toContainers <;> rfl
              · simp only [pure, Except.pure]
                cases s.il.incr left.toContainers <;> rfl

omit [LinearOrder K] [LinearOrder K'] in
/-- Loops whose iterations are recoded go through recoded states. -/
theorem iterate_recode {L : WhileLoop Fault (JoinState K O)}
    {L' : WhileLoop Fault (JoinState K' O')}
    (hcond : ∀ s, L'.cond (s.recode e h) = L.cond s)
    (hbody : ∀ s, L'.body (s.recode e h) = (L.body s).map (JoinState.recode · e h)) (n : ℕ)
    (left : TimeSeries K V) (other : TimeSeries K W) :
    L'.iterate n (.start (left.recode e f) (other.recode e g)) =
      (L.iterate n (.start left other)).map (JoinState.recode · e h) :=
  WhileLoop.iterate_map (JoinState.recode · e h) hcond hbody n (.start left other)

/-- Where the dates of both sides are recoded in a way that keeps their order, and the values in a
way that the functions respect, every join goes through the recoded states, iteration by
iteration: it returns the recoded result, reads past an end or runs on just as without
recoding. -/
theorem joins_recode (e : K → K') (he : StrictMono e) (f : V → V') (g : W → W') (h : O → O')
    (left : TimeSeries K V) (other : TimeSeries K W) (same : TimeSeries K V) (d : W)
    (func : V → W → O) (func' : V' → W' → O') (hfunc : ∀ v w, func' (f v) (g w) = h (func v w))
    (sel : K × V → K × V → K × V) (sel' : K' × V' → K' × V' → K' × V')
    (hsel : ∀ r s, sel' (Prod.map e f r) (Prod.map e f s) = Prod.map e f (sel r s))
    (compare compare' : Option AsofComparator)
    (hcompare : compare'.getD (defaultCompare (left.recode e f) (other.recode e g)) =
      compare.getD (defaultCompare left other)) (mode : Enums.MergeAsofMode) (n : ℕ) :
    (crossApplyInnerLoop (left.recode e f) (other.recode e g) func').iterate n
        (.start (left.recode e f) (other.recode e g)) =
      ((crossApplyInnerLoop left other func).iterate n (.start left other)).map
        (JoinState.recode · e h) ∧
    (crossApplyLeftLoop (left.recode e f) (other.recode e g) (g d) func').iterate n
        (.start (left.recode e f) (other.recode e g)) =
      ((crossApplyLeftLoop left other d func).iterate n (.start left other)).map
        (JoinState.recode · e h) ∧
    (mergeApplyAsofLoop (left.recode e f) (other.recode e g) (g d) compare' func' mode).iterate n
        (.start (left.recode e f) (other.recode e g)) =
      ((mergeApplyAsofLoop left other d compare func mode).iterate n (.start left other)).map
        (JoinState.recode · e h) ∧
    (interweaveLoop (left.recode e f) (same.recode e f) sel').iterate n
        (.start (left.recode e f) (same.recode e f)) =
      ((interweaveLoop left same sel).iterate n (.start left same)).map
        (JoinState.recode · e f) := by
  refine ⟨?_, ?_, ?_, ?_⟩
  · refine iterate_recode (fun s => ?_) (crossApplyInnerLoop_recode he hfunc left other) n left
      other
    simp only [crossApplyInnerLoop, JoinState.recode, cend_recode]
  · refine iterate_recode (fun s => ?_) (crossApplyLeftLoop_recode he hfunc left other d) n left
      other
    simp only [crossApplyLeftLoop, JoinState.recode, cend_recode]
  · refine iterate_recode (fun s => ?_)
      (mergeApplyAsofLoop_recode he hfunc left other d hcompare mode) n left other
    simp only [mergeApplyAsofLoop, JoinState.recode, cend_recode]
  · refine iterate_recode (fun s => ?_) (interweaveLoop_recode he hsel left same) n left same
    simp only [interweaveLoop, JoinState.recode, cend_recode]

end Loops

/-- A backward as-of merge with all dates 100 later and all values doubled. -/
theorem joins_recode_translated :
    (mergeApplyAsofLoop ((ofRows [((1 : ℤ), (10 : ℤ)), (5, 50)]).recode (· + 100) (2 * ·))
        ((ofRows [((2 : ℤ), (7 : ℤ)), (6, 8)]).recode (· + 100) (2 * ·)) (2 * 0)
        (some (ChronoExtensions.mergeAsofPrior 1
          ((ofRows [((1 : ℤ), (10 : ℤ)), (5, 50)]).recode (· + 100) (2 * ·))
          ((ofRows [((2 : ℤ), (7 : ℤ)), (6, 8)]).recode (· + 100) (2 * ·)) 3))
        (· + ·) .rollPrior).iterate 2
        (.start ((ofRows [((1 : ℤ), (10 : ℤ)), (5, 50)]).recode (· + 100) (2 * ·))
          ((ofRows [((2 : ℤ), (7 : ℤ)), (6, 8)]).recode (· + 100) (2 * ·))) =
      ((mergeApplyAsofLoop (ofRows [((1 : ℤ), (10 : ℤ)), (5, 50)])
        (ofRows [((2 : ℤ), (7 : ℤ)), (6, 8)]) 0
        (some (ChronoExtensions.mergeAsofPrior 1 (ofRows [((1 : ℤ), (10 : ℤ)), (5, 50)])
          (ofRows [((2 : ℤ), (7 : ℤ)), (6, 8)]) 3)) (· + ·) .rollPrior).iterate 2
        (.start (ofRows [((1 : ℤ), (10 : ℤ)), (5, 50)]) (ofRows [((2 : ℤ), (7 : ℤ)), (6, 8)]))).map
        (JoinState.recode · (· + 100) (2 * ·)) :=
  (joins_recode (· + 100) (add_left_strictMono) (2 * ·) (2 * ·) (2 * ·)
    (ofRows [((1 : ℤ), (10 : ℤ)), (5, 50)]) (ofRows [((2 : ℤ), (7 : ℤ)), (6, 8)])
    (ofRows [((2 : ℤ), (7 : ℤ)), (6, 8)]) 0 (· + ·) (· + ·) (fun v w => (mul_add 2 v w).symm)
    (fun r _ => r) (fun r _ => r) (fun _ _ => rfl)
    (some (ChronoExtensions.mergeAsofPrior 1 (ofRows [((1 : ℤ), (10 : ℤ)), (5, 50)])
      (ofRows [((2 : ℤ), (7 : ℤ)), (6, 8)]) 3)) (some _)
    (ChronoExtensions.mergeAsofPrior_translate 1 3 100 (2 * ·) (2 * ·) _ _) .rollPrior 2).2.2.1

end TimeSeries

end Tspp
