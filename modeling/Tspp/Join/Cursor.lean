import Tspp.Core.WhileLoop
import Tspp.Series.State

/-!
# Two-cursor loops

The joins are loops over a left and a right iterator that emit rows as they go. Each is
related to a function of the two row suffixes still to be read: the rows emitted so far,
followed by the value of the function, never change, and the function is undefined
exactly where the loop reads outside a series. The relation is stated iteration by
iteration; what follows for whole runs is proved once.
-/

namespace Tspp

/-- The local variables of the join loops. -/
structure JoinState (K O : Type) where
  /-- The iterator `il` over the left series. -/
  il : IteratorPair
  /-- The iterator `ir` over the right series. -/
  ir : IteratorPair
  /-- The rows emitted so far. -/
  result : TimeSeries K O
  deriving DecidableEq, Repr

variable {K V W O : Type}

/-- Both iterators at the beginning and an empty result. -/
def JoinState.start (left : TimeSeries K V) (other : TimeSeries K W) : JoinState K O :=
  ⟨left.cbegin, other.cbegin, .empty⟩

/-- A join state whose iterators stand at rows `i` and `j`. -/
def JoinState.atRows (i j : ℕ) (result : TimeSeries K O) : JoinState K O :=
  ⟨.row i, .row j, result⟩

/-- The loop `L` emits the rows that `rest` assigns to the two suffixes still to be read. -/
structure EmitsRest (L : WhileLoop Fault (JoinState K O)) (left : TimeSeries K V)
    (other : TimeSeries K W)
    (rest : List (K × V) → List (K × W) → Option (List (K × O))) : Prop where
  /-- A finished loop has nothing left to emit. -/
  done : ∀ i j res, i ≤ left.size → j ≤ other.size → L.cond (.atRows i j res) = false →
    rest (left.rows.drop i) (other.rows.drop j) = some []
  /-- An iteration faults where `rest` is undefined; otherwise it moves a cursor and takes
  the rows it emits from `rest`. -/
  step : ∀ i j res, i ≤ left.size → j ≤ other.size → L.cond (.atRows i j res) = true →
    (L.body (.atRows i j res) = .error .outOfRange ∧
      rest (left.rows.drop i) (other.rows.drop j) = none) ∨
    ∃ i' j' res', L.body (.atRows i j res) = .ok (.atRows i' j' res') ∧
      i' ≤ left.size ∧ j' ≤ other.size ∧ i + j < i' + j' ∧
      (rest (left.rows.drop i') (other.rows.drop j')).map (res'.rows ++ ·) =
        (rest (left.rows.drop i) (other.rows.drop j)).map (res.rows ++ ·)

namespace EmitsRest

variable {L : WhileLoop Fault (JoinState K O)} {left : TimeSeries K V} {other : TimeSeries K W}
  {rest : List (K × V) → List (K × W) → Option (List (K × O))}

/-- What has been emitted and what is still to come make up the whole output. -/
structure Progress (left : TimeSeries K V) (other : TimeSeries K W)
    (rest : List (K × V) → List (K × W) → Option (List (K × O)))
    (s : JoinState K O) (i j : ℕ) : Prop where
  state : s = .atRows i j s.result
  left_le : i ≤ left.size
  right_le : j ≤ other.size
  rows : (rest (left.rows.drop i) (other.rows.drop j)).map (s.result.rows ++ ·) =
    rest left.rows other.rows

theorem progress_start (left : TimeSeries K V) (other : TimeSeries K W)
    (rest : List (K × V) → List (K × W) → Option (List (K × O))) :
    Progress left other rest (.start left other) 0 0 := by
  refine ⟨rfl, Nat.zero_le _, Nat.zero_le _, ?_⟩
  simp [JoinState.start]

/-- One iteration faults where nothing is defined to come, or keeps the progress. -/
theorem Progress.step {s : JoinState K O} {i j : ℕ} (hL : EmitsRest L left other rest)
    (h : Progress left other rest s i j) (hc : L.cond s = true) :
    (L.body s = .error .outOfRange ∧ rest left.rows other.rows = none) ∨
      ∃ s' i' j', L.body s = .ok s' ∧ Progress left other rest s' i' j' ∧ i + j < i' + j' := by
  obtain ⟨hstate, hi, hj, hrows⟩ := h
  rw [hstate] at hc ⊢
  rcases hL.step i j s.result hi hj hc with ⟨he, hnone⟩ | ⟨i', j', res', hb, hi', hj', hlt, hmap⟩
  · refine Or.inl ⟨he, ?_⟩
    rw [← hrows, hnone]
    rfl
  · exact Or.inr ⟨_, i', j', hb, ⟨rfl, hi', hj', hmap.trans hrows⟩, hlt⟩

/-- The rows that the iterators have not passed. -/
def remaining (left : TimeSeries K V) (other : TimeSeries K W) (s : JoinState K O) : ℕ :=
  (left.size - s.il.first) + (other.size - s.ir.first)

theorem remaining_start (left : TimeSeries K V) (other : TimeSeries K W) :
    remaining left other (.start left other : JoinState K O) = left.size + other.size := rfl

theorem Progress.remaining_eq {s : JoinState K O} {i j : ℕ} (h : Progress left other rest s i j) :
    remaining left other s = (left.size - i) + (other.size - j) := by
  rw [h.state]
  rfl

/-- An iteration passes a row. -/
theorem Progress.remaining_lt {s s' : JoinState K O} {i j i' j' : ℕ}
    (h : Progress left other rest s i j) (h' : Progress left other rest s' i' j')
    (hlt : i + j < i' + j') : remaining left other s' < remaining left other s := by
  have hle := h'.left_le
  have hle' := h'.right_le
  rw [h.remaining_eq, h'.remaining_eq]
  omega

/-- A successful iteration keeps the progress and passes a row. -/
theorem Progress.step_of_body {s b : JoinState K O} (hL : EmitsRest L left other rest)
    (h : ∃ i j, Progress left other rest s i j) (hc : L.cond s = true) (hb : L.body s = .ok b) :
    (∃ i j, Progress left other rest b i j) ∧ remaining left other b < remaining left other s := by
  obtain ⟨i, j, h⟩ := h
  rcases h.step hL hc with ⟨he, _⟩ | ⟨s', i', j', hs', h', hlt⟩
  · cases hb.symm.trans he
  · obtain rfl : b = s' := Except.ok.inj (hb.symm.trans hs')
    exact ⟨⟨i', j', h'⟩, h.remaining_lt h' hlt⟩

/-- Where there is nothing to emit of no rows, a loop that goes on has rows to pass. -/
theorem Progress.remaining_pos {s : JoinState K O} {i j : ℕ} (hL : EmitsRest L left other rest)
    (hnil : rest [] [] = some []) (h : Progress left other rest s i j) (hc : L.cond s = true) :
    0 < remaining left other s := by
  have hle := h.left_le
  have hle' := h.right_le
  rw [h.remaining_eq]
  by_contra hzero
  have hrows := h.rows
  rw [TimeSeries.drop_size_rows (by omega), TimeSeries.drop_size_rows (by omega), hnil] at hrows
  rcases h.step hL hc with ⟨_, hnone⟩ | ⟨s', i', j', _, h', hlt⟩
  · cases hrows.trans hnone
  · have hend := h'.left_le
    have hend' := h'.right_le
    omega

/-- Within the sum of the sizes the loop has returned the rows of `rest`, or it has read
outside a series and `rest` is undefined. -/
theorem fate (hL : EmitsRest L left other rest) :
    (∃ t, L.iterate (left.size + other.size) (.start left other) = .ok t ∧
      L.cond t = false ∧ rest left.rows other.rows = some t.result.rows) ∨
    (L.Faults (.start left other) .outOfRange ∧ rest left.rows other.rows = none) := by
  have hrun := WhileLoop.iterate_variant (L := L)
    (I := fun s => ∃ i j, Progress left other rest s i j) (remaining left other)
    (by
      rintro s ⟨i, j, h⟩ hc
      rcases h.step hL hc with ⟨he, _⟩ | ⟨s', i', j', hb, h', hlt⟩
      · exact Or.inl ⟨_, he⟩
      · exact Or.inr ⟨s', hb, ⟨i', j', h'⟩, h.remaining_lt h' hlt⟩)
    (left.size + other.size) (.start left other) ⟨0, 0, progress_start left other rest⟩
    (remaining_start left other).le
  rcases hrun with ⟨t, ht, hc, i, j, hp⟩ | ⟨s, e, hreach, ⟨i, j, hp⟩, hc, he⟩
  · refine Or.inl ⟨t, ht, hc, ?_⟩
    rw [hp.state] at hc
    rw [← hp.rows, hL.done i j _ hp.left_le hp.right_le hc, Option.map_some, List.append_nil]
  · rcases hp.step hL hc with ⟨herr, hnone⟩ | ⟨s', _, _, hb, _⟩
    · exact Or.inr ⟨hreach.faults hc herr, hnone⟩
    · rw [hb] at he
      cases he

/-- Where there is nothing to emit of no rows, a read outside a series shows within the sum of the
sizes. -/
theorem iterate_eq_error (hL : EmitsRest L left other rest) (hnil : rest [] [] = some [])
    (hf : L.Faults (.start left other) .outOfRange) :
    L.iterate (left.size + other.size) (.start left other) = .error .outOfRange :=
  hf.iterate_of_variant (remaining left other) (fun _ _ h hc hb => Progress.step_of_body hL h hc hb)
    (fun _ ⟨_, _, h⟩ hc => h.remaining_pos hL hnil hc) ⟨0, 0, progress_start left other rest⟩
    (remaining_start left other).le

/-- One iteration more shows whether the loop has read outside a series. -/
theorem result_eq (hL : EmitsRest L left other rest) :
    (L.iterate (left.size + other.size + 1) (.start left other)).map JoinState.result =
      match rest left.rows other.rows with
      | some out => .ok (.ofRows out)
      | none => .error .outOfRange := by
  rcases hL.fate with ⟨t, ht, hc, hrows⟩ | ⟨hf, hnone⟩
  · rw [WhileLoop.iterate_eq_of_returns ht hc (Nat.le_succ _), hrows]
    exact congrArg Except.ok (TimeSeries.ext_rows (TimeSeries.rows_ofRows _).symm)
  · have herror := hf.iterate_of_variant (fun s => remaining left other s + 1)
      (fun s b h hc hb => (Progress.step_of_body hL h hc hb).imp_right Nat.succ_lt_succ)
      (fun s _ _ => Nat.succ_pos _) ⟨0, 0, progress_start left other rest⟩
      (Nat.succ_le_succ (remaining_start left other).le)
    rw [herror, hnone]
    rfl

/-- A returned result consists of the rows of `rest`. -/
theorem rows_of_returns (hL : EmitsRest L left other rest) {t : JoinState K O}
    (h : L.Returns (.start left other) t) : rest left.rows other.rows = some t.result.rows := by
  rcases hL.fate with ⟨t', ht', hc, hrows⟩ | ⟨hf, _⟩
  · rw [hrows, h.unique ⟨_, ht', hc⟩]
  · exact absurd hf (h.not_faults _)

/-- The loop returns exactly where `rest` is defined. -/
theorem returns_of_rows (hL : EmitsRest L left other rest) {out : List (K × O)}
    (h : rest left.rows other.rows = some out) :
    ∃ t, L.Returns (.start left other) t ∧ t.result.rows = out := by
  rcases hL.fate with ⟨t, ht, hc, hrows⟩ | ⟨_, hnone⟩
  · exact ⟨t, ⟨_, ht, hc⟩, Option.some.inj (hrows.symm.trans h)⟩
  · rw [hnone] at h
    cases h

/-- The loop reads outside a series exactly where `rest` is undefined. -/
theorem faults_iff (hL : EmitsRest L left other rest) :
    (∃ e, L.Faults (.start left other) e) ↔ rest left.rows other.rows = none := by
  rcases hL.fate with ⟨t, ht, hc, hrows⟩ | ⟨hf, hrows⟩
  · rw [hrows]
    have hret : L.Returns (.start left other) t := ⟨_, ht, hc⟩
    exact iff_of_false (fun ⟨e, he⟩ => hret.not_faults e he) (Option.some_ne_none _)
  · exact iff_of_true ⟨_, hf⟩ hrows

end EmitsRest

end Tspp
