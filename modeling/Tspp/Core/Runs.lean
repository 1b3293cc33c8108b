import Tspp.Core.KeyedRows
import Mathlib.Data.List.Chain

/-!
# Labelled runs

The runs of a list under a labelling are its maximal stretches of equally labelled
elements, each paired with its label, in the order of the list. They are cut off one by
one with the current run in an accumulator, as a loop with a buffer does it. There is only
one list of maximal runs, and the runs of the runs, joined together, are the runs under the
coarser labelling. Along a labelling that never decreases the labels of the runs increase,
so that equally labelled elements share a run.
-/

universe u v

namespace Runs

variable {α : Type u} {β : Type v} [DecidableEq β]

/-- The runs of `xs` behind a current run `grp` with label `k`. -/
def runsFrom (f : α → β) (k : β) (grp : List α) : List α → List (β × List α)
  | [] => [(k, grp)]
  | x :: xs =>
    if f x = k then runsFrom f k (grp ++ [x]) xs else (k, grp) :: runsFrom f (f x) [x] xs

/-- The runs of a list. -/
def runs (f : α → β) : List α → List (β × List α)
  | [] => []
  | x :: xs => runsFrom f (f x) [x] xs

variable {f : α → β} {k : β} {grp xs : List α}

/-- The elements of a run have its label. -/
theorem label_of_mem_runsFrom (hgrp : ∀ x ∈ grp, f x = k) {b : β × List α}
    (hb : b ∈ runsFrom f k grp xs) : ∀ x ∈ b.2, f x = b.1 := by
  induction xs generalizing k grp with
  | nil =>
    rw [runsFrom, List.mem_singleton] at hb
    rw [hb]
    exact hgrp
  | cons x xs ih =>
    rw [runsFrom] at hb
    split at hb
    · rename_i hx
      refine ih (fun y hy => ?_) hb
      rcases List.mem_append.mp hy with hy | hy
      · exact hgrp y hy
      · rw [List.mem_singleton.mp hy, hx]
    · rcases List.mem_cons.mp hb with rfl | hb
      · exact hgrp
      · refine ih (fun y hy => ?_) hb
        rw [List.mem_singleton.mp hy]

/-- Every element is in a run. -/
theorem exists_mem_runsFrom {x : α} (hx : x ∈ grp ++ xs) : ∃ b ∈ runsFrom f k grp xs, x ∈ b.2 := by
  induction xs generalizing k grp with
  | nil => exact ⟨(k, grp), List.mem_singleton_self _, by simpa using hx⟩
  | cons y xs ih =>
    rw [runsFrom]
    split
    · exact ih (by simpa using hx)
    · rcases List.mem_append.mp hx with hx | hx
      · exact ⟨(k, grp), List.mem_cons_self, hx⟩
      · obtain ⟨b, hb, hxb⟩ : ∃ b ∈ runsFrom f (f y) [y] xs, x ∈ b.2 := ih hx
        exact ⟨b, List.mem_cons_of_mem _ hb, hxb⟩

/-- A run consists of elements of the current run and of elements still to come. -/
theorem mem_of_mem_runsFrom {b : β × List α} (hb : b ∈ runsFrom f k grp xs) :
    ∀ x ∈ b.2, x ∈ grp ++ xs := by
  induction xs generalizing k grp with
  | nil =>
    rw [runsFrom, List.mem_singleton] at hb
    rw [hb, List.append_nil]
    exact fun x hx => hx
  | cons x xs ih =>
    rw [runsFrom] at hb
    split at hb
    · intro y hy
      have hmem := ih hb y hy
      rwa [List.append_assoc] at hmem
    · rcases List.mem_cons.mp hb with rfl | hb
      · exact fun y hy => List.mem_append_left _ hy
      · exact fun y hy => List.mem_append_right _ (ih hb y hy)

/-- The label of a run is the label of the current run or of an element still to come. -/
theorem label_mem_of_mem_runsFrom {b : β × List α} (hb : b ∈ runsFrom f k grp xs) :
    b.1 = k ∨ ∃ x ∈ xs, f x = b.1 := by
  induction xs generalizing k grp with
  | nil =>
    rw [runsFrom, List.mem_singleton] at hb
    exact Or.inl (congrArg Prod.fst hb)
  | cons x xs ih =>
    rw [runsFrom] at hb
    split at hb
    · refine (ih hb).imp_right ?_
      rintro ⟨y, hy, he⟩
      exact ⟨y, List.mem_cons_of_mem x hy, he⟩
    · rcases List.mem_cons.mp hb with rfl | hb
      · exact Or.inl rfl
      · right
        rcases ih hb with he | ⟨y, hy, he⟩
        · exact ⟨x, List.mem_cons_self, he.symm⟩
        · exact ⟨y, List.mem_cons_of_mem x hy, he⟩

/-- The elements of a run of the list have its label. -/
theorem label_of_mem_runs {b : β × List α} (hb : b ∈ runs f xs) : ∀ x ∈ b.2, f x = b.1 := by
  cases xs with
  | nil => cases hb
  | cons x xs => exact label_of_mem_runsFrom (by simp) hb

/-- The elements of a run are elements of the list. -/
theorem mem_of_mem_runs {b : β × List α} (hb : b ∈ runs f xs) : ∀ x ∈ b.2, x ∈ xs := by
  cases xs with
  | nil => cases hb
  | cons x xs => exact mem_of_mem_runsFrom hb

/-- Every element of the list is in a run. -/
theorem exists_mem_runs {x : α} (hx : x ∈ xs) : ∃ b ∈ runs f xs, x ∈ b.2 := by
  cases xs with
  | nil => cases hx
  | cons y xs => exact exists_mem_runsFrom hx

/-- The labels of the runs are the labels of the elements. -/
theorem mem_labels_iff : k ∈ (runs f xs).map Prod.fst ↔ ∃ x ∈ xs, f x = k := by
  constructor
  · intro hk
    obtain ⟨b, hb, rfl⟩ := List.mem_map.mp hk
    cases xs with
    | nil => cases hb
    | cons x xs =>
      rcases label_mem_of_mem_runsFrom hb with he | ⟨y, hy, he⟩
      · exact ⟨x, List.mem_cons_self, he.symm⟩
      · exact ⟨y, List.mem_cons_of_mem x hy, he⟩
  · rintro ⟨x, hx, rfl⟩
    obtain ⟨b, hb, hxb⟩ := exists_mem_runs (f := f) hx
    rw [label_of_mem_runs hb x hxb]
    exact List.mem_map_of_mem hb

/-- `rs` lists the maximal runs of `xs`: nonempty stretches of equally labelled elements that
make up the list, no two neighbours with one label. -/
structure MaximalRuns (f : α → β) (xs : List α) (rs : List (β × List α)) : Prop where
  flatten : (rs.map Prod.snd).flatten = xs
  nonempty : ∀ r ∈ rs, r.2 ≠ []
  label : ∀ r ∈ rs, ∀ x ∈ r.2, f x = r.1
  separated : rs.IsChain fun r s => r.1 ≠ s.1

/-- Elements with the label of the current run join it. -/
theorem runsFrom_append {ys : List α} (hys : ∀ y ∈ ys, f y = k) (grp xs : List α) :
    runsFrom f k grp (ys ++ xs) = runsFrom f k (grp ++ ys) xs := by
  induction ys generalizing grp with
  | nil => rw [List.nil_append, List.append_nil]
  | cons y ys ih =>
    have htail : ∀ z ∈ ys, f z = k := fun z hz => hys z (List.mem_cons_of_mem y hz)
    rw [List.cons_append, runsFrom, if_pos (hys y List.mem_cons_self), ih htail,
      List.append_assoc, List.singleton_append]

/-- Before an element with another label the current run ends. -/
theorem runsFrom_eq_cons (hxs : ∀ x ∈ xs.head?, k ≠ f x) (grp : List α) :
    runsFrom f k grp xs = (k, grp) :: runs f xs := by
  cases xs with
  | nil => rfl
  | cons x xs =>
    have hx : f x ≠ k := Ne.symm (hxs x rfl)
    rw [runsFrom, if_neg hx, runs]

omit [DecidableEq β] in
/-- The first element of a list has the label of its first run. -/
theorem MaximalRuns.forall_head {rs : List (β × List α)} (h : MaximalRuns f xs rs)
    (p : β → Prop) : (∀ r ∈ rs.head?, p r.1) ↔ ∀ x ∈ xs.head?, p (f x) := by
  cases rs with
  | nil =>
    obtain rfl : [] = xs := h.flatten
    simp
  | cons r rs =>
    obtain ⟨y, ys, hr⟩ := List.exists_cons_of_ne_nil (h.nonempty r List.mem_cons_self)
    have hy : f y = r.1 := h.label r List.mem_cons_self y (by rw [hr]; exact List.mem_cons_self)
    have hhead : xs.head? = some y := by
      rw [← h.flatten, List.map_cons, List.flatten_cons, hr, List.cons_append, List.head?_cons]
    simp [hhead, hy]

omit [DecidableEq β] in
theorem MaximalRuns.tail {r : β × List α} {rs : List (β × List α)}
    (h : MaximalRuns f xs (r :: rs)) : MaximalRuns f (rs.map Prod.snd).flatten rs :=
  ⟨rfl, fun s hs => h.nonempty s (List.mem_cons_of_mem r hs),
    fun s hs => h.label s (List.mem_cons_of_mem r hs), h.separated.tail⟩

omit [DecidableEq β] in
/-- There are no more runs than elements. -/
theorem MaximalRuns.length_le {rs : List (β × List α)} (h : MaximalRuns f xs rs) :
    rs.length ≤ xs.length := by
  induction rs generalizing xs with
  | nil => exact Nat.zero_le _
  | cons r rs ih =>
    have hpos := List.length_pos_of_ne_nil (h.nonempty r List.mem_cons_self)
    have hrest := ih h.tail
    rw [← h.flatten, List.map_cons, List.flatten_cons, List.length_append, List.length_cons]
    omega

/-- There is one list of maximal runs. -/
theorem MaximalRuns.eq_runs {rs : List (β × List α)} (h : MaximalRuns f xs rs) :
    rs = runs f xs := by
  induction rs generalizing xs with
  | nil => rw [← h.flatten]; rfl
  | cons r rs ih =>
    obtain ⟨y, ys, hr⟩ := List.exists_cons_of_ne_nil (h.nonempty r List.mem_cons_self)
    have hlabel := h.label r List.mem_cons_self
    rw [hr] at hlabel
    have hy : f y = r.1 := hlabel y List.mem_cons_self
    have hys : ∀ z ∈ ys, f z = r.1 := fun z hz => hlabel z (List.mem_cons_of_mem y hz)
    have hnext : ∀ x ∈ (rs.map Prod.snd).flatten.head?, r.1 ≠ f x :=
      (h.tail.forall_head (r.1 ≠ ·)).mp (List.isChain_cons.mp h.separated).1
    rw [← h.flatten, List.map_cons, List.flatten_cons, hr, List.cons_append, runs, hy,
      runsFrom_append hys, runsFrom_eq_cons hnext, ← ih h.tail, List.singleton_append, ← hr]

omit [DecidableEq β] in
/-- A run in front of maximal runs, if its label is not the label of the next element. -/
theorem MaximalRuns.cons {rs : List (β × List α)} (h : MaximalRuns f xs rs) (hne : grp ≠ [])
    (hgrp : ∀ x ∈ grp, f x = k) (hxs : ∀ x ∈ xs.head?, k ≠ f x) :
    MaximalRuns f (grp ++ xs) ((k, grp) :: rs) := by
  refine ⟨?_, ?_, ?_, ?_⟩
  · rw [List.map_cons, List.flatten_cons, h.flatten]
  · intro r hr
    rcases List.mem_cons.mp hr with rfl | hr
    · exact hne
    · exact h.nonempty r hr
  · intro r hr
    rcases List.mem_cons.mp hr with rfl | hr
    · exact hgrp
    · exact h.label r hr
  · exact List.isChain_cons.mpr ⟨(h.forall_head (k ≠ ·)).mpr hxs, h.separated⟩

theorem maximalRuns_runsFrom (hne : grp ≠ []) (hgrp : ∀ x ∈ grp, f x = k) :
    MaximalRuns f (grp ++ xs) (runsFrom f k grp xs) := by
  induction xs generalizing k grp with
  | nil =>
    have hnil : MaximalRuns f [] ([] : List (β × List α)) := ⟨rfl, by simp, by simp, .nil⟩
    exact hnil.cons hne hgrp (by simp)
  | cons x xs ih =>
    rw [runsFrom]
    split
    · rename_i hx
      have hmem : ∀ y ∈ grp ++ [x], f y = k := by
        intro y hy
        rcases List.mem_append.mp hy with hy | hy
        · exact hgrp y hy
        · rw [List.mem_singleton.mp hy, hx]
      have hrest := ih (List.append_ne_nil_of_right_ne_nil grp (List.cons_ne_nil x [])) hmem
      rwa [List.append_assoc] at hrest
    · rename_i hx
      have hrest := ih (List.cons_ne_nil x []) (k := f x) (by simp)
      refine hrest.cons hne hgrp ?_
      rintro y ⟨⟩
      exact Ne.symm hx

/-- The runs of a list are its maximal runs. -/
theorem maximalRuns_runs (f : α → β) (xs : List α) : MaximalRuns f xs (runs f xs) := by
  cases xs with
  | nil => exact ⟨rfl, by simp [runs], by simp [runs], .nil⟩
  | cons x xs => exact maximalRuns_runsFrom (List.cons_ne_nil x []) (by simp)

section Nested

universe w

variable {γ : Type w} [DecidableEq γ] {g : β → γ}

omit [DecidableEq β] [DecidableEq γ] in
/-- Maximal runs of maximal runs are, joined together, maximal runs of the elements. -/
theorem MaximalRuns.join {rs : List (β × List α)} {ss : List (γ × List (β × List α))}
    (h : MaximalRuns f xs rs) (h' : MaximalRuns (fun r => g r.1) rs ss) :
    MaximalRuns (fun x => g (f x)) xs (ss.map fun s => (s.1, (s.2.map Prod.snd).flatten)) := by
  have hmem : ∀ s ∈ ss, ∀ r ∈ s.2, r ∈ rs := by
    intro s hs r hr
    rw [← h'.flatten]
    exact List.mem_flatten_of_mem (List.mem_map_of_mem hs) hr
  refine ⟨?_, ?_, ?_, ?_⟩
  · rw [← h.flatten, ← h'.flatten, List.map_flatten, List.flatten_flatten, List.map_map,
      List.map_map, List.map_map]
    rfl
  · intro t ht
    obtain ⟨s, hs, rfl⟩ := List.mem_map.mp ht
    obtain ⟨r, rest, hr⟩ := List.exists_cons_of_ne_nil (h'.nonempty s hs)
    have hrs := hmem s hs r (by rw [hr]; exact List.mem_cons_self)
    rw [hr, List.map_cons, List.flatten_cons]
    exact List.append_ne_nil_of_left_ne_nil (h.nonempty r hrs) _
  · intro t ht x hx
    obtain ⟨s, hs, rfl⟩ := List.mem_map.mp ht
    obtain ⟨grp, hgrp, hx⟩ := List.mem_flatten.mp hx
    obtain ⟨r, hr, rfl⟩ := List.mem_map.mp hgrp
    rw [h.label r (hmem s hs r hr) x hx]
    exact h'.label s hs r hr
  · rw [List.isChain_map]
    exact h'.separated

/-- Runs of runs, joined together, are runs. -/
theorem runs_runs (f : α → β) (g : β → γ) (xs : List α) :
    ((runs (fun r => g r.1) (runs f xs)).map fun s => (s.1, (s.2.map Prod.snd).flatten)) =
      runs (fun x => g (f x)) xs :=
  ((maximalRuns_runs f xs).join (maximalRuns_runs _ _)).eq_runs

end Nested

section Map

universe w

variable {γ : Type w} (h : γ → α)

/-- Mapping the elements maps the runs behind a current run. -/
theorem runsFrom_map (k : β) (grp xs : List γ) :
    runsFrom f k (grp.map h) (xs.map h) =
      (runsFrom (fun x => f (h x)) k grp xs).map fun b => (b.1, b.2.map h) := by
  induction xs generalizing k grp with
  | nil => rfl
  | cons x xs ih =>
    rw [List.map_cons, runsFrom, runsFrom]
    by_cases hx : f (h x) = k
    · have hgrp : grp.map h ++ [h x] = (grp ++ [x]).map h := by
        rw [List.map_append, List.map_singleton]
      rw [if_pos hx, if_pos hx, hgrp, ih]
    · rw [if_neg hx, if_neg hx, List.map_cons, ← ih, List.map_singleton]

/-- Mapping the elements of a list maps its runs. -/
theorem runs_map (xs : List γ) :
    runs f (xs.map h) = (runs (fun x => f (h x)) xs).map fun b => (b.1, b.2.map h) := by
  cases xs with
  | nil => rfl
  | cons x xs => exact runsFrom_map h (f (h x)) [x] xs

end Map

section Monotone

variable {β : Type v} [LinearOrder β] {f : α → β} {k : β} {grp xs : List α}

/-- Along a labelling that never decreases the labels of the runs increase. -/
theorem runsFrom_increasing (hk : ∀ x ∈ xs, k ≤ f x) (hf : (xs.map f).Pairwise (· ≤ ·)) :
    KeyedRows.Increasing (runsFrom f k grp xs) := by
  induction xs generalizing k grp with
  | nil => exact List.pairwise_singleton _ _
  | cons x xs ih =>
    rw [List.map_cons, List.pairwise_cons] at hf
    have hxs : ∀ y ∈ xs, f x ≤ f y := fun y hy => hf.1 (f y) (List.mem_map_of_mem hy)
    rw [runsFrom]
    split
    · exact ih (fun y hy => hk y (List.mem_cons_of_mem x hy)) hf.2
    · rename_i hne
      have hlt : k < f x := lt_of_le_of_ne (hk x List.mem_cons_self) (Ne.symm hne)
      refine List.pairwise_cons.mpr ⟨fun b hb => ?_, ih hxs hf.2⟩
      rcases label_mem_of_mem_runsFrom hb with he | ⟨y, hy, he⟩
      · exact hlt.trans_eq he.symm
      · exact (hlt.trans_le (hxs y hy)).trans_eq he

/-- Along a labelling that never decreases the labels of the runs of a list increase. -/
theorem runs_increasing (hf : (xs.map f).Pairwise (· ≤ ·)) :
    KeyedRows.Increasing (runs f xs) := by
  cases xs with
  | nil => exact List.Pairwise.nil
  | cons x xs =>
    rw [List.map_cons, List.pairwise_cons] at hf
    exact runsFrom_increasing (fun y hy => hf.1 (f y) (List.mem_map_of_mem hy)) hf.2

/-- Along a labelling that never decreases equally labelled elements share a run. -/
theorem exists_common_run (hf : (xs.map f).Pairwise (· ≤ ·)) {x y : α} (hx : x ∈ xs)
    (hy : y ∈ xs) (he : f x = f y) : ∃ b ∈ runs f xs, x ∈ b.2 ∧ y ∈ b.2 := by
  obtain ⟨b, hb, hxb⟩ := exists_mem_runs (f := f) hx
  obtain ⟨c, hc, hyc⟩ := exists_mem_runs (f := f) hy
  have hkey : b.1 = c.1 := by
    rw [← label_of_mem_runs hb x hxb, ← label_of_mem_runs hc y hyc, he]
  obtain ⟨label, run⟩ := c
  obtain rfl : b.1 = label := hkey
  have hsame := (runs_increasing hf).value_unique hb hc
  exact ⟨b, hb, hxb, by rwa [hsame]⟩

/-- Along a labelling that never decreases the runs with selected labels are the runs of the
elements with these labels. -/
theorem runs_filter (hf : (xs.map f).Pairwise (· ≤ ·)) (q : β → Bool) :
    runs f (xs.filter fun x => q (f x)) = (runs f xs).filter fun b => q b.1 := by
  have h := maximalRuns_runs f xs
  refine (MaximalRuns.eq_runs ⟨?_, ?_, ?_, ?_⟩).symm
  · have hrun : ∀ b ∈ runs f xs, b.2.filter (fun x => q (f x)) = if q b.1 then b.2 else [] := by
      intro b hb
      split
      · next hq => exact List.filter_eq_self.mpr fun x hx => by rw [h.label b hb x hx, hq]
      · next hq => exact List.filter_eq_nil_iff.mpr fun x hx => by rwa [h.label b hb x hx]
    conv_rhs => rw [← h.flatten, List.filter_flatten, List.map_map, Function.comp_def,
      List.map_congr_left hrun]
    generalize runs f xs = bars
    induction bars with
    | nil => rfl
    | cons b bars ih =>
      rw [List.filter_cons, List.map_cons, List.flatten_cons, ← ih]
      split <;> rfl
  · exact fun b hb => h.nonempty b (List.mem_of_mem_filter hb)
  · exact fun b hb => h.label b (List.mem_of_mem_filter hb)
  · exact ((runs_increasing hf).sublist List.filter_sublist).isChain.imp fun _ _ hlt => hlt.ne

/-- Along a labelling that never decreases the run with a label holds all elements with it. -/
theorem mem_runs_iff (hf : (xs.map f).Pairwise (· ≤ ·)) {k : β} {grp : List α} :
    (k, grp) ∈ runs f xs ↔ grp ≠ [] ∧ grp = xs.filter fun x => f x = k := by
  have hsame : ∀ x ∈ xs.filter fun x => f x = k, f x = k :=
    fun x hx => of_decide_eq_true (List.mem_filter.mp hx).2
  have hrun : (k, grp) ∈ runs f xs ↔ (k, grp) ∈ runs f (xs.filter fun x => f x = k) := by
    rw [runs_filter hf fun l => decide (l = k), List.mem_filter, decide_eq_true_eq,
      and_iff_left rfl]
  rw [hrun]
  generalize xs.filter (fun x => f x = k) = ys at hsame ⊢
  cases ys with
  | nil =>
    rw [runs]
    constructor
    · rintro ⟨⟩
    · exact fun h => absurd h.2 h.1
  | cons y ys =>
    have hy := hsame y List.mem_cons_self
    have hys : ∀ z ∈ ys, f z = k := fun z hz => hsame z (List.mem_cons_of_mem y hz)
    have hone := runsFrom_append hys [y] []
    rw [List.append_nil] at hone
    rw [runs, hy, hone, runsFrom, List.mem_singleton, Prod.mk.injEq, and_iff_right rfl,
      List.singleton_append]
    exact ⟨fun h => ⟨h ▸ List.cons_ne_nil y ys, h⟩, fun h => h.2⟩

end Monotone

end Runs
