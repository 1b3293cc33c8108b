import Tspp.Series.State

/-!
# Mutation under exceptions

`insert_end`, `insert_start` and copy assignment update the two containers one after the
other, and nothing takes the first update back when the second one throws. The state that a
mutation leaves behind is kept also where it throws, so that every step of a run is seen.
-/

namespace Tspp

/-- Keys and values are paired by position. -/
def Containers.Paired {K V : Type} (c : Containers K V) : Prop := c.keys.length = c.values.length

/-- A computation on the containers that may throw, and leaves a state also then. -/
abbrev Mutating (ε K V : Type) := ExceptT ε (StateM (Containers K V))

/-- The mutations of a series. -/
inductive Mutation (K V : Type)
  | insertEnd (data : K × V)
  | insertStart (data : K × V)
  /-- Copy assignment from another series, or from the series itself. -/
  | copyAssign (src : Option (TimeSeries K V))

/-- A mutation with the exceptions that its first and its second container update throw. -/
structure Attempt (ε K V : Type) where
  mutation : Mutation K V
  /-- What the container that is updated first throws. -/
  first : Option ε
  /-- What the container that is updated second throws. -/
  second : Option ε

variable {ε K V : Type}

namespace Mutating

/-- An insertion into `keys_`, or an assignment to it, which throws and leaves it as it was, or
succeeds. -/
def updateKeys (thrown : Option ε) (update : List K → List K) : Mutating ε K V Unit := do
  match thrown with
  | some e => throw e
  | none => modify fun c => { c with keys := update c.keys }

/-- An insertion into `values_`, or an assignment to it. -/
def updateValues (thrown : Option ε) (update : List V → List V) : Mutating ε K V Unit := do
  match thrown with
  | some e => throw e
  | none => modify fun c => { c with values := update c.values }

/-- `insert_end` -/
def insertEnd (data : K × V) (first second : Option ε) : Mutating ε K V Unit := do
  updateKeys first (· ++ [data.1])
  updateValues second (· ++ [data.2])

/-- `insert_start` -/
def insertStart (data : K × V) (first second : Option ε) : Mutating ε K V Unit := do
  updateKeys first (data.1 :: ·)
  updateValues second (data.2 :: ·)

/-- Copy assignment, which does nothing where the source is the series itself. -/
def copyAssign (src : Option (TimeSeries K V)) (first second : Option ε) :
    Mutating ε K V Unit := do
  match src with
  | some src =>
    updateValues first fun _ => src.values
    updateKeys second fun _ => src.keys
  | none => return

end Mutating

namespace Attempt

/-- The computation of an attempt. -/
def execute (a : Attempt ε K V) : Mutating ε K V Unit :=
  match a.mutation with
  | .insertEnd data => Mutating.insertEnd data a.first a.second
  | .insertStart data => Mutating.insertStart data a.first a.second
  | .copyAssign src => Mutating.copyAssign src a.first a.second

/-- Whether an attempt threw. -/
def result (a : Attempt ε K V) (c : Containers K V) : Except ε Unit := (a.execute.run.run c).1

/-- The containers that an attempt leaves behind. -/
def after (a : Attempt ε K V) (c : Containers K V) : Containers K V := (a.execute.run.run c).2

/-- The containers that a run of attempts leaves behind. -/
def runFrom (c : Containers K V) (as : List (Attempt ε K V)) : Containers K V :=
  as.foldl (fun c a => a.after c) c

/-- The containers are paired after the attempt, and unchanged if it threw. -/
structure Safe (a : Attempt ε K V) (c : Containers K V) : Prop where
  paired : (a.after c).Paired
  unchanged : ∀ e, a.result c = .error e → a.after c = c

/-- The second update throws after the first has changed its container. -/
def HalfDone (a : Attempt ε K V) (c : Containers K V) : Prop :=
  a.first = none ∧ a.second ≠ none ∧
    match a.mutation with
    | .insertEnd _ => True
    | .insertStart _ => True
    | .copyAssign (some src) => src.values ≠ c.values
    | .copyAssign none => False

/-- Without an exception `insert_end` is the insertion of a row. -/
theorem after_insertEnd (ts : TimeSeries K V) (data : K × V) :
    (⟨.insertEnd data, none, none⟩ : Attempt ε K V).after ts.toContainers =
      (ts.insertEnd data).toContainers := rfl

section Step

variable {c : Containers K V}

/-- An attempt whose first update throws changes nothing. -/
theorem after_of_first (mutation : Mutation K V) (e : ε) (second : Option ε) :
    (⟨mutation, some e, second⟩ : Attempt ε K V).after c = c := by
  cases mutation with
  | insertEnd data => rfl
  | insertStart data => rfl
  | copyAssign src => cases src <;> rfl

/-- An attempt in which nothing throws returns, and keeps the containers paired. -/
theorem safe_of_none (mutation : Mutation K V) (hc : c.Paired) :
    (⟨mutation, none, none⟩ : Attempt ε K V).Safe c := by
  unfold Containers.Paired at hc
  cases mutation with
  | insertEnd data =>
    refine ⟨?_, fun e he => by cases he⟩
    change (c.keys ++ [data.1]).length = (c.values ++ [data.2]).length
    rw [List.length_append, List.length_append, hc]
    rfl
  | insertStart data =>
    refine ⟨?_, fun e he => by cases he⟩
    change (data.1 :: c.keys).length = (data.2 :: c.values).length
    rw [List.length_cons, List.length_cons, hc]
  | copyAssign src =>
    cases src with
    | none => exact ⟨hc, fun _ _ => rfl⟩
    | some src => exact ⟨src.paired, fun e he => by cases he⟩

/-- An insertion whose second update throws leaves one key more than values. -/
theorem not_paired_of_insertion {keys : List K} {k : K} (hc : c.Paired)
    (hkeys : keys.length = (k :: c.keys).length) :
    ¬ (⟨keys, c.values⟩ : Containers K V).Paired := by
  intro hpaired
  have hbefore : c.keys.length = c.values.length := hc
  have hafter : keys.length = c.values.length := hpaired
  rw [hkeys, List.length_cons] at hafter
  omega

/-- A copy assignment whose second update throws is safe exactly if the first one assigned the
values that were there. -/
theorem safe_copyAssign_iff (src : TimeSeries K V) (e : ε) (hc : c.Paired) :
    (⟨.copyAssign (some src), none, some e⟩ : Attempt ε K V).Safe c ↔ src.values = c.values := by
  have hafter : (⟨.copyAssign (some src), none, some e⟩ : Attempt ε K V).after c =
      { keys := c.keys, values := src.values } := rfl
  constructor
  · intro hsafe
    have hsame := hsafe.unchanged e rfl
    rw [hafter] at hsame
    have hvalues := congrArg Containers.values hsame
    exact hvalues
  · intro hvalues
    rw [hvalues] at hafter
    exact ⟨hafter.symm ▸ hc, fun _ _ => hafter⟩

/-- From paired containers an attempt is safe exactly if it is not left half done. -/
theorem safe_iff {a : Attempt ε K V} (hc : c.Paired) : a.Safe c ↔ ¬ a.HalfDone c := by
  obtain ⟨mutation, first, second⟩ := a
  cases first with
  | some e =>
    have hafter := after_of_first (c := c) mutation e second
    constructor
    · intro _ hhalf
      cases hhalf.1
    · intro _
      exact ⟨hafter.symm ▸ hc, fun _ _ => hafter⟩
  | none =>
    cases second with
    | none => exact ⟨fun _ hhalf => hhalf.2.1 rfl, fun _ => safe_of_none mutation hc⟩
    | some e =>
      cases mutation with
      | insertEnd data =>
        have hlen : (c.keys ++ [data.1]).length = (data.1 :: c.keys).length := List.length_append
        exact ⟨fun hsafe _ => not_paired_of_insertion hc hlen hsafe.paired,
          fun hwhole => absurd ⟨rfl, Option.some_ne_none e, trivial⟩ hwhole⟩
      | insertStart data =>
        exact ⟨fun hsafe _ => not_paired_of_insertion hc rfl hsafe.paired,
          fun hwhole => absurd ⟨rfl, Option.some_ne_none e, trivial⟩ hwhole⟩
      | copyAssign src =>
        cases src with
        | none => exact ⟨fun _ hhalf => hhalf.2.2, fun _ => ⟨hc, fun _ _ => rfl⟩⟩
        | some src =>
          rw [safe_copyAssign_iff src e hc]
          constructor
          · exact fun hsame hhalf => hhalf.2.2 hsame
          · intro hwhole
            by_contra hne
            exact hwhole ⟨rfl, Option.some_ne_none e, hne⟩

end Step

section Runs

variable {c : Containers K V} {a : Attempt ε K V} {as : List (Attempt ε K V)}

/-- Every step of the run has a property in the state that it starts from. -/
def EveryStep (P : Attempt ε K V → Containers K V → Prop) (c : Containers K V)
    (as : List (Attempt ε K V)) : Prop :=
  ∀ done a rest, as = done ++ a :: rest → P a (runFrom c done)

theorem everyStep_nil {P : Attempt ε K V → Containers K V → Prop} : EveryStep P c [] := by
  intro done a rest heq
  simp at heq

/-- A property of every step is one of the first step and of every step after it. -/
theorem everyStep_cons {P : Attempt ε K V → Containers K V → Prop} :
    EveryStep P c (a :: as) ↔ P a c ∧ EveryStep P (a.after c) as := by
  constructor
  · intro h
    refine ⟨h [] a as rfl, fun done b rest heq => h (a :: done) b rest ?_⟩
    rw [heq, List.cons_append]
  · intro h done b rest heq
    cases done with
    | nil =>
      obtain ⟨rfl, rfl⟩ := List.cons.inj heq
      exact h.1
    | cons x done =>
      obtain ⟨rfl, htail⟩ := List.cons.inj heq
      exact h.2 done b rest htail

/-- Every step of the run is safe. -/
def RunSafe (c : Containers K V) (as : List (Attempt ε K V)) : Prop := EveryStep Safe c as

/-- No step of the run is left half done. -/
def NoneHalfDone (c : Containers K V) (as : List (Attempt ε K V)) : Prop :=
  EveryStep (fun a c => ¬ a.HalfDone c) c as

/-- A run from paired containers keeps them paired after every step, and leaves them unchanged
in every step that throws, exactly if none of its steps is left half done. -/
theorem runSafe_iff (c : Containers K V) (as : List (Attempt ε K V)) (hc : c.Paired) :
    RunSafe c as ↔ NoneHalfDone c as := by
  unfold RunSafe NoneHalfDone
  -- A safe step leaves paired containers, from which the rest of the run starts.
  induction as generalizing c with
  | nil => exact iff_of_true everyStep_nil everyStep_nil
  | cons a as ih =>
    rw [everyStep_cons, everyStep_cons, ← safe_iff hc]
    exact and_congr_right fun hsafe => ih _ hsafe.paired

/-- An insertion whose first update throws, and one that returns. -/
theorem runSafe_insertEnd_retried :
    RunSafe (⟨[1], [10]⟩ : Containers ℕ ℕ)
      [⟨.insertEnd (2, 20), some (), none⟩, ⟨.insertEnd (2, 20), none, none⟩] := by
  refine (runSafe_iff ⟨[1], [10]⟩ _ rfl).mpr ?_
  refine everyStep_cons.mpr ⟨fun h => Option.some_ne_none _ h.1, ?_⟩
  exact everyStep_cons.mpr ⟨fun h => h.2.1 rfl, everyStep_nil⟩

/-- An insertion whose second update throws leaves two keys and one value. -/
theorem not_runSafe_insertEnd :
    (⟨[1], [10]⟩ : Containers ℕ ℕ).Paired ∧
      ¬ RunSafe (⟨[1], [10]⟩ : Containers ℕ ℕ) [⟨.insertEnd (2, 20), none, some ()⟩] := by
  refine ⟨rfl, fun hsafe => ?_⟩
  have hpaired : (⟨[1, 2], [10]⟩ : Containers ℕ ℕ).Paired :=
    (everyStep_cons.mp hsafe).1.paired
  cases hpaired

end Runs

end Attempt

end Tspp
