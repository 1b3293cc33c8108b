import Mathlib.Data.List.Basic

/-!
# Runs of commands

A machine answers every command with a reply and moves on to its next state. What it is for
is said by a specification: a relation between a state, a command, a reply and a next state.
A machine whose every step is a step of the specification follows it through whole runs, as
long as each command is issued in a state that accepts it.
-/

universe u v w x

namespace CommandRuns

variable {σ : Type u} {τ : Type v} {γ : Type w} {ρ : Type x}

/-- The replies to the commands, one after another, and the state that they leave. -/
def run (step : σ → γ → ρ × σ) : σ → List γ → List ρ × σ
  | s, [] => ([], s)
  | s, c :: cs =>
    let next := step s c
    let rest := run step next.2 cs
    (next.1 :: rest.1, rest.2)

/-- Every command is issued in a state that accepts it. -/
def Accepted (step : σ → γ → ρ × σ) (accepts : σ → γ → Prop) : σ → List γ → Prop
  | _, [] => True
  | s, c :: cs => accepts s c ∧ Accepted step accepts (step s c).2 cs

/-- A run of a specification: for every command a reply and a next state that it allows. -/
inductive SpecRun (spec : τ → γ → ρ → τ → Prop) : τ → List γ → List ρ → τ → Prop
  | nil (t : τ) : SpecRun spec t [] [] t
  | cons {t u v : τ} {c : γ} {r : ρ} {cs : List γ} {rs : List ρ} (hstep : spec t c r u)
      (hrest : SpecRun spec u cs rs v) : SpecRun spec t (c :: cs) (r :: rs) v

variable {step : σ → γ → ρ × σ} {accepts : σ → γ → Prop} {spec : τ → γ → ρ → τ → Prop}

@[simp] theorem run_nil (s : σ) : run step s [] = ([], s) := rfl

@[simp] theorem run_cons (s : σ) (c : γ) (cs : List γ) : run step s (c :: cs) =
    ((step s c).1 :: (run step (step s c).2 cs).1, (run step (step s c).2 cs).2) := rfl

/-- Where a property of the next state is the property of the state together with the acceptance
of the command, it holds after a run exactly if it held before and every command was accepted. -/
theorem run_iff {P : σ → Prop} (hstep : ∀ s c, P (step s c).2 ↔ P s ∧ accepts s c) (s : σ)
    (cs : List γ) : P (run step s cs).2 ↔ P s ∧ Accepted step accepts s cs := by
  induction cs generalizing s with
  | nil => simp [Accepted]
  | cons c cs ih => rw [run_cons, ih, hstep, Accepted, and_assoc]

/-- Where every step keeps two machines related and translates the reply of one into that of the
other, so does every run. -/
theorem run_translates {ρ' : Type u} {step' : τ → γ → ρ' × τ} {R : σ → τ → Prop} {f : ρ' → ρ}
    (hstep : ∀ s t c, R s t →
      (step s c).1 = f (step' t c).1 ∧ R (step s c).2 (step' t c).2)
    {s : σ} {t : τ} (h : R s t) (cs : List γ) :
    (run step s cs).1 = (run step' t cs).1.map f ∧
      R (run step s cs).2 (run step' t cs).2 := by
  induction cs generalizing s t with
  | nil => exact ⟨rfl, h⟩
  | cons c cs ih =>
    obtain ⟨hreply, hnext⟩ := hstep s t c h
    obtain ⟨hreplies, hlast⟩ := ih hnext
    rw [run_cons, run_cons, List.map_cons, hreply, hreplies]
    exact ⟨rfl, hlast⟩

/-- A machine that takes steps of the specification takes runs of it. -/
theorem specRun_run {R : σ → τ → Prop}
    (hstep : ∀ s t c, R s t → accepts s c → ∃ u, spec t c (step s c).1 u ∧ R (step s c).2 u)
    {s : σ} {t : τ} {cs : List γ} (h : R s t) (hcs : Accepted step accepts s cs) :
    ∃ u, SpecRun spec t cs (run step s cs).1 u ∧ R (run step s cs).2 u := by
  induction cs generalizing s t with
  | nil => exact ⟨t, .nil t, h⟩
  | cons c cs ih =>
    obtain ⟨hc, hrest⟩ := hcs
    obtain ⟨m, hspec, hm⟩ := hstep s t c h hc
    obtain ⟨u, hrun, hu⟩ := ih hm hrest
    exact ⟨u, .cons hspec hrun, hu⟩

/-- A specification that determines every reply and every next state determines whole runs. -/
theorem SpecRun.unique
    (hdet : ∀ t c r r' u u', spec t c r u → spec t c r' u' → r = r' ∧ u = u') {t u u' : τ}
    {cs : List γ} {rs rs' : List ρ} (h : SpecRun spec t cs rs u)
    (h' : SpecRun spec t cs rs' u') : rs = rs' ∧ u = u' := by
  induction h generalizing rs' u' with
  | nil t =>
    cases h'
    exact ⟨rfl, rfl⟩
  | cons hstep _ ih =>
    cases h' with
    | cons hstep' hrest' =>
      obtain ⟨rfl, rfl⟩ := hdet _ _ _ _ _ _ hstep hstep'
      obtain ⟨rfl, rfl⟩ := ih hrest'
      exact ⟨rfl, rfl⟩

end CommandRuns
