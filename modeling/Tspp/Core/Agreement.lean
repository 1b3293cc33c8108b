import Mathlib.Data.List.Forall2

/-!
# Results that agree

Two computations agree up to a relation if they fail with the same fault or return related
values. Sequences of computations that agree step by step agree, and so do loops over
related ranges whose bodies agree. A property of every pair of runs of two programs is shown
by giving the relation that their states keep.
-/

universe u v w x y z

/-- The same fault, or related values. -/
inductive Agree {ε : Type u} {α : Type v} {β : Type w} (R : α → β → Prop) :
    Except ε α → Except ε β → Prop
  | ok {a : α} {b : β} (h : R a b) : Agree R (.ok a) (.ok b)
  | error (e : ε) : Agree R (.error e) (.error e)

namespace Agree

variable {ε : Type u} {α : Type v} {β : Type w} {R : α → β → Prop}

/-- Computations that agree up to a relation agree up to every weaker one. -/
theorem mono {S : α → β → Prop} {a : Except ε α} {b : Except ε β} (h : Agree R a b)
    (hRS : ∀ a b, R a b → S a b) : Agree S a b := by
  cases h with
  | ok h => exact .ok (hRS _ _ h)
  | error e => exact .error e

/-- Agreement up to the graph of a function is an equation. -/
theorem map_eq {f : α → β} {x : Except ε α} {y : Except ε β}
    (h : Agree (fun a b => f a = b) x y) : x.map f = y := by
  cases h with
  | ok h => exact congrArg Except.ok h
  | error e => rfl

/-- What two functions read off agreeing results alike is equal. -/
theorem map_congr {γ : Type x} {f : α → γ} {g : β → γ} {a : Except ε α} {b : Except ε β}
    (h : Agree R a b) (hfg : ∀ a b, R a b → f a = g b) : a.map f = b.map g := by
  cases h with
  | ok h => exact congrArg Except.ok (hfg _ _ h)
  | error e => rfl

/-- Functions of agreeing results agree. -/
theorem map {α' : Type x} {β' : Type y} {S : α' → β' → Prop} {f : α → α'} {g : β → β'}
    {a : Except ε α} {b : Except ε β} (h : Agree R a b) (hfg : ∀ a b, R a b → S (f a) (g b)) :
    Agree S (a.map f) (b.map g) := by
  cases h with
  | ok h => exact .ok (hfg _ _ h)
  | error e => exact .error e

/-- Computations that agree one after another agree. -/
theorem bind {α' : Type v} {β' : Type w} {S : α' → β' → Prop} {a : Except ε α} {b : Except ε β}
    {f : α → Except ε α'} {g : β → Except ε β'} (h : Agree R a b)
    (hfg : ∀ a b, R a b → Agree S (f a) (g b)) : Agree S (a >>= f) (b >>= g) := by
  cases h with
  | ok h => exact hfg _ _ h
  | error e => exact .error e

/-- Loops over related ranges agree if every iteration keeps their states related. -/
theorem foldlM {σ : Type x} {τ : Type y} {S : σ → τ → Prop} {f : σ → α → Except ε σ}
    {g : τ → β → Except ε τ}
    (hstep : ∀ s t a b, S s t → R a b → Agree S (f s a) (g t b)) {as : List α} {bs : List β}
    (h : List.Forall₂ R as bs) {s : σ} {t : τ} (hst : S s t) :
    Agree S (as.foldlM f s) (bs.foldlM g t) := by
  induction h generalizing s t with
  | nil => exact .ok hst
  | cons hab _ ih =>
    rw [List.foldlM_cons, List.foldlM_cons]
    exact (hstep s t _ _ hst hab).bind fun s' t' hst' => ih hst'

end Agree
