import Mathlib.Data.List.Basic
import Mathlib.Data.List.Induction

/-!
# Loops over a range

A loop that visits every element of a range once is a fold with a body that may fault.
Its invariants are about the part of the range already visited: each rule takes them
from the empty prefix to the whole range, one element at a time.
-/

universe u v w x

namespace RangeLoop

variable {ε : Type u} {α : Type v} {σ : Type w} {body : σ → α → Except ε σ} {s : σ}

/-- Where a sequence of two computations succeeds, both have succeeded. -/
theorem exists_of_bind_eq_ok {β γ : Type w} {first : Except ε β} {rest : β → Except ε γ} {c : γ}
    (h : first >>= rest = .ok c) : ∃ b, first = .ok b ∧ rest b = .ok c := by
  cases first with
  | error e => cases h
  | ok b => exact ⟨b, rfl, h⟩

/-- A loop over one element more runs its body once more. -/
theorem foldlM_concat {xs : List α} {t : σ} (h : xs.foldlM body s = .ok t) (x : α) :
    (xs ++ [x]).foldlM body s = body t x := by
  rw [List.foldlM_append, h]
  exact bind_pure (body t x)

/-- What every iteration that succeeds preserves holds after a loop that succeeds. -/
theorem invariant_of_ok (I : List α → σ → Prop)
    (hstep : ∀ xs x a b, I xs a → body a x = .ok b → I (xs ++ [x]) b) {xs : List α} {t : σ}
    (h0 : I [] s) (h : xs.foldlM body s = .ok t) : I xs t := by
  induction xs using List.reverseRecOn generalizing t with
  | nil =>
    cases h
    exact h0
  | append_singleton xs x ih =>
    rw [List.foldlM_append] at h
    obtain ⟨a, hxs, hlast⟩ := exists_of_bind_eq_ok h
    exact hstep xs x a t (ih hxs) ((bind_pure (body a x)).symm.trans hlast)

/-- Where every iteration appends the key of its element or nothing, the output is a part of the
keys. -/
theorem sublist_of_ok {β : Type x} (key : α → β) (out : σ → List β)
    (hstep : ∀ x a b, body a x = .ok b → out b = out a ∨ out b = out a ++ [key x]) {xs : List α}
    {t : σ} (h0 : out s = []) (h : xs.foldlM body s = .ok t) : (out t).Sublist (xs.map key) := by
  refine invariant_of_ok (fun visited a => (out a).Sublist (visited.map key)) ?_ ?_ h
  · intro visited x a b ha hb
    rw [List.map_append]
    rcases hstep x a b hb with heq | heq
    · rw [heq]
      exact ha.trans (List.sublist_append_left _ _)
    · rw [heq]
      exact ha.append (List.Sublist.refl [key x])
  · rw [h0]
    exact List.nil_sublist _

/-- An invariant under which no iteration faults holds after the loop, which succeeds. -/
theorem exists_ok (I : List α → σ → Prop)
    (hstep : ∀ xs x a, I xs a → ∃ b, body a x = .ok b ∧ I (xs ++ [x]) b) (xs : List α)
    (h0 : I [] s) : ∃ t, xs.foldlM body s = .ok t ∧ I xs t := by
  induction xs using List.reverseRecOn with
  | nil => exact ⟨s, rfl, h0⟩
  | append_singleton xs x ih =>
    obtain ⟨a, hok, ha⟩ := ih
    obtain ⟨b, hb, hI⟩ := hstep xs x a ha
    exact ⟨b, (foldlM_concat hok x).trans hb, hI⟩

/-- A loop over a range whose body may break off: where it does, the rest is not visited. -/
def upToBreak (body : σ → α → Except ε (ForInStep σ)) : List α → σ → Except ε (ForInStep σ)
  | [], s => .ok (.yield s)
  | x :: xs, s =>
    match body s x with
    | .error e => .error e
    | .ok (.done t) => .ok (.done t)
    | .ok (.yield t) => upToBreak body xs t

/-- A loop whose body never breaks off is a fold. -/
theorem upToBreak_yield (xs : List α) (s : σ) :
    upToBreak (fun s x => (body s x).map .yield) xs s = (xs.foldlM body s).map .yield := by
  induction xs generalizing s with
  | nil => rfl
  | cons x xs ih =>
    rw [upToBreak, List.foldlM_cons]
    cases body s x with
    | error e => rfl
    | ok t => exact ih t

end RangeLoop
