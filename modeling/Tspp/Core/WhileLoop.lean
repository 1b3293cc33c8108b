import Mathlib.Data.Nat.Basic
import Mathlib.Order.Basic

/-!
# While loops with faults

A loop is a condition and a body that may fault. Its three fates are kept apart:
it returns a state whose condition fails, it faults inside the body, or it runs
forever. Nothing here knows a fuel bound: `iterate` counts iterations only so that
a run can be evaluated, and every fate is a statement about all counts.

The rules are the ones a proof about a concrete loop uses. One unfolds a single
iteration at the front of a run, one carries an invariant through every reachable
state, one turns a variant into termination, and one shows that an invariant which
keeps the condition true makes the loop run forever.
-/

universe u v

/-- A `while` loop over states `σ`: its condition and its body, which may fault. -/
structure WhileLoop (ε : Type u) (σ : Type v) where
  /-- The loop condition, tested before every iteration. -/
  cond : σ → Bool
  /-- One iteration of the body. -/
  body : σ → Except ε σ

namespace WhileLoop

variable {ε : Type u} {σ : Type v} {L : WhileLoop ε σ}

/-- The state after at most `n` iterations; the loop stops early once its condition fails. -/
def iterate (L : WhileLoop ε σ) : ℕ → σ → Except ε σ
  | 0, s => .ok s
  | n + 1, s => if L.cond s then (L.body s).bind (L.iterate n) else .ok s

/-- The loop head is visited in state `t` during the run from `s`. -/
def Reaches (L : WhileLoop ε σ) (s t : σ) : Prop := ∃ n, L.iterate n s = .ok t

/-- The run from `s` ends normally in `t`. -/
def Returns (L : WhileLoop ε σ) (s t : σ) : Prop :=
  ∃ n, L.iterate n s = .ok t ∧ L.cond t = false

/-- The run from `s` stops inside the body with fault `e`. -/
def Faults (L : WhileLoop ε σ) (s : σ) (e : ε) : Prop := ∃ n, L.iterate n s = .error e

/-- The run from `s` never ends: every number of iterations leaves the condition true. -/
def Diverges (L : WhileLoop ε σ) (s : σ) : Prop :=
  ∀ n, ∃ t, L.iterate n s = .ok t ∧ L.cond t = true

@[simp] theorem iterate_zero (s : σ) : L.iterate 0 s = .ok s := rfl

theorem iterate_succ_of_body {s t : σ} (hc : L.cond s = true) (hb : L.body s = .ok t) (n : ℕ) :
    L.iterate (n + 1) s = L.iterate n t := by
  simp only [iterate, hc, ite_true, hb, Except.bind]

theorem iterate_succ_of_error {s : σ} {e : ε} (hc : L.cond s = true) (hb : L.body s = .error e)
    (n : ℕ) : L.iterate (n + 1) s = .error e := by
  simp only [iterate, hc, ite_true, hb, Except.bind]

/-- A finished loop stays in its final state. -/
theorem iterate_of_not_cond {s : σ} (hc : L.cond s = false) (n : ℕ) : L.iterate n s = .ok s := by
  cases n with
  | zero => rfl
  | succ n => simp only [iterate, hc, Bool.false_eq_true, ite_false]

/-- Runs compose: the first `m` iterations, then `n` more. -/
theorem iterate_add (m n : ℕ) (s : σ) :
    L.iterate (m + n) s = (L.iterate m s).bind (L.iterate n) := by
  induction m generalizing s with
  | zero => simp only [Nat.zero_add, iterate_zero, Except.bind]
  | succ m ih =>
    rw [Nat.succ_add]
    cases hc : L.cond s with
    | false => simp only [iterate_of_not_cond hc, Except.bind]
    | true =>
      cases hb : L.body s with
      | error e => rw [iterate_succ_of_error hc hb, iterate_succ_of_error hc hb, Except.bind]
      | ok t => rw [iterate_succ_of_body hc hb, iterate_succ_of_body hc hb, ih]

theorem Returns.reaches {s t : σ} (h : L.Returns s t) : L.Reaches s t :=
  let ⟨n, hn, _⟩ := h
  ⟨n, hn⟩

theorem Returns.not_cond {s t : σ} (h : L.Returns s t) : L.cond t = false :=
  let ⟨_, _, hc⟩ := h
  hc

theorem Reaches.refl (s : σ) : L.Reaches s s := ⟨0, rfl⟩

/-- Whatever a longer run does once the loop has returned, it is still the returned state. -/
theorem iterate_eq_of_returns {n m : ℕ} {s t : σ} (h : L.iterate n s = .ok t)
    (hc : L.cond t = false) (hm : n ≤ m) : L.iterate m s = .ok t := by
  obtain ⟨k, rfl⟩ := Nat.exists_eq_add_of_le hm
  rw [iterate_add, h]
  exact iterate_of_not_cond hc k

/-- A loop returns at most one state. -/
theorem Returns.unique {s t t' : σ} (h : L.Returns s t) (h' : L.Returns s t') : t = t' := by
  obtain ⟨n, hn, hc⟩ := h
  obtain ⟨m, hm, hc'⟩ := h'
  have hleft := iterate_eq_of_returns hn hc (Nat.le_add_right n m)
  have hright := iterate_eq_of_returns hm hc' (Nat.le_add_left m n)
  exact Except.ok.inj (hleft.symm.trans hright)

/-- A loop that returns does not fault. -/
theorem Returns.not_faults {s t : σ} (h : L.Returns s t) (e : ε) : ¬ L.Faults s e := by
  rintro ⟨m, hm⟩
  obtain ⟨n, hn, hc⟩ := h
  have hok := iterate_eq_of_returns hn hc (Nat.le_add_right n m)
  rw [Nat.add_comm, iterate_add, hm] at hok
  cases hok

/-- A loop faults in at most one way. -/
theorem Faults.unique {s : σ} {e e' : ε} (h : L.Faults s e) (h' : L.Faults s e') : e = e' := by
  obtain ⟨n, hn⟩ := h
  obtain ⟨m, hm⟩ := h'
  have hleft := iterate_add (L := L) n m s
  have hright := iterate_add (L := L) m n s
  rw [hn] at hleft
  rw [hm, Nat.add_comm] at hright
  exact Except.error.inj (hleft.symm.trans hright)

theorem Returns.returns_iff {s t : σ} (h : L.Returns s t) (t' : σ) : L.Returns s t' ↔ t' = t :=
  ⟨fun h' => h'.unique h, fun heq => heq ▸ h⟩

theorem Faults.faults_iff {s : σ} {e : ε} (h : L.Faults s e) (e' : ε) : L.Faults s e' ↔ e' = e :=
  ⟨fun h' => h'.unique h, fun heq => heq ▸ h⟩

theorem Faults.not_returns {s : σ} {e : ε} (h : L.Faults s e) (t : σ) : ¬ L.Returns s t :=
  fun ht => ht.not_faults e h

/-- A loop that returns does not run forever. -/
theorem Returns.not_diverges {s t : σ} (h : L.Returns s t) : ¬ L.Diverges s := by
  intro hd
  obtain ⟨n, hn, hc⟩ := h
  obtain ⟨t', ht', hc'⟩ := hd n
  have he : t' = t := Except.ok.inj (ht'.symm.trans hn)
  rw [he, hc] at hc'
  cases hc'

/-- A loop that faults does not run forever. -/
theorem Faults.not_diverges {s : σ} {e : ε} (h : L.Faults s e) : ¬ L.Diverges s := by
  intro hd
  obtain ⟨n, hn⟩ := h
  obtain ⟨t, ht, _⟩ := hd n
  rw [hn] at ht
  cases ht

section Unfold

variable {s : σ}

theorem returns_of_not_cond (hc : L.cond s = false) (t : σ) : L.Returns s t ↔ t = s := by
  constructor
  · rintro ⟨n, hn, _⟩
    rw [iterate_of_not_cond hc] at hn
    exact (Except.ok.inj hn).symm
  · rintro rfl
    exact ⟨0, rfl, hc⟩

theorem faults_of_error {e : ε} (hc : L.cond s = true) (hb : L.body s = .error e) :
    L.Faults s e :=
  ⟨1, iterate_succ_of_error hc hb 0⟩

theorem not_returns_of_error {e : ε} (hc : L.cond s = true) (hb : L.body s = .error e) (t : σ) :
    ¬ L.Returns s t :=
  fun h => h.not_faults e (faults_of_error hc hb)

end Unfold

/-- A run passes through every state that the rest of it passes through. -/
theorem Reaches.head {s s' t : σ} (hc : L.cond s = true) (hb : L.body s = .ok s')
    (h : L.Reaches s' t) : L.Reaches s t :=
  let ⟨n, hn⟩ := h
  ⟨n + 1, by rw [iterate_succ_of_body hc hb, hn]⟩

/-- A run returns what the rest of it returns. -/
theorem Returns.head {s s' t : σ} (hc : L.cond s = true) (hb : L.body s = .ok s')
    (h : L.Returns s' t) : L.Returns s t :=
  let ⟨n, hn, ht⟩ := h
  ⟨n + 1, by rw [iterate_succ_of_body hc hb, hn], ht⟩

/-- A run faults as the rest of it faults. -/
theorem Faults.head {s s' : σ} {e : ε} (hc : L.cond s = true) (hb : L.body s = .ok s')
    (h : L.Faults s' e) : L.Faults s e :=
  let ⟨n, hn⟩ := h
  ⟨n + 1, by rw [iterate_succ_of_body hc hb, hn]⟩

/-- A run that reaches a state goes on to the state after its iteration. -/
theorem Reaches.tail {s t t' : σ} (h : L.Reaches s t) (hc : L.cond t = true)
    (hb : L.body t = .ok t') : L.Reaches s t' := by
  obtain ⟨n, hn⟩ := h
  refine ⟨n + 1, ?_⟩
  rw [iterate_add, hn]
  exact iterate_succ_of_body hc hb 0

/-- A reached state whose iteration faults is a fault of the whole run. -/
theorem Reaches.faults {s m : σ} {e : ε} (h : L.Reaches s m) (hc : L.cond m = true)
    (hb : L.body m = .error e) : L.Faults s e := by
  obtain ⟨n, hn⟩ := h
  refine ⟨n + 1, ?_⟩
  rw [iterate_add, hn]
  exact iterate_succ_of_error hc hb 0

/-- The states whose iterations succeed within the first `n` iterations, in order. -/
def visited (L : WhileLoop ε σ) : ℕ → σ → List σ
  | 0, _ => []
  | n + 1, s =>
    if L.cond s then
      match L.body s with
      | .ok t => s :: L.visited n t
      | .error _ => []
    else []

theorem visited_succ_of_body {s t : σ} (hc : L.cond s = true) (hb : L.body s = .ok t) (n : ℕ) :
    L.visited (n + 1) s = s :: L.visited n t := by
  simp only [visited, hc, ite_true, hb]

theorem visited_of_not_cond {s : σ} (hc : L.cond s = false) (n : ℕ) : L.visited n s = [] := by
  cases n with
  | zero => rfl
  | succ n => simp only [visited, hc, Bool.false_eq_true, ite_false]

/-- What every iteration preserves holds in every state that the loop reaches. -/
theorem Reaches.invariant {I : σ → Prop} {s t : σ} (h : L.Reaches s t) (h0 : I s)
    (hstep : ∀ a b, I a → L.cond a = true → L.body a = .ok b → I b) : I t := by
  obtain ⟨n, hn⟩ := h
  induction n generalizing s with
  | zero =>
    cases hn
    exact h0
  | succ n ih =>
    cases hc : L.cond s with
    | false =>
      rw [iterate_of_not_cond hc] at hn
      cases hn
      exact h0
    | true =>
      cases hb : L.body s with
      | error e =>
        rw [iterate_succ_of_error hc hb] at hn
        cases hn
      | ok s' =>
        rw [iterate_succ_of_body hc hb] at hn
        exact ih (hstep s s' h0 hc hb) hn

/-- An invariant under which no iteration faults rules faults out of the whole run. -/
theorem not_faults_of_invariant {I : σ → Prop} {s : σ} (h0 : I s)
    (hstep : ∀ a, I a → L.cond a = true → ∃ b, L.body a = .ok b ∧ I b) (e : ε) :
    ¬ L.Faults s e := by
  rintro ⟨n, hn⟩
  induction n generalizing s with
  | zero => cases hn
  | succ n ih =>
    cases hc : L.cond s with
    | false =>
      rw [iterate_of_not_cond hc] at hn
      cases hn
    | true =>
      obtain ⟨b, hb, hI⟩ := hstep s h0 hc
      rw [iterate_succ_of_body hc hb] at hn
      exact ih hI hn

/-- Under a variant that every successful iteration lowers, a run of that many iterations
has ended: it has returned, or an iteration on the way faulted. -/
theorem iterate_variant {I : σ → Prop} (μ : σ → ℕ)
    (hstep : ∀ a, I a → L.cond a = true →
      (∃ e, L.body a = .error e) ∨ ∃ b, L.body a = .ok b ∧ I b ∧ μ b < μ a)
    (n : ℕ) (s : σ) (h0 : I s) (hn : μ s ≤ n) :
    (∃ t, L.iterate n s = .ok t ∧ L.cond t = false ∧ I t) ∨
      ∃ a e, L.Reaches s a ∧ I a ∧ L.cond a = true ∧ L.body a = .error e := by
  induction n generalizing s with
  | zero =>
    cases hc : L.cond s with
    | false => exact Or.inl ⟨s, rfl, hc, h0⟩
    | true =>
      rcases hstep s h0 hc with ⟨e, he⟩ | ⟨b, _, _, hlt⟩
      · exact Or.inr ⟨s, e, Reaches.refl s, h0, hc, he⟩
      · omega
  | succ n ih =>
    cases hc : L.cond s with
    | false => exact Or.inl ⟨s, iterate_of_not_cond hc _, hc, h0⟩
    | true =>
      rcases hstep s h0 hc with ⟨e, he⟩ | ⟨b, hb, hI, hlt⟩
      · exact Or.inr ⟨s, e, Reaches.refl s, h0, hc, he⟩
      · rw [iterate_succ_of_body hc hb]
        rcases ih b hI (by omega) with h | ⟨a, e, hr, ha⟩
        · exact Or.inl h
        · exact Or.inr ⟨a, e, (Reaches.head hc hb hr), ha⟩

/-- Under a variant that every successful iteration lowers and that is positive as long as the
loop runs, a run of that many iterations has returned unless it has faulted. -/
theorem not_cond_of_variant {I : σ → Prop} (μ : σ → ℕ)
    (hstep : ∀ a b, I a → L.cond a = true → L.body a = .ok b → I b ∧ μ b < μ a)
    (hpos : ∀ a, I a → L.cond a = true → 0 < μ a)
    (n : ℕ) (s t : σ) (h0 : I s) (hn : μ s ≤ n) (h : L.iterate n s = .ok t) :
    L.cond t = false := by
  induction n generalizing s with
  | zero =>
    obtain rfl : s = t := Except.ok.inj h
    by_contra hc
    have hlt := hpos s h0 (eq_true_of_ne_false hc)
    omega
  | succ n ih =>
    cases hc : L.cond s with
    | false =>
      rw [iterate_of_not_cond hc] at h
      cases h
      exact hc
    | true =>
      cases hb : L.body s with
      | error e =>
        rw [iterate_succ_of_error hc hb] at h
        cases h
      | ok b =>
        rw [iterate_succ_of_body hc hb] at h
        obtain ⟨hI, hlt⟩ := hstep s b h0 hc hb
        exact ih b hI (by omega) h

/-- Under such a variant a fault shows within that many iterations. -/
theorem Faults.iterate_of_variant {I : σ → Prop} (μ : σ → ℕ)
    (hstep : ∀ a b, I a → L.cond a = true → L.body a = .ok b → I b ∧ μ b < μ a)
    (hpos : ∀ a, I a → L.cond a = true → 0 < μ a)
    {n : ℕ} {s : σ} {e : ε} (h0 : I s) (hn : μ s ≤ n) (h : L.Faults s e) :
    L.iterate n s = .error e := by
  cases hrun : L.iterate n s with
  | error e' => rw [h.unique ⟨n, hrun⟩]
  | ok t =>
    have hc := not_cond_of_variant μ hstep hpos n s t h0 hn hrun
    exact absurd h (Returns.not_faults ⟨n, hrun, hc⟩ e)

/-- A variant that every iteration lowers, none of which faults, bounds the whole run. -/
theorem iterate_variant_total {I : σ → Prop} (μ : σ → ℕ)
    (hstep : ∀ a, I a → L.cond a = true → ∃ b, L.body a = .ok b ∧ I b ∧ μ b < μ a)
    (n : ℕ) (s : σ) (h0 : I s) (hn : μ s ≤ n) :
    ∃ t, L.iterate n s = .ok t ∧ L.cond t = false ∧ I t := by
  rcases iterate_variant μ (fun a ha hc => Or.inr (hstep a ha hc)) n s h0 hn with
    h | ⟨a, e, _, ha, hc, he⟩
  · exact h
  · obtain ⟨b, hb, _⟩ := hstep a ha hc
    rw [hb] at he
    cases he

/-- An invariant that keeps the condition true makes the loop run forever. -/
theorem diverges_of_invariant {I : σ → Prop} {s : σ} (h0 : I s)
    (hcond : ∀ a, I a → L.cond a = true)
    (hstep : ∀ a, I a → ∃ b, L.body a = .ok b ∧ I b) : L.Diverges s := by
  have hrun : ∀ n a, I a → ∃ t, L.iterate n a = .ok t ∧ I t := by
    intro n
    induction n with
    | zero => exact fun a ha => ⟨a, rfl, ha⟩
    | succ n ih =>
      intro a ha
      obtain ⟨b, hb, hI⟩ := hstep a ha
      rw [iterate_succ_of_body (hcond a ha) hb]
      exact ih b hI
  intro n
  obtain ⟨t, ht, hI⟩ := hrun n s h0
  exact ⟨t, ht, hcond t hI⟩

section InStep

variable {τ : Type v} {L' : WhileLoop ε τ}

/-- Where every iteration of one loop is the image of an iteration of another, runs are. -/
theorem iterate_map (φ : σ → τ) (hcond : ∀ s, L'.cond (φ s) = L.cond s)
    (hbody : ∀ s, L'.body (φ s) = (L.body s).map φ) (n : ℕ) (s : σ) :
    L'.iterate n (φ s) = (L.iterate n s).map φ := by
  induction n generalizing s with
  | zero => rfl
  | succ n ih =>
    rw [iterate, iterate, hcond, hbody]
    split
    · cases L.body s with
      | error e => rfl
      | ok t => exact ih t
    · rfl

end InStep

section GoesOn

variable {L' : WhileLoop ε σ} {I : σ → Prop} {s t : σ} {e : ε}

/-- A loop that runs every iteration of another one comes to wherever that one comes. -/
theorem exists_iterate_of_goesOn (hstep : ∀ a b, I a → L.cond a = true → L.body a = .ok b → I b)
    (hsame : ∀ a, I a → L.cond a = true → L'.cond a = true ∧ L'.body a = L.body a) (h0 : I s)
    (n : ℕ) : ∃ m, L'.iterate m s = L.iterate n s := by
  induction n generalizing s with
  | zero => exact ⟨0, rfl⟩
  | succ n ih =>
    cases hc : L.cond s with
    | false => exact ⟨0, (iterate_of_not_cond hc _).symm⟩
    | true =>
      obtain ⟨hc', hbody⟩ := hsame s h0 hc
      cases hb : L.body s with
      | error e =>
        refine ⟨1, ?_⟩
        rw [iterate_succ_of_error hc hb, iterate_succ_of_error hc' (hbody.trans hb)]
      | ok b =>
        obtain ⟨m, hm⟩ := ih (hstep s b h0 hc hb)
        refine ⟨m + 1, ?_⟩
        rw [iterate_succ_of_body hc hb, iterate_succ_of_body hc' (hbody.trans hb), hm]

/-- As long as the other loop runs, both are in one state. -/
theorem iterate_of_goesOn (hstep : ∀ a b, I a → L.cond a = true → L.body a = .ok b → I b)
    (hsame : ∀ a, I a → L.cond a = true → L'.cond a = true ∧ L'.body a = L.body a) (h0 : I s)
    {n : ℕ} (h : L.iterate n s = .ok t) (ht : L.cond t = true) :
    L'.iterate n s = .ok t ∧ L'.cond t = true := by
  induction n generalizing s with
  | zero =>
    obtain rfl : s = t := Except.ok.inj h
    exact ⟨rfl, (hsame s h0 ht).1⟩
  | succ n ih =>
    cases hc : L.cond s with
    | false =>
      rw [iterate_of_not_cond hc] at h
      rw [← Except.ok.inj h, hc] at ht
      cases ht
    | true =>
      obtain ⟨hc', hbody⟩ := hsame s h0 hc
      cases hb : L.body s with
      | error e =>
        rw [iterate_succ_of_error hc hb] at h
        cases h
      | ok b =>
        rw [iterate_succ_of_body hc hb] at h
        rw [iterate_succ_of_body hc' (hbody.trans hb)]
        exact ih (hstep s b h0 hc hb) h

theorem Reaches.goesOn (hstep : ∀ a b, I a → L.cond a = true → L.body a = .ok b → I b)
    (hsame : ∀ a, I a → L.cond a = true → L'.cond a = true ∧ L'.body a = L.body a) (h0 : I s)
    (h : L.Reaches s t) : L'.Reaches s t := by
  obtain ⟨n, hn⟩ := h
  obtain ⟨m, hm⟩ := exists_iterate_of_goesOn hstep hsame h0 n
  exact ⟨m, hm.trans hn⟩

theorem Faults.goesOn (hstep : ∀ a b, I a → L.cond a = true → L.body a = .ok b → I b)
    (hsame : ∀ a, I a → L.cond a = true → L'.cond a = true ∧ L'.body a = L.body a) (h0 : I s)
    (h : L.Faults s e) : L'.Faults s e := by
  obtain ⟨n, hn⟩ := h
  obtain ⟨m, hm⟩ := exists_iterate_of_goesOn hstep hsame h0 n
  exact ⟨m, hm.trans hn⟩

theorem Diverges.goesOn (hstep : ∀ a b, I a → L.cond a = true → L.body a = .ok b → I b)
    (hsame : ∀ a, I a → L.cond a = true → L'.cond a = true ∧ L'.body a = L.body a) (h0 : I s)
    (h : L.Diverges s) : L'.Diverges s := by
  intro n
  obtain ⟨t, ht, hc⟩ := h n
  exact ⟨t, iterate_of_goesOn hstep hsame h0 ht hc⟩

end GoesOn

end WhileLoop
