import Mathlib.Logic.Basic

/-! # Runs of calls that may fail

A run performs a list of calls one after the other and stops at the first that
fails. Three rules carry a fact about one call to a whole run: a property that
each call preserves (`Ssle.Runs.run_preserves`), a call of one system answered
by a call of another (`Ssle.Runs.run_simulates`), and an abstract account of
the calls that says which are permitted and is kept up to date by each of them
(`Ssle.Runs.Account.run`).
-/

namespace Ssle.Runs

variable {ε σ τ α γ : Type*}

/-- The state after performing the calls in order. -/
def run (step : σ → α → Except ε σ) (state : σ) (calls : List α) : Except ε σ :=
  calls.foldlM step state

variable {step : σ → α → Except ε σ}

@[simp] theorem run_nil (state : σ) : run step state [] = .ok state := rfl

/-- A run returns if its first call does and the run of the others does. -/
theorem run_cons_eq_ok_iff {state final : σ} {call : α} {calls : List α} :
    run step state (call :: calls) = .ok final ↔
      ∃ middle, step state call = .ok middle ∧ run step middle calls = .ok final := by
  unfold run
  rw [List.foldlM_cons]
  cases step state call with
  | error fault =>
      refine ⟨fun failed => (nomatch failed), fun reached => ?_⟩
      obtain ⟨middle, impossible, _⟩ := reached
      cases impossible
  | ok middle =>
      refine ⟨fun rest => ⟨middle, rfl, rest⟩, fun reached => ?_⟩
      obtain ⟨_, same, rest⟩ := reached
      cases same
      exact rest

/-- A run of two parts goes through a state between them. -/
theorem run_append_eq_ok_iff {state final : σ} {first second : List α} :
    run step state (first ++ second) = .ok final ↔
      ∃ middle, run step state first = .ok middle ∧ run step middle second = .ok final := by
  induction first generalizing state with
  | nil => simp
  | cons call first ih =>
      rw [List.cons_append, run_cons_eq_ok_iff]
      simp only [run_cons_eq_ok_iff, ih]
      refine ⟨fun reached => ?_, fun reached => ?_⟩
      · obtain ⟨next, performed, middle, before, after⟩ := reached
        exact ⟨middle, ⟨next, performed, before⟩, after⟩
      · obtain ⟨middle, ⟨next, performed, before⟩, after⟩ := reached
        exact ⟨next, performed, middle, before, after⟩

/-- **Invariance.** What every one of the calls preserves, the run does. -/
theorem run_preserves (holds : σ → Prop) {calls : List α}
    (kept : ∀ call ∈ calls, ∀ state next, holds state → step state call = .ok next → holds next)
    {state final : σ} (start : holds state) (performed : run step state calls = .ok final) :
    holds final := by
  induction calls generalizing state with
  | nil =>
      cases performed
      exact start
  | cons call calls ih =>
      obtain ⟨middle, stepped, rest⟩ := run_cons_eq_ok_iff.mp performed
      apply ih (fun later member => kept later (List.mem_cons_of_mem _ member)) _ rest
      exact kept call List.mem_cons_self state middle start stepped

/-- **Simulation.** If every call that returns is answered by the same call of
the other system, keeping the states related, so is every run. -/
theorem run_simulates {step' : τ → α → Except ε τ} (related : σ → τ → Prop)
    (answered : ∀ state other call next, related state other → step state call = .ok next →
      ∃ next', step' other call = .ok next' ∧ related next next')
    {calls : List α} {state final : σ} {other : τ} (start : related state other)
    (performed : run step state calls = .ok final) :
    ∃ final', run step' other calls = .ok final' ∧ related final final' := by
  induction calls generalizing state other with
  | nil =>
      cases performed
      exact ⟨other, rfl, start⟩
  | cons call calls ih =>
      obtain ⟨next, stepped, rest⟩ := run_cons_eq_ok_iff.mp performed
      obtain ⟨next', answer, relatedNext⟩ := answered state other call next start stepped
      obtain ⟨final', ended, relatedFinal⟩ := ih relatedNext rest
      exact ⟨final', run_cons_eq_ok_iff.mpr ⟨next', answer, ended⟩, relatedFinal⟩

/-- An abstract account of the calls: which are permitted, and what is known
after each of them. -/
structure Account (γ α : Type*) where
  permits : γ → α → Prop
  next : γ → α → γ

namespace Account

variable (account : Account γ α)

/-- The calls are permitted one after the other. -/
def Permits : γ → List α → Prop
  | _, [] => True
  | known, call :: calls => account.permits known call ∧ Permits (account.next known call) calls

/-- What is known after the calls. -/
def after (known : γ) (calls : List α) : γ := calls.foldl account.next known

/-- **Refinement.** If every permitted call returns and keeps what is known
true of the state, every permitted run does. -/
theorem run (holds : γ → σ → Prop)
    (kept : ∀ known state call, holds known state → account.permits known call →
      ∃ next, step state call = .ok next ∧ holds (account.next known call) next)
    {known : γ} {state : σ} {calls : List α} (start : holds known state)
    (permitted : account.Permits known calls) :
    ∃ final, Runs.run step state calls = .ok final ∧ holds (account.after known calls) final := by
  induction calls generalizing known state with
  | nil => exact ⟨state, rfl, start⟩
  | cons call calls ih =>
      obtain ⟨next, performed, holdsNext⟩ := kept known state call start permitted.1
      obtain ⟨final, ended, holdsFinal⟩ := ih holdsNext permitted.2
      exact ⟨final, run_cons_eq_ok_iff.mpr ⟨next, performed, ended⟩, holdsFinal⟩

end Account

end Ssle.Runs
