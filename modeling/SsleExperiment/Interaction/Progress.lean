import SsleExperiment.Interaction.Process

/-! # How runs end

Every action takes one off the scripts, so no run is infinite and every run can
be continued until nobody can act (`Ssle.Processes.exists_stuck`). Nobody can act
exactly when both processes are over or each waits for the other
(`Ssle.Processes.stuck_iff`).
-/

namespace Ssle.Processes

variable {limit : Nat} {β ι σ τ ε : Type*}

/-- The number of actions left. -/
def Peers.work (state : Peers limit β ι σ τ ε) : Nat :=
  state.server.script.length + state.client.script.length

section Run

variable {serve : Computation limit β ι σ ε} {use : Computation limit β ι τ ε}
  {state next : Peers limit β ι σ τ ε}

/-- Every step takes one action or more off the scripts. -/
theorem Step.work_lt (step : Step serve use state next) : next.work < state.work := by
  cases step with
  | server act =>
      obtain ⟨shorter, same⟩ := act.length_script
      rw [Peers.work, Peers.work, same]
      exact Nat.add_lt_add_right shorter _
  | client act =>
      obtain ⟨shorter, same⟩ := act.length_script
      rw [Peers.work, Peers.work, same]
      exact Nat.add_lt_add_left shorter _

/-- **Termination.** No run is infinite. -/
theorem not_infinite (run : Nat → Peers limit β ι σ τ ε) :
    ¬ ∀ n, Step serve use (run n) (run (n + 1)) := by
  intro steps
  have spent : ∀ n, (run n).work + n ≤ (run 0).work := by
    intro n
    induction n with
    | zero => exact Nat.le_refl _
    | succ n ih =>
        have less := (steps n).work_lt
        omega
  have beyond := spent ((run 0).work + 1)
  omega

/-- Every run can be continued until nobody can act. -/
theorem exists_stuck (serve : Computation limit β ι σ ε) (use : Computation limit β ι τ ε)
    (state : Peers limit β ι σ τ ε) :
    ∃ last, Reachable serve use state last ∧ Stuck serve use last := by
  induction work : state.work using Nat.strong_induction_on generalizing state with
  | _ count ih =>
      by_cases stuck : Stuck serve use state
      · exact ⟨state, .refl, stuck⟩
      · rw [Stuck, not_forall] at stuck
        obtain ⟨next, step⟩ := stuck
        rw [not_not] at step
        obtain ⟨last, onward, ended⟩ := ih next.work (work ▸ step.work_lt) next rfl
        exact ⟨last, .head step onward, ended⟩

/-- Nobody is over in a deadlock. -/
theorem Deadlocked.present (deadlocked : Deadlocked state) : Present state :=
  ⟨deadlocked.2.present, deadlocked.1.present⟩

theorem Deadlocked.not_ended (deadlocked : Deadlocked state) : ¬ Ended state :=
  fun ended => deadlocked.present.1 ended.1

/-- Two processes that wait for each other are parties that do. -/
theorem Deadlocked.session (deadlocked : Deadlocked state) :
    Session.Deadlocked state.session := by
  obtain ⟨server, client⟩ := deadlocked
  exact ⟨⟨server.receiving, server.empty, rfl⟩, ⟨client.receiving, client.empty, rfl⟩⟩

/-- **Progress.** Nobody can act exactly when both processes are over or they
wait for each other. -/
theorem stuck_iff [Nonempty ι] (positive : 0 < limit) :
    Stuck serve use state ↔ Ended state ∨ Deadlocked state := by
  obtain ⟨server, client⟩ := state
  refine ⟨fun stuck => ?_, fun halted next step => ?_⟩
  · rcases exists_act positive serve server client with ended | waits | ⟨_, _, act⟩
    · rcases exists_act positive use client server with ended' | waits' | ⟨_, _, act⟩
      · exact .inl ⟨ended, ended'⟩
      · exact (waits'.present ended).elim
      · exact (stuck _ (.client act)).elim
    · rcases exists_act positive use client server with ended' | waits' | ⟨_, _, act⟩
      · exact (waits.present ended').elim
      · exact .inr ⟨waits, waits'⟩
      · exact (stuck _ (.client act)).elim
    · exact (stuck _ (.server act)).elim
  · rcases halted with ended | deadlocked
    · cases step with
      | server act => exact act.present ended.1
      | client act => exact act.present ended.2
    · cases step with
      | server act => exact deadlocked.1.not_act act
      | client act => exact deadlocked.2.not_act act

end Run

end Ssle.Processes
