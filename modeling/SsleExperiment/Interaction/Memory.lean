import SsleExperiment.Interaction.Process
import SsleExperiment.Math.Runs

/-! # What a process remembers

The log of a process has the inputs and reports of its receives. Replaying its
computations on them gives what it remembers, up to a fault
(`Ssle.Processes.Reachable.recorded`). What later computations leave alone is
decided by the first report (`Ssle.Processes.Recorded.view_eq`).
-/

namespace Ssle.Processes

open Session (Action)

variable {limit : Nat} {β ι σ τ ε : Type*}

section Recorded

variable (compute : Computation limit β ι σ ε) (initial : σ)

/-- One computation, and how many there have been. -/
def perform (place : Nat × σ) (entry : ι × Report limit β) : Except ε (Nat × σ) := do
  return (place.1 + 1, ← compute place.1 entry.1 entry.2 place.2)

/-- The computations on the entries of a log. -/
def replay (log : List (ι × Report limit β)) : Except ε (Nat × σ) :=
  Runs.run (perform compute) (0, initial) log

/-- What the process remembers is what it has computed, up to a fault. -/
inductive Recorded (process : Process limit β ι σ ε) : Prop
  | whole (computed : replay compute initial process.log = .ok (process.log.length, process.memory))
  | faulted {earlier : List (ι × Report limit β)} {entry : ι × Report limit β} {fault : ε}
      (ended : process.Over) (last : process.log = earlier ++ [entry])
      (computed : replay compute initial earlier = .ok (earlier.length, process.memory))
      (failed : compute earlier.length entry.1 entry.2 process.memory = .error fault)

end Recorded

section Recorded

variable {compute : Computation limit β ι σ ε} {initial : σ}
  {process process' : Process limit β ι σ ε}
  {peer peer' : Process limit β ι τ ε}

/-- A receive that computes is counted, and remembered. -/
theorem perform_of_ok {place : Nat × σ} {entry : ι × Report limit β} {memory : σ}
    (computed : compute place.1 entry.1 entry.2 place.2 = .ok memory) :
    perform compute place entry = .ok (place.1 + 1, memory) := by
  rw [perform, computed]
  rfl

/-- A performed receive has been computed. -/
theorem perform_eq_ok_iff {place place' : Nat × σ} {entry : ι × Report limit β} :
    perform compute place entry = .ok place' ↔
      place'.1 = place.1 + 1 ∧ compute place.1 entry.1 entry.2 place.2 = .ok place'.2 := by
  cases computed : compute place.1 entry.1 entry.2 place.2 with
  | ok memory =>
      rw [perform_of_ok computed, Except.ok.injEq, Except.ok.injEq, Prod.ext_iff]
      exact and_congr eq_comm Iff.rfl
  | error fault =>
      rw [perform, computed]
      exact iff_of_false nofun fun impossible => nomatch impossible.2

theorem recorded_starting (script : List (Action β)) :
    Recorded compute initial (Process.starting script initial : Process limit β ι σ ε) :=
  .whole rfl

/-- A process that is not over has computed without a fault. -/
theorem Recorded.replay_eq (recorded : Recorded compute initial process)
    (present : ¬ process.Over) :
    replay compute initial process.log = .ok (process.log.length, process.memory) := by
  cases recorded with
  | whole computed => exact computed
  | faulted ended last computed failed => exact (present ended).elim

/-- Handling a receive records it. -/
theorem Recorded.handle {input : ι} {report : Report limit β}
    (computed : replay compute initial process.log = .ok (process.log.length, process.memory)) :
    Recorded compute initial (process.handle compute input report) := by
  cases next : compute process.log.length input report process.memory with
  | ok memory =>
      rw [Process.handle_of_ok next]
      refine .whole (Runs.run_append_eq_ok_iff.mpr ⟨_, computed, ?_⟩)
      refine Runs.run_cons_eq_ok_iff.mpr ⟨_, perform_of_ok next, ?_⟩
      rw [List.length_append, List.length_singleton]
      rfl
  | error fault =>
      rw [Process.handle_of_error next]
      exact .faulted rfl rfl computed next

/-- A process that acts stays recorded. -/
theorem Act.recorded (act : Act compute process peer process' peer')
    (recorded : Recorded compute initial process) : Recorded compute initial process' := by
  have computed := recorded.replay_eq act.present
  cases act with
  | send peer => exact .whole computed
  | brokenPipe peer resets => exact .whole computed
  | receive peer input chunk => exact Recorded.handle computed
  | endOfStream peer input ended => exact Recorded.handle computed
  | reset peer input resets => exact Recorded.handle computed
  | close peer => exact .whole computed

/-- The peer of a process that acts stays recorded. -/
theorem Act.recorded_peer {compute' : Computation limit β ι τ ε} {initial' : τ}
    (act : Act compute process peer process' peer') (recorded : Recorded compute' initial' peer) :
    Recorded compute' initial' peer' := by
  obtain ⟨log, memory⟩ := act.peer_kept
  cases recorded with
  | whole computed => exact .whole (by rw [log, memory, computed])
  | faulted ended last computed failed =>
      exact .faulted (act.peer_over.mpr ended) (log.trans last) (by rw [memory, computed])
        (memory ▸ failed)

/-- **Memory.** In every run, what a process remembers follows from its log. -/
theorem Reachable.recorded {serve : Computation limit β ι σ ε} {use : Computation limit β ι τ ε}
    {initial' : τ} {script script' : List (Action β)} {state : Peers limit β ι σ τ ε}
    (reachable : Reachable serve use ⟨.starting script initial, .starting script' initial'⟩ state) :
    Recorded serve initial state.server ∧ Recorded use initial' state.client := by
  induction reachable with
  | refl => exact ⟨recorded_starting script, recorded_starting script'⟩
  | tail _ step ih =>
      cases step with
      | server act => exact ⟨act.recorded ih.1, act.recorded_peer ih.2⟩
      | client act => exact ⟨act.recorded_peer ih.1, act.recorded ih.2⟩

/-- Before its first receive, a process remembers what it started with. -/
theorem Recorded.memory_of_fresh (recorded : Recorded compute initial process)
    (fresh : process.log = []) : process.memory = initial := by
  cases recorded with
  | whole computed =>
      rw [fresh] at computed
      cases computed
      rfl
  | faulted ended last computed failed =>
      rw [fresh] at last
      exact (List.concat_ne_nil _ _ last.symm).elim

/-- What later computations leave alone is decided by the first. -/
theorem view_of_replay {γ : Type*} (view : σ → γ)
    (later : ∀ count input report memory memory',
      compute (count + 1) input report memory = .ok memory' → view memory' = view memory)
    {entry : ι × Report limit β} {rest : List (ι × Report limit β)} {place : Nat × σ}
    (computed : replay compute initial (entry :: rest) = .ok place) :
    ∃ first, compute 0 entry.1 entry.2 initial = .ok first ∧ view place.2 = view first := by
  obtain ⟨middle, performed, onward⟩ := Runs.run_cons_eq_ok_iff.mp computed
  obtain ⟨one, first⟩ := perform_eq_ok_iff.mp performed
  refine ⟨middle.2, first, ?_⟩
  have kept : 1 ≤ place.1 ∧ view place.2 = view middle.2 := by
    apply Runs.run_preserves (fun place => 1 ≤ place.1 ∧ view place.2 = view middle.2) _
      ⟨one ▸ Nat.le_refl 1, rfl⟩ onward
    intro call _ state next held performed
    obtain ⟨count, computed⟩ := perform_eq_ok_iff.mp performed
    obtain ⟨before, same⟩ := Nat.exists_eq_add_of_le' held.1
    rw [same] at computed
    exact ⟨by omega, (later _ _ _ _ _ computed).trans held.2⟩
  exact kept.2

/-- A process that is not over has accepted its first report. -/
theorem Recorded.accepted (recorded : Recorded compute initial process)
    (present : ¬ process.Over) {entry : ι × Report limit β}
    (head : process.log.head? = some entry) :
    ∃ memory, compute 0 entry.1 entry.2 initial = .ok memory := by
  obtain ⟨rest, log⟩ := List.head?_eq_some_iff.mp head
  have computed := recorded.replay_eq present
  rw [log] at computed
  obtain ⟨memory, first, -⟩ := view_of_replay (fun _ => ()) (fun _ _ _ _ _ _ => rfl) computed
  exact ⟨memory, first⟩

/-- The process remembers what it made of its first report. -/
theorem Recorded.view_eq {γ : Type*} (view : σ → γ)
    (later : ∀ count input report memory memory',
      compute (count + 1) input report memory = .ok memory' → view memory' = view memory)
    (recorded : Recorded compute initial process) {entry : ι × Report limit β}
    (head : process.log.head? = some entry) :
    (∃ memory, compute 0 entry.1 entry.2 initial = .ok memory ∧
        view process.memory = view memory) ∨
      (∃ fault, compute 0 entry.1 entry.2 initial = .error fault) ∧
        process.memory = initial := by
  obtain ⟨rest, log⟩ := List.head?_eq_some_iff.mp head
  cases recorded with
  | whole computed =>
      rw [log] at computed
      exact .inl (view_of_replay view later computed)
  | @faulted earlier last fault ended cut computed failed =>
      cases earlier with
      | nil =>
          cases computed
          rw [log] at cut
          cases cut
          exact .inr ⟨⟨fault, failed⟩, rfl⟩
      | cons first middle =>
          rw [log] at cut
          cases cut
          exact .inl (view_of_replay view later computed)

/-- If the first computation keeps what it has read in the memory, the memory
shows whether it was read, and as what. -/
theorem Recorded.view_of_map {γ δ : Type*} (view : σ → γ)
    (later : ∀ count input report memory memory',
      compute (count + 1) input report memory = .ok memory' → view memory' = view memory)
    (recorded : Recorded compute initial process) {entry : ι × Report limit β}
    (head : process.log.head? = some entry) {read : Except ε δ} {keep : δ → σ}
    (first : compute 0 entry.1 entry.2 initial = read.map keep) :
    (∃ value, read = .ok value ∧ view process.memory = view (keep value)) ∨
      (∃ fault, read = .error fault) ∧ view process.memory = view initial := by
  have shown := recorded.view_eq view later head
  rw [first] at shown
  cases read with
  | ok value =>
      obtain ⟨memory, same, kept⟩ | ⟨⟨fault, impossible⟩, -⟩ := shown
      · cases same
        exact .inl ⟨value, rfl, kept⟩
      · cases impossible
  | error fault =>
      obtain ⟨memory, impossible, -⟩ | ⟨-, same⟩ := shown
      · cases impossible
      · exact .inr ⟨⟨fault, rfl⟩, congrArg view same⟩

end Recorded

end Ssle.Processes
