import SsleExperiment.Interaction.Exchange
import SsleExperiment.Interaction.Memory
import SsleExperiment.Interaction.Progress

/-! # An exchange between two processes

The parties of an exchange are processes that compute on what they receive, and
that a computation may end. A run that cannot go on is a deadlock exactly when
both first receives have brought all they could and have been accepted
(`Ssle.Dialogue.stuck_cases`); otherwise both processes are over.
-/

namespace Ssle

open Processes
open Session (Action receives receives_send receives_receive receives_close receives_nil)

/-- An exchange, what its parties compute, and what they remember at first. -/
structure Dialogue (limit : Nat) (β ι σ τ ε : Type*) extends Exchange β where
  serve : Computation limit β ι σ ε
  use : Computation limit β ι τ ε
  serverMemory : σ
  clientMemory : τ

/-- A first report that brings a message, and is accepted. -/
structure Accepts {limit : Nat} {β ι σ ε : Type*} (compute : Computation limit β ι σ ε)
    (memory : σ) (message : List β) (entry : ι × Report limit β) : Prop where
  brings : entry.2.brings = message
  computed : ∃ memory', compute 0 entry.1 entry.2 memory = .ok memory'

namespace Dialogue

variable {limit : Nat} {β ι σ τ ε : Type*} (D : Dialogue limit β ι σ τ ε)

/-- The connected processes. -/
def start : Peers limit β ι σ τ ε :=
  ⟨.starting D.serverScript D.serverMemory, .starting D.clientScript D.clientMemory⟩

/-- The first receives so far have brought all that the peer sends first, and
have been accepted. -/
structure Agreed (state : Peers limit β ι σ τ ε) : Prop where
  server : ∀ entry, state.server.log.head? = some entry →
    Accepts D.serve D.serverMemory D.request entry
  client : ∀ entry, state.client.log.head? = some entry →
    Accepts D.use D.clientMemory D.stream entry

/-- Both first receives have. -/
structure Settled (state : Peers limit β ι σ τ ε) : Prop where
  server : ∃ entry, state.server.log.head? = some entry ∧
    Accepts D.serve D.serverMemory D.request entry
  client : ∃ entry, state.client.log.head? = some entry ∧
    Accepts D.use D.clientMemory D.stream entry

variable {D} {state : Peers limit β ι σ τ ε}

theorem Settled.agreed (settled : D.Settled state) : D.Agreed state := by
  obtain ⟨⟨entry, head, accepts⟩, ⟨entry', head', accepts'⟩⟩ := settled
  exact ⟨fun other same => Option.some.inj (head.symm.trans same) ▸ accepts,
    fun other same => Option.some.inj (head'.symm.trans same) ▸ accepts'⟩

/-- The first entry of a log does not change any more. -/
theorem head?_of_grows {α : Type*} {log later : List α} {entry : α} (grows : log <+: later)
    (head : log.head? = some entry) : later.head? = some entry :=
  List.singleton_prefix_iff_head?_eq_some.mp
    ((List.singleton_prefix_iff_head?_eq_some.mpr head).trans grows)

/-- Parties that agree have agreed before. -/
theorem Agreed.of_prefix {later : Peers limit β ι σ τ ε} (agreed : D.Agreed later)
    (server : state.server.log <+: later.server.log)
    (client : state.client.log <+: later.client.log) : D.Agreed state where
  server entry head := agreed.server entry (head?_of_grows server head)
  client entry head := agreed.client entry (head?_of_grows client head)

theorem start_present : Present D.start := ⟨List.cons_ne_nil _ _, List.cons_ne_nil _ _⟩

/-- While neither process is over, the parties are midway in the exchange. -/
theorem midway (reachable : Reachable D.serve D.use D.start state) (present : Present state) :
    Exchange.Midway D.toExchange limit state.session :=
  Exchange.midway_of_reachable (reachable.session present)

/-! ## How a dialogue ends -/

/-- A process that accepts its first report and then waits is not over after its
next action, and has received at most once. -/
theorem present_of_act {compute : Computation limit β ι σ ε} {initial : σ}
    {process process' : Process limit β ι σ ε} {peer peer' : Process limit β ι τ ε}
    (act : Act compute process peer process' peer') (other : ¬ peer.Over)
    (recorded : Recorded compute initial process)
    (counted : process.log.length + receives process.script = 2)
    (last : ∀ rest, process.script = .close :: rest → rest = [])
    (few : process.log.length ≤ 1) (waits : ∀ entry, process.log = [entry] → process.inbox = [])
    (accepted : ∀ entry, process'.log.head? = some entry →
      ∃ memory, compute 0 entry.1 entry.2 initial = .ok memory) :
    ¬ process'.Over ∧ process'.log.length ≤ 1 := by
  have some {script : List (Action β)} (more : receives script ≠ 0) : script ≠ [] := by
    rintro rfl
    exact more rfl
  cases act with
  | @send bytes rest inbox log memory stopped peer =>
      have small : log.length ≤ 1 := few
      have count : log.length + receives rest = 2 := by simpa using counted
      refine ⟨some ?_, few⟩
      change receives rest ≠ 0
      omega
  | brokenPipe peer resets => exact (other resets.1).elim
  | @receive rest remaining log memory stopped peer input chunk =>
      match log, few with
      | [], few =>
          obtain ⟨memory', computed⟩ := accepted (input, .bytes chunk) (by simp)
          have same : memory = initial := recorded.memory_of_fresh rfl
          subst same
          rw [Process.handle_of_ok computed]
          refine ⟨some ?_, Nat.le_refl 1⟩
          rw [receives_receive, List.length_nil] at counted
          change receives rest ≠ 0
          omega
      | [entry], few => exact (chunk.nonempty (List.append_eq_nil_iff.mp (waits entry rfl)).1).elim
  | endOfStream peer input ended => exact (other ended).elim
  | reset peer input resets => exact (other resets.1).elim
  | @close rest inbox log memory stopped peer =>
      have small : log.length ≤ 1 := few
      have count : log.length = 2 := by simpa [last rest rfl] using counted
      omega

/-- A party with one report has taken the message if it accepts. -/
theorem eq_of_log {process : Process limit β ι σ ε} {compute : Computation limit β ι σ ε}
    {memory : σ} {message : List β} {entry : ι × Report limit β} (one : process.log = [entry])
    (accepts : ∀ entry, process.log.head? = some entry → Accepts compute memory message entry) :
    process.party.taken = [message] := by
  have brings := (accepts entry (by rw [one]; rfl)).brings
  rw [Process.party, one, List.map_singleton, brings]

/-- Once both first receives have brought all they could, nobody receives a
second time: the server would have to take the acknowledgement, and the client a
byte that nobody sends. -/
theorem few_of_agreed (reachable : Reachable D.serve D.use D.start state)
    (agreed : D.Agreed state) :
    Present state ∧ state.server.log.length ≤ 1 ∧ state.client.log.length ≤ 1 := by
  induction reachable with
  | refl => exact ⟨start_present, Nat.zero_le 1, Nat.zero_le 1⟩
  | @tail middle next before step ih =>
      have grows := Reachable.log_prefix (.single step)
      have earlier := agreed.of_prefix grows.1 grows.2
      obtain ⟨present, few, few'⟩ := ih earlier
      obtain ⟨recorded, recorded'⟩ := Reachable.recorded before
      have midway := midway before present
      cases step with
      | @server server client server' client' act =>
          have kept := act.peer_kept.1
          have stays := present_of_act act present.2 recorded
            (by simpa [Process.party, Peers.session] using midway.server_receives)
            (fun rest close => D.eq_nil_of_server_closing (close ▸ midway.server.suffix)) few
            (fun entry one => midway.server_waits (eq_of_log one earlier.server)
              (by simpa [Process.party, Peers.session] using few'))
            (fun entry head => (agreed.server entry head).computed)
          exact ⟨⟨stays.1, mt act.peer_over.mp present.2⟩, stays.2, kept ▸ few'⟩
      | @client server client server' client' act =>
          have kept := act.peer_kept.1
          have stays := present_of_act act present.1 recorded'
            (by simpa [Process.party, Peers.session] using midway.client_receives)
            (fun rest close => D.eq_nil_of_client_closing (close ▸ midway.client.suffix)) few'
            (fun entry one => midway.client_waits (eq_of_log one earlier.client))
            (fun entry head => (agreed.client entry head).computed)
          exact ⟨⟨mt act.peer_over.mp present.1, stays.1⟩, kept ▸ few, stays.2⟩

/-- A log whose reports bring one message has one entry. -/
theorem exists_entry_of_taken {process : Process limit β ι σ ε} {message : List β}
    (taken : process.party.taken = [message]) :
    ∃ entry, process.log.head? = some entry ∧ entry.2.brings = message := by
  obtain ⟨entry, log, brings⟩ := List.map_eq_singleton_iff.mp taken
  exact ⟨entry, by rw [log]; rfl, brings⟩

/-- A deadlock is settled. -/
theorem Settled.of_deadlocked (reachable : Reachable D.serve D.use D.start state)
    (deadlocked : Deadlocked state) : D.Settled state := by
  have present := deadlocked.present
  obtain ⟨request, answers⟩ := (midway reachable present).taken_of_deadlocked deadlocked.session
  obtain ⟨recorded, recorded'⟩ := Reachable.recorded reachable
  obtain ⟨entry, head, brings⟩ := exists_entry_of_taken request
  obtain ⟨entry', head', brings'⟩ := exists_entry_of_taken answers
  exact ⟨⟨entry, head, brings, recorded.accepted present.1 head⟩,
    ⟨entry', head', brings', recorded'.accepted present.2 head'⟩⟩

/-- **How a dialogue ends.** A run that cannot go on is a deadlock exactly when
the first receives have brought all they could and have been accepted; otherwise
both processes are over. -/
theorem stuck_cases [Nonempty ι] (positive : 0 < limit)
    (reachable : Reachable D.serve D.use D.start state) (stuck : Stuck D.serve D.use state) :
    (Deadlocked state ↔ D.Settled state) ∧ (Ended state ↔ ¬ D.Settled state) := by
  have halted := (stuck_iff positive).mp stuck
  have deadlock : Deadlocked state ↔ D.Settled state := by
    refine ⟨Settled.of_deadlocked reachable, fun settled => halted.resolve_left fun ended => ?_⟩
    exact (few_of_agreed reachable settled.agreed).1.1 ended.1
  refine ⟨deadlock, ?_⟩
  rw [← deadlock]
  exact ⟨fun ended deadlocked => deadlocked.not_ended ended, fun free => halted.resolve_right free⟩

end Dialogue

end Ssle
