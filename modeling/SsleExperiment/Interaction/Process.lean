import SsleExperiment.Interaction.Session

/-! # Two processes over one stream

A process runs a script and computes on what each of its receives reports. The
computation may fail and then ends the process; so may a send to a peer that has
left bytes unread. While neither process is over, they run their scripts as two
parties do (`Ssle.Processes.Reachable.session`).
-/

namespace Ssle.Processes

open Session (Action Party Connection)

/-- A nonempty piece of a stream that fits one receive. -/
structure Chunk (limit : Nat) (β : Type*) where
  bytes : List β
  nonempty : bytes ≠ []
  fits : bytes.length ≤ limit

/-- What a receive reports. -/
inductive Report (limit : Nat) (β : Type*) where
  | bytes (chunk : Chunk limit β)
  | endOfStream
  | error

/-- The bytes that a report brings. -/
def Report.brings {limit : Nat} {β : Type*} : Report limit β → List β
  | .bytes chunk => chunk.bytes
  | .endOfStream => []
  | .error => []

/-- No report brings more than the limit. -/
theorem Report.length_brings_le {limit : Nat} {β : Type*} (report : Report limit β) :
    report.brings.length ≤ limit := by
  cases report with
  | bytes chunk => exact chunk.fits
  | endOfStream => exact Nat.zero_le _
  | error => exact Nat.zero_le _

/-- What a process computes after each of its receives, counted from zero: from
an input that is not its own doing, the report, and what it remembers. -/
abbrev Computation (limit : Nat) (β ι σ ε : Type*) :=
  Nat → ι → Report limit β → σ → Except ε σ

/-- Why a process ends before its script does. -/
inductive Stop (ε : Type*) where
  | fault (fault : ε)
  | brokenPipe

/-- A process: the actions left, the bytes in flight toward it, the inputs and
reports of its receives so far, what it remembers, and why it has stopped. -/
structure Process (limit : Nat) (β ι σ ε : Type*) where
  script : List (Action β)
  inbox : List β
  log : List (ι × Report limit β)
  memory : σ
  stopped : Option (Stop ε)

variable {limit : Nat} {β ι σ τ ε : Type*}

namespace Process

/-- A process that has done nothing yet. -/
def starting (script : List (Action β)) (memory : σ) : Process limit β ι σ ε :=
  ⟨script, [], [], memory, none⟩

/-- Nothing is left to do. -/
def Over (process : Process limit β ι σ ε) : Prop := process.script = []

/-- A process that is over with bytes unread resets the stream. -/
def Resets (process : Process limit β ι σ ε) : Prop := process.Over ∧ process.inbox ≠ []

/-- The process goes on with what it computes, or ends with the fault. -/
def handle (compute : Computation limit β ι σ ε) (input : ι) (report : Report limit β)
    (process : Process limit β ι σ ε) : Process limit β ι σ ε :=
  match compute process.log.length input report process.memory with
  | .ok memory => { process with log := process.log ++ [(input, report)], memory := memory }
  | .error fault =>
      { process with
        script := []
        log := process.log ++ [(input, report)]
        stopped := some (.fault fault) }

end Process

/-- An action of one process, and what it does to the peer. A process that is
over has closed the stream; a reset may lose what is in flight. -/
inductive Act (compute : Computation limit β ι σ ε) :
    Process limit β ι σ ε → Process limit β ι τ ε →
    Process limit β ι σ ε → Process limit β ι τ ε → Prop
  | send {bytes rest inbox log memory stopped} (peer : Process limit β ι τ ε) :
      Act compute ⟨.send bytes :: rest, inbox, log, memory, stopped⟩ peer
        ⟨rest, inbox, log, memory, stopped⟩ { peer with inbox := peer.inbox ++ bytes }
  | brokenPipe {bytes rest inbox log memory stopped} (peer : Process limit β ι τ ε)
      (resets : peer.Resets) :
      Act compute ⟨.send bytes :: rest, inbox, log, memory, stopped⟩ peer
        ⟨[], inbox, log, memory, some .brokenPipe⟩ peer
  | receive {rest remaining log memory stopped} (peer : Process limit β ι τ ε) (input : ι)
      (chunk : Chunk limit β) :
      Act compute ⟨.receive :: rest, chunk.bytes ++ remaining, log, memory, stopped⟩ peer
        (Process.handle compute input (.bytes chunk) ⟨rest, remaining, log, memory, stopped⟩) peer
  | endOfStream {rest log memory stopped} (peer : Process limit β ι τ ε) (input : ι)
      (ended : peer.Over) :
      Act compute ⟨.receive :: rest, [], log, memory, stopped⟩ peer
        (Process.handle compute input .endOfStream ⟨rest, [], log, memory, stopped⟩) peer
  | reset {rest inbox log memory stopped} (peer : Process limit β ι τ ε) (input : ι)
      (resets : peer.Resets) :
      Act compute ⟨.receive :: rest, inbox, log, memory, stopped⟩ peer
        (Process.handle compute input .error ⟨rest, [], log, memory, stopped⟩) peer
  | close {rest inbox log memory stopped} (peer : Process limit β ι τ ε) :
      Act compute ⟨.close :: rest, inbox, log, memory, stopped⟩ peer
        ⟨[], inbox, log, memory, stopped⟩ peer

/-- Both processes. -/
structure Peers (limit : Nat) (β ι σ τ ε : Type*) where
  server : Process limit β ι σ ε
  client : Process limit β ι τ ε

/-- Either process acts. -/
inductive Step (serve : Computation limit β ι σ ε) (use : Computation limit β ι τ ε) :
    Peers limit β ι σ τ ε → Peers limit β ι σ τ ε → Prop
  | server {server client server' client'} (act : Act serve server client server' client') :
      Step serve use ⟨server, client⟩ ⟨server', client'⟩
  | client {server client server' client'} (act : Act use client server client' server') :
      Step serve use ⟨server, client⟩ ⟨server', client'⟩

/-- The states of a run. -/
def Reachable (serve : Computation limit β ι σ ε) (use : Computation limit β ι τ ε) :
    Peers limit β ι σ τ ε → Peers limit β ι σ τ ε → Prop :=
  Relation.ReflTransGen (Step serve use)

/-- The process waits in a receive, with nothing in flight toward it. -/
structure Blocked (process : Process limit β ι σ ε) (peer : Process limit β ι τ ε) : Prop where
  receiving : process.script.head? = some .receive
  empty : process.inbox = []
  present : ¬ peer.Over

/-- Both processes wait for each other. -/
def Deadlocked (state : Peers limit β ι σ τ ε) : Prop :=
  Blocked state.server state.client ∧ Blocked state.client state.server

/-- Both processes are over. -/
def Ended (state : Peers limit β ι σ τ ε) : Prop := state.server.Over ∧ state.client.Over

/-- Nobody can act. -/
def Stuck (serve : Computation limit β ι σ ε) (use : Computation limit β ι τ ε)
    (state : Peers limit β ι σ τ ε) : Prop := ∀ next, ¬ Step serve use state next

/-! ## What an action does -/

section Handle

variable {compute : Computation limit β ι σ ε} {input : ι} {report : Report limit β}
  {process : Process limit β ι σ ε}

@[simp] theorem Process.handle_log :
    (process.handle compute input report).log = process.log ++ [(input, report)] := by
  unfold Process.handle
  split <;> rfl

@[simp] theorem Process.handle_inbox :
    (process.handle compute input report).inbox = process.inbox := by
  unfold Process.handle
  split <;> rfl

/-- What is computed is remembered. -/
theorem Process.handle_of_ok {memory : σ}
    (computed : compute process.log.length input report process.memory = .ok memory) :
    process.handle compute input report =
      { process with log := process.log ++ [(input, report)], memory := memory } := by
  rw [Process.handle, computed]

/-- A fault ends the process. -/
theorem Process.handle_of_error {fault : ε}
    (failed : compute process.log.length input report process.memory = .error fault) :
    process.handle compute input report =
      { process with
        script := []
        log := process.log ++ [(input, report)]
        stopped := some (.fault fault) } := by
  rw [Process.handle, failed]

/-- A process that is not over after a receive goes on with its script. -/
theorem Process.script_handle (present : ¬ (process.handle compute input report).Over) :
    (process.handle compute input report).script = process.script := by
  cases computed : compute process.log.length input report process.memory with
  | ok memory => rw [Process.handle_of_ok computed]
  | error fault =>
      rw [Process.handle_of_error computed] at present
      exact (present rfl).elim

/-- A receive does not add to the script. -/
theorem Process.length_script_handle :
    (process.handle compute input report).script.length ≤ process.script.length := by
  unfold Process.handle
  split
  · exact Nat.le_refl _
  · exact Nat.zero_le _

end Handle

section Act

variable {compute : Computation limit β ι σ ε} {process process' : Process limit β ι σ ε}
  {peer peer' : Process limit β ι τ ε}

/-- Every action takes one off the script, and leaves what the peer does alone. -/
theorem Act.length_script (act : Act compute process peer process' peer') :
    process'.script.length < process.script.length ∧ peer'.script = peer.script := by
  cases act with
  | send peer => exact ⟨Nat.lt_succ_self _, rfl⟩
  | brokenPipe peer resets => exact ⟨Nat.succ_pos _, rfl⟩
  | receive peer input chunk => exact ⟨Nat.lt_succ_of_le Process.length_script_handle, rfl⟩
  | endOfStream peer input ended => exact ⟨Nat.lt_succ_of_le Process.length_script_handle, rfl⟩
  | reset peer input resets => exact ⟨Nat.lt_succ_of_le Process.length_script_handle, rfl⟩
  | close peer => exact ⟨Nat.succ_pos _, rfl⟩

/-- An action does not end the peer. -/
theorem Act.peer_over (act : Act compute process peer process' peer') :
    peer'.Over ↔ peer.Over := by
  rw [Process.Over, Process.Over, act.length_script.2]

/-- A process that acts is not over. -/
theorem Act.present (act : Act compute process peer process' peer') : ¬ process.Over := by
  intro ended
  have shorter := act.length_script.1
  rw [ended] at shorter
  exact Nat.not_lt_zero _ shorter

/-- An action does not change what the peer has received and remembers. -/
theorem Act.peer_kept (act : Act compute process peer process' peer') :
    peer'.log = peer.log ∧ peer'.memory = peer.memory := by
  cases act <;> exact ⟨rfl, rfl⟩

/-- Logs only grow. -/
theorem Act.log_prefix (act : Act compute process peer process' peer') :
    process.log <+: process'.log := by
  cases act with
  | send peer => exact List.prefix_rfl
  | brokenPipe peer resets => exact List.prefix_rfl
  | receive peer input chunk => simp
  | endOfStream peer input ended => simp
  | reset peer input resets => simp
  | close peer => exact List.prefix_rfl

/-- What a send can do: it delivers its bytes, or ends the process if the peer
has reset the stream. -/
theorem Act.of_send (act : Act compute process peer process' peer') {bytes : List β}
    {rest : List (Action β)} (script : process.script = .send bytes :: rest) :
    (process' = { process with script := rest } ∧
        peer' = { peer with inbox := peer.inbox ++ bytes }) ∨
      (peer.Resets ∧ process' = { process with script := [], stopped := some .brokenPipe } ∧
        peer' = peer) := by
  cases act with
  | send peer =>
      cases script
      exact .inl ⟨rfl, rfl⟩
  | brokenPipe peer resets => exact .inr ⟨resets, rfl, rfl⟩
  | receive peer input chunk => cases script
  | endOfStream peer input ended => cases script
  | reset peer input resets => cases script
  | close peer => cases script

/-- What a receive can do: it takes a piece of what is in flight, or reports the
end of the stream or a reset, if the peer is over. -/
theorem Act.of_receive (act : Act compute process peer process' peer')
    {rest : List (Action β)} (script : process.script = .receive :: rest) :
    peer' = peer ∧ ∃ input,
      ((∃ chunk remaining, process.inbox = chunk.bytes ++ remaining ∧ process' =
          Process.handle compute input (.bytes chunk)
            { process with script := rest, inbox := remaining }) ∨
        (process.inbox = [] ∧ peer.Over ∧ process' =
          Process.handle compute input .endOfStream { process with script := rest, inbox := [] }) ∨
        (peer.Resets ∧ process' =
          Process.handle compute input .error { process with script := rest, inbox := [] })) := by
  cases act with
  | send peer => cases script
  | brokenPipe peer resets => cases script
  | @receive rest remaining log memory stopped peer input chunk =>
      cases script
      exact ⟨rfl, input, .inl ⟨chunk, remaining, rfl, rfl⟩⟩
  | endOfStream peer input ended =>
      cases script
      exact ⟨rfl, input, .inr (.inl ⟨rfl, ended, rfl⟩)⟩
  | reset peer input resets =>
      cases script
      exact ⟨rfl, input, .inr (.inr ⟨resets, rfl⟩)⟩
  | close peer => cases script

theorem Act.of_close (act : Act compute process peer process' peer') {rest : List (Action β)}
    (script : process.script = .close :: rest) :
    process' = { process with script := [] } ∧ peer' = peer := by
  cases act with
  | send peer => cases script
  | brokenPipe peer resets => cases script
  | receive peer input chunk => cases script
  | endOfStream peer input ended => cases script
  | reset peer input resets => cases script
  | close peer => exact ⟨rfl, rfl⟩

/-- A process that waits with nothing in flight cannot act. -/
theorem Blocked.not_act (blocked : Blocked process peer) :
    ¬ Act compute process peer process' peer' := by
  obtain ⟨receiving, empty, present⟩ := blocked
  intro act
  cases act with
  | send peer => cases receiving
  | brokenPipe peer resets => cases receiving
  | receive peer input chunk => exact chunk.nonempty (List.append_eq_nil_iff.mp empty).1
  | endOfStream peer input ended => exact present ended
  | reset peer input resets => exact present resets.1
  | close peer => cases receiving

/-- A process is over, waits with nothing in flight, or can act. -/
theorem exists_act [Nonempty ι] (positive : 0 < limit) (compute : Computation limit β ι σ ε)
    (process : Process limit β ι σ ε) (peer : Process limit β ι τ ε) :
    process.Over ∨ Blocked process peer ∨
      ∃ process' peer', Act compute process peer process' peer' := by
  obtain ⟨script, inbox, log, memory, stopped⟩ := process
  obtain ⟨input⟩ := ‹Nonempty ι›
  match script with
  | [] => exact .inl rfl
  | .send bytes :: rest => exact .inr (.inr ⟨_, _, .send peer⟩)
  | .close :: rest => exact .inr (.inr ⟨_, _, .close peer⟩)
  | .receive :: rest =>
      match inbox with
      | b :: remaining =>
          have act : Act compute ⟨.receive :: rest, [b] ++ remaining, log, memory, stopped⟩ peer
              _ peer := .receive peer input ⟨[b], List.cons_ne_nil b [], positive⟩
          exact .inr (.inr ⟨_, _, act⟩)
      | [] =>
          by_cases ended : peer.Over
          · exact .inr (.inr ⟨_, _, .endOfStream peer input ended⟩)
          · exact .inr (.inl ⟨rfl, rfl, ended⟩)

end Act

/-! ## Runs of both processes as sessions of their scripts -/

/-- The party that a process is as long as nothing fails. -/
def Process.party (process : Process limit β ι σ ε) : Party β :=
  ⟨process.script, process.inbox, process.log.map fun entry => entry.2.brings, false⟩

/-- A process that is not over after a receive has taken what the report brings. -/
theorem Process.party_handle {compute : Computation limit β ι σ ε} {input : ι}
    {report : Report limit β} {process : Process limit β ι σ ε}
    (present : ¬ (process.handle compute input report).Over) :
    (process.handle compute input report).party =
      ⟨process.script, process.inbox,
        process.log.map (fun entry => entry.2.brings) ++ [report.brings], false⟩ := by
  simp [Process.party, Process.script_handle present]

/-- Between processes that are not over, an action is one of the scripts. -/
theorem Act.session {compute : Computation limit β ι σ ε} {process process' : Process limit β ι σ ε}
    {peer peer' : Process limit β ι τ ε} (act : Act compute process peer process' peer')
    (present : ¬ process'.Over) (other : ¬ peer.Over) :
    Session.Act limit process.party peer.party process'.party peer'.party := by
  cases act with
  | send peer => exact .send peer.party
  | brokenPipe peer resets => exact (present rfl).elim
  | receive peer input chunk =>
      rw [Process.party_handle present]
      exact .receive peer.party chunk.nonempty chunk.fits
  | endOfStream peer input ended => exact (other ended).elim
  | reset peer input resets => exact (other resets.1).elim
  | close peer => exact (present rfl).elim

/-- Both parties. -/
def Peers.session (state : Peers limit β ι σ τ ε) : Connection β :=
  ⟨state.server.party, state.client.party⟩

/-- Neither process is over. -/
def Present (state : Peers limit β ι σ τ ε) : Prop := ¬ state.server.Over ∧ ¬ state.client.Over

section Run

variable {serve : Computation limit β ι σ ε} {use : Computation limit β ι τ ε}
  {start state next : Peers limit β ι σ τ ε}

/-- A step after which nobody is over is one of the two parties. -/
theorem Step.session (step : Step serve use state next) (present : Present next) :
    Present state ∧ Session.Step limit state.session next.session := by
  cases step with
  | server act =>
      have kept := mt act.peer_over.mpr present.2
      exact ⟨⟨act.present, kept⟩, .server (act.session present.1 kept)⟩
  | client act =>
      have kept := mt act.peer_over.mpr present.1
      exact ⟨⟨kept, act.present⟩, .client (act.session present.2 kept)⟩

/-- **Erasure.** While neither process is over, the run is one of their scripts. -/
theorem Reachable.session (reachable : Reachable serve use start state) (present : Present state) :
    Session.Reachable limit start.session state.session := by
  induction reachable with
  | refl => exact .refl
  | tail _ step ih =>
      obtain ⟨before, acts⟩ := step.session present
      exact (ih before).tail acts

/-- Logs only grow along a run. -/
theorem Reachable.log_prefix (reachable : Reachable serve use start state) :
    start.server.log <+: state.server.log ∧ start.client.log <+: state.client.log := by
  induction reachable with
  | refl => exact ⟨List.prefix_rfl, List.prefix_rfl⟩
  | tail _ step ih =>
      cases step with
      | server act =>
          rw [act.peer_kept.1]
          exact ⟨ih.1.trans act.log_prefix, ih.2⟩
      | client act =>
          rw [act.peer_kept.1]
          exact ⟨ih.1, ih.2.trans act.log_prefix⟩

end Run

end Ssle.Processes
