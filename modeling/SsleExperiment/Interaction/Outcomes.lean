import SsleExperiment.Interaction.Opening

/-! # Runs of a dialogue

Everything that the first reports can be is reached, if the server's first
computation goes that way (`Ssle.Dialogue.exists_answered`,
`Ssle.Dialogue.exists_refused`, `Ssle.Dialogue.exists_dropped`), and so are both
ends of a run (`Ssle.Dialogue.exists_deadlocked`, `Ssle.Dialogue.exists_through`).
-/

namespace Ssle.Processes

open Session (Action)

variable {limit : Nat} {β ι σ τ ε : Type*} {compute : Computation limit β ι σ ε}
  {rest : List (Action β)} {inbox : List β} {log : List (ι × Report limit β)}
  {memory memory' : σ} {stopped : Option (Stop ε)} {peer : Process limit β ι τ ε} {input : ι}

theorem Act.receive_of_ok {chunk : Chunk limit β}
    (computed : compute log.length input (.bytes chunk) memory = .ok memory') :
    Act compute ⟨.receive :: rest, chunk.bytes ++ inbox, log, memory, stopped⟩ peer
      ⟨rest, inbox, log ++ [(input, .bytes chunk)], memory', stopped⟩ peer := by
  have act : Act compute ⟨.receive :: rest, chunk.bytes ++ inbox, log, memory, stopped⟩ peer _
      peer := .receive peer input chunk
  rwa [Process.handle_of_ok computed] at act

theorem Act.receive_of_error {chunk : Chunk limit β} {fault : ε}
    (failed : compute log.length input (.bytes chunk) memory = .error fault) :
    Act compute ⟨.receive :: rest, chunk.bytes ++ inbox, log, memory, stopped⟩ peer
      ⟨[], inbox, log ++ [(input, .bytes chunk)], memory, some (.fault fault)⟩ peer := by
  have act : Act compute ⟨.receive :: rest, chunk.bytes ++ inbox, log, memory, stopped⟩ peer _
      peer := .receive peer input chunk
  rwa [Process.handle_of_error failed] at act

/-- A process can send its messages one after the other. -/
theorem reachable_sends {use : Computation limit β ι τ ε} {messages : List (List β)}
    (peer : Process limit β ι τ ε) :
    Reachable compute use ⟨⟨messages.map .send ++ rest, inbox, log, memory, stopped⟩, peer⟩
      ⟨⟨rest, inbox, log, memory, stopped⟩,
        { peer with inbox := peer.inbox ++ messages.flatten }⟩ := by
  induction messages generalizing peer with
  | nil =>
      rw [List.flatten_nil, List.append_nil]
      exact .refl
  | cons message messages ih =>
      refine .head (.server (.send peer)) ?_
      have onward := ih { peer with inbox := peer.inbox ++ message }
      rwa [List.append_assoc] at onward

end Ssle.Processes

namespace Ssle.Dialogue

open Processes

variable {limit : Nat} {β ι σ τ ε : Type*} {D : Dialogue limit β ι σ τ ε}
  {input : ι} {chunk : Chunk limit β} {remaining : List β}

/-- The client has sent its request. -/
theorem reachable_requested : Reachable D.serve D.use D.start
    ⟨⟨D.serverScript, D.request, [], D.serverMemory, none⟩, D.listening []⟩ :=
  .single (.client (.send _))

/-- The server accepts a piece of the request, and answers. -/
theorem reachable_answered {memory : σ} (request : chunk.bytes ++ remaining = D.request)
    (computed : D.serve 0 input (.bytes chunk) D.serverMemory = .ok memory) :
    Reachable D.serve D.use D.start
      ⟨⟨[.receive, .close], remaining, [(input, .bytes chunk)], memory, none⟩,
        D.listening D.stream⟩ := by
  have asked := reachable_requested (D := D)
  rw [← request] at asked
  exact (asked.tail (.server (.receive_of_ok computed))).trans (reachable_sends _)

/-- The server fails on a piece of the request. -/
theorem reachable_refused {fault : ε} (request : chunk.bytes ++ remaining = D.request)
    (failed : D.serve 0 input (.bytes chunk) D.serverMemory = .error fault) :
    Reachable D.serve D.use D.start
      ⟨⟨[], remaining, [(input, .bytes chunk)], D.serverMemory, some (.fault fault)⟩,
        D.listening []⟩ := by
  have asked := reachable_requested (D := D)
  rw [← request] at asked
  exact asked.tail (.server (.receive_of_error failed))

/-- Both first receives may return any pieces. -/
theorem exists_answered {chunk' : Chunk limit β} (input' : ι) (place : chunk.bytes <+: D.request)
    (accepted : ∃ memory, D.serve 0 input (.bytes chunk) D.serverMemory = .ok memory)
    (place' : chunk'.bytes <+: D.stream) :
    ∃ state, Reachable D.serve D.use D.start state ∧
      state.server.log = [(input, .bytes chunk)] ∧
      state.client.log = [(input', .bytes chunk')] := by
  obtain ⟨remaining, request⟩ := place
  obtain ⟨memory, computed⟩ := accepted
  obtain ⟨rest, stream⟩ := place'
  have answered := reachable_answered request computed
  rw [← stream] at answered
  exact ⟨_, answered.tail (.client (.receive _ input' chunk')), rfl, by simp⟩

/-- If the server fails, the client may see its end. -/
theorem exists_refused (input' : ι) (place : chunk.bytes <+: D.request)
    (failed : ∃ fault, D.serve 0 input (.bytes chunk) D.serverMemory = .error fault) :
    ∃ state report, Reachable D.serve D.use D.start state ∧ report.brings = [] ∧
      state.server.log = [(input, .bytes chunk)] ∧ state.client.log = [(input', report)] := by
  obtain ⟨remaining, request⟩ := place
  obtain ⟨fault, computed⟩ := failed
  have refused := reachable_refused request computed
  by_cases read : remaining = []
  · exact ⟨_, .endOfStream, refused.tail (.client (.endOfStream _ input' rfl)), rfl, rfl, by simp⟩
  · exact ⟨_, .error, refused.tail (.client (.reset _ input' ⟨rfl, read⟩)), rfl, rfl, by simp⟩

/-- If the server takes a second piece of the request and leaves a third one
unread, the client may lose the answers. -/
theorem exists_dropped {memory memory' : σ} {input' : ι} {chunk' : Chunk limit β} (input'' : ι)
    (request : chunk.bytes ++ (chunk'.bytes ++ remaining) = D.request) (unread : remaining ≠ [])
    (computed : D.serve 0 input (.bytes chunk) D.serverMemory = .ok memory)
    (computed' : D.serve 1 input' (.bytes chunk') memory = .ok memory') :
    ∃ state, Reachable D.serve D.use D.start state ∧
      state.server.log = [(input, .bytes chunk), (input', .bytes chunk')] ∧
      state.client.log = [(input'', .error)] := by
  have mistaken := (reachable_answered request computed).tail (.server (.receive_of_ok computed'))
  have closed := mistaken.tail (.server (.close _))
  exact ⟨_, closed.tail (.client (.reset _ input'' ⟨rfl, unread⟩)), rfl, by simp⟩

/-! ## Both ends -/

/-- **Deadlock.** If the first receives return whole messages and both are
accepted, the processes may wait for each other. -/
theorem exists_deadlocked {memory : σ} {memory' : τ} {input' : ι} {chunk' : Chunk limit β}
    (request : chunk.bytes = D.request) (stream : chunk'.bytes = D.stream)
    (computed : D.serve 0 input (.bytes chunk) D.serverMemory = .ok memory)
    (computed' : D.use 0 input' (.bytes chunk') D.clientMemory = .ok memory') :
    ∃ state, Reachable D.serve D.use D.start state ∧ Deadlocked state ∧
      state.server.log = [(input, .bytes chunk)] ∧
      state.client.log = [(input', .bytes chunk')] := by
  have whole : chunk.bytes ++ [] = D.request := by rw [List.append_nil, request]
  have answered := reachable_answered whole computed
  rw [← stream, ← List.append_nil chunk'.bytes] at answered
  refine ⟨_, answered.tail (.client (.receive_of_ok computed')), ?_, rfl, rfl⟩
  exact ⟨⟨rfl, rfl, List.cons_ne_nil _ _⟩, ⟨rfl, rfl, List.cons_ne_nil _ _⟩⟩

/-- **Completion.** If the first and second receives return pieces that are
accepted, both processes may come to the end of their scripts. -/
theorem exists_through {memory memory₂ : σ} {memory' memory₂' : τ} {input₂ input' input₂' : ι}
    {chunk₂ chunk' chunk₂' : Chunk limit β} {remaining' : List β}
    (request : chunk.bytes ++ (chunk₂.bytes ++ remaining) = D.request)
    (stream : chunk'.bytes ++ (chunk₂'.bytes ++ remaining') = D.stream)
    (computed : D.serve 0 input (.bytes chunk) D.serverMemory = .ok memory)
    (computed₂ : D.serve 1 input₂ (.bytes chunk₂) memory = .ok memory₂)
    (computed' : D.use 0 input' (.bytes chunk') D.clientMemory = .ok memory')
    (computed₂' : D.use 1 input₂' (.bytes chunk₂') memory' = .ok memory₂') :
    ∃ state, Reachable D.serve D.use D.start state ∧ Ended state ∧
      state.server.stopped = none ∧ state.client.stopped = none ∧
      state.server.log = [(input, .bytes chunk), (input₂, .bytes chunk₂)] ∧
      state.client.log = [(input', .bytes chunk'), (input₂', .bytes chunk₂')] := by
  have answered := reachable_answered request computed
  rw [← stream] at answered
  have informed := answered.tail (.client (.receive_of_ok computed'))
  have mistaken := informed.tail (.server (.receive_of_ok computed₂))
  have received := (mistaken.tail (.server (.close _))).tail (.client (.receive_of_ok computed₂'))
  have through := (received.tail (.client (.send _))).tail (.client (.close _))
  exact ⟨_, through, ⟨rfl, rfl⟩, rfl, rfl, rfl, rfl⟩

end Ssle.Dialogue
