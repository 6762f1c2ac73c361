import SsleExperiment.Interaction.Session

/-! # A request, answers and an acknowledgement

The client sends a request, receives twice and acknowledges; the server receives,
sends its answers and receives once more. Nothing separates the answers, so the
client's first receive may take all of them, and its second one then waits for
the server, which waits for the acknowledgement: a deadlock means that the first
receives of both parties have taken all they could ever be sent
(`Ssle.Exchange.Midway.taken_of_deadlocked`).
-/

namespace Ssle

open Session

/-- What the two parties send. -/
structure Exchange (β : Type*) where
  request : List β
  answers : List (List β)
  acknowledgement : List β
  requests : request ≠ []
  answered : answers.flatten ≠ []

namespace Exchange

variable {β : Type*} (X : Exchange β)

/-- The server receives the request, answers, and waits to be acknowledged. -/
def serverScript : List (Action β) := .receive :: (X.answers.map .send ++ [.receive, .close])

/-- The client sends the request, and acknowledges after two receives. -/
def clientScript : List (Action β) :=
  [.send X.request, .receive, .receive, .send X.acknowledgement, .close]

/-- The connected parties. -/
def start : Connection β := ⟨.starting X.serverScript, .starting X.clientScript⟩

/-- All that the server sends. -/
def stream : List β := X.answers.flatten

/-- Messages that are sent one after the other are one stream. -/
theorem pending_map_send (messages : List (List β)) (rest : List (Action β)) :
    pending (messages.map .send ++ rest) = messages.flatten ++ pending rest := by
  induction messages with
  | nil => rfl
  | cons message messages ih => simp [ih]

theorem receives_map_send (messages : List (List β)) (rest : List (Action β)) :
    receives (messages.map .send ++ rest) = receives rest := by
  induction messages with
  | nil => rfl
  | cons message messages ih => simp [ih]

@[simp] theorem pending_serverScript : pending X.serverScript = X.stream := by
  simp [serverScript, stream, pending_map_send]

@[simp] theorem receives_serverScript : receives X.serverScript = 2 := by
  simp [serverScript, receives_map_send]

@[simp] theorem pending_clientScript :
    pending X.clientScript = X.request ++ X.acknowledgement := by
  simp [clientScript]

@[simp] theorem receives_clientScript : receives X.clientScript = 2 := by
  simp [clientScript]

/-! ## Places in the scripts -/

/-- While the client has to receive, its acknowledgement is unsent. -/
theorem suffix_pending_of_receives {script : List (Action β)} (place : script <:+ X.clientScript)
    (waits : receives script ≠ 0) : X.acknowledgement <:+ pending script := by
  simp only [clientScript, List.suffix_cons_iff, List.suffix_nil] at place
  rcases place with rfl | rfl | rfl | rfl | rfl | rfl
  · simp
  · simp
  · simp
  · simp at waits
  · simp at waits
  · simp at waits

/-- A client that waits has only its acknowledgement to send. -/
theorem pending_of_client_waiting {script : List (Action β)} (place : script <:+ X.clientScript)
    (waits : script.head? = some .receive) : pending script = X.acknowledgement := by
  simp only [clientScript, List.suffix_cons_iff, List.suffix_nil] at place
  rcases place with rfl | rfl | rfl | rfl | rfl | rfl
  · cases waits
  · simp
  · simp
  · cases waits
  · cases waits
  · cases waits

/-- A client that closes the stream has nothing else to do. -/
theorem eq_nil_of_client_closing {rest : List (Action β)}
    (place : .close :: rest <:+ X.clientScript) : rest = [] := by
  simp only [clientScript, List.suffix_cons_iff, List.suffix_nil] at place
  rcases place with same | same | same | same | same | same
  · cases same
  · cases same
  · cases same
  · cases same
  · exact (List.cons.inj same).2
  · cases same

/-- A party that does not send is not among its sends. -/
theorem suffix_of_not_sending {messages : List (List β)} {script rest : List (Action β)}
    (place : script <:+ messages.map .send ++ rest)
    (other : ∀ message, script.head? ≠ some (.send message)) : script <:+ rest := by
  induction messages with
  | nil => exact place
  | cons message messages ih =>
      rw [List.map_cons, List.cons_append, List.suffix_cons_iff] at place
      rcases place with rfl | later
      · exact (other message rfl).elim
      · exact ih later

/-- A server that waits for the last time has sent its answers. -/
theorem pending_of_server_waiting {script : List (Action β)} (place : script <:+ X.serverScript)
    (waits : script.head? = some .receive) (once : receives script = 1) : pending script = [] := by
  rcases List.suffix_cons_iff.mp place with rfl | later
  · rw [← serverScript, receives_serverScript] at once
    cases once
  · have last := suffix_of_not_sending later fun message sends =>
      nomatch waits.symm.trans sends
    simp only [List.suffix_cons_iff, List.suffix_nil] at last
    rcases last with rfl | rfl | rfl <;> rfl

/-- A server that closes the stream has nothing else to do. -/
theorem eq_nil_of_server_closing {rest : List (Action β)}
    (place : .close :: rest <:+ X.serverScript) : rest = [] := by
  rcases List.suffix_cons_iff.mp place with same | later
  · cases same
  · have last := suffix_of_not_sending later fun message sends => nomatch sends
    simp only [List.suffix_cons_iff, List.suffix_nil] at last
    rcases last with same | same | same
    · cases same
    · exact (List.cons.inj same).2
    · cases same

/-! ## What is known midway -/

/-- Both parties are somewhere in their scripts. -/
structure Midway (X : Exchange β) (limit : Nat) (state : Connection β) : Prop where
  server : Follows limit X.serverScript X.clientScript state.server state.client
  client : Follows limit X.clientScript X.serverScript state.client state.server

variable {X} {limit : Nat} {state : Connection β}

/-- All states that are reached are midway. -/
theorem midway_of_reachable (reachable : Reachable limit X.start state) : Midway X limit state :=
  ⟨(Reachable.follows reachable).1, (Reachable.follows reachable).2⟩

namespace Midway

variable (midway : Midway X limit state)

include midway

/-- What the server has taken, and what it can still be sent. -/
theorem server_bytes : state.server.taken.flatten ++ state.server.inbox ++
    pending state.client.script = X.request ++ X.acknowledgement := by
  rw [← pending_clientScript]
  exact midway.server.conserved

/-- What the client has taken, and what it can still be sent. -/
theorem client_bytes : state.client.taken.flatten ++ state.client.inbox ++
    pending state.server.script = X.stream := by
  rw [← pending_serverScript]
  exact midway.client.conserved

/-- What the server has taken and what it will receive add up. -/
theorem server_receives : state.server.taken.length + receives state.server.script = 2 := by
  rw [← X.receives_serverScript]
  exact midway.server.counted

/-- What the client has taken and what it will receive add up. -/
theorem client_receives : state.client.taken.length + receives state.client.script = 2 := by
  rw [← X.receives_clientScript]
  exact midway.client.counted

/-- With the request taken whole and the acknowledgement unsent, the server waits. -/
theorem server_waits (request : state.server.taken = [X.request])
    (few : state.client.taken.length ≤ 1) : state.server.inbox = [] := by
  have count := midway.client_receives
  obtain ⟨front, ahead⟩ := X.suffix_pending_of_receives midway.client.suffix (by omega)
  have bytes := midway.server_bytes
  rw [request, ← ahead, List.flatten_singleton, List.append_assoc, List.append_cancel_left_eq,
    ← List.append_assoc] at bytes
  exact (List.append_eq_nil_iff.mp (List.append_left_eq_self.mp bytes)).1

/-- With all answers taken, the client waits. -/
theorem client_waits (answers : state.client.taken = [X.stream]) : state.client.inbox = [] := by
  have bytes := midway.client_bytes
  rw [answers, List.flatten_singleton, List.append_assoc, List.append_right_eq_self] at bytes
  exact (List.append_eq_nil_iff.mp bytes).1

end Midway

/-- All of a message in at most one piece. -/
theorem eq_singleton_of_flatten {taken : List (List β)} {sent : List β} (some : sent ≠ [])
    (few : taken.length ≤ 1) (all : taken.flatten = sent) : taken = [sent] := by
  match taken, few with
  | [], _ => exact (some all.symm).elim
  | [chunk], _ => rw [← all, List.flatten_singleton]

/-- A script that waits has a receive left. -/
theorem receives_of_waiting {script : List (Action β)} (waits : script.head? = some .receive) :
    0 < receives script := by
  obtain ⟨rest, rfl⟩ := List.head?_eq_some_iff.mp waits
  rw [receives_receive]
  exact Nat.succ_pos _

/-- **Deadlock.** When both parties wait for each other, the server has taken
the request and the client all answers, each with one receive. -/
theorem Midway.taken_of_deadlocked (midway : Midway X limit state)
    (deadlocked : Deadlocked state) :
    state.server.taken = [X.request] ∧ state.client.taken = [X.stream] := by
  obtain ⟨⟨waits, empty, _⟩, ⟨waits', empty', _⟩⟩ := deadlocked
  have more := receives_of_waiting waits
  have more' := receives_of_waiting waits'
  have count := midway.server_receives
  have count' := midway.client_receives
  have bytes := midway.server_bytes
  rw [empty, List.append_nil, X.pending_of_client_waiting midway.client.suffix waits',
    List.append_cancel_right_eq] at bytes
  have request := eq_singleton_of_flatten X.requests (by omega) bytes
  rw [request, List.length_singleton] at count
  have bytes' := midway.client_bytes
  rw [empty', List.append_nil, X.pending_of_server_waiting midway.server.suffix waits (by omega),
    List.append_nil] at bytes'
  exact ⟨request, eq_singleton_of_flatten X.answered (by omega) bytes'⟩

end Exchange

end Ssle
