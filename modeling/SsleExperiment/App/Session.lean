import SsleExperiment.App.Communication
import SsleExperiment.App.Fragments
import SsleExperiment.Interaction.Outcomes
import SsleExperiment.Utils.Decoders

/-! # The two branches of main as processes

Between its calls on the socket the leader registers what it has received, and
the participant decodes it. Both may fail, on what `recv` has left in an
uninitialised buffer, and a branch that fails is over. A session that cannot go
on is a deadlock exactly when both first receives have returned whole messages
and were then read without a fault; otherwise both branches are over
(`Ssle.App.stuck_session`).
-/

namespace Ssle.App

open Processes Utils

/-! ## Receives -/

/-- What a receive reports to `receive_message`. -/
def recvOf : Report defaultLen Char → Recv
  | .bytes chunk => .bytes ⟨chunk.bytes, chunk.nonempty, chunk.fits⟩
  | .endOfStream => .endOfStream
  | .error => .error

/-- `receive_message` and then `get_message`, over what the buffer holds before. -/
def nextMessage (buff : Buffer) (report : Report defaultLen Char) (node : Node) :
    Except Fault (Str × Node) := do
  let (_, node) ← node.receiveMessage (recvOf report) buff
  return node.getMessage

/-- What the leader branch has: its own node, and the list of nodes. -/
structure LeaderMemory where
  thisNode : Node
  nodes : List Node

/-- What the participant branch has: the node it receives with, and what it has
read from its first message. -/
structure ParticipantMemory (α : Type) where
  remoteNode : Node
  read : Option α

/-- The leader after its receives: it registers the first message, and prints the
second. -/
def leaderComputation (register : Str → Except Fault Node) :
    Computation defaultLen Char Buffer LeaderMemory Fault
  | 0, buff, report, memory => do
      let (str, thisNode) ← nextMessage buff report memory.thisNode
      let participant ← register str
      return ⟨thisNode, memory.nodes ++ [participant]⟩
  | _ + 1, buff, report, memory => do
      let (_, thisNode) ← nextMessage buff report memory.thisNode
      return { memory with thisNode := thisNode }

/-- The participant after its receives: it decodes the first message, and prints
the second. -/
def participantComputation {α : Type} (decode : Str → Except Fault α) :
    Computation defaultLen Char Buffer (ParticipantMemory α) Fault
  | 0, buff, report, memory => do
      let (received, remoteNode) ← nextMessage buff report memory.remoteNode
      let value ← decode received
      return ⟨remoteNode, some value⟩
  | _ + 1, buff, report, memory => do
      let (_, remoteNode) ← nextMessage buff report memory.remoteNode
      return { memory with remoteNode := remoteNode }

/-- The host of both nodes of `main`. -/
def host : Str := "127.0.0.1".toList

/-- What the first message to the node of the leader's port is read as. -/
def readFirst {α : Type} (read : Str → Except Fault α) (serverport : Int32) (buff : Buffer)
    (report : Report defaultLen Char) : Except Fault α := do
  let (str, _) ← nextMessage buff report (Node.make host serverport)
  read str

/-- The message that `receive_message` makes of a report. -/
def messageOf (buff : Buffer) (report : Report defaultLen Char) : Except Fault Str := do
  let msg ← cString ((recvOf report).overwrite buff)
  return msg.filter fun c => !unuseful c

/-- A node without messages is as before after a message has come and gone. -/
theorem nextMessage_eq (buff : Buffer) (report : Report defaultLen Char) (ipaddr : Str)
    (portno : Int32) :
    nextMessage buff report (Node.make ipaddr portno) =
      (messageOf buff report).map fun str => (str, Node.make ipaddr portno) := by
  rw [nextMessage, Node.receiveMessage, messageOf]
  cases cString ((recvOf report).overwrite buff) <;> rfl

/-- The first message is made of the report, and then read. -/
theorem readFirst_eq {α : Type} (read : Str → Except Fault α) (serverport : Int32)
    (buff : Buffer) (report : Report defaultLen Char) :
    readFirst read serverport buff report = messageOf buff report >>= read := by
  rw [readFirst, nextMessage_eq]
  cases messageOf buff report <;> rfl

section Computation

variable {register : Str → Except Fault Node} {α : Type} {decode : Str → Except Fault α}
  {serverport : Int32} {buff : Buffer} {report : Report defaultLen Char}

/-- The leader registers the participant behind itself. -/
theorem leaderComputation_zero (nodes : List Node) :
    leaderComputation register 0 buff report ⟨Node.make host serverport, nodes⟩ =
      (readFirst register serverport buff report).map fun participant =>
        ⟨Node.make host serverport, nodes ++ [participant]⟩ := by
  rw [leaderComputation, readFirst, nextMessage_eq]
  cases messageOf buff report with
  | error fault => rfl
  | ok str =>
      change (register str >>= _) = (register str).map _
      cases register str <;> rfl

/-- The participant remembers what it has read first. -/
theorem participantComputation_zero (read : Option α) :
    participantComputation decode 0 buff report ⟨Node.make host serverport, read⟩ =
      (readFirst decode serverport buff report).map fun value =>
        ⟨Node.make host serverport, some value⟩ := by
  rw [participantComputation, readFirst, nextMessage_eq]
  cases messageOf buff report with
  | error fault => rfl
  | ok str =>
      change (decode str >>= _) = (decode str).map _
      cases decode str <;> rfl

/-- Later messages do not change the list of nodes. -/
theorem nodes_of_later {count : Nat} {memory memory' : LeaderMemory}
    (computed : leaderComputation register (count + 1) buff report memory = .ok memory') :
    memory'.nodes = memory.nodes := by
  obtain ⟨_, _, same⟩ := bind_eq_ok_iff.mp computed
  cases same
  rfl

/-- Later messages do not change what has been read. -/
theorem read_of_later {count : Nat} {memory memory' : ParticipantMemory α}
    (computed : participantComputation decode (count + 1) buff report memory = .ok memory') :
    memory'.read = memory.read := by
  obtain ⟨_, _, same⟩ := bind_eq_ok_iff.mp computed
  cases same
  rfl

end Computation

/-! ## How a session ends -/

/-- A leader and a participant. -/
abbrev Parties (α : Type) :=
  Peers defaultLen Char Buffer LeaderMemory (ParticipantMemory α) Fault

/-- The leader, which has registered itself. -/
def leading (serverport : Int32) : LeaderMemory :=
  ⟨Node.make host serverport, [Node.make host serverport]⟩

/-- The participant, before it has received anything. -/
def participating (α : Type) (serverport : Int32) : ParticipantMemory α :=
  ⟨Node.make host serverport, none⟩

/-- Both first receives have returned whole messages, and what they left in the
buffers was read without a fault. -/
structure FirstsWhole {α : Type} (register : Str → Except Fault Node)
    (decode : Str → Except Fault α) (serverport : Int32) (request stream : Str)
    (state : Parties α) : Prop where
  leader : ∃ buff report, state.server.log.head? = some (buff, report) ∧
    report.brings = request ∧ ∃ node, readFirst register serverport buff report = .ok node
  participant : ∃ buff report, state.client.log.head? = some (buff, report) ∧
    report.brings = stream ∧ ∃ value, readFirst decode serverport buff report = .ok value

/-- The messages of a leader and a participant, and what they compute. -/
def dialogueOf {α : Type} (X : Exchange Char) (register : Str → Except Fault Node)
    (decode : Str → Except Fault α) (serverport : Int32) :
    Dialogue defaultLen Char Buffer LeaderMemory (ParticipantMemory α) Fault :=
  { X with
    serve := leaderComputation register
    use := participantComputation decode
    serverMemory := leading serverport
    clientMemory := participating α serverport }

theorem map_eq_error_iff {ε α β : Type} {f : α → β} {result : Except ε α} {fault : ε} :
    result.map f = .error fault ↔ result = .error fault := by
  cases result with
  | error other => exact ⟨fun same => by cases same; rfl, fun same => by cases same; rfl⟩
  | ok value => exact iff_of_false nofun nofun

/-- Mapping the result keeps whether there is one. -/
theorem map_eq_ok_iff {ε α β : Type} {f : α → β} {result : Except ε α} :
    (∃ value, result.map f = .ok value) ↔ ∃ value, result = .ok value := by
  cases result with
  | error fault => exact iff_of_false nofun nofun
  | ok value => exact iff_of_true ⟨_, rfl⟩ ⟨_, rfl⟩

section Dialogue

variable {α : Type} {X : Exchange Char} {register : Str → Except Fault Node}
  {decode : Str → Except Fault α} {serverport : Int32} {state : Parties α}

/-- The leader goes on exactly when it can register its first message. -/
theorem leader_computes_iff {buff : Buffer} {report : Report defaultLen Char} :
    (∃ memory, leaderComputation register 0 buff report (leading serverport) = .ok memory) ↔
      ∃ node, readFirst register serverport buff report = .ok node := by
  rw [leading, leaderComputation_zero]
  exact map_eq_ok_iff

/-- The leader fails exactly when it cannot register its first message. -/
theorem leader_fails_iff {buff : Buffer} {report : Report defaultLen Char} :
    (∃ fault, leaderComputation register 0 buff report (leading serverport) = .error fault) ↔
      ∃ fault, readFirst register serverport buff report = .error fault := by
  rw [leading, leaderComputation_zero]
  exact exists_congr fun fault => map_eq_error_iff

/-- The participant goes on exactly when it can decode its first message. -/
theorem participant_computes_iff {buff : Buffer} {report : Report defaultLen Char} :
    (∃ memory, participantComputation decode 0 buff report (participating α serverport) =
        .ok memory) ↔
      ∃ value, readFirst decode serverport buff report = .ok value := by
  rw [participating, participantComputation_zero]
  exact map_eq_ok_iff

/-- The leader accepts whole messages that it can register. -/
theorem accepts_leader_iff {message : Str} {entry : Buffer × Report defaultLen Char} :
    Accepts (leaderComputation register) (leading serverport) message entry ↔
      entry.2.brings = message ∧
        ∃ node, readFirst register serverport entry.1 entry.2 = .ok node := by
  rw [← leader_computes_iff]
  exact ⟨fun accepts => ⟨accepts.brings, accepts.computed⟩, fun both => ⟨both.1, both.2⟩⟩

/-- The participant accepts whole messages that it can decode. -/
theorem accepts_participant_iff {message : Str} {entry : Buffer × Report defaultLen Char} :
    Accepts (participantComputation decode) (participating α serverport) message entry ↔
      entry.2.brings = message ∧
        ∃ value, readFirst decode serverport entry.1 entry.2 = .ok value := by
  rw [← participant_computes_iff]
  exact ⟨fun accepts => ⟨accepts.brings, accepts.computed⟩, fun both => ⟨both.1, both.2⟩⟩

/-- A settled dialogue is one of whole messages on both sides. -/
theorem settled_iff : (dialogueOf X register decode serverport).Settled state ↔
    FirstsWhole register decode serverport X.request X.stream state := by
  constructor
  · rintro ⟨⟨entry, head, accepts⟩, ⟨entry', head', accepts'⟩⟩
    exact ⟨⟨_, _, head, accepts_leader_iff.mp accepts⟩,
      ⟨_, _, head', accepts_participant_iff.mp accepts'⟩⟩
  · rintro ⟨⟨buff, report, head, whole⟩, ⟨buff', report', head', whole'⟩⟩
    exact ⟨⟨_, head, accepts_leader_iff.mpr whole⟩, ⟨_, head', accepts_participant_iff.mpr whole'⟩⟩

instance : Nonempty Buffer := ⟨zeroFilled⟩

theorem defaultLen_pos : 0 < defaultLen := by decide

/-- A session that cannot go on is a deadlock if the first receives were whole,
and both parties are over otherwise. -/
theorem stuck_dialogueOf
    (reachable : Processes.Reachable (leaderComputation register) (participantComputation decode)
      (dialogueOf X register decode serverport).start state)
    (stuck : Processes.Stuck (leaderComputation register) (participantComputation decode) state) :
    (Deadlocked state ↔ FirstsWhole register decode serverport X.request X.stream state) ∧
      (Ended state ↔ ¬ FirstsWhole register decode serverport X.request X.stream state) := by
  rw [← settled_iff]
  exact Dialogue.stuck_cases (D := dialogueOf X register decode serverport) defaultLen_pos
    reachable stuck

/-- The list of nodes shows what the first message was registered as. -/
theorem nodes_eq
    (reachable : Processes.Reachable (leaderComputation register) (participantComputation decode)
      (dialogueOf X register decode serverport).start state)
    {buff : Buffer} {report : Report defaultLen Char}
    (head : state.server.log.head? = some (buff, report)) :
    (∃ node, readFirst register serverport buff report = .ok node ∧
        state.server.memory.nodes = [Node.make host serverport, node]) ∨
      (∃ fault, readFirst register serverport buff report = .error fault) ∧
        state.server.memory.nodes = [Node.make host serverport] := by
  have recorded := (Processes.Reachable.recorded reachable).1
  exact recorded.view_of_map LeaderMemory.nodes
    (fun _ _ _ _ _ computed => nodes_of_later computed) head (leaderComputation_zero _)

/-- What the participant has read shows what its first message was decoded as. -/
theorem read_eq
    (reachable : Processes.Reachable (leaderComputation register) (participantComputation decode)
      (dialogueOf X register decode serverport).start state)
    {buff : Buffer} {report : Report defaultLen Char}
    (head : state.client.log.head? = some (buff, report)) :
    (∃ value, readFirst decode serverport buff report = .ok value ∧
        state.client.memory.read = some value) ∨
      (∃ fault, readFirst decode serverport buff report = .error fault) ∧
        state.client.memory.read = none := by
  have recorded := (Processes.Reachable.recorded reachable).2
  exact recorded.view_of_map ParticipantMemory.read
    (fun _ _ _ _ _ computed => read_of_later computed) head (participantComputation_zero _)

/-- A participant that has not received has not read. -/
theorem read_of_fresh
    (reachable : Processes.Reachable (leaderComputation register) (participantComputation decode)
      (dialogueOf X register decode serverport).start state)
    (fresh : state.client.log = []) : state.client.memory.read = none := by
  have recorded := (Processes.Reachable.recorded reachable).2
  exact congrArg ParticipantMemory.read (recorded.memory_of_fresh fresh)

end Dialogue

/-! ## The session of main -/

/-- The connected leader and participant. -/
def begun (prfkey : UInt64) (serverport portno : Int32) : Parties UInt64 where
  server := .starting (leaderScript (uint64ToBinString prfkey)) (leading serverport)
  client := .starting (participantScript (address host portno)) (participating UInt64 serverport)

/-- One branch of `main` acts. -/
abbrev Acts (state next : Parties UInt64) : Prop :=
  Processes.Step (leaderComputation registration) (participantComputation stringToUint64) state next

/-- The states of a session. -/
abbrev Occurs (prfkey : UInt64) (serverport portno : Int32) (state : Parties UInt64) : Prop :=
  Processes.Reachable (leaderComputation registration) (participantComputation stringToUint64)
    (begun prfkey serverport portno) state

/-- Neither branch of `main` can act. -/
abbrev Halted (state : Parties UInt64) : Prop :=
  Processes.Stuck (leaderComputation registration) (participantComputation stringToUint64) state

/-- The messages of the two branches. -/
def exchange (prfkey : UInt64) (portno : Int32) : Exchange Char where
  request := address host portno
  answers := [uint64ToBinString prfkey]
  acknowledgement := "hello".toList
  requests := address_ne_nil host portno
  answered := by simpa using uint64ToBinString_ne_nil prfkey

theorem stream_exchange (prfkey : UInt64) (portno : Int32) :
    (exchange prfkey portno).stream = uint64ToBinString prfkey := List.append_nil _

/-- While neither branch is over, a session is one of the communication alone. -/
theorem Occurs.session {prfkey : UInt64} {serverport portno : Int32} {state : Parties UInt64}
    (occurs : Occurs prfkey serverport portno state) (present : Present state) :
    Session.Reachable defaultLen (connected prfkey host portno) state.session :=
  Processes.Reachable.session occurs present

/-- Both branches of `main` have received whole messages, and have read them
without a fault. -/
abbrev Exchanged (prfkey : UInt64) (serverport portno : Int32) (state : Parties UInt64) : Prop :=
  FirstsWhole registration stringToUint64 serverport (address host portno)
    (uint64ToBinString prfkey) state

/-- A session that cannot go on is a deadlock if both have received whole messages, and
over otherwise. -/
theorem stuck_session {prfkey : UInt64} {serverport portno : Int32} {state : Parties UInt64}
    (occurs : Occurs prfkey serverport portno state) (halted : Halted state) :
    (Deadlocked state ↔ Exchanged prfkey serverport portno state) ∧
      (Ended state ↔ ¬ Exchanged prfkey serverport portno state) := by
  have ends := stuck_dialogueOf (X := exchange prfkey portno) occurs halted
  rwa [stream_exchange] at ends

end Ssle.App
