import SsleExperiment.App.Session

/-! # What the two branches of main learn from each other

A first message is what was received only if the buffer had a NUL where the
received bytes end (`Ssle.App.Clean`). If all buffers had, the leader registers
the address of its first receive, and the participant decodes the key of its
own. Both then get what was sent exactly when their receives have taken whole
messages, and then the session deadlocks: both branches get to their ends
exactly when one of the two has been misinformed
(`Ssle.App.deadlocked_iff_informed`).
-/

namespace Ssle.App

open Processes Utils PPRF

/-! ## Messages -/

/-- The buffer has a NUL where the bytes that the report brings end. -/
def Clean (buff : Buffer) (report : Report defaultLen Char) : Prop :=
  buff.1[report.brings.length]? = some '\x00'

/-- The buffers of all receives so far had. -/
structure AllClean {α : Type}
    (state : Peers defaultLen Char Buffer LeaderMemory (ParticipantMemory α) Fault) : Prop where
  leader : ∀ entry ∈ state.server.log, Clean entry.1 entry.2
  participant : ∀ entry ∈ state.client.log, Clean entry.1 entry.2

theorem AllClean.of_logs {α : Type} {state : Parties α}
    {log log' : List (Buffer × Report defaultLen Char)} (server : state.server.log = log)
    (client : state.client.log = log') (clean : ∀ entry ∈ log, Clean entry.1 entry.2)
    (clean' : ∀ entry ∈ log', Clean entry.1 entry.2) : AllClean state :=
  ⟨server ▸ clean, client ▸ clean'⟩

/-- A zero-filled buffer is clean for anything shorter. -/
theorem clean_zeroFilled {report : Report defaultLen Char}
    (short : report.brings.length < defaultLen) : Clean zeroFilled report := by
  rw [Clean, zeroFilled, List.getElem?_replicate, if_pos short]

/-- Whatever is reported, the buffer holds the received bytes and then what it
held before. -/
theorem overwrite_recvOf (buff : Buffer) (report : Report defaultLen Char) :
    (recvOf report).overwrite buff = report.brings ++ buff.1.drop report.brings.length := by
  cases report <;> rfl

/-- Over a clean buffer the message is what was received. -/
theorem messageOf_eq {buff : Buffer} {report : Report defaultLen Char} (clean : Clean buff report)
    (plain : ∀ c ∈ report.brings, Plain c) : messageOf buff report = .ok report.brings := by
  obtain ⟨inside, nul⟩ := List.getElem?_eq_some_iff.mp clean
  have noNul : ∀ c ∈ report.brings, decide (c ≠ '\x00') = true := fun c member =>
    decide_eq_true (plain c member).1
  have kept : report.brings.filter (fun c => !unuseful c) = report.brings :=
    List.filter_eq_self.mpr fun c member => by rw [(plain c member).2]; rfl
  rw [messageOf, overwrite_recvOf, List.drop_eq_getElem_cons inside, nul, cString,
    if_pos (by simp), List.takeWhile_append_of_pos noNul]
  simp only [ne_eq, not_true_eq_false, decide_false, Bool.false_eq_true, not_false_eq_true,
    List.takeWhile_cons_of_neg, List.append_nil]
  exact congrArg Except.ok kept

/-- A first message is read as what was received. -/
theorem readFirst_of_clean {α : Type} {read : Str → Except Fault α} {serverport : Int32}
    {buff : Buffer} {report : Report defaultLen Char} (clean : Clean buff report)
    (plain : ∀ c ∈ report.brings, Plain c) :
    readFirst read serverport buff report = read report.brings := by
  rw [readFirst_eq, messageOf_eq clean plain]
  rfl

instance : DecidablePred Plain := fun _ => inferInstanceAs (Decidable (_ ∧ _))

theorem plain_of_binary {s : Str} (binary : Binary s) : ∀ c ∈ s, Plain c := by
  intro c member
  rcases binary c member with rfl | rfl
  · exact ⟨by decide, by decide⟩
  · exact ⟨by decide, by decide⟩

theorem plain_of_isDigit {c : Char} (digit : c.isDigit) : Plain c := by
  obtain ⟨low, high⟩ := Char.isDigit_iff_toNat.mp digit
  have other (d : Char) (control : d.toNat < '0'.toNat) : c ≠ d := by
    rintro rfl
    exact absurd low (Nat.not_le.mpr control)
  refine ⟨other _ (by decide), ?_⟩
  simp [unuseful, other]

/-- The characters of a number are plain. -/
theorem plain_toString (n : Int) : ∀ c ∈ (toString n).toList, Plain c := by
  intro c member
  rcases mem_toString member with rfl | digit
  · exact ⟨by decide, by decide⟩
  · exact plain_of_isDigit digit

/-- A port has at most eleven characters. -/
theorem length_toString_le (n : Int32) : (toString n.toInt).toList.length ≤ 11 := by
  have low := Int32.le_toInt n
  have high := Int32.toInt_lt n
  have few {m : Nat} (small : m < 10 ^ 10) : (Nat.toDigits 10 m).length ≤ 10 :=
    (Nat.length_toDigits_le_iff (by decide) (by decide)).mpr small
  rw [Int.toString_eq_repr, Int.repr_eq_if]
  split
  · rw [Nat.toList_repr]
    exact (few (by omega)).trans (by decide)
  · rw [String.toList_append, List.length_append, Nat.toList_repr]
    exact Nat.add_le_add_left (few (by omega)) 1

/-- Addresses of the app have colons for delimiters. -/
theorem address_eq_addressBy (ipaddr : Str) (portno : Int32) :
    address ipaddr portno = addressBy ':' ipaddr portno := address_eq ipaddr portno

/-- An address of the host has plain characters only. -/
theorem plain_addressBy {del : Char} (plain : Plain del) (portno : Int32) :
    ∀ c ∈ addressBy del host portno, Plain c := by
  intro c member
  rw [addressBy, List.mem_append, List.mem_cons] at member
  rcases member with front | rfl | digit
  · have plain : host.all fun c => decide (Plain c) := by decide
    exact of_decide_eq_true (List.all_eq_true.mp plain c front)
  · exact plain
  · exact plain_toString _ c digit

/-- An address of the host leaves room in the buffer. -/
theorem length_addressBy_lt (del : Char) (portno : Int32) :
    (addressBy del host portno).length < defaultLen := by
  have few := length_toString_le portno
  have size : host.length = 9 := rfl
  rw [addressBy, List.length_append, List.length_cons, size, defaultLen]
  omega

theorem length_address_lt (portno : Int32) : (address host portno).length < defaultLen :=
  address_eq_addressBy host portno ▸ length_addressBy_lt ':' portno

/-- The address of a participant is registered. -/
theorem registration_host (portno : Int32) :
    registration (address host portno) = .ok (Node.make host portno) :=
  registration_address (by decide) ((length_address_lt portno).trans (by decide))

theorem length_uint64ToBinString_lt (prfkey : UInt64) :
    (uint64ToBinString prfkey).length < defaultLen := by
  rw [length_uint64ToBinString]
  decide

/-- The address is registered from its pieces only if they are whole. -/
theorem registration_piece_iff {portno : Int32} (other : portno ≠ 127) {piece : Str}
    (some : piece ≠ []) (place : piece <+: address host portno) :
    registration piece = .ok (Node.make host portno) ↔ piece = address host portno := by
  have short := length_addressBy_lt ':' portno
  rw [address_eq_addressBy] at place ⊢
  rw [registration, registrationBy_prefix_iff (by decide) (by decide) (by decide) some place
    (short.trans (by decide))]
  exact or_iff_left fun reads => other (reads.2.symm.trans (by decide))

/-- A key other than zero is decoded from its pieces only if they are whole. -/
theorem stringToUint64_piece_iff {prfkey : UInt64} (keyed : prfkey ≠ 0) {piece : Str}
    (place : piece <+: uint64ToBinString prfkey) :
    stringToUint64 piece = .ok prfkey ↔ piece = uint64ToBinString prfkey := by
  have writes := writes_uint64ToBinString prfkey
  refine ⟨fun read => ?_, fun whole => ?_⟩
  · obtain ⟨rest, same⟩ := id place
    have binary : Binary piece := Binary.left (same.symm ▸ writes.binary)
    rw [stringToUint64_eq binary (place.length_le.trans writes.fits)] at read
    by_contra partly
    have shorter : piece.length < (uint64ToBinString prfkey).length :=
      lt_of_le_of_ne place.length_le fun size => partly (place.eq_of_length size)
    have value := congrArg UInt64.toNat (Except.ok.inj read)
    rw [UInt64.toNat_ofNat_of_lt' ((bitValue_lt piece).trans_le
      (Nat.pow_le_pow_right Nat.two_pos (place.length_le.trans writes.fits))), ← writes.value,
      List.prefix_iff_eq_take.mp place, bitValue_take_eq_iff shorter, writes.value] at value
    exact keyed (UInt64.toNat_inj.mp value)
  · rw [whole]
    exact writes.read.1

/-! ## Runs over zeroed buffers -/

/-- A message that one receive can return. -/
def Sendable.chunk {msg : Str} (sendable : Sendable msg) : Chunk defaultLen Char :=
  ⟨msg, sendable.nonempty, sendable.short.trans (by decide)⟩

/-- A message that is received whole leaves a zero-filled buffer clean. -/
theorem Sendable.clean {msg : Str} (sendable : Sendable msg) :
    Clean zeroFilled (.bytes sendable.chunk) :=
  clean_zeroFilled (Nat.lt_succ_of_le sendable.short)

/-- Pieces of a message can be sent as well. -/
theorem Sendable.piece {msg piece : Str} (sendable : Sendable msg) (some : piece ≠ [])
    (place : piece <:+: msg) : Sendable piece where
  nonempty := some
  short := place.length_le.trans sendable.short
  plain c member := sendable.plain c (place.subset member)

theorem sendable_addressBy {del : Char} (plain : Plain del) (portno : Int32) :
    Sendable (addressBy del host portno) where
  nonempty := List.append_ne_nil_of_right_ne_nil _ (List.cons_ne_nil _ _)
  short := Nat.le_of_lt_succ (length_addressBy_lt del portno)
  plain := plain_addressBy plain portno

theorem sendable_address (portno : Int32) : Sendable (address host portno) :=
  address_eq_addressBy host portno ▸ sendable_addressBy (by decide) portno

/-- A key can be sent. -/
theorem sendable_key (prfkey : UInt64) : Sendable (uint64ToBinString prfkey) where
  nonempty := uint64ToBinString_ne_nil prfkey
  short := Nat.le_of_lt_succ (length_uint64ToBinString_lt prfkey)
  plain := plain_of_binary (writes_uint64ToBinString prfkey).binary

section Zeroed

variable {register : Str → Except Fault Node} {α : Type} {decode : Str → Except Fault α}
  {serverport : Int32} {msg : Str} (sendable : Sendable msg)

/-- A message received whole over a zero-filled buffer is read as itself. -/
theorem readFirst_sendable (read : Str → Except Fault α) (serverport : Int32) :
    readFirst read serverport zeroFilled (.bytes sendable.chunk) = read msg :=
  readFirst_of_clean sendable.clean sendable.plain

/-- The leader registers a message that it receives whole. -/
theorem leaderComputation_sendable {node : Node} (registers : register msg = .ok node) :
    leaderComputation register 0 zeroFilled (.bytes sendable.chunk) (leading serverport) =
      .ok ⟨Node.make host serverport, [Node.make host serverport, node]⟩ := by
  rw [leading, leaderComputation_zero, readFirst_sendable sendable register, registers]
  rfl

/-- The participant decodes a message that it receives whole. -/
theorem participantComputation_sendable {value : α} (decodes : decode msg = .ok value) :
    participantComputation decode 0 zeroFilled (.bytes sendable.chunk)
      (participating α serverport) = .ok ⟨Node.make host serverport, some value⟩ := by
  rw [participating, participantComputation_zero, readFirst_sendable sendable decode, decodes]
  rfl

theorem nextMessage_sendable :
    nextMessage zeroFilled (.bytes sendable.chunk) (Node.make host serverport) =
      .ok (msg, Node.make host serverport) := by
  rw [nextMessage_eq, messageOf_eq sendable.clean sendable.plain]
  rfl

/-- A second message changes nothing for the leader. -/
theorem leaderComputation_later (register : Str → Except Fault Node) (nodes : List Node) :
    leaderComputation register 1 zeroFilled (.bytes sendable.chunk)
      ⟨Node.make host serverport, nodes⟩ = .ok ⟨Node.make host serverport, nodes⟩ := by
  rw [leaderComputation, nextMessage_sendable]
  rfl

/-- A second message changes nothing for the participant. -/
theorem participantComputation_later (decode : Str → Except Fault α) (read : Option α) :
    participantComputation decode 1 zeroFilled (.bytes sendable.chunk)
      ⟨Node.make host serverport, read⟩ = .ok ⟨Node.make host serverport, read⟩ := by
  rw [participantComputation, nextMessage_sendable]
  rfl

end Zeroed

section Dialogue

variable {α : Type} {X : Exchange Char} {register : Str → Except Fault Node}
  {decode : Str → Except Fault α} {serverport : Int32}

/-- If both messages are read, some session deadlocks. -/
theorem exists_deadlocked {node : Node} {value : α} (request : Sendable X.request)
    (stream : Sendable X.stream) (registers : register X.request = .ok node)
    (decodes : decode X.stream = .ok value) :
    ∃ state, Processes.Reachable (leaderComputation register) (participantComputation decode)
      (dialogueOf X register decode serverport).start state ∧ AllClean state ∧
      Deadlocked state := by
  obtain ⟨state, reachable, deadlocked, log, log'⟩ :=
    Dialogue.exists_deadlocked (D := dialogueOf X register decode serverport)
      (rfl : request.chunk.bytes = _) (rfl : stream.chunk.bytes = _)
      (leaderComputation_sendable request registers)
      (participantComputation_sendable stream decodes)
  have clean : AllClean state := .of_logs log log'
    (List.forall_mem_singleton.mpr request.clean) (List.forall_mem_singleton.mpr stream.clean)
  exact ⟨state, reachable, clean, deadlocked⟩

/-- If first pieces of the messages are read, some session gets through. -/
theorem exists_through {piece piece₂ piece' piece₂' rest rest' : Str} {node : Node} {value : α}
    (request : piece ++ (piece₂ ++ rest) = X.request)
    (stream : piece' ++ (piece₂' ++ rest') = X.stream)
    (first : Sendable piece) (second : Sendable piece₂) (first' : Sendable piece')
    (second' : Sendable piece₂') (registers : register piece = .ok node)
    (decodes : decode piece' = .ok value) :
    ∃ state, Processes.Reachable (leaderComputation register) (participantComputation decode)
      (dialogueOf X register decode serverport).start state ∧ AllClean state ∧
      Ended state ∧ state.server.stopped = none ∧ state.client.stopped = none := by
  obtain ⟨state, reachable, ended, stopped, stopped', log, log'⟩ :=
    Dialogue.exists_through (D := dialogueOf X register decode serverport)
      (request : first.chunk.bytes ++ (second.chunk.bytes ++ _) = _)
      (stream : first'.chunk.bytes ++ (second'.chunk.bytes ++ _) = _)
      (leaderComputation_sendable first registers) (leaderComputation_later second register _)
      (participantComputation_sendable first' decodes)
      (participantComputation_later second' decode _)
  have clean : AllClean state := .of_logs log log'
    (List.forall_mem_cons.mpr ⟨first.clean, List.forall_mem_singleton.mpr second.clean⟩)
    (List.forall_mem_cons.mpr ⟨first'.clean, List.forall_mem_singleton.mpr second'.clean⟩)
  exact ⟨state, reachable, clean, ended, stopped, stopped'⟩

end Dialogue

/-- The first two digits of the host of an address. -/
theorem addressBy_split (del : Char) (portno : Int32) :
    ['1'] ++ (['2'] ++ ("7.0.0.1".toList ++ del :: (toString portno.toInt).toList)) =
      addressBy del host portno := rfl

theorem sendable_digit {c : Char} (digit : c.isDigit) : Sendable [c] where
  nonempty := List.cons_ne_nil _ _
  short := List.length_singleton.trans_le (by decide)
  plain := List.forall_mem_singleton.mpr (plain_of_isDigit digit)

theorem exists_two_of_length {s : Str} (long : 2 ≤ s.length) :
    ∃ a b rest, [a] ++ ([b] ++ rest) = s := by
  match s, long with
  | a :: b :: rest, _ => exact ⟨a, b, rest, rfl⟩

/-- Some session deadlocks over clean buffers. -/
theorem exists_deadlocked_session (prfkey : UInt64) (serverport portno : Int32) :
    ∃ state, Occurs prfkey serverport portno state ∧ AllClean state ∧ Deadlocked state := by
  have stream : Sendable (exchange prfkey portno).stream :=
    stream_exchange prfkey portno ▸ sendable_key prfkey
  have decodes : stringToUint64 (exchange prfkey portno).stream = .ok prfkey := by
    rw [stream_exchange]
    exact (writes_uint64ToBinString prfkey).read.1
  exact exists_deadlocked (sendable_address portno) stream (registration_host portno) decodes

/-- Some session over clean buffers gets through. -/
theorem exists_through_session (prfkey : UInt64) (serverport portno : Int32) :
    ∃ state, Occurs prfkey serverport portno state ∧ AllClean state ∧ Ended state ∧
      state.server.stopped = none ∧ state.client.stopped = none := by
  have sent := sendable_key prfkey
  have address := addressBy_split ':' portno
  rw [← address_eq_addressBy] at address
  obtain ⟨a, b, rest, key⟩ := exists_two_of_length (s := uint64ToBinString prfkey) (by simp)
  have binary : Binary [a] := Binary.left (key ▸ (writes_uint64ToBinString prfkey).binary)
  have first : Sendable ['1'] := sendable_digit (by decide)
  have second : Sendable ['2'] := sendable_digit (by decide)
  have first' : Sendable [a] := sent.piece (List.cons_ne_nil _ _) ⟨[], _, key⟩
  have second' : Sendable [b] := sent.piece (List.cons_ne_nil _ _) ⟨[a], _, key⟩
  have registers : registration ['1'] = .ok (Node.make ['1'] 1) := by decide
  exact exists_through (X := exchange prfkey portno) address
    (key.trans (stream_exchange prfkey portno).symm) first second first' second' registers
    (stringToUint64_eq binary (by simp))

/-- **How a session ends.** Whatever the buffers held, no run is infinite, and a run
that cannot go on is a deadlock when both first receives have returned whole
messages, read without a fault; otherwise both branches are over. Some run is a
deadlock, and some run gets through. -/
theorem session_ends (prfkey : UInt64) (serverport portno : Int32) :
    (∀ run : Nat → Parties UInt64, run 0 = begun prfkey serverport portno →
      ¬ ∀ n, Acts (run n) (run (n + 1))) ∧
    (∀ state, Occurs prfkey serverport portno state → Halted state →
      (Deadlocked state ↔ Exchanged prfkey serverport portno state) ∧
      (Ended state ↔ ¬ Exchanged prfkey serverport portno state)) ∧
    (∃ state, Occurs prfkey serverport portno state ∧ AllClean state ∧ Deadlocked state) ∧
    ∃ state, Occurs prfkey serverport portno state ∧ AllClean state ∧ Ended state ∧
      state.server.stopped = none ∧ state.client.stopped = none :=
  ⟨fun run _ => not_infinite run, fun _ => stuck_session,
    exists_deadlocked_session prfkey serverport portno,
    exists_through_session prfkey serverport portno⟩

/-! ## What is learned -/

/-- The leader has registered the participant, and the participant has read the
key of the leader. -/
structure Informed (prfkey : UInt64) (serverport portno : Int32) (state : Parties UInt64) :
    Prop where
  registered : state.server.memory.nodes = [Node.make host serverport, Node.make host portno]
  decoded : state.client.memory.read = some prfkey

section Clean

variable {α γ : Type} {read : Str → Except Fault γ} {serverport : Int32} {state : Parties α}
  (clean : AllClean state) {buff : Buffer} {report : Report defaultLen Char} {msg : Str}
  (sendable : Sendable msg)

include clean sendable

/-- The first message of the leader is what it has received of a message. -/
theorem AllClean.readFirst_leader (head : state.server.log.head? = some (buff, report))
    (place : report.brings <+: msg) :
    readFirst read serverport buff report = read report.brings :=
  readFirst_of_clean (clean.leader _ (List.mem_of_head? head)) fun c member =>
    sendable.plain c (place.subset member)

/-- The first message of the participant is what it has received of a message. -/
theorem AllClean.readFirst_participant (head : state.client.log.head? = some (buff, report))
    (place : report.brings <+: msg) :
    readFirst read serverport buff report = read report.brings :=
  readFirst_of_clean (clean.participant _ (List.mem_of_head? head)) fun c member =>
    sendable.plain c (place.subset member)

end Clean

section Session

variable {prfkey : UInt64} {serverport portno : Int32} {state : Parties UInt64}
  (occurs : Occurs prfkey serverport portno state) (clean : AllClean state)

include occurs clean

/-- Whole messages inform both branches. -/
theorem informed_of_exchanged (exchanged : Exchanged prfkey serverport portno state) :
    Informed prfkey serverport portno state := by
  obtain ⟨⟨buff, report, head, brings, -⟩, ⟨buff', report', head', brings', -⟩⟩ := exchanged
  have registered : readFirst registration serverport buff report = registration report.brings :=
    clean.readFirst_leader (sendable_address portno) head (by rw [brings])
  have decoded : readFirst stringToUint64 serverport buff' report' =
      stringToUint64 report'.brings :=
    clean.readFirst_participant (sendable_key prfkey) head' (by rw [brings'])
  rw [brings, registration_host] at registered
  rw [brings', (writes_uint64ToBinString prfkey).read.1] at decoded
  refine ⟨?_, ?_⟩
  · obtain ⟨node, same, nodes⟩ | ⟨⟨fault, failed⟩, -⟩ :=
      nodes_eq (X := exchange prfkey portno) occurs head
    · cases registered.symm.trans same
      exact nodes
    · cases registered.symm.trans failed
  · obtain ⟨key, same, read⟩ | ⟨⟨fault, failed⟩, -⟩ :=
      read_eq (X := exchange prfkey portno) occurs head'
    · cases decoded.symm.trans same
      exact read
    · cases decoded.symm.trans failed

/-- A leader that has registered the participant has received a whole address. -/
theorem request_of_registered (other : portno ≠ 127)
    (nodes : state.server.memory.nodes = [Node.make host serverport, Node.make host portno])
    {buff : Buffer} {chunk : Chunk defaultLen Char}
    (head : state.server.log.head? = some (buff, .bytes chunk))
    (place : chunk.bytes <+: address host portno) :
    chunk.bytes = address host portno ∧
      ∃ node, readFirst registration serverport buff (.bytes chunk) = .ok node := by
  have same : readFirst registration serverport buff (.bytes chunk) = registration chunk.bytes :=
    clean.readFirst_leader (sendable_address portno) head place
  obtain ⟨node, read, nodes'⟩ | ⟨-, nodes'⟩ := nodes_eq (X := exchange prfkey portno) occurs head
  · cases nodes.symm.trans nodes'
    refine ⟨?_, _, read⟩
    rw [← registration_piece_iff other chunk.nonempty place, ← same, read]
  · cases nodes.symm.trans nodes'

/-- A participant that has read the key has received it as a whole. -/
theorem stream_of_decoded (keyed : prfkey ≠ 0) (read : state.client.memory.read = some prfkey)
    {buff : Buffer} {report : Report defaultLen Char}
    (head : state.client.log.head? = some (buff, report))
    (place : report.brings <+: uint64ToBinString prfkey) :
    report.brings = uint64ToBinString prfkey ∧
      ∃ key, readFirst stringToUint64 serverport buff report = .ok key := by
  have same : readFirst stringToUint64 serverport buff report = stringToUint64 report.brings :=
    clean.readFirst_participant (sendable_key prfkey) head place
  obtain ⟨key, decodes, read'⟩ | ⟨-, read'⟩ := read_eq (X := exchange prfkey portno) occurs head
  · cases read.symm.trans read'
    refine ⟨?_, _, decodes⟩
    rw [← stringToUint64_piece_iff keyed place, ← same, decodes]
  · cases read.symm.trans read'

/-- Both branches are informed exactly when they have received whole messages. -/
theorem informed_iff (keyed : prfkey ≠ 0) (other : portno ≠ 127) :
    Informed prfkey serverport portno state ↔ Exchanged prfkey serverport portno state := by
  refine ⟨fun ⟨nodes, read⟩ => ?_, informed_of_exchanged occurs clean⟩
  have some := uint64ToBinString_ne_nil prfkey
  have received : state.client.log ≠ [] := fun fresh =>
    nomatch read.symm.trans (read_of_fresh (X := exchange prfkey portno) occurs fresh)
  have opened := Dialogue.opened_of_received
    (D := dialogueOf (exchange prfkey portno) registration stringToUint64 serverport)
    occurs received
  have decoded {buff report} (head : state.client.log.head? = .some (buff, report)) :=
    stream_of_decoded occurs clean keyed read head
  cases opened with
  | answered head head' place place' accepted =>
      have key : _ <+: uint64ToBinString prfkey := stream_exchange prfkey portno ▸ place'
      exact ⟨⟨_, _, head, request_of_registered occurs clean other nodes head place⟩,
        ⟨_, _, head', decoded head' key⟩⟩
  | refused head head' place empty failed =>
      have whole := (decoded head' (empty ▸ List.nil_prefix)).1
      exact (some (whole.symm.trans empty)).elim
  | dropped head head' place empty accepted unread =>
      have whole := (decoded head' (empty ▸ List.nil_prefix)).1
      exact (some (whole.symm.trans empty)).elim

end Session

/-- **Informed sessions deadlock.** For a key other than zero and a port that
the host does not read as, a session over clean buffers that cannot go on is a
deadlock exactly when both branches are informed, and both branches are over
exactly when they are not. -/
theorem deadlocked_iff_informed (prfkey : UInt64) (serverport portno : Int32)
    (keyed : prfkey ≠ 0) (other : portno ≠ 127) (state : Parties UInt64)
    (occurs : Occurs prfkey serverport portno state) (clean : AllClean state)
    (halted : Halted state) :
    (Deadlocked state ↔ Informed prfkey serverport portno state) ∧
      (Ended state ↔ ¬ Informed prfkey serverport portno state) := by
  rw [informed_iff occurs clean keyed other]
  exact stuck_session occurs halted

/-- A session that deadlocks over clean buffers. -/
theorem deadlocked_iff_informed_of_nine :
    ∃ state, (9 : UInt64) ≠ 0 ∧ (18888 : Int32) ≠ 127 ∧ Occurs 9 1234 18888 state ∧
      AllClean state ∧ Halted state ∧
      (Deadlocked state ↔ Informed 9 1234 18888 state) ∧
        (Ended state ↔ ¬ Informed 9 1234 18888 state) := by
  obtain ⟨state, occurs, clean, deadlocked⟩ := exists_deadlocked_session 9 1234 18888
  have halted : Halted state := (stuck_iff defaultLen_pos).mpr (.inr deadlocked)
  exact ⟨state, by decide, by decide, occurs, clean, halted,
    deadlocked_iff_informed 9 1234 18888 (by decide) (by decide) state occurs clean halted⟩

end Ssle.App
