import SsleExperiment.App.Delivery

/-! # What a first receive can make of a session

The leader and the participant may be misinformed by a first receive that has
returned a piece of a message (`Ssle.App.deadlocked_iff_informed`), even over
clean buffers. Every piece is possible, on both sides independently. So the
leader registers the address cut off in the host, with what is left of the host
as the port, or cut off in the port, or it fails on the delimiter with nothing
after it (`Ssle.App.registers_iff`). The participant decodes the leading bits of
the key, that is the key shifted to the right, or zero, if the leader has failed
or has reset the stream. No session makes anything else of the two messages
(`Ssle.App.misreadings_iff`).
-/

namespace Ssle.App

open Processes Utils PPRF

/-- What the leader makes of a piece of a participant's address. -/
inductive Registers (portno : Int32) : Str → Except Fault Node → Prop
  /-- The piece ends in the host, and is read as the port as well. -/
  | host {piece : Str} (some : piece ≠ []) (place : piece <+: host) :
      Registers portno piece (.ok (Node.make piece (atoi piece)))
  /-- The piece ends after the delimiter. -/
  | delimiter : Registers portno (host ++ [':']) (.error .indexOutOfRange)
  /-- The piece ends in the port. -/
  | port {digits : Str} (some : digits ≠ []) (place : digits <+: (toString portno.toInt).toList) :
      Registers portno (host ++ ':' :: digits) (.ok (Node.make host (atoi digits)))

theorem not_mem_of_prefix_host {piece : Str} (place : piece <+: host) : ':' ∉ piece :=
  fun member => absurd (place.subset member) (by decide)

/-- A piece of the host is registered with itself for its port. -/
theorem registration_of_host {piece : Str} (some : piece ≠ []) (place : piece <+: host) :
    registration piece = .ok (Node.make piece (atoi piece)) := by
  have short : piece.length ≤ host.length := place.length_le
  exact registrationBy_of_not_mem some (not_mem_of_prefix_host place)
    (short.trans_lt (by decide))

/-- A piece of the port is registered, unless it is empty. -/
theorem registration_of_digits {portno : Int32} {digits : Str}
    (place : digits <+: (toString portno.toInt).toList) :
    registration (host ++ ':' :: digits) =
      if digits = [] then .error .indexOutOfRange else .ok (Node.make host (atoi digits)) := by
  have few := place.length_le.trans (length_toString_le portno)
  have freePort : ':' ∉ digits := fun member =>
    not_mem_toString portno.toInt (by decide) (by decide) (place.subset member)
  apply registrationBy_of_mem (by decide) freePort
  rw [List.length_append, List.length_cons]
  exact (Nat.add_le_add_left (Nat.succ_le_succ few) host.length).trans_lt (by decide)

/-- The pieces of an address that end in the port, or before it. -/
theorem prefix_address_of_digits {portno : Int32} {digits : Str}
    (place : digits <+: (toString portno.toInt).toList) :
    host ++ ':' :: digits <+: address host portno := by
  rw [address_eq, List.prefix_append_right_inj, List.prefix_cons_inj]
  exact place

theorem prefix_address_of_host {portno : Int32} {piece : Str} (place : piece <+: host) :
    piece <+: address host portno := by
  rw [address_eq]
  exact place.trans (List.prefix_append _ _)

/-- **Pieces of an address.** The leader makes of each piece what is said of it. -/
theorem registers_iff {portno : Int32} {piece : Str} {registered : Except Fault Node} :
    Registers portno piece registered ↔
      piece ≠ [] ∧ piece <+: address host portno ∧ registration piece = registered := by
  constructor
  · rintro (⟨some, place⟩ | _ | ⟨some, place⟩)
    · exact ⟨some, prefix_address_of_host place, registration_of_host some place⟩
    · have none : [] <+: (toString portno.toInt).toList := List.nil_prefix
      exact ⟨by simp, prefix_address_of_digits none, registration_of_digits none⟩
    · refine ⟨by simp, prefix_address_of_digits place, ?_⟩
      rw [registration_of_digits place, if_neg some]
  · rintro ⟨some, place, rfl⟩
    rw [address_eq_addressBy] at place
    rcases addressBy_prefix place with front | ⟨digits, rfl, port⟩
    · rw [registration_of_host some front]
      exact .host some front
    · rw [registration_of_digits port]
      split
      next none => exact none ▸ .delimiter
      next some => exact .port some port

/-- Dropping last bits is shifting to the right. -/
theorem ofNat_div_eq {prfkey : UInt64} {count : Nat} (few : count < 64) :
    UInt64.ofNat (prfkey.toNat / 2 ^ count) = prfkey >>> UInt64.ofNat count := by
  have small := (Nat.div_le_self prfkey.toNat (2 ^ count)).trans_lt prfkey.toNat_lt
  rw [← UInt64.toNat_inj, UInt64.toNat_ofNat_of_lt' small, UInt64.toNat_shiftRight,
    UInt64.toNat_ofNat_of_lt' (few.trans (by decide)), Nat.mod_eq_of_lt few,
    Nat.shiftRight_eq_div_pow]

/-- A piece of a key decodes to its leading bits. -/
theorem stringToUint64_take {prfkey : UInt64} {count : Nat} (few : count < 64) :
    stringToUint64 ((uint64ToBinString prfkey).take (64 - count)) =
      .ok (prfkey >>> UInt64.ofNat count) := by
  have writes := writes_uint64ToBinString prfkey
  have size : (uint64ToBinString prfkey).length = 64 - count + count := by
    rw [length_uint64ToBinString]
    omega
  have whole := List.take_append_drop (64 - count) (uint64ToBinString prfkey)
  have binary : Binary ((uint64ToBinString prfkey).take (64 - count)) :=
    Binary.left (whole.symm ▸ writes.binary)
  have fits := (List.length_take_le (64 - count) (uint64ToBinString prfkey)).trans
    (Nat.sub_le 64 count)
  rw [stringToUint64_eq binary fits, bitValue_take _ size, writes.value, ofNat_div_eq few]

/-- The pieces of a key are read as the key without some of its last bits. -/
theorem exists_piece_of_key_iff {prfkey : UInt64} {decoded : Except Fault UInt64} :
    (∃ piece, piece ≠ [] ∧ piece <+: uint64ToBinString prfkey ∧
      stringToUint64 piece = decoded) ↔
      ∃ count < 64, decoded = .ok (prfkey >>> UInt64.ofNat count) := by
  constructor
  · rintro ⟨piece, some, place, rfl⟩
    have positive := List.length_pos_iff.mpr some
    have fits := place.length_le
    rw [length_uint64ToBinString] at fits
    refine ⟨64 - piece.length, by omega, ?_⟩
    rw [← stringToUint64_take (by omega), Nat.sub_sub_self fits]
    exact congrArg stringToUint64 (List.prefix_iff_eq_take.mp place)
  · rintro ⟨count, few, rfl⟩
    refine ⟨_, ?_, List.take_prefix _ _, stringToUint64_take few⟩
    rw [← List.length_pos_iff, List.length_take, length_uint64ToBinString]
    omega

theorem stringToUint64_nil : stringToUint64 [] = .ok 0 :=
  stringToUint64_eq (fun _ impossible => nomatch impossible) (Nat.zero_le 64)

/-! ## What both make of a session -/

/-- What the leader registers and the participant decodes from their first
messages. -/
structure Reads (serverport : Int32) (state : Parties UInt64) (registered : Except Fault Node)
    (decoded : Except Fault UInt64) : Prop where
  leader : ∃ buff report, state.server.log.head? = some (buff, report) ∧
    readFirst registration serverport buff report = registered
  participant : ∃ buff report, state.client.log.head? = some (buff, report) ∧
    readFirst stringToUint64 serverport buff report = decoded

/-- What the participant decodes, depending on what the leader has made of a
piece of its address. -/
inductive Decodes (prfkey : UInt64) (portno : Int32) (piece : Str) :
    Except Fault Node → Except Fault UInt64 → Prop
  /-- The leader has answered, and a piece of the key is decoded. -/
  | answered {node : Node} {count : Nat} (few : count < 64) :
      Decodes prfkey portno piece (.ok node) (.ok (prfkey >>> UInt64.ofNat count))
  /-- The leader has failed, and nothing is received. -/
  | refused {fault : Fault} : Decodes prfkey portno piece (.error fault) (.ok 0)
  /-- The leader has taken a second piece of the address and has reset the stream
  with a third one unread, and nothing is received. -/
  | dropped {node : Node} (unread : piece.length + 1 < (address host portno).length) :
      Decodes prfkey portno piece (.ok node) (.ok 0)

section Session

variable {prfkey : UInt64} {serverport portno : Int32} {registered : Except Fault Node}
  {decoded : Except Fault UInt64}

/-- A session over clean buffers makes of the messages what is said of them. -/
theorem decodes_of_reads {state : Parties UInt64} (occurs : Occurs prfkey serverport portno state)
    (clean : AllClean state) (reads : Reads serverport state registered decoded) :
    ∃ piece, Registers portno piece registered ∧
      Decodes prfkey portno piece registered decoded := by
  obtain ⟨⟨buff, report, head, rfl⟩, ⟨buff', report', head', rfl⟩⟩ := reads
  have received : state.client.log ≠ [] := fun fresh => by
    rw [fresh] at head'
    cases head'
  have opened := Dialogue.opened_of_received
    (D := dialogueOf (exchange prfkey portno) registration stringToUint64 serverport)
    occurs received
  -- the piece that the leader has registered
  have registers {chunk : Chunk defaultLen Char} (same : report = .bytes chunk)
      (place : chunk.bytes <+: address host portno) :
      Registers portno chunk.bytes (readFirst registration serverport buff report) := by
    subst same
    rw [clean.readFirst_leader (sendable_address portno) head place]
    exact registers_iff.mpr ⟨chunk.nonempty, place, rfl⟩
  -- what the participant decodes
  have decodes (place : report'.brings <+: uint64ToBinString prfkey) :
      readFirst stringToUint64 serverport buff' report' = stringToUint64 report'.brings :=
    clean.readFirst_participant (sendable_key prfkey) head' place
  cases opened with
  | @answered input input' chunk chunk' first first' place place' accepted =>
      cases head.symm.trans first
      cases head'.symm.trans first'
      have key : chunk'.bytes <+: uint64ToBinString prfkey :=
        stream_exchange prfkey portno ▸ place'
      obtain ⟨node, read⟩ := leader_computes_iff.mp accepted
      obtain ⟨count, few, same⟩ := exists_piece_of_key_iff.mp ⟨_, chunk'.nonempty, key, rfl⟩
      refine ⟨chunk.bytes, registers rfl place, ?_⟩
      rw [decodes key]
      change Decodes prfkey portno chunk.bytes _ (stringToUint64 chunk'.bytes)
      rw [same, read]
      exact .answered few
  | @refused input chunk entry first first' place empty failed =>
      cases head.symm.trans first
      cases head'.symm.trans first'
      obtain ⟨fault, read⟩ := leader_fails_iff.mp failed
      refine ⟨chunk.bytes, registers rfl place, ?_⟩
      rw [decodes (by rw [empty]; exact List.nil_prefix), empty, stringToUint64_nil, read]
      exact .refused
  | @dropped input chunk entry first first' place empty accepted unread =>
      cases head.symm.trans first
      cases head'.symm.trans first'
      obtain ⟨node, read⟩ := leader_computes_iff.mp accepted
      refine ⟨chunk.bytes, registers rfl place, ?_⟩
      rw [decodes (by rw [empty]; exact List.nil_prefix), empty, stringToUint64_nil, read]
      exact .dropped unread

/-- What is read from the first receives of a session. -/
theorem reads_of_logs {state : Parties UInt64} {report report' : Report defaultLen Char}
    {rest : List (Buffer × Report defaultLen Char)}
    (log : state.server.log = (zeroFilled, report) :: rest)
    (log' : state.client.log = [(zeroFilled, report')])
    (registers : readFirst registration serverport zeroFilled report = registered)
    (decodes : readFirst stringToUint64 serverport zeroFilled report' = decoded) :
    Reads serverport state registered decoded :=
  ⟨⟨_, _, by rw [log]; rfl, registers⟩, ⟨_, _, by rw [log']; rfl, decodes⟩⟩

/-- Nothing received is read as zero. -/
theorem decodes_empty (serverport : Int32) {report : Report defaultLen Char}
    (empty : report.brings = []) :
    Clean zeroFilled report ∧ readFirst stringToUint64 serverport zeroFilled report = .ok 0 := by
  have clean : Clean zeroFilled report := clean_zeroFilled (by rw [empty]; exact defaultLen_pos)
  have plain : ∀ c ∈ report.brings, Plain c := by
    rw [empty]
    exact fun _ impossible => nomatch impossible
  exact ⟨clean, by rw [readFirst_of_clean clean plain, empty, stringToUint64_nil]⟩

section Pieces

variable {piece : Str} (sendable : Sendable piece) (place : piece <+: address host portno)

include sendable place

/-- The leader answers, and the participant decodes a piece of the key. -/
theorem exists_reads_answered {node : Node} (registers : registration piece = .ok node)
    {count : Nat} (few : count < 64) :
    ∃ state, Occurs prfkey serverport portno state ∧ AllClean state ∧
      Reads serverport state (.ok node) (.ok (prfkey >>> UInt64.ofNat count)) := by
  have pieces : ∃ piece, piece ≠ [] ∧ piece <+: uint64ToBinString prfkey ∧
      stringToUint64 piece = .ok (prfkey >>> UInt64.ofNat count) :=
    exists_piece_of_key_iff.mpr ⟨count, few, rfl⟩
  obtain ⟨piece', some', place', read⟩ := pieces
  have sendable' := (sendable_key prfkey).piece some' place'.isInfix
  have inside : sendable'.chunk.bytes <+: (exchange prfkey portno).stream :=
    (stream_exchange prfkey portno).symm ▸ place'
  have first := readFirst_sendable sendable registration serverport
  have first' := readFirst_sendable sendable' stringToUint64 serverport
  obtain ⟨state, reachable, log, log'⟩ := Dialogue.exists_answered
    (D := dialogueOf (exchange prfkey portno) registration stringToUint64 serverport)
    zeroFilled place (leader_computes_iff.mpr ⟨node, first.trans registers⟩) inside
  have clean : AllClean state := .of_logs log log'
    (List.forall_mem_singleton.mpr sendable.clean) (List.forall_mem_singleton.mpr sendable'.clean)
  exact ⟨state, reachable, clean,
    reads_of_logs log log' (first.trans registers) (first'.trans read)⟩

/-- The leader fails, and the participant receives nothing. -/
theorem exists_reads_refused {fault : Fault} (fails : registration piece = .error fault) :
    ∃ state, Occurs prfkey serverport portno state ∧ AllClean state ∧
      Reads serverport state (.error fault) (.ok 0) := by
  have first := readFirst_sendable sendable registration serverport
  obtain ⟨state, report, reachable, empty, log, log'⟩ := Dialogue.exists_refused
    (D := dialogueOf (exchange prfkey portno) registration stringToUint64 serverport)
    zeroFilled place (leader_fails_iff.mpr ⟨fault, first.trans fails⟩)
  obtain ⟨clean', read⟩ := decodes_empty serverport empty
  have clean : AllClean state := .of_logs log log'
    (List.forall_mem_singleton.mpr sendable.clean) (List.forall_mem_singleton.mpr clean')
  exact ⟨state, reachable, clean, reads_of_logs log log' (first.trans fails) read⟩

/-- The leader resets the stream, and the participant receives nothing. -/
theorem exists_reads_dropped {node : Node} (registers : registration piece = .ok node)
    (unread : piece.length + 1 < (address host portno).length) :
    ∃ state, Occurs prfkey serverport portno state ∧ AllClean state ∧
      Reads serverport state (.ok node) (.ok 0) := by
  obtain ⟨rest, split⟩ := place
  obtain ⟨a, b, rest, rfl⟩ : ∃ a b rest', [a] ++ ([b] ++ rest') = rest := by
    apply exists_two_of_length
    rw [← split, List.length_append] at unread
    omega
  have second : Sendable [a] := (sendable_address portno).piece (List.cons_ne_nil _ _)
    ⟨piece, [b] ++ rest, by rw [List.append_assoc, split]⟩
  have first := readFirst_sendable sendable registration serverport
  obtain ⟨state, reachable, log, log'⟩ := Dialogue.exists_dropped
    (D := dialogueOf (exchange prfkey portno) registration stringToUint64 serverport)
    zeroFilled (split : sendable.chunk.bytes ++ (second.chunk.bytes ++ _) = _)
    (List.cons_ne_nil _ _) (leaderComputation_sendable sendable registers)
    (leaderComputation_later second registration _)
  obtain ⟨clean', read⟩ := decodes_empty serverport (rfl : Report.error.brings = [])
  have clean : AllClean state := .of_logs log log'
    (List.forall_mem_cons.mpr ⟨sendable.clean, List.forall_mem_singleton.mpr second.clean⟩)
    (List.forall_mem_singleton.mpr clean')
  exact ⟨state, reachable, clean, reads_of_logs log log' (first.trans registers) read⟩

end Pieces

/-- All of it is made of some session over clean buffers. -/
theorem exists_reads {piece : Str} (registers : Registers portno piece registered)
    (decodes : Decodes prfkey portno piece registered decoded) :
    ∃ state, Occurs prfkey serverport portno state ∧ AllClean state ∧
      Reads serverport state registered decoded := by
  obtain ⟨some, place, same⟩ := registers_iff.mp registers
  have sendable := (sendable_address portno).piece some place.isInfix
  cases decodes with
  | answered few => exact exists_reads_answered sendable place same few
  | refused => exact exists_reads_refused sendable place same
  | dropped unread => exact exists_reads_dropped sendable place same unread

end Session

/-- **Misreadings.** Over clean buffers, the leader and the participant can make of
a session, both at once, exactly these: the leader registers a piece of the
address or fails on it, and the participant decodes the key without any number of
its last bits but all, or zero if it receives nothing. -/
theorem misreadings_iff (prfkey : UInt64) (serverport portno : Int32)
    (registered : Except Fault Node) (decoded : Except Fault UInt64) :
    (∃ state, Occurs prfkey serverport portno state ∧ AllClean state ∧
      Reads serverport state registered decoded) ↔
      ∃ piece, Registers portno piece registered ∧
        Decodes prfkey portno piece registered decoded :=
  ⟨fun ⟨_, occurs, clean, reads⟩ => decodes_of_reads occurs clean reads,
    fun ⟨_, registers, decodes⟩ => exists_reads registers decodes⟩

end Ssle.App
