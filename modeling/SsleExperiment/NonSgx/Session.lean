import SsleExperiment.App.Delivery
import SsleExperiment.Enclave.Flushing
import SsleExperiment.Enclave.Punctures
import SsleExperiment.NonSgx.Commitment
import SsleExperiment.NonSgx.Participant
import SsleExperiment.NonSgx.Registration

/-! # The session outside the enclave

The leader of `ssle_node.cpp` sends its punctured key and then its commitment,
which is the key itself, with nothing between them. The `PPRF` class that `main`
includes lies outside the repository: the string that it draws is a parameter
(`Ssle.NonSgx.Drawn`), and it is taken to puncture and depuncture as the one of the
enclave does. From a received piece of any size the participant depunctures whole
blocks of eighteen characters: it gets the leading bits of the key, and past the
punctured key bits of a decoded commitment (`Ssle.NonSgx.recoverKey_pieces`). A
session deadlocks when the first receive has taken both messages, so that with a
key of three blocks or more the participant has recovered another one
(`Ssle.NonSgx.session_outcomes`).
-/

namespace Ssle.NonSgx

open PPRF

/-- What `depuncturing` returns for a nonempty string. -/
def decoded (received : Str) : Str := ((Blocks.blocks 18 received).map codec.decode).flatten

theorem depuncturing_eq_decoded {received : Str} (some : received ≠ []) :
    depuncturing received = .ok (decoded received) :=
  (depuncturing_eq_ok_iff received _).mpr ⟨some, rfl⟩

section Decoded

variable {front : Str} {count : Nat} (whole : front.length = count * 18)

include whole

/-- Whole blocks are decoded apart from what follows. -/
theorem decoded_append (rest : Str) : decoded (front ++ rest) = decoded front ++ decoded rest := by
  rw [decoded, Blocks.blocks_append_of_mul (Nat.succ_pos 17) whole, List.map_append,
    List.flatten_append]
  rfl

/-- Every whole block is decoded to seven bits. -/
theorem length_decoded : (decoded front).length = count * 7 := by
  have full : (Blocks.blocks 18 front).map (fun block => messageLength block.length) =
      List.replicate count 7 := by
    rw [← Blocks.length_blocks_of_mul (Nat.succ_pos 17) whole, ← List.map_const']
    refine List.map_congr_left fun block member => ?_
    rw [Blocks.length_of_mem_blocks (Nat.succ_pos 17) whole member]
    rfl
  have none : leakedBits front.length = 0 := by
    rw [whole, leakedBits, Nat.mul_mod_left]
    rfl
  rw [decoded, length_flatten_decoded, messageBits, full, none, List.sum_replicate_nat]
  rfl

end Decoded

/-- The key and the string that is sent for it. -/
structure Punctured (key sent : Str) (count : Nat) : Prop where
  whole : sent.length = count * 18
  size : key.length = count * 7
  decodes : decoded sent = key

/-- **Depuncturing pieces.** Of a punctured key with anything after it, whole
blocks are decoded to the leading bits of the key, and to bits of what follows. -/
theorem Punctured.decoded_take {key sent : Str} {count : Nat} (punctured : Punctured key sent count)
    (rest : Str) {blocks : Nat} (inside : blocks * 18 ≤ (sent ++ rest).length) :
    ∃ extra, decoded ((sent ++ rest).take (blocks * 18)) = key.take (blocks * 7) ++ extra ∧
      extra.length = (blocks - count) * 7 := by
  obtain ⟨whole, size, decodes⟩ := punctured
  rcases Nat.le_total blocks count with few | many
  · have short : blocks * 18 ≤ sent.length := whole ▸ Nat.mul_le_mul_right 18 few
    have cut := List.length_take_of_le short
    have split := decoded_append cut (sent.drop (blocks * 18))
    rw [List.take_append_drop, decodes] at split
    refine ⟨[], ?_, ?_⟩
    · rw [List.take_append_of_le_length short, List.append_nil, split, ← length_decoded cut,
        List.take_left]
    · rw [Nat.sub_eq_zero_of_le few, Nat.zero_mul, List.length_nil]
  · have long : sent.length ≤ blocks * 18 := whole ▸ Nat.mul_le_mul_right 18 many
    have cut : (rest.take (blocks * 18 - sent.length)).length = (blocks - count) * 18 := by
      rw [List.length_append] at inside
      rw [List.length_take_of_le (by omega), Nat.sub_mul, whole]
    have all : key.length ≤ blocks * 7 := size ▸ Nat.mul_le_mul_right 7 many
    refine ⟨decoded (rest.take (blocks * 18 - sent.length)), ?_, length_decoded cut⟩
    rw [List.take_append, List.take_of_length_le long, decoded_append whole, decodes,
      List.take_of_length_le all]

/-- Recovering the key from a piece of any size. -/
theorem Punctured.recoverKey_take {key sent : Str} {count : Nat}
    (punctured : Punctured key sent count) (rest : Str) {size : Nat}
    (inside : size ≤ (sent ++ rest).length) :
    (size < 18 → recoverKey ((sent ++ rest).take size) = .error .indexOutOfRange) ∧
    (18 ≤ size → ∃ extra, recoverKey ((sent ++ rest).take size) =
        .ok (key.take (size / 18 * 7) ++ extra) ∧ extra.length = (size / 18 - count) * 7) := by
  have length := List.length_take_of_le inside
  have cut : size - size % 18 = size / 18 * 18 := by omega
  have corrected : recoverKey ((sent ++ rest).take size) =
      depuncturing ((sent ++ rest).take (size / 18 * 18)) := by
    rw [recoverKey, correct_eq, length, List.take_take, Nat.min_eq_left (Nat.sub_le _ _), cut]
    rfl
  rw [corrected]
  refine ⟨fun few => ?_, fun many => ?_⟩
  · rw [Nat.div_eq_of_lt few, Nat.zero_mul, List.take_zero, depuncturing, splitBinaryVector_nil]
    rfl
  · have short : size / 18 * 18 ≤ (sent ++ rest).length :=
      (Nat.div_mul_le_self size 18).trans inside
    have some : (sent ++ rest).take (size / 18 * 18) ≠ [] := by
      rw [← List.length_pos_iff, List.length_take_of_le short]
      omega
    obtain ⟨extra, same, long⟩ := punctured.decoded_take rest short
    exact ⟨extra, by rw [depuncturing_eq_decoded some, same], long⟩

/-- The key is recovered from a piece that ends with the punctured key, or in the
first block after it. -/
theorem Punctured.recoverKey_take_iff {key sent : Str} {count : Nat}
    (punctured : Punctured key sent count) (some : key ≠ []) (rest : Str) {size : Nat}
    (inside : size ≤ (sent ++ rest).length) :
    recoverKey ((sent ++ rest).take size) = .ok key ↔
      sent.length ≤ size ∧ size < sent.length + 18 := by
  have positive := List.length_pos_iff.mpr some
  obtain ⟨undefined, recovered⟩ := punctured.recoverKey_take rest inside
  obtain ⟨whole, length, -⟩ := punctured
  rcases Nat.lt_or_ge size 18 with few | many
  · rw [undefined few]
    refine iff_of_false (fun impossible => nomatch impossible) ?_
    omega
  · obtain ⟨extra, same, long⟩ := recovered many
    rw [same, Except.ok.injEq]
    refine ⟨fun equal => ?_, fun ⟨low, high⟩ => ?_⟩
    · have sizes := congrArg List.length equal
      rw [List.length_append, List.length_take, long, length] at sizes
      omega
    · have blocks : size / 18 = count := by omega
      rw [blocks, Nat.sub_self, Nat.zero_mul] at long
      rw [List.eq_nil_of_length_eq_zero long, blocks, ← length, List.take_length, List.append_nil]

/-- A key of whole blocks and what the leader sends for it. -/
theorem punctured_of_dvd (words : Nat → UInt32) {key : Str} (some : key ≠ []) (binary : Binary key)
    (whole : 7 ∣ key.length) :
    puncturing words key = .ok (spoiled words key).flatten ∧
      Punctured key (spoiled words key).flatten (key.length / 7) := by
  have positive := List.length_pos_iff.mpr some
  have size : key.length = key.length / 7 * 7 := (Nat.div_mul_cancel whole).symm
  have full : (Blocks.blocks 7 key).map List.length = List.replicate (key.length / 7) 7 := by
    rw [← Blocks.length_blocks_of_mul (Nat.succ_pos 6) size, ← List.map_const']
    exact List.map_congr_left fun block member =>
      Blocks.length_of_mem_blocks (Nat.succ_pos 6) size member
  have sent : (spoiled words key).flatten.length = key.length / 7 * 18 := by
    rw [List.length_flatten, map_length_spoiled, full, List.map_replicate, List.sum_replicate_nat]
  have returned := depuncturing_spoiled words some binary
  rw [depuncturing_eq_decoded (List.ne_nil_of_length_pos (by omega))] at returned
  exact ⟨puncturing_eq words some binary, sent, size, Except.ok.inj returned⟩

/-- **Pieces of the punctured key.** From the first `size` characters of the
punctured key and anything after it, the participant reads past the end when
they are fewer than eighteen, and otherwise gets the leading bits of the key,
with seven more for every block after the punctured key. -/
theorem recoverKey_pieces (v : UInt64) (large : 64 ≤ v) (words : Nat → UInt32) (rest : Str) :
    ∃ key sent, align (decimalToBinary v) = .ok key ∧ puncturing words key = .ok sent ∧
      ∀ size ≤ (sent ++ rest).length,
        (size < 18 → recoverKey ((sent ++ rest).take size) = .error .indexOutOfRange) ∧
        (18 ≤ size → ∃ extra, recoverKey ((sent ++ rest).take size) =
            .ok (key.take (size / 18 * 7) ++ extra) ∧
          extra.length = (size - sent.length) / 18 * 7) ∧
        (recoverKey ((sent ++ rest).take size) = .ok key ↔
          sent.length ≤ size ∧ size < sent.length + 18) := by
  obtain ⟨key, aligned, binary, whole, nonempty⟩ := aligned_key v
  have some := nonempty.mpr large
  obtain ⟨returned, punctured⟩ := punctured_of_dvd words some binary whole
  refine ⟨key, _, aligned, returned, fun size inside => ?_⟩
  obtain ⟨undefined, recovered⟩ := punctured.recoverKey_take rest inside
  refine ⟨undefined, fun many => ?_, punctured.recoverKey_take_iff some rest inside⟩
  have blocks : (size - key.length / 7 * 18) / 18 = size / 18 - key.length / 7 := by omega
  rw [punctured.whole, blocks]
  exact recovered many

theorem recoverKey_pieces_of_tenThousand :
    (64 : UInt64) ≤ 10000 ∧
    ∃ key sent, align (decimalToBinary 10000) = .ok key ∧ puncturing (fun _ => 5) key = .ok sent ∧
      ∀ size ≤ (sent ++ ['1']).length,
        (size < 18 → recoverKey ((sent ++ ['1']).take size) = .error .indexOutOfRange) ∧
        (18 ≤ size → ∃ extra, recoverKey ((sent ++ ['1']).take size) =
            .ok (key.take (size / 18 * 7) ++ extra) ∧
          extra.length = (size - sent.length) / 18 * 7) ∧
        (recoverKey ((sent ++ ['1']).take size) = .ok key ↔
          sent.length ≤ size ∧ size < sent.length + 18) :=
  ⟨by decide, recoverKey_pieces 10000 (by decide) (fun _ => 5) ['1']⟩

/-! ## The session of main -/

open App Processes

/-- What `main` relies on of the string that its PPRF draws: bits, in whole blocks of
seven. -/
structure Drawn (rval : Str) : Prop where
  binary : Binary rval
  nonempty : rval ≠ []
  whole : 7 ∣ rval.length

/-- The leader of `ssle_node.cpp`. -/
def leaderScript (punct comm : Str) : List (Session.Action Char) :=
  [.receive, .send punct, .send comm, .receive, .close]

/-- The participant of `ssle_node.cpp`. -/
def participantScript (addr : Str) : List (Session.Action Char) :=
  [.send addr, .receive, .receive, .send "hello".toList, .close]

/-- The connected leader and participant. -/
def begun (punct comm : Str) (serverport portno : Int32) : Parties Str where
  server := .starting (leaderScript punct comm) (leading serverport)
  client := .starting (participantScript (addressBy ',' host portno)) (participating Str serverport)

/-- The states of a session. -/
abbrev Occurs (punct comm : Str) (serverport portno : Int32) (state : Parties Str) : Prop :=
  Processes.Reachable (leaderComputation NonSgx.registration) (participantComputation recoverKey)
    (begun punct comm serverport portno) state

/-- Neither branch of `main` can act. -/
abbrev Halted (state : Parties Str) : Prop :=
  Processes.Stuck (leaderComputation NonSgx.registration) (participantComputation recoverKey) state

/-- Both branches of `main` have received whole messages, the participant both
of the leader's at once, and have read them without a fault. -/
abbrev Exchanged (punct comm : Str) (serverport portno : Int32) (state : Parties Str) : Prop :=
  FirstsWhole NonSgx.registration recoverKey serverport (addressBy ',' host portno)
    (punct ++ comm) state

/-- The messages of the two branches. -/
def exchange {punct : Str} (comm : Str) (portno : Int32) (some : punct ≠ []) : Exchange Char where
  request := addressBy ',' host portno
  answers := [punct, comm]
  acknowledgement := "hello".toList
  requests := by simp [addressBy]
  answered := by simp [some]

theorem stream_exchange {punct : Str} (comm : Str) (portno : Int32) (some : punct ≠ []) :
    (exchange comm portno some).stream = punct ++ comm := by
  simp [exchange, Exchange.stream]

/-- A whole address is registered. -/
theorem registration_address (portno : Int32) :
    registration (addressBy ',' host portno) =
      .ok (Node.make host (atoi (toString portno.toInt).toList)) := by
  have freePort : ',' ∉ (toString portno.toInt).toList :=
    not_mem_toString portno.toInt (by decide) (by decide)
  have short := (length_addressBy_lt ',' portno).trans (by decide : defaultLen < 2 ^ 31 - 1)
  rw [addressBy] at short
  rw [registration, addressBy, registrationBy_of_mem (by decide) freePort short,
    if_neg (toString_ne_nil portno.toInt)]

section Punctured

variable {rval punct : Str} {count : Nat} (punctured : Punctured rval punct count)
  (nonempty : rval ≠ []) {serverport portno : Int32} {state : Parties Str}

include punctured nonempty

theorem Punctured.punct_ne_nil : punct ≠ [] := by
  have positive := List.length_pos_iff.mpr nonempty
  rw [punctured.size] at positive
  rw [← List.length_pos_iff, punctured.whole]
  omega

/-- A session that cannot go on is a deadlock if both have received whole messages, and
over otherwise. -/
theorem Punctured.stuck_session (occurs : Occurs punct rval serverport portno state)
    (halted : Halted state) :
    (Deadlocked state ↔ Exchanged punct rval serverport portno state) ∧
      (Ended state ↔ ¬ Exchanged punct rval serverport portno state) := by
  have some := punctured.punct_ne_nil nonempty
  have ends := stuck_dialogueOf (X := exchange rval portno some) occurs halted
  rwa [stream_exchange] at ends

/-- The first receive of the participant returns a piece of what the leader sends. -/
theorem Punctured.prefix_of_received (occurs : Occurs punct rval serverport portno state)
    {buff : Buffer} {report : Report defaultLen Char}
    (head : state.client.log.head? = some (buff, report)) : report.brings <+: punct ++ rval := by
  have some := punctured.punct_ne_nil nonempty
  have received : state.client.log ≠ [] := fun fresh => by
    rw [fresh] at head
    cases head
  have opened := Dialogue.opened_of_received
    (D := dialogueOf (exchange rval portno some) NonSgx.registration recoverKey serverport)
    occurs received
  cases opened with
  | answered first first' place place' accepted =>
      cases head.symm.trans first'
      exact stream_exchange rval portno some ▸ place'
  | refused first first' place empty failed =>
      cases head.symm.trans first'
      rw [empty]
      exact List.nil_prefix
  | dropped first first' place empty accepted unread =>
      cases head.symm.trans first'
      rw [empty]
      exact List.nil_prefix

/-- Over clean buffers, the participant has recovered the key exactly when its
first receive has ended in the first block after the punctured key. -/
theorem Punctured.read_iff (binary : Binary (punct ++ rval))
    (occurs : Occurs punct rval serverport portno state) (clean : AllClean state) :
    state.client.memory.read = some rval ↔
      ∃ buff report, state.client.log.head? = some (buff, report) ∧
        punct.length ≤ report.brings.length ∧ report.brings.length < punct.length + 18 := by
  have some := punctured.punct_ne_nil nonempty
  -- what the participant makes of its first receive
  have read {buff report} (head : state.client.log.head? = .some (buff, report)) :
      readFirst recoverKey serverport buff report = .ok rval ↔
        punct.length ≤ report.brings.length ∧ report.brings.length < punct.length + 18 := by
    have place := punctured.prefix_of_received nonempty occurs head
    have whole := punctured.recoverKey_take_iff nonempty rval place.length_le
    rw [← List.prefix_iff_eq_take.mp place] at whole
    rw [← whole, readFirst_of_clean (clean.participant _ (List.mem_of_head? head))
      fun c member => plain_of_binary binary c (place.subset member)]
  constructor
  · intro recovered
    cases log : state.client.log with
    | nil =>
        have fresh := read_of_fresh (X := exchange rval portno some) occurs log
        exact nomatch recovered.symm.trans fresh
    | cons entry rest =>
        have head : state.client.log.head? = .some entry := by rw [log]; rfl
        refine ⟨entry.1, entry.2, rfl, (read head).mp ?_⟩
        obtain ⟨value, same, shown⟩ | ⟨-, shown⟩ :=
          read_eq (X := exchange rval portno some) occurs head
        · cases recovered.symm.trans shown
          exact same
        · cases recovered.symm.trans shown
  · rintro ⟨buff, report, head, window⟩
    have same := (read head).mpr window
    obtain ⟨value, decoded, shown⟩ | ⟨⟨fault, failed⟩, -⟩ :=
      read_eq (X := exchange rval portno some) occurs head
    · cases same.symm.trans decoded
      exact shown
    · cases same.symm.trans failed

/-- Some session deadlocks exactly when both messages of the leader fit one receive. -/
theorem Punctured.exists_deadlocked_iff (binary : Binary (punct ++ rval)) :
    (∃ state, Occurs punct rval serverport portno state ∧ Deadlocked state) ↔
      rval.length ≤ 70 := by
  have some := punctured.punct_ne_nil nonempty
  have positive := List.length_pos_iff.mpr nonempty
  have total : (punct ++ rval).length = count * 25 := by
    rw [List.length_append, punctured.whole, punctured.size]
    omega
  constructor
  · rintro ⟨state, occurs, deadlocked⟩
    have halted : Halted state := (stuck_iff defaultLen_pos).mpr (.inr deadlocked)
    obtain ⟨-, ⟨buff, report, -, brings, -⟩⟩ :=
      (punctured.stuck_session nonempty occurs halted).1.mp deadlocked
    have fits := report.length_brings_le
    rw [brings, total, defaultLen] at fits
    rw [punctured.size]
    omega
  · intro few
    rw [punctured.size] at few positive
    have stream : Sendable (exchange rval portno some).stream := by
      rw [stream_exchange]
      refine ⟨List.append_ne_nil_of_left_ne_nil some rval, by omega, plain_of_binary binary⟩
    have long : 18 ≤ (exchange rval portno some).stream.length := by
      rw [stream_exchange]
      omega
    obtain ⟨key, decodes⟩ := (recoverKey_defined_iff _).mpr long
    have some' : ∃ state, Occurs punct rval serverport portno state ∧ AllClean state ∧
        Deadlocked state :=
      exists_deadlocked (sendable_addressBy (by decide) portno) stream
        (registration_address portno) decodes
    obtain ⟨state, occurs, -, deadlocked⟩ := some'
    exact ⟨state, occurs, deadlocked⟩

/-- What the leader sends begins with a block, and goes on. -/
theorem Punctured.exists_pieces (binary : Binary (punct ++ rval)) :
    ∃ first second rest, first ++ (second ++ rest) = punct ++ rval ∧ Sendable first ∧
      Sendable second ∧ first.length = 18 := by
  have positive := List.length_pos_iff.mpr (punctured.punct_ne_nil nonempty)
  have plain := plain_of_binary binary
  rw [punctured.whole] at positive
  have size : (punct.take 18).length = 18 := by
    apply List.length_take_of_le
    rw [punctured.whole]
    omega
  obtain ⟨c, rest, tail⟩ := List.exists_cons_of_ne_nil
    (List.append_ne_nil_of_right_ne_nil (punct.drop 18) nonempty)
  have split : punct.take 18 ++ ([c] ++ rest) = punct ++ rval := by
    rw [List.singleton_append, ← tail, ← List.append_assoc, List.take_append_drop]
  refine ⟨_, _, _, split, ⟨List.ne_nil_of_length_pos (by omega), by omega, fun d member => ?_⟩,
    ⟨List.cons_ne_nil _ _, by simp, fun d member => ?_⟩, size⟩
  · exact plain d (List.mem_append_left _ (List.mem_of_mem_take member))
  · apply plain d
    rw [← split]
    exact List.mem_append_right _ (List.mem_append_left _ member)

/-- Some session over clean buffers gets through. -/
theorem Punctured.exists_through (binary : Binary (punct ++ rval)) :
    ∃ state, Occurs punct rval serverport portno state ∧ AllClean state ∧ Ended state ∧
      state.server.stopped = none ∧ state.client.stopped = none := by
  have some := punctured.punct_ne_nil nonempty
  obtain ⟨block, next, rest, split, first', second', size⟩ :=
    punctured.exists_pieces nonempty binary
  have halves := addressBy_split ',' portno
  have first : Sendable ['1'] := sendable_digit (by decide)
  have second : Sendable ['2'] := sendable_digit (by decide)
  have registers : registration ['1'] = .ok (Node.make ['1'] 1) := by decide
  obtain ⟨key, decodes⟩ := (recoverKey_defined_iff block).mpr size.ge
  exact App.exists_through (X := exchange rval portno some) halves
    (split.trans (stream_exchange rval portno some).symm) first second first' second' registers
    decodes

end Punctured

/-- **How a session ends.** Whatever string of whole blocks is drawn, some run deadlocks
exactly when it has at most seventy bits, and some run gets through. Over clean
buffers the participant has the string exactly when its first receive has ended in
the first block after the punctured one. A run that cannot go on is a deadlock when
the first receives have returned the whole address and both messages at once, read
without a fault, and otherwise both branches are over; over clean buffers a deadlock
leaves the participant with the string exactly when it has fewer than eighteen bits. -/
theorem session_outcomes (words : Nat → UInt32) (mask : UInt32) (rval : Str) (drawn : Drawn rval)
    (serverport portno : Int32) :
    ∃ punct comm, puncturing words rval = .ok punct ∧ commit mask rval 1 = .ok comm ∧
      ((∃ state, Occurs punct comm serverport portno state ∧ Deadlocked state) ↔
        rval.length ≤ 70) ∧
      (∃ state, Occurs punct comm serverport portno state ∧ AllClean state ∧ Ended state ∧
        state.server.stopped = none ∧ state.client.stopped = none) ∧
      (∀ state, Occurs punct comm serverport portno state → AllClean state →
        (state.client.memory.read = some rval ↔
          ∃ buff report, state.client.log.head? = some (buff, report) ∧
            punct.length ≤ report.brings.length ∧ report.brings.length < punct.length + 18)) ∧
      ∀ state, Occurs punct comm serverport portno state → Halted state →
        (Deadlocked state ↔ Exchanged punct comm serverport portno state) ∧
        (Ended state ↔ ¬ Exchanged punct comm serverport portno state) ∧
        (AllClean state → Deadlocked state →
          (state.client.memory.read = some rval ↔ rval.length < 18)) := by
  obtain ⟨binary, nonempty, whole⟩ := drawn
  obtain ⟨returned, punctured⟩ := punctured_of_dvd words nonempty binary whole
  have sent : Binary ((spoiled words rval).flatten ++ rval) :=
    binary_append (binary_spoiled words rval) binary
  refine ⟨_, rval, returned, rfl, punctured.exists_deadlocked_iff nonempty sent,
    punctured.exists_through nonempty sent,
    fun state occurs clean => punctured.read_iff nonempty sent occurs clean,
    fun state occurs halted => ?_⟩
  obtain ⟨deadlock, done⟩ := punctured.stuck_session nonempty occurs halted
  refine ⟨deadlock, done, fun clean deadlocked => ?_⟩
  obtain ⟨-, ⟨buff, report, head, brings, -⟩⟩ := deadlock.mp deadlocked
  have size := congrArg List.length brings
  rw [List.length_append] at size
  rw [punctured.read_iff nonempty sent occurs clean]
  refine ⟨fun ⟨buff', report', head', _, short⟩ => ?_, fun few => ⟨buff, report, head, ?_⟩⟩
  · cases head.symm.trans head'
    omega
  · omega

/-- Two blocks of bits. -/
def twoBlocks : Str := "10011010011101".toList

theorem drawn_twoBlocks : Drawn twoBlocks where
  binary := by
    have bits : twoBlocks.all fun c => c = '0' || c = '1' := by decide
    exact fun c member => by simpa using List.all_eq_true.mp bits c member
  nonempty := by decide
  whole := by decide

theorem session_outcomes_of_twoBlocks :
    Drawn twoBlocks ∧
    ∃ punct comm, puncturing (fun _ => 5) twoBlocks = .ok punct ∧ commit 7 twoBlocks 1 = .ok comm ∧
      (∃ state, Occurs punct comm 1234 18888 state ∧ Deadlocked state) ∧
      (∃ state, Occurs punct comm 1234 18888 state ∧ AllClean state ∧ Ended state ∧
        state.server.stopped = none ∧ state.client.stopped = none) ∧
      (∀ state, Occurs punct comm 1234 18888 state → AllClean state →
        (state.client.memory.read = some twoBlocks ↔
          ∃ buff report, state.client.log.head? = some (buff, report) ∧
            punct.length ≤ report.brings.length ∧ report.brings.length < punct.length + 18)) ∧
      ∀ state, Occurs punct comm 1234 18888 state → Halted state →
        (Deadlocked state ↔ Exchanged punct comm 1234 18888 state) ∧
        (Ended state ↔ ¬ Exchanged punct comm 1234 18888 state) ∧
        (AllClean state → Deadlocked state → state.client.memory.read = some twoBlocks) := by
  obtain ⟨punct, comm, returned, committed, deadlocks, through, recovers, ends⟩ :=
    session_outcomes (fun _ => 5) 7 twoBlocks drawn_twoBlocks 1234 18888
  refine ⟨drawn_twoBlocks, punct, comm, returned, committed, deadlocks.mpr (by decide), through,
    recovers, fun state occurs halted => ?_⟩
  obtain ⟨deadlock, done, recovered⟩ := ends state occurs halted
  exact ⟨deadlock, done, fun clean deadlocked =>
    (recovered clean deadlocked).mpr (by decide)⟩

end Ssle.NonSgx
