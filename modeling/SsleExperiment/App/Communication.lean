import Mathlib.Data.List.Chain
import SsleExperiment.App.Node
import SsleExperiment.Interaction.Session

/-! # The communication of the two branches of main

The leader receives the participant's address, sends the key and receives once
more; the send of the commitment between these two is commented out. The
participant sends its address, receives the key, receives a commitment and
sends a greeting. When both first receives return the whole of what was sent,
the two last receives wait for each other
(`Ssle.App.deadlockFree_iff`). `registration` and the decoding of the key stand
between the calls and do not use the socket.
-/

namespace Ssle.App

open Session

/-- `uint64ToBinString`: the 64 bits, most significant first. -/
def uint64ToBinString (num : UInt64) : Str :=
  (List.range 64).map fun i => if num.toBitVec.getMsbD i then '1' else '0'

@[simp] theorem length_uint64ToBinString (num : UInt64) : (uint64ToBinString num).length = 64 := by
  simp [uint64ToBinString]

/-- The address a participant sends. -/
def address (ipaddr : Str) (portno : Int32) : Str :=
  ipaddr ++ ":".toList ++ (toString portno.toInt).toList

theorem address_ne_nil (ipaddr : Str) (portno : Int32) : address ipaddr portno ≠ [] := by
  simp [address]

theorem uint64ToBinString_ne_nil (num : UInt64) : uint64ToBinString num ≠ [] := by
  rw [← List.length_pos_iff, length_uint64ToBinString]
  decide

/-- The leader, sending `key`. -/
def leaderScript (key : Str) : List (Action Char) := [.receive, .send key, .receive, .close]

/-- The participant, sending `addr`. -/
def participantScript (addr : Str) : List (Action Char) :=
  [.send addr, .receive, .receive, .send "hello".toList, .close]

/-- The connected leader and participant. -/
def connected (prfkey : UInt64) (ipaddr : Str) (portno : Int32) : Connection Char where
  server := .starting (leaderScript (uint64ToBinString prfkey))
  client := .starting (participantScript (address ipaddr portno))

/-! ## What a deadlock says about the receives -/

/-- The leader waits at its beginning, or for the acknowledgement. -/
theorem leader_waits {key : Str} {script : List (Action Char)}
    (place : script <:+ leaderScript key) (waits : script.head? = some .receive) :
    script = leaderScript key ∨ script = [.receive, .close] := by
  simp only [leaderScript, List.suffix_cons_iff, List.suffix_nil] at place
  rcases place with first | rfl | second | rfl | rfl
  · exact .inl first
  · cases waits
  · exact .inr second
  · cases waits
  · cases waits

/-- The participant waits for either of two messages. -/
theorem participant_waits {addr : Str} {script : List (Action Char)}
    (place : script <:+ participantScript addr) (waits : script.head? = some .receive) :
    script = [.receive, .receive, .send "hello".toList, .close] ∨
      script = [.receive, .send "hello".toList, .close] := by
  simp only [participantScript, List.suffix_cons_iff, List.suffix_nil] at place
  rcases place with rfl | first | second | rfl | rfl | rfl
  · cases waits
  · exact .inl first
  · exact .inr second
  · cases waits
  · cases waits
  · cases waits

/-- In a deadlock, the leader has received the whole address and the
participant the whole key, each with one receive. -/
theorem taken_of_deadlocked {key addr : Str} (sendsKey : key ≠ []) (sendsAddr : addr ≠ [])
    {state : Connection Char}
    (leader : Follows defaultLen (leaderScript key) (participantScript addr)
      state.server state.client)
    (participant : Follows defaultLen (participantScript addr) (leaderScript key)
      state.client state.server)
    (deadlocked : Deadlocked state) :
    state.server.taken = [addr] ∧ state.client.taken = [key] := by
  obtain ⟨⟨waits, noBytes, _⟩, ⟨waits', noBytes', _⟩⟩ := deadlocked
  have bytes := leader.conserved
  have bytes' := participant.conserved
  have count := leader.counted
  have count' := participant.counted
  rw [noBytes] at bytes
  rw [noBytes'] at bytes'
  have place' := participant_waits participant.suffix waits'
  rcases leader_waits leader.suffix waits with first | second
  · -- the leader has received nothing, but the participant has sent its address
    rw [first] at count
    have none : state.server.taken = [] := List.eq_nil_of_length_eq_zero (by omega)
    rcases place' with same | same
    · simp [same, none, participantScript, sendsAddr] at bytes
    · simp [same, none, participantScript, sendsAddr] at bytes
  · rw [second] at count bytes'
    obtain ⟨chunk, one⟩ := List.length_eq_one_iff.mp (show state.server.taken.length = 1 by
      simpa [leaderScript] using count)
    rcases place' with first' | second'
    · -- the participant has received nothing, but the leader has sent the key
      rw [first'] at count'
      have none : state.client.taken = [] := List.eq_nil_of_length_eq_zero (by
        simpa [participantScript] using count')
      simp [none, leaderScript, sendsKey] at bytes'
    · rw [second'] at count' bytes
      obtain ⟨chunk', one'⟩ := List.length_eq_one_iff.mp (show state.client.taken.length = 1 by
        simpa [participantScript] using count')
      rw [one] at bytes ⊢
      rw [one'] at bytes' ⊢
      simp only [List.flatten_singleton, List.append_nil, participantScript, pending_receive,
        pending_send, pending_close, pending_nil, leaderScript, List.append_cancel_right_eq]
        at bytes bytes'
      exact ⟨congrArg (fun bytes => [bytes]) bytes, congrArg (fun bytes => [bytes]) bytes'⟩

/-! ## The run into the deadlock -/

/-- The states of the run in which every receive returns a whole message. -/
def wholeRun (key addr : Str) : List (Connection Char) :=
  let greeting : List (Action Char) := [.send "hello".toList, .close]
  [⟨.starting (leaderScript key), .starting (participantScript addr)⟩,
    ⟨⟨leaderScript key, addr, [], false⟩, ⟨.receive :: .receive :: greeting, [], [], false⟩⟩,
    ⟨⟨[.send key, .receive, .close], [], [addr], false⟩,
      ⟨.receive :: .receive :: greeting, [], [], false⟩⟩,
    ⟨⟨[.receive, .close], [], [addr], false⟩,
      ⟨.receive :: .receive :: greeting, key, [], false⟩⟩,
    ⟨⟨[.receive, .close], [], [addr], false⟩, ⟨.receive :: greeting, [], [key], false⟩⟩]

/-- The receives so far have returned whole messages. -/
def Whole (key addr : Str) (state : Connection Char) : Prop :=
  state.server.taken <+: [addr] ∧ state.client.taken <+: [key]

/-- While every receive returns a whole message, there is no other run. -/
theorem mem_wholeRun_of_step {key addr : Str} (sendsKey : key ≠ []) (sendsAddr : addr ≠ [])
    {state next : Connection Char} (member : state ∈ wholeRun key addr)
    (step : Step defaultLen state next) (whole : Whole key addr next) :
    next ∈ wholeRun key addr := by
  simp only [wholeRun, List.mem_cons, List.not_mem_nil, or_false] at member
  rcases member with rfl | rfl | rfl | rfl | rfl
  · cases step with
    | server act => exact (Blocked.not_act ⟨rfl, rfl, rfl⟩ act).elim
    | client act =>
        obtain ⟨rfl, rfl⟩ := act.of_send
        simp [wholeRun, Party.starting]
  · cases step with
    | server act =>
        obtain ⟨rfl, rfl⟩ := act.of_receive sendsAddr whole.1
        simp [wholeRun]
    | client act => exact (Blocked.not_act ⟨rfl, rfl, rfl⟩ act).elim
  · cases step with
    | server act =>
        obtain ⟨rfl, rfl⟩ := act.of_send
        simp [wholeRun]
    | client act => exact (Blocked.not_act ⟨rfl, rfl, rfl⟩ act).elim
  · cases step with
    | server act => exact (Blocked.not_act ⟨rfl, rfl, rfl⟩ act).elim
    | client act =>
        obtain ⟨rfl, rfl⟩ := act.of_receive sendsKey whole.2
        simp [wholeRun]
  · cases step with
    | server act => exact (Blocked.not_act ⟨rfl, rfl, rfl⟩ act).elim
    | client act => exact (Blocked.not_act ⟨rfl, rfl, rfl⟩ act).elim

/-- All states in which the first receives were whole are in the list. -/
theorem mem_wholeRun {key addr : Str} (sendsKey : key ≠ []) (sendsAddr : addr ≠ [])
    {state : Connection Char}
    (reachable : Reachable defaultLen
      ⟨.starting (leaderScript key), .starting (participantScript addr)⟩ state)
    (whole : Whole key addr state) : state ∈ wholeRun key addr := by
  induction reachable with
  | refl => exact List.mem_cons_self
  | tail _ step ih =>
      have grows := Reachable.taken_prefix (.single step)
      exact mem_wholeRun_of_step sendsKey sendsAddr
        (ih ⟨grows.1.trans whole.1, grows.2.trans whole.2⟩) step whole

/-- If both messages fit a receive, each state of the run leads to the next,
and the last is a deadlock. -/
theorem deadlock_of_mem_wholeRun {key addr : Str} (sendsKey : key ≠ []) (sendsAddr : addr ≠ [])
    (keyFits : key.length ≤ defaultLen) (addrFits : addr.length ≤ defaultLen)
    {state : Connection Char} (member : state ∈ wholeRun key addr) :
    ∃ last, Reachable defaultLen state last ∧ Deadlocked last := by
  have chained : (wholeRun key addr).IsChain (Step defaultLen) :=
    .cons_cons (.client (.send _)) <|
    .cons_cons (.server (.receive_all _ sendsAddr addrFits)) <|
    .cons_cons (.server (.send _)) <|
    .cons_cons (.client (.receive_all _ sendsKey keyFits)) <|
    .singleton _
  refine chained.backwards_induction
    (fun state => ∃ last, Reachable defaultLen state last ∧ Deadlocked last) _ ?_ ?_ state member
  · intro state next step reached
    obtain ⟨last, rest, deadlocked⟩ := reached
    exact ⟨last, .head step rest, deadlocked⟩
  · intro _
    exact ⟨_, .refl, ⟨rfl, rfl, rfl⟩, ⟨rfl, rfl, rfl⟩⟩

/-- From a state on, no deadlock is reached unless the first receives are whole. -/
theorem deadlockFree_from_iff {key addr : Str} (sendsKey : key ≠ []) (sendsAddr : addr ≠ [])
    (keyFits : key.length ≤ defaultLen) {state : Connection Char}
    (reachable : Reachable defaultLen
      ⟨.starting (leaderScript key), .starting (participantScript addr)⟩ state) :
    (∀ later, Reachable defaultLen state later → ¬ Deadlocked later) ↔
      defaultLen < addr.length ∨ ¬ Whole key addr state := by
  refine ⟨fun free => ?_, fun safe later onward deadlocked => ?_⟩
  · by_contra exposed
    simp only [not_or, not_lt, not_not] at exposed
    obtain ⟨last, rest, deadlocked⟩ := deadlock_of_mem_wholeRun sendsKey sendsAddr keyFits
      exposed.1 (mem_wholeRun sendsKey sendsAddr reachable exposed.2)
    exact free last rest deadlocked
  · obtain ⟨leader, participant⟩ := Reachable.follows (reachable.trans onward)
    obtain ⟨fromParticipant, fromLeader⟩ :=
      taken_of_deadlocked sendsKey sendsAddr leader participant deadlocked
    rcases safe with long | partly
    · have fits := leader.limited addr (by rw [fromParticipant]; exact List.mem_singleton_self _)
      omega
    · apply partly
      have grows := onward.taken_prefix
      rw [fromParticipant, fromLeader] at grows
      exact grows

/-- **Deadlock.** No run from the start deadlocks exactly when the address does
not fit one receive. Along a run, no continuation deadlocks exactly when it
does not fit or some receive so far has not returned a whole message. -/
theorem deadlockFree_iff (prfkey : UInt64) (ipaddr : Str) (portno : Int32) :
    ((∀ state, Reachable defaultLen (connected prfkey ipaddr portno) state → ¬ Deadlocked state) ↔
      defaultLen < (address ipaddr portno).length) ∧
    ∀ state, Reachable defaultLen (connected prfkey ipaddr portno) state →
      ((∀ later, Reachable defaultLen state later → ¬ Deadlocked later) ↔
        defaultLen < (address ipaddr portno).length ∨
          ¬ Whole (uint64ToBinString prfkey) (address ipaddr portno) state) := by
  have sendsKey := uint64ToBinString_ne_nil prfkey
  have sendsAddr := address_ne_nil ipaddr portno
  have keyFits : (uint64ToBinString prfkey).length ≤ defaultLen := by
    rw [length_uint64ToBinString]
    decide
  refine ⟨?_, fun state reachable => deadlockFree_from_iff sendsKey sendsAddr keyFits reachable⟩
  have start : Whole (uint64ToBinString prfkey) (address ipaddr portno)
      (connected prfkey ipaddr portno) := ⟨List.nil_prefix, List.nil_prefix⟩
  have fromStart := deadlockFree_from_iff sendsKey sendsAddr keyFits .refl
  exact fromStart.trans (or_iff_left (not_not.mpr start))

/-- The address `127.0.0.1:18888` and the key `9`: both wait for each other. -/
theorem reachable_deadlock :
    ∃ state, Reachable defaultLen (connected 9 "127.0.0.1".toList 18888) state ∧
      Deadlocked state :=
  deadlock_of_mem_wholeRun (uint64ToBinString_ne_nil 9)
    (address_ne_nil "127.0.0.1".toList 18888) (by decide) (by decide) List.mem_cons_self

end Ssle.App
