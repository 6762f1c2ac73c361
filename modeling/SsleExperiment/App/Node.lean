import Mathlib.Data.List.Infix
import SsleExperiment.Cpp.Basic
import SsleExperiment.Math.Runs

/-! # A node and its message queue

`receive_message` appends one message per call of `recv`: the bytes received up
to the first NUL, without five control characters. Nothing marks where a sent
message ends, so a node gets back the messages its peer sent exactly when every
`recv` returned the bytes of one `send` (`Ssle.App.boundaries_iff`).
-/

namespace Ssle.App

/-- The members of a `Node` that identify it, and its queue of messages. -/
structure Node where
  ipaddr : Str
  portno : Int32
  messages : List Str
  deriving DecidableEq

/-- `default_len` of a node: the size of the receive buffer, and the most a
`recv` takes. -/
def defaultLen : Nat := 255

/-- The bytes one `recv` takes from the stream. -/
structure Segment where
  bytes : Str
  nonempty : bytes ≠ []
  fits : bytes.length ≤ defaultLen

/-- What `recv` reports. -/
inductive Recv where
  | bytes (segment : Segment)
  | endOfStream
  | error

/-- The local receive buffer. -/
abbrev Buffer := { bytes : Str // bytes.length = defaultLen }

/-- A buffer of zeros. -/
def zeroFilled : Buffer := ⟨List.replicate defaultLen '\x00', List.length_replicate⟩

/-- What `recv` leaves in the buffer. -/
def Recv.overwrite (buff : Buffer) : Recv → Str
  | .bytes segment => segment.bytes ++ buff.1.drop segment.bytes.length
  | .endOfStream => buff.1
  | .error => buff.1

/-- The number `recv` returns. -/
def Recv.ret : Recv → Int
  | .bytes segment => segment.bytes.length
  | .endOfStream => 0
  | .error => -1

/-- `string msg(buff)`: the bytes before the first NUL, which the buffer may not
contain. -/
def cString (buff : Str) : Except Fault Str :=
  if '\x00' ∈ buff then .ok (buff.takeWhile (· ≠ '\x00')) else .error .bufferOverread

/-- The control characters that `receive_message` removes. -/
def unuseful (c : Char) : Bool :=
  c = '\n' || c = '\r' || c = '\t' || c = '\x0b' || c = '\x0c'

namespace Node

/-- `Node(given_addr, given_port)`. -/
def make (givenAddr : Str) (givenPort : Int32) : Node := ⟨givenAddr, givenPort, []⟩

/-- `receive_message(sockfd)`, over what `recv` reports and what the buffer
holds before it. -/
def receiveMessage (recv : Recv) (buff : Buffer) (node : Node) : Except Fault (Int × Node) := do
  let msg ← cString (recv.overwrite buff)
  let msg := msg.filter fun c => !unuseful c
  return (recv.ret, { node with messages := node.messages ++ [msg] })

/-- `send_message(sockfd, msg, len, offset)`: the bytes handed to the socket. -/
def sendMessage (msg : Str) (len : Nat) : Except Fault Str :=
  if len ≤ msg.length + 1 then .ok ((msg ++ ['\x00']).take len) else .error .bufferOverread

/-- `get_message`: the first message of the queue, which it leaves, or the empty
string. -/
def getMessage (node : Node) : Str × Node :=
  match node.messages with
  | [] => ([], node)
  | msg :: rest => (msg, { node with messages := rest })

/-- The results of `get_message`, called `count` times. -/
def getMessages : Nat → Node → List Str
  | 0, _ => []
  | count + 1, node => node.getMessage.1 :: getMessages count node.getMessage.2

/-- Taking as many messages as there are takes all of them. -/
theorem getMessages_length (node : Node) :
    getMessages node.messages.length node = node.messages := by
  obtain ⟨ipaddr, portno, messages⟩ := node
  induction messages with
  | nil => rfl
  | cons msg rest ih => exact congrArg (msg :: ·) ih

/-- A message is sent whole if its own length is given. -/
theorem sendMessage_length (msg : Str) : sendMessage msg msg.length = .ok msg := by
  rw [sendMessage, if_pos (Nat.le_succ _), List.take_left']
  rfl

end Node

/-! ## A stream of messages -/

/-- A character that reaches the queue as it is. -/
def Plain (c : Char) : Prop := c ≠ '\x00' ∧ unuseful c = false

/-- A message that a `recv` of its own would deliver. -/
structure Sendable (msg : Str) : Prop where
  nonempty : msg ≠ []
  short : msg.length ≤ 254
  plain : ∀ c ∈ msg, Plain c

/-- The bytes of the stream when the messages are sent one after the other. -/
def stream (messages : List Str) : Except Fault Str := do
  return (← messages.mapM fun msg => Node.sendMessage msg msg.length).flatten

/-- The stream is made of the messages in their order. -/
theorem stream_eq (messages : List Str) : stream messages = .ok messages.flatten := by
  rw [stream, mapM_eq_ok fun msg _ => Node.sendMessage_length msg]
  exact congrArg (fun sent => Except.ok (List.flatten sent)) (List.map_id' messages)

/-- One `receive_message` on a zeroed buffer. -/
def receiveSegment (node : Node) (segment : Segment) : Except Fault Node := do
  return (← node.receiveMessage (.bytes segment) zeroFilled).2

/-- A segment of plain characters becomes one message, unless it fills the
buffer and leaves no NUL. -/
theorem receiveSegment_eq_ok_iff {node next : Node} {segment : Segment}
    (plain : ∀ c ∈ segment.bytes, Plain c) :
    receiveSegment node segment = .ok next ↔
      segment.bytes.length < defaultLen ∧
        { node with messages := node.messages ++ [segment.bytes] } = next := by
  have noNul : ∀ c ∈ segment.bytes, decide (c ≠ '\x00') = true := fun c member =>
    decide_eq_true (plain c member).1
  have kept : segment.bytes.filter (fun c => !unuseful c) = segment.bytes :=
    List.filter_eq_self.mpr fun c member => by rw [(plain c member).2]; rfl
  by_cases short : segment.bytes.length < defaultLen
  · have rest : zeroFilled.1.drop segment.bytes.length =
        '\x00' :: List.replicate (defaultLen - segment.bytes.length - 1) '\x00' := by
      rw [zeroFilled, List.drop_replicate, ← List.replicate_succ]
      congr 1
      omega
    have read : cString (Recv.overwrite zeroFilled (.bytes segment)) = .ok segment.bytes := by
      rw [Recv.overwrite, rest, cString, if_pos (by simp), List.takeWhile_append_of_pos noNul]
      simp
    rw [receiveSegment, Node.receiveMessage, read]
    change Except.ok { node with messages := node.messages ++ [_] } = _ ↔ _
    rw [kept, Except.ok.injEq]
    exact (and_iff_right short).symm
  · have full : zeroFilled.1.drop segment.bytes.length = [] :=
      List.drop_of_length_le (by rw [zeroFilled.2]; omega)
    have overread : cString (Recv.overwrite zeroFilled (.bytes segment)) =
        .error .bufferOverread := by
      rw [Recv.overwrite, full, List.append_nil, cString, if_neg]
      exact fun member => (plain _ member).1 rfl
    rw [receiveSegment, Node.receiveMessage, overread]
    exact ⟨fun failed => (nomatch failed), fun fits => (short fits.1).elim⟩

/-- Segments of plain characters are queued as they are, if each leaves room for the
NUL. -/
theorem run_receiveSegment_eq_ok_iff {node final : Node} {segments : List Segment}
    (plain : ∀ segment ∈ segments, ∀ c ∈ segment.bytes, Plain c) :
    Runs.run receiveSegment node segments = .ok final ↔
      (∀ segment ∈ segments, segment.bytes.length < defaultLen) ∧
        { node with messages := node.messages ++ segments.map Segment.bytes } = final := by
  induction segments generalizing node with
  | nil => simp
  | cons segment segments ih =>
      rw [Runs.run_cons_eq_ok_iff, List.forall_mem_cons]
      rw [List.forall_mem_cons] at plain
      simp only [receiveSegment_eq_ok_iff plain.1, ih plain.2]
      refine ⟨fun received => ?_, fun received => ?_⟩
      · obtain ⟨_, ⟨short, rfl⟩, rest, same⟩ := received
        refine ⟨⟨short, rest⟩, ?_⟩
        rw [← same, List.map_cons, List.append_assoc]
        rfl
      · obtain ⟨⟨short, rest⟩, same⟩ := received
        refine ⟨_, ⟨short, rfl⟩, rest, ?_⟩
        rw [← same, List.map_cons, List.append_assoc]
        rfl

/-- The receiving node gets back exactly these messages. -/
def Delivers (receiver : Node) (segments : List Segment) (messages : List Str) : Prop :=
  ∃ node, Runs.run receiveSegment receiver segments = .ok node ∧
    node.getMessages node.messages.length = messages

/-- The segments cut up the stream of the messages. -/
def Carries (segments : List Segment) (messages : List Str) : Prop :=
  stream messages = .ok (segments.map Segment.bytes).flatten

/-- The segments cut up what the messages make up. -/
theorem carries_iff {segments : List Segment} {messages : List Str} :
    Carries segments messages ↔ messages.flatten = (segments.map Segment.bytes).flatten := by
  rw [Carries, stream_eq, Except.ok.injEq]

/-- The messages are delivered when the stream is cut between them. -/
theorem delivers_iff (ipaddr : Str) (portno : Int32) {segments : List Segment}
    {messages : List Str} (sendable : ∀ msg ∈ messages, Sendable msg)
    (carries : Carries segments messages) :
    Delivers (Node.make ipaddr portno) segments messages ↔
      segments.map Segment.bytes = messages := by
  have plain : ∀ segment ∈ segments, ∀ c ∈ segment.bytes, Plain c := by
    intro segment member c inside
    have sent : c ∈ messages.flatten := by
      rw [carries_iff.mp carries]
      exact List.mem_flatten.mpr ⟨_, List.mem_map_of_mem member, inside⟩
    obtain ⟨msg, among, within⟩ := List.mem_flatten.mp sent
    exact (sendable msg among).plain c within
  refine ⟨fun delivered => ?_, fun same => ?_⟩
  · obtain ⟨node, received, results⟩ := delivered
    obtain ⟨_, rfl⟩ := (run_receiveSegment_eq_ok_iff plain).mp received
    rw [Node.getMessages_length] at results
    simpa [Node.make] using results
  · refine ⟨_, (run_receiveSegment_eq_ok_iff plain).mpr ⟨fun segment member => ?_, rfl⟩, ?_⟩
    · have among : segment.bytes ∈ messages := by
        rw [← same]
        exact List.mem_map_of_mem member
      exact Nat.lt_succ_of_le (sendable _ among).short
    · rw [Node.getMessages_length]
      simpa [Node.make] using same

/-- Every character in a segment of its own. -/
def singles (bytes : Str) : List Segment :=
  bytes.map fun c => ⟨[c], List.cons_ne_nil c [], by simp [defaultLen]⟩

/-- The segments of one byte each make up the stream. -/
theorem flatten_singles (bytes : Str) :
    ((singles bytes).map Segment.bytes).flatten = bytes := by
  induction bytes with
  | nil => rfl
  | cons c bytes ih => exact congrArg (c :: ·) ih

theorem eq_singleton_of_flatten {pieces : List Str} (nonempty : ∀ piece ∈ pieces, piece ≠ [])
    {c : Char} (single : pieces.flatten = [c]) : pieces = [[c]] := by
  cases pieces with
  | nil => cases single
  | cons piece rest =>
      rw [List.forall_mem_cons] at nonempty
      rcases List.append_eq_singleton_iff.mp single with none | whole
      · exact (nonempty.1 none.1).elim
      · have nothing : rest = [] := by
          refine List.eq_nil_iff_forall_not_mem.mpr fun other member => ?_
          exact nonempty.2 other member (List.flatten_eq_nil_iff.mp whole.2 other member)
        rw [whole.1, nothing]

/-- Nonempty messages of one character in all are cut up in one way. -/
theorem eq_of_carries_of_short {segments : List Segment} {messages : List Str}
    (sendable : ∀ msg ∈ messages, Sendable msg) (short : messages.flatten.length ≤ 1)
    (carries : Carries segments messages) : segments.map Segment.bytes = messages := by
  have pieces : ∀ piece ∈ segments.map Segment.bytes, piece ≠ [] := by
    intro piece member
    obtain ⟨segment, _, rfl⟩ := List.mem_map.mp member
    exact segment.nonempty
  have some : ∀ msg ∈ messages, msg ≠ [] := fun msg member => (sendable msg member).nonempty
  have same := carries_iff.mp carries
  cases flat : messages.flatten with
  | nil =>
      rw [flat] at same
      have noSegment := List.flatten_eq_nil_iff.mp same.symm
      have noMessage := List.flatten_eq_nil_iff.mp flat
      rw [List.eq_nil_iff_forall_not_mem.mpr fun piece member =>
          pieces piece member (noSegment piece member),
        List.eq_nil_iff_forall_not_mem.mpr fun msg member => some msg member (noMessage msg member)]
  | cons c rest =>
      have nothing : rest = [] := by
        rw [flat, List.length_cons] at short
        exact List.eq_nil_of_length_eq_zero (by omega)
      rw [nothing] at flat
      rw [flat] at same
      rw [eq_singleton_of_flatten pieces same.symm, eq_singleton_of_flatten some flat]

/-- **Message boundaries.** Over a given cutting of the stream the receiver gets
the sent messages back exactly when every `recv` returns the bytes of one
`send`; over every cutting, exactly when at most one byte is sent in all. -/
theorem boundaries_iff (ipaddr : Str) (portno : Int32) (messages : List Str)
    (sendable : ∀ msg ∈ messages, Sendable msg) :
    (∀ segments, Carries segments messages →
      (Delivers (Node.make ipaddr portno) segments messages ↔
        segments.map Segment.bytes = messages)) ∧
    ((∀ segments, Carries segments messages →
      Delivers (Node.make ipaddr portno) segments messages) ↔ messages.flatten.length ≤ 1) := by
  refine ⟨fun segments => delivers_iff ipaddr portno sendable, fun always => ?_,
    fun short segments carries => ?_⟩
  · by_contra long
    obtain ⟨a, b, rest, flat⟩ : ∃ a b rest, messages.flatten = a :: b :: rest := by
      match messages.flatten, long with
      | a :: b :: rest, _ => exact ⟨a, b, rest, rfl⟩
      | [a], long => exact (long (Nat.le_refl 1)).elim
      | [], long => exact (long (Nat.zero_le 1)).elim
    -- the first two bytes arrive together, or one by one
    have together : Carries (⟨[a, b], by simp, by simp [defaultLen]⟩ :: singles rest) messages := by
      rw [carries_iff, flat, List.map_cons, List.flatten_cons, flatten_singles]
      rfl
    have apart : Carries (singles (a :: b :: rest)) messages := by
      rw [carries_iff, flat, flatten_singles]
    have first := (delivers_iff ipaddr portno sendable together).mp (always _ together)
    have second := (delivers_iff ipaddr portno sendable apart).mp (always _ apart)
    have same := first.trans second.symm
    simp [singles] at same
  · exact (delivers_iff ipaddr portno sendable carries).mpr
      (eq_of_carries_of_short sendable short carries)

theorem sendable_ab : Sendable ['a', 'b'] where
  nonempty := List.cons_ne_nil _ _
  short := by decide
  plain := List.forall_mem_cons.mpr
    ⟨⟨by decide, by decide⟩, List.forall_mem_singleton.mpr ⟨by decide, by decide⟩⟩

theorem boundaries_iff_of_pair :
    (∀ msg ∈ [['a', 'b'], ['a', 'b']], Sendable msg) ∧
    (∀ segments, Carries segments [['a', 'b'], ['a', 'b']] →
      (Delivers (Node.make [] 0) segments [['a', 'b'], ['a', 'b']] ↔
        segments.map Segment.bytes = [['a', 'b'], ['a', 'b']])) ∧
    ((∀ segments, Carries segments [['a', 'b'], ['a', 'b']] →
      Delivers (Node.make [] 0) segments [['a', 'b'], ['a', 'b']]) ↔
        [['a', 'b'], ['a', 'b']].flatten.length ≤ 1) :=
  ⟨by simp [sendable_ab], boundaries_iff [] 0 [['a', 'b'], ['a', 'b']] (by simp [sendable_ab])⟩

/-- Two messages that arrive together become one. -/
theorem merged_messages :
    ∃ segments, Carries segments [['a', 'b'], ['a', 'b']] ∧
      ¬ Delivers (Node.make [] 0) segments [['a', 'b'], ['a', 'b']] := by
  have carries : Carries [⟨['a', 'b', 'a', 'b'], by decide, by decide⟩]
      [['a', 'b'], ['a', 'b']] := carries_iff.mpr rfl
  refine ⟨_, carries, fun delivered => ?_⟩
  have same := (delivers_iff [] 0 (by simp [sendable_ab]) carries).mp delivered
  simp at same

end Ssle.App
