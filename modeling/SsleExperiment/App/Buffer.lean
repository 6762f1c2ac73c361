import SsleExperiment.App.Node
import SsleExperiment.Math.Fields

/-! # What the receive buffer held before

`receive_message` reads its local buffer as a string up to the first NUL, and it
does so whatever `recv` reported. A call therefore depends on the bytes received
alone only if a NUL is among them (`Ssle.App.determined_iff`): otherwise what
the buffer held before follows them, and a failed `recv` leaves nothing else.
-/

namespace Ssle.App

/-- The bytes received as a message: those before the first NUL, without the
control characters. -/
def delivered (bytes : Str) : Str := (bytes.takeWhile (· ≠ '\x00')).filter fun c => !unuseful c

namespace Recv

/-- The queue that follows from what `recv` reports: one message for the bytes
received, and no message without bytes. -/
def queue (messages : List Str) : Recv → List Str
  | .bytes segment => messages ++ [delivered segment.bytes]
  | .endOfStream => messages
  | .error => messages

/-- A NUL is among the bytes received. -/
def Terminated : Recv → Prop
  | .bytes segment => '\x00' ∈ segment.bytes
  | .endOfStream => False
  | .error => False

/-- A NUL is among the bytes received, or the buffer has one after them with
nothing but removed characters in between. -/
def Settles (buff : Buffer) : Recv → Prop
  | .bytes segment =>
      '\x00' ∈ segment.bytes ∨
        '\x00' ∈ buff.1.drop segment.bytes.length ∧
          ∀ c ∈ (buff.1.drop segment.bytes.length).takeWhile (· ≠ '\x00'), unuseful c = true
  | .endOfStream => False
  | .error => False

end Recv

/-- The queue after a call of `receive_message`. -/
def queueAfter (recv : Recv) (buff : Buffer) (node : Node) : Except Fault (List Str) := do
  return (← node.receiveMessage recv buff).2.messages

/-- Two calls that differ in the prior contents of the buffer leave the queue
that follows from what `recv` reports. -/
structure Determined (node : Node) (recv : Recv) (buff buff' : Buffer) : Prop where
  first : queueAfter recv buff node = .ok (recv.queue node.messages)
  second : queueAfter recv buff' node = .ok (recv.queue node.messages)

/-- What is queued ends at the first NUL of what the buffer holds then. -/
theorem queueAfter_eq (recv : Recv) (buff : Buffer) (node : Node) :
    queueAfter recv buff node =
      if '\x00' ∈ recv.overwrite buff then .ok (node.messages ++ [delivered (recv.overwrite buff)])
      else .error .bufferOverread := by
  rw [queueAfter, Node.receiveMessage, cString]
  split
  · rfl
  · rfl

/-- The bytes received come before what is left of the buffer. -/
theorem queueAfter_bytes (segment : Segment) (buff : Buffer) (node : Node) :
    queueAfter (.bytes segment) buff node =
      if '\x00' ∈ segment.bytes ++ buff.1.drop segment.bytes.length then
        .ok (node.messages ++ [delivered (segment.bytes ++ buff.1.drop segment.bytes.length)])
      else .error .bufferOverread := queueAfter_eq (.bytes segment) buff node

/-- One call: the queue follows from what `recv` reports exactly when the
buffer settles it. -/
theorem queueAfter_eq_queue_iff (recv : Recv) (buff : Buffer) (node : Node) :
    queueAfter recv buff node = .ok (recv.queue node.messages) ↔ recv.Settles buff := by
  have pushes (msg : Str) : node.messages ++ [msg] ≠ node.messages := by simp
  cases recv with
  | endOfStream =>
      rw [queueAfter_eq]
      split
      · simp [Recv.queue, Recv.Settles, pushes]
      · simp [Recv.Settles]
  | error =>
      rw [queueAfter_eq]
      split
      · simp [Recv.queue, Recv.Settles, pushes]
      · simp [Recv.Settles]
  | bytes segment =>
      rw [queueAfter_bytes]
      simp only [Recv.queue, Recv.Settles, delivered]
      by_cases nul : '\x00' ∈ segment.bytes
      · rw [if_pos (List.mem_append_left _ nul), Fields.takeWhile_append_of_mem nul]
        simp [nul]
      · by_cases later : '\x00' ∈ buff.1.drop segment.bytes.length
        · rw [if_pos (List.mem_append_right _ later), Fields.takeWhile_append_of_not_mem nul,
            Fields.takeWhile_of_not_mem nul, List.filter_append]
          simp [nul, later]
        · have none : '\x00' ∉ segment.bytes ++ buff.1.drop segment.bytes.length := by
            simp only [List.mem_append, nul, later, or_self, not_false_eq_true]
          rw [if_neg none]
          simp [nul, later]

/-- A buffer without a NUL. -/
def unterminated : Buffer := ⟨List.replicate defaultLen 'x', List.length_replicate⟩

/-- Without a NUL in the buffer, only what is received can bring one. -/
theorem settles_unterminated_iff (recv : Recv) :
    recv.Settles unterminated ↔ recv.Terminated := by
  cases recv with
  | endOfStream => rfl
  | error => rfl
  | bytes segment =>
      have none : '\x00' ∉ unterminated.1.drop segment.bytes.length := by
        simp [unterminated]
      simp only [Recv.Settles, Recv.Terminated, none, false_and, or_false]

/-- A NUL that is received settles the message over every buffer. -/
theorem Recv.Terminated.settles {recv : Recv} (terminated : recv.Terminated) (buff : Buffer) :
    recv.Settles buff := by
  cases recv with
  | endOfStream => exact terminated
  | error => exact terminated
  | bytes segment => exact .inl terminated

/-- Two buffers give the same message when each settles it. -/
theorem determined_pair_iff (node : Node) (recv : Recv) (buff buff' : Buffer) :
    Determined node recv buff buff' ↔ recv.Settles buff ∧ recv.Settles buff' := by
  rw [← queueAfter_eq_queue_iff recv buff node, ← queueAfter_eq_queue_iff recv buff' node]
  exact ⟨fun determined => ⟨determined.first, determined.second⟩,
    fun both => ⟨both.1, both.2⟩⟩

/-- **What the prior contents decide.** Two calls that differ in the prior
contents of the buffer leave the queue that follows from what `recv` reports
exactly when both contents settle it; all contents do exactly when a NUL is
among the bytes received. -/
theorem determined_iff (node : Node) (recv : Recv) :
    (∀ buff buff', Determined node recv buff buff' ↔
      recv.Settles buff ∧ recv.Settles buff') ∧
    ((∀ buff buff', Determined node recv buff buff') ↔ recv.Terminated) := by
  refine ⟨determined_pair_iff node recv, fun always => ?_, fun terminated buff buff' => ?_⟩
  · have both := (determined_pair_iff node recv _ _).mp (always unterminated unterminated)
    exact (settles_unterminated_iff recv).mp both.1
  · exact (determined_pair_iff node recv buff buff').mpr
      ⟨terminated.settles buff, terminated.settles buff'⟩

/-- One byte `a`, received once into a buffer of zeros and once into one that
held a `b` after it: the messages are `a` and `ab`. -/
theorem leaked_buffer :
    ∃ (recv : Recv) (buff buff' : Buffer),
      queueAfter recv buff (Node.make [] 0) = .ok [['a']] ∧
      queueAfter recv buff' (Node.make [] 0) = .ok [['a', 'b']] ∧
      ¬ Determined (Node.make [] 0) recv buff buff' := by
  have first : queueAfter (.bytes ⟨['a'], List.cons_ne_nil _ _, by decide⟩) zeroFilled
      (Node.make [] 0) = .ok [['a']] := by decide
  have second : queueAfter (.bytes ⟨['a'], List.cons_ne_nil _ _, by decide⟩)
      ⟨'x' :: 'b' :: List.replicate 253 '\x00', congrArg (· + 2) List.length_replicate⟩
      (Node.make [] 0) = .ok [['a', 'b']] := by decide
  refine ⟨_, _, _, first, second, fun determined => ?_⟩
  have same := determined.first.symm.trans first
  have same' := determined.second.symm.trans second
  rw [same] at same'
  cases same'

end Ssle.App
