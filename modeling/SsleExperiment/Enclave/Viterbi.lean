import Mathlib.Data.Bool.Basic
import Mathlib.Data.List.FinRange
import Mathlib.Data.Nat.Bitwise
import SsleExperiment.Cpp.Basic
import SsleExperiment.Math.Blocks
import SsleExperiment.Math.Trellis

/-! # The Viterbi codec

`ViterbiCodec` encodes with a shift register and decodes by the Viterbi
algorithm. The register is a number below `2^(constraint - 1)`
(`Ssle.ViterbiCodec.State`), so that no access to a table is out of range. The
codec is an instance of an encoder (`Ssle.ViterbiCodec.encoder`) whose states
are each entered from two others (`Ssle.ViterbiCodec.nextState_eq_iff`).

Indices and metrics are natural numbers. They are the `int`s of the program as long
as a string, with the zeros that complete its last symbol, has at most `INT_MAX`
characters.
-/

namespace Ssle

/-- `std::numeric_limits<int>::max()`. -/
def intMax : Nat := 2 ^ 31 - 1

/-- `HammingDistance`, of strings that the codec keeps of equal size. -/
def hammingDistance (x y : Str) : Nat := mismatches x y

/-- The loop of `ReverseBits`. -/
def reverseBitsLoop : Nat → Nat → Nat → Nat
  | 0, _, output => output
  | numBits + 1, input, output =>
      reverseBitsLoop numBits (input >>> 1) ((output <<< 1) + (input &&& 1))

/-- `ReverseBits`. -/
def reverseBits (numBits input : Nat) : Nat := reverseBitsLoop numBits input 0

/-- The innermost loop of `InitializeOutputs`. -/
def parityLoop : Nat → Nat → Nat → Nat → Nat
  | 0, _, _, output => output
  | k + 1, polynomial, input, output =>
      parityLoop k (polynomial >>> 1) (input >>> 1)
        (output ^^^ ((input &&& 1) &&& (polynomial &&& 1)))

/-- The character of an input bit. -/
def bitChar (input : Bool) : Char := if input then '1' else '0'

/-- `assert(c == '0' || c == '1')`, and `c - '0'`. -/
def readBit (c : Char) : Except Fault Bool :=
  if c = '0' then .ok false else if c = '1' then .ok true else .error .assertionFailed

/-- A codec that its constructor accepts, with a register of at least one bit
and a table whose size is an `int`. -/
structure ViterbiCodec where
  constraint : Nat
  polynomials : List Nat
  register : 2 ≤ constraint
  inRange : 2 ^ constraint ≤ intMax
  nonempty : polynomials ≠ []
  valid : ∀ p ∈ polynomials, 0 < p ∧ p < 2 ^ constraint

namespace ViterbiCodec

variable (codec : ViterbiCodec)

/-- `num_parity_bits`. -/
def numParityBits : Nat := codec.polynomials.length

/-- The contents of the shift register. -/
abbrev State := Fin (2 ^ (codec.constraint - 1))

/-- The empty register. -/
def start : codec.State := ⟨0, Nat.two_pow_pos _⟩

/-- There are twice as many states as registers without the topmost bit. -/
theorem size_eq : 2 ^ (codec.constraint - 1) = 2 * 2 ^ (codec.constraint - 2) := by
  rw [← Nat.pow_succ']
  congr 1
  have := codec.register
  omega

theorem nextState_lt (s : codec.State) (input : Bool) :
    s.1 >>> 1 ||| input.toNat <<< (codec.constraint - 2) < 2 ^ (codec.constraint - 1) := by
  have size := codec.size_eq
  apply Nat.or_lt_two_pow
  · rw [Nat.shiftRight_eq_div_pow]
    exact (Nat.div_le_self _ _).trans_lt s.2
  · rw [Nat.shiftLeft_eq, size]
    have bit := input.toNat_lt
    exact Nat.mul_lt_mul_of_pos_right bit (Nat.two_pow_pos _)

/-- `NextState`. -/
def nextState (currentState : codec.State) (input : Bool) : codec.State :=
  ⟨currentState.1 >>> 1 ||| input.toNat <<< (codec.constraint - 2),
    codec.nextState_lt currentState input⟩

/-- The output table that `InitializeOutputs` fills. -/
def outputs : List Str :=
  (List.range (2 ^ codec.constraint)).map fun i =>
    codec.polynomials.map fun polynomial =>
      bitChar (parityLoop codec.constraint (reverseBits codec.constraint polynomial) i 0 ≠ 0)

/-- No output is past the end of the table. -/
theorem output_lt (s : codec.State) (input : Bool) :
    s.1 ||| input.toNat <<< (codec.constraint - 1) < codec.outputs.length := by
  have size : 2 ^ codec.constraint = 2 * 2 ^ (codec.constraint - 1) := by
    rw [← Nat.pow_succ']
    congr 1
    have := codec.register
    omega
  rw [outputs, List.length_map, List.length_range]
  apply Nat.or_lt_two_pow
  · have := s.2
    omega
  · rw [Nat.shiftLeft_eq, size]
    exact Nat.mul_lt_mul_of_pos_right input.toNat_lt (Nat.two_pow_pos _)

/-- `Output`. -/
def output (currentState : codec.State) (input : Bool) : Str :=
  codec.outputs.get ⟨currentState.1 ||| input.toNat <<< (codec.constraint - 1),
    codec.output_lt currentState input⟩

/-- A state and an input emit a parity bit for each polynomial. -/
theorem output_eq (s : codec.State) (input : Bool) :
    codec.output s input = codec.polynomials.map fun polynomial =>
      bitChar (parityLoop codec.constraint (reverseBits codec.constraint polynomial)
        (s.1 ||| input.toNat <<< (codec.constraint - 1)) 0 ≠ 0) := by
  simp only [output, outputs, List.get_eq_getElem, List.getElem_map, List.getElem_range]

@[simp] theorem length_output (s : codec.State) (input : Bool) :
    (codec.output s input).length = codec.numParityBits := by
  rw [output_eq, List.length_map, numParityBits]

/-! ## Encoding -/

/-- One input of `Encode`: the output is appended and the register shifted. -/
def encodeStep (encoded : Str × codec.State) (input : Bool) : Str × codec.State :=
  (encoded.1 ++ codec.output encoded.2 input, codec.nextState encoded.2 input)

/-- `Encode`: the message bits, and `constraint - 1` flushing bits. -/
def encode (bits : Str) : Except Fault Str := do
  let encoded ← bits.foldlM (fun encoded c => do
    let input ← readBit c
    return codec.encodeStep encoded input) ([], codec.start)
  return ((List.range (codec.constraint - 1)).foldl
    (fun encoded _ => codec.encodeStep encoded false) encoded).1

/-! ## Decoding -/

/-- The input that leads to a state: its topmost bit. -/
def inputOf (state : codec.State) : Bool := state.1 >>> (codec.constraint - 2) ≠ 0

theorem source_lt (state : codec.State) (low : Bool) :
    (state.1 &&& (1 <<< (codec.constraint - 2) - 1)) <<< 1 ||| low.toNat <
      2 ^ (codec.constraint - 1) := by
  have positive := Nat.two_pow_pos (codec.constraint - 2)
  have size := codec.size_eq
  have masked := Nat.mod_lt state.1 positive
  rw [Nat.one_shiftLeft, Nat.and_two_pow_sub_one_eq_mod, Nat.shiftLeft_eq, Nat.mul_comm,
    ← Nat.two_pow_add_eq_or_of_lt (by simpa using low.toNat_lt)]
  have bit := low.toNat_lt
  omega

/-- The states that `PathMetric` considers: the register before its lowest bit,
`low`, was shifted out. -/
def source (state : codec.State) (low : Bool) : codec.State :=
  ⟨(state.1 &&& (1 <<< (codec.constraint - 2) - 1)) <<< 1 ||| low.toNat,
    codec.source_lt state low⟩

/-- `BranchMetric`. -/
def branchMetric (bits : Str) (sourceState targetState : codec.State) : Nat :=
  hammingDistance bits (codec.output sourceState (codec.inputOf targetState))

/-- `PathMetric`. -/
def pathMetric (bits : Str) (prevPathMetrics : Vector Nat (2 ^ (codec.constraint - 1)))
    (state : codec.State) : Nat × codec.State :=
  let sourceState1 := codec.source state false
  let sourceState2 := codec.source state true
  let pm1 := prevPathMetrics.get sourceState1
  let pm1 := if pm1 < intMax then pm1 + codec.branchMetric bits sourceState1 state else pm1
  let pm2 := prevPathMetrics.get sourceState2
  let pm2 := if pm2 < intMax then pm2 + codec.branchMetric bits sourceState2 state else pm2
  if pm1 ≤ pm2 then (pm1, sourceState1) else (pm2, sourceState2)

/-- The path metrics, and the columns of the trellis in the order they were
appended. -/
structure Progress where
  pathMetrics : Vector Nat (2 ^ (codec.constraint - 1))
  trellis : List (Vector codec.State (2 ^ (codec.constraint - 1)))

/-- `UpdatePathMetrics`. -/
def updatePathMetrics (progress : codec.Progress) (bits : Str) : codec.Progress where
  pathMetrics := Vector.ofFn fun i => (codec.pathMetric bits progress.pathMetrics i).1
  trellis := progress.trellis ++
    [Vector.ofFn fun i => (codec.pathMetric bits progress.pathMetrics i).2]

/-- The path metrics before the first symbol. -/
def initialMetrics : Vector Nat (2 ^ (codec.constraint - 1)) :=
  (Vector.replicate _ intMax).set 0 0 (Nat.two_pow_pos _)

/-- The loop of `Decode` over the received symbols. -/
def progress (received : List Str) : codec.Progress :=
  received.foldl codec.updatePathMetrics ⟨codec.initialMetrics, []⟩

/-- The symbols of `num_parity_bits` characters that `Decode` processes, the
last one filled with zeros. -/
def symbols (bits : Str) : List Str :=
  (Blocks.blocks codec.numParityBits bits).map fun current =>
    current ++ List.replicate (codec.numParityBits - current.length) '0'

/-- `std::min_element`: the first state of least metric. -/
def minElement (pathMetrics : Vector Nat (2 ^ (codec.constraint - 1))) : codec.State :=
  (List.finRange _).foldl
    (fun best s => if pathMetrics.get s < pathMetrics.get best then s else best) codec.start

/-- The loop of the traceback, over the columns from the last to the first. -/
def traceback : List (Vector codec.State (2 ^ (codec.constraint - 1))) → codec.State → Str
  | [], _ => []
  | column :: columns, state =>
      bitChar (codec.inputOf state) :: traceback columns (column.get state)

/-- `Decode`. The flushing bits are removed by `substr`, whose length is the
`size_t` `decoded.size() - constraint + 1`. -/
def decode (bits : Str) : Str :=
  let progress := codec.progress (codec.symbols bits)
  let state := codec.minElement progress.pathMetrics
  let decoded := (codec.traceback progress.trellis.reverse state).reverse
  decoded.take ((decoded.length + 2 ^ 64 - codec.constraint + 1) % 2 ^ 64)

/-! ## The encoder -/

/-- The codec as an encoder. -/
def encoder : Encoder codec.State Bool Char where
  next := codec.nextState
  out := codec.output
  width := codec.numParityBits
  length_out := codec.length_output

@[simp] theorem width_encoder : codec.encoder.width = codec.numParityBits := rfl

theorem numParityBits_pos : 0 < codec.numParityBits :=
  List.length_pos_iff.mpr codec.nonempty

/-- The loop of `Encode` is a run of the encoder. -/
theorem foldl_encodeStep (inputs : List Bool) (encoded : Str × codec.State) :
    inputs.foldl codec.encodeStep encoded =
      (encoded.1 ++ codec.encoder.emit encoded.2 inputs, codec.encoder.final encoded.2 inputs) := by
  induction inputs generalizing encoded with
  | nil => simp
  | cons input inputs ih =>
      rw [List.foldl_cons, ih, Encoder.emit_cons, ← List.append_assoc]
      rfl

theorem readBit_bitChar (input : Bool) : readBit (bitChar input) = .ok input := by
  cases input <;> rfl

/-- What `Encode` returns: the emission of the message and the flushing bits. -/
theorem encode_eq (inputs : List Bool) :
    codec.encode (inputs.map bitChar) =
      .ok (codec.encoder.emit codec.start
        (inputs ++ List.replicate (codec.constraint - 1) false)) := by
  have message (encoded : Str × codec.State) :
      (inputs.map bitChar).foldlM (fun encoded c => do
        let input ← readBit c
        return codec.encodeStep encoded input) encoded =
      (.ok (inputs.foldl codec.encodeStep encoded) : Except Fault _) := by
    induction inputs generalizing encoded with
    | nil => rfl
    | cons input inputs ih =>
        rw [List.map_cons, List.foldlM_cons, readBit_bitChar]
        exact ih _
  have flush (encoded : Str × codec.State) (count : Nat) :
      (List.range count).foldl (fun encoded _ => codec.encodeStep encoded false) encoded =
        (List.replicate count false).foldl codec.encodeStep encoded := by
    induction count with
    | zero => rfl
    | succ count ih =>
        rw [List.range_succ, List.foldl_append, ih, List.replicate_succ', List.foldl_append]
        rfl
  rw [encode, message]
  change Except.ok ((List.range (codec.constraint - 1)).foldl
    (fun encoded _ => codec.encodeStep encoded false)
    (inputs.foldl codec.encodeStep ([], codec.start))).1 = _
  rw [flush, ← List.foldl_append, foldl_encodeStep, List.nil_append]

/-! ## The trellis -/

theorem val_nextState (s : codec.State) (input : Bool) :
    (codec.nextState s input).1 = s.1 / 2 + input.toNat * 2 ^ (codec.constraint - 2) := by
  have half : s.1 / 2 < 2 ^ (codec.constraint - 2) := by
    have size := codec.size_eq
    have := s.2
    omega
  change s.1 >>> 1 ||| input.toNat <<< (codec.constraint - 2) = _
  rw [Nat.shiftRight_eq_div_pow, pow_one, Nat.shiftLeft_eq, Nat.or_comm, Nat.mul_comm input.toNat,
    ← Nat.two_pow_add_eq_or_of_lt half, Nat.add_comm]

theorem val_source (state : codec.State) (low : Bool) :
    (codec.source state low).1 = 2 * (state.1 % 2 ^ (codec.constraint - 2)) + low.toNat := by
  change (state.1 &&& (1 <<< (codec.constraint - 2) - 1)) <<< 1 ||| low.toNat = _
  rw [Nat.one_shiftLeft, Nat.and_two_pow_sub_one_eq_mod, Nat.shiftLeft_eq, Nat.mul_comm,
    ← Nat.two_pow_add_eq_or_of_lt (by simpa using low.toNat_lt), pow_one]

theorem toNat_inputOf (state : codec.State) :
    (codec.inputOf state).toNat = state.1 / 2 ^ (codec.constraint - 2) := by
  have size := codec.size_eq
  have below : state.1 / 2 ^ (codec.constraint - 2) < 2 := by
    rw [Nat.div_lt_iff_lt_mul (Nat.two_pow_pos _), ← size]
    exact state.2
  rw [inputOf, Nat.shiftRight_eq_div_pow]
  rcases Nat.le_one_iff_eq_zero_or_eq_one.mp (Nat.le_of_lt_succ below) with zero | one
  · simp [zero]
  · simp [one]

/-- The assertion of `BranchMetric` on the two states. -/
theorem source_asserted (state : codec.State) (low : Bool) :
    state.1 &&& (1 <<< (codec.constraint - 2) - 1) = (codec.source state low).1 >>> 1 := by
  have bit := low.toNat_lt
  rw [val_source, Nat.one_shiftLeft, Nat.and_two_pow_sub_one_eq_mod, Nat.shiftRight_eq_div_pow]
  omega

/-- A state is entered under its topmost bit, from two states. -/
theorem nextState_eq_iff (s : codec.State) (input : Bool) (t : codec.State) :
    codec.nextState s input = t ↔
      input = codec.inputOf t ∧ (s = codec.source t false ∨ s = codec.source t true) := by
  have positive := Nat.two_pow_pos (codec.constraint - 2)
  have half : s.1 / 2 < 2 ^ (codec.constraint - 2) := by
    have size := codec.size_eq
    have := s.2
    omega
  simp only [Fin.ext_iff, val_nextState, val_source, Bool.toNat_false, Bool.toNat_true]
  refine ⟨fun same => ⟨?_, ?_⟩, fun entered => ?_⟩
  · have topmost := codec.toNat_inputOf t
    rw [← same, Nat.add_mul_div_right _ _ positive, Nat.div_eq_of_lt half, Nat.zero_add]
      at topmost
    rw [← Bool.ofNat_toNat input, ← topmost, Bool.ofNat_toNat]
  · rw [← same, Nat.add_mul_mod_self_right, Nat.mod_eq_of_lt half]
    omega
  · obtain ⟨sameInput, predecessor⟩ := entered
    have low : s.1 / 2 = t.1 % 2 ^ (codec.constraint - 2) := by omega
    rw [low, sameInput, toNat_inputOf, Nat.mul_comm]
    exact Nat.mod_add_div _ _

/-- The trellis of the codec. -/
def codeTrellis : Trellis codec.State Bool Str :=
  codec.encoder.trellis codec.inputOf (codec.source · false) (codec.source · true)
    codec.nextState_eq_iff

end ViterbiCodec

end Ssle
