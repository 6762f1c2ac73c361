import SsleExperiment.Enclave.Decodability
import SsleExperiment.Math.BinaryPolynomials

/-! # Encoding as multiplication of polynomials

The characters at one position of all symbols are a lane of the encoding. As
polynomials over the field of two elements, the lane is the product of the
message and the generator polynomial of that position
(`Ssle.ViterbiCodec.encode_mul`). A codec with the bits of every polynomial
reversed therefore encodes the reversed message as the lanes reversed
(`Ssle.ViterbiCodec.encode_reversed`).
-/

namespace Ssle

open BinaryPolynomials Polynomial

/-- The loop of `InitializeOutputs` sums up the bits of the input that the
polynomial taps. -/
theorem coefficient_parityLoop (k polynomial input : Nat) (output : Bool) :
    coefficient (parityLoop k polynomial input output.toNat ≠ 0) = coefficient output +
      ∑ i ∈ Finset.range k, coefficient (input.testBit i) * coefficient (polynomial.testBit i) := by
  induction k generalizing polynomial input output with
  | zero => cases output <;> rfl
  | succ k ih =>
      rw [parityLoop_succ, ih, Finset.sum_range_succ', coefficient_xor, coefficient_and]
      simp only [Nat.testBit_shiftRight, Nat.add_comm 1]
      ring

namespace ViterbiCodec

variable (codec : ViterbiCodec)

/-! ## Lanes -/

/-- The characters at position `i` of the symbols, as bits. -/
def lane (i : Nat) (encoded : Str) : List Bool :=
  (List.range (encoded.length / codec.numParityBits)).map fun t =>
    encoded[t * codec.numParityBits + i]? = some '1'

/-- A lane has a bit for each input. -/
theorem length_lane_emit (i : Nat) (s : codec.State) (inputs : List Bool) :
    (codec.lane i (codec.encoder.emit s inputs)).length = inputs.length := by
  rw [lane, List.length_map, List.length_range, Encoder.length_emit, width_encoder,
    Nat.mul_div_cancel _ codec.numParityBits_pos]

/-- What the output reads after `t` inputs: the inputs up to that one, the latest
on top. -/
theorem testBit_read {inputs : List Bool} {t j : Nat} (inside : t < inputs.length)
    (room : j < codec.constraint) :
    ((codec.encoder.final codec.start (inputs.take t)).1 |||
        inputs[t].toNat <<< (codec.constraint - 1)).testBit (codec.constraint - 1 - j) =
      if j ≤ t then inputs.getD (t - j) false else false := by
  by_cases recent : j ≤ t
  · have split : inputs.take t = inputs.take (t - j) ++ (inputs.drop (t - j)).take j := by
      rw [← List.take_add, Nat.sub_add_cancel recent]
    have size : ((inputs.drop (t - j)).take j).length = j := by
      rw [List.length_take, List.length_drop]
      omega
    have head : ((inputs.drop (t - j)).take j ++ [inputs[t]]).head? =
        some (inputs.getD (t - j) false) := by
      have long : j < (inputs.drop (t - j)).length := by
        rw [List.length_drop]
        omega
      have last : (inputs.drop (t - j))[j] = inputs[t] := by
        simp only [List.getElem_drop, Nat.sub_add_cancel recent]
      have first : t - j < inputs.length := (Nat.sub_le t j).trans_lt inside
      rw [← last, List.take_append_getElem long, List.head?_take, if_neg (Nat.succ_ne_zero j),
        List.head?_drop, List.getD_eq_getElem _ _ first, List.getElem?_eq_getElem first]
    rw [split, Encoder.final_append, testBit_window codec head (by omega), if_pos (by omega),
      if_pos recent]
  · have size : (inputs.take t).length = t := List.length_take_of_le (Nat.le_of_lt inside)
    have nonempty : inputs ≠ [] := List.ne_nil_of_length_pos (Nat.zero_lt_of_lt inside)
    have head : (inputs.take t ++ [inputs[t]]).head? = some (inputs.head nonempty) := by
      rw [List.take_append_getElem inside, List.head?_take, if_neg (Nat.succ_ne_zero t),
        List.head?_eq_some_head nonempty]
    rw [testBit_window codec head (by omega), if_neg (by omega), if_neg recent]
    exact Nat.zero_testBit _

/-- The character at position `i` of symbol `t`. -/
theorem getElem?_emit {i t : Nat} {inputs : List Bool} (below : i < codec.numParityBits)
    (inside : t < inputs.length) :
    (codec.encoder.emit codec.start inputs)[t * codec.numParityBits + i]? =
      (codec.output (codec.encoder.final codec.start (inputs.take t)) inputs[t])[i]? := by
  have split : inputs = inputs.take t ++ inputs[t] :: inputs.drop (t + 1) := by
    rw [← List.drop_eq_getElem_cons inside, List.take_append_drop]
  have size : (codec.encoder.emit codec.start (inputs.take t)).length =
      t * codec.numParityBits := by
    rw [Encoder.length_emit, List.length_take_of_le (Nat.le_of_lt inside), width_encoder]
  conv_lhs => rw [split]
  rw [Encoder.emit_append, Encoder.emit_cons, List.getElem?_append_right (by omega), size,
    Nat.add_sub_cancel_left, List.getElem?_append_left]
  · rfl
  · change i < (codec.output _ _).length
    rwa [length_output]

/-- The generator polynomial: bit `j` taps the input `j` steps before. -/
noncomputable def generator (polynomial : Nat) : (ZMod 2)[X] := ofTaps codec.constraint polynomial

/-- A bit is read back from its character. -/
theorem decide_some_bitChar (bit : Bool) : decide (some (bitChar bit) = some '1') = bit := by
  cases bit <;> rfl

/-- A bit of a lane is a coefficient of the product. -/
theorem coeff_lane {i polynomial t : Nat} (place : codec.polynomials[i]? = some polynomial)
    {inputs : List Bool} (inside : t < inputs.length) :
    (ofBits (codec.lane i (codec.encoder.emit codec.start inputs))).coeff t =
      (codec.generator polynomial * ofBits inputs).coeff t := by
  have below : i < codec.numParityBits := (List.getElem?_eq_some_iff.mp place).1
  have within : t < (codec.lane i (codec.encoder.emit codec.start inputs)).length := by
    rwa [length_lane_emit]
  have bit : (codec.lane i (codec.encoder.emit codec.start inputs))[t] =
      decide (parityLoop codec.constraint (reverseBits codec.constraint polynomial)
        ((codec.encoder.final codec.start (inputs.take t)).1 |||
          inputs[t].toNat <<< (codec.constraint - 1)) false.toNat ≠ 0) := by
    simp only [lane, List.getElem_map, List.getElem_range, codec.getElem?_emit below inside,
      output_eq, List.getElem?_map, place, Option.map_some]
    exact decide_some_bitChar _
  rw [coeff_ofBits, List.getD_eq_getElem _ _ within, bit, coefficient_parityLoop,
    coefficient_false, zero_add, generator, coeff_ofTaps_mul, ← Finset.sum_range_reflect]
  refine Finset.sum_congr rfl fun j member => ?_
  have room := Finset.mem_range.mp member
  rw [codec.testBit_read inside room, testBit_reverseBits (by omega),
    show codec.constraint - 1 - (codec.constraint - 1 - j) = j by omega, mul_comm, coeff_ofBits]
  by_cases recent : j ≤ t
  · rw [if_pos recent, if_pos recent]
  · rw [if_neg recent, if_neg recent, coefficient_false]

/-- The degree is at most the number of delays. -/
theorem natDegree_generator_le (polynomial : Nat) :
    (codec.generator polynomial).natDegree ≤ codec.constraint - 1 := by
  have bound := natDegree_ofBits_le ((List.range codec.constraint).map polynomial.testBit)
  rwa [List.length_map, List.length_range] at bound

/-- The lanes of an encoding are the products of the message with the generator
polynomials. -/
theorem lane_encoded {i polynomial : Nat} (place : codec.polynomials[i]? = some polynomial)
    (message : List Bool) :
    ofBits (codec.lane i (codec.encoder.emit codec.start
        (message ++ List.replicate (codec.constraint - 1) false))) =
      codec.generator polynomial * ofBits message := by
  have size : (message ++ List.replicate (codec.constraint - 1) false).length =
      message.length + (codec.constraint - 1) := by
    rw [List.length_append, List.length_replicate]
  ext t
  rcases Nat.lt_or_ge t (message.length + (codec.constraint - 1)) with inside | past
  · rw [codec.coeff_lane place (size ▸ inside), ofBits_append_replicate]
  · rw [coeff_ofBits_of_le (by rwa [length_lane_emit, size])]
    have degree := natDegree_mul_le (p := codec.generator polynomial) (q := ofBits message)
    have register := codec.register
    by_cases empty : message = []
    · rw [empty]
      simp [ofBits]
    · refine (coeff_eq_zero_of_natDegree_lt ?_).symm
      have some := List.length_pos_iff.mpr empty
      have first := codec.natDegree_generator_le polynomial
      have second := natDegree_ofBits_le message
      omega

/-! ## The index of Encode -/

/-- The loop of `Encode` over the message bits, from the `int` index `i` on. -/
def encodeLoop : Nat → Str × codec.State → Str → Except Fault (Str × codec.State)
  | _, encoded, [] => .ok encoded
  | i, encoded, c :: bits => do
      let input ← readBit c
      -- `i++`
      if i < intMax then encodeLoop (i + 1) (codec.encodeStep encoded input) bits
      else .error .signedOverflow

/-- `Encode` with its index, which `encode` leaves out. -/
def encodeIndexed (bits : Str) : Except Fault Str := do
  let encoded ← codec.encodeLoop 0 ([], codec.start) bits
  return ((List.range (codec.constraint - 1)).foldl
    (fun encoded _ => codec.encodeStep encoded false) encoded).1

/-- As long as the index is an `int`, the loop is the one of `encode`. -/
theorem encodeLoop_of_le {i : Nat} {bits : Str} (within : i + bits.length ≤ intMax)
    (encoded : Str × codec.State) :
    codec.encodeLoop i encoded bits = bits.foldlM (fun encoded c => do
      let input ← readBit c
      return codec.encodeStep encoded input) encoded := by
  induction bits generalizing i encoded with
  | nil => rfl
  | cons c bits ih =>
      rw [List.length_cons] at within
      rw [encodeLoop, List.foldlM_cons]
      cases readBit c with
      | error fault => rfl
      | ok input =>
          have room : i < intMax := by omega
          change (if i < intMax then codec.encodeLoop (i + 1) _ bits else _) = _
          rw [if_pos room, ih (by omega)]
          rfl

/-- The first character of a bit string is read. -/
theorem readBit_of_binary {c : Char} {bits : Str} (binary : PPRF.Binary (c :: bits)) :
    ∃ input, readBit c = .ok input := by
  rcases binary c List.mem_cons_self with rfl | rfl
  · exact ⟨false, rfl⟩
  · exact ⟨true, rfl⟩

/-- Past `INT_MAX` bits the index overflows. -/
theorem encodeLoop_overflow {i : Nat} (started : i ≤ intMax) {bits : Str}
    (binary : PPRF.Binary bits) (past : intMax < i + bits.length)
    (encoded : Str × codec.State) :
    codec.encodeLoop i encoded bits = .error .signedOverflow := by
  induction bits generalizing i encoded with
  | nil => exact absurd past (Nat.not_lt.mpr started)
  | cons c bits ih =>
      obtain ⟨input, read⟩ := readBit_of_binary binary
      rw [List.length_cons] at past
      rw [encodeLoop, read]
      change (if i < intMax then codec.encodeLoop (i + 1) _ bits else _) = _
      by_cases room : i < intMax
      · have rest : PPRF.Binary bits := fun d member => binary d (List.mem_cons_of_mem c member)
        rw [if_pos room, ih room rest (by omega)]
      · rw [if_neg room]

/-- A message whose length is an `int` is encoded as by `encode`. -/
theorem encodeIndexed_of_le {bits : Str} (within : bits.length ≤ intMax) :
    codec.encodeIndexed bits = codec.encode bits := by
  rw [encodeIndexed, codec.encodeLoop_of_le (by omega), encode]

/-- The index overflows on any longer message. -/
theorem encodeIndexed_overflow {bits : Str} (binary : PPRF.Binary bits)
    (past : intMax < bits.length) : codec.encodeIndexed bits = .error .signedOverflow := by
  rw [encodeIndexed, codec.encodeLoop_overflow (Nat.zero_le _) binary (by omega)]
  rfl

/-- **Encoding is multiplication.** Every lane of an encoding is the product of
the message with the generator polynomial of the lane. Messages whose length is
not an `int` are not encoded. -/
theorem encode_mul (codec : ViterbiCodec) (message : Str) (binary : PPRF.Binary message) :
    (intMax < message.length → codec.encodeIndexed message = .error .signedOverflow) ∧
    (message.length ≤ intMax →
      ∃ encoded, codec.encodeIndexed message = .ok encoded ∧
        encoded.length = (message.length + (codec.constraint - 1)) * codec.numParityBits ∧
        ∀ i polynomial, codec.polynomials[i]? = some polynomial →
          ofBits (codec.lane i encoded) =
            codec.generator polynomial * ofBits (PPRF.toBits message)) := by
  refine ⟨codec.encodeIndexed_overflow binary, fun within => ?_⟩
  rw [codec.encodeIndexed_of_le within]
  refine ⟨_, PPRF.encode_of_binary codec binary, ?_, fun i polynomial place =>
    codec.lane_encoded place (PPRF.toBits message)⟩
  rw [Encoder.length_emit, List.length_append, PPRF.length_toBits, List.length_replicate,
    width_encoder]

theorem encode_mul_of_three :
    PPRF.Binary ['1', '0', '1'] ∧
    ∃ encoded, PPRF.codec.encodeIndexed ['1', '0', '1'] = .ok encoded ∧
      encoded.length = (3 + (PPRF.codec.constraint - 1)) * PPRF.codec.numParityBits ∧
      ∀ i polynomial, PPRF.codec.polynomials[i]? = some polynomial →
        ofBits (PPRF.codec.lane i encoded) =
          PPRF.codec.generator polynomial * ofBits (PPRF.toBits ['1', '0', '1']) :=
  have binary : PPRF.Binary ['1', '0', '1'] := by simp [PPRF.Binary]
  ⟨binary, (encode_mul PPRF.codec ['1', '0', '1'] binary).2 (by decide)⟩

/-! ## Reversed polynomials -/

/-- Past their number no bits are set. -/
theorem testBit_reverseBits_of_le {numBits k : Nat} (outside : numBits ≤ k) (input : Nat) :
    (reverseBits numBits input).testBit k = false := by
  rw [reverseBits, testBit_reverseBitsLoop, if_neg (Nat.not_lt.mpr outside)]
  exact Nat.zero_testBit _

/-- Reversed polynomials are valid. -/
theorem reverseBits_valid {polynomial : Nat} (member : polynomial ∈ codec.polynomials) :
    0 < reverseBits codec.constraint polynomial ∧
      reverseBits codec.constraint polynomial < 2 ^ codec.constraint := by
  obtain ⟨delay, inside, tap, -⟩ := codec.exists_lowest_tap member
  refine ⟨Nat.pos_of_ne_zero fun zero => ?_, Nat.lt_pow_two_of_testBit _ fun k outside =>
    testBit_reverseBits_of_le outside polynomial⟩
  have below : codec.constraint - 1 - delay < codec.constraint := by omega
  have bit := testBit_reverseBits below polynomial
  rw [Nat.sub_sub_self (by omega), tap, zero, Nat.zero_testBit] at bit
  cases bit

/-- The codec that `ViterbiMain` builds under `--reverse_polynomials`. -/
def reversed : ViterbiCodec where
  constraint := codec.constraint
  polynomials := codec.polynomials.map (reverseBits codec.constraint)
  register := codec.register
  inRange := codec.inRange
  nonempty := by simpa using codec.nonempty
  valid p member := by
    obtain ⟨polynomial, among, rfl⟩ := List.mem_map.mp member
    exact codec.reverseBits_valid among

@[simp] theorem numParityBits_reversed : codec.reversed.numParityBits = codec.numParityBits :=
  List.length_map _

/-- Reversing the bits reverses the generator polynomial. -/
theorem generator_reversed (polynomial : Nat) :
    codec.reversed.generator (reverseBits codec.constraint polynomial) =
      reflect (codec.constraint - 1) (codec.generator polynomial) := by
  have register := codec.register
  ext t
  rw [coeff_reflect]
  rcases Nat.lt_or_ge t codec.constraint with inside | past
  · have inside' : codec.constraint - 1 - t < codec.constraint := by omega
    rw [revAt_le (by omega), generator, generator, coeff_ofTaps inside', ← testBit_reverseBits
      inside]
    exact coeff_ofTaps inside
  · rw [revAt_eq_self_of_lt (by omega), generator, generator,
      coeff_ofTaps_of_le past]
    exact coeff_ofTaps_of_le past

/-- Lanes of reversed messages are reversed. -/
theorem lane_reversed {i polynomial : Nat} (place : codec.polynomials[i]? = some polynomial)
    (message : List Bool) :
    codec.reversed.lane i (codec.reversed.encoder.emit codec.reversed.start
        (message.reverse ++ List.replicate (codec.constraint - 1) false)) =
      (codec.lane i (codec.encoder.emit codec.start
        (message ++ List.replicate (codec.constraint - 1) false))).reverse := by
  have place' : codec.reversed.polynomials[i]? =
      some (reverseBits codec.constraint polynomial) := by
    change (codec.polynomials.map _)[i]? = _
    rw [List.getElem?_map, place, Option.map_some]
  have product := codec.reversed.lane_encoded place' message.reverse
  rw [generator_reversed] at product
  apply (ofBits_inj ?_).mp
  · refine product.trans ?_
    rw [ofBits_reverse, ofBits_reverse, codec.lane_encoded place, length_lane_emit,
      List.length_append, List.length_replicate]
    have register := codec.register
    by_cases empty : message = []
    · rw [empty]
      simp [ofBits]
    · have some := List.length_pos_iff.mpr empty
      have degrees : message.length + (codec.constraint - 1) - 1 =
          codec.constraint - 1 + (message.length - 1) := by omega
      rw [degrees, reflect_mul _ _ (codec.natDegree_generator_le polynomial)
        (natDegree_ofBits_le message)]
  · rw [List.length_reverse, length_lane_emit, length_lane_emit, List.length_append,
      List.length_append, List.length_reverse]

/-- **Reversal.** With the bits of the polynomials reversed, the reversed message
is encoded as the symbols of the encoding in reversed order. -/
theorem encode_reversed (codec : ViterbiCodec) (message : Str) (binary : PPRF.Binary message)
    (within : message.length ≤ intMax) :
    ∃ encoded encoded', codec.encodeIndexed message = .ok encoded ∧
      codec.reversed.encodeIndexed message.reverse = .ok encoded' ∧
      encoded'.length = encoded.length ∧
      ∀ i < codec.numParityBits,
        codec.reversed.lane i encoded' = (codec.lane i encoded).reverse := by
  rw [codec.encodeIndexed_of_le within,
    codec.reversed.encodeIndexed_of_le (by rwa [List.length_reverse])]
  refine ⟨_, _, PPRF.encode_of_binary codec binary,
    PPRF.encode_of_binary codec.reversed binary.reverse, ?_, fun i below => ?_⟩
  · rw [Encoder.length_emit, Encoder.length_emit, width_encoder, width_encoder,
      numParityBits_reversed, List.length_append, List.length_append, PPRF.length_toBits,
      PPRF.length_toBits, List.length_reverse]
    rfl
  · have bits : PPRF.toBits message.reverse = (PPRF.toBits message).reverse := List.map_reverse
    rw [bits]
    exact codec.lane_reversed (List.getElem?_eq_getElem below) (PPRF.toBits message)

theorem encode_reversed_of_three :
    PPRF.Binary ['1', '0', '0'] ∧ ['1', '0', '0'].length ≤ intMax ∧
    ∃ encoded encoded', PPRF.codec.encodeIndexed ['1', '0', '0'] = .ok encoded ∧
      PPRF.codec.reversed.encodeIndexed ['0', '0', '1'] = .ok encoded' ∧
      encoded'.length = encoded.length ∧
      ∀ i < PPRF.codec.numParityBits,
        PPRF.codec.reversed.lane i encoded' = (PPRF.codec.lane i encoded).reverse :=
  have binary : PPRF.Binary ['1', '0', '0'] := by simp [PPRF.Binary]
  have within : ['1', '0', '0'].length ≤ intMax := by decide
  ⟨binary, within, encode_reversed PPRF.codec ['1', '0', '0'] binary within⟩

end ViterbiCodec

end Ssle
