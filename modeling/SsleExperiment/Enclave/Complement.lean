import SsleExperiment.Enclave.Punctures

/-! # Errors that complement a message

Both polynomials of the codec of `puncturing` have an even number of taps, so a
register and an input with all bits inverted are emitted alike, and the inverted
inputs differ from a codeword in its second, third and fourth character only. Two
of these spoiled, every message of every length is decoded to its complement
(`Ssle.PPRF.decode_complement`). As `puncturing` may spoil one of them, a further
wrong bit in every block is enough to complement the key
(`Ssle.PPRF.depuncturing_complement`).
-/

namespace Ssle.PPRF

/-- The register with all bits inverted. -/
def inverted (s : codec.State) : codec.State := ⟨3 - s.1, Nat.lt_succ_of_le (Nat.sub_le 3 s.1)⟩

/-- The inverted register emits the same for the inverted input. -/
theorem output_inverted (s : codec.State) (input : Bool) :
    codec.output (inverted s) (!input) = codec.output s input := by
  revert s input
  decide +kernel

/-- The inverted register stays inverted. -/
theorem nextState_inverted (s : codec.State) (input : Bool) :
    codec.nextState (inverted s) (!input) = inverted (codec.nextState s input) := by
  revert s input
  decide

/-- Inverted registers and inputs are emitted alike. -/
theorem emit_inverted (s : codec.State) (inputs : List Bool) :
    codec.encoder.emit (inverted s) (inputs.map not) = codec.encoder.emit s inputs := by
  induction inputs generalizing s with
  | nil => rfl
  | cons input inputs ih =>
      change codec.output _ (!input) ++ codec.encoder.emit (codec.nextState _ (!input)) _ =
        codec.output s input ++ codec.encoder.emit (codec.nextState s input) inputs
      rw [output_inverted, nextState_inverted, ih]

/-- Two inputs determine the register. -/
theorem final_inverted (a b : Bool) : codec.encoder.final codec.start [!a, !b] =
    inverted (codec.encoder.final codec.start [a, b]) := by
  revert a b
  decide

theorem emit_pair (a b : Bool) :
    codec.encoder.emit codec.start [a, b] = ['0', bitChar a, bitChar a, bitChar b] := by
  revert a b
  decide +kernel

/-- Flipping a character flips its bit. -/
theorem flipBit_bitChar (bit : Bool) : flipBit (bitChar bit) = bitChar (!bit) := by
  cases bit <;> rfl

/-- The second and third character with the other bit. -/
def spoilPair (block : Str) : Str := (block.modify 1 flipBit).modify 2 flipBit

/-- Spoiled so, what inputs emit differs in one character from what the inverted
inputs emit. -/
theorem mismatches_spoilPair {inputs : List Bool} (long : 2 ≤ inputs.length) :
    mismatches (spoilPair (codec.encoder.emit codec.start inputs))
      (codec.encoder.emit codec.start (inputs.map not)) = 1 := by
  obtain ⟨a, b, rest, rfl⟩ : ∃ a b rest, inputs = a :: b :: rest := by
    match inputs, long with
    | a :: b :: rest, _ => exact ⟨a, b, rest, rfl⟩
  have split := codec.encoder.emit_append codec.start [a, b] rest
  have split' := codec.encoder.emit_append codec.start [!a, !b] (rest.map not)
  rw [final_inverted, emit_inverted, emit_pair] at split'
  rw [emit_pair] at split
  have differ : bitChar b ≠ bitChar (!b) := by
    cases b <;> decide
  rw [List.map_cons, List.map_cons]
  refine (congrArg₂ (fun x y => mismatches (spoilPair x) y) split split').trans ?_
  change mismatches ('0' :: flipBit (bitChar a) :: flipBit (bitChar a) :: bitChar b :: _)
    ('0' :: bitChar (!a) :: bitChar (!a) :: bitChar (!b) :: _) = 1
  simp [mismatches, flipBit_bitChar, differ]

/-- Spoiling a codeword keeps its length. -/
theorem length_spoilPair (block : Str) : (spoilPair block).length = block.length := by
  rw [spoilPair, List.length_modify, List.length_modify]

/-- Flipping the bits flips the characters. -/
theorem map_flipBit {s : Str} (binary : Binary s) :
    ((toBits s).map not).map bitChar = s.map flipBit := by
  rw [toBits, List.map_map, List.map_map]
  refine List.map_congr_left fun c member => ?_
  rcases binary c member with rfl | rfl
  · rfl
  · rfl

/-- A spoiled codeword is decoded to the flipped message. -/
theorem decode_spoilPair {message : Str} (binary : Binary message)
    (short : (codeword message).length < intMax) :
    codec.decode (spoilPair (codeword message)) = message.map flipBit := by
  have count : (toBits message ++ [false, false]).length = message.length + 2 := by
    rw [List.length_append, length_toBits]
    rfl
  have sent : ((toBits message ++ [false, false]).map not).length =
      message.length + (codec.constraint - 1) := (List.length_map _).trans count
  have size : (spoilPair (codeword message)).length =
      ((toBits message ++ [false, false]).map not).length * codec.numParityBits := by
    rw [length_spoilPair, length_codeword, sent]
    rfl
  have near : 2 * mismatches (spoilPair (codeword message))
      (codec.encoder.emit codec.start ((toBits message ++ [false, false]).map not)) < 3 := by
    rw [codeword, mismatches_spoilPair (count ▸ Nat.le_add_left 2 _)]
    decide
  have decoded := codec.decodeFrom_of_near_inputs separates_codec sent size
    (by rwa [length_spoilPair]) near (codec.get_minElement_le _)
  rw [List.map_append, List.take_left' (by rw [List.length_map, length_toBits]),
    map_flipBit binary] at decoded
  exact decoded

/-- **Complemented messages.** With the second and third character of its
encoding spoiled, every message is decoded to its complement. -/
theorem decode_complement (message : Str) (binary : Binary message)
    (short : (message.length + 2) * 2 < intMax) :
    ∃ encoded, codec.encode message = .ok encoded ∧
      codec.decode (spoilPair encoded) = message.map flipBit :=
  ⟨codeword message, encode_eq_codeword binary,
    decode_spoilPair binary (by rwa [length_codeword])⟩

theorem decode_complement_of_three :
    Binary ['1', '0', '0'] ∧ ((['1', '0', '0'] : Str).length + 2) * 2 < intMax ∧
    ∃ encoded, codec.encode ['1', '0', '0'] = .ok encoded ∧
      codec.decode (spoilPair encoded) = (['1', '0', '0'] : Str).map flipBit :=
  have binary : Binary ['1', '0', '0'] := by simp [Binary]
  ⟨binary, by decide, decode_complement ['1', '0', '0'] binary (by decide)⟩

/-! ## Whole keys -/

/-- The random words `1` spoil the second characters. -/
theorem spoiled_one (s : Str) : spoiled (fun _ => 1) s =
    (Blocks.blocks 7 s).map fun block => (codeword block).modify 1 flipBit := by
  conv_rhs => rw [← List.zipIdx_map_fst 0 (Blocks.blocks 7 s)]
  rw [List.map_map]
  refine List.map_congr_left fun block member => ?_
  have few := Blocks.length_le_of_mem_blocks (List.fst_mem_of_mem_zipIdx member)
  have size := length_codeword block.1
  exact @flipped_ofNat 1 _ (by omega) (by omega)

/-- The codewords of a key, with two bits of each spoiled. -/
def spoiledPairs (s : Str) : List Str :=
  (Blocks.blocks 7 s).map fun block => spoilPair (codeword block)

/-- The spoiled codewords are the blocks of what they make up. -/
theorem blocks_spoiledPairs (s : Str) :
    Blocks.blocks 18 (spoiledPairs s).flatten = spoiledPairs s := by
  apply blocks_of_codeword_lengths
  rw [spoiledPairs, List.map_map, List.map_map]
  refine List.map_congr_left fun block _ => ?_
  rw [Function.comp_apply, Function.comp_apply, length_spoilPair, length_codeword]

/-- All blocks are decoded to flipped ones. -/
theorem depuncturing_spoiledPairs {s : Str} (some : s ≠ []) (binary : Binary s) :
    depuncturing (spoiledPairs s).flatten = .ok (s.map flipBit) := by
  have decoded : (spoiledPairs s).map codec.decode =
      (Blocks.blocks 7 s).map (List.map flipBit) := by
    rw [spoiledPairs, List.map_map]
    refine List.map_congr_left fun block member => ?_
    have few := Blocks.length_le_of_mem_blocks member
    have short : (codeword block).length < intMax := by
      rw [length_codeword]
      exact Nat.lt_of_le_of_lt (Nat.mul_le_mul_right 2 (Nat.add_le_add_right few 2)) (by decide)
    rw [Function.comp_apply,
      decode_spoilPair (binary.of_mem_blocks (Nat.succ_pos 6) member) short]
  refine (depuncturing_eq_ok_iff _ _).mpr ⟨fun empty => ?_, ?_⟩
  · have none := blocks_spoiledPairs s
    rw [empty, Blocks.blocks_nil, spoiledPairs, Blocks.blocks_eq_cons (Nat.succ_pos 6) some] at none
    cases none
  · rw [blocks_spoiledPairs, decoded, ← List.map_flatten, Blocks.flatten_blocks (Nat.succ_pos 6)]

/-- In every block, one bit more is spoiled. -/
theorem hammingDistance_spoiledPairs (s : Str) (j : Nat) :
    hammingDistance (Blocks.segment 18 j (spoiledPairs s).flatten)
      (Blocks.segment 18 j (spoiled (fun _ => 1) s).flatten) ≤ 1 := by
  have cut := blocks_of_codeword_lengths (map_length_spoiled (fun _ => 1) s)
  rw [Blocks.segment_flatten (Nat.succ_pos 17) (blocks_spoiledPairs s),
    Blocks.segment_flatten (Nat.succ_pos 17) cut, spoiledPairs, spoiled_one, List.getElem?_map,
    List.getElem?_map]
  cases (Blocks.blocks 7 s)[j]? with
  | none => exact Nat.zero_le 1
  | some block => exact mismatches_modify_le _ _ _

/-- **Complemented keys.** For every key there are random words after which one
wrong bit in each block makes `depuncturing` return the complement of the key. -/
theorem depuncturing_complement (s : Str) (some : s ≠ []) (binary : Binary s) :
    ∃ words sent received, puncturing words s = .ok sent ∧ received.length = sent.length ∧
      (∀ j, hammingDistance (Blocks.segment 18 j received) (Blocks.segment 18 j sent) ≤ 1) ∧
      depuncturing received = .ok (s.map flipBit) := by
  refine ⟨fun _ => 1, _, (spoiledPairs s).flatten, puncturing_eq _ some binary, ?_,
    hammingDistance_spoiledPairs s, depuncturing_spoiledPairs some binary⟩
  rw [List.length_flatten, List.length_flatten, map_length_spoiled, spoiledPairs, List.map_map,
    List.map_map]
  refine congrArg List.sum (List.map_congr_left fun block _ => ?_)
  rw [Function.comp_apply, Function.comp_apply, length_spoilPair, length_codeword]

theorem depuncturing_complement_of_two :
    (['1', '0'] : Str) ≠ [] ∧ Binary ['1', '0'] ∧
    ∃ words sent received, puncturing words ['1', '0'] = .ok sent ∧
      received.length = sent.length ∧
      (∀ j, hammingDistance (Blocks.segment 18 j received) (Blocks.segment 18 j sent) ≤ 1) ∧
      depuncturing received = .ok ((['1', '0'] : Str).map flipBit) :=
  have binary : Binary ['1', '0'] := by simp [Binary]
  ⟨List.cons_ne_nil _ _, binary, depuncturing_complement ['1', '0'] (List.cons_ne_nil _ _) binary⟩

end Ssle.PPRF
