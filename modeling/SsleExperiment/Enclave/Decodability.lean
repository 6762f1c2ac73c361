import SsleExperiment.Enclave.Puncturing

/-! # Decoding what was encoded

Every codec decodes what it encodes. A polynomial has a lowest tap, and the
parity bit it emits that many steps after an input depends on that input and on
the register before it only, so inputs that differ once are emitted differently
within `constraint` steps (`Ssle.ViterbiCodec.separates_one`). Every sequence at
distance zero from a codeword, from whichever end state it is read back,
therefore starts with the message (`Ssle.ViterbiCodec.decode_encode`).
-/

namespace Ssle

/-! ## The loops over bits -/

/-- The lowest bit is shifted in. -/
theorem testBit_shiftIn (output input k : Nat) :
    ((output <<< 1) + (input &&& 1)).testBit k =
      if k = 0 then input.testBit 0 else output.testBit (k - 1) := by
  have low := Nat.mod_lt input Nat.two_pos
  rw [Nat.and_one_is_mod, Nat.shiftLeft_eq, pow_one]
  cases k with
  | zero =>
      rw [if_pos rfl, Nat.testBit_zero, Nat.testBit_zero]
      congr 1
      rw [Nat.mul_add_mod_self_right, Nat.mod_mod]
  | succ k =>
      rw [if_neg (Nat.succ_ne_zero k), Nat.testBit_succ, Nat.add_sub_cancel]
      congr 1
      omega

/-- The loop has shifted the lowest bits in, from the first on. -/
theorem testBit_reverseBitsLoop (numBits input output k : Nat) :
    (reverseBitsLoop numBits input output).testBit k =
      if k < numBits then input.testBit (numBits - 1 - k) else output.testBit (k - numBits) := by
  induction numBits generalizing input output with
  | zero => rfl
  | succ numBits ih =>
      rw [reverseBitsLoop, ih, Nat.testBit_shiftRight, testBit_shiftIn]
      rcases Nat.lt_trichotomy k numBits with below | rfl | above
      · rw [if_pos below, if_pos (by omega)]
        congr 1
        omega
      · rw [if_neg (Nat.lt_irrefl k), if_pos (by omega), if_pos (by omega)]
        congr 1
        omega
      · rw [if_neg (by omega), if_neg (by omega), if_neg (by omega)]
        congr 1

/-- The bits are in reversed order. -/
theorem testBit_reverseBits {numBits k : Nat} (inside : k < numBits) (input : Nat) :
    (reverseBits numBits input).testBit k = input.testBit (numBits - 1 - k) := by
  rw [reverseBits, testBit_reverseBitsLoop, if_pos inside]

/-- An iteration adds the input bit if the polynomial taps it. -/
theorem parityLoop_succ (k polynomial input : Nat) (output : Bool) :
    parityLoop (k + 1) polynomial input output.toNat =
      parityLoop k (polynomial >>> 1) (input >>> 1)
        (output ^^ (input.testBit 0 && polynomial.testBit 0)).toNat := by
  have bit (n : Nat) : n &&& 1 = (n.testBit 0).toNat := by
    rw [Nat.and_one_is_mod, Nat.testBit_zero]
    rcases Nat.mod_two_eq_zero_or_one n with zero | one
    · simp [zero]
    · simp [one]
  rw [parityLoop, bit, bit]
  cases output <;> cases input.testBit 0 <;> cases polynomial.testBit 0 <;> rfl

/-- The parity is a bit. -/
theorem exists_parityLoop (k polynomial input : Nat) (output : Bool) :
    ∃ parity : Bool, parityLoop k polynomial input output.toNat = parity.toNat := by
  induction k generalizing polynomial input output with
  | zero => exact ⟨output, rfl⟩
  | succ k ih =>
      rw [parityLoop_succ]
      exact ih _ _ _

/-- Without taps, the parity stays as it is. -/
theorem parityLoop_of_no_taps {k polynomial : Nat}
    (untapped : ∀ i < k, polynomial.testBit i = false) (input : Nat) (output : Bool) :
    parityLoop k polynomial input output.toNat = output.toNat := by
  induction k generalizing polynomial input with
  | zero => rfl
  | succ k ih =>
      rw [parityLoop_succ, untapped 0 (Nat.succ_pos k), Bool.and_false, Bool.xor_false]
      refine ih (fun i below => ?_) _
      rw [Nat.testBit_shiftRight, Nat.add_comm]
      exact untapped (i + 1) (Nat.succ_lt_succ below)

/-- The parities of two inputs differ if the inputs differ at the topmost tap and
agree below it. -/
theorem parityLoop_ne {k tap polynomial : Nat} (inside : tap < k)
    (tapped : polynomial.testBit tap = true)
    (topmost : ∀ i < k, tap < i → polynomial.testBit i = false) {input other : Nat}
    (agree : ∀ i < tap, input.testBit i = other.testBit i)
    (differ : input.testBit tap ≠ other.testBit tap) (output : Bool) :
    parityLoop k polynomial input output.toNat ≠ parityLoop k polynomial other output.toNat := by
  induction tap generalizing k polynomial input other output with
  | zero =>
      cases k with
      | zero => exact (Nat.not_lt_zero _ inside).elim
      | succ k =>
          have untapped : ∀ i < k, (polynomial >>> 1).testBit i = false := fun i below => by
            rw [Nat.testBit_shiftRight, Nat.add_comm]
            exact topmost (i + 1) (Nat.succ_lt_succ below) (Nat.succ_pos i)
          rw [parityLoop_succ, parityLoop_succ, parityLoop_of_no_taps untapped,
            parityLoop_of_no_taps untapped, tapped, Bool.and_true, Bool.and_true]
          intro same
          have bits := congrArg Bool.ofNat same
          rw [Bool.ofNat_toNat, Bool.ofNat_toNat] at bits
          exact differ (Bool.xor_right_inj.mp bits)
  | succ tap ih =>
      cases k with
      | zero => exact (Nat.not_lt_zero _ inside).elim
      | succ k =>
          rw [parityLoop_succ, parityLoop_succ, agree 0 (Nat.succ_pos tap)]
          apply ih (Nat.lt_of_succ_lt_succ inside)
          · rw [Nat.testBit_shiftRight, Nat.add_comm]
            exact tapped
          · intro i below above
            rw [Nat.testBit_shiftRight, Nat.add_comm]
            exact topmost (i + 1) (Nat.succ_lt_succ below) (Nat.succ_lt_succ above)
          · intro i below
            rw [Nat.testBit_shiftRight, Nat.testBit_shiftRight, Nat.add_comm]
            exact agree (i + 1) (Nat.succ_lt_succ below)
          · rw [Nat.testBit_shiftRight, Nat.testBit_shiftRight, Nat.add_comm]
            exact differ

/-- The positions of a register with a bit put on top of it. -/
theorem testBit_putOnTop {n top k : Nat} (small : n < 2 ^ top) (inside : k ≤ top) (bit : Bool) :
    (n ||| bit.toNat <<< top).testBit k = if k = top then bit else n.testBit k := by
  rw [Nat.testBit_or, Nat.testBit_shiftLeft]
  by_cases same : k = top
  · have single : bit.toNat.testBit 0 = bit := by cases bit <;> rfl
    rw [same, if_pos rfl, Nat.testBit_lt_two_pow small, Nat.sub_self, single]
    simp
  · have below : ¬ k ≥ top := by omega
    rw [if_neg same, decide_eq_false below, Bool.false_and, Bool.or_false]

namespace ViterbiCodec

variable (codec : ViterbiCodec)

/-! ## The register -/

/-- The input goes to the top, and the other bits down. -/
theorem testBit_nextState {s : codec.State} {k : Nat} (inside : k < codec.constraint - 1)
    (input : Bool) : (codec.nextState s input).1.testBit k =
      if k + 1 = codec.constraint - 1 then input else s.1.testBit (k + 1) := by
  have half : s.1 >>> 1 < 2 ^ (codec.constraint - 2) := by
    have size := codec.size_eq
    have := s.2
    rw [Nat.shiftRight_eq_div_pow]
    omega
  change (s.1 >>> 1 ||| input.toNat <<< (codec.constraint - 2)).testBit k = _
  rw [testBit_putOnTop half (by omega), Nat.testBit_shiftRight, Nat.add_comm]
  by_cases top : k = codec.constraint - 2
  · rw [if_pos top, if_pos (by omega)]
  · rw [if_neg top, if_neg (by omega)]

/-- Bits of the register go down with each input. -/
theorem testBit_final {s : codec.State} {inputs : List Bool} {k : Nat}
    (room : k + inputs.length < codec.constraint - 1) :
    (codec.encoder.final s inputs).1.testBit k = s.1.testBit (k + inputs.length) := by
  induction inputs generalizing s with
  | nil => rfl
  | cons input inputs ih =>
      rw [List.length_cons] at room
      rw [Encoder.final_cons, ih (by omega)]
      change (codec.nextState s input).1.testBit _ = _
      rw [testBit_nextState codec (by omega), if_neg (by omega)]
      rfl

/-- After further inputs, the first one stands that many positions below the top
of what the output reads, and the register before it below that. -/
theorem testBit_window {s : codec.State} {before : List Bool} {input first : Bool}
    (head : (before ++ [input]).head? = some first) {k : Nat}
    (room : k + before.length < codec.constraint) :
    ((codec.encoder.final s before).1 ||| input.toNat <<< (codec.constraint - 1)).testBit k =
      if k + before.length = codec.constraint - 1 then first
      else s.1.testBit (k + before.length) := by
  rw [testBit_putOnTop (codec.encoder.final s before).2 (by omega)]
  cases before with
  | nil =>
      obtain rfl := Option.some.inj head
      rfl
  | cons earlier before =>
      obtain rfl := Option.some.inj head
      rw [List.length_cons] at room ⊢
      rw [if_neg (by omega), Encoder.final_cons, testBit_final codec (by omega)]
      change (codec.nextState s earlier).1.testBit _ = _
      rw [testBit_nextState codec (by omega), Nat.add_assoc]

/-! ## Separation -/

/-- Every polynomial has a tap of least delay. -/
theorem exists_lowest_tap {polynomial : Nat} (member : polynomial ∈ codec.polynomials) :
    ∃ delay < codec.constraint, polynomial.testBit delay = true ∧
      ∀ i < delay, polynomial.testBit i = false := by
  obtain ⟨positive, small⟩ := codec.valid polynomial member
  have tapped := Nat.exists_testBit_of_ne_zero (Nat.ne_of_gt positive)
  refine ⟨Nat.find tapped, ?_, Nat.find_spec tapped, fun i below => ?_⟩
  · by_contra outside
    have tap := Nat.find_spec tapped
    rw [Nat.testBit_lt_two_pow (small.trans_le
      (Nat.pow_le_pow_right Nat.two_pos (Nat.le_of_not_lt outside)))] at tap
    cases tap
  · exact Bool.eq_false_of_not_eq_true (Nat.find_min tapped below)

/-- Bits are told apart by their characters. -/
theorem bitChar_inj {b b' : Bool} (same : bitChar b = bitChar b') : b = b' := by
  cases b <;> cases b' <;> first | rfl | cases same

/-- As many steps after the first input as the lowest tap is delayed, different
first inputs are emitted differently. -/
theorem output_ne {s : codec.State} {polynomial delay : Nat}
    (member : polynomial ∈ codec.polynomials) (inside : delay < codec.constraint)
    (tap : polynomial.testBit delay = true)
    (lowest : ∀ i < delay, polynomial.testBit i = false) {before before' : List Bool}
    (size : before.length = delay) (size' : before'.length = delay)
    {input input' first first' : Bool} (head : (before ++ [input]).head? = some first)
    (head' : (before' ++ [input']).head? = some first') (differ : first ≠ first') :
    codec.output (codec.encoder.final s before) input ≠
      codec.output (codec.encoder.final s before') input' := by
  intro same
  rw [output_eq, output_eq] at same
  have parities := bitChar_inj (List.map_inj_left.mp same polynomial member)
  obtain ⟨b, bit⟩ := exists_parityLoop codec.constraint
    (reverseBits codec.constraint polynomial)
    ((codec.encoder.final s before).1 ||| input.toNat <<< (codec.constraint - 1)) false
  obtain ⟨b', bit'⟩ := exists_parityLoop codec.constraint
    (reverseBits codec.constraint polynomial)
    ((codec.encoder.final s before').1 ||| input'.toNat <<< (codec.constraint - 1)) false
  have equal : b = b' := by
    rw [← Bool.toNat_false, bit, bit'] at parities
    cases b <;> cases b' <;> first | rfl | cases parities
  have reversed {i : Nat} (below : i < codec.constraint) :
      (reverseBits codec.constraint polynomial).testBit i =
        polynomial.testBit (codec.constraint - 1 - i) := testBit_reverseBits below polynomial
  refine @parityLoop_ne codec.constraint (codec.constraint - 1 - delay) _ (by omega) ?_ ?_ _ _
    ?_ ?_ false (bit.trans (equal ▸ bit'.symm))
  · rw [reversed (by omega), Nat.sub_sub_self (by omega), tap]
  · intro i below above
    rw [reversed below]
    exact lowest _ (by omega)
  · intro i below
    rw [testBit_window codec head (by omega), testBit_window codec head' (by omega),
      if_neg (by omega), if_neg (by omega), size, size']
  · rw [testBit_window codec head (by omega), testBit_window codec head' (by omega),
      if_pos (by omega), if_pos (by omega)]
    exact differ

/-- A sequence with the input at some delay singled out. -/
theorem exists_split_at {inputs : List Bool} {delay : Nat} (inside : delay < inputs.length) :
    ∃ before input after first, inputs = before ++ input :: after ∧ before.length = delay ∧
      (before ++ [input]).head? = some first ∧ inputs.head? = some first := by
  have some : inputs ≠ [] := List.ne_nil_of_length_pos (Nat.zero_lt_of_lt inside)
  have first := List.head?_eq_some_head some
  refine ⟨inputs.take delay, inputs[delay], inputs.drop (delay + 1), inputs.head some, ?_, ?_, ?_,
    first⟩
  · rw [← List.drop_eq_getElem_cons inside, List.take_append_drop]
  · exact List.length_take_of_le (Nat.le_of_lt inside)
  · rw [List.take_append_getElem inside, List.head?_take, if_neg (Nat.succ_ne_zero delay), first]

/-- Windows of `constraint` inputs that start differently are emitted
differently. -/
theorem separates_one : codec.encoder.Separates codec.constraint 1 := by
  intro s x y long long' differ
  obtain ⟨polynomial, member⟩ := List.exists_mem_of_ne_nil _ codec.nonempty
  obtain ⟨delay, inside, tap, lowest⟩ := codec.exists_lowest_tap member
  obtain ⟨before, input, after, first, rfl, size, head, start⟩ := exists_split_at (long ▸ inside)
  obtain ⟨before', input', after', first', rfl, size', head', start'⟩ :=
    exists_split_at (long' ▸ inside)
  have apart : first ≠ first' := fun equal => differ (by rw [start, start', equal])
  have outputs := output_ne codec member inside tap lowest (s := s) size size' head head' apart
  have emitted : (codec.encoder.emit s before).length = (codec.encoder.emit s before').length := by
    rw [Encoder.length_emit, Encoder.length_emit, size, size']
  have emitted' (t t' : codec.State) :
      (codec.output t input).length = (codec.output t' input').length := by
    rw [length_output, length_output]
  have counted := mismatches_pos (emitted' _ _) outputs
  rw [Encoder.emit_append, Encoder.emit_append, mismatches_append emitted, Encoder.emit_cons,
    Encoder.emit_cons]
  change 1 ≤ _ + mismatches (codec.output _ _ ++ _) (codec.output _ _ ++ _)
  rw [mismatches_append (emitted' _ _)]
  omega

/-- Every input sequence that is emitted as the encoding starts with the message,
whatever its last `constraint - 1` inputs are. -/
theorem take_of_emit {message encoded : Str} (binary : PPRF.Binary message)
    (written : codec.encode message = .ok encoded) {inputs : List Bool}
    (emitted : codec.encoder.emit codec.start inputs = encoded) :
    (inputs.map bitChar).take message.length = message := by
  rw [PPRF.encode_of_binary codec binary, Except.ok.injEq] at written
  rw [← written] at emitted
  have sizes := congrArg List.length emitted
  rw [Encoder.length_emit, Encoder.length_emit, width_encoder] at sizes
  have same := Nat.eq_of_mul_eq_mul_right codec.numParityBits_pos sizes
  have windows : codec.encoder.Separates (codec.constraint - 1 + 1) 1 := by
    rw [Nat.sub_add_cancel (Nat.le_of_succ_le codec.register)]
    exact codec.separates_one
  have room : message.length + (codec.constraint - 1) ≤ inputs.length := by
    rw [same, List.length_append, List.length_replicate, PPRF.length_toBits]
  have agree := Encoder.take_eq_of_emit_eq windows same room emitted
  rw [← List.map_take, agree, List.take_left' (PPRF.length_toBits message),
    PPRF.map_bitChar_toBits binary]

/-- From any state of least metric, the message is decoded. -/
theorem decodeFrom_of_encode {message encoded : Str} (binary : PPRF.Binary message)
    (written : codec.encode message = .ok encoded) (short : encoded.length < intMax)
    {best : codec.State}
    (cheapest : ∀ s, (codec.progress (codec.symbols encoded)).pathMetrics.get best ≤
      (codec.progress (codec.symbols encoded)).pathMetrics.get s) :
    codec.decodeFrom encoded best = message := by
  rw [PPRF.encode_of_binary codec binary, Except.ok.injEq] at written
  have size : encoded.length =
      ((PPRF.toBits message).length + (codec.constraint - 1)) * codec.numParityBits := by
    rw [← written, Encoder.length_emit, List.length_append, List.length_replicate, width_encoder]
  rw [codec.decodeFrom_of_near codec.separates_one (PPRF.toBits message) size short ?_ cheapest,
    PPRF.map_bitChar_toBits binary]
  rw [written, mismatches_self]
  exact Nat.one_pos

/-- **Unique decodability.** Every message is the start of all input sequences that
are emitted as its encoding. It is decoded from the encoding, and would be from
whichever state of least metric. -/
theorem decode_encode (codec : ViterbiCodec) (message : Str) (binary : PPRF.Binary message) :
    ∃ encoded, codec.encode message = .ok encoded ∧
      (∀ inputs : List Bool, codec.encoder.emit codec.start inputs = encoded →
        (inputs.map bitChar).take message.length = message) ∧
      (encoded.length < intMax →
        codec.decode encoded = message ∧
        ∀ best : codec.State,
          (∀ s, (codec.progress (codec.symbols encoded)).pathMetrics.get best ≤
            (codec.progress (codec.symbols encoded)).pathMetrics.get s) →
          codec.decodeFrom encoded best = message) := by
  have written := PPRF.encode_of_binary codec binary
  refine ⟨_, written, fun inputs => codec.take_of_emit binary written,
    fun short => ⟨?_, fun best cheapest => ?_⟩⟩
  · exact codec.decodeFrom_of_encode binary written short (codec.get_minElement_le _)
  · exact codec.decodeFrom_of_encode binary written short cheapest

theorem decode_encode_of_three :
    PPRF.Binary ['1', '0', '1'] ∧
    ∃ encoded, PPRF.codec.encode ['1', '0', '1'] = .ok encoded ∧ encoded.length < intMax ∧
      PPRF.codec.decode encoded = ['1', '0', '1'] ∧
      ∀ best : PPRF.codec.State,
        (∀ s, (PPRF.codec.progress (PPRF.codec.symbols encoded)).pathMetrics.get best ≤
          (PPRF.codec.progress (PPRF.codec.symbols encoded)).pathMetrics.get s) →
        PPRF.codec.decodeFrom encoded best = ['1', '0', '1'] := by
  have binary : PPRF.Binary ['1', '0', '1'] := by simp [PPRF.Binary]
  obtain ⟨encoded, written, _, decoded⟩ := decode_encode PPRF.codec ['1', '0', '1'] binary
  have short : encoded.length < intMax := by
    rw [PPRF.encode_eq_codeword binary, Except.ok.injEq] at written
    rw [← written, PPRF.length_codeword]
    decide
  exact ⟨binary, encoded, written, short, decoded short⟩

end ViterbiCodec

end Ssle
