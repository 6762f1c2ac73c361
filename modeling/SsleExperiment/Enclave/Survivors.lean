import SsleExperiment.Enclave.Puncturing

/-! # What the path metrics are

After every symbol the metric of a state is the least distance from the symbols
received at which an input sequence leads to the state, `INT_MAX` stands for the
states that no sequence leads to, and the columns lead back along a sequence that
attains the distance (`Ssle.ViterbiCodec.survivors_optimal`). This takes symbols
of fewer than `INT_MAX` characters. A distance of `INT_MAX` itself is taken for an
unreached state, and zeros that complete a last symbol can make it that long
(`Ssle.ViterbiCodec.hidden_survivor`).
-/

namespace Ssle.ViterbiCodec

/-- The path metrics after the symbols are least distances, and the columns of the
trellis lead back along sequences that attain them. -/
structure SurvivorsOptimal (codec : ViterbiCodec) (received : List Str) : Prop where
  least : ∀ inputs : List Bool, inputs.length = received.length →
    (codec.progress received).pathMetrics.get (codec.encoder.final codec.start inputs) ≤
      mismatches received.flatten (codec.encoder.emit codec.start inputs)
  attained : ∀ s, (codec.progress received).pathMetrics.get s ≠ intMax →
    ∃ inputs : List Bool, inputs.length = received.length ∧
      (codec.traceback (codec.progress received).trellis.reverse s).reverse =
        inputs.map bitChar ∧
      codec.encoder.final codec.start inputs = s ∧
      mismatches received.flatten (codec.encoder.emit codec.start inputs) =
        (codec.progress received).pathMetrics.get s
  unreached : ∀ s, (codec.progress received).pathMetrics.get s = intMax ↔
    ¬ ∃ inputs : List Bool, inputs.length = received.length ∧
      codec.encoder.final codec.start inputs = s

variable (codec : ViterbiCodec)

/-- Below the range of the metrics, survivors are optimal. -/
theorem survivorsOptimal_of_lt {received : List Str}
    (words : ∀ symbol ∈ received, symbol.length = codec.numParityBits)
    (short : received.length * codec.numParityBits < intMax) : codec.SurvivorsOptimal received := by
  have survives := codec.survives_progress received
  constructor
  · intro inputs same
    rw [← cost_codeTrellis codec _ same words]
    exact survives.least inputs same
  · intro s seen
    have size : (codec.codeTrellis.traceback
        ((codec.progress received).trellis.reverse.map Vector.get) s).reverse.length =
        received.length := by
      rw [List.length_reverse, Trellis.length_traceback, survives.size]
    obtain ⟨arrives, paid⟩ := survives.reached s ((survives.lt_top_iff short s).mpr seen)
    refine ⟨_, size, ?_, arrives, ?_⟩
    · rw [traceback_eq, ← List.map_reverse]
    · rw [← cost_codeTrellis codec _ size words, paid]
  · exact survives.eq_top_iff codec.weight_codeTrellis_le short

/-- A state is entered under one input only. -/
theorem eq_of_final_eq {s : codec.State} {input other : Bool}
    (same : codec.encoder.final s [input] = codec.encoder.final s [other]) : input = other := by
  have entered := (codec.nextState_eq_iff s input _).mp same
  have entered' := (codec.nextState_eq_iff s other _).mp rfl
  exact entered.1.trans entered'.1.symm

/-- Filling up the last symbol adds less than one. -/
theorem length_symbols_mul_lt (bits : Str) :
    (codec.symbols bits).length * codec.numParityBits < bits.length + codec.numParityBits := by
  have positive := codec.numParityBits_pos
  have rounded := Nat.div_mul_le_self (bits.length + codec.numParityBits - 1) codec.numParityBits
  rw [length_symbols]
  omega

/-- **Survivors.** After any number of symbols that have fewer than `INT_MAX`
characters together, the metrics and the columns describe the nearest input
sequences; for the codec of the key, after any number of symbols of a string
shorter than `INT_MAX`. -/
theorem survivors_optimal :
    (∀ (codec : ViterbiCodec) (bits : Str) (t : Nat),
      ((codec.symbols bits).take t).length * codec.numParityBits < intMax →
        codec.SurvivorsOptimal ((codec.symbols bits).take t)) ∧
    ∀ bits : Str, bits.length < intMax → ∀ t : Nat,
      PPRF.codec.SurvivorsOptimal ((PPRF.codec.symbols bits).take t) := by
  have general (codec : ViterbiCodec) (bits : Str) (t : Nat)
      (short : ((codec.symbols bits).take t).length * codec.numParityBits < intMax) :
      codec.SurvivorsOptimal ((codec.symbols bits).take t) := by
    refine codec.survivorsOptimal_of_lt (fun symbol member => ?_) short
    exact codec.length_of_mem_symbols (List.mem_of_mem_take member)
  refine ⟨general, fun bits short t => general PPRF.codec bits t ?_⟩
  have fewer : ((PPRF.codec.symbols bits).take t).length ≤ (PPRF.codec.symbols bits).length :=
    List.length_take_le' _ _
  have completed : (PPRF.codec.symbols bits).length * 2 < bits.length + 2 :=
    PPRF.codec.length_symbols_mul_lt bits
  change ((PPRF.codec.symbols bits).take t).length * 2 < intMax
  -- `INT_MAX` is odd, so completing the last symbol stays below it
  unfold intMax at short ⊢
  omega

theorem survivors_optimal_of_three :
    ((PPRF.codec.symbols ['0', '1', '1']).take 1).length * PPRF.codec.numParityBits < intMax ∧
    PPRF.codec.SurvivorsOptimal ((PPRF.codec.symbols ['0', '1', '1']).take 1) ∧
    PPRF.codec.SurvivorsOptimal ((PPRF.codec.symbols ['0', '1', '1']).take 2) :=
  ⟨by decide, survivors_optimal.1 PPRF.codec ['0', '1', '1'] 1 (by decide),
    survivors_optimal.2 ['0', '1', '1'] (by decide) 2⟩

/-! ## A distance as large as the sentinel -/

/-- The codec of constraint `2` with the polynomial `1`, `count` times. -/
def repeated (count : Nat) (some : count ≠ 0) : ViterbiCodec where
  constraint := 2
  polynomials := List.replicate count 1
  register := Nat.le_refl 2
  inRange := by decide
  nonempty := by simpa using some
  valid p member := by simp [List.eq_of_mem_replicate member]

section Repeated

variable {count : Nat} (some : count ≠ 0)

theorem symbols_repeated :
    (repeated count some).symbols ['0'] = [List.replicate count '0'] := by
  have size : (repeated count some).numParityBits = count := List.length_replicate
  have single : Blocks.blocks count ['0'] = [['0']] := by
    have positive := Nat.pos_of_ne_zero some
    rw [Blocks.blocks_eq_cons positive (List.cons_ne_nil _ _), List.take_of_length_le positive,
      List.drop_of_length_le positive, Blocks.blocks_nil]
  rw [symbols, size, single, List.map_singleton]
  change ['0' :: List.replicate (count - 1) '0'] = _
  rw [← List.replicate_succ, Nat.sub_one_add_one some]

theorem emit_repeated (input : Bool) :
    (repeated count some).encoder.emit (repeated count some).start [input] =
      List.replicate count (bitChar input) := by
  have parity : (parityLoop 2 (reverseBits 2 1) (0 ||| input.toNat <<< 1) 0 ≠ 0) ↔ input := by
    cases input <;> decide
  have emitted : bitChar (parityLoop 2 (reverseBits 2 1) (0 ||| input.toNat <<< 1) 0 ≠ 0) =
      bitChar input := by
    simp only [parity, Bool.decide_eq_true]
  rw [← emitted, Encoder.emit_cons, Encoder.emit_nil, List.append_nil]
  change (repeated count some).output _ _ = _
  rw [output_eq]
  exact List.map_replicate

theorem not_survivorsOptimal_repeated (full : count = intMax) :
    ¬ (repeated count some).SurvivorsOptimal [List.replicate count '0'] := by
  intro optimal
  have apart : mismatches [List.replicate count '0'].flatten
      ((repeated count some).encoder.emit (repeated count some).start [true]) = intMax := by
    rw [emit_repeated, List.flatten_singleton, ← full]
    exact mismatches_replicate (by decide) count
  by_cases seen : ((repeated count some).progress [List.replicate count '0']).pathMetrics.get
      ((repeated count some).encoder.final (repeated count some).start [true]) = intMax
  · exact (optimal.unreached _).mp seen ⟨[true], rfl, rfl⟩
  · obtain ⟨inputs, size, _, arrives, paid⟩ := optimal.attained _ seen
    obtain ⟨input, rfl⟩ := List.length_eq_one_iff.mp size
    rw [(repeated count some).eq_of_final_eq arrives, apart] at paid
    exact seen paid.symm

end Repeated

/-- Of `INT_MAX` polynomials, the single character `0` is completed to a symbol at
distance `INT_MAX` from the one that the input `1` emits: the state it leads to
looks unreached. -/
theorem hidden_survivor :
    (['0'] : Str).length < intMax ∧
      ¬ (repeated intMax (by decide)).SurvivorsOptimal
        (((repeated intMax (by decide)).symbols ['0']).take 1) := by
  refine ⟨by decide, ?_⟩
  rw [symbols_repeated, List.take_of_length_le (Nat.le_refl 1)]
  exact not_survivorsOptimal_repeated _ rfl

end Ssle.ViterbiCodec
