import SsleExperiment.Enclave.Viterbi

/-! # What the codec decodes

The path metrics and the columns that `decode` builds are the table and the
columns of the codec's trellis (`Ssle.ViterbiCodec.survives_progress`). What is
read off on the way back, before the flushing bits are removed, is therefore an
input sequence that is emitted nearest to the string decoded
(`Ssle.ViterbiCodec.decode_spec`).
-/

namespace Ssle.ViterbiCodec

variable (codec : ViterbiCodec)

/-! ## The loop of decode -/

/-- `PathMetric` selects as the trellis does. -/
theorem pathMetric_eq_select (bits : Str)
    (prevPathMetrics : Vector Nat (2 ^ (codec.constraint - 1))) (state : codec.State) :
    codec.pathMetric bits prevPathMetrics state =
      codec.codeTrellis.select intMax prevPathMetrics.get bits state := rfl

/-- A symbol has at most as many wrong bits as it has bits. -/
theorem weight_codeTrellis_le (s : codec.State) (input : Bool) (bits : Str) :
    codec.codeTrellis.weight s input bits ≤ codec.numParityBits :=
  (mismatches_le_length _ _).trans_eq (codec.length_output s input)

/-- The cost of inputs is how far their encoding is from what is received. -/
theorem cost_codeTrellis (s : codec.State) {inputs : List Bool} {received : List Str}
    (same : inputs.length = received.length)
    (words : ∀ symbol ∈ received, symbol.length = codec.numParityBits) :
    codec.codeTrellis.cost s inputs received =
      mismatches received.flatten (codec.encoder.emit s inputs) :=
  Encoder.cost_trellis s same words

/-- At first only the empty register is reached. -/
theorem get_initialMetrics :
    codec.initialMetrics.get = fun s => if s = codec.start then 0 else intMax := by
  funext s
  change ((Vector.replicate _ intMax).set 0 0 (Nat.two_pow_pos _))[s.1] = _
  rw [Vector.getElem_set, Vector.getElem_replicate]
  simp only [start, Fin.ext_iff, eq_comm]

theorem progress_concat (received : List Str) (bits : Str) :
    codec.progress (received ++ [bits]) =
      codec.updatePathMetrics (codec.progress received) bits := by
  rw [progress, List.foldl_append]
  rfl

/-- A vector is read as the function it was made from. -/
theorem get_ofFn {γ : Type} (f : codec.State → γ) : (Vector.ofFn f).get = f :=
  funext fun s => Vector.getElem_ofFn s.2

/-- Every state gets the metric that is selected for it. -/
theorem pathMetrics_concat (received : List Str) (bits : Str) :
    (codec.progress (received ++ [bits])).pathMetrics.get = fun s =>
      (codec.codeTrellis.select intMax (codec.progress received).pathMetrics.get bits s).1 := by
  rw [progress_concat, updatePathMetrics, get_ofFn]
  simp only [pathMetric_eq_select]

/-- The column of a symbol is the first one on the way back. -/
theorem columns_concat (received : List Str) (bits : Str) :
    (codec.progress (received ++ [bits])).trellis.reverse.map Vector.get =
      (fun s =>
        (codec.codeTrellis.select intMax (codec.progress received).pathMetrics.get bits s).2) ::
        (codec.progress received).trellis.reverse.map Vector.get := by
  rw [progress_concat, updatePathMetrics, List.reverse_append, List.reverse_singleton,
    List.singleton_append, List.map_cons, get_ofFn]
  simp only [pathMetric_eq_select]

/-- After every symbol, the path metrics and the columns describe the cheapest
paths. -/
theorem survives_progress (received : List Str) :
    codec.codeTrellis.Survives intMax codec.numParityBits codec.start received
      (codec.progress received).pathMetrics.get
      ((codec.progress received).trellis.reverse.map Vector.get) := by
  induction received using List.reverseRecOn with
  | nil =>
      change codec.codeTrellis.Survives _ _ _ [] codec.initialMetrics.get []
      rw [get_initialMetrics]
      exact Trellis.survives_start _ _
  | append_singleton received bits ih =>
      rw [pathMetrics_concat, columns_concat]
      exact ih.step codec.weight_codeTrellis_le bits

/-- The way back through the columns is that of the trellis. -/
theorem traceback_eq (columns : List (Vector codec.State (2 ^ (codec.constraint - 1))))
    (state : codec.State) :
    codec.traceback columns state =
      (codec.codeTrellis.traceback (columns.map Vector.get) state).map bitChar := by
  induction columns generalizing state with
  | nil => rfl
  | cons column columns ih => exact congrArg (bitChar (codec.inputOf state) :: ·) (ih _)

/-- No path metric is below the one that was found. -/
theorem get_minElement_le (pathMetrics : Vector Nat (2 ^ (codec.constraint - 1)))
    (s : codec.State) : pathMetrics.get (codec.minElement pathMetrics) ≤ pathMetrics.get s := by
  have least (states : List codec.State) (best : codec.State) :
      let found := states.foldl
        (fun best s => if pathMetrics.get s < pathMetrics.get best then s else best) best
      pathMetrics.get found ≤ pathMetrics.get best ∧
        ∀ s ∈ states, pathMetrics.get found ≤ pathMetrics.get s := by
    induction states generalizing best with
    | nil => simp
    | cons next states ih =>
        by_cases smaller : pathMetrics.get next < pathMetrics.get best
        · obtain ⟨below, others⟩ := ih next
          simp only [List.foldl_cons, smaller, ↓reduceIte]
          exact ⟨below.trans (Nat.le_of_lt smaller), List.forall_mem_cons.mpr ⟨below, others⟩⟩
        · obtain ⟨below, others⟩ := ih best
          simp only [List.foldl_cons, smaller, ↓reduceIte]
          exact ⟨below, List.forall_mem_cons.mpr ⟨below.trans (Nat.le_of_not_lt smaller), others⟩⟩
  exact (least (List.finRange _) codec.start).2 s (List.mem_finRange s)

/-! ## Nearest sequences -/

/-- A received string is cut into symbols, the last of which is filled up. -/
theorem length_symbols (bits : Str) : (codec.symbols bits).length =
    (bits.length + codec.numParityBits - 1) / codec.numParityBits := by
  rw [symbols, List.length_map, Blocks.length_blocks]

/-- Every symbol has the size `BranchMetric` asserts. -/
theorem length_of_mem_symbols {bits symbol : Str} (member : symbol ∈ codec.symbols bits) :
    symbol.length = codec.numParityBits := by
  obtain ⟨current, among, rfl⟩ := List.mem_map.mp member
  obtain ⟨k, _, rfl⟩ := List.mem_map.mp among
  rw [List.length_append, List.length_replicate, Blocks.length_segment]
  omega

/-- What `decode` returns when the flushing bits are removed from inputs. -/
def unflush (inputs : List Bool) : Str :=
  (inputs.map bitChar).take ((inputs.length + 2 ^ 64 - codec.constraint + 1) % 2 ^ 64)

/-- `Decode` with the traceback started from the state given. -/
def decodeFrom (bits : Str) (state : codec.State) : Str :=
  let decoded :=
    (codec.traceback (codec.progress (codec.symbols bits)).trellis.reverse state).reverse
  decoded.take ((decoded.length + 2 ^ 64 - codec.constraint + 1) % 2 ^ 64)

/-- The flushing bits are removed from the way back. -/
theorem decodeFrom_eq_unflush (bits : Str) (state : codec.State) :
    codec.decodeFrom bits state = codec.unflush (codec.codeTrellis.traceback
      ((codec.progress (codec.symbols bits)).trellis.reverse.map Vector.get) state).reverse := by
  simp only [decodeFrom, unflush, traceback_eq, List.length_map, List.map_reverse,
    List.length_reverse]

/-- `Decode` goes back from a state of least metric. -/
theorem decode_eq_unflush (bits : Str) :
    codec.decode bits = codec.unflush (codec.codeTrellis.traceback
      ((codec.progress (codec.symbols bits)).trellis.reverse.map Vector.get)
      (codec.minElement (codec.progress (codec.symbols bits)).pathMetrics)).reverse :=
  codec.decodeFrom_eq_unflush bits _

/-- From any state of least metric, an input sequence is read back that is emitted
nearest to the symbols received. -/
theorem decodeFrom_spec {bits : Str}
    (short : (codec.symbols bits).length * codec.numParityBits < intMax) {best : codec.State}
    (cheapest : ∀ s, (codec.progress (codec.symbols bits)).pathMetrics.get best ≤
      (codec.progress (codec.symbols bits)).pathMetrics.get s) :
    ∃ inputs : List Bool, inputs.length = (codec.symbols bits).length ∧
      codec.decodeFrom bits best = codec.unflush inputs ∧
      ∀ other : List Bool, other.length = inputs.length →
        mismatches (codec.symbols bits).flatten (codec.encoder.emit codec.start inputs) ≤
          mismatches (codec.symbols bits).flatten (codec.encoder.emit codec.start other) := by
  have survives := codec.survives_progress (codec.symbols bits)
  have words : ∀ symbol ∈ codec.symbols bits, symbol.length = codec.numParityBits :=
    fun _ member => codec.length_of_mem_symbols member
  have size : (codec.codeTrellis.traceback
      ((codec.progress (codec.symbols bits)).trellis.reverse.map Vector.get) best).reverse.length =
      (codec.symbols bits).length := by
    rw [List.length_reverse, Trellis.length_traceback, survives.size]
  refine ⟨_, size, codec.decodeFrom_eq_unflush bits best, fun other same => ?_⟩
  have nearest := survives.traceback_le codec.weight_codeTrellis_le short cheapest
    (same.trans size)
  rwa [cost_codeTrellis codec _ size words, cost_codeTrellis codec _ (same.trans size) words]
    at nearest

/-- **Decoding.** The string decoded is an input sequence emitted nearest to the
symbols received, without the flushing bits. -/
theorem decode_spec {bits : Str}
    (short : (codec.symbols bits).length * codec.numParityBits < intMax) :
    ∃ inputs : List Bool, inputs.length = (codec.symbols bits).length ∧
      codec.decode bits = codec.unflush inputs ∧
      ∀ other : List Bool, other.length = inputs.length →
        mismatches (codec.symbols bits).flatten (codec.encoder.emit codec.start inputs) ≤
          mismatches (codec.symbols bits).flatten (codec.encoder.emit codec.start other) :=
  codec.decodeFrom_spec short (codec.get_minElement_le _)

/-! ## Whole codewords -/

/-- A string of whole symbols has as many as go into it. -/
theorem length_symbols_of_mul {bits : Str} {count : Nat}
    (whole : bits.length = count * codec.numParityBits) :
    (codec.symbols bits).length = count := by
  rw [symbols, List.length_map, Blocks.length_blocks_of_mul codec.numParityBits_pos whole]

/-- A string of whole symbols is made up of them. -/
theorem flatten_symbols {bits : Str} {count : Nat}
    (whole : bits.length = count * codec.numParityBits) :
    (codec.symbols bits).flatten = bits := by
  have filled : codec.symbols bits = Blocks.blocks codec.numParityBits bits := by
    refine (List.map_congr_left fun current member => ?_).trans (List.map_id _)
    rw [Blocks.length_of_mem_blocks codec.numParityBits_pos whole member, Nat.sub_self,
      List.replicate_zero, List.append_nil]
    rfl
  rw [filled, Blocks.flatten_blocks codec.numParityBits_pos]

/-- The flushing bits are removed. -/
theorem unflush_eq {inputs : List Bool} {count : Nat} (small : inputs.length < 2 ^ 64)
    (size : inputs.length = count + (codec.constraint - 1)) :
    codec.unflush inputs = (inputs.take count).map bitChar := by
  have register := codec.register
  rw [unflush, List.map_take]
  congr 1
  rw [show inputs.length + 2 ^ 64 - codec.constraint + 1 = count + 2 ^ 64 by omega,
    Nat.add_mod_right, Nat.mod_eq_of_lt (by omega)]

/-- A string nearer to what inputs emit than half the distance of the code decodes
to these inputs, whatever the last `constraint - 1` of them are. -/
theorem decodeFrom_of_near_inputs {distance : Nat}
    (separates : codec.encoder.Separates codec.constraint distance) {sent : List Bool}
    {count : Nat} (long : sent.length = count + (codec.constraint - 1)) {bits : Str}
    (size : bits.length = sent.length * codec.numParityBits) (short : bits.length < intMax)
    (near : 2 * mismatches bits (codec.encoder.emit codec.start sent) < distance)
    {best : codec.State}
    (cheapest : ∀ s, (codec.progress (codec.symbols bits)).pathMetrics.get best ≤
      (codec.progress (codec.symbols bits)).pathMetrics.get s) :
    codec.decodeFrom bits best = (sent.take count).map bitChar := by
  have symbols := codec.length_symbols_of_mul size
  have within : (codec.symbols bits).length * codec.numParityBits < intMax := by
    rwa [symbols, ← size]
  obtain ⟨inputs, same, decoded, nearest⟩ := codec.decodeFrom_spec within cheapest
  rw [flatten_symbols codec size] at nearest
  rw [symbols] at same
  have windows : codec.encoder.Separates (codec.constraint - 1 + 1) distance := by
    rwa [Nat.sub_add_cancel (Nat.le_of_succ_le codec.register)]
  have agree := Encoder.take_eq_of_near windows same.symm size (Nat.le_of_eq long.symm) near
    (nearest _ same.symm)
  have small : inputs.length < 2 ^ 64 := by
    have fewer : inputs.length ≤ bits.length := by
      rw [size, same]
      exact Nat.le_mul_of_pos_right _ codec.numParityBits_pos
    unfold intMax at short
    omega
  rw [decoded, unflush_eq codec small (same.trans long), agree]

/-- **Correction.** A string nearer to a codeword than half the distance of the
code decodes to its message, from whichever state of least metric it is read
back. -/
theorem decodeFrom_of_near {distance : Nat}
    (separates : codec.encoder.Separates codec.constraint distance) (message : List Bool)
    {bits : Str}
    (size : bits.length = (message.length + (codec.constraint - 1)) * codec.numParityBits)
    (short : bits.length < intMax)
    (near : 2 * mismatches bits (codec.encoder.emit codec.start
      (message ++ List.replicate (codec.constraint - 1) false)) < distance) {best : codec.State}
    (cheapest : ∀ s, (codec.progress (codec.symbols bits)).pathMetrics.get best ≤
      (codec.progress (codec.symbols bits)).pathMetrics.get s) :
    codec.decodeFrom bits best = message.map bitChar := by
  have long : (message ++ List.replicate (codec.constraint - 1) false).length =
      message.length + (codec.constraint - 1) := by
    rw [List.length_append, List.length_replicate]
  rw [codec.decodeFrom_of_near_inputs separates long (long ▸ size) short near cheapest,
    List.take_left]

/-- A string that is near to an encoding is decoded to its message. -/
theorem decode_of_near {distance : Nat}
    (separates : codec.encoder.Separates codec.constraint distance) (message : List Bool)
    {bits : Str}
    (size : bits.length = (message.length + (codec.constraint - 1)) * codec.numParityBits)
    (short : bits.length < intMax)
    (near : 2 * mismatches bits (codec.encoder.emit codec.start
      (message ++ List.replicate (codec.constraint - 1) false)) < distance) :
    codec.decode bits = message.map bitChar :=
  codec.decodeFrom_of_near separates message size short near (codec.get_minElement_le _)

/-- The length of what is decoded wraps around for less than the flushing bits. -/
theorem length_decode (bits : Str) :
    (codec.decode bits).length = min
      (((codec.symbols bits).length + 2 ^ 64 - codec.constraint + 1) % 2 ^ 64)
      (codec.symbols bits).length := by
  have survives := codec.survives_progress (codec.symbols bits)
  have size := survives.size
  rw [List.length_map, List.length_reverse] at size
  rw [decode, List.length_take, List.length_reverse, traceback_eq, List.length_map,
    Trellis.length_traceback, List.length_map, List.length_reverse, size]

end Ssle.ViterbiCodec
