import SsleExperiment.Enclave.Decoding
import SsleExperiment.Enclave.Prf

/-! # Puncturing and depuncturing a key

`puncturing` cuts a key into blocks of seven bits, encodes each with the codec
of constraint `3` and polynomials `6`, `5`, and flips one bit of each codeword.
`depuncturing` cuts what it receives into blocks of eighteen characters and
decodes each. Two messages are encoded at distance three
(`Ssle.PPRF.separates_codec`), so one wrong bit per block is corrected
(`Ssle.PPRF.depuncturing_corrects`).
-/

namespace Ssle.PPRF

/-- The codec of `puncturing` and `depuncturing`. -/
def codec : ViterbiCodec where
  constraint := 3
  polynomials := [6, 5]
  register := by decide
  inRange := by decide
  nonempty := by decide
  valid := by decide

/-- `splitBinaryVector`. The padding loop starts from the positive number of
missing characters and runs while it is negative, so it never pads. -/
def splitBinaryVector (vec : Str) (num : Nat) : Except Fault (List Str) :=
  let result := Blocks.blocks num vec
  match result.getLast? with
  | none => .error .indexOutOfRange
  | some last =>
      if last.length < num then
        let remaining : Int := num - last.length
        if remaining < 0 then .error .signedOverflow else .ok result
      else .ok result

/-- The other bit. -/
def flipBit (c : Char) : Char := if c = '0' then '1' else '0'

/-- `bitFlip`, with the random word `rdm`. -/
def bitFlip (rdm : UInt32) (inbits : Str) : Except Fault Str :=
  let insize := UInt32.ofNat inbits.length
  if insize = 0 then .error .remainderByZero
  else
    let pos := (rdm % insize).toNat
    if 2 ^ 31 ≤ pos then .error .indexOutOfRange else .ok (inbits.modify pos flipBit)

/-- `puncturing`. The block at position `k` is flipped with the word `words k`. -/
def puncturing (words : Nat → UInt32) (rvalue : Str) : Except Fault Str := do
  let splvec ← splitBinaryVector rvalue 7
  let puncs ← splvec.zipIdx.mapM fun (block, k) => do
    let enc ← codec.encode block
    bitFlip (words k) enc
  return puncs.flatten

/-- `depuncturing`. -/
def depuncturing (bits : Str) : Except Fault Str := do
  let splvec ← splitBinaryVector bits 18
  return (splvec.map codec.decode).flatten

/-! ## One block -/

/-- The splitter cuts a string into its blocks. -/
theorem splitBinaryVector_eq {vec : Str} {num : Nat} (some : vec ≠ []) (positive : 0 < num) :
    splitBinaryVector vec num = .ok (Blocks.blocks num vec) := by
  have last : (Blocks.blocks num vec).getLast? ≠ none := by
    rw [Blocks.blocks_eq_cons positive some, ne_eq, List.getLast?_eq_none_iff]
    exact List.cons_ne_nil _ _
  simp only [splitBinaryVector]
  split
  · next found => exact (last found).elim
  · next block _ =>
    by_cases short : block.length < num
    · have counted : ¬ ((num : Int) - block.length < 0) := by omega
      rw [if_pos short, if_neg counted]
    · rw [if_neg short]

/-- The splitter reads the last block of an empty string, and there is none. -/
theorem splitBinaryVector_nil (num : Nat) :
    splitBinaryVector [] num = .error .indexOutOfRange := by
  rw [splitBinaryVector, Blocks.blocks_nil]
  rfl

/-- `depuncturing` decodes every string but the empty one. -/
theorem depuncturing_eq_ok_iff (received bits : Str) :
    depuncturing received = .ok bits ↔
      received ≠ [] ∧ ((Blocks.blocks 18 received).map codec.decode).flatten = bits := by
  by_cases some : received = []
  · rw [some, depuncturing, splitBinaryVector_nil]
    exact ⟨fun failed => (nomatch failed), fun defined => (defined.1 rfl).elim⟩
  · rw [depuncturing, splitBinaryVector_eq some (Nat.succ_pos 17)]
    change Except.ok _ = Except.ok bits ↔ _
    rw [Except.ok.injEq]
    exact (and_iff_right some).symm

/-- The bits with the one changed that the random word names. -/
def flipped (rdm : UInt32) (inbits : Str) : Str :=
  inbits.modify (rdm % UInt32.ofNat inbits.length).toNat flipBit

/-- One bit is flipped in a block that is not empty. -/
theorem bitFlip_eq (rdm : UInt32) {inbits : Str} (some : inbits ≠ [])
    (short : inbits.length < 2 ^ 31) : bitFlip rdm inbits = .ok (flipped rdm inbits) := by
  have positive := List.length_pos_iff.mpr some
  have size : (UInt32.ofNat inbits.length).toNat = inbits.length :=
    UInt32.toNat_ofNat_of_lt (by rw [UInt32.size]; omega)
  have nonzero : UInt32.ofNat inbits.length ≠ 0 := by
    intro zero
    rw [zero] at size
    exact Nat.ne_of_lt positive size
  have inside : (rdm % UInt32.ofNat inbits.length).toNat < inbits.length := by
    rw [UInt32.toNat_mod, size]
    exact Nat.mod_lt _ positive
  simp only [bitFlip, nonzero, ↓reduceIte, Nat.not_le.mpr (inside.trans short)]
  rfl

@[simp] theorem length_flipped (rdm : UInt32) (inbits : Str) :
    (flipped rdm inbits).length = inbits.length := List.length_modify _ _ _

/-- Windows of three inputs that start differently are emitted at distance
three, from every state. -/
theorem separates_codec : codec.encoder.Separates 3 3 := by
  have windows : ∀ (s : codec.State) (a b c a' b' c' : Bool), a ≠ a' →
      3 ≤ mismatches (codec.encoder.emit s [a, b, c]) (codec.encoder.emit s [a', b', c']) := by
    decide +kernel
  intro s x y size size' differ
  obtain ⟨a, b, c, rfl⟩ := List.length_eq_three.mp size
  obtain ⟨a', b', c', rfl⟩ := List.length_eq_three.mp size'
  exact windows s a b c a' b' c' (by simpa using differ)

/-- Only the characters `0` and `1`. -/
def Binary (s : Str) : Prop := ∀ c ∈ s, c = '0' ∨ c = '1'

theorem Binary.reverse {s : Str} (binary : Binary s) : Binary s.reverse :=
  fun c member => binary c (List.mem_reverse.mp member)

theorem Binary.take {s : Str} (binary : Binary s) (count : Nat) : Binary (s.take count) :=
  fun c member => binary c (List.mem_of_mem_take member)

theorem Binary.left {s t : Str} (binary : Binary (s ++ t)) : Binary s :=
  fun c member => binary c (List.mem_append_left t member)

theorem Binary.right {s t : Str} (binary : Binary (s ++ t)) : Binary t :=
  fun c member => binary c (List.mem_append_right s member)

/-- The inputs that a message stands for. -/
def toBits (s : Str) : List Bool := s.map (· = '1')

@[simp] theorem length_toBits (s : Str) : (toBits s).length = s.length := by
  simp [toBits]

/-- A bit string is read back from its bits. -/
theorem map_bitChar_toBits {s : Str} (binary : Binary s) : (toBits s).map bitChar = s := by
  rw [toBits, List.map_map]
  refine (List.map_congr_left fun c member => ?_).trans (List.map_id s)
  rcases binary c member with rfl | rfl
  · rfl
  · rfl

/-- What `Encode` returns for a message, with any codec. -/
theorem encode_of_binary (codec : ViterbiCodec) {s : Str} (binary : Binary s) :
    codec.encode s = .ok (codec.encoder.emit codec.start
      (toBits s ++ List.replicate (codec.constraint - 1) false)) := by
  conv_lhs => rw [← map_bitChar_toBits binary]
  exact codec.encode_eq (toBits s)

/-- The codeword of a message. -/
def codeword (s : Str) : Str := codec.encoder.emit codec.start (toBits s ++ [false, false])

theorem encode_eq_codeword {s : Str} (binary : Binary s) : codec.encode s = .ok (codeword s) :=
  encode_of_binary codec binary

/-- A codeword has two characters for each bit and each flush. -/
@[simp] theorem length_codeword (s : Str) : (codeword s).length = (s.length + 2) * 2 := by
  rw [codeword, Encoder.length_emit, List.length_append, length_toBits]
  rfl

/-- A codeword with one wrong bit is decoded to its message. -/
theorem decode_of_mismatches_le {s received : Str} (binary : Binary s) (short : s.length ≤ 7)
    (size : received.length = (codeword s).length)
    (near : mismatches received (codeword s) ≤ 1) : codec.decode received = s := by
  rw [length_codeword] at size
  have few : received.length < intMax := by
    unfold intMax
    omega
  have decoded := codec.decode_of_near separates_codec (toBits s)
    (by rw [length_toBits]; exact size) few (Nat.lt_of_le_of_lt (Nat.mul_le_mul_left 2 near)
      (by decide))
  rw [decoded, map_bitChar_toBits binary]

/-- Whatever is as long as a codeword is decoded to as many bits. -/
theorem length_decode_of_codeword {received : Str} {length : Nat} (short : length ≤ 7)
    (size : received.length = (length + 2) * 2) : (codec.decode received).length = length := by
  rw [ViterbiCodec.length_decode, codec.length_symbols_of_mul size]
  change min ((length + 2 + 2 ^ 64 - 3 + 1) % 2 ^ 64) (length + 2) = length
  omega

/-! ## Whole strings -/

/-- The codewords of the blocks of a key, before any bit is flipped. -/
def clean (s : Str) : Except Fault Str := do
  let splvec ← splitBinaryVector s 7
  return (← splvec.mapM codec.encode).flatten

/-- Blocks of bit strings are bit strings. -/
theorem Binary.of_mem_blocks {s block : Str} (binary : Binary s) {n : Nat} (positive : 0 < n)
    (member : block ∈ Blocks.blocks n s) : Binary block :=
  fun c inside => binary c (Blocks.mem_of_mem_blocks positive member inside)

/-- Without flips, the codewords are returned. -/
theorem clean_eq {s : Str} (some : s ≠ []) (binary : Binary s) :
    clean s = .ok ((Blocks.blocks 7 s).map codeword).flatten := by
  rw [clean, splitBinaryVector_eq some (Nat.succ_pos 6)]
  change ((Blocks.blocks 7 s).mapM codec.encode >>= fun codes => pure codes.flatten) = _
  rw [mapM_eq_ok fun block member =>
    encode_eq_codeword (binary.of_mem_blocks (Nat.succ_pos 6) member)]
  rfl

/-- Codewords have the lengths of blocks of eighteen. -/
theorem cut_codewords (s : Str) :
    Blocks.Cut 18 (((Blocks.blocks 7 s).map List.length).map fun length => (length + 2) * 2) := by
  have cut := Blocks.cut_blocks (Nat.succ_pos 6) s
  refine Blocks.Cut.map (f := fun length => (length + 2) * 2) rfl (fun length _ short => ?_) cut
  omega

/-- Pieces as long as the codewords are the blocks that `depuncturing` cuts. -/
theorem blocks_of_codeword_lengths {s : Str} {pieces : List Str}
    (sizes : pieces.map List.length =
      ((Blocks.blocks 7 s).map List.length).map fun length => (length + 2) * 2) :
    Blocks.blocks 18 pieces.flatten = pieces :=
  Blocks.blocks_flatten (Nat.succ_pos 17) (sizes ▸ cut_codewords s)

theorem map_length_codewords (s : Str) :
    ((Blocks.blocks 7 s).map codeword).map List.length =
      ((Blocks.blocks 7 s).map List.length).map fun length => (length + 2) * 2 := by
  simp only [List.map_map]
  exact List.map_congr_left fun block _ => length_codeword block

theorem map_length_received {s received : Str}
    (same : received.length = ((Blocks.blocks 7 s).map codeword).flatten.length) :
    (Blocks.blocks 18 received).map List.length =
      ((Blocks.blocks 7 s).map List.length).map fun length => (length + 2) * 2 := by
  rw [Blocks.map_length_blocks same, blocks_of_codeword_lengths (map_length_codewords s),
    map_length_codewords]

theorem map_length_decoded {s received : Str}
    (same : received.length = ((Blocks.blocks 7 s).map codeword).flatten.length) :
    ((Blocks.blocks 18 received).map codec.decode).map List.length =
      (Blocks.blocks 7 s).map List.length := by
  have sizes := map_length_received same
  have decoded : ∀ block ∈ Blocks.blocks 18 received,
      (codec.decode block).length = block.length / 2 - 2 := by
    intro block member
    have size : block.length ∈ (Blocks.blocks 18 received).map List.length :=
      List.mem_map_of_mem member
    rw [sizes, List.map_map] at size
    obtain ⟨original, among, size⟩ := List.mem_map.mp size
    rw [Function.comp_apply] at size
    rw [length_decode_of_codeword (Blocks.length_le_of_mem_blocks among) size.symm, ← size]
    omega
  calc ((Blocks.blocks 18 received).map codec.decode).map List.length
      = ((Blocks.blocks 18 received).map List.length).map (fun size => size / 2 - 2) := by
        rw [List.map_map, List.map_map]
        refine List.map_congr_left fun block member => ?_
        rw [Function.comp_apply, Function.comp_apply, decoded block member]
    _ = ((Blocks.blocks 7 s).map List.length).map fun length => (length + 2) * 2 / 2 - 2 := by
        rw [sizes, List.map_map]
        rfl
    _ = (Blocks.blocks 7 s).map List.length := by
        simp

/-- `depuncturing` decodes block by block, and its result is cut at the same
places as the key. -/
theorem depuncturing_eq {s received : Str} (some : s ≠ [])
    (same : received.length = ((Blocks.blocks 7 s).map codeword).flatten.length) :
    ∃ bits, depuncturing received = .ok bits ∧ bits.length = s.length ∧
      Blocks.blocks 7 bits = (Blocks.blocks 18 received).map codec.decode := by
  have sizes := map_length_decoded same
  have cut := Blocks.cut_blocks (Nat.succ_pos 6) s
  have nonempty : received ≠ [] := by
    rw [← List.length_pos_iff, same, Blocks.blocks_eq_cons (Nat.succ_pos 6) some, List.map_cons,
      List.flatten_cons, List.length_append, length_codeword]
    omega
  refine ⟨((Blocks.blocks 18 received).map codec.decode).flatten, ?_, ?_, ?_⟩
  · exact (depuncturing_eq_ok_iff _ _).mpr ⟨nonempty, rfl⟩
  · rw [List.length_flatten, sizes, ← List.length_flatten, Blocks.flatten_blocks (Nat.succ_pos 6)]
  · apply Blocks.blocks_flatten (Nat.succ_pos 6)
    rw [sizes]
    exact cut

/-- A block with at most one wrong bit is recovered. -/
theorem segment_eq_of_mismatches_le {s received bits : Str} {j : Nat} (binary : Binary s)
    (same : received.length = ((Blocks.blocks 7 s).map codeword).flatten.length)
    (size : bits.length = s.length)
    (cut : Blocks.blocks 7 bits = (Blocks.blocks 18 received).map codec.decode)
    (inside : j * 7 < s.length)
    (near : mismatches (Blocks.segment 18 j received) (codeword (Blocks.segment 7 j s)) ≤ 1) :
    Blocks.segment 7 j bits = Blocks.segment 7 j s := by
  have below := Blocks.lt_length_blocks (Nat.succ_pos 6) inside
  have sizes := map_length_received same
  have count := congrArg List.length sizes
  simp only [List.length_map] at count
  have original := Blocks.getElem?_blocks below
  have piece : (Blocks.blocks 18 received)[j]? = _ := Blocks.getElem?_blocks (count ▸ below)
  have result := Blocks.getElem?_blocks
    (Blocks.lt_length_blocks (Nat.succ_pos 6) (size ▸ inside : j * 7 < bits.length))
  rw [cut, List.getElem?_map, piece] at result
  have member := List.mem_of_getElem? original
  have long := congrArg (·[j]?) sizes
  simp only [List.getElem?_map, piece, original, Option.map_some, Option.some.injEq] at long result
  rw [← result]
  exact decode_of_mismatches_le (binary.of_mem_blocks (Nat.succ_pos 6) member)
    (Blocks.length_le_of_mem_blocks member) (long.trans (length_codeword _).symm) near

/-- The codewords of a key, with one bit of each flipped. -/
def spoiled (words : Nat → UInt32) (s : Str) : List Str :=
  (Blocks.blocks 7 s).zipIdx.map fun block => flipped (words block.2) (codeword block.1)

/-- The spoiled codewords are returned. -/
theorem puncturing_eq (words : Nat → UInt32) {s : Str} (some : s ≠ []) (binary : Binary s) :
    puncturing words s = .ok (spoiled words s).flatten := by
  have blockwise : ((Blocks.blocks 7 s).zipIdx.mapM fun (block, k) => do
      let enc ← codec.encode block
      bitFlip (words k) enc) = .ok (spoiled words s) := by
    refine mapM_eq_ok fun block member => ?_
    have among := List.fst_mem_of_mem_zipIdx member
    have short := Blocks.length_le_of_mem_blocks among
    have size := length_codeword block.1
    simp only [encode_eq_codeword (binary.of_mem_blocks (Nat.succ_pos 6) among)]
    refine bitFlip_eq _ (List.length_pos_iff.mp ?_) ?_
    · omega
    · omega
  rw [puncturing, splitBinaryVector_eq some (Nat.succ_pos 6)]
  exact congrArg (fun puncs => puncs >>= fun puncs => pure puncs.flatten) blockwise

theorem map_length_spoiled (words : Nat → UInt32) (s : Str) :
    (spoiled words s).map List.length =
      ((Blocks.blocks 7 s).map List.length).map fun length => (length + 2) * 2 := by
  conv_rhs => rw [← List.zipIdx_map_fst 0 (Blocks.blocks 7 s)]
  simp only [spoiled, List.map_map]
  refine List.map_congr_left fun block _ => ?_
  simp only [Function.comp_apply, length_flipped, length_codeword]

/-- Depuncturing undoes puncturing. -/
theorem depuncturing_spoiled (words : Nat → UInt32) {s : Str} (some : s ≠ [])
    (binary : Binary s) : depuncturing (spoiled words s).flatten = .ok s := by
  have sizes := map_length_spoiled words s
  have cut := blocks_of_codeword_lengths sizes
  have same : (spoiled words s).flatten.length =
      ((Blocks.blocks 7 s).map codeword).flatten.length := by
    rw [List.length_flatten, sizes, ← map_length_codewords, ← List.length_flatten]
  obtain ⟨bits, returned, size, decoded⟩ := depuncturing_eq some same
  rw [returned]
  refine congrArg Except.ok (Blocks.ext_segment (Nat.succ_pos 6) size fun j inside => ?_)
  rw [size] at inside
  refine segment_eq_of_mismatches_le binary same size decoded inside ?_
  have below := Blocks.lt_length_blocks (Nat.succ_pos 6) inside
  have below' : j < (Blocks.blocks 18 (spoiled words s).flatten).length := by
    rw [cut, spoiled, List.length_map, List.length_zipIdx]
    exact below
  have piece := Blocks.getElem?_blocks below'
  rw [cut, spoiled, List.getElem?_map, List.getElem?_zipIdx, Blocks.getElem?_blocks below] at piece
  simp only [Option.map_some, Option.some.injEq] at piece
  rw [spoiled, ← piece]
  exact mismatches_modify_le _ _ _

/-- **Correction of punctured keys.** Depuncturing a string as long as the
codewords of a key gives a string as long as the key, with every block right
whose codeword has at most one wrong bit. Puncturing spoils one bit of each. -/
theorem depuncturing_corrects (s : Str) (some : s ≠ []) (binary : Binary s) :
    ∃ sent, clean s = .ok sent ∧
      (∀ received : Str, received.length = sent.length →
        ∃ bits, depuncturing received = .ok bits ∧ bits.length = s.length ∧
          ∀ j code, j * 7 < s.length → codec.encode (Blocks.segment 7 j s) = .ok code →
            hammingDistance (Blocks.segment 18 j received) code ≤ 1 →
            Blocks.segment 7 j bits = Blocks.segment 7 j s) ∧
      ∀ words, ∃ punctured, puncturing words s = .ok punctured ∧
        depuncturing punctured = .ok s := by
  refine ⟨_, clean_eq some binary, fun received same => ?_, fun words =>
    ⟨_, puncturing_eq words some binary, depuncturing_spoiled words some binary⟩⟩
  obtain ⟨bits, returned, size, decoded⟩ := depuncturing_eq some same
  refine ⟨bits, returned, size, fun j code inside encoded near => ?_⟩
  have below := Blocks.lt_length_blocks (Nat.succ_pos 6) inside
  have member := List.mem_of_getElem? (Blocks.getElem?_blocks below)
  rw [encode_eq_codeword (binary.of_mem_blocks (Nat.succ_pos 6) member), Except.ok.injEq] at encoded
  rw [← encoded] at near
  exact segment_eq_of_mismatches_le binary same size decoded inside near

/-- A key of two blocks, of which one is short. -/
def nineBits : Str := "100110101".toList

theorem binary_nineBits : Binary nineBits := by
  have bits : nineBits.all fun c => c = '0' || c = '1' := by decide
  exact fun c member => by simpa using List.all_eq_true.mp bits c member

theorem depuncturing_corrects_of_nineBits :
    nineBits ≠ [] ∧ Binary nineBits ∧
    ∃ sent, clean nineBits = .ok sent ∧
      (∀ received : Str, received.length = sent.length →
        ∃ bits, depuncturing received = .ok bits ∧ bits.length = nineBits.length ∧
          ∀ j code, j * 7 < nineBits.length →
            codec.encode (Blocks.segment 7 j nineBits) = .ok code →
            hammingDistance (Blocks.segment 18 j received) code ≤ 1 →
            Blocks.segment 7 j bits = Blocks.segment 7 j nineBits) ∧
      ∀ words, ∃ punctured, puncturing words nineBits = .ok punctured ∧
        depuncturing punctured = .ok nineBits :=
  have some : nineBits ≠ [] := by decide
  ⟨some, binary_nineBits, depuncturing_corrects nineBits some binary_nineBits⟩

end Ssle.PPRF
