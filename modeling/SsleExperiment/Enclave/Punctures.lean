import SsleExperiment.Enclave.Puncturing
import SsleExperiment.Math.Choices

/-! # What a key can be punctured to

The random words of `puncturing` choose one character of each codeword. A key can
be punctured to the bit strings that differ from its codewords in one character of
each block, and to no others; each of them is depunctured to the key
(`Ssle.PPRF.exists_puncturing_iff`). There are eighteen of them for each whole block
(`Ssle.PPRF.ncard_puncturing`).
-/

namespace Ssle.PPRF

/-! ## One block -/

theorem binary_append {s t : Str} (binary : Binary s) (binary' : Binary t) : Binary (s ++ t) :=
  List.forall_mem_append.mpr ⟨binary, binary'⟩

theorem binary_emit (codec : ViterbiCodec) (s : codec.State) (inputs : List Bool) :
    Binary (codec.encoder.emit s inputs) := by
  induction inputs generalizing s with
  | nil => exact fun _ impossible => nomatch impossible
  | cons input inputs ih =>
      refine binary_append ?_ (ih _)
      change Binary (codec.output s input)
      rw [codec.output_eq]
      exact fun c member => by
        obtain ⟨polynomial, -, rfl⟩ := List.mem_map.mp member
        unfold bitChar
        split
        · exact .inr rfl
        · exact .inl rfl

theorem binary_flipped (rdm : UInt32) {s : Str} (binary : Binary s) : Binary (flipped rdm s) := by
  intro c member
  obtain ⟨k, inside, rfl⟩ := List.mem_iff_getElem.mp member
  have original := binary _ (List.getElem_mem (length_flipped rdm s ▸ inside))
  simp only [flipped, List.getElem_modify]
  split
  · rw [flipBit]
    split
    · exact .inr rfl
    · exact .inl rfl
  · exact original

theorem flipBit_ne (c : Char) : flipBit c ≠ c := by
  rw [flipBit]
  split
  next zero => rw [zero]; decide
  next other => exact fun same => other same.symm

/-- Every character can be chosen. -/
theorem flipped_ofNat {k : Nat} {inbits : Str} (inside : k < inbits.length)
    (short : inbits.length < 2 ^ 32) :
    flipped (UInt32.ofNat k) inbits = inbits.modify k flipBit := by
  have size : (UInt32.ofNat inbits.length).toNat = inbits.length := UInt32.toNat_ofNat_of_lt short
  have position : (UInt32.ofNat k).toNat = k := UInt32.toNat_ofNat_of_lt (inside.trans short)
  rw [flipped, UInt32.toNat_mod, size, position, Nat.mod_eq_of_lt inside]

/-- A random word flips one character. -/
theorem exists_flipped_eq_modify (rdm : UInt32) {inbits : Str} (some : inbits ≠ [])
    (short : inbits.length < 2 ^ 32) :
    ∃ k < inbits.length, flipped rdm inbits = inbits.modify k flipBit := by
  have size : (UInt32.ofNat inbits.length).toNat = inbits.length := UInt32.toNat_ofNat_of_lt short
  refine ⟨_, ?_, rfl⟩
  rw [UInt32.toNat_mod, size]
  exact Nat.mod_lt _ (List.length_pos_iff.mpr some)

/-- A bit string with one bit flipped: another one with one mismatch. -/
theorem exists_flipped_iff {code received : Str} (binary : Binary code) (some : code ≠ [])
    (short : code.length < 2 ^ 32) :
    (∃ rdm, flipped rdm code = received) ↔
      received.length = code.length ∧ Binary received ∧ mismatches received code = 1 := by
  constructor
  · rintro ⟨rdm, rfl⟩
    obtain ⟨k, inside, chosen⟩ := exists_flipped_eq_modify rdm some short
    refine ⟨length_flipped rdm code, binary_flipped rdm binary, ?_⟩
    rw [chosen]
    exact mismatches_modify flipBit_ne inside
  · rintro ⟨same, binary', one⟩
    have other (a : Char) (member : a ∈ code) (b : Char) (member' : b ∈ received) (differ : b ≠ a) :
        b = flipBit a := by
      rcases binary a member with rfl | rfl
      · exact (binary' b member').resolve_left differ
      · exact (binary' b member').resolve_right differ
    obtain ⟨k, inside, rfl⟩ := exists_modify_of_mismatches_eq_one same other one
    exact ⟨UInt32.ofNat k, flipped_ofNat inside short⟩

/-- The ways to flip one bit. -/
theorem ncard_flipped {code : Str} (some : code ≠ []) (short : code.length < 2 ^ 32) :
    {received | ∃ rdm, flipped rdm code = received}.ncard = code.length := by
  have choices : {received | ∃ rdm, flipped rdm code = received} =
      (fun k => code.modify k flipBit) '' (Finset.range code.length : Set Nat) := by
    ext received
    simp only [Set.mem_ofPred_eq, Finset.coe_range, Set.mem_image, Set.mem_Iio]
    constructor
    · rintro ⟨rdm, rfl⟩
      obtain ⟨k, inside, chosen⟩ := exists_flipped_eq_modify rdm some short
      exact ⟨k, inside, chosen.symm⟩
    · rintro ⟨k, inside, rfl⟩
      exact ⟨UInt32.ofNat k, flipped_ofNat inside short⟩
  have apart : Set.InjOn (fun k => code.modify k flipBit) (Finset.range code.length : Set Nat) := by
    intro k inside k' inside' same
    rw [Finset.coe_range, Set.mem_Iio] at inside inside'
    by_contra differ
    have changed := congrArg (·[k]?) same
    simp only [List.getElem?_modify, List.getElem?_eq_getElem inside, if_pos,
      if_neg (Ne.symm differ)] at changed
    exact flipBit_ne _ (Option.some.inj changed)
  rw [choices, apart.ncard_image, Set.ncard_coe_finset, Finset.card_range]

/-! ## Whole strings -/

theorem binary_codeword (block : Str) : Binary (codeword block) :=
  binary_emit codec codec.start _

theorem binary_spoiled (words : Nat → UInt32) (key : Str) : Binary (spoiled words key).flatten := by
  intro c member
  obtain ⟨piece, among, inside⟩ := List.mem_flatten.mp member
  obtain ⟨block, -, rfl⟩ := List.mem_map.mp among
  exact binary_flipped _ (binary_codeword _) c inside

theorem length_codeword_segment_lt (s : Str) (j : Nat) :
    (codeword (Blocks.segment 7 j s)).length < 2 ^ 32 := by
  rw [length_codeword, Blocks.length_segment]
  omega

theorem codeword_ne_nil (block : Str) : codeword block ≠ [] := by
  rw [← List.length_pos_iff, length_codeword]
  omega

/-- The pieces that some random words make of a key. -/
theorem exists_spoiled_iff (s : Str) (pieces : List Str) :
    (∃ words, spoiled words s = pieces) ↔
      List.Forall₂ (fun piece block => ∃ rdm, flipped rdm (codeword block) = piece)
        pieces (Blocks.blocks 7 s) :=
  Choices.exists_map_zipIdx_iff (fun rdm block => flipped rdm (codeword block)) _ pieces

/-- The codewords of a key, one after the other. -/
def codewords (s : Str) : Str := ((Blocks.blocks 7 s).map codeword).flatten

/-- The segments of the encoding are the codewords. -/
theorem segment_codewords {s : Str} {j : Nat} (inside : j * 7 < s.length) :
    Blocks.segment 18 j (codewords s) = codeword (Blocks.segment 7 j s) := by
  have cut := blocks_of_codeword_lengths (map_length_codewords s)
  have block := Blocks.getElem?_blocks (Blocks.lt_length_blocks (Nat.succ_pos 6) inside)
  rw [codewords, Blocks.segment_flatten (Nat.succ_pos 17) cut, List.getElem?_map, block]
  rfl

/-- Puncturing keeps the length of the encoding. -/
theorem length_spoiled (words : Nat → UInt32) (s : Str) :
    (spoiled words s).flatten.length = (codewords s).length := by
  rw [List.length_flatten, map_length_spoiled, ← map_length_codewords, ← List.length_flatten,
    codewords]

/-- The spoiled codewords are the blocks of what is sent. -/
theorem blocks_spoiled (words : Nat → UInt32) (s : Str) :
    Blocks.blocks 18 (spoiled words s).flatten = spoiled words s :=
  blocks_of_codeword_lengths (map_length_spoiled words s)

/-- Every segment is a codeword with one bit flipped. -/
theorem segment_spoiled (words : Nat → UInt32) {s : Str} {j : Nat} (inside : j * 7 < s.length) :
    Blocks.segment 18 j (spoiled words s).flatten =
      flipped (words j) (codeword (Blocks.segment 7 j s)) := by
  have block := Blocks.getElem?_blocks (Blocks.lt_length_blocks (Nat.succ_pos 6) inside)
  rw [Blocks.segment_flatten (Nat.succ_pos 17) (blocks_spoiled words s), spoiled,
    List.getElem?_map, List.getElem?_zipIdx, block, Nat.zero_add]
  rfl

/-- The strings a key is punctured to differ from its codewords in one character
of each block. -/
theorem exists_flatten_spoiled_iff (s received : Str) :
    (∃ words, (spoiled words s).flatten = received) ↔
      Binary received ∧ received.length = (codewords s).length ∧
        ∀ j, j * 7 < s.length → mismatches (Blocks.segment 18 j received)
          (Blocks.segment 18 j (codewords s)) = 1 := by
  constructor
  · rintro ⟨words, rfl⟩
    refine ⟨binary_spoiled words s, length_spoiled words s, fun j inside => ?_⟩
    rw [segment_spoiled words inside, segment_codewords inside]
    exact ((exists_flipped_iff (binary_codeword _) (codeword_ne_nil _)
      (length_codeword_segment_lt s j)).mp ⟨words j, rfl⟩).2.2
  · rintro ⟨binary, same, one⟩
    have count := congrArg List.length (map_length_received same)
    simp only [List.length_map] at count
    have reached : ∃ words, spoiled words s = Blocks.blocks 18 received := by
      rw [exists_spoiled_iff, List.forall₂_iff_get]
      refine ⟨count, fun j below below' => ?_⟩
      have inside : j * 7 < s.length := by
        rw [Blocks.length_blocks] at below'
        omega
      have piece : (Blocks.blocks 18 received).get ⟨j, below⟩ = Blocks.segment 18 j received :=
        List.getElem_eq_iff below |>.mpr (Blocks.getElem?_blocks below)
      have block : (Blocks.blocks 7 s).get ⟨j, below'⟩ = Blocks.segment 7 j s :=
        List.getElem_eq_iff below' |>.mpr (Blocks.getElem?_blocks below')
      rw [piece, block, exists_flipped_iff (binary_codeword _) (codeword_ne_nil _)
        (length_codeword_segment_lt s j), ← segment_codewords inside]
      refine ⟨?_, fun c member => binary c ?_, one j inside⟩
      · rw [Blocks.length_segment, Blocks.length_segment, same]
      · exact List.mem_of_mem_drop (List.mem_of_mem_take member)
    obtain ⟨words, cut⟩ := reached
    exact ⟨words, by rw [cut, Blocks.flatten_blocks (Nat.succ_pos 17)]⟩

/-- What is returned is the spoiled codewords together. -/
theorem puncturing_eq_iff {s : Str} (some : s ≠ []) (binary : Binary s) (received : Str) :
    (∃ words, puncturing words s = .ok received) ↔
      ∃ words, (spoiled words s).flatten = received := by
  refine exists_congr fun words => ?_
  rw [puncturing_eq words some binary, Except.ok.injEq]

/-- **What a key is punctured to.** With suitable random words `puncturing` returns
any bit string as long as the codewords of the key that differs from them in one
character of each block, and it returns no other string. -/
theorem exists_puncturing_iff (s : Str) (some : s ≠ []) (binary : Binary s) :
    ∃ sent, clean s = .ok sent ∧ ∀ received,
      (∃ words, puncturing words s = .ok received) ↔
        Binary received ∧ received.length = sent.length ∧
          ∀ j, j * 7 < s.length → hammingDistance (Blocks.segment 18 j received)
            (Blocks.segment 18 j sent) = 1 :=
  ⟨codewords s, clean_eq some binary, fun received =>
    (puncturing_eq_iff some binary received).trans (exists_flatten_spoiled_iff s received)⟩

theorem exists_puncturing_iff_of_nineBits :
    nineBits ≠ [] ∧ Binary nineBits ∧
    ∃ sent, clean nineBits = .ok sent ∧ ∀ received,
      (∃ words, puncturing words nineBits = .ok received) ↔
        Binary received ∧ received.length = sent.length ∧
          ∀ j, j * 7 < nineBits.length →
            hammingDistance (Blocks.segment 18 j received) (Blocks.segment 18 j sent) = 1 :=
  have some : nineBits ≠ [] := by decide
  ⟨some, binary_nineBits, exists_puncturing_iff nineBits some binary_nineBits⟩

/-! ## How many there are -/

/-- The lengths of the codewords, multiplied. -/
theorem prod_length_codewords (s : Str) :
    ((Blocks.blocks 7 s).map fun block => (codeword block).length).prod =
      18 ^ (s.length / 7) * if s.length % 7 = 0 then 1 else 2 * (s.length % 7 + 2) := by
  induction s using Blocks.drop_induction (Nat.succ_pos 6) with
  | nil => rfl
  | block s some ih =>
      have positive := List.length_pos_iff.mpr some
      rw [Blocks.blocks_eq_cons (Nat.succ_pos 6) some, List.map_cons, List.prod_cons, ih,
        length_codeword, List.length_take, List.length_drop]
      rcases Nat.lt_or_ge s.length 7 with short | long
      · have none : s.length - (6 + 1) = 0 := by omega
        rw [none, Nat.min_eq_right (by omega), Nat.div_eq_of_lt short, Nat.mod_eq_of_lt short,
          if_neg positive.ne', Nat.zero_div, pow_zero, Nat.zero_mod, if_pos rfl]
        omega
      · have quotient : s.length / 7 = (s.length - (6 + 1)) / 7 + 1 := by omega
        have remainder : s.length % 7 = (s.length - (6 + 1)) % 7 := by omega
        rw [Nat.min_eq_left long, quotient, remainder, pow_succ']
        exact (Nat.mul_assoc _ _ _).symm

/-- **How many strings a key is punctured to.** Eighteen for every whole block, and
as many for the last one as its codeword is long. -/
theorem ncard_puncturing (s : Str) (some : s ≠ []) (binary : Binary s) :
    {received | ∃ words, puncturing words s = .ok received}.ncard =
      18 ^ (s.length / 7) * if s.length % 7 = 0 then 1 else 2 * (s.length % 7 + 2) := by
  have strings : {received | ∃ words, puncturing words s = .ok received} =
      List.flatten '' {pieces | ∃ words, spoiled words s = pieces} := by
    ext received
    simp only [Set.mem_ofPred_eq, puncturing_eq_iff some binary, Set.mem_image,
      exists_exists_eq_and]
  have apart : Set.InjOn List.flatten {pieces | ∃ words, spoiled words s = pieces} := by
    rintro _ ⟨words, rfl⟩ _ ⟨words', rfl⟩ same
    rw [← blocks_spoiled words, ← blocks_spoiled words', same]
  rw [strings, apart.ncard_image]
  simp only [exists_spoiled_iff]
  rw [Choices.ncard_forall₂, ← prod_length_codewords]
  refine congrArg List.prod (List.map_congr_left fun block member => ?_)
  refine ncard_flipped (codeword_ne_nil block) ?_
  have short := Blocks.length_le_of_mem_blocks member
  rw [length_codeword]
  omega

/-- There are 18 first codewords and eight second ones. -/
theorem ncard_puncturing_of_nineBits :
    nineBits ≠ [] ∧ Binary nineBits ∧
    {received | ∃ words, puncturing words nineBits = .ok received}.ncard = 18 * 8 := by
  have some : nineBits ≠ [] := by decide
  have count := ncard_puncturing nineBits some binary_nineBits
  exact ⟨some, binary_nineBits, count.trans (by decide)⟩

end Ssle.PPRF
