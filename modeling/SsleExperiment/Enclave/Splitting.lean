import SsleExperiment.Enclave.Puncturing

/-! # Blocks of equal length

`splitBinaryVector` means to fill its last block with zeros. Its padding loop
counts down from the number of missing characters and runs while that number is
negative, so the last block stays as it was cut: all blocks are full exactly when
the block length divides the length of the string
(`Ssle.PPRF.splitBinaryVector_pads_iff`), as it does in both calls of the codec.
-/

namespace Ssle.PPRF

/-- What the padding aims at: full blocks, as few as hold the string, which they
make up followed by the zeros that fill the last one. -/
structure PaddedSplit (num : Nat) (vec : Str) (blocks : List Str) : Prop where
  count : blocks.length = (vec.length + num - 1) / num
  full : ∀ block ∈ blocks, block.length = num
  padding : ∃ missing, missing < num ∧ blocks.flatten = vec ++ List.replicate missing '0'

theorem paddedSplit_blocks {num : Nat} (positive : 0 < num) {vec : Str} (whole : num ∣ vec.length) :
    PaddedSplit num vec (Blocks.blocks num vec) := by
  obtain ⟨count, size⟩ := whole
  rw [Nat.mul_comm] at size
  constructor
  · exact Blocks.length_blocks num vec
  · intro block member
    exact Blocks.length_of_mem_blocks positive size member
  · refine ⟨0, positive, ?_⟩
    rw [Blocks.flatten_blocks positive, List.replicate_zero, List.append_nil]

/-- **Padding.** The blocks are those of a padded string exactly when no padding
is needed. -/
theorem splitBinaryVector_pads_iff (vec : Str) (num : Nat) (some : vec ≠ [])
    (positive : 0 < num) :
    (∃ blocks, splitBinaryVector vec num = .ok blocks ∧ PaddedSplit num vec blocks) ↔
      num ∣ vec.length := by
  rw [splitBinaryVector_eq some positive]
  constructor
  · rintro ⟨blocks, returned, padded⟩
    obtain rfl := Except.ok.inj returned
    have size := Blocks.length_flatten_of_full padded.full
    rw [Blocks.flatten_blocks positive] at size
    exact ⟨_, size.trans (Nat.mul_comm _ _)⟩
  · intro whole
    exact ⟨_, rfl, paddedSplit_blocks positive whole⟩

theorem splitBinaryVector_pads_iff_of_four :
    ['1', '0', '1', '1'] ≠ [] ∧ 0 < 2 ∧
    ((∃ blocks, splitBinaryVector ['1', '0', '1', '1'] 2 = .ok blocks ∧
        PaddedSplit 2 ['1', '0', '1', '1'] blocks) ↔
      2 ∣ (['1', '0', '1', '1'] : Str).length) :=
  ⟨List.cons_ne_nil _ _, Nat.two_pos,
    splitBinaryVector_pads_iff ['1', '0', '1', '1'] 2 (List.cons_ne_nil _ _) Nat.two_pos⟩

/-- Three characters in blocks of two: the last block is not filled. -/
theorem unpadded_block :
    splitBinaryVector ['1', '0', '1'] 2 = .ok [['1', '0'], ['1']] ∧
      ¬ ∃ blocks, splitBinaryVector ['1', '0', '1'] 2 = .ok blocks ∧
        PaddedSplit 2 ['1', '0', '1'] blocks := by
  refine ⟨by decide, ?_⟩
  rintro ⟨blocks, returned, padded⟩
  obtain rfl : [['1', '0'], ['1']] = blocks := Except.ok.inj returned
  exact absurd (padded.full ['1'] (by decide)) (by decide)

end Ssle.PPRF
