import SsleExperiment.Enclave.Puncturing

/-! # Removing the flushing bits

`Decode` drops the two flushing bits with a `substr` whose length is computed in
`size_t`. A block of a single symbol has fewer bits than that: the length wraps
around and the bit stays. `depuncturing` returns one bit too many exactly when
the last block is that short (`Ssle.PPRF.length_depuncturing_iff`).
-/

namespace Ssle.PPRF

/-- The message bits that a block of this size carries: one for each symbol,
less the flushing bits. -/
def messageLength (size : Nat) : Nat := (size + 1) / 2 - 2

/-- The message bits that the blocks of a received string carry. -/
def messageBits (received : Str) : Nat :=
  ((Blocks.blocks 18 received).map fun block => messageLength block.length).sum

/-- The bits too many for a string of this size: one if its last block is a
single symbol. -/
def leakedBits (size : Nat) : Nat := if size % 18 = 1 ∨ size % 18 = 2 then 1 else 0

/-- A block is decoded to its message bits, and what is leaked of the flushing bits. -/
theorem length_decode_block {block : Str} (some : block ≠ []) (short : block.length ≤ 18) :
    (codec.decode block).length = messageLength block.length + leakedBits block.length := by
  have size := List.length_pos_iff.mpr some
  have symbols : (codec.symbols block).length = (block.length + 1) / 2 :=
    codec.length_symbols block
  rw [ViterbiCodec.length_decode, symbols]
  change min (((block.length + 1) / 2 + 2 ^ 64 - 3 + 1) % 2 ^ 64) ((block.length + 1) / 2) = _
  rw [messageLength, leakedBits]
  split
  · omega
  · omega

/-- The blocks together are decoded to theirs, and what is leaked by the last one. -/
theorem length_flatten_decoded (received : Str) :
    ((Blocks.blocks 18 received).map codec.decode).flatten.length =
      messageBits received + leakedBits received.length := by
  have positive : 0 < 18 := Nat.succ_pos 17
  induction received using Blocks.drop_induction positive with
  | nil => rfl
  | block received some ih =>
      have first : received.take 18 ≠ [] := by simp [some]
      have decoded := length_decode_block first (List.length_take_le 18 received)
      simp only [messageBits] at ih ⊢
      rw [Blocks.blocks_eq_cons positive some, List.map_cons, List.flatten_cons,
        List.length_append, decoded, ih, List.map_cons, List.sum_cons, List.length_take,
        List.length_drop]
      -- only the last block can be a single symbol
      by_cases last : received.length ≤ 18
      · have none : leakedBits 0 = 0 := rfl
        rw [Nat.min_eq_right last, Nat.sub_eq_zero_of_le last, none]
        omega
      · have full : leakedBits 18 = 0 := rfl
        have rest : leakedBits (received.length - 18) = leakedBits received.length := by
          rw [leakedBits, leakedBits,
            show (received.length - 18) % 18 = received.length % 18 by omega]
        rw [Nat.min_eq_left (Nat.le_of_not_le last), full, rest]
        omega

/-- **Flushing bits.** Depuncturing returns the message bits of the blocks,
unless the last block is a single symbol. -/
theorem length_depuncturing_iff (received : Str) (some : received ≠ []) :
    ∃ bits, depuncturing received = .ok bits ∧
      (bits.length = messageBits received ↔
        received.length % 18 ≠ 1 ∧ received.length % 18 ≠ 2) := by
  refine ⟨_, (depuncturing_eq_ok_iff received _).mpr ⟨some, rfl⟩, ?_⟩
  rw [length_flatten_decoded, ← not_or, leakedBits]
  by_cases single : received.length % 18 = 1 ∨ received.length % 18 = 2
  · simp [single]
  · simp [single]

theorem length_depuncturing_iff_of_six :
    (['0', '0', '1', '1', '0', '0'] : Str) ≠ [] ∧
    ∃ bits, depuncturing ['0', '0', '1', '1', '0', '0'] = .ok bits ∧
      (bits.length = messageBits ['0', '0', '1', '1', '0', '0'] ↔
        (['0', '0', '1', '1', '0', '0'] : Str).length % 18 ≠ 1 ∧
          (['0', '0', '1', '1', '0', '0'] : Str).length % 18 ≠ 2) :=
  ⟨List.cons_ne_nil _ _, length_depuncturing_iff _ (List.cons_ne_nil _ _)⟩

/-- One character received: no message bit, but one is returned. -/
theorem leaked_flush :
    ∃ bits, depuncturing ['0'] = .ok bits ∧ bits.length = 1 ∧ messageBits ['0'] = 0 := by
  refine ⟨_, (depuncturing_eq_ok_iff ['0'] _).mpr ⟨List.cons_ne_nil _ _, rfl⟩, ?_, rfl⟩
  rw [length_flatten_decoded]
  rfl

end Ssle.PPRF
