import SsleExperiment.Enclave.Conversion
import SsleExperiment.Enclave.Puncturing

/-! # The participant outside the enclave

The leader sends its key punctured. The participant cuts what it received to a
multiple of eighteen characters, which drops what the receive buffer may have
appended, and depunctures the rest (`Ssle.NonSgx.recoverKey_eq`). Both cuts can
leave nothing, and the splitter reads the last block of nothing: the leader's
side is defined from seven-bit values on, the participant's from eighteen
characters on (`Ssle.NonSgx.pipeline_defined_iff`).
-/

namespace Ssle.NonSgx

open PPRF

/-- The correction of the received string: the last `length % 18` characters are
erased. -/
def correct (received : Str) : Except Fault Str :=
  let remain := received.length % 18
  Str.eraseSpan received (received.length - remain) remain

/-- What the leader sends for a PRF value. -/
def punctureKey (words : Nat → UInt32) (v : UInt64) : Except Fault Str := do
  let key ← align (decimalToBinary v)
  puncturing words key

/-- What the participant does with a received key. -/
def recoverKey (received : Str) : Except Fault Str := do
  let received ← correct received
  depuncturing received

/-- The correction cuts off what is no whole block. -/
theorem correct_eq (received : Str) :
    correct received = .ok (received.take (received.length - received.length % 18)) := by
  have cut : received.length - received.length % 18 + received.length % 18 = received.length :=
    Nat.sub_add_cancel (Nat.mod_le _ _)
  simp only [correct, Str.eraseSpan, if_pos (Nat.sub_le received.length _), cut, List.drop_length,
    List.append_nil]

/-- What is appended to whole blocks is cut off. -/
theorem correct_append {sent garbage : Str} (whole : 18 ∣ sent.length)
    (short : garbage.length < 18) : correct (sent ++ garbage) = .ok sent := by
  have size : (sent ++ garbage).length - (sent ++ garbage).length % 18 = sent.length := by
    rw [List.length_append]
    omega
  rw [correct_eq, size, List.take_left]

/-- A punctured key of whole blocks has whole blocks. -/
theorem dvd_length_spoiled (words : Nat → UInt32) {key : Str} (whole : 7 ∣ key.length) :
    18 ∣ (spoiled words key).flatten.length := by
  obtain ⟨count, size⟩ := whole
  rw [List.length_flatten, map_length_spoiled]
  apply List.dvd_sum
  intro length member
  rw [List.map_map] at member
  obtain ⟨block, among, rfl⟩ := List.mem_map.mp member
  rw [Function.comp_apply, Blocks.length_of_mem_blocks (Nat.succ_pos 6)
    (size.trans (Nat.mul_comm _ _)) among]

/-- The aligned key of a PRF value. It is empty when the value has fewer than
seven bits. -/
theorem aligned_key (v : UInt64) :
    ∃ key, align (decimalToBinary v) = .ok key ∧ Binary key ∧ 7 ∣ key.length ∧
      (key ≠ [] ↔ 64 ≤ v) := by
  have long : 7 ≤ (decimalToBinary v).length ↔ 64 ≤ v := by
    rw [decimalToBinary_eq, List.length_reverse, List.length_map, UInt64.le_iff_toNat_le]
    exact Nat.lt_digits_length_iff (by decide) _
  have size : ((decimalToBinary v).take
      ((decimalToBinary v).length - (decimalToBinary v).length % 7)).length =
      (decimalToBinary v).length - (decimalToBinary v).length % 7 :=
    List.length_take_of_le (Nat.sub_le _ _)
  refine ⟨_, align_eq (decimalToBinary v), ?_, ?_, ?_⟩
  · exact Binary.take (binary_decimalToBinary v) _
  · rw [size]
    exact Nat.dvd_sub_mod _
  · rw [← List.length_pos_iff, size, ← long]
    omega

/-- **Recovery of the key.** From a PRF value of at least seven bits, however
the codewords are spoiled and with fewer than eighteen characters appended, the
participant recovers the aligned key. -/
theorem recoverKey_eq (v : UInt64) (large : 64 ≤ v) (words : Nat → UInt32) (garbage : Str)
    (short : garbage.length < 18) :
    ∃ key sent, align (decimalToBinary v) = .ok key ∧ puncturing words key = .ok sent ∧
      recoverKey (sent ++ garbage) = .ok key := by
  obtain ⟨key, aligned, binary, whole, nonempty⟩ := aligned_key v
  have some := nonempty.mpr large
  refine ⟨key, _, aligned, puncturing_eq words some binary, ?_⟩
  rw [recoverKey, correct_append (dvd_length_spoiled words whole) short]
  exact depuncturing_spoiled words some binary

/-- A value of fourteen bits, two blocks of which are sent. -/
theorem recoverKey_eq_of_tenThousand :
    (64 : UInt64) ≤ 10000 ∧ ['g', '1'].length < 18 ∧
    ∃ key sent, align (decimalToBinary 10000) = .ok key ∧ puncturing (fun _ => 5) key = .ok sent ∧
      recoverKey (sent ++ ['g', '1']) = .ok key :=
  ⟨by decide, by decide, recoverKey_eq 10000 (by decide) (fun _ => 5) ['g', '1'] (by decide)⟩

/-! ## Where the pipeline is defined -/

/-- The leader's side is defined from seven bits on. -/
theorem punctureKey_defined_iff (words : Nat → UInt32) (v : UInt64) :
    (∃ sent, punctureKey words v = .ok sent) ↔ 64 ≤ v := by
  obtain ⟨key, aligned, binary, _, nonempty⟩ := aligned_key v
  have unfolded : punctureKey words v = puncturing words key := by
    rw [punctureKey, aligned]
    rfl
  rw [unfolded, ← nonempty]
  refine ⟨fun defined => ?_, fun some => ⟨_, puncturing_eq words some binary⟩⟩
  obtain ⟨sent, returned⟩ := defined
  intro empty
  rw [empty, puncturing, splitBinaryVector_nil] at returned
  cases returned

/-- The participant's side is defined from eighteen characters on. -/
theorem recoverKey_defined_iff (received : Str) :
    (∃ key, recoverKey received = .ok key) ↔ 18 ≤ received.length := by
  have kept : received.take (received.length - received.length % 18) ≠ [] ↔
      18 ≤ received.length := by
    rw [← List.length_pos_iff, List.length_take_of_le (Nat.sub_le _ _)]
    omega
  have unfolded : recoverKey received =
      depuncturing (received.take (received.length - received.length % 18)) := by
    rw [recoverKey, correct_eq]
    rfl
  rw [unfolded, ← kept]
  refine ⟨fun defined => ?_, fun some =>
    ⟨_, (depuncturing_eq_ok_iff _ _).mpr ⟨some, rfl⟩⟩⟩
  obtain ⟨key, returned⟩ := defined
  exact ((depuncturing_eq_ok_iff _ key).mp returned).1

/-- **Where the pipeline is defined.** The leader's side for PRF values of at
least seven bits, the participant's for at least eighteen characters. -/
theorem pipeline_defined_iff (words : Nat → UInt32) (v : UInt64) (received : Str) :
    ((∃ sent, punctureKey words v = .ok sent) ↔ 64 ≤ v) ∧
      ((∃ key, recoverKey received = .ok key) ↔ 18 ≤ received.length) :=
  ⟨punctureKey_defined_iff words v, recoverKey_defined_iff received⟩

/-- The PRF value `5` has three bits, all of which `align` cuts off. -/
theorem undefined_pipeline :
    punctureKey (fun _ => 0) 5 = .error .indexOutOfRange ∧
      recoverKey ['1', '0'] = .error .indexOutOfRange :=
  ⟨by decide, by decide⟩

end Ssle.NonSgx
