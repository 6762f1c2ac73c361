import SsleExperiment.App.Communication
import SsleExperiment.Enclave.Conversion
import SsleExperiment.Enclave.Hex

/-! # Numbers and their bit strings

A 64-bit number is written as a bit string by `decimalToBinary`, without leading
zeros, and by `uint64ToBinString`. Both strings have the value of the number
(`Ssle.Utils.Writes`), and every one of `stringToUint64`, `binStringToBitset` and
the two hexadecimal conversions of the enclave reads a string by its value
(`Ssle.Utils.conversions_cohere`).
-/

namespace Ssle.Utils

open PPRF App

/-- `stringToUint64`. -/
def stringToUint64 (binaryString : Str) : Except Fault UInt64 := do
  let bits ← Bitset.ofString 64 binaryString
  return UInt64.ofBitVec bits

/-- One character of `binStringToBitset`. -/
def setIfOne (c : Char) (index : Int) (bitset : BitVec 64) : Except Fault (BitVec 64) :=
  if c = '1' then Bitset.set bitset (sizeOfInt index) else .ok bitset

/-- The loop of `binStringToBitset`, over the reversed string. -/
def bitsetLoop : Str → Int → BitVec 64 → Except Fault (BitVec 64)
  | [], _, bitset => .ok bitset
  | c :: rest, index, bitset => do
      let bitset ← setIfOne c index bitset
      let index ← intResult (index + 1)
      bitsetLoop rest index bitset

/-- `binStringToBitset`. -/
def binStringToBitset (binaryString : Str) : Except Fault (BitVec 64) :=
  bitsetLoop binaryString.reverse 0 0

/-! ## Reading -/

/-- A bit string that fits is read as its value. -/
theorem stringToUint64_eq {s : Str} (binary : Binary s) (fits : s.length ≤ 64) :
    stringToUint64 s = .ok (UInt64.ofNat (bitValue s)) := by
  rw [stringToUint64, Bitset.ofString_of_le binary fits]
  rfl

theorem set_ofNat {value pos : Nat} (below : value < 2 ^ pos) (inside : pos < 64) :
    Bitset.set (BitVec.ofNat 64 value) pos = .ok (BitVec.ofNat 64 (1 * 2 ^ pos + value)) := by
  rw [Bitset.set, if_pos inside]
  apply congrArg Except.ok
  apply BitVec.eq_of_toNat_eq
  have small : 1 * 2 ^ pos + value < 2 ^ 64 := by
    have double := Nat.pow_le_pow_right Nat.two_pos (Nat.succ_le_of_lt inside)
    rw [pow_succ] at double
    omega
  rw [BitVec.toNat_or, BitVec.toNat_twoPow, BitVec.toNat_ofNat, BitVec.toNat_ofNat,
    Nat.mod_eq_of_lt small, Nat.mod_eq_of_lt (by omega), Nat.mod_eq_of_lt (by omega), Nat.or_comm,
    Nat.one_mul, ← Nat.mul_one (2 ^ pos), ← Nat.two_pow_add_eq_or_of_lt below]

/-- One character adds its bit to the value read so far. -/
theorem setIfOne_eq {c : Char} {read : Str} (bit : c = '0' ∨ c = '1') (inside : read.length < 64) :
    setIfOne c read.length (BitVec.ofNat 64 (bitValue read)) =
      .ok (BitVec.ofNat 64 (bitValue (c :: read))) := by
  rw [bitValue_cons]
  rcases bit with rfl | rfl
  · change Except.ok _ = Except.ok (BitVec.ofNat 64 (0 * _ + _))
    rw [Nat.zero_mul, Nat.zero_add]
  · unfold setIfOne
    rw [if_pos rfl, sizeOfInt_natCast (by omega), set_ofNat (bitValue_lt read) inside]
    rfl

/-- The characters that fit the bitset are added to those read before them. -/
theorem bitsetLoop_append {rest read : Str} (binary : Binary rest)
    (fits : rest.length + read.length ≤ 64) (later : Str) :
    bitsetLoop (rest ++ later) read.length (BitVec.ofNat 64 (bitValue read)) =
      bitsetLoop later (rest.reverse ++ read).length
        (BitVec.ofNat 64 (bitValue (rest.reverse ++ read))) := by
  induction rest generalizing read with
  | nil => rfl
  | cons c rest ih =>
      have bit := binary c List.mem_cons_self
      have others : Binary rest := fun d member => binary d (List.mem_cons_of_mem c member)
      have next : (read.length : Int) + 1 = (c :: read).length := rfl
      have room : rest.length + (c :: read).length ≤ 64 := by
        rw [List.length_cons] at fits ⊢
        omega
      rw [List.length_cons] at fits
      rw [List.cons_append, bitsetLoop, setIfOne_eq bit (by omega), ok_bind,
        intResult_of_small (by omega) (by omega), ok_bind, next, ih others room,
        List.reverse_cons, List.append_assoc]
      rfl

/-- A bit string that fits is read as its value by the other decoder, too. -/
theorem binStringToBitset_eq {s : Str} (binary : Binary s) (fits : s.length ≤ 64) :
    binStringToBitset s = .ok (BitVec.ofNat 64 (bitValue s)) := by
  have looped := @bitsetLoop_append s.reverse [] binary.reverse (by simpa using fits) []
  rwa [List.append_nil, List.append_nil, List.reverse_reverse] at looped

/-- A bit string that can be padded is read as its value modulo `2^64`. -/
theorem hexToDecimal_binaryToHex {s : Str} (binary : Binary s) (short : s.length + 3 < 2 ^ 31) :
    (PPRF.binaryToHex s >>= hexToDecimal) = .ok (UInt64.ofNat (bitValue s)) := by
  have size : intOfSize s.length = s.length := intOfSize_of_lt (by omega)
  have all : s.take (s.length : Int).toNat = s := List.take_length
  rw [PPRF.binaryToHex_eq binary, size, if_pos (by omega), ok_bind, all,
    hexToDecimal_eq (nibbles_lt s) (by rw [length_nibbles]; omega), value_nibbles]

/-! ## Writing -/

/-- A bit string of at most 64 characters with the value of a number. -/
structure Writes (n : UInt64) (s : Str) : Prop where
  binary : Binary s
  fits : s.length ≤ 64
  value : bitValue s = n.toNat

/-- The shortest digits write a number. -/
theorem writes_decimalToBinary (n : UInt64) : Writes n (decimalToBinary n) where
  binary := binary_decimalToBinary n
  fits := length_decimalToBinary_le n
  value := by
    have digits : (Nat.digits 2 n.toNat).map (bitDigit ∘ digitChar) = Nat.digits 2 n.toNat := by
      refine (List.map_congr_left fun digit member => ?_).trans (List.map_id _)
      have below := Nat.digits_lt_base Nat.one_lt_two member
      unfold Function.comp
      interval_cases digit <;> rfl
    rw [decimalToBinary_eq, bitValue, List.map_reverse, List.map_map, digits,
      Numerals.value_digits]

/-- The digits of the bitset write a number. -/
theorem writes_uint64ToBinString (n : UInt64) : Writes n (uint64ToBinString n) where
  binary := Bitset.binary_toString n.toBitVec
  fits := Nat.le_of_eq (length_uint64ToBinString n)
  value := Bitset.bitValue_toString n.toBitVec

/-- Every reader returns the number that a string writes. -/
theorem Writes.read {n : UInt64} {s : Str} (writes : Writes n s) :
    stringToUint64 s = .ok n ∧
      (binStringToBitset s).map UInt64.ofBitVec = .ok n ∧
      (PPRF.binaryToHex s >>= hexToDecimal) = .ok n := by
  obtain ⟨binary, fits, value⟩ := writes
  have number : UInt64.ofNat (bitValue s) = n := by rw [value, UInt64.ofNat_toNat]
  refine ⟨?_, ?_, ?_⟩
  · rw [stringToUint64_eq binary fits, number]
  · rw [binStringToBitset_eq binary fits]
    exact congrArg Except.ok number
  · rw [hexToDecimal_binaryToHex binary (by omega), number]

/-- **Coherence.** Through hexadecimal digits, a bit string is read as its value
modulo `2^64`, and all readers undo both writers. -/
theorem conversions_cohere :
    (∀ b, Binary b → b.length + 3 < 2 ^ 31 →
      (PPRF.binaryToHex b >>= hexToDecimal) = .ok (UInt64.ofNat (bitValue b))) ∧
    ∀ n : UInt64, ∀ encoded ∈ [decimalToBinary n, uint64ToBinString n],
      stringToUint64 encoded = .ok n ∧
        (binStringToBitset encoded).map UInt64.ofBitVec = .ok n ∧
        (PPRF.binaryToHex encoded >>= hexToDecimal) = .ok n := by
  refine ⟨fun b binary short => hexToDecimal_binaryToHex binary short, ?_⟩
  intro n encoded member
  rcases List.mem_cons.mp member with rfl | last
  · exact (writes_decimalToBinary n).read
  · rw [List.mem_singleton.mp last]
    exact (writes_uint64ToBinString n).read

theorem conversions_cohere_of_five :
    (PPRF.binaryToHex "10111".toList >>= hexToDecimal) = .ok 23 ∧
    (stringToUint64 (decimalToBinary 23) = .ok 23 ∧
      (PPRF.binaryToHex (decimalToBinary 23) >>= hexToDecimal) = .ok 23) ∧
    stringToUint64 (uint64ToBinString 23) = .ok 23 ∧
      (binStringToBitset (uint64ToBinString 23)).map UInt64.ofBitVec = .ok 23 := by
  obtain ⟨digits, read⟩ := conversions_cohere
  obtain ⟨decimal, -, hex⟩ := read 23 (decimalToBinary 23) List.mem_cons_self
  obtain ⟨word, bitset, -⟩ := read 23 (uint64ToBinString 23) (List.mem_cons_of_mem _
    (List.mem_singleton_self _))
  exact ⟨digits "10111".toList (by simp [Binary]) (by decide), ⟨decimal, hex⟩, word, bitset⟩

end Ssle.Utils
