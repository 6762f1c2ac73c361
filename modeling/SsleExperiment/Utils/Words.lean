import SsleExperiment.NonSgx.Commitment
import SsleExperiment.Utils.Decoders

/-! # Words and their bit strings

The converters for 32-bit numbers stand beside those for 64-bit numbers in both
`utils.cpp`. `binaryToString`, `uint32ToBinString` and `b2s` print a word alike, and
`stringToUint32` reads it back; a bit string that fits is read to the word that
prints it with zeros in front (`Ssle.Utils.words_cohere`). `stou` reads with
`std::stoul`: it throws where `stringToUint32` does not, and on strings of more than
32 characters both may return, and differ (`Ssle.Utils.readers_agree_iff`). The
commitment to a string masks the word read with a random one: it can be every word,
each through one mask (`Ssle.SSLEObfuscation.exists_commitString_iff`).
-/

namespace Ssle.Utils

open PPRF NonSgx

/-- `binaryToString`. -/
def binaryToString (bs : UInt32) : Str :=
  (List.range 32).map fun i =>
    if bs &&& (1 <<< UInt32.ofNat (32 - 1 - i)) ≠ 0 then '1' else '0'

/-- `stringToUint32`. -/
def stringToUint32 (binaryString : Str) : Except Fault UInt32 := do
  let binaryNum ← Bitset.ofString 32 binaryString
  return UInt32.ofBitVec binaryNum

/-- `uint32ToBinString`. -/
def uint32ToBinString (num : UInt32) : Str := Bitset.toString num.toBitVec

/-- `ucharToUint32`. -/
def ucharToUint32 (data : List UInt8) : Except Fault UInt32 :=
  (List.range 4).foldlM
    (fun result i => do
      let byte ← loadAt data i
      return result ||| byte.toUInt32 <<< UInt32.ofNat (i * 8)) 0

/-- The bytes of a word in memory. -/
def bytesOf (num : UInt32) : List UInt8 :=
  (List.range 4).map fun i => (num >>> UInt32.ofNat (i * 8)).toUInt8

/-! ## Printing -/

theorem binaryToString_eq (bs : UInt32) : binaryToString bs = uint32ToBinString bs := by
  rw [uint32ToBinString, ← b2s_eq_toString]
  refine List.map_congr_left fun i _ => ?_
  rw [Nat.sub_right_comm]

theorem binary_uint32ToBinString (num : UInt32) : Binary (uint32ToBinString num) :=
  Bitset.binary_toString _

@[simp] theorem length_uint32ToBinString (num : UInt32) : (uint32ToBinString num).length = 32 :=
  Bitset.length_toString _

theorem bitValue_uint32ToBinString (num : UInt32) : bitValue (uint32ToBinString num) = num.toNat :=
  Bitset.bitValue_toString _

/-! ## Reading -/

/-- Only the first 32 characters are read. -/
theorem stringToUint32_eq {s : Str} (binary : Binary s) :
    stringToUint32 s = .ok (UInt32.ofNat (bitValue (s.take 32))) := by
  rw [stringToUint32, Bitset.ofString_eq binary]
  rfl

theorem stringToUint32_uint32ToBinString (num : UInt32) :
    stringToUint32 (uint32ToBinString num) = .ok num := by
  rw [stringToUint32_eq (binary_uint32ToBinString num),
    List.take_of_length_le (length_uint32ToBinString num).le, bitValue_uint32ToBinString,
    UInt32.ofNat_toNat]

theorem bitValue_take_lt (s : Str) : bitValue (s.take 32) < 2 ^ 32 :=
  (bitValue_lt _).trans_le (Nat.pow_le_pow_right Nat.two_pos (List.length_take_le 32 s))

/-- The word read from a string that fits prints it with zeros in front. -/
theorem uint32ToBinString_ofNat {s : Str} (binary : Binary s) (fits : s.length ≤ 32) :
    uint32ToBinString (UInt32.ofNat (bitValue s)) = List.replicate (32 - s.length) '0' ++ s := by
  have small := List.take_of_length_le fits ▸ bitValue_take_lt s
  apply bitValue_inj (binary_uint32ToBinString _) (binary_replicate_append binary _)
  · rw [length_uint32ToBinString, List.length_append, List.length_replicate,
      Nat.sub_add_cancel fits]
  · rw [bitValue_uint32ToBinString, bitValue_replicate_append, UInt32.toNat_ofNat_of_lt' small]

/-- A bit string is read as its value, if that fits 64 bits. -/
theorem stoul_eq {s : Str} (binary : Binary s) (some : s ≠ []) :
    stoul 2 s = if bitValue s < 2 ^ 64 then .ok (UInt64.ofNat (bitValue s))
      else .error .outOfRange := by
  have reads := hexDigit_of_binary binary
  by_cases small : bitValue s < 2 ^ 64
  · rw [if_pos small]
    exact stoul_of_reads reads some bitDigit_lt small
  · have digits : s.map bitDigit ≠ [] := fun empty => some (List.map_eq_nil_iff.mp empty)
    rw [if_neg small, stoul, readSign_of_reads reads]
    simp only
    rw [readDigits_eq_map reads bitDigit_lt, if_neg digits]
    exact if_pos (Nat.le_of_not_lt small)

theorem stou_nil : stou [] 2 = .error .invalidArgument := rfl

/-- `stou` returns the value of a string, if that is a word. -/
theorem stou_eq_ok_iff {s : Str} (binary : Binary s) (n : UInt32) :
    stou s 2 = .ok n ↔ s ≠ [] ∧ bitValue s < 2 ^ 32 ∧ UInt32.ofNat (bitValue s) = n := by
  by_cases some : s = []
  · rw [some, stou_nil]
    exact iff_of_false (fun returned => by cases returned) fun all => all.1 rfl
  rw [and_iff_right some, stou, stoul_eq binary some]
  by_cases small : bitValue s < 2 ^ 64
  · rw [if_pos small, ok_bind, UInt64.toNat_ofNat_of_lt' small]
    by_cases word : bitValue s < 2 ^ 32
    · rw [if_neg (by omega), and_iff_right word, ← UInt64.toUInt32_ofNat']
      change Except.ok _ = Except.ok n ↔ _
      rw [Except.ok.injEq]
    · rw [if_pos (by omega)]
      exact iff_of_false (fun returned => by cases returned) fun both => word both.1
  · rw [if_neg small, error_bind]
    exact iff_of_false (fun returned => by cases returned) fun both =>
      small (both.1.trans (by decide))

/-! ## Bytes -/

/-- One byte is added above the ones read before. -/
theorem toNat_or_shiftLeft {result : UInt32} {i : Nat} (inside : i < 4)
    (below : result.toNat < 2 ^ (i * 8)) (byte : UInt8) :
    (result ||| byte.toUInt32 <<< UInt32.ofNat (i * 8)).toNat =
      result.toNat + 2 ^ (i * 8) * byte.toNat := by
  have room : byte.toNat * 2 ^ (i * 8) < 2 ^ 32 := by
    have small := byte.toNat_lt
    interval_cases i <;> omega
  have shift : (UInt32.ofNat (i * 8)).toNat % 32 = i * 8 := by
    interval_cases i <;> rfl
  rw [UInt32.toNat_or, UInt32.toNat_shiftLeft, UInt8.toNat_toUInt32, shift, Nat.shiftLeft_eq,
    Nat.mod_eq_of_lt room, Nat.or_comm, Nat.mul_comm, ← Nat.two_pow_add_eq_or_of_lt below,
    Nat.add_comm]

/-- The loop of `ucharToUint32` after some bytes, the lowest first. -/
theorem foldlM_bytes {data : List UInt8} {count : Nat} (few : count ≤ 4)
    (long : count ≤ data.length) :
    ∃ result : UInt32, (List.range count).foldlM
        (fun result i => do
          let byte ← loadAt data i
          return result ||| byte.toUInt32 <<< UInt32.ofNat (i * 8)) 0 = .ok result ∧
      result.toNat = Nat.ofDigits (2 ^ 8) ((data.take count).map UInt8.toNat) := by
  induction count with
  | zero => exact ⟨0, rfl, rfl⟩
  | succ count ih =>
      obtain ⟨result, returned, value⟩ := ih (Nat.le_of_succ_le few) (Nat.le_of_succ_le long)
      have byte : loadAt data count = .ok data[count] := by
        rw [loadAt, List.getElem?_eq_getElem long]
      have size : ((data.take count).map UInt8.toNat).length = count := by
        rw [List.length_map, List.length_take, Nat.min_eq_left (Nat.le_of_succ_le long)]
      have below : result.toNat < 2 ^ (count * 8) := by
        rw [value, Nat.mul_comm, pow_mul]
        conv_rhs => rw [← size]
        refine Nat.ofDigits_lt_base_pow_length (by decide) fun digit member => ?_
        obtain ⟨byte, -, rfl⟩ := List.mem_map.mp member
        exact byte.toNat_lt
      refine ⟨_, ?_, toNat_or_shiftLeft few below data[count] |>.trans ?_⟩
      · rw [List.range_succ, List.foldlM_append, returned, ok_bind, List.foldlM_cons, byte, ok_bind]
        rfl
      · rw [value, List.take_succ_eq_append_getElem long, List.map_append, List.map_singleton,
          Nat.ofDigits_append, Nat.ofDigits_singleton, size, ← pow_mul, Nat.mul_comm 8]

/-- The first four bytes are read as the word. -/
theorem ucharToUint32_bytesOf (num : UInt32) (rest : List UInt8) :
    ucharToUint32 (bytesOf num ++ rest) = .ok num := by
  obtain ⟨result, returned, value⟩ := @foldlM_bytes (bytesOf num ++ rest) 4 (Nat.le_refl 4)
    (by simp [bytesOf])
  have low := num.toNat_lt
  have same : result.toNat = num.toNat := by
    rw [value, List.take_left' (by simp [bytesOf])]
    change Nat.ofDigits (2 ^ 8) [num.toNat >>> 0 % 2 ^ 8, num.toNat >>> 8 % 2 ^ 8,
      num.toNat >>> 16 % 2 ^ 8, num.toNat >>> 24 % 2 ^ 8] = num.toNat
    simp only [Nat.ofDigits_cons, Nat.ofDigits_nil, Nat.shiftRight_eq_div_pow]
    omega
  rw [ucharToUint32, returned, UInt32.toNat_inj.mp same]

/-! ## Agreement -/

/-- **Coherence.** The three printers agree on every word. Every reader returns the
word that was printed, or that was stored in memory. A bit string that fits is read
to a word that prints it with zeros in front. -/
theorem words_cohere (num : UInt32) :
    (binaryToString num = uint32ToBinString num ∧ b2s num = uint32ToBinString num) ∧
    (stringToUint32 (uint32ToBinString num) = .ok num ∧
      stou (uint32ToBinString num) 2 = .ok num ∧
      ∀ rest, ucharToUint32 (bytesOf num ++ rest) = .ok num) ∧
    ∀ s, Binary s → s.length ≤ 32 → ∃ read, stringToUint32 s = .ok read ∧
      uint32ToBinString read = List.replicate (32 - s.length) '0' ++ s := by
  refine ⟨⟨binaryToString_eq num, b2s_eq_toString num⟩,
    ⟨stringToUint32_uint32ToBinString num, ?_, ucharToUint32_bytesOf num⟩,
    fun s binary fits => ?_⟩
  · have some : uint32ToBinString num ≠ [] := by
      rw [← List.length_pos_iff, length_uint32ToBinString]
      decide
    rw [stou_eq_ok_iff (binary_uint32ToBinString num), bitValue_uint32ToBinString]
    exact ⟨some, num.toNat_lt, UInt32.ofNat_toNat⟩
  · have read := stringToUint32_eq binary
    rw [List.take_of_length_le fits] at read
    exact ⟨_, read, uint32ToBinString_ofNat binary fits⟩

/-- What `stringToUint32` keeps of a bit string has its value exactly when the string
fits or has only zeros. -/
theorem bitValue_take_word_iff {s : Str} (binary : Binary s) :
    bitValue (s.take 32) = bitValue s ↔ s.length ≤ 32 ∨ ∀ c ∈ s, c = '0' := by
  by_cases fits : s.length ≤ 32
  · exact iff_of_true (by rw [List.take_of_length_le fits]) (.inl fits)
  · rw [bitValue_take_eq_iff (Nat.lt_of_not_le fits), bitValue_eq_zero_iff binary,
      or_iff_right fits]

/-- The readers agree if what one of them leaves out does not count. -/
theorem stou_iff_stringToUint32 {s : Str} (binary : Binary s) :
    (∀ n, stou s 2 = .ok n ↔ stringToUint32 s = .ok n) ↔
      s ≠ [] ∧ bitValue (s.take 32) = bitValue s := by
  have below := bitValue_take_lt s
  simp only [stringToUint32_eq binary, stou_eq_ok_iff binary, Except.ok.injEq]
  constructor
  · intro same
    obtain ⟨some, word, equal⟩ := (same _).mpr rfl
    have values := congrArg UInt32.toNat equal
    rw [UInt32.toNat_ofNat_of_lt' word, UInt32.toNat_ofNat_of_lt' below] at values
    exact ⟨some, values.symm⟩
  · rintro ⟨some, values⟩ n
    rw [values] at below ⊢
    rw [and_iff_right some, and_iff_right below]

/-- Different words are returned for the long strings of a value that is not zero and
fits. -/
theorem readers_differ_iff {s : Str} (binary : Binary s) :
    (∃ m n, stou s 2 = .ok m ∧ stringToUint32 s = .ok n ∧ m ≠ n) ↔
      32 < s.length ∧ bitValue s ≠ 0 ∧ bitValue s < 2 ^ 32 := by
  have below := bitValue_take_lt s
  constructor
  · rintro ⟨m, n, stou, read, differ⟩
    obtain ⟨-, word, value⟩ := (stou_eq_ok_iff binary m).mp stou
    rw [stringToUint32_eq binary, Except.ok.injEq] at read
    have values : bitValue (s.take 32) ≠ bitValue s := fun same =>
      differ (value.symm.trans (same ▸ read))
    have long : 32 < s.length := Nat.lt_of_not_le fun fits =>
      values (by rw [List.take_of_length_le fits])
    exact ⟨long, fun zero => values ((bitValue_take_eq_iff long).mpr zero), word⟩
  · rintro ⟨long, some, word⟩
    have nonempty : s ≠ [] := List.ne_nil_of_length_pos (Nat.zero_lt_of_lt long)
    refine ⟨_, _, (stou_eq_ok_iff binary _).mpr ⟨nonempty, word, rfl⟩,
      stringToUint32_eq binary, fun same => some ((bitValue_take_eq_iff long).mp ?_)⟩
    have values := congrArg UInt32.toNat same
    rw [UInt32.toNat_ofNat_of_lt' word, UInt32.toNat_ofNat_of_lt' below] at values
    exact values.symm

/-- **Agreement of the readers.** `stou` and `stringToUint32` return the same word
for a bit string exactly when it is not empty and either fits or has only zeros.
`stringToUint32` returns for every bit string, and `stou` for those of a value below
`2^32` that are not empty. Both return, and differ, exactly for the strings of more
than 32 characters whose value is below `2^32` and not zero. -/
theorem readers_agree_iff (s : Str) (binary : Binary s) :
    ((∀ n, stou s 2 = .ok n ↔ stringToUint32 s = .ok n) ↔
      s ≠ [] ∧ (s.length ≤ 32 ∨ ∀ c ∈ s, c = '0')) ∧
    (∃ n, stringToUint32 s = .ok n) ∧
    ((∃ n, stou s 2 = .ok n) ↔ s ≠ [] ∧ bitValue s < 2 ^ 32) ∧
    ((∃ m n, stou s 2 = .ok m ∧ stringToUint32 s = .ok n ∧ m ≠ n) ↔
      32 < s.length ∧ bitValue s ≠ 0 ∧ bitValue s < 2 ^ 32) := by
  refine ⟨?_, ⟨_, stringToUint32_eq binary⟩, ⟨?_, ?_⟩, readers_differ_iff binary⟩
  · rw [stou_iff_stringToUint32 binary, bitValue_take_word_iff binary]
  · rintro ⟨n, returned⟩
    obtain ⟨some, word, -⟩ := (stou_eq_ok_iff binary n).mp returned
    exact ⟨some, word⟩
  · rintro ⟨some, word⟩
    exact ⟨_, (stou_eq_ok_iff binary _).mpr ⟨some, word, rfl⟩⟩

/-- A one behind 32 zeros, which `stringToUint32` does not read. -/
theorem readers_agree_iff_of_one :
    Binary (List.replicate 32 '0' ++ ['1']) ∧
    (¬ ∀ n, stou (List.replicate 32 '0' ++ ['1']) 2 = .ok n ↔
      stringToUint32 (List.replicate 32 '0' ++ ['1']) = .ok n) ∧
    ∃ m n, stou (List.replicate 32 '0' ++ ['1']) 2 = .ok m ∧
      stringToUint32 (List.replicate 32 '0' ++ ['1']) = .ok n ∧ m ≠ n := by
  have binary : Binary (List.replicate 32 '0' ++ ['1']) := by simp [Binary]
  obtain ⟨agree, -, -, differ⟩ := readers_agree_iff (List.replicate 32 '0' ++ ['1']) binary
  exact ⟨binary, fun same => absurd (agree.mp same) (by simp), differ.mpr (by decide)⟩

end Ssle.Utils

namespace Ssle.SSLEObfuscation

open PPRF Utils

/-! ## The commitment to a string -/

/-- `commit(val)`, with the random word `randVal`. -/
def commitString (randVal : UInt32) (val : Str) : Except Fault Str := do
  let input ← stringToUint32 val
  return uint32ToBinString (input ^^^ randVal)

theorem commitString_eq {val : Str} {input : UInt32} (read : stringToUint32 val = .ok input)
    (randVal : UInt32) :
    commitString randVal val = .ok (uint32ToBinString (input ^^^ randVal)) := by
  rw [commitString, read]
  rfl

/-- **The commitment to a string.** Whatever bit string is committed to, the
commitment is one of the strings of 32 bits, each of them through one random word,
and it is opened by that word only. -/
theorem exists_commitString_iff (val : Str) (binary : Binary val) (committed : Str) :
    ∃ input, stringToUint32 val = .ok input ∧
      ((∃! randVal, commitString randVal val = .ok committed) ↔
        committed.length = 32 ∧ Binary committed) ∧
      ∀ randVal, commitString randVal val = .ok committed ↔
        committed.length = 32 ∧ Binary committed ∧
          stringToUint32 committed = .ok (input ^^^ randVal) := by
  have read := stringToUint32_eq binary
  have opened (randVal : UInt32) : commitString randVal val = .ok committed ↔
      committed.length = 32 ∧ Binary committed ∧ stringToUint32 committed =
        .ok (UInt32.ofNat (bitValue (val.take 32)) ^^^ randVal) := by
    rw [commitString_eq read, Except.ok.injEq]
    constructor
    · rintro rfl
      exact ⟨length_uint32ToBinString _, binary_uint32ToBinString _,
        stringToUint32_uint32ToBinString _⟩
    · rintro ⟨size, binary', returned⟩
      rw [stringToUint32_eq binary', List.take_of_length_le size.le, Except.ok.injEq] at returned
      rw [← returned, uint32ToBinString_ofNat binary' size.le, size]
      rfl
  refine ⟨_, read, ⟨fun ⟨randVal, returned, _⟩ => ?_, fun ⟨size, binary'⟩ => ?_⟩, opened⟩
  · exact ⟨((opened randVal).mp returned).1, ((opened randVal).mp returned).2.1⟩
  · refine ⟨UInt32.ofNat (bitValue (val.take 32)) ^^^ UInt32.ofNat (bitValue committed),
      (opened _).mpr ⟨size, binary', ?_⟩, fun other returned => ?_⟩
    · rw [stringToUint32_eq binary', List.take_of_length_le size.le, ← UInt32.xor_assoc,
        UInt32.xor_self, UInt32.zero_xor]
    · have masked := ((opened other).mp returned).2.2
      rw [stringToUint32_eq binary', List.take_of_length_le size.le, Except.ok.injEq] at masked
      rw [masked, ← UInt32.xor_assoc, UInt32.xor_self, UInt32.zero_xor]

theorem exists_commitString_iff_of_two :
    Binary ['1', '0'] ∧
    ∃ input, stringToUint32 ['1', '0'] = .ok input ∧
      ((∃! randVal, commitString randVal ['1', '0'] = .ok (uint32ToBinString 7)) ↔
        (uint32ToBinString 7).length = 32 ∧ Binary (uint32ToBinString 7)) ∧
      ∀ randVal, commitString randVal ['1', '0'] = .ok (uint32ToBinString 7) ↔
        (uint32ToBinString 7).length = 32 ∧ Binary (uint32ToBinString 7) ∧
          stringToUint32 (uint32ToBinString 7) = .ok (input ^^^ randVal) :=
  ⟨by simp [Binary], exists_commitString_iff ['1', '0'] (by simp [Binary]) (uint32ToBinString 7)⟩

end Ssle.SSLEObfuscation
