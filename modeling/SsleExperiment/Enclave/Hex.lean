import Mathlib.Tactic.IntervalCases
import SsleExperiment.Cpp.Bitset
import SsleExperiment.Enclave.Puncturing

/-! # Hexadecimal numbers in the enclave

`binaryToHex` pads a bit string on the left and prints its nibbles
(`Ssle.PPRF.binaryToHex_eq`). `hexToDecimal` adds up the digits from the right,
each with its power of sixteen; sum and power wrap around
(`Ssle.PPRF.hexToDecimal_eq`), so that the last sixteen characters decide
(`Ssle.PPRF.hexToDecimal_eq_last`). Both keep the length of the string in an `int`.
-/

namespace Ssle.PPRF

/-- One character of the loop of `hexToDecimal`. -/
def hexStep (c : Char) (state : UInt64 × UInt64) : UInt64 × UInt64 :=
  let (ret, base) := state
  let ret :=
    if '0' ≤ c ∧ c ≤ '9' then ret + UInt64.ofNat (c.toNat - '0'.toNat) * base
    else if 'a' ≤ c ∧ c ≤ 'f' then ret + UInt64.ofNat (c.toNat - 'a'.toNat + 10) * base
    else if 'A' ≤ c ∧ c ≤ 'F' then ret + UInt64.ofNat (c.toNat - 'A'.toNat + 10) * base
    else ret
  (ret, base * 16)

/-- `hexToDecimal`. The index runs from the last character down to the first. -/
def hexToDecimal (sarg : Str) : Except Fault UInt64 := do
  let last ← intResult (intOfSize sarg.length - 1)
  return ((sarg.take (last + 1).toNat).foldr hexStep (0, 1)).1

/-- The padding loop of `binaryToHex`, for at most `fuel` tests. -/
def padLoop : Nat → Str → Int → Except Fault (Str × Int)
  | 0, _, _ => .error .endlessLoop
  | fuel + 1, inBin, len =>
      if len.tmod 4 ≠ 0 then do
        let len ← intResult (len + 1)
        padLoop fuel ('0' :: inBin) len
      else .ok (inBin, len)

/-- One bit of a nibble, which is a byte. -/
def nibbleStep (nibble : UInt8) (c : Char) : UInt8 :=
  (nibble <<< 1) + UInt8.ofInt ((c.toNat : Int) - '0'.toNat)

/-- The character of a nibble. -/
def hexChar (nibble : UInt8) : Char :=
  if nibble < 10 then Char.ofNat (nibble + UInt8.ofNat '0'.toNat).toNat
  else Char.ofNat (nibble - 10 + UInt8.ofNat 'a'.toNat).toNat

/-- `binaryToHex`: four characters at a time below the padded length. -/
def binaryToHex (inBin : Str) : Except Fault Str := do
  let (inBin, len) ← padLoop 4 inBin (intOfSize inBin.length)
  return (Blocks.blocks 4 (inBin.take len.toNat)).map fun bits =>
    hexChar (bits.foldl nibbleStep 0)

/-! ## From digits to a number -/

/-- A digit is added at its place. -/
theorem hexStep_digitChar {digit : Nat} (below : digit < 16) (ret base : UInt64) :
    hexStep digit.digitChar (ret, base) = (ret + UInt64.ofNat digit * base, base * 16) := by
  unfold hexStep
  interval_cases digit <;> rfl

/-- The digits are added up to their value. -/
theorem foldr_hexStep {digits : List Nat} (below : ∀ digit ∈ digits, digit < 16) :
    (digits.map Nat.digitChar).foldr hexStep (0, 1) =
      (UInt64.ofNat (Numerals.value 16 digits), UInt64.ofNat (16 ^ digits.length)) := by
  induction digits with
  | nil => rfl
  | cons digit digits ih =>
      rw [List.forall_mem_cons] at below
      rw [List.map_cons, List.foldr_cons, ih below.2, hexStep_digitChar below.1,
        Numerals.value_cons, List.length_cons, pow_succ, UInt64.ofNat_add, UInt64.ofNat_mul,
        UInt64.ofNat_mul, UInt64.add_comm]
      rfl

/-- **Decoding.** The digits are read as their value modulo `2^64`. -/
theorem hexToDecimal_eq {digits : List Nat} (below : ∀ digit ∈ digits, digit < 16)
    (short : digits.length < 2 ^ 31) :
    hexToDecimal (digits.map Nat.digitChar) =
      .ok (UInt64.ofNat (Numerals.value 16 digits)) := by
  have size : intOfSize (digits.map Nat.digitChar).length = digits.length := by
    rw [List.length_map, intOfSize_of_lt short]
  have all : (digits.map Nat.digitChar).take ((digits.length : Int) - 1 + 1).toNat =
      digits.map Nat.digitChar := by
    apply List.take_of_length_le
    rw [List.length_map, Int.sub_add_cancel, Int.toNat_natCast]
  rw [hexToDecimal, size, intResult_of_small (by omega) (by omega), ok_bind, all,
    foldr_hexStep below]
  rfl

/-! ## From bits to digits -/

/-- The loop prepends `count` zeros, if the length reaches the next multiple of
four without overflow. -/
theorem padLoop_eq {fuel count : Nat} {len : Int} (whole : (len + count) % 4 = 0)
    (least : count < 4) (enough : count < fuel) (low : -2 ^ 31 ≤ len) (high : len < 2 ^ 31)
    (inBin : Str) :
    padLoop fuel inBin len =
      if len + count < 2 ^ 31 then .ok (List.replicate count '0' ++ inBin, len + count)
      else .error .signedOverflow := by
  induction count generalizing fuel len inBin with
  | zero =>
      obtain ⟨fuel, rfl⟩ := Nat.exists_eq_succ_of_ne_zero (Nat.ne_of_gt enough)
      have aligned : len.tmod 4 = 0 := by
        apply Int.tmod_eq_zero_of_dvd
        apply Int.dvd_of_emod_eq_zero
        simpa using whole
      rw [padLoop, if_neg (not_not.mpr aligned), if_pos (by simpa using high)]
      simp
  | succ count ih =>
      obtain ⟨fuel, rfl⟩ := Nat.exists_eq_succ_of_ne_zero (Nat.ne_of_gt (Nat.zero_lt_of_lt enough))
      have unaligned : len.tmod 4 ≠ 0 := by
        intro zero
        have divides := Int.dvd_of_tmod_eq_zero zero
        omega
      have regrouped : len + (count + 1 : Nat) = len + 1 + count := by omega
      rw [padLoop, if_pos unaligned, regrouped]
      by_cases room : len + 1 < 2 ^ 31
      · rw [intResult_of_small (by omega) room, ok_bind,
          ih (by rw [← regrouped]; exact whole) (Nat.lt_of_succ_lt least)
            (Nat.lt_of_succ_lt_succ enough) (by omega) room]
        have shifted : List.replicate count '0' ++ '0' :: inBin =
            List.replicate (count + 1) '0' ++ inBin := by
          rw [List.replicate_succ', List.append_assoc]
          rfl
        rw [shifted]
      · rw [intResult_of_large (Int.not_lt.mp room), error_bind, if_neg (by omega)]

/-- A bit is shifted in. -/
theorem nibbleStep_eq (value : Nat) {c : Char} (bit : c = '0' ∨ c = '1') :
    nibbleStep (UInt8.ofNat value) c = UInt8.ofNat (value * 2 + bitDigit c) := by
  have shift : UInt8.ofNat value <<< 1 = UInt8.ofNat (value * 2) := by
    rw [← UInt8.toNat_inj, UInt8.toNat_shiftLeft, UInt8.toNat_ofNat', UInt8.toNat_ofNat',
      Nat.shiftLeft_eq]
    change value % 256 * 2 ^ 1 % 256 = value * 2 % 256
    rw [pow_one, Nat.mod_mul_mod]
  rw [nibbleStep, shift, UInt8.ofNat_add]
  rcases bit with rfl | rfl <;> rfl

/-- The bits of a group are its value. -/
theorem foldl_nibbleStep {bits : Str} (binary : Binary bits) :
    bits.foldl nibbleStep 0 = UInt8.ofNat (bitValue bits) := by
  induction bits using List.reverseRecOn with
  | nil => rfl
  | append_singleton bits c ih =>
      rw [List.foldl_concat, ih binary.left,
        nibbleStep_eq _ (binary c (List.mem_append_right _ (List.mem_singleton_self c))),
        bitValue_concat]

/-- A group is printed as its digit. -/
theorem hexChar_ofNat {nibble : Nat} (below : nibble < 16) :
    hexChar (UInt8.ofNat nibble) = nibble.digitChar := by
  unfold hexChar
  interval_cases nibble <;> rfl

/-- The padded string, four characters at a time, prints the nibbles. -/
theorem map_blocks_padded {bits : Str} (binary : Binary bits) {count : Nat}
    (zeros : count = (bits.length + 3) / 4 * 4 - bits.length) :
    ((Blocks.blocks 4 (List.replicate count '0' ++ bits)).map fun bits =>
      hexChar (bits.foldl nibbleStep 0)) = (nibbles bits).map Nat.digitChar := by
  have digits : Numerals.padded 4 (bits.map bitDigit) =
      (List.replicate count '0' ++ bits).map bitDigit := by
    rw [Numerals.padded, List.length_map, List.map_append, List.map_replicate, zeros]
    rfl
  have whole : Binary (List.replicate count '0' ++ bits) := binary_replicate_append binary count
  rw [nibbles, Numerals.regroup, digits, Blocks.blocks_map, List.map_map, List.map_map]
  refine List.map_congr_left fun block member => ?_
  have small : bitValue block < 2 ^ 4 := (bitValue_lt block).trans_le
    (Nat.pow_le_pow_right Nat.two_pos (Blocks.length_le_of_mem_blocks member))
  rw [foldl_nibbleStep (whole.of_mem_blocks (Nat.succ_pos 3) member), hexChar_ofNat small]
  rfl

/-- **Encoding.** `binaryToHex` prints the nibbles of the characters that the
`int` length counts, if it can be padded. -/
theorem binaryToHex_eq {inBin : Str} (binary : Binary inBin) :
    binaryToHex inBin =
      if intOfSize inBin.length + 3 < 2 ^ 31 then
        .ok ((nibbles (inBin.take (intOfSize inBin.length).toNat)).map Nat.digitChar)
      else .error .signedOverflow := by
  obtain ⟨low, high⟩ := intOfSize_bounds inBin.length
  have inside := intOfSize_le inBin.length
  rw [binaryToHex]
  generalize intOfSize inBin.length = len at low high inside ⊢
  have least : ((-len) % 4).toNat < 4 := by omega
  rw [padLoop_eq (by omega) least least low high]
  by_cases room : len + 3 < 2 ^ 31
  · have front : (List.replicate ((-len) % 4).toNat '0' ++ inBin).take
        (len + ((-len) % 4).toNat).toNat =
          List.replicate (((inBin.take len.toNat).length + 3) / 4 * 4 -
            (inBin.take len.toNat).length) '0' ++ inBin.take len.toNat := by
      by_cases negative : len < 0
      · rw [Int.toNat_of_nonpos (by omega), Int.toNat_of_nonpos negative.le,
          List.take_zero, List.take_zero]
        rfl
      · have size : (inBin.take len.toNat).length = len.toNat := by
          rw [List.length_take]
          omega
        have count : ((-len) % 4).toNat = (len.toNat + 3) / 4 * 4 - len.toNat := by omega
        have stop : (len + ((-len) % 4).toNat).toNat =
            (List.replicate ((-len) % 4).toNat '0').length + len.toNat := by
          rw [List.length_replicate]
          omega
        rw [stop, List.take_length_add_append, size, ← count]
    rw [if_pos (by omega), if_pos room, ok_bind]
    change Except.ok _ = _
    rw [front, map_blocks_padded (binary.take _) rfl]
  · rw [if_neg (by omega), if_neg room, error_bind]

/-! ## Any string -/

/-- What a character counts for: a character that is no digit counts for nothing. -/
def hexValue (c : Char) : Nat := (hexDigit c).getD 0

/-- Every character counts, if only as zero. -/
theorem hexStep_eq (c : Char) (ret base : UInt64) :
    hexStep c (ret, base) = (ret + UInt64.ofNat (hexValue c) * base, base * 16) := by
  unfold hexStep hexValue hexDigit
  simp only
  split
  · rfl
  · split
    · rfl
    · split
      · rfl
      · simp

/-- The characters are added up to the value of what they count as. -/
theorem foldr_hexStep_eq (s : Str) :
    s.foldr hexStep (0, 1) =
      (UInt64.ofNat (Numerals.value 16 (s.map hexValue)), UInt64.ofNat (16 ^ s.length)) := by
  induction s with
  | nil => rfl
  | cons c s ih =>
      rw [List.foldr_cons, ih, hexStep_eq, List.map_cons, Numerals.value_cons, List.length_cons,
        List.length_map, pow_succ, UInt64.ofNat_add, UInt64.ofNat_mul, UInt64.ofNat_mul,
        UInt64.add_comm]
      rfl

/-- Sixteen characters from the end, the powers have wrapped around to zero. -/
theorem ofNat_value_drop (s : Str) :
    UInt64.ofNat (Numerals.value 16 (s.map hexValue)) =
      UInt64.ofNat (Numerals.value 16 ((s.drop (s.length - 16)).map hexValue)) := by
  rcases Nat.lt_or_ge s.length 16 with short | long
  · rw [Nat.sub_eq_zero_of_le short.le, List.drop_zero]
  · have split := @Numerals.value_append 16 ((s.take (s.length - 16)).map hexValue)
      ((s.drop (s.length - 16)).map hexValue)
    rw [← List.map_append, List.take_append_drop] at split
    have last : ((s.drop (s.length - 16)).map hexValue).length = 16 := by
      rw [List.length_map, List.length_drop]
      omega
    have wrapped : UInt64.ofNat (16 ^ 16) = 0 := rfl
    rw [split, last, UInt64.ofNat_add, UInt64.ofNat_mul, wrapped, UInt64.mul_zero, UInt64.zero_add]

/-- **Decoding any string.** Of the characters that the `int` length counts, the
last sixteen give the number, and those that are no digits count for nothing.
Only the length whose predecessor is no `int` is a fault. -/
theorem hexToDecimal_eq_last (sarg : Str) :
    hexToDecimal sarg =
      if intOfSize sarg.length = -2 ^ 31 then .error .signedOverflow
      else .ok (UInt64.ofNat (Numerals.value 16
        (((sarg.take (intOfSize sarg.length).toNat).drop
          ((intOfSize sarg.length).toNat - 16)).map hexValue))) := by
  obtain ⟨low, high⟩ := intOfSize_bounds sarg.length
  have inside := intOfSize_le sarg.length
  rw [hexToDecimal]
  generalize intOfSize sarg.length = len at low high inside ⊢
  by_cases least : len = -2 ^ 31
  · rw [if_pos least, least]
    rfl
  · have size : (sarg.take len.toNat).length = len.toNat := by
      rw [List.length_take]
      omega
    rw [if_neg least, intResult_of_small (by omega) (by omega), ok_bind, Int.sub_add_cancel,
      foldr_hexStep_eq, ofNat_value_drop, size]
    rfl

end Ssle.PPRF
