import Mathlib.Data.List.Basic
import SsleExperiment.Cpp.Strings
import SsleExperiment.Math.Numerals

/-! # Bit strings and bitsets

A bit string is a numeral in base two (`Ssle.bitValue`). A `std::bitset` is a bit
vector. It prints its value (`Ssle.Bitset.bitValue_toString`), and a bitset that
has the value of a bit string prints this string at its end
(`Ssle.Bitset.drop_toString`). The nibbles of a bit string, counted from the
right, are the digits of its value in base sixteen (`Ssle.value_nibbles`).
-/

namespace Ssle

/-- The digit of a character of a bit string. -/
def bitDigit (c : Char) : Nat := if c = '1' then 1 else 0

/-- The value of a bit string. -/
def bitValue (s : Str) : Nat := Numerals.value 2 (s.map bitDigit)

/-- Characters are read as binary digits. -/
theorem bitDigit_lt {s : Str} : ∀ digit ∈ s.map bitDigit, digit < 2 := by
  intro digit member
  obtain ⟨c, _, rfl⟩ := List.mem_map.mp member
  unfold bitDigit
  split
  · exact Nat.one_lt_two
  · exact Nat.two_pos

/-- The value of a string fits as many bits as it has characters. -/
theorem bitValue_lt (s : Str) : bitValue s < 2 ^ s.length := by
  have below := Numerals.value_lt Nat.one_lt_two (bitDigit_lt (s := s))
  rwa [List.length_map] at below

/-- The first character counts most. -/
theorem bitValue_cons (c : Char) (s : Str) :
    bitValue (c :: s) = bitDigit c * 2 ^ s.length + bitValue s := by
  rw [bitValue, List.map_cons, Numerals.value_cons, List.length_map]
  rfl

/-- A last character doubles the value and is added. -/
theorem bitValue_concat (s : Str) (c : Char) :
    bitValue (s ++ [c]) = bitValue s * 2 + bitDigit c := by
  rw [bitValue, List.map_append, List.map_singleton, Numerals.value_concat]
  rfl

/-- What follows shifts the value to the left. -/
theorem bitValue_append (s t : Str) :
    bitValue (s ++ t) = bitValue s * 2 ^ t.length + bitValue t := by
  rw [bitValue, List.map_append, Numerals.value_append, List.length_map]
  rfl

/-- The first characters of a bit string of some length have its value without the
others. -/
theorem bitValue_take (b : Str) {count more : Nat} (size : b.length = count + more) :
    bitValue (b.take count) = bitValue b / 2 ^ more := by
  have split := bitValue_append (b.take count) (b.drop count)
  have rest : (b.drop count).length = more := by
    rw [List.length_drop]
    omega
  have small := bitValue_lt (b.drop count)
  rw [List.take_append_drop, rest] at split
  rw [rest] at small
  rw [split, Nat.mul_comm, Nat.mul_add_div (Nat.two_pow_pos more), Nat.div_eq_of_lt small,
    Nat.add_zero]

/-- The value is zero for zeros only. -/
theorem bitValue_eq_zero_iff {s : Str} (binary : ∀ c ∈ s, c = '0' ∨ c = '1') :
    bitValue s = 0 ↔ ∀ c ∈ s, c = '0' := by
  induction s with
  | nil => exact iff_of_true rfl (List.forall_mem_nil _)
  | cons c s ih =>
      rw [List.forall_mem_cons] at binary ⊢
      rw [bitValue_cons, Nat.add_eq_zero_iff, ih binary.2, Nat.mul_eq_zero]
      refine and_congr_left fun _ => ?_
      rcases binary.1 with rfl | rfl
      · exact iff_of_true (Or.inl rfl) rfl
      · simp [bitDigit]

/-- Zeros in front do not count. -/
theorem bitValue_replicate_append (count : Nat) (s : Str) :
    bitValue (List.replicate count '0' ++ s) = bitValue s := by
  rw [bitValue, List.map_append, List.map_replicate]
  exact Numerals.value_replicate_zero_append count _

/-- Zeros in front of a bit string make a bit string. -/
theorem binary_replicate_append {s : Str} (binary : ∀ c ∈ s, c = '0' ∨ c = '1') (count : Nat) :
    ∀ c ∈ List.replicate count '0' ++ s, c = '0' ∨ c = '1' := by
  intro c member
  rcases List.mem_append.mp member with zero | inside
  · exact Or.inl (List.eq_of_mem_replicate zero)
  · exact binary c inside

/-- Bit strings are determined by their digits. -/
theorem map_bitDigit_inj {s t : Str} (binary : ∀ c ∈ s, c = '0' ∨ c = '1')
    (binary' : ∀ c ∈ t, c = '0' ∨ c = '1') (same : s.map bitDigit = t.map bitDigit) : s = t := by
  induction s generalizing t with
  | nil => exact (List.map_eq_nil_iff.mp same.symm).symm
  | cons c s ih =>
      cases t with
      | nil => cases same
      | cons d t =>
          rw [List.forall_mem_cons] at binary binary'
          obtain ⟨first, rest⟩ := List.cons.inj same
          rw [ih binary.2 binary'.2 rest]
          rcases binary.1 with rfl | rfl <;> rcases binary'.1 with rfl | rfl
          · rfl
          · cases first
          · cases first
          · rfl

/-- Bit strings of one length are determined by their values. -/
theorem bitValue_inj {s t : Str} (binary : ∀ c ∈ s, c = '0' ∨ c = '1')
    (binary' : ∀ c ∈ t, c = '0' ∨ c = '1') (same : s.length = t.length)
    (equal : bitValue s = bitValue t) : s = t := by
  apply map_bitDigit_inj binary binary'
  apply Numerals.value_inj Nat.one_lt_two ?_ bitDigit_lt bitDigit_lt equal
  rwa [List.length_map, List.length_map]

/-- The values of the groups of four bits, counted from the right. -/
def nibbles (s : Str) : List Nat := Numerals.regroup 2 4 (s.map bitDigit)

/-- Groups of four digits are hexadecimal digits. -/
theorem nibbles_lt (s : Str) : ∀ nibble ∈ nibbles s, nibble < 16 :=
  Numerals.regroup_lt Nat.one_lt_two (Nat.succ_pos 3) bitDigit_lt

/-- Digits in groups write the same number. -/
theorem value_nibbles (s : Str) : Numerals.value 16 (nibbles s) = bitValue s :=
  @Numerals.value_regroup 2 4 (Nat.succ_pos 3) _

/-- There is a group for each four characters, and one for what is left. -/
theorem length_nibbles (s : Str) : (nibbles s).length = (s.length + 3) / 4 := by
  rw [nibbles, Numerals.length_regroup (Nat.succ_pos 3), List.length_map]
  rfl

@[simp] theorem nibbles_nil : nibbles [] = [] := Numerals.regroup_nil (Nat.succ_pos 3)

/-- Four bits on the right are the last nibble. -/
theorem nibbles_append (s : Str) {group : Str} (full : group.length = 4) :
    nibbles (s ++ group) = nibbles s ++ [bitValue group] := by
  rw [nibbles, List.map_append]
  exact Numerals.regroup_append (Nat.succ_pos 3) _ ((List.length_map _).trans full)

/-- Up to four characters are one group. -/
theorem nibbles_of_le {group : Str} (some : 0 < group.length) (short : group.length ≤ 4) :
    nibbles group = [bitValue group] := by
  rw [← List.length_map bitDigit] at some short
  exact Numerals.regroup_of_le some short

namespace Bitset

variable {width : Nat}

/-- `std::bitset<width>(s)`. The first `width` characters give the value, and a
character that is no bit throws. -/
def ofString (width : Nat) (s : Str) : Except Fault (BitVec width) :=
  if s.all fun c => c = '0' || c = '1' then .ok (BitVec.ofNat width (bitValue (s.take width)))
  else .error .invalidArgument

/-- `to_string`: the bits, the most significant first. -/
def toString (bits : BitVec width) : Str :=
  (List.range width).map fun i => if bits.getMsbD i then '1' else '0'

/-- `set(pos)`, which throws for a position outside the bitset. -/
def set (bits : BitVec width) (pos : Nat) : Except Fault (BitVec width) :=
  if pos < width then .ok (bits ||| BitVec.twoPow width pos) else .error .outOfRange

/-- A bit string is read from its first characters. -/
theorem ofString_eq {s : Str} (binary : ∀ c ∈ s, c = '0' ∨ c = '1') :
    ofString width s = .ok (BitVec.ofNat width (bitValue (s.take width))) := by
  have bits : (s.all fun c => c = '0' || c = '1') = true := by
    rw [List.all_eq_true]
    intro c member
    rw [Bool.or_eq_true, decide_eq_true_eq, decide_eq_true_eq]
    exact binary c member
  rw [ofString, if_pos bits]

/-- A bit string that fits is read as its value. -/
theorem ofString_of_le {s : Str} (binary : ∀ c ∈ s, c = '0' ∨ c = '1')
    (fits : s.length ≤ width) : ofString width s = .ok (BitVec.ofNat width (bitValue s)) := by
  rw [ofString_eq binary, List.take_of_length_le fits]

@[simp] theorem length_toString (bits : BitVec width) : (toString bits).length = width := by
  rw [toString, List.length_map, List.length_range]

/-- A bitset is printed as a bit string. -/
theorem binary_toString (bits : BitVec width) : ∀ c ∈ toString bits, c = '0' ∨ c = '1' := by
  intro c member
  obtain ⟨i, _, rfl⟩ := List.mem_map.mp member
  split
  · exact Or.inr rfl
  · exact Or.inl rfl

/-- A bitset is printed as its value. -/
theorem bitValue_toString (bits : BitVec width) : bitValue (toString bits) = bits.toNat := by
  have digits : (toString bits).map bitDigit =
      (List.range width).map fun i => bits.toNat / 2 ^ (width - 1 - i) % 2 := by
    rw [toString, List.map_map]
    refine List.map_congr_left fun i below => ?_
    rw [List.mem_range] at below
    have bit : bits.getMsbD i = bits.toNat.testBit (width - 1 - i) := by
      rw [BitVec.getMsbD_eq_getLsbD, BitVec.testBit_toNat, decide_eq_true below, Bool.true_and]
    rw [Function.comp_apply, bit, Nat.testBit_eq_decide_div_mod_eq]
    rcases Nat.mod_two_eq_zero_or_one (bits.toNat / 2 ^ (width - 1 - i)) with zero | one
    · simp [zero, bitDigit]
    · simp [one, bitDigit]
  rw [bitValue, digits, Numerals.value_range, Nat.mod_eq_of_lt bits.isLt]

/-- **Truncation.** A bitset with the value of a shorter bit string prints the
string at its end. -/
theorem drop_toString {s : Str} (binary : ∀ c ∈ s, c = '0' ∨ c = '1') (fits : s.length ≤ width) :
    (toString (BitVec.ofNat width (bitValue s))).drop (width - s.length) = s := by
  have small : bitValue s < 2 ^ width :=
    (bitValue_lt s).trans_le (Nat.pow_le_pow_right Nat.two_pos fits)
  have printed : toString (BitVec.ofNat width (bitValue s)) =
      List.replicate (width - s.length) '0' ++ s := by
    apply bitValue_inj (binary_toString _) (binary_replicate_append binary _)
    · rw [length_toString, List.length_append, List.length_replicate, Nat.sub_add_cancel fits]
    · rw [bitValue_toString, bitValue_replicate_append, BitVec.toNat_ofNat, Nat.mod_eq_of_lt small]
  rw [printed]
  exact List.drop_left' List.length_replicate

end Bitset

end Ssle
