import Mathlib.Data.Nat.Digits.Lemmas
import SsleExperiment.Cpp.Basic
import SsleExperiment.Enclave.Prf

/-! # Numbers and bit strings in the enclave

`decimalToBinary` writes a number in base two, without leading zeros
(`Ssle.PPRF.decimalToBinary_eq`), and `align` cuts a string to a multiple of
seven characters.
-/

namespace Ssle.PPRF

/-- The loop of `decimalToBinary`, for at most `fuel` iterations. -/
def decimalLoop : Nat → UInt64 → Str → Str
  | 0, _, result => result
  | fuel + 1, n, result =>
      if n ≠ 0 then decimalLoop fuel (n / 2) (result ++ [if n % 2 = 0 then '0' else '1'])
      else result

/-- `decimalToBinary`. A 64-bit number is `0` after 64 halvings. -/
def decimalToBinary (n : UInt64) : Str := (decimalLoop 64 n []).reverse

/-- `align`: `erase` cuts off the last `size % 7` characters. -/
def align (bits : Str) : Except Fault Str := Str.erase bits (bits.length - bits.length % 7)

/-- The character of a binary digit. -/
def digitChar (digit : Nat) : Char := if digit = 0 then '0' else '1'

/-- The loop appends the binary digits, the lowest first, and has enough fuel. -/
theorem decimalLoop_eq {fuel : Nat} {n : UInt64} (enough : n.toNat < 2 ^ fuel) (result : Str) :
    decimalLoop fuel n result = result ++ (Nat.digits 2 n.toNat).map digitChar := by
  induction fuel generalizing n result with
  | zero =>
      have zero : n.toNat = 0 := by simpa using enough
      rw [decimalLoop, zero]
      simp
  | succ fuel ih =>
      rw [decimalLoop]
      by_cases zero : n = 0
      · simp [zero]
      · have positive : 0 < n.toNat := by
          rw [Nat.pos_iff_ne_zero]
          exact fun none => zero (UInt64.toNat_inj.mp none)
        have half : (n / 2).toNat = n.toNat / 2 := UInt64.toNat_div n 2
        have even : n % 2 = 0 ↔ n.toNat % 2 = 0 := by
          rw [← UInt64.toNat_inj, UInt64.toNat_mod]
          rfl
        have digit : (if n % 2 = 0 then '0' else '1') = digitChar (n.toNat % 2) := by
          simp only [digitChar, even]
        rw [if_pos zero, ih (by rw [half]; omega), half, digit,
          Nat.digits_def' (by decide) positive, List.map_cons, List.append_assoc]
        rfl

/-- The number is printed by its binary digits. -/
theorem decimalToBinary_eq (n : UInt64) :
    decimalToBinary n = ((Nat.digits 2 n.toNat).map digitChar).reverse := by
  rw [decimalToBinary, decimalLoop_eq n.toNat_lt, List.nil_append]

/-- The digits are bits. -/
theorem binary_decimalToBinary (v : UInt64) : ∀ c ∈ decimalToBinary v, c = '0' ∨ c = '1' := by
  intro c member
  rw [decimalToBinary_eq, List.mem_reverse] at member
  obtain ⟨digit, _, rfl⟩ := List.mem_map.mp member
  rw [digitChar]
  split
  · exact .inl rfl
  · exact .inr rfl

/-- A number has at most 64 binary digits. -/
theorem length_decimalToBinary_le (v : UInt64) : (decimalToBinary v).length ≤ 64 := by
  rw [decimalToBinary_eq, List.length_reverse, List.length_map]
  exact (Nat.digits_length_le_iff Nat.one_lt_two _).mpr v.toNat_lt

/-- Aligning keeps whole blocks of seven. -/
theorem align_eq (bits : Str) :
    align bits = .ok (bits.take (bits.length - bits.length % 7)) := by
  rw [align, Str.erase, if_pos (Nat.sub_le _ _)]

end Ssle.PPRF
