import SsleExperiment.Utils.Bits

/-! # Decoding a received bit string

`binStringToBitset` reads a string from its end, and `stringToUint64` hands it to
a bitset, which keeps the first 64 characters. Both return the value of a string
of at most 64 bits. On a longer one the first throws for a `1` before the last 64
characters and overflows its index from `2^31` characters on, while the second
always returns, so that they agree on zeros only
(`Ssle.Utils.decodersAgree_iff`).
-/

namespace Ssle.Utils

open PPRF

/-- Both decoders return the same number, or neither returns. -/
def DecodersAgree (s : Str) : Prop :=
  ∀ n : UInt64, (binStringToBitset s).map UInt64.ofBitVec = .ok n ↔ stringToUint64 s = .ok n

/-! ## Past the end of the bitset -/

/-- Past the 64 positions of the bitset, the loop passes over zeros and throws at
a one, and its index overflows after `2^31` characters. -/
theorem bitsetLoop_eq_ok_iff {rest : Str} {index : Nat} (past : 64 ≤ index)
    (small : index < 2 ^ 31) (bitset result : BitVec 64) :
    bitsetLoop rest index bitset = .ok result ↔
      ((∀ c ∈ rest, c ≠ '1') ∧ index + rest.length < 2 ^ 31) ∧ bitset = result := by
  induction rest generalizing index with
  | nil =>
      rw [bitsetLoop, Except.ok.injEq]
      exact (and_iff_right ⟨List.forall_mem_nil _, small⟩).symm
  | cons c rest ih =>
      rw [List.forall_mem_cons, List.length_cons]
      by_cases one : c = '1'
      · have thrown : setIfOne c index bitset = .error .outOfRange := by
          rw [setIfOne, if_pos one, sizeOfInt_natCast (by omega), Bitset.set,
            if_neg (Nat.not_lt.mpr past)]
        rw [bitsetLoop, thrown, error_bind]
        refine iff_of_false (fun returned => by cases returned) fun zeros => ?_
        exact zeros.1.1.1 one
      · have kept : setIfOne c index bitset = .ok bitset := if_neg one
        rw [bitsetLoop, kept, ok_bind]
        by_cases next : index + 1 < 2 ^ 31
        · have counted : (index : Int) + 1 = (index + 1 : Nat) := rfl
          rw [intResult_of_small (by omega) (by omega), ok_bind, counted, ih (by omega) next,
            and_iff_right one, Nat.add_right_comm index, Nat.add_assoc]
        · rw [intResult_of_large (by omega), error_bind]
          refine iff_of_false (fun returned => by cases returned) fun zeros => next ?_
          have := zeros.1.2
          omega

/-- A bit string has no ones exactly when its value is zero. -/
theorem forall_ne_one_iff {s : Str} (binary : Binary s) : (∀ c ∈ s, c ≠ '1') ↔ bitValue s = 0 := by
  rw [bitValue_eq_zero_iff binary]
  refine forall₂_congr fun c member => ?_
  rcases binary c member with rfl | rfl
  · exact iff_of_true (by decide) rfl
  · exact iff_of_false (fun differ => differ rfl) (by decide)

/-- Of a long string, the last 64 characters are read if no one stands before
them. -/
theorem binStringToBitset_eq_ok_iff {front last : Str} (binary : Binary (front ++ last))
    (full : last.length = 64) (result : BitVec 64) :
    binStringToBitset (front ++ last) = .ok result ↔
      (bitValue front = 0 ∧ 64 + front.length < 2 ^ 31) ∧
        BitVec.ofNat 64 (bitValue last) = result := by
  have looped := @bitsetLoop_append last.reverse [] binary.right.reverse (by simp [full])
    front.reverse
  rw [List.append_nil, List.reverse_reverse, full] at looped
  rw [binStringToBitset, List.reverse_append]
  refine (Eq.congr_left looped).trans ?_
  rw [bitsetLoop_eq_ok_iff (Nat.le_refl 64) (by decide), List.length_reverse]
  simp only [List.mem_reverse, forall_ne_one_iff binary.left]

/-- Past 64 characters the last ones are not read. -/
theorem stringToUint64_eq_take {s : Str} (binary : Binary s) :
    stringToUint64 s = .ok (UInt64.ofNat (bitValue (s.take 64))) := by
  rw [stringToUint64, Bitset.ofString_eq binary]
  rfl

/-! ## Agreement -/

/-- The decoders agree on all strings that fit. -/
theorem decodersAgree_of_le {s : Str} (binary : Binary s) (fits : s.length ≤ 64) :
    DecodersAgree s := by
  intro n
  rw [binStringToBitset_eq binary fits, stringToUint64_eq binary fits]
  rfl

/-- A string has the value of its first characters only if it is zero. -/
theorem bitValue_take_eq_iff {s : Str} {count : Nat} (long : count < s.length) :
    bitValue (s.take count) = bitValue s ↔ bitValue s = 0 := by
  have split := bitValue_append (s.take count) (s.drop count)
  have factor : 2 ≤ 2 ^ (s.drop count).length := by
    rw [List.length_drop]
    exact Nat.le_self_pow (by omega) 2
  rw [List.take_append_drop] at split
  have grown := Nat.mul_le_mul_left (bitValue (s.take count)) factor
  omega

/-- The decoders agree on a long string if its first and its last 64 characters
have its value. -/
theorem decodersAgree_append_iff {front last : Str} (binary : Binary (front ++ last))
    (full : last.length = 64) :
    DecodersAgree (front ++ last) ↔
      bitValue ((front ++ last).take 64) = bitValue (front ++ last) ∧
        64 + front.length < 2 ^ 31 := by
  have read := binStringToBitset_eq_ok_iff binary full
  have split : bitValue (front ++ last) = bitValue front * 2 ^ 64 + bitValue last := by
    rw [bitValue_append, full]
  have below : bitValue last < 2 ^ 64 := full ▸ bitValue_lt last
  have below' : bitValue ((front ++ last).take 64) < 2 ^ 64 :=
    (bitValue_lt _).trans_le (Nat.pow_le_pow_right Nat.two_pos (List.length_take_le 64 _))
  constructor
  · intro agree
    have returned := (agree _).mpr (stringToUint64_eq_take binary)
    cases decoded : binStringToBitset (front ++ last) with
    | error fault =>
        rw [decoded] at returned
        cases returned
    | ok bits =>
        obtain ⟨⟨nothing, short⟩, value⟩ := (read bits).mp decoded
        rw [decoded, ← value] at returned
        have same := congrArg UInt64.toNat (Except.ok.inj returned)
        rw [UInt64.toNat_ofBitVec, BitVec.toNat_ofNat, Nat.mod_eq_of_lt below,
          UInt64.toNat_ofNat_of_lt' below'] at same
        exact ⟨by omega, short⟩
  · rintro ⟨value, short⟩ n
    have nothing : bitValue front = 0 := by omega
    rw [(read _).mpr ⟨⟨nothing, short⟩, rfl⟩, stringToUint64_eq_take binary, value, split, nothing,
      Nat.zero_mul, Nat.zero_add]
    rfl

/-- On longer strings they agree if these have only zeros and an `int` for their length.
-/
theorem decodersAgree_of_gt {s : Str} (binary : Binary s) (long : 64 < s.length) :
    DecodersAgree s ↔ (∀ c ∈ s, c = '0') ∧ s.length < 2 ^ 31 := by
  have full : (s.drop (s.length - 64)).length = 64 := by
    rw [List.length_drop]
    omega
  have size : 64 + (s.take (s.length - 64)).length = s.length := by
    rw [List.length_take]
    omega
  have whole := List.take_append_drop (s.length - 64) s
  have agree := @decodersAgree_append_iff (s.take (s.length - 64)) (s.drop (s.length - 64))
    (whole.symm ▸ binary) full
  rwa [whole, size, bitValue_take_eq_iff long, bitValue_eq_zero_iff binary] at agree

/-- **Agreement of the decoders.** They agree on the bit strings of at most 64
characters, and on longer ones when these are zeros that an `int` counts. -/
theorem decodersAgree_iff (s : Str) (binary : Binary s) :
    DecodersAgree s ↔ s.length ≤ 64 ∨ (∀ c ∈ s, c = '0') ∧ s.length < 2 ^ 31 := by
  by_cases fits : s.length ≤ 64
  · exact iff_of_true (decodersAgree_of_le binary fits) (Or.inl fits)
  · rw [decodersAgree_of_gt binary (Nat.lt_of_not_le fits), or_iff_right fits]

theorem decodersAgree_iff_of_two :
    Binary ['1', '0'] ∧ (DecodersAgree ['1', '0'] ↔
      (['1', '0'] : Str).length ≤ 64 ∨
        (∀ c ∈ (['1', '0'] : Str), c = '0') ∧ (['1', '0'] : Str).length < 2 ^ 31) :=
  ⟨by simp [Binary], decodersAgree_iff ['1', '0'] (by simp [Binary])⟩

/-- A one and 64 zeros: one decoder throws, the other returns `2^63`. -/
theorem overlong_key :
    binStringToBitset ('1' :: List.replicate 64 '0') = .error .outOfRange ∧
      stringToUint64 ('1' :: List.replicate 64 '0') = .ok (2 ^ 63) ∧
      ¬ DecodersAgree ('1' :: List.replicate 64 '0') := by
  have thrown : binStringToBitset ('1' :: List.replicate 64 '0') = .error .outOfRange := by
    decide +kernel
  have returned : stringToUint64 ('1' :: List.replicate 64 '0') = .ok (2 ^ 63) := by
    decide +kernel
  refine ⟨thrown, returned, fun agree => ?_⟩
  have same := (agree _).mpr returned
  rw [thrown] at same
  cases same

end Ssle.Utils
