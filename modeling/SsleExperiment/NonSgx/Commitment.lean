import SsleExperiment.Cpp.Bitset
import SsleExperiment.Enclave.Puncturing

/-! # The commitment outside the enclave

`commit` reads a bit string in base two and commits to `1` by the string itself
and to `0` by its value under a mask, printed with 32 bits. `verify` reads both
strings in base ten. A bit string is an `int` in base ten when its value in base
two is below `2^10`, so the commitments that `verify` decides, and then rightly,
are those of such strings, for `0` under masks below `2^10`
(`Ssle.NonSgx.commitmentSound_iff`).
-/

namespace Ssle.NonSgx

open PPRF

/-- `b2s`. -/
def b2s (bs : UInt32) : Str :=
  (List.range 32).map fun i => if bs &&& (1 <<< UInt32.ofNat (32 - i - 1)) ≠ 0 then '1' else '0'

/-- `stou`, which throws when the number is no `unsigned`. -/
def stou (str : Str) (base : Nat) : Except Fault UInt32 := do
  let val ← stoul base str
  if 2 ^ 32 - 1 < val.toNat then .error .outOfRange else return val.toUInt32

/-- `commit` of a number, with the random `key` that the generator returns. -/
def commitNumber (key rand : UInt32) (b : Int32) : Str :=
  let result := if b ≠ 0 then rand else rand ^^^ key
  b2s result

/-- `commit` of a bit string. -/
def commit (key : UInt32) (rand : Str) (b : Int32) : Except Fault Str :=
  if b ≠ 0 then .ok rand
  else do
    let randVal ← stou rand 2
    return commitNumber key randVal b

/-- `verify`. -/
def verify (bits rand : Str) : Except Fault Bool := do
  let input ← stoi bits
  let rvalue ← stoi rand
  return rvalue.toUInt32 == input.toUInt32

/-- The bit is committed to, and the commitment is opened to it. -/
def CommitmentSound (key : UInt32) (rand : Str) (b : Int32) : Prop :=
  ∃ committed opened, commit key rand b = .ok committed ∧
    verify committed rand = .ok opened ∧ (opened = true ↔ b = 1)

/-! ## Printing -/

/-- A word is printed as a bitset. -/
theorem b2s_eq_toString (bs : UInt32) : b2s bs = Bitset.toString bs.toBitVec := by
  have mask : ∀ i < 32, (1 <<< UInt32.ofNat (32 - i - 1) : UInt32).toBitVec =
      BitVec.twoPow 32 (32 - 1 - i) ∧ BitVec.twoPow 32 (32 - 1 - i) ≠ 0#32 := by decide
  refine List.map_congr_left fun i below => ?_
  rw [List.mem_range] at below
  obtain ⟨single, nonzero⟩ := mask i below
  have bit : (bs &&& (1 <<< UInt32.ofNat (32 - i - 1))) ≠ 0 ↔ bs.toBitVec.getMsbD i = true := by
    rw [ne_eq, ← UInt32.toBitVec_inj, UInt32.toBitVec_and, single, BitVec.and_twoPow,
      BitVec.getMsbD_eq_getLsbD, decide_eq_true below, Bool.true_and]
    by_cases set : bs.toBitVec.getLsbD (32 - 1 - i) = true
    · rw [if_pos set]
      exact iff_of_true nonzero set
    · rw [if_neg set]
      exact iff_of_false (fun differ => differ rfl) set
  simp only [bit]

theorem binary_b2s (bs : UInt32) : Binary (b2s bs) := by
  rw [b2s_eq_toString]
  exact Bitset.binary_toString _

theorem bitValue_b2s (bs : UInt32) : bitValue (b2s bs) = bs.toNat := by
  rw [b2s_eq_toString, Bitset.bitValue_toString]
  rfl

theorem b2s_ne_nil (bs : UInt32) : b2s bs ≠ [] := by
  rw [← List.length_pos_iff, b2s_eq_toString, Bitset.length_toString]
  decide

/-! ## Reading -/

/-- The value of a bit string read in base ten. -/
def decimalValue (s : Str) : Nat := Numerals.value 10 (s.map bitDigit)

section Reading

variable {s : Str} (binary : Binary s)

theorem bitDigit_lt_ten : ∀ digit ∈ s.map bitDigit, digit < 10 :=
  fun digit member => (bitDigit_lt digit member).trans (by decide)

/-- A bit string is an `int` in base ten if its ones are among the last ten
characters. -/
theorem decimalValue_lt_iff : decimalValue s < 2 ^ 31 ↔ bitValue s < 2 ^ 10 := by
  have base := Numerals.value_lt_pow_iff Nat.one_lt_two (bitDigit_lt (s := s)) 10
  have base' := Numerals.value_lt_pow_iff (by decide) (bitDigit_lt_ten (s := s)) 10
  refine Iff.trans ⟨fun small => ?_, fun small => ?_⟩ (base'.trans base.symm)
  · exact Nat.lt_trans small (by decide)
  · have front := base'.mp small
    have split := @Numerals.value_append 10
      ((s.map bitDigit).take ((s.map bitDigit).length - 10))
      ((s.map bitDigit).drop ((s.map bitDigit).length - 10))
    have ones := @Numerals.value_of_bits_lt 10
      ((s.map bitDigit).drop ((s.map bitDigit).length - 10)) (by decide)
      fun digit member => bitDigit_lt digit (List.mem_of_mem_drop member)
    have few : 10 ^ ((s.map bitDigit).drop ((s.map bitDigit).length - 10)).length ≤ 10 ^ 10 := by
      apply Nat.pow_le_pow_right (by decide)
      rw [List.length_drop]
      omega
    rw [List.take_append_drop, (Numerals.value_eq_zero_iff (by decide)).mpr front, Nat.zero_mul,
      Nat.zero_add] at split
    rw [decimalValue, split]
    omega

include binary

theorem hexDigit_of_binary : ∀ c ∈ s, hexDigit c = some (bitDigit c) := by
  intro c member
  rcases binary c member with rfl | rfl
  · rfl
  · rfl

/-- A bit string is read in base ten, and is out of range from eleven digits that count on. -/
theorem stoi_eq (some : s ≠ []) :
    stoi s = if bitValue s < 2 ^ 10 then .ok (Int32.ofNat (decimalValue s))
      else .error .outOfRange := by
  rw [stoi_of_reads (hexDigit_of_binary binary) some bitDigit_lt_ten]
  simp only [← decimalValue_lt_iff]
  rfl

/-- A bit string is read in base two, and is out of range past a word. -/
theorem stou_eq (some : s ≠ []) (short : s.length < 64) :
    stou s 2 = if bitValue s < 2 ^ 32 then .ok (UInt32.ofNat (bitValue s))
      else .error .outOfRange := by
  have small : bitValue s < 2 ^ 64 :=
    (bitValue_lt s).trans (Nat.pow_lt_pow_right Nat.one_lt_two short)
  have read : stoul 2 s = .ok (UInt64.ofNat (bitValue s)) :=
    stoul_of_reads (hexDigit_of_binary binary) some bitDigit_lt small
  rw [stou, read, ok_bind, UInt64.toNat_ofNat_of_lt' small]
  by_cases below : bitValue s < 2 ^ 32
  · rw [if_pos below, if_neg (by omega)]
    exact congrArg Except.ok (UInt64.toUInt32_ofNat' _)
  · rw [if_neg below, if_pos (by omega)]

end Reading

theorem bitValue_eq_iff (s t : Str) : bitValue s = bitValue t ↔ decimalValue s = decimalValue t :=
  ⟨fun equal => Numerals.value_eq_of_value_eq Nat.one_lt_two bitDigit_lt bitDigit_lt equal 10,
    fun equal => Numerals.value_eq_of_value_eq (by decide) bitDigit_lt_ten bitDigit_lt_ten equal 2⟩

/-! ## Opening -/

/-- The numbers that `verify` compares are equal if the bit strings have the same
value. -/
theorem toUInt32_beq {s t : Str} (small : bitValue s < 2 ^ 10) (small' : bitValue t < 2 ^ 10) :
    ((Int32.ofNat (decimalValue s)).toUInt32 == (Int32.ofNat (decimalValue t)).toUInt32) =
      decide (bitValue s = bitValue t) := by
  have fits {u : Str} (small : bitValue u < 2 ^ 10) : decimalValue u < 2 ^ 32 :=
    (decimalValue_lt_iff.mpr small).trans (Nat.pow_lt_pow_succ Nat.one_lt_two)
  rw [Bool.eq_iff_iff, beq_iff_eq, decide_eq_true_iff, bitValue_eq_iff]
  change UInt32.ofNat (decimalValue s) = UInt32.ofNat (decimalValue t) ↔ _
  rw [← UInt32.toNat_inj, UInt32.toNat_ofNat_of_lt' (fits small),
    UInt32.toNat_ofNat_of_lt' (fits small')]

/-- `verify` compares the values of short bit strings, and throws for others. -/
theorem verify_eq {bits rand : Str} (binary : Binary bits) (binary' : Binary rand)
    (some : bits ≠ []) (some' : rand ≠ []) :
    verify bits rand = if bitValue bits < 2 ^ 10 ∧ bitValue rand < 2 ^ 10
      then .ok (decide (bitValue rand = bitValue bits)) else .error .outOfRange := by
  rw [verify, stoi_eq binary some, stoi_eq binary' some']
  by_cases small : bitValue bits < 2 ^ 10
  · by_cases small' : bitValue rand < 2 ^ 10
    · rw [if_pos small, if_pos small', if_pos (And.intro small small'), ok_bind, ok_bind,
        toUInt32_beq small' small]
      rfl
    · have long : ¬ (bitValue bits < 2 ^ 10 ∧ bitValue rand < 2 ^ 10) := fun both => small' both.2
      rw [if_pos small, if_neg small', if_neg long]
      rfl
  · have long : ¬ (bitValue bits < 2 ^ 10 ∧ bitValue rand < 2 ^ 10) := fun both => small both.1
    rw [if_neg small, if_neg long]
    rfl

section Sound

variable {rand : Str} (binary : Binary rand) (some : rand ≠ [])

include binary some

/-- A string that is committed as it is can be opened if `stoi` has room for it. -/
theorem commitmentSound_one_iff (key : UInt32) :
    CommitmentSound key rand 1 ↔ bitValue rand < 2 ^ 10 := by
  have committed : commit key rand 1 = .ok rand := if_pos (by decide)
  rw [CommitmentSound, committed]
  constructor
  · rintro ⟨_, opened, same, returned, _⟩
    obtain rfl := Except.ok.inj same
    by_contra long
    rw [verify_eq binary binary some some, if_neg fun both => long both.1] at returned
    cases returned
  · intro small
    refine ⟨rand, true, rfl, ?_, by decide⟩
    rw [verify_eq binary binary some some, if_pos ⟨small, small⟩, decide_eq_true rfl]

theorem commit_zero (short : rand.length < 64) (key : UInt32) :
    commit key rand 0 = if bitValue rand < 2 ^ 32
      then .ok (b2s (UInt32.ofNat (bitValue rand) ^^^ key)) else .error .outOfRange := by
  rw [commit, if_neg (by decide), stou_eq binary some short]
  split
  · rfl
  · rfl

/-- A string that is masked can be opened if `stoi` has room for it and the mask. -/
theorem commitmentSound_zero_iff (short : rand.length < 64) {key : UInt32} (masked : key ≠ 0) :
    CommitmentSound key rand 0 ↔ bitValue rand < 2 ^ 10 ∧ key.toNat < 2 ^ 10 := by
  rw [CommitmentSound, commit_zero binary some short]
  by_cases fits : bitValue rand < 2 ^ 32
  · have value : bitValue (b2s (UInt32.ofNat (bitValue rand) ^^^ key)) =
        bitValue rand ^^^ key.toNat := by
      rw [bitValue_b2s, UInt32.toNat_xor, UInt32.toNat_ofNat_of_lt' fits]
    have verified := verify_eq (binary_b2s (UInt32.ofNat (bitValue rand) ^^^ key)) binary
      (b2s_ne_nil _) some
    have unmasked : bitValue rand ^^^ (bitValue rand ^^^ key.toNat) = key.toNat :=
      Nat.xor_xor_cancel_left _ _
    rw [value] at verified
    rw [if_pos fits]
    constructor
    · rintro ⟨_, opened, same, returned, _⟩
      obtain rfl := Except.ok.inj same
      rw [verified] at returned
      split at returned
      next small =>
        rw [← unmasked]
        exact ⟨small.2, Nat.xor_lt_two_pow small.2 small.1⟩
      next => cases returned
    · rintro ⟨small, small'⟩
      have differ : bitValue rand ≠ bitValue rand ^^^ key.toNat := by
        intro same
        rw [← same, Nat.xor_self] at unmasked
        exact masked (UInt32.toNat_inj.mp unmasked.symm)
      refine ⟨_, false, rfl, ?_, by decide⟩
      rw [verified, if_pos ⟨Nat.xor_lt_two_pow small small', small⟩, decide_eq_false differ]
  · rw [if_neg fits]
    refine iff_of_false ?_ fun both => fits (Nat.lt_trans both.1 (by decide))
    rintro ⟨_, _, failed, _⟩
    cases failed

end Sound

/-- **Sound commitments.** A bit is committed to and opened as it should exactly
when the bit string has its ones among its last ten characters and, for `0`, the
mask has. -/
theorem commitmentSound_iff (key : UInt32) (rand : Str) (b : Int32) (binary : Binary rand)
    (some : rand ≠ []) (short : rand.length ≤ 63) (masked : key ≠ 0) (bit : b = 0 ∨ b = 1) :
    CommitmentSound key rand b ↔ bitValue rand < 2 ^ 10 ∧ (b = 0 → key.toNat < 2 ^ 10) := by
  rcases bit with rfl | rfl
  · rw [commitmentSound_zero_iff binary some (Nat.lt_succ_of_le short) masked]
    exact and_congr_right fun _ => ⟨fun small _ => small, fun small => small rfl⟩
  · rw [commitmentSound_one_iff binary some key]
    exact (and_iff_left fun zero => by cases zero).symm

theorem commitmentSound_iff_of_seven :
    Binary "1011001".toList ∧ "1011001".toList ≠ [] ∧ "1011001".toList.length ≤ 63 ∧
    (5 : UInt32) ≠ 0 ∧ ((0 : Int32) = 0 ∨ (0 : Int32) = 1) ∧
    (CommitmentSound 5 "1011001".toList 0 ↔ bitValue "1011001".toList < 2 ^ 10 ∧
      ((0 : Int32) = 0 → (5 : UInt32).toNat < 2 ^ 10)) :=
  ⟨by simp [Binary], by decide, by decide, by decide, Or.inl rfl,
    commitmentSound_iff 5 "1011001".toList 0 (by simp [Binary]) (by decide) (by decide)
      (by decide) (Or.inl rfl)⟩

/-- A key of fourteen bits with a one in front: the commitment to `1` cannot be
opened. -/
theorem unopened_commitment :
    commit 5 "10000000000000".toList 1 = .ok "10000000000000".toList ∧
      verify "10000000000000".toList "10000000000000".toList = .error .outOfRange ∧
      ¬ CommitmentSound 5 "10000000000000".toList 1 := by
  have binary : Binary "10000000000000".toList := by simp [Binary]
  have some : "10000000000000".toList ≠ [] := by decide
  have large : ¬ bitValue "10000000000000".toList < 2 ^ 10 := by decide
  refine ⟨rfl, ?_, ?_⟩
  · rw [verify_eq binary binary some some, if_neg fun both => large both.1]
  · rwa [commitmentSound_one_iff binary some]

end Ssle.NonSgx
