import SsleExperiment.Enclave.Hex

/-! # Bit strings in hexadecimal

`binaryToHex` of the utilities walks over the first `bitLength` characters from
right to left, four to a digit (`Ssle.Utils.binaryToHex_eq`), and `hexToBinary`
prints the last `bitLength` bits of a 32-bit number. Together they return the
first `bitLength` characters (`Ssle.Utils.hexToBinary_binaryToHex`), not the last
ones. The two copies of the utilities have the same two functions.
-/

namespace Ssle.Utils

open PPRF

/-- The character of a sum of four bits. -/
def hexChar (sum : Int) : Char :=
  let code : Int := if sum < 10 then '0'.toNat + sum else 'A'.toNat + (sum - 10)
  Char.ofNat (code % 256).toNat

/-- The variables of the loop of `binaryToHex`. -/
structure HexState where
  hexDigits : Str
  hexIndex : Int
  sum : Int
  weight : Int

/-- One bit of `binaryToHex`. -/
def hexBit (binStr : Str) (bitIndex : Nat) (state : HexState) : Except Fault HexState := do
  let c ← binStr.charAt bitIndex
  let sum := state.sum + (charInt c - charInt '0') * state.weight
  let weight := state.weight * 2
  if weight = 16 ∨ bitIndex = 0 then
    let hexDigits ← storeAt state.hexDigits (sizeOfInt state.hexIndex) (hexChar sum)
    return { hexDigits, hexIndex := state.hexIndex - 1, sum := 0, weight := 1 }
  else return { state with sum, weight }

/-- The loop of `binaryToHex`: `bitIndex` is the number of bits to come, one more
than the index of the next one. -/
def hexLoop (binStr : Str) : Nat → HexState → Except Fault HexState
  | 0, state => .ok state
  | bitIndex + 1, state => do
      let state ← hexBit binStr bitIndex state
      hexLoop binStr bitIndex state

/-- `binaryToHex`. A vector of negative size throws. -/
def binaryToHex (binStr : Str) (bitLength : Int) : Except Fault Str := do
  let rounded ← intResult (bitLength + 3)
  let hexLength := rounded.tdiv 4
  if hexLength < 0 then .error .lengthError
  else
    let state ← hexLoop binStr bitLength.toNat
      { hexDigits := List.replicate hexLength.toNat '0', hexIndex := hexLength - 1, sum := 0,
        weight := 1 }
    return state.hexDigits

/-- `hexToBinary`. -/
def hexToBinary (hexString : Str) (bitLength : Int) : Except Fault Str := do
  let number ← stoulHex hexString
  let binaryString := Bitset.toString number.toUInt32.toBitVec
  binaryString.substr ((binaryString.length + 2 ^ 64 - sizeOfInt bitLength) % 2 ^ 64) npos

/-! ## The loop -/

/-- The upper-case hexadecimal digit. -/
def upperDigit (digit : Nat) : Char := digit.digitChar.toUpper

theorem hexChar_ofNat {digit : Nat} (below : digit < 16) :
    hexChar digit = upperDigit digit := by
  unfold hexChar
  interval_cases digit <;> rfl

theorem hexDigit_upperDigit {digit : Nat} (below : digit < 16) :
    hexDigit (upperDigit digit) = some digit := by
  interval_cases digit <;> rfl

theorem toLower_upperDigit {digit : Nat} (below : digit < 16) :
    (upperDigit digit).toLower = digit.digitChar := by
  interval_cases digit <;> rfl

theorem toLower_digitChar {digit : Nat} (below : digit < 16) :
    digit.digitChar.toLower = digit.digitChar := by
  interval_cases digit <;> rfl

/-- The bits of the group read so far are in the sum, and the digits of the
groups before it are still to be written. -/
def reading (digits : Nat) (group out : Str) : HexState where
  hexDigits := List.replicate digits '0' ++ out
  hexIndex := digits - 1
  sum := bitValue group
  weight := 2 ^ group.length

theorem charInt_bit {c : Char} (bit : c = '0' ∨ c = '1') :
    charInt c - charInt '0' = bitDigit c := by
  rcases bit with rfl | rfl <;> rfl

/-- The next bit enters the group on its left. -/
theorem sum_next {c : Char} (bit : c = '0' ∨ c = '1') (group : Str) :
    (bitValue group : Int) + (charInt c - charInt '0') * 2 ^ group.length =
      bitValue (c :: group) := by
  rw [charInt_bit bit, bitValue_cons, Int.add_comm]
  push_cast
  rfl

theorem storeAt_next (digits : Nat) (small : digits < 2 ^ 31) (out : Str) (c : Char) :
    storeAt (List.replicate (digits + 1) '0' ++ out) (sizeOfInt ((digits + 1 : Nat) - 1)) c =
      .ok (List.replicate digits '0' ++ c :: out) := by
  have index : ((digits + 1 : Nat) : Int) - 1 = digits := by omega
  have long : digits < (List.replicate (digits + 1) '0' ++ out).length := by
    rw [List.length_append, List.length_replicate]
    omega
  have front : digits = (List.replicate digits '0').length := List.length_replicate.symm
  rw [index, sizeOfInt_natCast (by omega), storeAt, if_pos long, List.replicate_succ',
    List.append_assoc]
  conv_lhs => rw [front]
  rw [List.length_replicate, List.set_append_right _ _ (Nat.le_of_eq front.symm),
    List.length_replicate, Nat.sub_self]
  rfl

section Bit

variable {binStr group out : Str} (binary : Binary binStr) {bitIndex digits : Nat}
  (inside : bitIndex < binStr.length)

include binary inside

theorem hexBit_of_open (some : bitIndex ≠ 0) (unfilled : group.length + 1 < 4) :
    hexBit binStr bitIndex (reading digits group out) =
      .ok (reading digits (binStr[bitIndex] :: group) out) := by
  have bit := binary _ (List.getElem_mem inside)
  have light : ¬ ((2 : Int) ^ group.length * 2 = 16 ∨ bitIndex = 0) := by
    rintro (full | zero)
    · rw [← pow_succ] at full
      have same : (2 : Int) ^ (group.length + 1) = 2 ^ 4 := full
      exact Nat.ne_of_lt unfilled (Int.pow_right_injective (by decide) same)
    · exact some zero
  rw [hexBit, Str.charAt_of_lt inside, ok_bind]
  simp only [reading, if_neg light, sum_next bit]
  rfl

theorem hexBit_of_closed (filled : group.length + 1 = 4 ∨ bitIndex = 0)
    (short : group.length + 1 ≤ 4) (small : digits < 2 ^ 31) :
    hexBit binStr bitIndex (reading (digits + 1) group out) =
      .ok (reading digits [] (upperDigit (bitValue (binStr[bitIndex] :: group)) :: out)) := by
  have bit := binary _ (List.getElem_mem inside)
  have heavy : (2 : Int) ^ group.length * 2 = 16 ∨ bitIndex = 0 := by
    refine filled.imp_left fun full => ?_
    rw [← pow_succ, full]
    rfl
  have below : bitValue (binStr[bitIndex] :: group) < 16 :=
    (bitValue_lt _).trans_le (Nat.pow_le_pow_right Nat.two_pos short)
  rw [hexBit, Str.charAt_of_lt inside, ok_bind]
  simp only [reading, if_pos heavy, sum_next bit, hexChar_ofNat below, storeAt_next digits small]
  have index : ((digits + 1 : Nat) : Int) - 1 - 1 = digits - 1 := by omega
  rw [index]
  rfl

end Bit

/-- **The loop.** It writes the nibbles of the characters to come and of the
group read so far. -/
theorem hexLoop_eq {binStr : Str} (binary : Binary binStr) {bitIndex digits : Nat}
    {group out : Str} (inside : bitIndex ≤ binStr.length) (short : group.length < 4)
    (ended : bitIndex = 0 → group = []) (small : bitIndex + 3 < 2 ^ 31)
    (room : digits = (bitIndex + group.length + 3) / 4) :
    hexLoop binStr bitIndex (reading digits group out) =
      .ok (reading 0 [] ((nibbles (binStr.take bitIndex ++ group)).map upperDigit ++ out)) := by
  induction bitIndex generalizing digits group out with
  | zero =>
      rw [ended rfl] at room ⊢
      rw [room, List.take_zero, List.nil_append, nibbles_nil]
      rfl
  | succ bitIndex ih =>
      have below : bitIndex < binStr.length := inside
      have next : binStr.take (bitIndex + 1) ++ group =
          binStr.take bitIndex ++ binStr[bitIndex] :: group := by
        rw [List.take_succ_eq_append_getElem below, List.append_assoc]
        rfl
      rw [hexLoop, next]
      by_cases closed : group.length + 1 = 4 ∨ bitIndex = 0
      · obtain ⟨rest, rfl⟩ : ∃ rest, digits = rest + 1 := Nat.exists_eq_succ_of_ne_zero (by omega)
        have last : nibbles (binStr.take bitIndex ++ binStr[bitIndex] :: group) =
            nibbles (binStr.take bitIndex) ++ [bitValue (binStr[bitIndex] :: group)] := by
          rcases closed with full | rfl
          · exact nibbles_append _ full
          · rw [List.take_zero, List.nil_append, nibbles_nil]
            exact nibbles_of_le (Nat.succ_pos _) short
        have empty : ([] : Str).length < 4 := Nat.succ_pos 3
        rw [hexBit_of_closed binary below closed short (by omega), ok_bind,
          ih below.le empty (fun _ => rfl) (by omega) (by rw [List.length_nil]; omega), last,
          List.append_nil, List.map_append, List.append_assoc]
        rfl
      · obtain ⟨unfilled, more⟩ := not_or.mp closed
        rw [hexBit_of_open binary below more (by omega), ok_bind,
          ih below.le (by rw [List.length_cons]; omega) (fun zero => (more zero).elim) (by omega)
            (by rw [List.length_cons]; omega)]

/-- The quotient is rounded toward zero. -/
theorem tdiv_four (x : Int) : x.tdiv 4 = if 0 ≤ x then x / 4 else -(-x / 4) := by
  split
  next nonnegative => exact Int.tdiv_eq_ediv_of_nonneg nonnegative
  next negative =>
    rw [← Int.neg_inj, ← Int.neg_tdiv, Int.neg_neg]
    exact Int.tdiv_eq_ediv_of_nonneg (by omega)

/-- **Encoding.** `binaryToHex` prints the nibbles of the first `bitLength`
characters. -/
theorem binaryToHex_eq {s : Str} (binary : Binary s) {bitLength : Int}
    (low : -6 ≤ bitLength) (high : bitLength + 3 < 2 ^ 31) (inside : bitLength ≤ s.length) :
    binaryToHex s bitLength = .ok ((nibbles (s.take bitLength.toNat)).map upperDigit) := by
  have length : (bitLength + 3).tdiv 4 = ((bitLength.toNat + 3) / 4 : Nat) := by
    rw [tdiv_four]
    omega
  have start : ({ hexDigits := List.replicate ((bitLength.toNat + 3) / 4) '0'
                  hexIndex := ((bitLength.toNat + 3) / 4 : Nat) - 1, sum := 0, weight := 1 } :
      HexState) = reading ((bitLength.toNat + 3) / 4) [] [] := by
    rw [reading, List.append_nil]
    rfl
  have empty : ([] : Str).length < 4 := Nat.succ_pos 3
  unfold binaryToHex
  rw [intResult_of_small (by omega) high, ok_bind]
  simp only [length, Int.toNat_natCast, start]
  rw [if_neg (Int.not_lt.mpr (Int.natCast_nonneg _)),
    hexLoop_eq binary (by omega) empty (fun _ => rfl) (by omega) (by rw [List.length_nil]),
    ok_bind, List.append_nil, List.append_nil]
  rfl

/-- `binaryToHex` returns for no length below `-6` or above `2^31 - 4`. -/
theorem returns_only {s : Str} {bitLength : Int} {hex : Str} (low : -2 ^ 31 ≤ bitLength)
    (returns : binaryToHex s bitLength = .ok hex) : -6 ≤ bitLength ∧ bitLength + 3 < 2 ^ 31 := by
  unfold binaryToHex at returns
  by_cases room : bitLength + 3 < 2 ^ 31
  · refine ⟨?_, room⟩
    rw [intResult_of_small (by omega) room, ok_bind] at returns
    by_contra below
    have negative : (bitLength + 3).tdiv 4 < 0 := by
      rw [tdiv_four, if_neg (by omega)]
      omega
    simp only [if_pos negative] at returns
    cases returns
  · rw [intResult_of_large (Int.not_lt.mp room), error_bind] at returns
    cases returns

/-! ## The round trip -/

/-- `hexToBinary` undoes `binaryToHex` on the first `n` characters. -/
theorem hexToBinary_binaryToHex {s : Str} (binary : Binary s) {n : Nat} (positive : 1 ≤ n)
    (inside : n ≤ s.length) (short : n ≤ 32) :
    (binaryToHex s n >>= fun hex => hexToBinary hex n) = .ok (s.take n) := by
  have front : Binary (s.take n) := binary.take n
  have size : (s.take n).length = n := List.length_take_of_le inside
  have small : bitValue (s.take n) < 2 ^ 32 :=
    (bitValue_lt _).trans_le (Nat.pow_le_pow_right Nat.two_pos (size.le.trans short))
  have nonempty : nibbles (s.take n) ≠ [] := by
    rw [← List.length_pos_iff, length_nibbles, size]
    omega
  have printed : ∀ nibble ∈ nibbles (s.take n), hexDigit (upperDigit nibble) = some nibble :=
    fun nibble member => hexDigit_upperDigit (nibbles_lt _ nibble member)
  have number : (UInt64.ofNat (bitValue (s.take n))).toUInt32.toBitVec =
      BitVec.ofNat 32 (bitValue (s.take n)) := by
    rw [UInt64.toUInt32_ofNat']
    rfl
  have position : (32 + 2 ^ 64 - n) % 2 ^ 64 = 32 - n := by omega
  rw [binaryToHex_eq binary (by omega) (by omega) (by omega), ok_bind, Int.toNat_natCast,
    hexToBinary, stoulHex_map nonempty printed (by rw [value_nibbles]; omega), ok_bind,
    value_nibbles, number]
  have truncated := Bitset.drop_toString front (size.le.trans short)
  rw [size] at truncated
  simp only [Bitset.length_toString, sizeOfInt_natCast (show n < 2 ^ 64 by omega), position]
  rw [Str.substr_of_le (by rw [Bitset.length_toString]; exact Nat.sub_le _ _), truncated,
    List.take_of_length_le (by rw [size, npos]; omega)]

/-- **The documented bits.** The round trip returns the last `n` characters
exactly when they are the first ones. -/
theorem keepsTail_iff {s : Str} (binary : Binary s) {n : Nat} (positive : 1 ≤ n)
    (inside : n ≤ min s.length 32) :
    (binaryToHex s n >>= fun hex => hexToBinary hex n) = .ok (s.drop (s.length - n)) ↔
      s.take n = s.drop (s.length - n) := by
  obtain ⟨within, short⟩ := Nat.le_min.mp inside
  rw [hexToBinary_binaryToHex binary positive within short, Except.ok.injEq]

theorem keepsTail_iff_of_two :
    (binaryToHex "1101".toList 2 >>= fun hex => hexToBinary hex 2) = .ok "01".toList ↔
      "11".toList = "01".toList :=
  keepsTail_iff (s := "1101".toList) (by simp [Binary]) (n := 2) (by decide) (by decide)

/-- Of `10`, the round trip with one bit keeps the first one. -/
theorem lost_tail :
    (binaryToHex "10".toList 1 >>= fun hex => hexToBinary hex 1) ≠ .ok "0".toList := by
  have binary : Binary "10".toList := by simp [Binary]
  have kept := hexToBinary_binaryToHex binary (Nat.le_refl 1) (by decide) (by decide)
  rw [show ((1 : Nat) : Int) = 1 from rfl] at kept
  rw [kept]
  decide

/-! ## The conversion of the enclave -/

/-- On the whole of a string, both conversions return and print the same digits,
up to the case of the letters. -/
def Agrees (s : Str) : Prop :=
  ∃ hex hex', binaryToHex s (intOfSize s.length) = .ok hex ∧ PPRF.binaryToHex s = .ok hex' ∧
    hex.map Char.toLower = hex'.map Char.toLower

/-- **Agreement.** The two conversions agree exactly on the strings whose length
is an `int` that both can round up. -/
theorem agrees_iff {s : Str} (binary : Binary s) :
    Agrees s ↔ -6 ≤ intOfSize s.length ∧ intOfSize s.length + 3 < 2 ^ 31 := by
  constructor
  · rintro ⟨hex, _, returns, _⟩
    exact returns_only (intOfSize_bounds _).1 returns
  · rintro ⟨low, high⟩
    have printed := binaryToHex_eq binary low high (intOfSize_le _)
    have printed' := PPRF.binaryToHex_eq binary
    rw [if_pos high] at printed'
    refine ⟨_, _, printed, printed', ?_⟩
    rw [List.map_map, List.map_map]
    refine List.map_congr_left fun nibble member => ?_
    have below := nibbles_lt _ nibble member
    rw [Function.comp_apply, Function.comp_apply, toLower_upperDigit below,
      toLower_digitChar below]

theorem agrees_iff_of_five :
    Agrees "10111".toList ↔
      -6 ≤ intOfSize "10111".toList.length ∧ intOfSize "10111".toList.length + 3 < 2 ^ 31 :=
  agrees_iff (by simp [Binary])

/-- The length of `2^31` zeros is not an `int`: one conversion throws. -/
theorem disagreement : ¬ Agrees (List.replicate (2 ^ 31) '0') := by
  rintro ⟨hex, _, returns, _⟩
  have low := (returns_only (intOfSize_bounds _).1 returns).1
  have length : intOfSize (2 ^ 31) = -2 ^ 31 := by decide
  rw [List.length_replicate, length] at low
  omega

end Ssle.Utils
