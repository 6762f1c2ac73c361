import Mathlib.Data.Nat.Digits.Lemmas
import SsleExperiment.Math.Blocks

/-! # Numerals

The value of a numeral, the most significant digit first. A numeral is read from
the left by multiplying and adding (`Ssle.Numerals.value_concat`), and may be
regrouped from the right: its groups are the digits of the same value in a power
of the base (`Ssle.Numerals.value_regroup`). Numerals of one length and one
value are the same (`Ssle.Numerals.value_inj`).
-/

namespace Ssle.Numerals

/-- The value of the digits, the most significant first. -/
def value (base : Nat) (digits : List Nat) : Nat := Nat.ofDigits base digits.reverse

variable {base : Nat}

@[simp] theorem value_nil : value base [] = 0 := rfl

/-- Digits that follow shift the value by their number. -/
theorem value_append (xs ys : List Nat) :
    value base (xs ++ ys) = value base xs * base ^ ys.length + value base ys := by
  rw [value, List.reverse_append, Nat.ofDigits_append, List.length_reverse, Nat.add_comm,
    Nat.mul_comm]
  rfl

@[simp] theorem value_singleton (digit : Nat) : value base [digit] = digit :=
  Nat.ofDigits_singleton

/-- A last digit shifts the value by one place and is added. -/
theorem value_concat (xs : List Nat) (digit : Nat) :
    value base (xs ++ [digit]) = value base xs * base + digit := by
  rw [value_append, value_singleton, List.length_singleton, pow_one]

/-- A first digit counts for its place. -/
theorem value_cons (digit : Nat) (xs : List Nat) :
    value base (digit :: xs) = digit * base ^ xs.length + value base xs := by
  rw [← List.singleton_append, value_append, value_singleton]

/-- Leading zeros do not count. -/
theorem value_replicate_zero_append (count : Nat) (xs : List Nat) :
    value base (List.replicate count 0 ++ xs) = value base xs := by
  rw [value, List.reverse_append, List.reverse_replicate, Nat.ofDigits_append_replicate_zero]
  rfl

/-- The value fits as many digits as are written. -/
theorem value_lt {xs : List Nat} (large : 1 < base) (digits : ∀ digit ∈ xs, digit < base) :
    value base xs < base ^ xs.length := by
  rw [← List.length_reverse]
  exact Nat.ofDigits_lt_base_pow_length large fun digit member =>
    digits digit (List.mem_reverse.mp member)

/-- **Uniqueness.** -/
theorem value_inj {xs ys : List Nat} (large : 1 < base) (same : xs.length = ys.length)
    (digits : ∀ digit ∈ xs, digit < base) (digits' : ∀ digit ∈ ys, digit < base)
    (equal : value base xs = value base ys) : xs = ys := by
  rw [← List.reverse_inj]
  refine Nat.ofDigits_inj_of_len_eq large (by simpa using same) (fun digit member => ?_)
    (fun digit member => ?_) equal
  · exact digits digit (List.mem_reverse.mp member)
  · exact digits' digit (List.mem_reverse.mp member)

/-- The value is zero for zeros only. -/
theorem value_eq_zero_iff {xs : List Nat} (positive : 0 < base) :
    value base xs = 0 ↔ ∀ digit ∈ xs, digit = 0 := by
  induction xs with
  | nil => exact iff_of_true rfl (List.forall_mem_nil _)
  | cons digit xs ih =>
      have power := Nat.pow_pos (n := xs.length) positive
      rw [List.forall_mem_cons, value_cons, Nat.add_eq_zero_iff, ih, Nat.mul_eq_zero,
        or_iff_left (Nat.ne_of_gt power)]

/-- A numeral is below a power of the base if its other digits are zero. -/
theorem value_lt_pow_iff {xs : List Nat} (large : 1 < base) (digits : ∀ digit ∈ xs, digit < base)
    (count : Nat) :
    value base xs < base ^ count ↔ ∀ digit ∈ xs.take (xs.length - count), digit = 0 := by
  have positive := Nat.zero_lt_of_lt large
  by_cases short : xs.length ≤ count
  · rw [Nat.sub_eq_zero_of_le short, List.take_zero]
    refine iff_of_true ((value_lt large digits).trans_le ?_) (List.forall_mem_nil _)
    exact Nat.pow_le_pow_right positive short
  · have size : (xs.drop (xs.length - count)).length = count := by
      rw [List.length_drop]
      omega
    have low : value base (xs.drop (xs.length - count)) <
        base ^ (xs.drop (xs.length - count)).length :=
      value_lt large fun digit member => digits digit (List.mem_of_mem_drop member)
    have split := @value_append base (xs.take (xs.length - count)) (xs.drop (xs.length - count))
    rw [List.take_append_drop] at split
    rw [size] at split low
    rw [← value_eq_zero_iff positive, split]
    refine ⟨fun below => ?_, fun zero => by rwa [zero, Nat.zero_mul, Nat.zero_add]⟩
    by_contra nonzero
    have grown := Nat.le_mul_of_pos_left (base ^ count) (Nat.pos_of_ne_zero nonzero)
    omega

/-- Numerals of the same value in one base have the same value in another. -/
theorem value_eq_of_value_eq {xs ys : List Nat} (large : 1 < base)
    (digits : ∀ digit ∈ xs, digit < base) (digits' : ∀ digit ∈ ys, digit < base)
    (equal : value base xs = value base ys) (other : Nat) : value other xs = value other ys := by
  have below {zs : List Nat} (digits : ∀ digit ∈ zs, digit < base) (count : Nat) :
      ∀ digit ∈ List.replicate count 0 ++ zs, digit < base := by
    intro digit member
    rcases List.mem_append.mp member with zero | inside
    · rw [List.eq_of_mem_replicate zero]
      exact Nat.zero_lt_of_lt large
    · exact digits digit inside
  have padded : List.replicate ys.length 0 ++ xs = List.replicate xs.length 0 ++ ys := by
    apply value_inj large ?_ (below digits _) (below digits' _)
    · rw [value_replicate_zero_append, value_replicate_zero_append, equal]
    · simp only [List.length_append, List.length_replicate, Nat.add_comm]
  rw [← value_replicate_zero_append ys.length xs, padded, value_replicate_zero_append]

/-- A numeral of zeros and ones is at most the repeated one. -/
theorem value_of_bits_lt {xs : List Nat} (large : 1 < base) (bits : ∀ digit ∈ xs, digit < 2) :
    (base - 1) * value base xs < base ^ xs.length := by
  induction xs with
  | nil => exact Nat.one_pos
  | cons digit xs ih =>
      rw [List.forall_mem_cons] at bits
      have rest := ih bits.2
      have step : base ^ xs.length * base = base ^ xs.length * (base - 1) + base ^ xs.length := by
        rw [← Nat.mul_succ, Nat.succ_eq_add_one, Nat.sub_add_cancel (Nat.le_of_lt large)]
      have first : digit * base ^ xs.length ≤ base ^ xs.length := by
        have := Nat.mul_le_mul_right (base ^ xs.length) (Nat.le_of_lt_succ bits.1)
        rwa [Nat.one_mul] at this
      have scaled := Nat.mul_le_mul_left (base - 1) first
      rw [value_cons, List.length_cons, pow_succ, step, Nat.mul_add,
        Nat.mul_comm (base ^ xs.length)]
      omega

/-- The lowest digits of a number. -/
theorem value_range (base n width : Nat) :
    value base ((List.range width).map fun i => n / base ^ (width - 1 - i) % base) =
      n % base ^ width := by
  induction width generalizing n with
  | zero => simp [Nat.mod_one]
  | succ width ih =>
      have higher : (List.range width).map (fun i => n / base ^ (width + 1 - 1 - i) % base) =
          (List.range width).map fun i => n / base / base ^ (width - 1 - i) % base := by
        refine List.map_congr_left fun i below => ?_
        have exponent : width + 1 - 1 - i = width - 1 - i + 1 := by
          have := List.mem_range.mp below
          omega
        rw [exponent, pow_succ, Nat.mul_comm, Nat.div_div_eq_div_mul]
      have lowest : n / base ^ (width + 1 - 1 - width) % base = n % base := by simp
      rw [List.range_succ, List.map_append, List.map_singleton, value_concat, higher, ih, lowest,
        pow_succ, Nat.mul_comm (base ^ width), Nat.mod_mul, Nat.mul_comm, Nat.add_comm]

/-- Full groups are digits in the power of the base. -/
theorem value_flatten {size : Nat} {groups : List (List Nat)}
    (full : ∀ group ∈ groups, group.length = size) :
    value base groups.flatten = value (base ^ size) (groups.map (value base)) := by
  induction groups with
  | nil => rfl
  | cons group groups ih =>
      rw [List.forall_mem_cons] at full
      have length : groups.flatten.length = size * groups.length :=
        (Blocks.length_flatten_of_full full.2).trans (Nat.mul_comm _ _)
      rw [List.flatten_cons, List.map_cons, value_append, value_cons, ih full.2, length,
        List.length_map, pow_mul]

/-- The digits that a numeral is printed with read back as its value. -/
theorem value_digits (base n : Nat) : value base (Nat.digits base n).reverse = n := by
  rw [value, List.reverse_reverse, Nat.ofDigits_digits]

/-! ## Groups from the right -/

/-- The digits with the zeros on the left that fill the first group. -/
def padded (size : Nat) (digits : List Nat) : List Nat :=
  List.replicate ((digits.length + size - 1) / size * size - digits.length) 0 ++ digits

/-- The values of the groups of `size` digits, counted from the right. -/
def regroup (base size : Nat) (digits : List Nat) : List Nat :=
  (Blocks.blocks size (padded size digits)).map (value base)

variable {size : Nat}

/-- Padding completes the last group. -/
theorem length_padded (positive : 0 < size) (digits : List Nat) :
    (padded size digits).length = (digits.length + size - 1) / size * size := by
  have enough := Nat.lt_div_mul_add (a := digits.length + size - 1) positive
  rw [padded, List.length_append, List.length_replicate]
  omega

/-- There is a group for each started one. -/
theorem length_regroup (positive : 0 < size) (digits : List Nat) :
    (regroup base size digits).length = (digits.length + size - 1) / size := by
  rw [regroup, List.length_map]
  exact Blocks.length_blocks_of_mul positive (length_padded positive digits)

/-- **Regrouping.** The groups are a numeral of the same value in the power of
the base. -/
theorem value_regroup (positive : 0 < size) (digits : List Nat) :
    value (base ^ size) (regroup base size digits) = value base digits := by
  have full : ∀ group ∈ Blocks.blocks size (padded size digits), group.length = size :=
    fun group => Blocks.length_of_mem_blocks positive (length_padded positive digits)
  rw [regroup, ← value_flatten full, Blocks.flatten_blocks positive, padded,
    value_replicate_zero_append]

/-- Groups of digits are digits of the power of the base. -/
theorem regroup_lt (large : 1 < base) (positive : 0 < size) {digits : List Nat}
    (below : ∀ digit ∈ digits, digit < base) :
    ∀ group ∈ regroup base size digits, group < base ^ size := by
  intro group member
  obtain ⟨block, among, rfl⟩ := List.mem_map.mp member
  have full := Blocks.length_of_mem_blocks positive (length_padded positive digits) among
  rw [← full]
  apply value_lt large
  intro digit inside
  rcases List.mem_append.mp (Blocks.mem_of_mem_blocks positive among inside) with zero | inside
  · rw [List.eq_of_mem_replicate zero]
    exact Nat.zero_lt_of_lt large
  · exact below digit inside

@[simp] theorem regroup_nil (positive : 0 < size) : regroup base size [] = [] := by
  rw [← List.length_eq_zero_iff, length_regroup positive, List.length_nil, Nat.zero_add]
  exact Nat.div_eq_of_lt (Nat.sub_one_lt_of_lt positive)

/-- A full group on the right is the last digit. -/
theorem regroup_append (positive : 0 < size) (xs : List Nat) {ys : List Nat}
    (full : ys.length = size) :
    regroup base size (xs ++ ys) = regroup base size xs ++ [value base ys] := by
  have count : ((xs ++ ys).length + size - 1) / size * size - (xs ++ ys).length =
      (xs.length + size - 1) / size * size - xs.length := by
    have longer : (xs ++ ys).length + size - 1 = xs.length + size - 1 + size := by
      rw [List.length_append, full]
      omega
    rw [longer, Nat.add_div_right _ positive, Nat.succ_mul, List.length_append, full]
    omega
  rw [regroup, padded, count, ← List.append_assoc]
  change (Blocks.blocks size (padded size xs ++ ys)).map (value base) = _
  rw [Blocks.blocks_append positive (length_padded positive xs) full, List.map_append,
    List.map_singleton]
  rfl

/-- Digits that fit one group are one digit. -/
theorem regroup_of_le {digits : List Nat} (some : 0 < digits.length)
    (short : digits.length ≤ size) : regroup base size digits = [value base digits] := by
  have positive := some.trans_le short
  have single : (digits.length + size - 1) / size = 1 :=
    Nat.div_eq_of_lt_le (by omega) (by omega)
  have full := length_padded positive digits
  rw [single, Nat.one_mul] at full
  have none : ([] : List Nat).length = 0 * size := (Nat.zero_mul size).symm
  have alone := Blocks.blocks_append positive none full
  rw [List.nil_append, Blocks.blocks_nil, List.nil_append] at alone
  rw [regroup, alone, List.map_singleton, padded, value_replicate_zero_append]

end Ssle.Numerals
