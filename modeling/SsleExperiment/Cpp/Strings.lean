import Mathlib.Data.List.TakeWhile
import SsleExperiment.Cpp.Basic
import SsleExperiment.Math.Numerals

/-! # Strings and indices

The functions of the standard library that the program calls on strings, and the
conversions between `size_t`, in which strings are indexed, and `int`, in which
the program keeps its indices. A position that is not an `int` comes out as
another one, and `npos` as `-1`.
-/

namespace Ssle

/-- `std::string::npos`. -/
def npos : Nat := 2 ^ 64 - 1

/-- A `size_t` converted to `int`. -/
def intOfSize (n : Nat) : Int := (Int32.ofNat n).toInt

/-- An `int` converted to `size_t`. -/
def sizeOfInt (i : Int) : Nat := (i % 2 ^ 64).toNat

/-- The result of an operation on `int`s. -/
def intResult (x : Int) : Except Fault Int :=
  if -2 ^ 31 ≤ x ∧ x < 2 ^ 31 then .ok x else .error .signedOverflow

/-- Sizes below the range of `int` stay as they are. -/
theorem intOfSize_of_lt {n : Nat} (small : n < 2 ^ 31) : intOfSize n = n :=
  Int32.toInt_ofNat_of_lt small

theorem intOfSize_bounds (n : Nat) : -2 ^ 31 ≤ intOfSize n ∧ intOfSize n < 2 ^ 31 :=
  ⟨Int32.le_toInt _, Int32.toInt_lt _⟩

/-- Converting a size does not make it larger. -/
theorem intOfSize_le (n : Nat) : intOfSize n ≤ n := by
  by_cases small : n < 2 ^ 31
  · exact Int.le_of_eq (intOfSize_of_lt small)
  · have high := (intOfSize_bounds n).2
    omega

theorem intOfSize_npos : intOfSize npos = -1 := by decide

/-- An `int` that is not negative is converted to itself. -/
theorem sizeOfInt_natCast {n : Nat} (small : n < 2 ^ 64) : sizeOfInt n = n := by
  rw [sizeOfInt]
  omega

theorem sizeOfInt_neg_one : sizeOfInt (-1) = npos := by simp [sizeOfInt, npos]

/-- An operation that stays in range returns. -/
theorem intResult_of_small {x : Int} (low : -2 ^ 31 ≤ x) (high : x < 2 ^ 31) :
    intResult x = .ok x := if_pos ⟨low, high⟩

/-- An operation past the largest `int` overflows. -/
theorem intResult_of_large {x : Int} (large : 2 ^ 31 ≤ x) :
    intResult x = .error .signedOverflow :=
  if_neg fun bounds => Int.not_le.mpr bounds.2 large

/-- `values[i]` on a `std::vector`, undefined outside its size. -/
def loadAt {α : Type*} (values : List α) (i : Nat) : Except Fault α :=
  match values[i]? with
  | some value => .ok value
  | none => .error .indexOutOfRange

/-- A `char` as an `int`: it is signed. -/
def charInt (c : Char) : Int := (Int8.ofNat c.toNat).toInt

namespace Str

/-- `s[i]`: the terminator at the size of the string, undefined after it. -/
def charAt (s : Str) (i : Nat) : Except Fault Char :=
  if i = s.length then .ok '\x00' else loadAt s i

/-- Characters of the string can be read. -/
theorem charAt_of_lt {s : Str} {i : Nat} (inside : i < s.length) : s.charAt i = .ok s[i] := by
  rw [charAt, if_neg (Nat.ne_of_lt inside), loadAt, List.getElem?_eq_getElem inside]

/-- `s.find_first_of(c, pos)`. -/
def findFirstOf (s : Str) (c : Char) (pos : Nat) : Nat :=
  if c ∈ s.drop pos then pos + ((s.drop pos).takeWhile (· ≠ c)).length else npos

/-- `std::string(s, pos, count)` and `s.substr(pos, count)`, which throw when
`pos` lies past the end. -/
def substr (s : Str) (pos count : Nat) : Except Fault Str :=
  if pos ≤ s.length then .ok ((s.drop pos).take count) else .error .outOfRange

/-- Pieces from inside the string can be taken. -/
theorem substr_of_le {s : Str} {pos : Nat} (inside : pos ≤ s.length) (count : Nat) :
    s.substr pos count = .ok ((s.drop pos).take count) := if_pos inside

end Str

/-! ## Numbers in strings -/

/-- `std::isspace`. -/
def isSpace (c : Char) : Bool :=
  c = ' ' || c = '\t' || c = '\n' || c = '\x0b' || c = '\x0c' || c = '\r'

/-- The sign that `strtol` reads, and what follows it. -/
def readSign : Str → Bool × Str
  | '-' :: rest => (true, rest)
  | '+' :: rest => (false, rest)
  | s => (false, s)

/-- `strtol` in base ten: the number at the start of a string, after spaces and
a sign, brought into the range of `long`. -/
def strtol (s : Str) : Int :=
  let (negative, rest) := readSign (s.dropWhile isSpace)
  let magnitude : Int := Nat.ofDigitChars 10 (rest.takeWhile Char.isDigit) 0
  max (-2 ^ 63) (min (2 ^ 63 - 1) (if negative then -magnitude else magnitude))

/-- `atoi`: the low 32 bits of `strtol`. -/
def atoi (s : Str) : Int32 := Int32.ofInt (strtol s)

/-- A number with its sign is read, as far as it fits a `long`. -/
theorem strtol_of_digits {s : Str} {negative : Bool} {n : Nat}
    (signed : readSign (s.dropWhile isSpace) = (negative, Nat.toDigits 10 n)) :
    strtol s = max (-2 ^ 63) (min (2 ^ 63 - 1) (if negative then -(n : Int) else n)) := by
  have digits : (Nat.toDigits 10 n).takeWhile Char.isDigit = Nat.toDigits 10 n :=
    List.takeWhile_eq_self_iff.mpr fun c member =>
      Nat.isDigit_of_mem_toDigits (by decide) (by decide) member
  simp only [strtol, signed, digits, Nat.ofDigitChars_ten_toDigits]

/-- Decimal digits begin with neither blanks nor a sign. -/
theorem readSign_digits (n : Nat) :
    readSign ((Nat.toDigits 10 n).dropWhile isSpace) = (false, Nat.toDigits 10 n) := by
  cases digits : Nat.toDigits 10 n with
  | nil => exact (Nat.toDigits_ne_nil digits).elim
  | cons c rest =>
      have digit : c.isDigit := Nat.isDigit_of_mem_toDigits (b := 10) (n := n) (by decide)
        (by decide) (digits ▸ List.mem_cons_self)
      have noSpace : isSpace c = false := by
        by_contra space
        simp only [isSpace, Bool.not_eq_false, Bool.or_eq_true, decide_eq_true_eq] at space
        rcases space with ((((rfl | rfl) | rfl) | rfl) | rfl) | rfl <;> cases digit
      have noMinus : c ≠ '-' := fun same => by rw [same] at digit; cases digit
      have noPlus : c ≠ '+' := fun same => by rw [same] at digit; cases digit
      rw [List.dropWhile_cons, noSpace]
      unfold readSign
      split
      next same => exact (noMinus (List.cons.inj same).1).elim
      next same => exact (noPlus (List.cons.inj same).1).elim
      next => rfl

/-- `atoi` reads back what `std::to_string` prints for an `int`. -/
theorem atoi_toString (n : Int32) : atoi (toString n.toInt).toList = n := by
  have low := Int32.le_toInt n
  have high := Int32.toInt_lt n
  rw [atoi, Int.toString_eq_repr, Int.repr_eq_if]
  split
  next nonnegative =>
    rw [Nat.toList_repr, strtol_of_digits (readSign_digits _), if_neg Bool.false_ne_true,
      Int.toNat_of_nonneg nonnegative, Int.min_eq_right (by omega), Int.max_eq_right (by omega),
      Int32.ofInt_toInt]
  next negative =>
    have signed : readSign (("-" ++ (-n.toInt).toNat.repr).toList.dropWhile isSpace) =
        (true, Nat.toDigits 10 (-n.toInt).toNat) := by
      rw [String.toList_append, Nat.toList_repr]
      rfl
    rw [strtol_of_digits signed, if_pos rfl, Int.toNat_of_nonneg (by omega), Int.neg_neg,
      Int.min_eq_right (by omega), Int.max_eq_right (by omega), Int32.ofInt_toInt]

/-! ## Hexadecimal numbers in strings -/

/-- The value of a hexadecimal digit. -/
def hexDigit (c : Char) : Option Nat :=
  if '0' ≤ c ∧ c ≤ '9' then some (c.toNat - '0'.toNat)
  else if 'a' ≤ c ∧ c ≤ 'f' then some (c.toNat - 'a'.toNat + 10)
  else if 'A' ≤ c ∧ c ≤ 'F' then some (c.toNat - 'A'.toNat + 10)
  else none

/-- The digits at the start of a string. -/
def readHexDigits : Str → List Nat
  | [] => []
  | c :: rest =>
      match hexDigit c with
      | some digit => digit :: readHexDigits rest
      | none => []

/-- The prefix `0x` counts as one if a digit follows it. -/
def skipHexPrefix : Str → Str
  | '0' :: x :: c :: rest =>
      if (x = 'x' ∨ x = 'X') ∧ (hexDigit c).isSome then c :: rest else '0' :: x :: c :: rest
  | s => s

/-- `std::stoul` in base sixteen, for an `unsigned long` of 64 bits. -/
def stoulHex (s : Str) : Except Fault UInt64 :=
  let (negative, rest) := readSign (s.dropWhile isSpace)
  let digits := readHexDigits (skipHexPrefix rest)
  let value := Numerals.value 16 digits
  if digits = [] then .error .invalidArgument
  else if 2 ^ 64 ≤ value then .error .outOfRange
  else .ok (if negative then -UInt64.ofNat value else UInt64.ofNat value)

/-- Blanks are no digits. -/
theorem hexDigit_eq_none_of_isSpace {c : Char} (space : isSpace c = true) : hexDigit c = none := by
  unfold isSpace at space
  simp only [Bool.or_eq_true, decide_eq_true_eq] at space
  rcases space with ((((rfl | rfl) | rfl) | rfl) | rfl) | rfl <;> rfl

section Digits

variable {s : Str} (hexadecimal : ∀ c ∈ s, (hexDigit c).isSome)

include hexadecimal

/-- Hexadecimal digits do not begin with blanks. -/
theorem dropWhile_isSpace_of_hexDigits : s.dropWhile isSpace = s := by
  cases s with
  | nil => rfl
  | cons c rest =>
      apply List.dropWhile_cons_of_neg
      intro space
      have digit := hexadecimal c List.mem_cons_self
      rw [hexDigit_eq_none_of_isSpace space] at digit
      cases digit

theorem readSign_of_hexDigits : readSign s = (false, s) := by
  unfold readSign
  split
  · cases hexadecimal '-' List.mem_cons_self
  · cases hexadecimal '+' List.mem_cons_self
  · rfl

theorem skipHexPrefix_of_hexDigits : skipHexPrefix s = s := by
  unfold skipHexPrefix
  split
  next x c rest =>
    apply if_neg
    rintro ⟨rfl | rfl, _⟩
    · cases hexadecimal 'x' (List.mem_cons_of_mem _ List.mem_cons_self)
    · cases hexadecimal 'X' (List.mem_cons_of_mem _ List.mem_cons_self)
  next => rfl

end Digits

/-- Printed digits are read back. -/
theorem readHexDigits_map {digits : List Nat} {print : Nat → Char}
    (prints : ∀ digit ∈ digits, hexDigit (print digit) = some digit) :
    readHexDigits (digits.map print) = digits := by
  induction digits with
  | nil => rfl
  | cons digit digits ih =>
      rw [List.forall_mem_cons] at prints
      rw [List.map_cons, readHexDigits, prints.1, ih prints.2]

/-- `stoul` reads back what is printed with hexadecimal digits. -/
theorem stoulHex_map {digits : List Nat} {print : Nat → Char} (nonempty : digits ≠ [])
    (prints : ∀ digit ∈ digits, hexDigit (print digit) = some digit)
    (small : Numerals.value 16 digits < 2 ^ 64) :
    stoulHex (digits.map print) = .ok (UInt64.ofNat (Numerals.value 16 digits)) := by
  have hexadecimal : ∀ c ∈ digits.map print, (hexDigit c).isSome := by
    intro c member
    obtain ⟨digit, among, rfl⟩ := List.mem_map.mp member
    rw [prints digit among]
    rfl
  unfold stoulHex
  rw [dropWhile_isSpace_of_hexDigits hexadecimal, readSign_of_hexDigits hexadecimal]
  simp only
  rw [skipHexPrefix_of_hexDigits hexadecimal, readHexDigits_map prints, if_neg nonempty,
    if_neg (Nat.not_le.mpr small)]
  rfl

/-! ## Numbers in other bases -/

/-- The digits at the start of a string, in a base of at most sixteen. -/
def readDigits (base : Nat) : Str → List Nat
  | [] => []
  | c :: rest =>
      match hexDigit c with
      | some digit => if digit < base then digit :: readDigits base rest else []
      | none => []

/-- `std::stoul` in a base below sixteen, for an `unsigned long` of 64 bits. -/
def stoul (base : Nat) (s : Str) : Except Fault UInt64 :=
  let (negative, rest) := readSign (s.dropWhile isSpace)
  let digits := readDigits base rest
  let value := Numerals.value base digits
  if digits = [] then .error .invalidArgument
  else if 2 ^ 64 ≤ value then .error .outOfRange
  else .ok (if negative then -UInt64.ofNat value else UInt64.ofNat value)

/-- `std::stoi` in base ten. -/
def stoi (s : Str) : Except Fault Int32 :=
  let (negative, rest) := readSign (s.dropWhile isSpace)
  let digits := readDigits 10 rest
  let magnitude : Int := Numerals.value 10 digits
  let value := if negative then -magnitude else magnitude
  if digits = [] then .error .invalidArgument
  else if value < -2 ^ 31 ∨ 2 ^ 31 ≤ value then .error .outOfRange
  else .ok (Int32.ofInt value)

section Digits

variable {base : Nat} {s : Str} {digitOf : Char → Nat}
  (reads : ∀ c ∈ s, hexDigit c = some (digitOf c))

include reads

/-- All characters of a numeral are read. -/
theorem readDigits_eq_map (below : ∀ digit ∈ s.map digitOf, digit < base) :
    readDigits base s = s.map digitOf := by
  induction s with
  | nil => rfl
  | cons c s ih =>
      rw [List.forall_mem_cons] at reads
      rw [List.map_cons, List.forall_mem_cons] at below
      rw [readDigits, reads.1, List.map_cons, ← ih reads.2 below.2]
      exact if_pos below.1

/-- A numeral begins with neither blanks nor a sign. -/
theorem readSign_of_reads : readSign (s.dropWhile isSpace) = (false, s) := by
  have hexadecimal : ∀ c ∈ s, (hexDigit c).isSome := fun c member => by
    rw [reads c member]
    rfl
  rw [dropWhile_isSpace_of_hexDigits hexadecimal, readSign_of_hexDigits hexadecimal]

variable (nonempty : s ≠ [])

include nonempty

/-- A numeral that fits is read as its value. -/
theorem stoul_of_reads (below : ∀ digit ∈ s.map digitOf, digit < base)
    (small : Numerals.value base (s.map digitOf) < 2 ^ 64) :
    stoul base s = .ok (UInt64.ofNat (Numerals.value base (s.map digitOf))) := by
  have some : s.map digitOf ≠ [] := fun empty => nonempty (List.map_eq_nil_iff.mp empty)
  unfold stoul
  rw [readSign_of_reads reads]
  simp only
  rw [readDigits_eq_map reads below, if_neg some, if_neg (Nat.not_le.mpr small)]
  rfl

/-- A decimal numeral is read as its value, and is out of range if that is no `int`. -/
theorem stoi_of_reads (below : ∀ digit ∈ s.map digitOf, digit < 10) :
    stoi s = if Numerals.value 10 (s.map digitOf) < 2 ^ 31
      then .ok (Int32.ofNat (Numerals.value 10 (s.map digitOf))) else .error .outOfRange := by
  have some : s.map digitOf ≠ [] := fun empty => nonempty (List.map_eq_nil_iff.mp empty)
  unfold stoi
  rw [readSign_of_reads reads]
  simp only [Bool.false_eq_true, ↓reduceIte]
  rw [readDigits_eq_map reads below, if_neg some]
  by_cases small : Numerals.value 10 (s.map digitOf) < 2 ^ 31
  · rw [if_pos small, if_neg (by omega)]
    rfl
  · rw [if_neg small, if_pos (by omega)]

end Digits

end Ssle
