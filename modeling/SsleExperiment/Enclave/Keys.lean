import Mathlib.Algebra.Order.Ring.GeomSum
import SsleExperiment.Enclave.Rounds
import SsleExperiment.Utils.Bits

/-! # The odds of a key

`prf_string` writes the value of a PRF call in base two and cuts off what goes beyond
a multiple of seven digits. A key is therefore returned for all the values that begin
with it and have up to six digits more, and for no others
(`Ssle.PPRF.align_decimalToBinary_iff`). Since the values are balanced, this tells
from how many words each string is returned (`Ssle.PPRF.card_prfString`).
-/

namespace Ssle.PPRF

open Finset

/-- `prf_string`. -/
def prfString (state : PRFState) : Except Fault Str × PRFState :=
  (align (decimalToBinary (prf state).1), (prf state).2)

/-- A key that begins with a one and has whole blocks. -/
structure Aligned (s : Str) : Prop where
  binary : Binary s
  leads : s.head? = some '1'
  whole : s.length % 7 = 0

instance (s : Str) : Decidable (Aligned s) :=
  decidable_of_iff
    (s.all (fun c => c = '0' ∨ c = '1') = true ∧ s.head? = some '1' ∧ s.length % 7 = 0)
    ⟨fun aligned => ⟨fun c member => of_decide_eq_true (List.all_eq_true.mp aligned.1 c member),
      aligned.2.1, aligned.2.2⟩,
    fun aligned => ⟨List.all_eq_true.mpr fun c member => decide_eq_true (aligned.binary c member),
      aligned.leads, aligned.whole⟩⟩

/-! ## The values of a key -/

/-- A number is the value of its binary digits. -/
theorem bitValue_decimalToBinary (v : UInt64) : bitValue (decimalToBinary v) = v.toNat :=
  (Utils.writes_decimalToBinary v).value

/-- A number has as many digits as there are powers of two up to it. -/
theorem lt_length_decimalToBinary_iff (v : UInt64) (count : Nat) :
    count < (decimalToBinary v).length ↔ 2 ^ count ≤ v.toNat := by
  rw [decimalToBinary_eq, List.length_reverse, List.length_map]
  exact Nat.lt_digits_length_iff Nat.one_lt_two _

/-- The value of a string that begins with a one. -/
theorem pow_le_bitValue {s : Str} (leads : s.head? = some '1') :
    2 ^ (s.length - 1) ≤ bitValue s := by
  cases s with
  | nil => cases leads
  | cons c s =>
      cases leads
      rw [bitValue_cons]
      exact Nat.le_add_right_of_le (Nat.le_of_eq (Nat.one_mul _).symm)

theorem bitValue_pos {s : Str} (leads : s.head? = some '1') : 0 < bitValue s :=
  (Nat.two_pow_pos _).trans_le (pow_le_bitValue leads)

/-- The digits of a value that begins with a string. -/
theorem length_decimalToBinary_eq {s : Str} (leads : s.head? = some '1') {v : UInt64}
    {more : Nat} (low : bitValue s * 2 ^ more ≤ v.toNat)
    (high : v.toNat < (bitValue s + 1) * 2 ^ more) :
    (decimalToBinary v).length = s.length + more := by
  have some : 0 < s.length := by
    cases s with
    | nil => cases leads
    | cons c s => exact Nat.succ_pos _
  have above : s.length + more - 1 < (decimalToBinary v).length := by
    rw [lt_length_decimalToBinary_iff]
    refine le_trans ?_ low
    have shifted : s.length + more - 1 = s.length - 1 + more := by omega
    rw [shifted, pow_add]
    exact Nat.mul_le_mul_right _ (pow_le_bitValue leads)
  have below : ¬ s.length + more < (decimalToBinary v).length := by
    rw [lt_length_decimalToBinary_iff, Nat.not_le, pow_add]
    exact high.trans_le (Nat.mul_le_mul_right _ (bitValue_lt s))
  omega

/-- **The values of a key.** -/
theorem align_decimalToBinary_iff {s : Str} (aligned : Aligned s) (v : UInt64) :
    align (decimalToBinary v) = .ok s ↔
      ∃ more < 7, bitValue s * 2 ^ more ≤ v.toNat ∧ v.toNat < (bitValue s + 1) * 2 ^ more := by
  rw [align_eq, Except.ok.injEq]
  constructor
  · intro cut
    refine ⟨(decimalToBinary v).length % 7, Nat.mod_lt _ (by decide), ?_⟩
    have value := bitValue_take (decimalToBinary v)
      (Nat.sub_add_cancel (Nat.mod_le (decimalToBinary v).length 7)).symm
    rw [cut, bitValue_decimalToBinary] at value
    rw [value]
    exact ⟨Nat.div_mul_le_self _ _, Nat.lt_mul_of_div_lt (Nat.lt_succ_self _) (Nat.two_pow_pos _)⟩
  · rintro ⟨more, few, low, high⟩
    have size := length_decimalToBinary_eq aligned.leads low high
    have kept : (decimalToBinary v).length - (decimalToBinary v).length % 7 = s.length := by
      have whole := aligned.whole
      omega
    have binary : Binary (decimalToBinary v) := binary_decimalToBinary v
    rw [kept]
    refine bitValue_inj (binary.take _) aligned.binary ?_ ?_
    · rw [List.length_take]
      omega
    · rw [bitValue_take _ size, bitValue_decimalToBinary]
      exact Nat.div_eq_of_lt_le low high

/-- The empty key. -/
theorem align_decimalToBinary_eq_nil_iff (v : UInt64) :
    align (decimalToBinary v) = .ok [] ↔ v.toNat < 2 ^ 6 := by
  rw [align_eq, Except.ok.injEq, ← Nat.not_le, ← lt_length_decimalToBinary_iff,
    List.take_eq_nil_iff]
  have small := Nat.mod_lt (decimalToBinary v).length (by decide : 0 < 7)
  constructor
  · rintro (none | none)
    · omega
    · simp [none]
  · intro few
    exact .inl (by omega)

/-- The digits of a value begin with a one. -/
theorem head?_decimalToBinary {v : UInt64} (nonempty : decimalToBinary v ≠ []) :
    (decimalToBinary v).head? = some '1' := by
  have binary : Binary (decimalToBinary v) := binary_decimalToBinary v
  have value := bitValue_decimalToBinary v
  have least := lt_length_decimalToBinary_iff v ((decimalToBinary v).length - 1)
  cases digits : decimalToBinary v with
  | nil => exact absurd digits nonempty
  | cons c rest =>
      rw [digits] at binary value least
      obtain rfl | rfl := binary c List.mem_cons_self
      · rw [bitValue_cons] at value
        rw [List.length_cons, Nat.add_sub_cancel] at least
        have small := bitValue_lt rest
        have zero : bitDigit '0' = 0 := rfl
        have large := least.mp (Nat.lt_succ_self _)
        rw [zero, Nat.zero_mul, Nat.zero_add] at value
        omega
      · rfl

/-- A key is empty or begins with a one. -/
theorem eq_nil_or_aligned {s : Str} {v : UInt64} (returned : align (decimalToBinary v) = .ok s) :
    s = [] ∨ Aligned s := by
  rw [align_eq, Except.ok.injEq] at returned
  have binary : Binary (decimalToBinary v) := binary_decimalToBinary v
  subst returned
  refine or_iff_not_imp_left.mpr fun nonempty => ⟨binary.take _, ?_, ?_⟩
  · rw [List.take_eq_nil_iff, not_or] at nonempty
    rw [List.head?_take, if_neg nonempty.1]
    exact head?_decimalToBinary nonempty.2
  · rw [List.length_take]
    omega

/-! ## Counting -/

/-- The numbers that begin with the digits of another one and have less than `count`
more. -/
def beginning (lead count : ℕ) : Finset ℕ :=
  (range count).biUnion fun more => Ico (lead * 2 ^ more) ((lead + 1) * 2 ^ more)

/-- The numbers that begin with given digits, by how many follow. -/
theorem mem_beginning_iff {lead count value : ℕ} :
    value ∈ beginning lead count ↔
      ∃ more < count, lead * 2 ^ more ≤ value ∧ value < (lead + 1) * 2 ^ more := by
  simp only [beginning, mem_biUnion, mem_range, mem_Ico]

/-- With fewer digits more, a number that begins with the same digits is smaller. -/
theorem beginning_ordered {lead few many : ℕ} (leads : 0 < lead) (fewer : few < many) :
    (lead + 1) * 2 ^ few ≤ lead * 2 ^ many := by
  calc (lead + 1) * 2 ^ few
      ≤ lead * 2 * 2 ^ few := Nat.mul_le_mul_right _ (by omega)
    _ = lead * 2 ^ (few + 1) := by rw [mul_assoc, pow_succ']
    _ ≤ lead * 2 ^ many := Nat.mul_le_mul_left _ (Nat.pow_le_pow_right Nat.two_pos fewer)

/-- How many numbers begin with given digits. -/
theorem card_beginning {lead : ℕ} (leads : 0 < lead) (count : ℕ) :
    #(beginning lead count) = 2 ^ count - 1 := by
  have apart : Set.PairwiseDisjoint (range count : Set ℕ)
      fun more => Ico (lead * 2 ^ more) ((lead + 1) * 2 ^ more) := by
    intro more _ other _ different
    rw [Function.onFun, disjoint_left]
    intro value inside inside'
    rw [mem_Ico] at inside inside'
    obtain fewer | fewer := Nat.lt_or_gt_of_ne different
    · exact absurd (inside.2.trans_le (beginning_ordered leads fewer)) (Nat.not_lt.mpr inside'.1)
    · exact absurd (inside'.2.trans_le (beginning_ordered leads fewer)) (Nat.not_lt.mpr inside.1)
  have size : ∀ more ∈ range count,
      #(Ico (lead * 2 ^ more) ((lead + 1) * 2 ^ more)) = 2 ^ more := by
    intro more _
    rw [Nat.card_Ico, Nat.succ_mul, Nat.add_sub_cancel_left]
  rw [beginning, card_biUnion apart, sum_congr rfl size, Nat.geomSum_eq (Nat.le_refl 2),
    Nat.div_one]

/-- Counting the values of a word. -/
theorem card_toNat (p : ℕ → Prop) [DecidablePred p] :
    Nat.card {v : UInt64 // p v.toNat} = #((range (2 ^ 64)).filter p) := by
  have words : {v : UInt64 // p v.toNat} ≃ {v : Fin (2 ^ 64) // p v} :=
    (FinEnum.equiv (α := UInt64)).subtypeEquiv fun v => Iff.rfl
  rw [Nat.card_congr words, Nat.card_eq_fintype_card, Fintype.card_subtype, card_filter,
    card_filter, ← Fin.sum_univ_eq_sum_range fun value => if p value then 1 else 0]

/-- Of the numbers that begin with a key, those with up to 64 digits. -/
theorem filter_beginning {s : Str} (leads : s.head? = some '1') :
    ((range (2 ^ 64)).filter fun value => value ∈ beginning (bitValue s) 7) =
      beginning (bitValue s) (min 7 (65 - s.length)) := by
  ext value
  rw [mem_filter, mem_range, mem_beginning_iff, mem_beginning_iff]
  constructor
  · rintro ⟨fits, more, few, low, high⟩
    have least : 2 ^ (s.length - 1 + more) < 2 ^ 64 := by
      rw [pow_add]
      exact ((Nat.mul_le_mul_right _ (pow_le_bitValue leads)).trans low).trans_lt fits
    have digits := (Nat.pow_lt_pow_iff_right Nat.one_lt_two).mp least
    exact ⟨more, by omega, low, high⟩
  · rintro ⟨more, few, low, high⟩
    refine ⟨?_, more, by omega, low, high⟩
    calc value
        < (bitValue s + 1) * 2 ^ more := high
      _ ≤ 2 ^ s.length * 2 ^ more := Nat.mul_le_mul_right _ (bitValue_lt s)
      _ = 2 ^ (s.length + more) := (pow_add 2 _ _).symm
      _ ≤ 2 ^ 64 := Nat.pow_le_pow_right Nat.two_pos (by omega)

/-- From how many values a string is cut. -/
theorem card_align (s : Str) :
    Nat.card {v : UInt64 // align (decimalToBinary v) = .ok s} =
      if s = [] then 2 ^ 6 else if Aligned s then 2 ^ min 7 (65 - s.length) - 1 else 0 := by
  split
  next empty =>
    subst empty
    simp only [align_decimalToBinary_eq_nil_iff]
    have few : ((range (2 ^ 64)).filter fun value => value < 2 ^ 6) = range (2 ^ 6) := by
      ext value
      rw [mem_filter, mem_range, mem_range]
      omega
    rw [card_toNat fun value => value < 2 ^ 6, few, card_range]
  next nonempty =>
    split
    next aligned =>
      simp only [align_decimalToBinary_iff aligned, ← mem_beginning_iff]
      rw [card_toNat fun value => value ∈ beginning (bitValue s) 7,
        filter_beginning aligned.leads, card_beginning (bitValue_pos aligned.leads)]
    next unaligned =>
      have none : IsEmpty {v : UInt64 // align (decimalToBinary v) = .ok s} :=
        ⟨fun v => (eq_nil_or_aligned v.2).elim nonempty unaligned⟩
      exact Nat.card_of_isEmpty

/-- **The odds of a key.** Of the `2^192` possible words, `prf_string` returns a string
that begins with a one and has whole blocks from `2^128` for each of the values with up
to six digits more that fit in 64 bits. From 64 times as many words it returns the
empty string, and no other string from any. -/
theorem card_prfString (s : Str) :
    Nat.card {state // (prfString state).1 = .ok s} =
      (if s = [] then 2 ^ 6 else if Aligned s then 2 ^ min 7 (65 - s.length) - 1 else 0) *
        2 ^ 128 := by
  have counted := coordinate_prf.card fun v => align (decimalToBinary v) = .ok s
  have rest : Nat.card (UInt64 × UInt64) = 2 ^ 128 := by
    rw [Nat.card_prod, card_word, ← pow_add]
  simp only [prfString]
  rw [← card_align, ← rest]
  exact counted

end Ssle.PPRF
