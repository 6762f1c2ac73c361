import Mathlib.Algebra.BigOperators.Intervals
import Mathlib.Algebra.Field.ZMod
import Mathlib.Algebra.Polynomial.Reverse
import Mathlib.Data.List.GetD

/-! # Bits as polynomials

A list of bits is a polynomial over the field of two elements, with the first bit
for its constant coefficient. Reversing the list reflects the polynomial
(`Ssle.BinaryPolynomials.ofBits_reverse`), and the coefficients of a product with
the polynomial of a number are the parities of the window that the number taps
(`Ssle.BinaryPolynomials.coeff_ofTaps_mul`).
-/

noncomputable section

namespace Ssle.BinaryPolynomials

open Polynomial

/-- A bit as a coefficient. -/
def coefficient (bit : Bool) : ZMod 2 := if bit then 1 else 0

@[simp] theorem coefficient_false : coefficient false = 0 := rfl

@[simp] theorem coefficient_true : coefficient true = 1 := rfl

/-- Bits are told apart by their coefficients. -/
theorem coefficient_injective : Function.Injective coefficient := by decide

/-- Exclusive or is addition. -/
theorem coefficient_xor (a b : Bool) : coefficient (a ^^ b) = coefficient a + coefficient b := by
  cases a <;> cases b <;> decide

/-- Conjunction is multiplication. -/
theorem coefficient_and (a b : Bool) : coefficient (a && b) = coefficient a * coefficient b := by
  cases a <;> cases b <;> decide

/-- The polynomial of a list of bits. -/
def ofBits : List Bool → (ZMod 2)[X]
  | [] => 0
  | bit :: bits => C (coefficient bit) + X * ofBits bits

/-- The coefficients are the bits. -/
theorem coeff_ofBits (bits : List Bool) (t : Nat) :
    (ofBits bits).coeff t = coefficient (bits.getD t false) := by
  induction bits generalizing t with
  | nil => simp [ofBits]
  | cons bit bits ih =>
      cases t with
      | zero => simp [ofBits]
      | succ t => simp [ofBits, ih]

/-- Past the last bit all coefficients are zero. -/
theorem coeff_ofBits_of_le {bits : List Bool} {t : Nat} (past : bits.length ≤ t) :
    (ofBits bits).coeff t = 0 := by
  rw [coeff_ofBits, List.getD_eq_default _ _ past, coefficient_false]

/-- Lists of one length are determined by their polynomial. -/
theorem ofBits_inj {bits others : List Bool} (same : bits.length = others.length) :
    ofBits bits = ofBits others ↔ bits = others := by
  refine ⟨fun equal => List.ext_getElem same fun t inside inside' => ?_, fun equal => by rw [equal]⟩
  have coefficients := congrArg (fun p => p.coeff t) equal
  simp only [coeff_ofBits] at coefficients
  rw [List.getD_eq_getElem _ _ inside, List.getD_eq_getElem _ _ inside'] at coefficients
  exact coefficient_injective coefficients

/-- Zeros at the end do not change the polynomial. -/
theorem ofBits_append_replicate (bits : List Bool) (count : Nat) :
    ofBits (bits ++ List.replicate count false) = ofBits bits := by
  ext t
  rw [coeff_ofBits, coeff_ofBits]
  congr 1
  rcases Nat.lt_or_ge t bits.length with inside | past
  · rw [List.getD_append _ _ _ _ inside]
  · rw [List.getD_append_right _ _ _ _ past, List.getD_eq_default bits _ past]
    rw [List.getD_eq_getElem?_getD, List.getElem?_getD_replicate_default_eq]

/-- The degree is below the number of bits. -/
theorem natDegree_ofBits_le (bits : List Bool) : (ofBits bits).natDegree ≤ bits.length - 1 := by
  rw [natDegree_le_iff_coeff_eq_zero]
  intro t above
  exact coeff_ofBits_of_le (by omega)

/-- **Reversal.** The polynomial of the reversed list is reflected. -/
theorem ofBits_reverse (bits : List Bool) :
    ofBits bits.reverse = reflect (bits.length - 1) (ofBits bits) := by
  ext t
  rw [coeff_reflect]
  rcases Nat.lt_or_ge t bits.length with inside | past
  · rw [revAt_le (Nat.le_sub_one_of_lt inside), coeff_ofBits, coeff_ofBits,
      List.getD_reverse t inside]
  · have past' : bits.length ≤ revAt (bits.length - 1) t := by
      rcases Nat.eq_zero_or_pos bits.length with none | some
      · rw [none]
        exact Nat.zero_le _
      · rw [revAt_eq_self_of_lt (by omega)]
        exact past
    rw [coeff_ofBits_of_le past', coeff_ofBits_of_le (bits.length_reverse.symm ▸ past)]

/-! ## Numbers -/

/-- The polynomial of the lowest `size` bits of a number. -/
def ofTaps (size n : Nat) : (ZMod 2)[X] := ofBits ((List.range size).map n.testBit)

/-- The coefficients are the binary digits. -/
theorem coeff_ofTaps {size n t : Nat} (inside : t < size) :
    (ofTaps size n).coeff t = coefficient (n.testBit t) := by
  rw [ofTaps, coeff_ofBits, List.getD_eq_getElem _ _ (by simpa using inside)]
  simp

/-- Digits past the size are left out. -/
theorem coeff_ofTaps_of_le {size n t : Nat} (past : size ≤ t) : (ofTaps size n).coeff t = 0 :=
  coeff_ofBits_of_le (by simpa using past)

/-- The coefficients of a product are the parities of a window. -/
theorem coeff_ofTaps_mul (size n : Nat) (p : (ZMod 2)[X]) (t : Nat) :
    (ofTaps size n * p).coeff t = ∑ j ∈ Finset.range size,
      coefficient (n.testBit j) * if j ≤ t then p.coeff (t - j) else 0 := by
  have wide : ∑ j ∈ Finset.range (t + 1), (ofTaps size n).coeff j * p.coeff (t - j) =
      ∑ j ∈ Finset.range (max size (t + 1)),
        (ofTaps size n).coeff j * if j ≤ t then p.coeff (t - j) else 0 := by
    rw [← Finset.sum_subset (Finset.range_mono (Nat.le_max_right size (t + 1)))]
    · refine Finset.sum_congr rfl fun j member => ?_
      rw [if_pos (Finset.mem_range_succ_iff.mp member)]
    · intro j _ outside
      rw [if_neg (fun below => outside (Finset.mem_range_succ_iff.mpr below)), mul_zero]
  rw [coeff_mul, Finset.Nat.sum_antidiagonal_eq_sum_range_succ
    fun i k => (ofTaps size n).coeff i * p.coeff k, wide,
    ← Finset.sum_subset (Finset.range_mono (Nat.le_max_left size (t + 1)))]
  · refine Finset.sum_congr rfl fun j member => ?_
    rw [coeff_ofTaps (Finset.mem_range.mp member)]
  · intro j _ outside
    have past := Nat.le_of_not_lt fun below => outside (Finset.mem_range.mpr below)
    rw [coeff_ofTaps_of_le past, zero_mul]

end Ssle.BinaryPolynomials

end
