import Mathlib.Data.Int.CardIntervalMod
import Mathlib.Data.Int.ConditionallyCompleteOrder
import Mathlib.Data.Nat.Factorization.Basic
import Mathlib.Tactic.Linarith

/-! # Truncated remainders of signed words

How the remainders of a signed division rounded toward zero are distributed
over a symmetric range of dividends. A negative dividend has a remainder of its
own sign, so it never contributes to a positive residue: the residue `0`
collects the multiples on both sides of zero, every other residue collects one
side only (`Ssle.SignedRemainder.card_tmod_eq`), so the residue `0` is favoured
(`Ssle.SignedRemainder.residueCount_spread`).
-/

namespace Ssle.SignedRemainder

open Finset

/-- A natural remainder is met by the dividends congruent to it that are not
negative, and, for the remainder `0`, by the negative multiples. -/
theorem tmod_eq_natCast_iff (x : ℤ) (n j : ℕ) :
    x.tmod n = j ↔ (0 ≤ x ∧ x % n = j) ∨ (x < 0 ∧ j = 0 ∧ (n : ℤ) ∣ x) := by
  rcases le_or_gt 0 x with nonnegative | negative
  · rw [Int.tmod_eq_emod_of_nonneg nonnegative]
    constructor
    · exact fun residue => .inl ⟨nonnegative, residue⟩
    · intro cases
      rcases cases with ⟨_, residue⟩ | ⟨below, _⟩
      · exact residue
      · omega
  · have sign : x.tmod n ≤ 0 := by
      have flipped := Int.tmod_nonneg (a := -x) (n : ℤ) (by omega)
      rw [Int.neg_tmod] at flipped
      omega
    constructor
    · intro residue
      have zero : j = 0 := by omega
      refine .inr ⟨negative, zero, ?_⟩
      rw [Int.dvd_iff_tmod_eq_zero, residue, zero]
      rfl
    · intro cases
      rcases cases with ⟨above, _⟩ | ⟨_, rfl, divides⟩
      · omega
      · rw [Int.dvd_iff_tmod_eq_zero.mp divides]
        rfl

/-- Some natural number below `n` is the truncated remainder exactly for the
dividends that are not negative and for the multiples of `n`. -/
theorem exists_tmod_eq_iff (x : ℤ) {n : ℕ} (positive : 0 < n) :
    (∃ j < n, x.tmod n = (j : ℕ)) ↔ 0 ≤ x ∨ (n : ℤ) ∣ x := by
  constructor
  · intro met
    obtain ⟨j, _, residue⟩ := met
    rcases (tmod_eq_natCast_iff x n j).mp residue with ⟨nonnegative, _⟩ | ⟨_, _, divides⟩
    · exact .inl nonnegative
    · exact .inr divides
  · intro cases
    rcases cases with nonnegative | divides
    · have bounds := Int.emod_nonneg x (b := (n : ℤ)) (by omega)
      have below := Int.emod_lt_of_pos x (b := (n : ℤ)) (by omega)
      refine ⟨(x % n).toNat, by omega, ?_⟩
      rw [Int.tmod_eq_emod_of_nonneg nonnegative]
      omega
    · exact ⟨0, positive, by rw [Int.dvd_iff_tmod_eq_zero.mp divides]; rfl⟩

/-- How many numbers below `m` leave a given remainder. -/
theorem card_nonneg_residue {m n j : ℕ} (inside : j < n) :
    #((Ico (0 : ℤ) m).filter fun x : ℤ => x % n = j) = m / n + if j < m % n then 1 else 0 := by
  have counted := Nat.count_modEq_card m (by omega : 0 < n) j
  rw [Nat.mod_eq_of_lt inside, Nat.count_eq_card_filter_range] at counted
  rw [← counted]
  refine (card_nbij' (fun k : ℕ => (k : ℤ)) Int.toNat ?_ ?_ ?_ ?_).symm
  · intro k member
    simp only [coe_filter, mem_range, Set.mem_ofPred_eq, Nat.ModEq, Nat.mod_eq_of_lt inside]
      at member
    simp only [coe_filter, mem_Ico, Set.mem_ofPred_eq]
    exact ⟨⟨by omega, by omega⟩, by exact_mod_cast member.2⟩
  · intro x member
    simp only [coe_filter, mem_Ico, Set.mem_ofPred_eq] at member
    simp only [coe_filter, mem_range, Set.mem_ofPred_eq, Nat.ModEq, Nat.mod_eq_of_lt inside]
    obtain ⟨⟨lower, upper⟩, residue⟩ := member
    lift x to ℕ using lower
    exact ⟨by simpa using upper, by exact_mod_cast residue⟩
  · intro k _
    simp
  · intro x member
    simp only [coe_filter, mem_Ico, Set.mem_ofPred_eq] at member
    simp only [Int.ofNat_toNat]
    omega

/-- How many negative numbers from `-m` on are multiples. -/
theorem card_negative_multiples (m n : ℕ) :
    #((Ico (-(m : ℤ)) 0).filter fun x : ℤ => (n : ℤ) ∣ x) = m / n := by
  rw [← Nat.card_multiples m n]
  refine (card_nbij' (fun e : ℕ => -((e : ℤ) + 1)) (fun x => (-x - 1).toNat) ?_ ?_ ?_ ?_).symm
  · intro e member
    simp only [coe_filter, mem_range, Set.mem_ofPred_eq] at member
    simp only [coe_filter, mem_Ico, Set.mem_ofPred_eq, Int.dvd_neg]
    exact ⟨⟨by omega, by omega⟩, by exact_mod_cast member.2⟩
  · intro x member
    simp only [coe_filter, mem_Ico, Set.mem_ofPred_eq] at member
    simp only [coe_filter, mem_range, Set.mem_ofPred_eq]
    obtain ⟨⟨lower, upper⟩, divides⟩ := member
    refine ⟨by omega, ?_⟩
    have opposite : (((-x - 1).toNat + 1 : ℕ) : ℤ) = -x := by omega
    exact Int.natCast_dvd_natCast.mp (by rw [opposite]; exact (Int.dvd_neg).mpr divides)
  · intro e _
    simp only
    omega
  · intro x member
    simp only [coe_filter, mem_Ico, Set.mem_ofPred_eq] at member
    simp only
    omega

/-- **The distribution of truncated remainders.** Of the dividends in
`[-m, m)`, every residue collects the `m / n` or `m / n + 1` that are not
negative, and the residue `0` collects the `m / n` negative multiples as well. -/
theorem card_tmod_eq {m n j : ℕ} (inside : j < n) :
    #((Ico (-(m : ℤ)) m).filter fun x : ℤ => x.tmod n = j) =
      (m / n + if j < m % n then 1 else 0) + if j = 0 then m / n else 0 := by
  have split : ((Ico (-(m : ℤ)) m).filter fun x : ℤ => x.tmod n = j) =
      ((Ico (0 : ℤ) m).filter fun x : ℤ => x % n = j) ∪
        (Ico (-(m : ℤ)) 0).filter fun x : ℤ => j = 0 ∧ (n : ℤ) ∣ x := by
    ext x
    simp only [mem_filter, mem_Ico, mem_union, tmod_eq_natCast_iff]
    constructor
    · intro member
      rcases member with ⟨⟨lower, upper⟩, ⟨nonnegative, residue⟩ | ⟨negative, divides⟩⟩
      · exact .inl ⟨⟨nonnegative, upper⟩, residue⟩
      · exact .inr ⟨⟨lower, negative⟩, divides⟩
    · intro member
      rcases member with ⟨⟨nonnegative, upper⟩, residue⟩ | ⟨⟨lower, negative⟩, divides⟩
      · exact ⟨⟨by omega, upper⟩, .inl ⟨nonnegative, residue⟩⟩
      · exact ⟨⟨lower, by omega⟩, .inr ⟨negative, divides⟩⟩
  have apart : Disjoint ((Ico (0 : ℤ) m).filter fun x : ℤ => x % n = j)
      ((Ico (-(m : ℤ)) 0).filter fun x : ℤ => j = 0 ∧ (n : ℤ) ∣ x) := by
    refine disjoint_left.mpr fun x first second => ?_
    have lower := (mem_Ico.mp (mem_filter.mp first).1).1
    have upper := (mem_Ico.mp (mem_filter.mp second).1).2
    omega
  rw [split, card_union_of_disjoint apart, card_nonneg_residue inside]
  congr 1
  by_cases zero : j = 0
  · simp only [zero, true_and, ↓reduceIte, card_negative_multiples]
  · simp only [zero, false_and, ↓reduceIte, filter_false, card_empty]

/-- How many of the dividends in `[-m, m)` have the truncated remainder `j`. -/
noncomputable def residueCount (m n j : ℕ) : ℕ :=
  #((Ico (-(m : ℤ)) m).filter fun x : ℤ => x.tmod n = j)

/-- **When two residues are equally likely up to one.** Two residues other
than `0` always are. The residue `0` is ahead of another residue by more than
one unless `n` goes into `m` only once and the other residue is among those
that the remainder of `m` favours. -/
theorem residueCount_spread {m n i j : ℕ} (first : i < n) (second : j < n) (fits : n ≤ m) :
    (residueCount m n i ≤ residueCount m n j + 1 ∧
        residueCount m n j ≤ residueCount m n i + 1) ↔
      i = j ∨ (i ≠ 0 ∧ j ≠ 0) ∨ (m / n = 1 ∧ (m % n = 0 ∨ i + j < m % n)) := by
  have quotient : 0 < m / n := Nat.div_pos fits (by omega)
  simp only [residueCount, card_tmod_eq first, card_tmod_eq second]
  split_ifs <;> omega

/-- Integers in the range of a word are kept by it. -/
theorem toInt_ofInt_of_mem {k : ℕ} {x : ℤ} (lower : -((2 ^ k : ℕ) : ℤ) ≤ x)
    (upper : x < (2 ^ k : ℕ)) : (BitVec.ofInt (k + 1) x).toInt = x := by
  push_cast at lower upper
  exact BitVec.toInt_ofInt_eq_self (Nat.succ_pos k) lower upper

/-- Counting the words of `k + 1` bits by their signed value. -/
theorem card_toInt (k : ℕ) (p : ℤ → Prop) [DecidablePred p] :
    #{low : Fin (2 ^ (k + 1)) | p (BitVec.ofFin low).toInt} =
      #((Ico (-((2 ^ k : ℕ) : ℤ)) (2 ^ k : ℕ)).filter p) := by
  refine card_nbij' (fun low => (BitVec.ofFin low).toInt)
    (fun x => (BitVec.ofInt (k + 1) x).toFin) ?_ ?_ ?_ ?_
  · intro low member
    simp only [coe_filter, mem_univ, true_and, Set.mem_ofPred_eq] at member
    simp only [coe_filter, mem_Ico, Set.mem_ofPred_eq]
    have lower := BitVec.le_two_mul_toInt (x := BitVec.ofFin low)
    have upper := BitVec.two_mul_toInt_lt (x := BitVec.ofFin low)
    rw [pow_succ] at lower upper
    push_cast
    exact ⟨⟨by linarith, by linarith⟩, member⟩
  · intro x member
    simp only [coe_filter, mem_Ico, Set.mem_ofPred_eq] at member
    simp only [coe_filter, mem_univ, true_and, Set.mem_ofPred_eq]
    rw [BitVec.ofFin_toFin, toInt_ofInt_of_mem member.1.1 member.1.2]
    exact member.2
  · intro low _
    simp only [BitVec.ofInt_toInt]
  · intro x member
    simp only [coe_filter, mem_Ico, Set.mem_ofPred_eq] at member
    simp only [BitVec.ofFin_toFin]
    exact toInt_ofInt_of_mem member.1.1 member.1.2

end Ssle.SignedRemainder
