import SsleExperiment.Enclave.Election

/-! # How often each participant is elected

The number of low halves of the PRF value that elect a participant is the
number of signed 32-bit dividends with its index as truncated remainder
(`Ssle.SSLEObfuscation.card_winPatterns`), so participant `0` also collects the
negative multiples of the number of participants.
-/

namespace Ssle.SSLEObfuscation

open Finset

/-- The 64-bit value with the given halves. -/
def joinHalves (high low : UInt32) : UInt64 := high.toUInt64 <<< 32 ||| low.toUInt64

theorem lowHalf_joinHalves (high low : UInt32) : lowHalf (joinHalves high low) = low.toInt32 := by
  have dropped : (joinHalves high low).toUInt32 = low := by
    apply UInt32.toBitVec_inj.mp
    rw [joinHalves]
    simp
  rw [lowHalf, dropped]

/-- Whether `initialize(n)` and `electLeader()` on the object store the win
commitment at index `i` when the PRF returns `prfValue`. -/
def storesWin (o : SSLEObfuscation) (n : Int32) (prfValue : UInt64) (i : Int32) : Bool :=
  match electLeader (PRF.returning prfValue) (initializeParticipants n o) with
  | .ok after => after.getCommValue i == commit win prfValue
  | .error _ => false

/-- The low halves for which participant `i` is elected, for a given high half. -/
def winPatterns (o : SSLEObfuscation) (n : Int32) (high : UInt32) (i : Int32) :
    Finset (Fin (2 ^ 32)) :=
  univ.filter fun low => storesWin o n (joinHalves high (UInt32.ofFin low)) i

/-- A win is stored for who is elected. -/
theorem storesWin_iff (o : SSLEObfuscation) {n i : Int32} (prfValue : UInt64)
    (nonnegative : 0 ≤ i) (below : i < n) :
    storesWin o n prfValue i ↔ Elects prfValue n i.toNatClampNeg := by
  have positive : 0 < n := Int32.lt_of_le_of_lt nonnegative below
  have fits : (initializeParticipants n o).num.toNatClampNeg ≤
      (initializeParticipants n o).commValues.length := by simp
  have stored : (afterElection (PRF.returning prfValue) (initializeParticipants n o)).commValues =
      commitments prfValue n ++ (initializeParticipants n o).commValues.drop n.toNatClampNeg := rfl
  simp only [storesWin, electLeader_of_fits _ _ positive fits,
    getCommValue_of_commitments stored nonnegative below, beq_iff_eq]
  rw [← commitmentAt_xor_eq_win, ← UInt64.xor_left_inj prfValue, commit_xor]

/-- The patterns that elect a participant are the words with its remainder. -/
theorem card_winPatterns (o : SSLEObfuscation) {n i : Int32} (high : UInt32)
    (nonnegative : 0 ≤ i) (below : i < n) :
    #(winPatterns o n high i) =
      SignedRemainder.residueCount (2 ^ 31) n.toNatClampNeg i.toNatClampNeg := by
  have positive : 0 ≤ n := Int32.le_of_lt (Int32.lt_of_le_of_lt nonnegative below)
  have patterns : winPatterns o n high i = univ.filter fun low : Fin (2 ^ 32) =>
      (BitVec.ofFin low).toInt.tmod n.toNatClampNeg = i.toNatClampNeg := by
    refine filter_congr fun low _ => ?_
    rw [storesWin_iff o _ nonnegative below, Elects, lowHalf_joinHalves,
      Int32.toInt_eq_toNatClampNeg positive]
    rfl
  have counted := SignedRemainder.card_toInt 31
    fun x => x.tmod n.toNatClampNeg = (i.toNatClampNeg : ℕ)
  rw [SignedRemainder.residueCount, ← counted]
  exact congrArg card patterns

/-- **How fair the election is.** The numbers of low halves that elect two
participants differ by at most one exactly when the participants are the same,
or neither of them is participant `0`, or the number `n` of participants is
above `2^30` and the other participant's index is below `2^31 - n`. -/
theorem fair_iff (o : SSLEObfuscation) (high : UInt32) (n i j : Int32)
    (first : 0 ≤ i ∧ i < n) (second : 0 ≤ j ∧ j < n) :
    (#(winPatterns o n high i) ≤ #(winPatterns o n high j) + 1 ∧
        #(winPatterns o n high j) ≤ #(winPatterns o n high i) + 1) ↔
      i = j ∨ (i ≠ 0 ∧ j ≠ 0) ∨
        (2 ^ 30 < n.toInt ∧ i.toInt + j.toInt < 2 ^ 31 - n.toInt) := by
  have positive : 0 < n := Int32.lt_of_le_of_lt first.1 first.2
  have inside := toNatClampNeg_lt_of_lt first.1 first.2
  have bound := n.toNatClampNeg_lt
  -- `n` goes into `2^31` once exactly above `2^30`, and then leaves a remainder
  have once : 2 ^ 31 / n.toNatClampNeg = 1 ↔ 2 ^ 30 < n.toNatClampNeg := by
    rw [Nat.div_eq_iff (by omega)]
    omega
  have remainder (above : 2 ^ 30 < n.toNatClampNeg) :
      2 ^ 31 % n.toNatClampNeg = 2 ^ 31 - n.toNatClampNeg := by
    rw [Nat.mod_eq_sub_mod bound.le, Nat.mod_eq_of_lt (by omega)]
  have zero {k : Int32} (nonnegative : 0 ≤ k) : k = 0 ↔ k.toNatClampNeg = 0 := by
    rw [Int32.toNatClampNeg_eq_zero_iff]
    exact ⟨fun equal => equal ▸ Int32.le_refl 0, fun below => Int32.le_antisymm below nonnegative⟩
  have same : i = j ↔ i.toNatClampNeg = j.toNatClampNeg := by
    rw [← Int32.toInt_inj, Int32.toInt_eq_toNatClampNeg first.1,
      Int32.toInt_eq_toNatClampNeg second.1, Int.ofNat_inj]
  rw [card_winPatterns o high first.1 first.2, card_winPatterns o high second.1 second.2,
    SignedRemainder.residueCount_spread inside
      (toNatClampNeg_lt_of_lt second.1 second.2) bound.le,
    same, Ne, Ne, Ne, Ne, zero first.1, zero second.1, once,
    Int32.toInt_eq_toNatClampNeg first.1, Int32.toInt_eq_toNatClampNeg second.1,
    Int32.toInt_eq_toNatClampNeg (Int32.le_of_lt positive)]
  have tail : 2 ^ 30 < n.toNatClampNeg ∧ (2 ^ 31 % n.toNatClampNeg = 0 ∨
      i.toNatClampNeg + j.toNatClampNeg < 2 ^ 31 % n.toNatClampNeg) ↔
      2 ^ 30 < (n.toNatClampNeg : ℤ) ∧
        (i.toNatClampNeg : ℤ) + j.toNatClampNeg < 2 ^ 31 - n.toNatClampNeg := by
    refine ⟨fun ahead => ?_, fun ahead => ?_⟩
    · obtain ⟨above, favoured⟩ := ahead
      rw [remainder above] at favoured
      omega
    · obtain ⟨above, favoured⟩ := ahead
      have large : 2 ^ 30 < n.toNatClampNeg := by exact_mod_cast above
      rw [remainder large]
      omega
  rw [tail]

theorem fair_iff_of_three :
    (0 : Int32) ≤ 1 ∧ (0 : Int32) ≤ 2 ∧
      ((#(winPatterns (fresh ⟨0, 0, 0⟩) 3 0 1) ≤ #(winPatterns (fresh ⟨0, 0, 0⟩) 3 0 2) + 1 ∧
          #(winPatterns (fresh ⟨0, 0, 0⟩) 3 0 2) ≤ #(winPatterns (fresh ⟨0, 0, 0⟩) 3 0 1) + 1) ↔
        (1 : Int32) = 2 ∨ ((1 : Int32) ≠ 0 ∧ (2 : Int32) ≠ 0) ∨
          (2 ^ 30 < (3 : Int32).toInt ∧
            (1 : Int32).toInt + (2 : Int32).toInt < 2 ^ 31 - (3 : Int32).toInt)) :=
  ⟨by decide, by decide, fair_iff (fresh ⟨0, 0, 0⟩) 0 3 1 2 (by decide) (by decide)⟩

/-- Two participants: participant `0` is elected by `2^31` low halves,
participant `1` by half as many. -/
theorem unfair_election :
    ¬ #(winPatterns (fresh ⟨0, 0, 0⟩) 2 0 0) ≤ #(winPatterns (fresh ⟨0, 0, 0⟩) 2 0 1) + 1 := by
  rw [card_winPatterns _ _ (by decide) (by decide), card_winPatterns _ _ (by decide) (by decide)]
  have counts : SignedRemainder.residueCount (2 ^ 31) 2 0 = 2 ^ 30 + 2 ^ 30 ∧
      SignedRemainder.residueCount (2 ^ 31) 2 1 = 2 ^ 30 := by
    simp only [SignedRemainder.residueCount]
    rw [SignedRemainder.card_tmod_eq (by omega), SignedRemainder.card_tmod_eq (by omega)]
    decide
  have two : (2 : Int32).toNatClampNeg = 2 ∧ (0 : Int32).toNatClampNeg = 0 ∧
      (1 : Int32).toNatClampNeg = 1 := by decide
  rw [two.1, two.2.1, two.2.2, counts.1, counts.2]
  omega

end Ssle.SSLEObfuscation
