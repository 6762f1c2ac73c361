import SsleExperiment.Enclave.Fairness
import SsleExperiment.Enclave.Rounds

/-! # The odds of an election

Over the words an object may hand to the PRF, the value drawn is balanced and so
is its low half (`Ssle.coordinate_lowHalf`). The number of words from which a
participant wins is therefore the number of signed 32-bit numbers with its index
as truncated remainder, times `2^160`; from the negative numbers that are no
multiples of the number of participants, nobody wins
(`Ssle.SSLEObfuscation.odds_eq`).
-/

namespace Ssle

open Finset Function SSLEObfuscation

/-- The high half of a 64-bit value. -/
def highHalf (value : UInt64) : UInt32 := (value >>> 32).toUInt32

/-- A word is determined by its halves. -/
theorem eq_of_halves {value other : UInt64} (low : lowHalf value = lowHalf other)
    (high : highHalf value = highHalf other) : value = other := by
  have lows : value.toUInt32 = other.toUInt32 := by
    have back := congrArg Int32.toUInt32 low
    rwa [lowHalf, lowHalf, UInt32.toUInt32_toInt32, UInt32.toUInt32_toInt32] at back
  have lows' := congrArg UInt32.toNat lows
  have highs := congrArg UInt32.toNat high
  rw [UInt64.toNat_toUInt32, UInt64.toNat_toUInt32] at lows'
  simp only [highHalf, UInt64.toNat_toUInt32, UInt64.toNat_shiftRight, UInt64.reduceToNat,
    Nat.reduceMod, Nat.shiftRight_eq_div_pow] at highs
  have bound := value.toNat_lt
  have bound' := other.toNat_lt
  apply UInt64.toNat_inj.mp
  omega

/-- The low half of a value is a coordinate of it. -/
theorem coordinate_lowHalf : Coordinate lowHalf UInt32 := by
  refine Coordinate.of_injective highHalf (fun value other same => ?_) ?_
  · rw [Prod.mk.injEq] at same
    exact eq_of_halves same.1 same.2
  · rw [card_word, Nat.card_congr FinEnum.equiv, Nat.card_congr (FinEnum.equiv (α := UInt32)),
      Nat.card_fin, Nat.card_fin, FinEnum.card_Int32, FinEnum.card_UInt32]
    norm_num

/-- Counting the words by the low half of the value drawn from them. -/
theorem card_lowHalf_prf (p : Int32 → Prop) :
    Nat.card {words : PRFState // p (lowHalf (PPRF.prf words).1)} =
      Nat.card {low // p low} * 2 ^ 160 := by
  refine ((coordinate_lowHalf.comp PPRF.coordinate_prf).card p).trans ?_
  rw [Nat.card_prod, Nat.card_prod, card_word, Nat.card_congr (FinEnum.equiv (α := UInt32)),
    Nat.card_fin, FinEnum.card_UInt32]
  norm_num

/-- Counting the values of an `int`. -/
theorem card_int (p : ℤ → Prop) [DecidablePred p] :
    Nat.card {low : Int32 // p low.toInt} =
      #((Ico (-((2 ^ 31 : ℕ) : ℤ)) (2 ^ 31 : ℕ)).filter p) := by
  have words : {low : Int32 // p low.toInt} ≃ {low : Fin (2 ^ 32) // p (BitVec.ofFin low).toInt} :=
    (FinEnum.equiv (α := Int32)).subtypeEquiv fun low => Iff.rfl
  rw [Nat.card_congr words, Nat.card_eq_fintype_card, Fintype.card_subtype,
    SignedRemainder.card_toInt 31]

namespace SSLEObfuscation

/-- From these words, an election of `n` participants on the object leaves a
commitment of participant `i` that opens to `win`. -/
def WinsFrom (prf : PRF) (o : SSLEObfuscation) (n i : Int32) (words : PRFState) : Prop :=
  ∃ after, electLeader prf (initializeParticipants n (o.withPrfState words)) = .ok after ∧
    after.getCommValue i = commit win after.prfValue

/-- A participant wins from the words whose value elects it. -/
theorem winsFrom_iff (prf : PRF) (o : SSLEObfuscation) {n i : Int32} (words : PRFState)
    (nonnegative : 0 ≤ i) (below : i < n) :
    WinsFrom prf o n i words ↔ Elects (prf words).1 n i.toNatClampNeg := by
  have positive : 0 < n := Int32.lt_of_le_of_lt nonnegative below
  have fits : (initializeParticipants n (o.withPrfState words)).num.toNatClampNeg ≤
      (initializeParticipants n (o.withPrfState words)).commValues.length := by simp
  have stored : (afterElection prf (initializeParticipants n (o.withPrfState words))).commValues =
      commitments (prf words).1 n ++
        (initializeParticipants n (o.withPrfState words)).commValues.drop n.toNatClampNeg := rfl
  have opened : (afterElection prf
      (initializeParticipants n (o.withPrfState words))).getCommValue i =
      commit win (prf words).1 ↔ Elects (prf words).1 n i.toNatClampNeg := by
    rw [getCommValue_of_commitments stored nonnegative below, ← commitmentAt_xor_eq_win,
      ← UInt64.xor_left_inj (prf words).1, commit_xor]
  rw [WinsFrom, electLeader_of_fits _ _ positive fits, ← opened]
  refine ⟨fun wins => ?_, fun wins => ⟨_, rfl, wins⟩⟩
  obtain ⟨after, returned, wins⟩ := wins
  cases returned
  exact wins

/-- **The odds of a participant.** -/
theorem card_winsFrom (o : SSLEObfuscation) {n i : Int32} (nonnegative : 0 ≤ i)
    (below : i < n) :
    Nat.card {words // WinsFrom PPRF.prf o n i words} =
      SignedRemainder.residueCount (2 ^ 31) n.toNatClampNeg i.toNatClampNeg * 2 ^ 160 := by
  have positive : 0 ≤ n := Int32.le_of_lt (Int32.lt_of_le_of_lt nonnegative below)
  have wins := fun words => winsFrom_iff PPRF.prf o words nonnegative below
  simp only [wins]
  refine (card_lowHalf_prf fun low => low.toInt.tmod n.toInt = i.toNatClampNeg).trans ?_
  rw [Int32.toInt_eq_toNatClampNeg positive,
    card_int fun x => x.tmod n.toNatClampNeg = (i.toNatClampNeg : ℕ)]
  rfl

/-- The odds of an election that nobody wins. -/
theorem card_nobody (o : SSLEObfuscation) {n : Int32} (positive : 0 < n) :
    Nat.card {words // ∀ i, 0 ≤ i → i < n → ¬ WinsFrom PPRF.prf o n i words} =
      (2 ^ 31 - 2 ^ 31 / n.toNatClampNeg) * 2 ^ 160 := by
  have nobody : ∀ words, (∀ i, 0 ≤ i → i < n → ¬ WinsFrom PPRF.prf o n i words) ↔
      ¬ (0 ≤ (lowHalf (PPRF.prf words).1).toInt ∨
        n.toInt ∣ (lowHalf (PPRF.prf words).1).toInt) := by
    intro words
    rw [← exists_elects_iff _ positive]
    refine ⟨fun none somebody => ?_, fun none i nonnegative below wins => none ?_⟩
    · obtain ⟨i, ⟨nonnegative, below⟩, chosen⟩ := somebody
      exact none i nonnegative below ((winsFrom_iff PPRF.prf o words nonnegative below).mpr chosen)
    · exact ⟨i, ⟨nonnegative, below⟩, (winsFrom_iff PPRF.prf o words nonnegative below).mp wins⟩
  simp only [nobody]
  refine (card_lowHalf_prf fun low => ¬ (0 ≤ low.toInt ∨ n.toInt ∣ low.toInt)).trans ?_
  rw [Int32.toInt_eq_toNatClampNeg (Int32.le_of_lt positive),
    card_int fun x => ¬ (0 ≤ x ∨ (n.toNatClampNeg : ℤ) ∣ x)]
  have negatives : ((Ico (-((2 ^ 31 : ℕ) : ℤ)) (2 ^ 31 : ℕ)).filter
      fun x => ¬ (0 ≤ x ∨ (n.toNatClampNeg : ℤ) ∣ x)) =
      (Ico (-((2 ^ 31 : ℕ) : ℤ)) 0).filter fun x => ¬ (n.toNatClampNeg : ℤ) ∣ x := by
    ext x
    simp only [mem_filter, mem_Ico, not_or, not_le]
    refine ⟨fun met => ⟨⟨met.1.1, met.2.1⟩, met.2.2⟩, fun met => ?_⟩
    exact ⟨⟨met.1.1, met.1.2.trans (Nat.cast_pos.mpr Nat.one_le_two_pow)⟩, met.1.2, met.2⟩
  have total := card_filter_add_card_filter_not (s := Ico (-((2 ^ 31 : ℕ) : ℤ)) 0)
    fun x => (n.toNatClampNeg : ℤ) ∣ x
  rw [SignedRemainder.card_negative_multiples, Int.card_Ico] at total
  rw [negatives]
  omega

/-- **The odds of an election.** Of the `2^192` words that an object may hand to the
PRF, a participant wins from `2^160` for each half `0, ..., 2^31 - 1` with its index as
remainder, and participant `0` also for each negative half that `n` divides. From the
words of the other negative halves nobody wins. -/
theorem odds_eq (o : SSLEObfuscation) (n : Int32) (positive : 0 < n) :
    (∀ i, 0 ≤ i → i < n → Nat.card {words // WinsFrom PPRF.prf o n i words} =
      (2 ^ 31 / n.toNatClampNeg + (if i.toNatClampNeg < 2 ^ 31 % n.toNatClampNeg then 1 else 0) +
        if i = 0 then 2 ^ 31 / n.toNatClampNeg else 0) * 2 ^ 160) ∧
    Nat.card {words // ∀ i, 0 ≤ i → i < n → ¬ WinsFrom PPRF.prf o n i words} =
      (2 ^ 31 - 2 ^ 31 / n.toNatClampNeg) * 2 ^ 160 := by
  refine ⟨fun i nonnegative below => ?_, card_nobody o positive⟩
  have zero : i.toNatClampNeg = 0 ↔ i = 0 := by
    rw [Int32.toNatClampNeg_eq_zero_iff]
    exact ⟨fun low => Int32.le_antisymm low nonnegative, fun same => same ▸ Int32.le_refl 0⟩
  rw [card_winsFrom o nonnegative below, SignedRemainder.residueCount,
    SignedRemainder.card_tmod_eq (toNatClampNeg_lt_of_lt nonnegative below)]
  simp only [zero]

theorem odds_eq_of_three :
    (0 : Int32) < 3 ∧
      (∀ i, 0 ≤ i → i < 3 → Nat.card {words // WinsFrom PPRF.prf (fresh ⟨0, 0, 0⟩) 3 i words} =
        (2 ^ 31 / (3 : Int32).toNatClampNeg +
          (if i.toNatClampNeg < 2 ^ 31 % (3 : Int32).toNatClampNeg then 1 else 0) +
          if i = 0 then 2 ^ 31 / (3 : Int32).toNatClampNeg else 0) * 2 ^ 160) ∧
      Nat.card {words // ∀ i, 0 ≤ i → i < 3 →
        ¬ WinsFrom PPRF.prf (fresh ⟨0, 0, 0⟩) 3 i words} =
        (2 ^ 31 - 2 ^ 31 / (3 : Int32).toNatClampNeg) * 2 ^ 160 :=
  ⟨by decide, odds_eq (fresh ⟨0, 0, 0⟩) 3 (by decide)⟩

end SSLEObfuscation

end Ssle
