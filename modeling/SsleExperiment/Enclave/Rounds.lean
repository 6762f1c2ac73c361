import Mathlib.Data.FinEnum
import Mathlib.Dynamics.PeriodicPts.Lemmas
import Mathlib.RingTheory.Nilpotent.Basic
import SsleExperiment.Enclave.History
import SsleExperiment.Math.Generators

/-! # What a PRF call does to its words

A round of `prvhash_core64` multiplies the seed by an odd number, which can be
undone, and adds to the two other words. The words after a round determine those
before it (`Ssle.reversible_prvhashCore64`), and the value returned is one of
three coordinates of the words (`Ssle.coordinate_prvhashCore64`). Both hold of
the `2^28` rounds of a PRF call: every value is returned from as many words as
every other (`Ssle.PPRF.card_prf`), and an object whose key is not replaced is back
at its first words after every multiple of one number of PRF calls, and at no other
time (`Ssle.SSLEObfuscation.words_return_iff`).
-/

namespace Ssle

open Function Generator

/-- Words as triples. -/
def PRFState.equiv : PRFState ≃ UInt64 × UInt64 × UInt64 where
  toFun state := (state.seed, state.lcg, state.hash)
  invFun words := ⟨words.1, words.2.1, words.2.2⟩
  left_inv _ := rfl
  right_inv _ := rfl

instance : Finite PRFState := Finite.of_equiv _ PRFState.equiv.symm

@[simp] theorem card_word : Nat.card UInt64 = 2 ^ 64 := by
  rw [Nat.card_congr FinEnum.equiv, Nat.card_fin, FinEnum.card_UInt64]

/-! ## One round -/

section Ring

open scoped UInt64.CommRing

/-- The factor of a round is odd. -/
theorem isUnit_factor (lcg : UInt64) : IsUnit (lcg * 2 + 1) := by
  have power : (lcg * 2) ^ 64 = 0 := by
    have two : (2 : UInt64) ^ 64 = 0 := by decide +kernel
    rw [mul_pow, two, mul_zero]
  exact IsNilpotent.isUnit_add_one ⟨64, power⟩

/-- Multiplying by an odd word loses nothing. -/
theorem seed_eq_of_product {lcg seed seed' : UInt64}
    (same : seed * (lcg * 2 + 1) = seed' * (lcg * 2 + 1)) : seed = seed' :=
  (isUnit_factor lcg).mul_right_cancel same

/-- Adding a word loses nothing. -/
theorem add_right_inj_word {a b c : UInt64} (same : a + c = b + c) : a = b :=
  add_right_cancel same

end Ring

/-- The first word that a round computes. -/
def product (state : PRFState) : UInt64 := state.seed * (state.lcg * 2 + 1)

/-- What a round does, in terms of the product. -/
theorem prvhashCore64_eq (state : PRFState) :
    prvhashCore64 state =
      let rs := product state >>> 32 ||| product state <<< 32
      let hash := state.hash + (rs + 0xAAAAAAAAAAAAAAAA)
      let lcg := state.lcg + (product state + 0x5555555555555555)
      (lcg ^^^ rs, { seed := product state ^^^ hash, lcg := lcg, hash := hash }) := rfl

/-- The product and the two other words after a round determine the words before. -/
theorem eq_of_product {state other : PRFState} (products : product state = product other)
    (lcgs : (prvhashCore64 state).2.lcg = (prvhashCore64 other).2.lcg)
    (hashes : (prvhashCore64 state).2.hash = (prvhashCore64 other).2.hash) : state = other := by
  simp only [prvhashCore64_eq, products] at lcgs hashes
  have lcg := add_right_inj_word lcgs
  have hash := add_right_inj_word hashes
  obtain ⟨seed, _, _⟩ := state
  obtain ⟨seed', _, _⟩ := other
  cases lcg
  cases hash
  cases seed_eq_of_product products
  rfl

/-- **Reversibility of a round.** -/
theorem reversible_prvhashCore64 : Reversible prvhashCore64 := by
  intro state other same
  have seeds := congrArg PRFState.seed same
  have lcgs := congrArg PRFState.lcg same
  have hashes := congrArg PRFState.hash same
  refine eq_of_product ?_ lcgs hashes
  change (prvhashCore64 state).2.hash = (prvhashCore64 other).2.hash at hashes
  change product state ^^^ (prvhashCore64 state).2.hash =
    product other ^^^ (prvhashCore64 other).2.hash at seeds
  rw [hashes] at seeds
  exact UInt64.xor_left_inj _ |>.mp seeds

/-- **Balance of a round.** The value returned, the product and the hash word
are coordinates of the words. -/
theorem coordinate_prvhashCore64 :
    Coordinate (fun state => (prvhashCore64 state).1) (UInt64 × UInt64) := by
  refine Coordinate.of_injective
    (fun state => (product state, (prvhashCore64 state).2.hash)) ?_ ?_
  · intro state other same
    simp only [Prod.mk.injEq] at same
    obtain ⟨values, products, hashes⟩ := same
    refine eq_of_product products ?_ hashes
    simp only [prvhashCore64_eq, products] at values ⊢
    exact UInt64.xor_left_inj _ |>.mp values
  · rw [Nat.card_congr PRFState.equiv, Nat.card_prod, Nat.card_prod, Nat.card_prod]

/-! ## All rounds -/

namespace PPRF

/-- The loop of `prf` makes rounds. -/
theorem prfLoop_eq (count : Nat) (ret : UInt64) (state : PRFState) :
    prfLoop count ret state = rounds prvhashCore64 count ret state := by
  induction count generalizing ret state with
  | zero => rfl
  | succ count ih => exact ih _ _

/-- The PRF makes `2^28` rounds. -/
theorem prf_eq : prf = rounds prvhashCore64 (2 ^ 28) 0 := funext (prfLoop_eq (2 ^ 28) 0)

/-- A PRF call can be undone. -/
theorem reversible_prf : Reversible prf := by
  rw [prf_eq]
  exact reversible_prvhashCore64.rounds (2 ^ 28) 0

/-- The value of the PRF is a coordinate of the words. -/
theorem coordinate_prf : Coordinate (fun state => (prf state).1) (UInt64 × UInt64) := by
  have some : 2 ^ 28 = (2 ^ 28 - 1) + 1 := (Nat.sub_add_cancel Nat.one_le_two_pow).symm
  rw [prf_eq, some]
  exact coordinate_rounds reversible_prvhashCore64 coordinate_prvhashCore64 (2 ^ 28 - 1) 0

/-- **Balance of the PRF.** Every value is returned from `2^128` of the `2^192`
possible words. -/
theorem card_prf (value : UInt64) : Nat.card {state // (prf state).1 = value} = 2 ^ 128 := by
  have counted := coordinate_prf.card fun drawn => drawn = value
  rw [counted, Nat.card_unique, Nat.card_prod, card_word]
  norm_num

end PPRF

/-! ## Runs of an object -/

namespace SSLEObfuscation

/-- The calls that leave the key to the PRF. -/
def Call.Unkeyed : Call → Prop
  | .initializeKeyed _ _ => False
  | .initializeParticipants _ => True
  | .getKey => True
  | .electLeaderKeyed _ => False
  | .electLeader => True

/-- The number of PRF calls of a call. -/
def Call.draws : Call → Nat
  | .initializeKeyed _ _ => 0
  | .initializeParticipants _ => 0
  | .getKey => 1
  | .electLeaderKeyed _ => 1
  | .electLeader => 1

/-- The number of PRF calls of a run. -/
def draws (calls : List Call) : Nat := (calls.map Call.draws).sum

/-- A call moves the words on by its draws. -/
theorem words_perform {prf : PRF} {call : Call} (unkeyed : call.Unkeyed) {o after : SSLEObfuscation}
    (performed : perform prf o call = .ok after) :
    after.prfState = (next prf)^[call.draws] o.prfState := by
  cases call with
  | initializeKeyed prfkey n => cases unkeyed
  | initializeParticipants n =>
      cases performed
      rfl
  | getKey =>
      cases performed
      rfl
  | electLeaderKeyed sec => cases unkeyed
  | electLeader =>
      obtain ⟨_, rfl⟩ := (electLeader_eq_ok_iff prf o after).mp performed
      rfl

/-- The words after a run follow from their number of PRF calls. -/
theorem words_run {prf : PRF} {calls : List Call} (unkeyed : ∀ call ∈ calls, call.Unkeyed)
    {o final : SSLEObfuscation} (performed : Runs.run (perform prf) o calls = .ok final) :
    final.prfState = (next prf)^[draws calls] o.prfState := by
  induction calls generalizing o with
  | nil =>
      cases performed
      rfl
  | cons call calls ih =>
      obtain ⟨middle, stepped, rest⟩ := Runs.run_cons_eq_ok_iff.mp performed
      rw [List.forall_mem_cons] at unkeyed
      rw [ih unkeyed.2 rest, words_perform unkeyed.1 stepped, ← iterate_add_apply, draws, draws,
        List.map_cons, List.sum_cons, Nat.add_comm]

/-- **The words of an object.** There is a number of PRF calls after whose
multiples, and at no other time, a run that replaces no key is back at the words
it started from; and two such runs of as many PRF calls that end with the same
words started with the same words. -/
theorem words_return_iff (o : SSLEObfuscation) :
    ∃ period, 0 < period ∧ ∀ calls final, (∀ call ∈ calls, call.Unkeyed) →
      Runs.run (perform PPRF.prf) o calls = .ok final →
      (final.prfState = o.prfState ↔ period ∣ draws calls) ∧
      ∀ other calls' final', (∀ call ∈ calls', call.Unkeyed) →
        Runs.run (perform PPRF.prf) other calls' = .ok final' → draws calls' = draws calls →
        final'.prfState = final.prfState → other.prfState = o.prfState := by
  have reversible := PPRF.reversible_prf
  refine ⟨minimalPeriod (next PPRF.prf) o.prfState, ?_, fun calls final unkeyed performed => ?_⟩
  · exact minimalPeriod_pos_of_mem_periodicPts (reversible.mem_periodicPts o.prfState)
  · have words := words_run unkeyed performed
    refine ⟨?_, fun other calls' final' unkeyed' performed' many same => ?_⟩
    · rw [words]
      exact isPeriodicPt_iff_minimalPeriod_dvd
    · rw [words_run unkeyed' performed', words, many] at same
      exact reversible.iterate _ same

end SSLEObfuscation

end Ssle
