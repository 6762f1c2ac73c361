import SsleExperiment.Cpp.Basic
import SsleExperiment.Enclave.Prf

/-! # The leader election object

`SSLE_Obfuscation` keeps one commitment per participant. `electLeader` draws a
PRF value, reduces its low half modulo the number of participants and commits
to `win` for the participant it names and to `lose` for the others, masking
each with the PRF value. What one call does to the object is stated once for
each method; `Ssle.SSLEObfuscation.electLeader_eq_ok_iff` is the one for an
election.
-/

namespace Ssle

/-- `(int)value`: the low half of a 64-bit value, read as a signed number. -/
def lowHalf (value : UInt64) : Int32 := value.toUInt32.toInt32

/-- The members of an `SSLE_Obfuscation` that the election uses. -/
structure SSLEObfuscation where
  commValues : List UInt64
  secret : UInt64
  hash : UInt64
  lcg : UInt64
  prfValue : UInt64
  num : Int32
  leaderId : UInt32
  deriving DecidableEq, Repr

namespace SSLEObfuscation

/-- What the commitment of the leader hides. -/
def win : UInt64 := 0xABCDEF1234567890

/-- What the commitment of everyone else hides. -/
def lose : UInt64 := 0x987654321FEDCBA0

/-- The initial `hash` word, which the class calls constant. -/
def initialHash : UInt64 := 0xA4BDE5C4A05E6256

/-- What memory holds in the members that have no initialiser. -/
structure Memory where
  prfValue : UInt64
  num : Int32
  leaderId : UInt32

/-- A newly constructed object. -/
def fresh (memory : Memory) : SSLEObfuscation where
  commValues := []
  secret := 0x93064E905C127FE5
  hash := initialHash
  lcg := 0
  prfValue := memory.prfValue
  num := memory.num
  leaderId := memory.leaderId

/-- The words the object hands to the PRF. -/
def prfState (o : SSLEObfuscation) : PRFState := ⟨o.secret, o.lcg, o.hash⟩

/-- The object after the PRF has overwritten its words. -/
def withPrfState (o : SSLEObfuscation) (state : PRFState) : SSLEObfuscation :=
  { o with secret := state.seed, lcg := state.lcg, hash := state.hash }

/-- `initialize(participants)`: the loop appends one zero per participant. -/
def initializeParticipants (participants : Int32) (o : SSLEObfuscation) : SSLEObfuscation :=
  { o with
    num := participants
    commValues := (List.range participants.toNatClampNeg).foldl
      (fun values _ => values ++ [0]) o.commValues }

/-- `initialize(prfkey, participants)`. -/
def initializeKeyed (prfkey : UInt64) (participants : Int32) (o : SSLEObfuscation) :
    SSLEObfuscation :=
  initializeParticipants participants { o with secret := prfkey }

/-- `get_key`: the key returned, and the object left behind. -/
def getKey (prf : PRF) (o : SSLEObfuscation) : UInt64 × SSLEObfuscation :=
  ((prf o.prfState).1, o.withPrfState (prf o.prfState).2)

/-- `commit`: the data masked with the PRF value. -/
def commit (data prfkey : UInt64) : UInt64 := data ^^^ prfkey

/-- `electLeader()`. The index of the loop is compared with `leader_id` after
`leader_id` has gone through `uint32_t` and back. -/
def electLeader (prf : PRF) (o : SSLEObfuscation) : Except Fault SSLEObfuscation := do
  let (prfValue, state) := prf o.prfState
  let remainder ← intRem (lowHalf prfValue) o.num
  let leaderId := remainder.toUInt32
  let commValues ← (List.range o.num.toNatClampNeg).foldlM
    (fun values i => storeAt values i
      (if Int32.ofNat i = leaderId.toInt32 then commit win prfValue else commit lose prfValue))
    o.commValues
  return { o.withPrfState state with
    prfValue := prfValue, leaderId := leaderId, commValues := commValues }

/-- `electLeader(sec)`. -/
def electLeaderKeyed (prf : PRF) (sec : UInt64) (o : SSLEObfuscation) :
    Except Fault SSLEObfuscation :=
  electLeader prf { o with secret := sec }

/-- `getCommValue(n)`: the comparison with `size()` converts `n` to `size_t`. -/
def getCommValue (o : SSLEObfuscation) (n : Int32) : UInt64 :=
  if n.toInt64.toUInt64.toNat < o.commValues.length ∧ 0 ≤ n then
    o.commValues.getD n.toNatClampNeg 0
  else -1

/-! ## Reading the store -/

/-- A count that is not negative is converted to itself. -/
theorem size_conversion {n : Int32} (nonnegative : 0 ≤ n) :
    n.toInt64.toUInt64.toNat = n.toNatClampNeg := by
  have extended : 0 ≤ n.toInt64 := by
    rw [Int64.le_iff_toInt_le, Int32.toInt_toInt64]
    exact Int32.le_iff_toInt_le.mp nonnegative
  rw [Int64.toNat_toUInt64_of_le extended, Int32.toNatClampNeg_toInt64]

/-- Entries inside the list are returned. -/
theorem getCommValue_of_lt (o : SSLEObfuscation) {n : Int32} (nonnegative : 0 ≤ n)
    (inside : n.toNatClampNeg < o.commValues.length) :
    o.getCommValue n = o.commValues.getD n.toNatClampNeg 0 := by
  rw [getCommValue, size_conversion nonnegative, if_pos ⟨inside, nonnegative⟩]

/-- Outside of the list, minus one is returned. -/
theorem getCommValue_of_outside (o : SSLEObfuscation) {n : Int32}
    (outside : n < 0 ∨ o.commValues.length ≤ n.toNatClampNeg) : o.getCommValue n = -1 := by
  rw [getCommValue, if_neg]
  intro within
  obtain ⟨inside, nonnegative⟩ := within
  rw [size_conversion nonnegative] at inside
  rcases outside with negative | beyond
  · exact absurd nonnegative (Int32.not_le.mpr negative)
  · omega

/-! ## One call -/

/-- Zeros are appended for new participants. -/
@[simp] theorem commValues_initializeParticipants (participants : Int32) (o : SSLEObfuscation) :
    (o.initializeParticipants participants).commValues =
      o.commValues ++ List.replicate participants.toNatClampNeg 0 := by
  simp only [initializeParticipants]
  induction participants.toNatClampNeg with
  | zero => simp
  | succ count ih =>
      rw [List.range_succ, List.foldl_append, ih, List.replicate_succ']
      simp

@[simp] theorem num_initializeParticipants (participants : Int32) (o : SSLEObfuscation) :
    (o.initializeParticipants participants).num = participants := rfl

@[simp] theorem prfState_initializeParticipants (participants : Int32) (o : SSLEObfuscation) :
    (o.initializeParticipants participants).prfState = o.prfState := rfl

/-- The PRF value elects the participant whose index is the truncated remainder
of its signed low half. A negative remainder elects nobody. -/
def Elects (prfValue : UInt64) (num : Int32) (i : Nat) : Prop :=
  (lowHalf prfValue).toInt.tmod num.toInt = i

instance (prfValue : UInt64) (num : Int32) (i : Nat) : Decidable (Elects prfValue num i) :=
  inferInstanceAs (Decidable (_ = _))

/-- The commitment an election stores for participant `i`. -/
def commitmentAt (prfValue : UInt64) (num : Int32) (i : Nat) : UInt64 :=
  if Elects prfValue num i then commit win prfValue else commit lose prfValue

/-- The commitments an election stores, in order. -/
def commitments (prfValue : UInt64) (num : Int32) : List UInt64 :=
  (List.range num.toNatClampNeg).map (commitmentAt prfValue num)

/-- There is a commitment for each participant. -/
@[simp] theorem length_commitments (prfValue : UInt64) (num : Int32) :
    (commitments prfValue num).length = num.toNatClampNeg := by
  simp [commitments]

/-- The comparison in the loop of `electLeader` finds the elected participant. -/
theorem leader_comparison (prfValue : UInt64) (num : Int32) {i : Nat} (small : i < 2 ^ 31) :
    Int32.ofNat i = (lowHalf prfValue % num).toUInt32.toInt32 ↔ Elects prfValue num i := by
  rw [Int32.toInt32_toUInt32, ← Int32.toInt_inj, Int32.toInt_ofNat_of_lt small, Int32.toInt_mod,
    Elects, eq_comm]

/-- The object after an election over a store that is large enough. -/
def afterElection (prf : PRF) (o : SSLEObfuscation) : SSLEObfuscation :=
  { o.withPrfState (prf o.prfState).2 with
    prfValue := (prf o.prfState).1
    leaderId := (lowHalf (prf o.prfState).1 % o.num).toUInt32
    commValues := commitments (prf o.prfState).1 o.num ++
      o.commValues.drop o.num.toNatClampNeg }

/-- What an election needs to stay defined: a divisor, no overflow in the
remainder, and an entry of the store for every participant. -/
structure ElectionDefined (prf : PRF) (o : SSLEObfuscation) : Prop where
  nonzero : o.num ≠ 0
  noOverflow : ¬ (lowHalf (prf o.prfState).1 = Int32.minValue ∧ o.num = -1)
  fits : o.num.toNatClampNeg ≤ o.commValues.length

/-- **One election.** `electLeader` returns exactly when the election is
defined, and then rewrites exactly the entries of the current participants. -/
theorem electLeader_eq_ok_iff (prf : PRF) (o after : SSLEObfuscation) :
    electLeader prf o = .ok after ↔ ElectionDefined prf o ∧ afterElection prf o = after := by
  have entries : (List.range o.num.toNatClampNeg).map (fun i =>
      if Int32.ofNat i = (lowHalf (prf o.prfState).1 % o.num).toUInt32.toInt32 then
        commit win (prf o.prfState).1 else commit lose (prf o.prfState).1) =
      commitments (prf o.prfState).1 o.num := by
    refine List.map_congr_left fun i member => ?_
    have small : i < 2 ^ 31 := (List.mem_range.mp member).trans o.num.toNatClampNeg_lt
    simp only [leader_comparison _ _ small, commitmentAt]
  by_cases remainder : o.num ≠ 0 ∧ ¬ (lowHalf (prf o.prfState).1 = Int32.minValue ∧ o.num = -1)
  · have reduced := intRem_eq_ok_iff.mpr
      (And.intro remainder (Eq.refl (lowHalf (prf o.prfState).1 % o.num)))
    by_cases fits : o.num.toNatClampNeg ≤ o.commValues.length
    · have returned : electLeader prf o = .ok (afterElection prf o) := by
        rw [afterElection, ← entries]
        simp only [electLeader, reduced, foldlM_storeAt, fits, ↓reduceIte]
        rfl
      rw [returned, Except.ok.injEq]
      exact (and_iff_right ⟨remainder.1, remainder.2, fits⟩).symm
    · refine ⟨fun returned => ?_, fun defined => (fits defined.1.fits).elim⟩
      simp only [electLeader, reduced, foldlM_storeAt, fits, ↓reduceIte] at returned
      cases returned
  · refine ⟨fun returned => ?_, fun defined => ?_⟩
    · cases reduced : intRem (lowHalf (prf o.prfState).1) o.num with
      | ok value => exact (remainder (intRem_eq_ok_iff.mp reduced).1).elim
      | error fault =>
          simp only [electLeader, reduced] at returned
          cases returned
    · exact (remainder ⟨defined.1.nonzero, defined.1.noOverflow⟩).elim

/-- An election returns if it has room for its commitments. -/
theorem electLeader_of_fits (prf : PRF) (o : SSLEObfuscation) (positive : 0 < o.num)
    (fits : o.num.toNatClampNeg ≤ o.commValues.length) :
    electLeader prf o = .ok (afterElection prf o) := by
  refine (electLeader_eq_ok_iff prf o _).mpr ⟨⟨fun zero => ?_, fun overflow => ?_, fits⟩, rfl⟩
  · rw [zero] at positive
    exact absurd positive (by decide)
  · rw [overflow.2] at positive
    exact absurd positive (by decide)

end SSLEObfuscation

end Ssle
