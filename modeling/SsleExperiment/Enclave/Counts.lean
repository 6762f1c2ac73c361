import SsleExperiment.Enclave.Ecall

/-! # The counts that the host may pass

`ecall_election` takes the number of nodes from the untrusted host and checks it
nowhere: the election divides by it, and lets it bound two loops. It completes
for every count but zero, and for `-1` unless the PRF value has the least low
half (`Ssle.Ecall.completes_iff`). A negative count elects nobody and leaves the
store empty, so that the out-of-range result is released.
-/

namespace Ssle.Ecall

open SSLEObfuscation

/-- What is to be released: the commitment of node `0`, or the out-of-range
result if there is no node. -/
def expectedRelease (prfValue : UInt64) (numNodes : Int32) : UInt64 :=
  if 0 < numNodes then commitmentAt prfValue numNodes 0 else -1

/-- The election returns, and the expected value is released. -/
def Completes (prf : PRF) (memory : Memory) (prfkey : UInt64) (numNodes : Int32) : Prop :=
  ∃ o, elect prf memory prfkey numNodes = .ok o ∧
    o.getCommValue 0 = expectedRelease (drawn prf prfkey) numNodes ∧
    election prf memory prfkey numNodes = .ok (o.getCommValue 0)

/-- An election on a new object needs no more than a divisor that does not
overflow: the store has an entry for every participant. -/
theorem elect_eq_ok_iff (prf : PRF) (memory : Memory) (prfkey : UInt64) (n : Int32)
    (o : SSLEObfuscation) :
    elect prf memory prfkey n = .ok o ↔
      (n ≠ 0 ∧ ¬ (n = -1 ∧ lowHalf (drawn prf prfkey) = Int32.minValue)) ∧
        elected prf memory prfkey n = o := by
  rw [elect, electLeaderKeyed, electLeader_eq_ok_iff]
  refine and_congr ⟨fun defined => ⟨defined.nonzero, fun overflow => ?_⟩, fun counted =>
    ⟨counted.1, fun overflow => counted.2 ⟨overflow.2, overflow.1⟩, ?_⟩⟩ Iff.rfl
  · exact defined.noOverflow ⟨overflow.2, overflow.1⟩
  · change n.toNatClampNeg ≤ (initializeKeyed prfkey n (fresh memory)).commValues.length
    simp [initializeKeyed]

/-- The value released is the commitment of the first node. -/
theorem getCommValue_elected_zero (prf : PRF) (memory : Memory) (prfkey : UInt64) (n : Int32) :
    (elected prf memory prfkey n).getCommValue 0 = expectedRelease (drawn prf prfkey) n := by
  rw [expectedRelease]
  split
  next positive => exact getCommValue_elected prf memory prfkey (Int32.le_refl 0) positive
  next nonpositive =>
    have none : n.toNatClampNeg = 0 := by
      rw [Int32.toNatClampNeg_eq_zero_iff]
      exact Int32.not_lt.mp nonpositive
    refine getCommValue_of_outside _ (.inr ?_)
    rw [commValues_elected, length_commitments, none]
    exact Nat.zero_le _

/-- **Every count.** The election completes exactly when the count is not zero
and its remainder does not overflow. -/
theorem completes_iff (prf : PRF) (memory : Memory) (prfkey : UInt64) (numNodes : Int32) :
    Completes prf memory prfkey numNodes ↔
      numNodes ≠ 0 ∧ ¬ (numNodes = -1 ∧ lowHalf (drawn prf prfkey) = Int32.minValue) := by
  refine ⟨fun completes => ?_, fun counted => ?_⟩
  · obtain ⟨o, returned, _⟩ := completes
    exact ((elect_eq_ok_iff prf memory prfkey numNodes o).mp returned).1
  · have returned := (elect_eq_ok_iff prf memory prfkey numNodes _).mpr ⟨counted, rfl⟩
    refine ⟨_, returned, getCommValue_elected_zero prf memory prfkey numNodes, ?_⟩
    rw [election, returned]
    rfl

/-- No nodes, and the PRF value `0`: the remainder is undefined. -/
theorem uncounted_election :
    election (PRF.returning 0) ⟨0, 0, 0⟩ 7 0 = .error .remainderByZero ∧
      ¬ Completes (PRF.returning 0) ⟨0, 0, 0⟩ 7 0 :=
  ⟨by decide, fun completes => ((completes_iff _ _ _ _).mp completes).1 rfl⟩

end Ssle.Ecall
