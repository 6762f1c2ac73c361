import SsleExperiment.Enclave.Election

/-! # The boundary of the enclave

`ecall_election` runs an election on a new object and releases the commitment
of node `0`. The mask of that commitment is the PRF value whose low half names
the leader, so the released value `c` comes from one of two PRF values only,
`c ^ win` and `c ^ lose`: it leaves open whether node `0` leads exactly when
one of them elects node `0` and the other does not
(`Ssle.Ecall.hides_iff`), and for no number of participants above one does this
hold of every PRF value (`Ssle.Ecall.exists_not_hides`).
-/

namespace Ssle.Ecall

open SSLEObfuscation

/-- `ecall_election`: the commitment copied to `output`. The key pair created
on the way touches neither the object nor the output. -/
def election (prf : PRF) (memory : Memory) (prfkey : UInt64) (numNodes : Int32) :
    Except Fault UInt64 := do
  let ssleobf ← elect prf memory prfkey numNodes
  return ssleobf.getCommValue 0

/-- The value released is the commitment of node zero. -/
theorem election_eq (prf : PRF) (memory : Memory) (prfkey : UInt64) {n : Int32}
    (positive : 0 < n) :
    election prf memory prfkey n = .ok (commitmentAt (drawn prf prfkey) n 0) := by
  rw [election, elect_eq prf memory prfkey positive]
  exact congrArg Except.ok
    (getCommValue_elected prf memory prfkey (Int32.le_refl 0) positive)

/-- Whether the election names node `0` when the PRF returns `prfValue`. -/
def LeadsNodeZero (memory : Memory) (prfkey : UInt64) (n : Int32) (prfValue : UInt64) : Prop :=
  ∃ o, elect (PRF.returning prfValue) memory prfkey n = .ok o ∧ o.leaderId = 0

/-- Node zero leads for the multiples of the number of nodes. -/
theorem leadsNodeZero_iff (memory : Memory) (prfkey : UInt64) {n : Int32} (positive : 0 < n)
    (prfValue : UInt64) :
    LeadsNodeZero memory prfkey n prfValue ↔ n.toInt ∣ (lowHalf prfValue).toInt := by
  have named : LeadsNodeZero memory prfkey n prfValue ↔
      (lowHalf prfValue % n).toUInt32 = 0 := by
    rw [LeadsNodeZero, elect_eq _ _ _ positive]
    refine ⟨fun leads => ?_, fun named => ⟨_, rfl, named⟩⟩
    obtain ⟨o, equal, named⟩ := leads
    cases equal
    exact named
  rw [named, Int.dvd_iff_tmod_eq_zero, ← Int32.toInt_mod]
  refine ⟨fun zero => ?_, fun zero => ?_⟩
  · have back := congrArg UInt32.toInt32 zero
    rw [Int32.toInt32_toUInt32] at back
    rw [back]
    rfl
  · rw [Int32.toInt_inj.mp (zero.trans Int32.toInt_zero.symm)]
    rfl

/-- The first participant is elected for the multiples of their number. -/
theorem elects_zero_iff (prfValue : UInt64) (n : Int32) :
    Elects prfValue n 0 ↔ n.toInt ∣ (lowHalf prfValue).toInt := by
  rw [Int.dvd_iff_tmod_eq_zero]
  rfl

/-- The value released is masked by the PRF value. -/
theorem election_returning (memory : Memory) (prfkey : UInt64) {n : Int32} (positive : 0 < n)
    (prfValue : UInt64) :
    election (PRF.returning prfValue) memory prfkey n =
      .ok (if n.toInt ∣ (lowHalf prfValue).toInt then win ^^^ prfValue
        else lose ^^^ prfValue) := by
  rw [election_eq _ _ _ positive, commitmentAt]
  simp only [elects_zero_iff]
  rfl

/-! ## Hiding -/

/-- **Hiding at one PRF value.** Some other PRF value makes the enclave release
the same commitment although the answer to "does node `0` lead?" differs. -/
structure Hides (memory : Memory) (prfkey : UInt64) (n : Int32) (prfValue : UInt64) : Prop where
  leading : LeadsNodeZero memory prfkey n prfValue →
    ∃ other, ¬ LeadsNodeZero memory prfkey n other ∧
      election (PRF.returning other) memory prfkey n =
        election (PRF.returning prfValue) memory prfkey n
  following : ¬ LeadsNodeZero memory prfkey n prfValue →
    ∃ other, LeadsNodeZero memory prfkey n other ∧
      election (PRF.returning other) memory prfkey n =
        election (PRF.returning prfValue) memory prfkey n

/-- The only other PRF value that can explain a released commitment. -/
def twin (prfValue : UInt64) : UInt64 := prfValue ^^^ (win ^^^ lose)

/-- Two masks agree for values that differ by both. -/
theorem masked_eq_iff (a b p q : UInt64) : a ^^^ q = b ^^^ p ↔ q = p ^^^ (a ^^^ b) := by
  rw [← UInt64.xor_right_inj a, ← UInt64.xor_assoc a a, UInt64.xor_self, UInt64.zero_xor,
    UInt64.xor_comm p, UInt64.xor_assoc]

/-- A released commitment hides whether node `0` leads exactly when the number
of participants divides one of the two signed low halves that explain it and
not the other. -/
theorem hides_twin_iff (memory : Memory) (prfkey : UInt64) {n : Int32} (positive : 0 < n)
    (prfValue : UInt64) :
    Hides memory prfkey n prfValue ↔
      (n.toInt ∣ (lowHalf prfValue).toInt ↔ ¬ n.toInt ∣ (lowHalf (twin prfValue)).toInt) := by
  have leads := leadsNodeZero_iff memory prfkey positive
  have released := election_returning memory prfkey positive
  by_cases leader : n.toInt ∣ (lowHalf prfValue).toInt
  · simp only [leader, true_iff]
    refine ⟨fun hidden => ?_, fun different => ⟨fun _ => ?_, fun follows => ?_⟩⟩
    · obtain ⟨other, follows, same⟩ := hidden.leading ((leads prfValue).mpr leader)
      have notDividing := fun divides => follows ((leads other).mpr divides)
      rw [released, released, if_neg notDividing, if_pos leader, Except.ok.injEq,
        masked_eq_iff, UInt64.xor_comm lose] at same
      rwa [same] at notDividing
    · refine ⟨twin prfValue, fun leading => different ((leads _).mp leading), ?_⟩
      rw [released, released, if_neg different, if_pos leader, Except.ok.injEq,
        masked_eq_iff, UInt64.xor_comm lose, twin]
    · exact (follows ((leads prfValue).mpr leader)).elim
  · simp only [leader, false_iff, not_not]
    refine ⟨fun hidden => ?_, fun different => ⟨fun leading => ?_, fun _ => ?_⟩⟩
    · obtain ⟨other, leading, same⟩ :=
        hidden.following fun leading => leader ((leads prfValue).mp leading)
      have dividing := (leads other).mp leading
      rw [released, released, if_pos dividing, if_neg leader, Except.ok.injEq,
        masked_eq_iff] at same
      rwa [same] at dividing
    · exact (leader ((leads prfValue).mp leading)).elim
    · refine ⟨twin prfValue, (leads _).mpr different, ?_⟩
      rw [released, released, if_pos different, if_neg leader, Except.ok.injEq,
        masked_eq_iff, twin]

/-- With two or more participants some PRF value gives node `0` away. For two
participants `0` does, since `win ^ lose` is even; for more, neither `1` nor
`2` elects node `0`, and not both of their twins do. -/
theorem exists_not_hides (memory : Memory) (prfkey : UInt64) {n : Int32} (several : 2 ≤ n) :
    ∃ prfValue, ¬ Hides memory prfkey n prfValue := by
  have atLeast : 2 ≤ n.toInt := Int32.le_iff_toInt_le.mp several
  have positive : 0 < n := Int32.lt_iff_toInt_lt.mpr (lt_of_lt_of_le (by decide) atLeast)
  by_contra hidden
  push Not at hidden
  have exact (prfValue : UInt64) :=
    (hides_twin_iff memory prfkey positive prfValue).mp (hidden prfValue)
  have zero : (lowHalf 0).toInt = 0 ∧ (lowHalf (twin 0)).toInt = 733721392 := by decide
  have one : (lowHalf 1).toInt = 1 ∧ (lowHalf (twin 1)).toInt = 733721393 := by decide
  have two : (lowHalf 2).toInt = 2 ∧ (lowHalf (twin 2)).toInt = 733721394 := by decide
  have atZero := exact 0
  have atOne := exact 1
  have atTwo := exact 2
  rw [zero.1, zero.2] at atZero
  rw [one.1, one.2] at atOne
  rw [two.1, two.2] at atTwo
  have notOne : ¬ n.toInt ∣ 1 := fun divides => by
    have := Int.le_of_dvd one_pos divides
    omega
  have twinOne : n.toInt ∣ 733721393 := by
    by_contra fails
    exact notOne (atOne.mpr fails)
  rcases eq_or_lt_of_le atLeast with pair | more
  · rw [← pair] at twinOne
    omega
  · have notTwo : ¬ n.toInt ∣ 2 := fun divides => by
      have := Int.le_of_dvd two_pos divides
      omega
    have twinTwo : n.toInt ∣ 733721394 := by
      by_contra fails
      exact notTwo (atTwo.mpr fails)
    exact notOne (by simpa using Int.dvd_sub twinTwo twinOne)

/-- **Where the released commitment hides the result.** At one PRF value the
commitment leaves open whether node `0` leads exactly when one and only one of
the PRF value and its twin has a signed low half that the number of
participants divides; no number of participants above one makes this so at
every PRF value. -/
theorem hides_iff (memory : Memory) (prfkey : UInt64) (n : Int32) (several : 2 ≤ n) :
    (∀ prfValue, Hides memory prfkey n prfValue ↔
      (n.toInt ∣ (lowHalf prfValue).toInt ↔
        ¬ n.toInt ∣ (lowHalf (twin prfValue)).toInt)) ∧
      ¬ ∀ prfValue, Hides memory prfkey n prfValue := by
  have positive : 0 < n := Int32.lt_iff_toInt_lt.mpr
    (lt_of_lt_of_le (by decide) (Int32.le_iff_toInt_le.mp several))
  refine ⟨hides_twin_iff memory prfkey positive, fun hidden => ?_⟩
  obtain ⟨prfValue, revealed⟩ := exists_not_hides memory prfkey several
  exact revealed (hidden prfValue)

theorem hides_iff_of_five :
    (2 : Int32) ≤ 5 ∧
      (∀ prfValue, Hides ⟨0, 0, 0⟩ 7 5 prfValue ↔
        ((5 : Int32).toInt ∣ (lowHalf prfValue).toInt ↔
          ¬ (5 : Int32).toInt ∣ (lowHalf (twin prfValue)).toInt)) ∧
      ¬ ∀ prfValue, Hides ⟨0, 0, 0⟩ 7 5 prfValue :=
  ⟨by decide, hides_iff ⟨0, 0, 0⟩ 7 5 (by decide)⟩

/-- Two participants and the PRF value `0`: node `0` leads, and every PRF value
that releases the same commitment makes node `0` lead. -/
theorem revealed_leader :
    LeadsNodeZero ⟨0, 0, 0⟩ 7 2 0 ∧
      ¬ ∃ other, ¬ LeadsNodeZero ⟨0, 0, 0⟩ 7 2 other ∧
        election (PRF.returning other) ⟨0, 0, 0⟩ 7 2 =
          election (PRF.returning 0) ⟨0, 0, 0⟩ 7 2 := by
  have leads : LeadsNodeZero ⟨0, 0, 0⟩ 7 2 0 :=
    (leadsNodeZero_iff _ _ (by decide) _).mpr (by decide)
  refine ⟨leads, fun hidden => ?_⟩
  have both : Hides ⟨0, 0, 0⟩ 7 2 0 := ⟨fun _ => hidden, fun follows => (follows leads).elim⟩
  rw [hides_twin_iff _ _ (by decide)] at both
  exact absurd both (by decide)

end Ssle.Ecall
