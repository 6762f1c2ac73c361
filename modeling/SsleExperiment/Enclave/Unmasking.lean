import SsleExperiment.Enclave.Ecall

/-! # Elections under one key

Every election under a key masks with the same PRF value, whatever the number of
participants. What any elections under one key release leaves at most one PRF
value beside the real one, and none as soon as one of the elections has the same
answer for both (`Ssle.Ecall.released_eq_iff`). With a single participant node
`0` wins for certain: that release alone tells the leader and all commitments of
every election under the key (`Ssle.Ecall.unmasked`).
-/

namespace Ssle.Ecall

open SSLEObfuscation

/-! ## What several elections release -/

/-- Two PRF values make the enclave release the same in one election. -/
theorem release_eq_iff (memory : Memory) (prfkey : UInt64) {n : Int32} (positive : 0 < n)
    (prfValue other : UInt64) :
    election (PRF.returning other) memory prfkey n =
        election (PRF.returning prfValue) memory prfkey n ↔
      if (n.toInt ∣ (lowHalf other).toInt ↔ n.toInt ∣ (lowHalf prfValue).toInt) then
        other = prfValue
      else other = twin prfValue := by
  rw [election_returning memory prfkey positive, election_returning memory prfkey positive,
    Except.ok.injEq]
  by_cases leads : n.toInt ∣ (lowHalf other).toInt
  · by_cases leads' : n.toInt ∣ (lowHalf prfValue).toInt
    · simp only [leads, leads', ↓reduceIte]
      exact UInt64.xor_right_inj win
    · simp only [leads, leads', ↓reduceIte, masked_eq_iff]
      rfl
  · by_cases leads' : n.toInt ∣ (lowHalf prfValue).toInt
    · simp only [leads, leads', ↓reduceIte]
      rw [masked_eq_iff, UInt64.xor_comm lose, if_neg (by decide)]
      rfl
    · simp only [leads, leads', ↓reduceIte]
      exact UInt64.xor_right_inj lose

/-- **Elections under one key.** Another PRF value explains all that the
elections release exactly when it is the twin of the real one and in each
election node `0` leads under one of the two only. -/
theorem released_eq_iff (memory : Memory) (prfkey : UInt64) (counts : List Int32)
    (some : counts ≠ []) (positive : ∀ n ∈ counts, 0 < n) (prfValue other : UInt64) :
    (∀ n ∈ counts, election (PRF.returning other) memory prfkey n =
        election (PRF.returning prfValue) memory prfkey n) ↔
      other = prfValue ∨ other = twin prfValue ∧ ∀ n ∈ counts,
        (n.toInt ∣ (lowHalf prfValue).toInt ↔ ¬ n.toInt ∣ (lowHalf (twin prfValue)).toInt) := by
  have releases (n : Int32) (member : n ∈ counts) :=
    release_eq_iff memory prfkey (positive n member) prfValue other
  constructor
  · intro explained
    by_cases same : other = prfValue
    · exact .inl same
    · have differ (n : Int32) (member : n ∈ counts) :
          ¬ (n.toInt ∣ (lowHalf other).toInt ↔ n.toInt ∣ (lowHalf prfValue).toInt) ∧
            other = twin prfValue := by
        have explains := (releases n member).mp (explained n member)
        split at explains
        · exact (same explains).elim
        · exact ⟨‹_›, explains⟩
      obtain ⟨first, member⟩ := List.exists_mem_of_ne_nil counts some
      obtain ⟨-, rfl⟩ := differ first member
      exact .inr ⟨rfl, fun n among => (not_iff.mp (differ n among).1).symm⟩
  · rintro (rfl | ⟨rfl, answers⟩) n member
    · rfl
    · rw [releases n member, if_neg (not_iff.mpr (answers n member).symm)]

theorem released_eq_iff_of_two :
    ([2, 5] : List Int32) ≠ [] ∧ (∀ n ∈ ([2, 5] : List Int32), 0 < n) ∧
    ((∀ n ∈ ([2, 5] : List Int32), election (PRF.returning 6) ⟨0, 0, 0⟩ 9 n =
        election (PRF.returning 4) ⟨0, 0, 0⟩ 9 n) ↔
      (6 : UInt64) = 4 ∨ (6 : UInt64) = twin 4 ∧ ∀ n ∈ ([2, 5] : List Int32),
        (n.toInt ∣ (lowHalf 4).toInt ↔ ¬ n.toInt ∣ (lowHalf (twin 4)).toInt)) :=
  have positive : ∀ n ∈ ([2, 5] : List Int32), 0 < n :=
    List.forall_mem_cons.mpr ⟨by decide, List.forall_mem_singleton.mpr (by decide)⟩
  ⟨List.cons_ne_nil 2 [5], positive,
    released_eq_iff ⟨0, 0, 0⟩ 9 [2, 5] (List.cons_ne_nil 2 [5]) positive 4 6⟩

/-! ## A single participant -/

/-- A single participant is always elected. -/
theorem elects_single (prfValue : UInt64) : Elects prfValue 1 0 := by
  rw [elects_zero_iff]
  exact one_dvd _

/-- What a single participant is sent is the mask on the winning value. -/
theorem drawn_eq_of_single (prf : PRF) (prfkey : UInt64) :
    drawn prf prfkey = commitmentAt (drawn prf prfkey) 1 0 ^^^ win := by
  have opened := (commitmentAt_xor_eq_win (drawn prf prfkey) 1 0).mpr (elects_single _)
  rw [← opened, ← UInt64.xor_assoc, UInt64.xor_self, UInt64.zero_xor]

/-- **Unmasking.** What an election of a single participant releases determines
the mask, the leader and all commitments of every election under the same key. -/
theorem unmasked (prf : PRF) (memory memory' : Memory) (prfkey : UInt64) (n : Int32)
    (positive : 0 < n) :
    ∃ released o, election prf memory prfkey 1 = .ok released ∧
      elect prf memory' prfkey n = .ok o ∧
      o.prfValue = released ^^^ win ∧
      ∀ i : Int32, 0 ≤ i → i < n →
        (o.getCommValue i ^^^ o.prfValue = win ↔
          i.toInt = (lowHalf (released ^^^ win)).toInt.tmod n.toInt) ∧
        o.getCommValue i = commitmentAt (released ^^^ win) n i.toNatClampNeg := by
  refine ⟨_, _, election_eq prf memory prfkey (by decide), elect_eq prf memory' prfkey positive,
    drawn_eq_of_single prf prfkey, fun i nonnegative below => ?_⟩
  rw [← drawn_eq_of_single, prfValue_elected,
    getCommValue_elected prf memory' prfkey nonnegative below]
  refine ⟨?_, rfl⟩
  rw [commitmentAt_xor_eq_win, Int32.toInt_eq_toNatClampNeg nonnegative]
  exact eq_comm

theorem unmasked_of_three :
    (0 : Int32) < 3 ∧
    ∃ released o, election (PRF.returning 7) ⟨0, 0, 0⟩ 5 1 = .ok released ∧
      elect (PRF.returning 7) ⟨0, 0, 0⟩ 5 3 = .ok o ∧
      o.prfValue = released ^^^ win ∧
      ∀ i : Int32, 0 ≤ i → i < 3 →
        (o.getCommValue i ^^^ o.prfValue = win ↔
          i.toInt = (lowHalf (released ^^^ win)).toInt.tmod (3 : Int32).toInt) ∧
        o.getCommValue i = commitmentAt (released ^^^ win) 3 i.toNatClampNeg :=
  ⟨by decide, unmasked (PRF.returning 7) ⟨0, 0, 0⟩ ⟨0, 0, 0⟩ 5 3 (by decide)⟩

end Ssle.Ecall
