import SsleExperiment.Enclave.Ecall

/-! # Opening the commitment outside the enclave

The leader branch of `main` unmasks the released commitment with the PRF key
and compares the result with its own constant. The enclave masked with the PRF
value drawn from that key, and committed to other constants, so the report is
right only for the keys whose PRF value makes up for both differences
(`Ssle.App.reportsWin_iff`).
-/

namespace Ssle.App

open SSLEObfuscation

/-- The value `main` expects a winning commitment to open to. -/
def win : UInt64 := 1111

/-- `commit` of the application. -/
def commit (data prfkey : UInt64) : UInt64 := data ^^^ prfkey

/-- The leader branch of `main` from `ecall_election` to the comparison: whether
it prints `You win`. -/
def reportsWin (prf : PRF) (memory : Memory) (prfkey : UInt64) (num : Int32) :
    Except Fault Bool := do
  let output ← Ecall.election prf memory prfkey num
  return commit output prfkey == win

/-- A commitment to `data` under `mask` opens under `prfkey` to what is
expected when the two masks differ by the two values. -/
theorem commit_commit_eq_iff (data mask prfkey expected : UInt64) :
    commit (SSLEObfuscation.commit data mask) prfkey = expected ↔
      mask ^^^ prfkey = data ^^^ expected := by
  rw [commit, SSLEObfuscation.commit, UInt64.xor_assoc, ← UInt64.xor_right_inj data,
    ← UInt64.xor_assoc data data, UInt64.xor_self, UInt64.zero_xor]

/-- The leader unmasks the value stored for itself and compares it. -/
theorem reportsWin_eq (prf : PRF) (memory : Memory) (prfkey : UInt64) {n : Int32}
    (positive : 0 < n) :
    reportsWin prf memory prfkey n =
      .ok (commit (commitmentAt (drawn prf prfkey) n 0) prfkey == win) := by
  rw [reportsWin, Ecall.election_eq prf memory prfkey positive]
  rfl

/-- The enclave stores a win for the first node if it is the leader. -/
theorem stores_win_iff (prf : PRF) (memory : Memory) (prfkey : UInt64) {n : Int32}
    (positive : 0 < n) :
    (elected prf memory prfkey n).getCommValue 0 =
        SSLEObfuscation.commit SSLEObfuscation.win (drawn prf prfkey) ↔
      n.toInt ∣ (lowHalf (drawn prf prfkey)).toInt := by
  rw [getCommValue_elected prf memory prfkey (Int32.le_refl 0) positive,
    ← UInt64.xor_left_inj (drawn prf prfkey), commit_xor, commitmentAt_xor_eq_win]
  exact Ecall.elects_zero_iff _ _

/-- **When the report of `main` agrees with the election.** If node `0` is
elected, exactly when the PRF value and the key differ by the two winning
constants; if it is not, exactly when they do not happen to differ by the
losing constant of the enclave and the winning constant of `main`. -/
theorem report_agrees_iff (prf : PRF) (memory : Memory) (prfkey : UInt64) {n : Int32}
    (positive : 0 < n) :
    ((commit (commitmentAt (drawn prf prfkey) n 0) prfkey == win) = true ↔
        (elected prf memory prfkey n).getCommValue 0 =
          SSLEObfuscation.commit SSLEObfuscation.win (drawn prf prfkey)) ↔
      if n.toInt ∣ (lowHalf (drawn prf prfkey)).toInt then
        drawn prf prfkey ^^^ prfkey = SSLEObfuscation.win ^^^ win
      else drawn prf prfkey ^^^ prfkey ≠ lose ^^^ win := by
  rw [stores_win_iff prf memory prfkey positive, beq_iff_eq, commitmentAt]
  simp only [Ecall.elects_zero_iff]
  by_cases leader : n.toInt ∣ (lowHalf (drawn prf prfkey)).toInt
  · simp only [leader, ↓reduceIte, iff_true, commit_commit_eq_iff]
  · simp only [leader, ↓reduceIte, iff_false, commit_commit_eq_iff, ne_eq]

/-- The report of `main` on an election agrees with the commitment the enclave
stored for node `0` exactly under the condition of `Ssle.App.report_agrees_iff`. -/
theorem reportsWin_iff (prf : PRF) (memory : Memory) (prfkey : UInt64) (n : Int32)
    (positive : 0 < n) :
    ∃ o reported, elect prf memory prfkey n = .ok o ∧
      reportsWin prf memory prfkey n = .ok reported ∧
      ((reported = true ↔
          o.getCommValue 0 = SSLEObfuscation.commit SSLEObfuscation.win o.prfValue) ↔
        if n.toInt ∣ (lowHalf (drawn prf prfkey)).toInt then
          drawn prf prfkey ^^^ prfkey = SSLEObfuscation.win ^^^ win
        else drawn prf prfkey ^^^ prfkey ≠ lose ^^^ win) :=
  ⟨_, _, elect_eq prf memory prfkey positive, reportsWin_eq prf memory prfkey positive,
    report_agrees_iff prf memory prfkey positive⟩

theorem reportsWin_iff_of_three :
    (0 : Int32) < 3 ∧
      ∃ o reported, elect (PRF.returning 4) ⟨0, 0, 0⟩ 9 3 = .ok o ∧
        reportsWin (PRF.returning 4) ⟨0, 0, 0⟩ 9 3 = .ok reported ∧
        ((reported = true ↔
            o.getCommValue 0 = SSLEObfuscation.commit SSLEObfuscation.win o.prfValue) ↔
          if (3 : Int32).toInt ∣ (lowHalf (drawn (PRF.returning 4) 9)).toInt then
            drawn (PRF.returning 4) 9 ^^^ 9 = SSLEObfuscation.win ^^^ win
          else drawn (PRF.returning 4) 9 ^^^ 9 ≠ lose ^^^ win) :=
  ⟨by decide, reportsWin_iff (PRF.returning 4) ⟨0, 0, 0⟩ 9 3 (by decide)⟩

/-- One participant, and a PRF that returns the value `5` for the key `9`: node
`0` is elected and `main` does not report it. -/
theorem unreported_win :
    ∃ o, elect (PRF.returning 5) ⟨0, 0, 0⟩ 9 1 = .ok o ∧
      o.getCommValue 0 = SSLEObfuscation.commit SSLEObfuscation.win o.prfValue ∧
      reportsWin (PRF.returning 5) ⟨0, 0, 0⟩ 9 1 = .ok false :=
  ⟨_, elect_eq _ _ _ (by decide), by decide, by decide⟩

end Ssle.App
