import SsleExperiment.Enclave.Obfuscation
import SsleExperiment.Math.SignedRemainder

/-! # Who is elected

An election on a new object, as `ecall_election` runs it. The commitments it
stores are those of `Ssle.SSLEObfuscation.commitments` for the PRF value drawn
(`Ssle.SSLEObfuscation.elect_eq`). A PRF value with a negative low half has a
negative remainder, which no participant's index equals, so a leader exists
exactly when the low half is not negative or is a multiple of the number of
participants (`Ssle.SSLEObfuscation.singleLeader_iff`).
-/

namespace Ssle.SSLEObfuscation

/-- An election on a new object: `initialize(prfkey, n)`, `electLeader(prfkey)`. -/
def elect (prf : PRF) (memory : Memory) (prfkey : UInt64) (n : Int32) :
    Except Fault SSLEObfuscation :=
  electLeaderKeyed prf prfkey (initializeKeyed prfkey n (fresh memory))

/-- The value an election on a new object draws from the PRF. -/
def drawn (prf : PRF) (prfkey : UInt64) : UInt64 := (prf ⟨prfkey, 0, initialHash⟩).1

/-- The object an election on a new object leaves behind. -/
def elected (prf : PRF) (memory : Memory) (prfkey : UInt64) (n : Int32) : SSLEObfuscation :=
  afterElection prf (initializeKeyed prfkey n (fresh memory))

/-- An election of a positive number of participants returns. -/
theorem elect_eq (prf : PRF) (memory : Memory) (prfkey : UInt64) {n : Int32}
    (positive : 0 < n) :
    elect prf memory prfkey n = .ok (elected prf memory prfkey n) := by
  refine electLeader_of_fits prf (initializeKeyed prfkey n (fresh memory)) positive ?_
  simp [initializeKeyed]

@[simp] theorem prfValue_elected (prf : PRF) (memory : Memory) (prfkey : UInt64) (n : Int32) :
    (elected prf memory prfkey n).prfValue = drawn prf prfkey := rfl

/-- An election stores a commitment for each participant. -/
@[simp] theorem commValues_elected (prf : PRF) (memory : Memory) (prfkey : UInt64)
    (n : Int32) :
    (elected prf memory prfkey n).commValues = commitments (drawn prf prfkey) n := by
  change commitments (drawn prf prfkey) n ++
    (initializeKeyed prfkey n (fresh memory)).commValues.drop n.toNatClampNeg = _
  simp [initializeKeyed, fresh]

/-! ## Opening a commitment -/

/-- Indices are below the number of participants. -/
theorem toNatClampNeg_lt_of_lt {i n : Int32} (nonnegative : 0 ≤ i) (below : i < n) :
    i.toNatClampNeg < n.toNatClampNeg := by
  have ordered := Int32.lt_iff_toInt_lt.mp below
  rw [Int32.toInt_eq_toNatClampNeg nonnegative,
    Int32.toInt_eq_toNatClampNeg (Int32.le_of_lt (Int32.lt_of_le_of_lt nonnegative below))]
    at ordered
  exact Int.ofNat_lt.mp ordered

/-- A store that begins with the commitments of an election reads them back. -/
theorem getCommValue_of_commitments {o : SSLEObfuscation} {prfValue : UInt64} {n : Int32}
    {rest : List UInt64} (stored : o.commValues = commitments prfValue n ++ rest) {i : Int32}
    (nonnegative : 0 ≤ i) (below : i < n) :
    o.getCommValue i = commitmentAt prfValue n i.toNatClampNeg := by
  have inside := toNatClampNeg_lt_of_lt nonnegative below
  rw [getCommValue_of_lt o nonnegative (by rw [stored]; simp; omega), stored,
    List.getD_eq_getElem?_getD, List.getElem?_append_left (by simpa using inside)]
  simp [commitments, inside]

/-- The commitment of a participant is found under its index. -/
theorem getCommValue_elected (prf : PRF) (memory : Memory) (prfkey : UInt64) {n i : Int32}
    (nonnegative : 0 ≤ i) (below : i < n) :
    (elected prf memory prfkey n).getCommValue i =
      commitmentAt (drawn prf prfkey) n i.toNatClampNeg := by
  have stored : (elected prf memory prfkey n).commValues =
      commitments (drawn prf prfkey) n ++ [] := by simp
  exact getCommValue_of_commitments stored nonnegative below

/-- A commitment is opened with the PRF value. -/
theorem commit_xor (data prfValue : UInt64) : commit data prfValue ^^^ prfValue = data := by
  rw [commit, UInt64.xor_assoc, UInt64.xor_self, UInt64.xor_zero]

theorem win_ne_lose : win ≠ lose := by decide

/-- A commitment opens to win for who is elected. -/
theorem commitmentAt_xor_eq_win (prfValue : UInt64) (n : Int32) (i : Nat) :
    commitmentAt prfValue n i ^^^ prfValue = win ↔ Elects prfValue n i := by
  by_cases chosen : Elects prfValue n i
  · simp [commitmentAt, chosen, commit_xor]
  · simp [commitmentAt, chosen, commit_xor, win_ne_lose.symm]

/-- A commitment opens to lose for everyone else. -/
theorem commitmentAt_xor_eq_lose (prfValue : UInt64) (n : Int32) (i : Nat) :
    commitmentAt prfValue n i ^^^ prfValue = lose ↔ ¬ Elects prfValue n i := by
  by_cases chosen : Elects prfValue n i
  · simp [commitmentAt, chosen, commit_xor, win_ne_lose]
  · simp [commitmentAt, chosen, commit_xor]

/-! ## The single leader -/

/-- One participant's commitment opens to `win`, everyone else's to `lose`. -/
structure SingleLeader (o : SSLEObfuscation) (n : Int32) (prfValue : UInt64) : Prop where
  winner : ∃! i : Int32, (0 ≤ i ∧ i < n) ∧ o.getCommValue i ^^^ prfValue = win
  losers : ∀ j : Int32, 0 ≤ j → j < n → o.getCommValue j ^^^ prfValue ≠ win →
    o.getCommValue j ^^^ prfValue = lose

/-- A participant is elected exactly when the low half is not negative or is a
multiple of the number of participants. -/
theorem exists_elects_iff (prfValue : UInt64) {n : Int32} (positive : 0 < n) :
    (∃ i : Int32, (0 ≤ i ∧ i < n) ∧ Elects prfValue n i.toNatClampNeg) ↔
      0 ≤ (lowHalf prfValue).toInt ∨ n.toInt ∣ (lowHalf prfValue).toInt := by
  have count : n.toInt = (n.toNatClampNeg : ℤ) :=
    Int32.toInt_eq_toNatClampNeg (Int32.le_of_lt positive)
  have some : 0 < n.toNatClampNeg := (Int32.toNatClampNeg_pos_iff n).mpr positive
  rw [count, ← SignedRemainder.exists_tmod_eq_iff _ some]
  refine ⟨fun named => ?_, fun residues => ?_⟩
  · obtain ⟨i, ⟨nonnegative, below⟩, chosen⟩ := named
    exact ⟨i.toNatClampNeg, toNatClampNeg_lt_of_lt nonnegative below, count ▸ chosen⟩
  · obtain ⟨j, below, residue⟩ := residues
    have small : j < 2 ^ 31 := below.trans n.toNatClampNeg_lt
    have index := Int32.toInt_ofNat_of_lt small
    refine ⟨Int32.ofNat j, ⟨Int32.zero_le_ofNat_of_lt small, ?_⟩, ?_⟩
    · rw [Int32.lt_iff_toInt_lt, index, count]
      exact_mod_cast below
    · rw [Int32.toNatClampNeg_ofNat_of_lt small, Elects, count]
      exact residue

/-- At most one participant is elected. -/
theorem Elects.unique {prfValue : UInt64} {n i j : Int32} (first : 0 ≤ i) (second : 0 ≤ j)
    (chosen : Elects prfValue n i.toNatClampNeg) (other : Elects prfValue n j.toNatClampNeg) :
    i = j := by
  rw [← Int32.toInt_inj, Int32.toInt_eq_toNatClampNeg first,
    Int32.toInt_eq_toNatClampNeg second]
  exact chosen.symm.trans other

/-- The commitments of an election name a single leader exactly when somebody
is elected: nobody else can be the obstacle. -/
theorem singleLeader_elected_iff (prf : PRF) (memory : Memory) (prfkey : UInt64) {n : Int32}
    (positive : 0 < n) :
    (elected prf memory prfkey n).SingleLeader n (drawn prf prfkey) ↔
      0 ≤ (lowHalf (drawn prf prfkey)).toInt ∨
        n.toInt ∣ (lowHalf (drawn prf prfkey)).toInt := by
  rw [← exists_elects_iff _ positive]
  have opens {i : Int32} (nonnegative : 0 ≤ i) (below : i < n) :=
    getCommValue_elected prf memory prfkey nonnegative below
  refine ⟨fun single => ?_, fun named => ?_⟩
  · obtain ⟨⟨i, ⟨⟨nonnegative, below⟩, wins⟩, _⟩, _⟩ := single
    rw [opens nonnegative below, commitmentAt_xor_eq_win] at wins
    exact ⟨i, ⟨nonnegative, below⟩, wins⟩
  · obtain ⟨i, ⟨nonnegative, below⟩, chosen⟩ := named
    refine ⟨⟨i, ⟨⟨nonnegative, below⟩, ?_⟩, ?_⟩, ?_⟩
    · rwa [opens nonnegative below, commitmentAt_xor_eq_win]
    · intro j winner
      obtain ⟨⟨other, inside⟩, wins⟩ := winner
      rw [opens other inside, commitmentAt_xor_eq_win] at wins
      exact wins.unique other nonnegative chosen
    · intro j other inside fails
      rw [opens other inside, Ne, commitmentAt_xor_eq_win] at fails
      rwa [opens other inside, commitmentAt_xor_eq_lose]

/-- **A single leader.** An election on a new object returns for every positive
number of participants, and names exactly one leader if and only if the signed
low half of the PRF value is not negative or is a multiple of that number. -/
theorem singleLeader_iff (prf : PRF) (memory : Memory) (prfkey : UInt64) (n : Int32)
    (positive : 0 < n) :
    ∃ o, elect prf memory prfkey n = .ok o ∧
      (o.SingleLeader n (drawn prf prfkey) ↔
        0 ≤ (lowHalf (drawn prf prfkey)).toInt ∨
          n.toInt ∣ (lowHalf (drawn prf prfkey)).toInt) :=
  ⟨_, elect_eq prf memory prfkey positive, singleLeader_elected_iff prf memory prfkey positive⟩

theorem singleLeader_iff_of_three :
    (0 : Int32) < 3 ∧
      ∃ o, elect (PRF.returning 7) ⟨0, 0, 0⟩ 5 3 = .ok o ∧
        (o.SingleLeader 3 (drawn (PRF.returning 7) 5) ↔
          0 ≤ (lowHalf (drawn (PRF.returning 7) 5)).toInt ∨
            (3 : Int32).toInt ∣ (lowHalf (drawn (PRF.returning 7) 5)).toInt) :=
  ⟨by decide, singleLeader_iff (PRF.returning 7) ⟨0, 0, 0⟩ 5 3 (by decide)⟩

/-- Two participants and the PRF value `0xFFFFFFFF`, whose signed low half is
`-1`: nobody's commitment opens to `win`. -/
theorem leaderless_election :
    ∃ o, elect (PRF.returning 0xFFFFFFFF) ⟨0, 0, 0⟩ 5 2 = .ok o ∧
      ¬ o.SingleLeader 2 (drawn (PRF.returning 0xFFFFFFFF) 5) := by
  refine ⟨_, elect_eq _ _ _ (by decide), ?_⟩
  rw [singleLeader_elected_iff _ _ _ (by decide)]
  decide

end Ssle.SSLEObfuscation
