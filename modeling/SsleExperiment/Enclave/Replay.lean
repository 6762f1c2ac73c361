import SsleExperiment.Enclave.History

/-! # Replaying an election

`electLeader(sec)` replaces the seed of the PRF but neither of the other two
words, `lcg` and `hash`, which every PRF call overwrites. An election on a used
object and the same election on a new one store the same commitments exactly
when the PRF returns the same value (`Ssle.SSLEObfuscation.sameElection_iff`),
so a history can be replayed over every PRF exactly when it never calls the PRF.
Over one PRF, it can be replayed exactly when the words that it leaves and the
initial ones give the same value (`Ssle.SSLEObfuscation.replayable_iff`).
-/

namespace Ssle.SSLEObfuscation

/-- The calls of `initialize`, which do not call the PRF. -/
def Call.Initializes (call : Call) : Prop := ∃ n, call.participants? = some n

/-- `initialize(n)` and then `electLeader(sec)`. -/
def reelect (prf : PRF) (sec : UInt64) (n : Int32) (o : SSLEObfuscation) :
    Except Fault SSLEObfuscation :=
  electLeaderKeyed prf sec (initializeParticipants n o)

/-- Two elections named the same leader and stored the same commitments. -/
structure SameElection (n : Int32) (o other : SSLEObfuscation) : Prop where
  leaderId : o.leaderId = other.leaderId
  commitment : ∀ i : Int32, 0 ≤ i → i < n → o.getCommValue i = other.getCommValue i

/-- The object after `initialize(n)` and then `electLeader(sec)`. -/
def reelected (prf : PRF) (sec : UInt64) (n : Int32) (o : SSLEObfuscation) : SSLEObfuscation :=
  afterElection prf { initializeParticipants n o with secret := sec }

/-- The value a new election draws from the PRF. -/
def redrawn (prf : PRF) (sec : UInt64) (o : SSLEObfuscation) : UInt64 :=
  (prf ⟨sec, o.lcg, o.hash⟩).1

/-- A new election of a positive number of participants returns. -/
theorem reelect_eq (prf : PRF) (sec : UInt64) {n : Int32} (positive : 0 < n)
    (o : SSLEObfuscation) : reelect prf sec n o = .ok (reelected prf sec n o) := by
  apply electLeader_of_fits prf { initializeParticipants n o with secret := sec } positive
  change n.toNatClampNeg ≤ (initializeParticipants n o).commValues.length
  rw [commValues_initializeParticipants, List.length_append, List.length_replicate]
  exact Nat.le_add_left _ _

/-- A new election stores its own commitments. -/
theorem getCommValue_reelected (prf : PRF) (sec : UInt64) {n i : Int32} (o : SSLEObfuscation)
    (nonnegative : 0 ≤ i) (below : i < n) :
    (reelected prf sec n o).getCommValue i =
      commitmentAt (redrawn prf sec o) n i.toNatClampNeg :=
  getCommValue_of_commitments rfl nonnegative below

/-- **Same election.** Two objects hold the same election exactly when the PRF
returned the same value to both. -/
theorem sameElection_iff (prf : PRF) (sec : UInt64) {n : Int32} (positive : 0 < n)
    (o other : SSLEObfuscation) :
    SameElection n (reelected prf sec n o) (reelected prf sec n other) ↔
      redrawn prf sec o = redrawn prf sec other := by
  refine ⟨fun same => ?_, fun drawnSame => ⟨?_, fun i nonnegative below => ?_⟩⟩
  · have ids : (lowHalf (redrawn prf sec o) % n).toUInt32 =
        (lowHalf (redrawn prf sec other) % n).toUInt32 := same.leaderId
    have chosen : Elects (redrawn prf sec o) n 0 ↔ Elects (redrawn prf sec other) n 0 := by
      rw [← leader_comparison _ n (by decide), ← leader_comparison _ n (by decide), ids]
    have first := same.commitment 0 (Int32.le_refl 0) positive
    rw [getCommValue_reelected prf sec o (Int32.le_refl 0) positive,
      getCommValue_reelected prf sec other (Int32.le_refl 0) positive] at first
    change commitmentAt _ n 0 = commitmentAt _ n 0 at first
    simp only [commitmentAt, chosen] at first
    by_cases elected : Elects (redrawn prf sec other) n 0
    · rw [if_pos elected, if_pos elected] at first
      exact UInt64.xor_right_inj win |>.mp first
    · rw [if_neg elected, if_neg elected] at first
      exact UInt64.xor_right_inj lose |>.mp first
  · change (lowHalf (redrawn prf sec o) % n).toUInt32 =
      (lowHalf (redrawn prf sec other) % n).toUInt32
    rw [drawnSame]
  · rw [getCommValue_reelected prf sec o nonnegative below,
      getCommValue_reelected prf sec other nonnegative below, drawnSame]

/-! ## The words of the PRF along a history -/

/-- A call of `initialize` leaves the words of the PRF alone. -/
theorem Call.Initializes.words_eq {call : Call} (initializes : call.Initializes) {prf : PRF}
    {o next : SSLEObfuscation} (performed : perform prf o call = .ok next) :
    next.lcg = o.lcg ∧ next.hash = o.hash := by
  obtain ⟨n, sets⟩ := initializes
  obtain ⟨sec, appended⟩ := perform_initialize sets prf o
  cases performed.symm.trans appended
  exact ⟨rfl, rfl⟩

/-- Every other call calls the PRF once, and stores the words it leaves. -/
theorem words_eq_of_not_initializes {call : Call} (other : ¬ call.Initializes) {prf : PRF}
    {o next : SSLEObfuscation} (performed : perform prf o call = .ok next) :
    ∃ state, next.prfState = (prf state).2 := by
  cases call with
  | initializeKeyed prfkey n => exact (other ⟨n, rfl⟩).elim
  | initializeParticipants n => exact (other ⟨n, rfl⟩).elim
  | getKey =>
      cases performed
      exact ⟨o.prfState, rfl⟩
  | electLeaderKeyed sec =>
      obtain ⟨_, rfl⟩ := (electLeader_eq_ok_iff prf _ next).mp performed
      exact ⟨_, rfl⟩
  | electLeader =>
      obtain ⟨_, rfl⟩ := (electLeader_eq_ok_iff prf _ next).mp performed
      exact ⟨_, rfl⟩

/-- Calls of `initialize` alone leave the words as they were initially. -/
theorem words_of_initializes {prf : PRF} {memory : Memory} {calls : List Call}
    {o : SSLEObfuscation} (only : ∀ call ∈ calls, call.Initializes)
    (performed : Runs.run (perform prf) (fresh memory) calls = .ok o) :
    o.lcg = 0 ∧ o.hash = initialHash := by
  apply Runs.run_preserves (fun o => o.lcg = 0 ∧ o.hash = initialHash) _ ⟨rfl, rfl⟩ performed
  intro call member state next words stepped
  obtain ⟨sameLcg, sameHash⟩ := (only call member).words_eq stepped
  exact ⟨sameLcg.trans words.1, sameHash.trans words.2⟩

/-! ## A PRF that remembers being called -/

/-- A PRF that clears `hash` and returns whether it was clear before. -/
def clearing : PRF := fun state => (if state.hash = 0 then 1 else 0, { state with hash := 0 })

/-- Under `clearing`, `hash` stays clear once the PRF has been called. -/
theorem hash_eq_zero_of_clearing {calls : List Call} {o final : SSLEObfuscation}
    (called : o.hash = 0 ∨ ∃ call ∈ calls, ¬ call.Initializes)
    (performed : Runs.run (perform clearing) o calls = .ok final) : final.hash = 0 := by
  induction calls generalizing o with
  | nil =>
      cases performed
      rcases called with clear | ⟨_, impossible, _⟩
      · exact clear
      · cases impossible
  | cons call calls ih =>
      obtain ⟨middle, stepped, rest⟩ := Runs.run_cons_eq_ok_iff.mp performed
      apply ih _ rest
      by_cases initializes : call.Initializes
      · rcases called with clear | ⟨other, member, called⟩
        · exact .inl ((initializes.words_eq stepped).2.trans clear)
        · rcases List.mem_cons.mp member with rfl | later
          · exact (called initializes).elim
          · exact .inr ⟨other, later, called⟩
      · obtain ⟨state, words⟩ := words_eq_of_not_initializes initializes stepped
        exact .inl (congrArg PRFState.hash words)

/-- What decides whether an election returns, apart from the PRF value. -/
def SameShape (o other : SSLEObfuscation) : Prop :=
  o.num = other.num ∧ o.commValues.length = other.commValues.length

/-- Over the clearing PRF, an election returns as well. -/
theorem SameShape.electLeader_clearing {prf : PRF} {o other next : SSLEObfuscation}
    (same : SameShape o other) (returned : electLeader prf o = .ok next) :
    ∃ next', electLeader clearing other = .ok next' ∧ SameShape next next' := by
  obtain ⟨defined, rfl⟩ := (electLeader_eq_ok_iff prf o next).mp returned
  obtain ⟨sameNum, sameSize⟩ := same
  have fits : other.num.toNatClampNeg ≤ other.commValues.length := by
    rw [← sameNum, ← sameSize]
    exact defined.fits
  refine ⟨afterElection clearing other, (electLeader_eq_ok_iff _ _ _).mpr
    ⟨⟨sameNum ▸ defined.nonzero, fun overflow => ?_, fits⟩, rfl⟩, sameNum, ?_⟩
  · have small := overflow.1
    simp only [clearing] at small
    split at small
    · exact absurd small (by decide)
    · exact absurd small (by decide)
  · rw [length_afterElection prf defined.fits, length_afterElection clearing fits, sameSize]

/-- A history that returns under some PRF returns under `clearing`. -/
theorem SameShape.perform_clearing {prf : PRF} (o other : SSLEObfuscation) (call : Call)
    (next : SSLEObfuscation) (same : SameShape o other)
    (performed : perform prf o call = .ok next) :
    ∃ next', perform clearing other call = .ok next' ∧ SameShape next next' := by
  cases call with
  | initializeKeyed prfkey n =>
      cases performed
      exact ⟨_, rfl, rfl, by simp [initializeKeyed, same.2]⟩
  | initializeParticipants n =>
      cases performed
      exact ⟨_, rfl, rfl, by simp [same.2]⟩
  | getKey =>
      cases performed
      exact ⟨_, rfl, same⟩
  | electLeaderKeyed sec =>
      have rekeyed : SameShape { o with secret := sec } { other with secret := sec } := same
      exact rekeyed.electLeader_clearing performed
  | electLeader => exact same.electLeader_clearing performed

/-! ## Histories that can be replayed -/

/-- After these calls, over every PRF, an election is the one a new object
would hold. -/
def Replayable (calls : List Call) : Prop :=
  ∀ (prf : PRF) (memory other : Memory) (sec : UInt64) (n : Int32) (o : SSLEObfuscation), 0 < n →
    Runs.run (perform prf) (fresh memory) calls = .ok o →
    ∃ replayed first, reelect prf sec n o = .ok replayed ∧
      reelect prf sec n (fresh other) = .ok first ∧ SameElection n replayed first

/-- These calls, over every PRF, leave `hash` at its initial value. -/
def KeepsHash (calls : List Call) : Prop :=
  ∀ (prf : PRF) (memory : Memory) (o : SSLEObfuscation),
    Runs.run (perform prf) (fresh memory) calls = .ok o → o.hash = initialHash

/-- Over one PRF, two elections are the same exactly when the words left of the calls
give the value that the initial ones give. -/
def ReplayedByValue (calls : List Call) : Prop :=
  ∀ (prf : PRF) (memory other : Memory) (sec : UInt64) (n : Int32) (o : SSLEObfuscation), 0 < n →
    Runs.run (perform prf) (fresh memory) calls = .ok o →
    ∃ replayed first, reelect prf sec n o = .ok replayed ∧
      reelect prf sec n (fresh other) = .ok first ∧
      (SameElection n replayed first ↔
        (prf ⟨sec, o.lcg, o.hash⟩).1 = (prf ⟨sec, 0, initialHash⟩).1)

/-- Over one PRF, the value drawn decides. -/
theorem replayedByValue (calls : List Call) : ReplayedByValue calls := by
  intro prf memory other sec n o positive _
  exact ⟨_, _, reelect_eq prf sec positive o, reelect_eq prf sec positive (fresh other),
    sameElection_iff prf sec positive o (fresh other)⟩

/-- **Replay.** A history that can be performed at all can be replayed exactly
when it only calls `initialize`, and keeps `hash` constant exactly then. Over each
PRF, its words decide whether an election is replayed. -/
theorem replayable_iff (calls : List Call)
    (possible : ∃ prf memory o, Runs.run (perform prf) (fresh memory) calls = .ok o) :
    (Replayable calls ↔ ∀ call ∈ calls, call.Initializes) ∧
      (KeepsHash calls ↔ ∀ call ∈ calls, call.Initializes) ∧ ReplayedByValue calls := by
  obtain ⟨prf₀, memory, o₀, performed₀⟩ := possible
  have started : SameShape (fresh memory) (fresh memory) := ⟨rfl, rfl⟩
  obtain ⟨o, performed, _⟩ :=
    Runs.run_simulates SameShape SameShape.perform_clearing started performed₀
  have clear (call : Call) (member : call ∈ calls) (called : ¬ call.Initializes) : o.hash = 0 :=
    hash_eq_zero_of_clearing (.inr ⟨call, member, called⟩) performed
  refine ⟨⟨fun replayable call member => ?_, fun only => ?_⟩,
    ⟨fun keeps call member => ?_, fun only prf memory o performed => ?_⟩, replayedByValue calls⟩
  · by_contra called
    obtain ⟨replayed, first, again, once, same⟩ :=
      replayable clearing memory memory 0 1 o (by decide) performed
    cases (reelect_eq clearing 0 (by decide) o).symm.trans again
    cases (reelect_eq clearing 0 (by decide) (fresh memory)).symm.trans once
    have values := (sameElection_iff clearing 0 (by decide) o (fresh memory)).mp same
    simp [redrawn, clearing, clear call member called, fresh, initialHash] at values
  · intro prf memory other sec n o positive performed
    refine ⟨_, _, reelect_eq prf sec positive o, reelect_eq prf sec positive (fresh other), ?_⟩
    rw [sameElection_iff prf sec positive]
    obtain ⟨sameLcg, sameHash⟩ := words_of_initializes only performed
    rw [redrawn, redrawn, sameLcg, sameHash]
    rfl
  · by_contra called
    have kept := keeps clearing memory o performed
    rw [clear call member called] at kept
    exact absurd kept (by decide)
  · exact (words_of_initializes only performed).2

theorem replayable_iff_of_three :
    (Replayable [.initializeParticipants 2, .getKey, .electLeader] ↔
      ∀ call ∈ [Call.initializeParticipants 2, .getKey, .electLeader], call.Initializes) ∧
      (KeepsHash [.initializeParticipants 2, .getKey, .electLeader] ↔
        ∀ call ∈ [Call.initializeParticipants 2, .getKey, .electLeader], call.Initializes) ∧
      ReplayedByValue [.initializeParticipants 2, .getKey, .electLeader] :=
  replayable_iff [.initializeParticipants 2, .getKey, .electLeader]
    ⟨PRF.returning 5, ⟨0, 0, 0⟩, _, rfl⟩

/-- After one call of `get_key`, the same election names another leader. -/
theorem unreplayable_election : ¬ Replayable [.getKey] ∧ ¬ KeepsHash [.getKey] := by
  refine ⟨fun replayable => ?_, fun keeps => ?_⟩
  · obtain ⟨replayed, first, again, once, same⟩ :=
      replayable clearing ⟨0, 0, 0⟩ ⟨0, 0, 0⟩ 0 2 _ (by decide) rfl
    cases again
    cases once
    exact absurd same.leaderId (by decide)
  · exact absurd (keeps clearing ⟨0, 0, 0⟩ _ rfl) (by decide)

end Ssle.SSLEObfuscation
