import SsleExperiment.Enclave.Election
import SsleExperiment.Math.Runs

/-! # Runs of calls on one object

An `SSLE_Obfuscation` may be initialised and asked for a leader any number of
times. What is known about its store along a run is a ledger: how many entries
the calls of `initialize` have appended, and the number of participants now in
force (`Ssle.SSLEObfuscation.ledger`). The store only grows, so after an
election it describes that election alone exactly when the earlier calls of
`initialize` appended nothing (`Ssle.SSLEObfuscation.describes_iff`).
-/

namespace Ssle.SSLEObfuscation

/-- The calls that change an object. -/
inductive Call where
  | initializeKeyed (prfkey : UInt64) (participants : Int32)
  | initializeParticipants (participants : Int32)
  | getKey
  | electLeaderKeyed (sec : UInt64)
  | electLeader
  deriving DecidableEq

/-- The number of participants a call of `initialize` sets. -/
def Call.participants? : Call → Option Int32
  | .initializeKeyed _ participants => some participants
  | .initializeParticipants participants => some participants
  | _ => none

/-- The calls of `electLeader`. -/
def Call.Elects : Call → Prop
  | .electLeaderKeyed _ => True
  | .electLeader => True
  | _ => False

/-- One call. The key that `get_key` returns is dropped. -/
def perform (prf : PRF) (o : SSLEObfuscation) : Call → Except Fault SSLEObfuscation
  | .initializeKeyed prfkey participants => .ok (o.initializeKeyed prfkey participants)
  | .initializeParticipants participants => .ok (o.initializeParticipants participants)
  | .getKey => .ok (getKey prf o).2
  | .electLeaderKeyed sec => electLeaderKeyed prf sec o
  | .electLeader => electLeader prf o

/-- What a run leaves known about the store: the number of entries appended,
and the number of participants in force. -/
structure Ledger where
  total : Nat
  current : Option Int32

/-- The account of a run. A call of `initialize` takes no negative count, and
an election needs a positive number of participants in force. -/
def ledger : Runs.Account Ledger Call where
  permits known
    | .initializeKeyed _ participants => 0 ≤ participants
    | .initializeParticipants participants => 0 ≤ participants
    | .getKey => True
    | .electLeaderKeyed _ => ∃ n, known.current = some n ∧ 0 < n
    | .electLeader => ∃ n, known.current = some n ∧ 0 < n
  next known call :=
    match call.participants? with
    | some participants => ⟨known.total + participants.toNatClampNeg, some participants⟩
    | none => known

/-- No index of this size is ever written: a participant index is an `int`
below another. -/
def untouchedFrom : Nat := 2 ^ 31 - 1

/-- The store agrees with the ledger. -/
structure StoreHolds (known : Ledger) (o : SSLEObfuscation) : Prop where
  size : o.commValues.length = known.total
  inForce : ∀ n, known.current = some n → o.num = n ∧ n.toNatClampNeg ≤ known.total
  untouched : ∀ k, untouchedFrom ≤ k → k < o.commValues.length → o.commValues[k]? = some 0

theorem storeHolds_fresh (memory : Memory) : StoreHolds ⟨0, none⟩ (fresh memory) where
  size := rfl
  inForce _ impossible := nomatch impossible
  untouched _ _ inside := (Nat.not_lt_zero _ inside).elim

/-- Participants are added to those stored before. -/
theorem StoreHolds.initializeParticipants {known : Ledger} {o : SSLEObfuscation}
    (holds : StoreHolds known o) (n : Int32) :
    StoreHolds ⟨known.total + n.toNatClampNeg, some n⟩ (o.initializeParticipants n) where
  size := by simp [holds.size]
  inForce m same := by
    cases same
    exact ⟨rfl, Nat.le_add_left _ _⟩
  untouched k above inside := by
    rw [commValues_initializeParticipants] at inside ⊢
    by_cases old : k < o.commValues.length
    · rw [List.getElem?_append_left old]
      exact holds.untouched k above old
    · rw [List.getElem?_append_right (by omega), List.getElem?_replicate_of_lt]
      rw [List.length_append, List.length_replicate] at inside
      omega

/-- An election adds no entries. -/
theorem length_afterElection (prf : PRF) {o : SSLEObfuscation}
    (fits : o.num.toNatClampNeg ≤ o.commValues.length) :
    (afterElection prf o).commValues.length = o.commValues.length := by
  change (commitments _ o.num ++ o.commValues.drop o.num.toNatClampNeg).length = _
  rw [List.length_append, length_commitments, List.length_drop]
  omega

/-- An election keeps what the ledger knows. -/
theorem StoreHolds.afterElection {known : Ledger} {o : SSLEObfuscation}
    (holds : StoreHolds known o) (prf : PRF)
    (fits : o.num.toNatClampNeg ≤ o.commValues.length) :
    StoreHolds known (afterElection prf o) where
  size := (length_afterElection prf fits).trans holds.size
  inForce := holds.inForce
  untouched k above inside := by
    rw [length_afterElection prf fits] at inside
    have small := o.num.toNatClampNeg_lt
    have beyond : o.num.toNatClampNeg ≤ k := by
      unfold untouchedFrom at above
      omega
    change (commitments _ o.num ++ o.commValues.drop o.num.toNatClampNeg)[k]? = some 0
    rw [List.getElem?_append_right (by rwa [length_commitments]), length_commitments,
      List.getElem?_drop, Nat.add_sub_cancel' beyond]
    exact holds.untouched k above inside

/-- An election among a positive number returns. -/
theorem StoreHolds.electLeader {known : Ledger} {o : SSLEObfuscation}
    (holds : StoreHolds known o) (prf : PRF)
    (permitted : ∃ n, known.current = some n ∧ 0 < n) :
    ∃ next, electLeader prf o = .ok next ∧ StoreHolds known next := by
  obtain ⟨n, inForce, positive⟩ := permitted
  obtain ⟨rfl, room⟩ := holds.inForce n inForce
  have fits : o.num.toNatClampNeg ≤ o.commValues.length := room.trans_eq holds.size.symm
  exact ⟨_, electLeader_of_fits prf o positive fits, holds.afterElection prf fits⟩

/-- Every permitted call returns and keeps the ledger true of the store. -/
theorem storeHolds_perform (prf : PRF) (known : Ledger) (o : SSLEObfuscation) (call : Call)
    (holds : StoreHolds known o) (permitted : ledger.permits known call) :
    ∃ next, perform prf o call = .ok next ∧ StoreHolds (ledger.next known call) next := by
  cases call with
  | initializeKeyed prfkey n =>
      have rekeyed : StoreHolds known { o with secret := prfkey } :=
        ⟨holds.size, holds.inForce, holds.untouched⟩
      exact ⟨_, rfl, rekeyed.initializeParticipants n⟩
  | initializeParticipants n => exact ⟨_, rfl, holds.initializeParticipants n⟩
  | getKey => exact ⟨_, rfl, ⟨holds.size, holds.inForce, holds.untouched⟩⟩
  | electLeaderKeyed sec =>
      have rekeyed : StoreHolds known { o with secret := sec } :=
        ⟨holds.size, holds.inForce, holds.untouched⟩
      exact rekeyed.electLeader prf permitted
  | electLeader => exact holds.electLeader prf permitted

/-- Nothing is stored if nobody ever took part. -/
theorem total_after_eq_zero_iff (known : Ledger) (calls : List Call) :
    (ledger.after known calls).total = 0 ↔
      known.total = 0 ∧ ∀ call ∈ calls, ∀ m, call.participants? = some m → m ≤ 0 := by
  induction calls generalizing known with
  | nil => simp [Runs.Account.after]
  | cons call calls ih =>
      change (ledger.after (ledger.next known call) calls).total = 0 ↔ _
      rw [ih, List.forall_mem_cons, ← and_assoc]
      refine and_congr_left fun _ => ?_
      simp only [ledger]
      cases call.participants? with
      | none => simp
      | some m => simp

/-! ## The store after the last election -/

/-- The store describes an election among `n` participants: a commitment under
the current PRF value for each of them, and no entry for any other index. -/
structure Describes (o : SSLEObfuscation) (n : Int32) : Prop where
  inside : ∀ i : Int32, 0 ≤ i → i < n →
    o.getCommValue i = win ^^^ o.prfValue ∨ o.getCommValue i = lose ^^^ o.prfValue
  outside : ∀ i : Int32, ¬ (0 ≤ i ∧ i < n) → o.getCommValue i = -1

/-- An election replaces the seed at most. -/
theorem Call.Elects.perform_eq {call : Call} (electing : call.Elects) (prf : PRF)
    (o : SSLEObfuscation) :
    ∃ sec, perform prf o call = SSLEObfuscation.electLeader prf { o with secret := sec } := by
  cases call with
  | electLeaderKeyed sec => exact ⟨sec, rfl⟩
  | electLeader => exact ⟨o.secret, rfl⟩
  | initializeKeyed _ _ => exact electing.elim
  | initializeParticipants _ => exact electing.elim
  | getKey => exact electing.elim

/-- Elections one after the other leave the commitments of the last of them,
followed by what the store held beyond the participants. -/
theorem run_elections (prf : PRF) {o : SSLEObfuscation} (positive : 0 < o.num)
    (fits : o.num.toNatClampNeg ≤ o.commValues.length) {elections : List Call}
    (electing : ∀ call ∈ elections, call.Elects) (nonempty : elections ≠ []) :
    ∃ final, Runs.run (perform prf) o elections = .ok final ∧
      final.commValues = commitments final.prfValue o.num ++
        o.commValues.drop o.num.toNatClampNeg := by
  induction elections generalizing o with
  | nil => exact (nonempty rfl).elim
  | cons call rest ih =>
      obtain ⟨sec, performed⟩ := (electing call List.mem_cons_self).perform_eq prf o
      have returned := electLeader_of_fits prf { o with secret := sec } positive fits
      have stepped := performed.trans returned
      by_cases last : rest = []
      · subst last
        exact ⟨_, Runs.run_cons_eq_ok_iff.mpr ⟨_, stepped, rfl⟩, rfl⟩
      · have size := length_afterElection prf (o := { o with secret := sec }) fits
        obtain ⟨final, ended, stored⟩ := ih (o := afterElection prf { o with secret := sec })
          positive (fits.trans_eq size.symm) (fun call member =>
            electing call (List.mem_cons_of_mem _ member)) last
        refine ⟨final, Runs.run_cons_eq_ok_iff.mpr ⟨_, stepped, ended⟩, stored.trans ?_⟩
        congr 1
        change (commitments _ o.num ++ o.commValues.drop o.num.toNatClampNeg).drop
          o.num.toNatClampNeg = _
        rw [List.drop_append_of_le_length (by rw [length_commitments]),
          List.drop_of_length_le (by rw [length_commitments]), List.nil_append]

/-- An object describes the election whose commitments it stores. -/
theorem describes_of_commitments {o : SSLEObfuscation} {n : Int32}
    (stored : o.commValues = commitments o.prfValue n) : o.Describes n where
  inside i nonnegative below := by
    have whole : o.commValues = commitments o.prfValue n ++ [] := by
      rw [stored, List.append_nil]
    rw [getCommValue_of_commitments whole nonnegative below, commitmentAt]
    by_cases chosen : Elects o.prfValue n i.toNatClampNeg
    · exact .inl (if_pos chosen)
    · exact .inr (if_neg chosen)
  outside i elsewhere := by
    apply getCommValue_of_outside
    rw [stored, length_commitments]
    by_cases negative : i < 0
    · exact .inl negative
    · have nonnegative := Int32.not_lt.mp negative
      have above := Int32.not_lt.mp fun below => elsewhere ⟨nonnegative, below⟩
      exact .inr (Int32.toNatClampNeg_le above)

/-- An entry left at zero past the participants describes nothing. -/
theorem not_describes_of_zero {o : SSLEObfuscation} {n : Int32} {k : Nat} (small : k < 2 ^ 31)
    (beyond : n.toNatClampNeg ≤ k) (zero : o.commValues[k]? = some 0) : ¬ o.Describes n := by
  intro described
  have index := Int32.toNatClampNeg_ofNat_of_lt small
  have nonnegative := Int32.zero_le_ofNat_of_lt small
  have inside : k < o.commValues.length := (List.getElem?_eq_some_iff.mp zero).1
  have outside := described.outside (Int32.ofNat k) fun range => by
    have below := toNatClampNeg_lt_of_lt range.1 range.2
    omega
  rw [getCommValue_of_lt o nonnegative (by rwa [index]), index, List.getD_eq_getElem?_getD,
    zero] at outside
  exact absurd outside (by decide)

/-- After elections that follow a call of `initialize`, the store describes
them exactly when it was empty before that call. -/
theorem describes_iff_of_stored {known : Ledger} {o final : SSLEObfuscation}
    (holds : StoreHolds known o) {n : Int32}
    (stored : final.commValues = commitments final.prfValue n ++
      (o.commValues ++ List.replicate n.toNatClampNeg 0).drop n.toNatClampNeg)
    (positive : 0 < n) : final.Describes n ↔ known.total = 0 := by
  have some : 0 < n.toNatClampNeg := (Int32.toNatClampNeg_pos_iff n).mpr positive
  have bound := n.toNatClampNeg_lt
  refine ⟨fun described => ?_, fun empty => ?_⟩
  · by_contra earlier
    have size := holds.size
    have beyond : n.toNatClampNeg ≤ min (max known.total n.toNatClampNeg) untouchedFrom := by
      unfold untouchedFrom
      omega
    -- an entry appended by the last call, or, when that entry has no index, the
    -- largest index, which no election writes
    refine not_describes_of_zero (n := n)
      (k := min (max known.total n.toNatClampNeg) untouchedFrom)
      (by unfold untouchedFrom; omega) beyond ?_ described
    rw [stored, List.getElem?_append_right (by rwa [length_commitments]), length_commitments,
      List.getElem?_drop, Nat.add_sub_cancel' beyond]
    by_cases old : min (max known.total n.toNatClampNeg) untouchedFrom < o.commValues.length
    · rw [List.getElem?_append_left old]
      exact holds.untouched _ (by omega) old
    · rw [List.getElem?_append_right (by omega), List.getElem?_replicate_of_lt (by omega)]
  · refine describes_of_commitments (stored.trans ?_)
    rw [List.eq_nil_of_length_eq_zero (holds.size.trans empty), List.nil_append,
      List.drop_of_length_le (by rw [List.length_replicate]), List.append_nil]

/-- The calls that set the number of participants. -/
theorem Call.participants?_eq_some {call : Call} {n : Int32} (sets : call.participants? = some n) :
    call = .initializeParticipants n ∨ ∃ prfkey, call = .initializeKeyed prfkey n := by
  cases call with
  | initializeKeyed prfkey m =>
      cases sets
      exact .inr ⟨prfkey, rfl⟩
  | initializeParticipants m =>
      cases sets
      exact .inl rfl
  | getKey => cases sets
  | electLeaderKeyed sec => cases sets
  | electLeader => cases sets

/-- Both calls of `initialize` append, one of them after replacing the seed. -/
theorem perform_initialize {call : Call} {n : Int32} (sets : call.participants? = some n)
    (prf : PRF) (o : SSLEObfuscation) :
    ∃ sec, perform prf o call =
      .ok (SSLEObfuscation.initializeParticipants n { o with secret := sec }) := by
  rcases Call.participants?_eq_some sets with rfl | ⟨prfkey, rfl⟩
  · exact ⟨o.secret, rfl⟩
  · exact ⟨prfkey, rfl⟩

/-- Only numbers that are not negative are permitted. -/
theorem nonnegative_of_permits {known : Ledger} {calls : List Call}
    (permitted : ledger.Permits known calls) {call : Call} (member : call ∈ calls) {m : Int32}
    (sets : call.participants? = some m) : 0 ≤ m := by
  induction calls generalizing known with
  | nil => cases member
  | cons first calls ih =>
      obtain ⟨now, later⟩ := permitted
      rcases List.mem_cons.mp member with rfl | rest
      · rcases Call.participants?_eq_some sets with rfl | ⟨prfkey, rfl⟩
        · exact now
        · exact now
      · exact ih later rest

/-- **The store after the last election.** A permitted run, a call of
`initialize` for `n` participants and one or more calls of `electLeader` all
return. The store then describes the last election exactly when every earlier
call of `initialize` set the count `0`. -/
theorem describes_iff (prf : PRF) (memory : Memory) (before : List Call)
    (permitted : ledger.Permits ⟨0, none⟩ before) (last : Call) (n : Int32)
    (sets : last.participants? = some n) (positive : 0 < n) (elections : List Call)
    (electing : ∀ call ∈ elections, call.Elects) (nonempty : elections ≠ []) :
    ∃ o, Runs.run (perform prf) (fresh memory) (before ++ last :: elections) = .ok o ∧
      (o.Describes n ↔ ∀ call ∈ before, ∀ m, call.participants? = some m → m = 0) := by
  obtain ⟨middle, ran, holds⟩ :=
    ledger.run StoreHolds (storeHolds_perform prf) (storeHolds_fresh memory) permitted
  obtain ⟨sec, appended⟩ := perform_initialize sets prf middle
  have positive' : 0 < (SSLEObfuscation.initializeParticipants n
      { middle with secret := sec }).num := positive
  obtain ⟨final, elected, stored⟩ := run_elections prf positive' (by simp) electing nonempty
  refine ⟨final, ?_, ?_⟩
  · rw [Runs.run_append_eq_ok_iff]
    exact ⟨middle, ran, Runs.run_cons_eq_ok_iff.mpr ⟨_, appended, elected⟩⟩
  · rw [commValues_initializeParticipants, num_initializeParticipants] at stored
    rw [describes_iff_of_stored holds stored positive, total_after_eq_zero_iff]
    refine ⟨fun empty call member m set => ?_, fun zeros => ⟨rfl, fun call member m set => ?_⟩⟩
    · exact Int32.le_antisymm (empty.2 call member m set)
        (nonnegative_of_permits permitted member set)
    · exact Int32.le_of_eq (zeros call member m set)

theorem describes_iff_of_one :
    ∃ o, Runs.run (perform (PRF.returning 5)) (fresh ⟨0, 0, 0⟩)
        ([.initializeParticipants 0] ++
          .initializeKeyed 9 1 :: [.electLeader, .electLeaderKeyed 7]) = .ok o ∧
      (o.Describes 1 ↔
        ∀ call ∈ [Call.initializeParticipants 0], ∀ m, call.participants? = some m → m = 0) :=
  describes_iff (PRF.returning 5) ⟨0, 0, 0⟩ [.initializeParticipants 0]
    ⟨Int32.le_refl 0, trivial⟩ (.initializeKeyed 9 1) 1 rfl (by decide)
    [.electLeader, .electLeaderKeyed 7]
    (List.forall_mem_cons.mpr ⟨trivial, List.forall_mem_singleton.mpr trivial⟩)
    (List.cons_ne_nil _ _)

/-- Initialised twice for one participant, the store keeps an entry for a
second one. -/
theorem leftover_entry :
    ∃ o, Runs.run (perform (PRF.returning 5)) (fresh ⟨0, 0, 0⟩)
        [.initializeParticipants 1, .initializeParticipants 1, .electLeader] = .ok o ∧
      o.getCommValue 1 = 0 ∧ ¬ o.Describes 1 := by
  refine ⟨_, rfl, by decide, fun described => ?_⟩
  exact absurd (described.outside 1 (by decide)) (by decide)

end Ssle.SSLEObfuscation
