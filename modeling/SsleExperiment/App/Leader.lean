import SsleExperiment.App.Bridge
import SsleExperiment.App.Delivery
import SsleExperiment.App.Launch
import SsleExperiment.App.Opening

/-! # The leader branch of main

Before its session, the leader launches the enclave, has it write a key into fresh
memory, create a key pair and run an election under the key. The bridge may refuse
each of the three calls: `main` gives up when the launch or the election is refused,
and goes on when one of the others is. What the leader opens its session with follows
from its key alone, which is the one that every enclave issues, or what the memory
held before if the call for it was refused (`Ssle.App.leader_outcomes`). All leaders
with an issued key therefore send the same key, and over clean buffers their
participants learn it in the sessions that deadlock (`Ssle.App.one_key`).

The memory for the key is eight bytes long, and the bridge copies 256 into it. So a
leader with an issued key has set the 248 bytes behind the key to zero, whatever they
belong to (`Ssle.App.overrun`). What the host makes of a heap that is damaged so is
not modelled.
-/

namespace Ssle.App

open Bridge Calls KeyPair Processes SSLEObfuscation

/-- What the leader branch meets: its launch, and what each call meets in the enclave if
the bridge lets it in. -/
structure Surroundings where
  conditions : Conditions
  token : File
  onGetKey : Option Setting
  onKeyPair : Option Setting
  onElection : Option Setting

/-- Where the host keeps the public key, and where `malloc` has put what the leader branch
allocates, apart from each other. -/
structure Objects where
  publicKey : Nat
  prfkey : Nat
  output : Nat
  encryptedData : Nat
  publicKey_apart : Span.Apart ⟨prfkey, 8⟩ ⟨publicKey, 256⟩
  output_apart : Span.Apart ⟨prfkey, 8⟩ ⟨output, 8⟩
  encryptedData_apart : Span.Apart ⟨prfkey, 8⟩ ⟨encryptedData, 8⟩
  results_apart : Span.Apart ⟨output, 8⟩ ⟨encryptedData, 8⟩

/-- What the leader has when it opens its session: the key it is going to send, the
value released, and whether it has printed `You win`. -/
structure Opened where
  prfkey : UInt64
  output : UInt64
  won : Bool
  deriving DecidableEq

/-- `*prfkey`. -/
def Objects.key (objects : Objects) (host : Flat) : UInt64 :=
  wordOf (host.read ⟨objects.prfkey, 8⟩)

/-- What the leader branch reads after the election. -/
def Objects.opened (objects : Objects) (host : Flat) : Opened :=
  let output := wordOf (host.read ⟨objects.output, 8⟩)
  ⟨objects.key host, output, commit output (objects.key host) == win⟩

/-- The leader branch of `main` up to its session, with a result unless `main` returns. -/
def openSession (prf : PRF) (surroundings : Surroundings) (objects : Objects) (sides : Sides) :
    Except Crash (Option (Opened × Sides)) :=
  if (initializeEnclave surroundings.conditions surroundings.token).ret < 0 then .ok none
  else do
    let sides ← Bridge.ecallGetKey prf surroundings.onGetKey objects.prfkey sides
    let sides ← Bridge.ecallCreateRsaKeyPair prf surroundings.onKeyPair objects.publicKey sides
    let elected ← Bridge.ecallElection prf surroundings.onElection objects.prfkey 3
      objects.output objects.encryptedData sides
    return elected.map fun sides => (objects.opened sides.host, sides)

/-! ## What the leader opens with -/

/-- The key of a leader. -/
def Surroundings.key (prf : PRF) (surroundings : Surroundings) (objects : Objects)
    (host : Flat) : UInt64 :=
  if surroundings.onGetKey.isSome then issuedKey prf else objects.key host

/-- What a leader with a key has when it opens its session. -/
def openedBy (prf : PRF) (key : UInt64) : Opened :=
  let output := commitmentAt (drawn prf key) 3 0
  ⟨key, output, commit output key == win⟩

/-- The SDK creates the enclave. -/
def Surroundings.Launched (surroundings : Surroundings) : Prop :=
  0 ≤ (initializeEnclave surroundings.conditions surroundings.token).ret

/-- If the bridge lets the call for a key pair in, the key pair is created. -/
def Surroundings.KeyPairCreated (surroundings : Surroundings) : Prop :=
  ∀ setting, surroundings.onKeyPair = some setting → setting.Creates

/-- The election is let in and returns. -/
def Surroundings.Elected (prf : PRF) (surroundings : Surroundings) (key : UInt64) : Prop :=
  ∃ setting, surroundings.onElection = some setting ∧ setting.Creates ∧
    0 ∈ wordBytes (openedBy prf key).output ++ setting.following

/-- The memory of the host after the call for the key. -/
def Objects.keyed (prf : PRF) (objects : Objects) (entered : Option Setting) (host : Flat) :
    Flat :=
  if entered.isSome then
    host.write objects.prfkey (wordBytes (issuedKey prf) ++ List.replicate 248 0)
  else host

/-- The address belongs to what the leader branch hands to the enclave. -/
def Objects.Holds (objects : Objects) (address : Nat) : Prop :=
  address ∈ (⟨objects.publicKey, 256⟩ : Span) ∨ address ∈ (⟨objects.prfkey, 8⟩ : Span) ∨
    address ∈ (⟨objects.output, 8⟩ : Span) ∨ address ∈ (⟨objects.encryptedData, 8⟩ : Span)

/-! ## The calls of the leader -/

/-- The value that an election under a key releases. -/
theorem election_blank_eq (prf : PRF) (key : UInt64) :
    Ecall.election prf blank key 3 = .ok (openedBy prf key).output :=
  Ecall.election_eq prf blank key (by decide)

/-- What the election needs of the enclave. -/
theorem meets_election_iff (prf : PRF) (setting : Setting) (key : UInt64) (output : Nat) :
    setting.Meets prf (.election key 3 output) ↔
      setting.Creates ∧ 0 ∈ wordBytes (openedBy prf key).output ++ setting.following := by
  refine and_congr_right fun _ => ⟨fun ends => ends _ (election_blank_eq prf key), ?_⟩
  intro ends commitValue elected
  rw [election_blank_eq] at elected
  cases elected
  exact ends

section Calls

variable {prf : PRF} {objects : Objects} {sides : Sides}

/-- The key is the issued one if its call is let in, and what was in memory otherwise.
-/
theorem key_keyed (prf : PRF) (objects : Objects) (entered : Option Setting) (host : Flat) :
    objects.key (objects.keyed prf entered host) =
      if entered.isSome then issuedKey prf else objects.key host := by
  cases entered with
  | none => rfl
  | some setting =>
      have front : 8 ≤ (wordBytes (issuedKey prf) ++ List.replicate 248 (0 : UInt8)).length := by
        rw [List.length_append, length_wordBytes]
        exact Nat.le_add_right _ _
      change wordOf ((host.write _ _).read _) = issuedKey prf
      rw [Flat.read_write front, List.take_left' (length_wordBytes _), wordOf_wordBytes]

/-- The call for the key returns. -/
theorem exists_getKey (prf : PRF) (objects : Objects) (entered : Option Setting)
    (loaded : Loaded sides.enclave) :
    ∃ next, Bridge.ecallGetKey prf entered objects.prfkey sides = .ok next ∧
      Loaded next.enclave ∧ next.host = objects.keyed prf entered sides.host := by
  cases entered with
  | none => exact ⟨sides, rfl, loaded, rfl⟩
  | some setting =>
      obtain ⟨enclave, returned⟩ := enter_getKey prf setting sides.enclave
      refine ⟨⟨_, enclave⟩, ?_, loaded.enter returned, rfl⟩
      simp only [Bridge.ecallGetKey, copyBack, returned]
      rfl

/-- The call for the key pair returns if the SDK creates one. -/
theorem exists_keyPair (prf : PRF) (objects : Objects) {entered : Option Setting}
    (created : ∀ setting, entered = some setting → setting.Creates)
    (loaded : Loaded sides.enclave) :
    ∃ next, Bridge.ecallCreateRsaKeyPair prf entered objects.publicKey sides = .ok next ∧
      Flat.KeptOutside ⟨objects.publicKey, 256⟩ sides.host next.host := by
  cases entered with
  | none => exact ⟨sides, rfl, fun _ _ => rfl⟩
  | some setting =>
      obtain ⟨bytes, enclave, returned⟩ := exists_enter_keyPair prf (created setting rfl) loaded
      refine ⟨⟨_, enclave⟩, ?_, Flat.keptOutside_write sides.host _ (length_of_enter returned)⟩
      simp only [Bridge.ecallCreateRsaKeyPair, copyBack, returned]
      rfl

/-- What the leader finds in memory when the election has returned. -/
theorem opened_written (prf : PRF) (objects : Objects) (host : Flat) :
    objects.opened ((host.write objects.output
        (wordBytes (openedBy prf (objects.key host)).output)).write objects.encryptedData
          (List.replicate 8 0)) = openedBy prf (objects.key host) := by
  have size := length_wordBytes (openedBy prf (objects.key host)).output
  have released := Flat.keptOutside_write host objects.output size
  have cleared := Flat.keptOutside_write (host.write objects.output
    (wordBytes (openedBy prf (objects.key host)).output)) objects.encryptedData
    (List.length_replicate (n := 8) (a := (0 : UInt8)))
  have key := (cleared.read objects.encryptedData_apart).trans (released.read objects.output_apart)
  have output := cleared.read objects.results_apart
  rw [Flat.read_write (Nat.le_of_eq size.symm), List.take_of_length_le (Nat.le_of_eq size)]
    at output
  rw [Objects.opened, Objects.key, key, output, wordOf_wordBytes]
  rfl

/-- What the leader makes of an election that returns. -/
theorem exists_election (prf : PRF) (objects : Objects) {setting : Setting}
    (meets : setting.Meets prf (.election (objects.key sides.host) 3
      sides.enclave.heap.buffers.length)) :
    ∃ next, Bridge.ecallElection prf (some setting) objects.prfkey 3 objects.output
        objects.encryptedData sides = .ok (some next) ∧
      objects.opened next.host = openedBy prf (objects.key sides.host) ∧
      ∀ address, ¬ objects.Holds address → next.host address = sides.host address := by
  obtain ⟨enclave, returned⟩ := enter_election prf meets (election_blank_eq prf _)
  refine ⟨⟨(sides.host.write objects.output (wordBytes
    (openedBy prf (objects.key sides.host)).output)).write objects.encryptedData
      (List.replicate 8 0), enclave⟩, ?_, opened_written prf objects sides.host, ?_⟩
  · rw [Objects.key] at returned
    simp only [Bridge.ecallElection, returned]
    rfl
  · intro address other
    rw [Objects.Holds, not_or, not_or, not_or] at other
    obtain ⟨-, -, output, encryptedData⟩ := other
    exact (Flat.keptOutside_write _ _ List.length_replicate address encryptedData).trans
      (Flat.keptOutside_write _ _ (length_wordBytes _) address output)

/-- If the call for the key pair returns, the SDK has created one. -/
theorem created_of_keyPair {entered : Option Setting} {next : Sides}
    (returned : Bridge.ecallCreateRsaKeyPair prf entered objects.publicKey sides = .ok next)
    (setting : Setting) (granted : entered = some setting) : setting.Creates := by
  rw [granted, Bridge.ecallCreateRsaKeyPair, copyBack, bind_eq_ok_iff] at returned
  obtain ⟨_, made, -⟩ := returned
  exact meets_of_enter made

/-- If the election returns, it has met what it needs. -/
theorem meets_of_election {setting : Setting} {elected : Option Sides}
    (returned : Bridge.ecallElection prf (some setting) objects.prfkey 3 objects.output
      objects.encryptedData sides = .ok elected) :
    setting.Meets prf (.election (objects.key sides.host) 3
      sides.enclave.heap.buffers.length) := by
  rw [Bridge.ecallElection, bind_eq_ok_iff] at returned
  obtain ⟨_, made, -⟩ := returned
  exact meets_of_enter made

end Calls

/-! ## The branch -/

section Branch

variable {prf : PRF} {surroundings : Surroundings} {objects : Objects} {sides : Sides}
  (loaded : Loaded sides.enclave)

include loaded

/-- The branch from its key on. -/
theorem openSession_of_launched (prf : PRF) (objects : Objects)
    (launched : surroundings.Launched) :
    ∃ keyed : Sides, openSession prf surroundings objects sides = (do
        let paired ← Bridge.ecallCreateRsaKeyPair prf surroundings.onKeyPair objects.publicKey keyed
        let elected ← Bridge.ecallElection prf surroundings.onElection objects.prfkey 3
          objects.output objects.encryptedData paired
        return elected.map fun sides => (objects.opened sides.host, sides)) ∧
      Loaded keyed.enclave ∧
      keyed.host = objects.keyed prf surroundings.onGetKey sides.host := by
  obtain ⟨keyed, asked, there, host⟩ :=
    exists_getKey prf objects surroundings.onGetKey loaded
  refine ⟨keyed, ?_, there, host⟩
  rw [openSession, if_neg (Int.not_lt.mpr launched), asked, ok_bind]

/-- The branch from its election on. -/
theorem openSession_of_created (prf : PRF) (objects : Objects) (launched : surroundings.Launched)
    (created : surroundings.KeyPairCreated) :
    ∃ paired : Sides, openSession prf surroundings objects sides = (do
        let elected ← Bridge.ecallElection prf surroundings.onElection objects.prfkey 3
          objects.output objects.encryptedData paired
        return elected.map fun sides => (objects.opened sides.host, sides)) ∧
      objects.key paired.host = surroundings.key prf objects sides.host ∧
      Flat.KeptOutside ⟨objects.publicKey, 256⟩
        (objects.keyed prf surroundings.onGetKey sides.host) paired.host := by
  obtain ⟨keyed, equal, there, host⟩ := openSession_of_launched loaded prf objects launched
  obtain ⟨paired, asked, kept⟩ := exists_keyPair prf objects created there
  rw [host] at kept
  refine ⟨paired, ?_, ?_, kept⟩
  · rw [equal, asked, ok_bind]
  · rw [Objects.key, kept.read objects.publicKey_apart]
    exact key_keyed prf objects surroundings.onGetKey sides.host

/-- A leader that returns has its key pair. -/
theorem created_of_openSession (launched : surroundings.Launched)
    {result : Option (Opened × Sides)}
    (returned : openSession prf surroundings objects sides = .ok result) :
    surroundings.KeyPairCreated := by
  obtain ⟨keyed, equal, -, -⟩ := openSession_of_launched loaded prf objects launched
  rw [equal, bind_eq_ok_iff] at returned
  obtain ⟨_, paired, -⟩ := returned
  exact created_of_keyPair paired

/-- What a leader that has all it needs opens with, and what it has left in memory. -/
theorem exists_opened (prf : PRF) (objects : Objects) (launched : surroundings.Launched)
    (created : surroundings.KeyPairCreated)
    (elected : surroundings.Elected prf (surroundings.key prf objects sides.host)) :
    ∃ after, openSession prf surroundings objects sides =
        .ok (some (openedBy prf (surroundings.key prf objects sides.host), after)) ∧
      ∀ address, ¬ objects.Holds address →
        after.host address = objects.keyed prf surroundings.onGetKey sides.host address := by
  obtain ⟨paired, equal, key, kept⟩ := openSession_of_created loaded prf objects launched created
  obtain ⟨setting, entered, meets⟩ := elected
  rw [← key, ← meets_election_iff prf setting _ paired.enclave.heap.buffers.length] at meets
  obtain ⟨after, returned, opened, outside⟩ := exists_election prf objects meets
  refine ⟨after, ?_, fun address other => ?_⟩
  · rw [equal, entered, returned, ok_bind, Option.map_some, opened, key]
    rfl
  · rw [outside address other, kept address fun member => other (.inl member)]

/-- A leader that opens its session has all it needs. -/
theorem ready_of_opened {opened : Opened} {after : Sides}
    (returned : openSession prf surroundings objects sides = .ok (some (opened, after))) :
    surroundings.Launched ∧ surroundings.KeyPairCreated ∧
      surroundings.Elected prf (surroundings.key prf objects sides.host) := by
  have launched : surroundings.Launched := by
    by_contra refused
    rw [openSession, if_pos (Int.not_le.mp refused)] at returned
    cases returned
  have created := created_of_openSession loaded launched returned
  obtain ⟨paired, equal, key, -⟩ := openSession_of_created loaded prf objects launched created
  rw [equal, bind_eq_ok_iff] at returned
  obtain ⟨elected, asked, result⟩ := returned
  cases entered : surroundings.onElection with
  | none =>
      rw [entered] at asked
      cases asked
      cases result
  | some setting =>
      rw [entered] at asked
      refine ⟨launched, created, setting, entered, ?_⟩
      rw [← key, ← meets_election_iff prf setting _ paired.enclave.heap.buffers.length]
      exact meets_of_election asked

/-- The leader branch opens its session exactly when all that it needs is there, and then
with what its key decides. -/
theorem opens_iff (opened : Opened) :
    (∃ after, openSession prf surroundings objects sides = .ok (some (opened, after))) ↔
      (surroundings.Launched ∧ surroundings.KeyPairCreated ∧
          surroundings.Elected prf (surroundings.key prf objects sides.host)) ∧
        opened = openedBy prf (surroundings.key prf objects sides.host) := by
  constructor
  · rintro ⟨after, returned⟩
    have ready := ready_of_opened loaded returned
    obtain ⟨launched, created, elected⟩ := id ready
    obtain ⟨after', same, -⟩ := exists_opened loaded prf objects launched created elected
    rw [same] at returned
    cases returned
    exact ⟨ready, rfl⟩
  · rintro ⟨⟨launched, created, elected⟩, rfl⟩
    obtain ⟨after, same, -⟩ := exists_opened loaded prf objects launched created elected
    exact ⟨after, same⟩

/-- The leader branch gives up exactly when the SDK does not create the enclave, or when
the election is refused after the key pair. -/
theorem gives_up_iff :
    openSession prf surroundings objects sides = .ok none ↔
      (surroundings.Launched →
        surroundings.KeyPairCreated ∧ surroundings.onElection = none) := by
  by_cases launched : surroundings.Launched
  · rw [forall_prop_of_true launched]
    constructor
    · intro returned
      have created := created_of_openSession loaded launched returned
      obtain ⟨paired, equal, -, -⟩ := openSession_of_created loaded prf objects launched created
      rw [equal, bind_eq_ok_iff] at returned
      obtain ⟨elected, asked, result⟩ := returned
      refine ⟨created, ?_⟩
      cases entered : surroundings.onElection with
      | none => rfl
      | some setting =>
          rw [entered] at asked
          obtain ⟨after, same, -, -⟩ := exists_election prf objects (meets_of_election asked)
          rw [same] at asked
          cases asked
          cases result
    · rintro ⟨created, refused⟩
      obtain ⟨paired, equal, -, -⟩ := openSession_of_created loaded prf objects launched created
      rw [equal, refused]
      rfl
  · refine iff_of_true ?_ fun launched' => (launched launched').elim
    rw [openSession, if_pos (Int.not_le.mp launched)]

end Branch

/-- **The leader.** The leader branch opens its session exactly when the SDK creates the
enclave, the key pair if its call is let in, and the key pair of the election, which is
let in and prints a text that ends; what it opens with is decided by its key. It gives
up exactly when the SDK does not create the enclave, or the election is refused after
the key pair. -/
theorem leader_outcomes (prf : PRF) (surroundings : Surroundings) (objects : Objects)
    (sides : Sides) (loaded : Loaded sides.enclave) :
    (∀ opened, (∃ after,
        openSession prf surroundings objects sides = .ok (some (opened, after))) ↔
      (surroundings.Launched ∧ surroundings.KeyPairCreated ∧
          surroundings.Elected prf (surroundings.key prf objects sides.host)) ∧
        opened = openedBy prf (surroundings.key prf objects sides.host)) ∧
    (openSession prf surroundings objects sides = .ok none ↔
      (surroundings.Launched →
        surroundings.KeyPairCreated ∧ surroundings.onElection = none)) :=
  ⟨opens_iff loaded, gives_up_iff loaded⟩

/-- The SDK creates the enclave, and the bridge lets all calls in. -/
def granted : Surroundings where
  conditions := ⟨true, true, tokenSize, fun token => ⟨true, token, false⟩, true, tokenSize⟩
  token := none
  onGetKey := some (settingOf [0])
  onKeyPair := some (settingOf [0])
  onElection := some (settingOf [0])

/-- What is allocated stands in rows of 32 bytes, before the public key. -/
def rows : Objects where
  publicKey := 512
  prfkey := 0
  output := 32
  encryptedData := 64
  publicKey_apart address inside outside := by
    rw [Span.mem_iff] at inside outside
    omega
  output_apart address inside outside := by
    rw [Span.mem_iff] at inside outside
    omega
  encryptedData_apart address inside outside := by
    rw [Span.mem_iff] at inside outside
    omega
  results_apart address inside outside := by
    rw [Span.mem_iff] at inside outside
    omega

/-- A host whose memory is full of ones. -/
def ones : Sides := ⟨fun _ => 1, worldOf 1 2⟩

theorem loaded_ones : Loaded ones.enclave := (layout_worldOf 1 2).length_pubkey

theorem granted_ready :
    granted.Launched ∧ granted.KeyPairCreated ∧
      granted.Elected (PRF.returning 7) (granted.key (PRF.returning 7) rows ones.host) := by
  have creates : (settingOf [0]).Creates := ⟨_, _, rfl, rfl⟩
  refine ⟨?_, fun setting entered => ?_, _, rfl, creates, ?_⟩
  · rw [Surroundings.Launched, ret_eq]
    exact Int.le_refl 0
  · cases entered
    exact creates
  · exact List.mem_append_right _ (List.mem_singleton_self 0)

theorem leader_outcomes_of_granted :
    Loaded ones.enclave ∧
    ∃ after, openSession (PRF.returning 7) granted rows ones =
      .ok (some (openedBy (PRF.returning 7) 7, after)) :=
  ⟨loaded_ones, ((leader_outcomes (PRF.returning 7) granted rows ones loaded_ones).1 _).mpr
    ⟨granted_ready, rfl⟩⟩

/-- **One key.** All leaders to which the enclave has issued a key open their sessions
with the same one, whatever the SDK, the file system and memory do, and with what
it decides. A session of such a leader that cannot go on, over clean buffers, is a
deadlock if the participant has decoded that key and the leader has registered the
participant; otherwise both branches are over. -/
theorem one_key (prf : PRF) :
    ∃ key, ∀ surroundings objects sides opened after, Loaded (Sides.enclave sides) →
      surroundings.onGetKey ≠ none →
      openSession prf surroundings objects sides = .ok (some (opened, after)) →
      opened = openedBy prf key ∧
        ∀ serverport portno state, key ≠ 0 → portno ≠ 127 →
          Occurs opened.prfkey serverport portno state → AllClean state → Halted state →
          (Deadlocked state ↔ Informed key serverport portno state) ∧
            (Ended state ↔ ¬ Informed key serverport portno state) := by
  refine ⟨issuedKey prf, fun surroundings objects sides opened after loaded asked returned => ?_⟩
  obtain ⟨-, same⟩ := (opens_iff loaded opened).mp ⟨after, returned⟩
  have issued : surroundings.key prf objects sides.host = issuedKey prf :=
    if_pos (Option.isSome_iff_ne_none.mpr asked)
  rw [issued] at same
  refine ⟨same, fun serverport portno state keyed other occurs clean halted => ?_⟩
  have sent : opened.prfkey = issuedKey prf := by rw [same, openedBy]
  rw [sent] at occurs
  rw [informed_iff occurs clean keyed other]
  exact stuck_session occurs halted

theorem one_key_of_granted :
    ∃ opened after state, openSession (PRF.returning 7) granted rows ones =
        .ok (some (opened, after)) ∧
      Occurs opened.prfkey 1234 18888 state ∧ AllClean state ∧ Halted state ∧
      (Deadlocked state ↔ Informed 7 1234 18888 state) ∧
        (Ended state ↔ ¬ Informed 7 1234 18888 state) := by
  obtain ⟨after, returned⟩ := (opens_iff loaded_ones (openedBy (PRF.returning 7) 7)).mpr
    ⟨granted_ready, rfl⟩
  obtain ⟨key, leaders⟩ := one_key (PRF.returning 7)
  obtain ⟨same, sessions⟩ := leaders granted rows ones _ after loaded_ones
    (Option.some_ne_none _) returned
  have seven : 7 = key := congrArg Opened.prfkey same
  obtain ⟨state, occurs, clean, deadlocked⟩ := exists_deadlocked_session 7 1234 18888
  have halted : Halted state := (stuck_iff defaultLen_pos).mpr (.inr deadlocked)
  have ends := sessions 1234 18888 state (seven ▸ by decide) (by decide) occurs clean halted
  exact ⟨_, after, state, returned, occurs, clean, halted, seven ▸ ends⟩

end Ssle.App
