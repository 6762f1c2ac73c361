import SsleExperiment.Enclave.Ecall
import SsleExperiment.Enclave.KeyPair
import SsleExperiment.Math.Runs

/-! # Runs of calls into the enclave

The calls into the enclave share its heap. Two of them create a key pair, and what
the SDK makes of it, whatever it succeeds in, reaches no buffer that was there
before: every run returns and fills the buffers of the caller just like a run without
the key pairs, if the keys are created and the texts printed end
(`Ssle.Calls.run_iff`). The key objects stay on the heap (`Ssle.Calls.run_leaves`).
An election prints the bytes of the commitment up to the first zero, and if there is
none, what stands behind it on the stack (`Ssle.Calls.printed_eq_iff`).
-/

namespace Ssle.Calls

open KeyPair SSLEObfuscation

/-- What the enclave meets in one call: the SDK, what memory holds where nothing is
initialised, and the bytes behind the value or the message that is printed. -/
structure Setting where
  sdk : Sdk
  stack : KeyParams
  memory : Memory
  following : Bytes

/-- A call into the enclave, with the buffer of the caller that it fills. -/
inductive Call where
  | test (message : Bytes)
  | getKey (keyout : Nat)
  | createRsaKeyPair (pkey : Nat)
  | election (prfkey : UInt64) (numNodes : Int32) (output : Nat)

/-- The ways a call does not return. -/
inductive Crash where
  | access (fault : AccessFault)
  | fault (fault : Fault)

/-- The bytes of a `uint64_t`, the lowest first. -/
def wordBytes (value : UInt64) : Bytes := longBytes value.toInt64

/-- The bytes before the first zero. -/
def leading (memory : Bytes) : Bytes := memory.takeWhile (· ≠ 0)

/-- What is read as a C string from a pointer on. -/
def cText (memory : Bytes) : Except AccessFault Bytes :=
  if 0 ∈ memory then .ok (leading memory) else .error .outOfBounds

/-- The characters of a text. -/
def shown (text : Bytes) : String := String.ofList (text.map fun byte => Char.ofNat byte.toNat)

/-- `ocall_print`. -/
def ocallPrint (memory : Bytes) (world : World) : Except AccessFault World := do
  let text ← cText memory
  return { world with printed := world.printed ++ [shown text] }

/-- `ecall_test`. -/
def ecallTest (setting : Setting) (message : Bytes) (world : World) : Except AccessFault World :=
  ocallPrint (message ++ setting.following) world

/-- `ecall_get_key`. -/
def ecallGetKey (prf : PRF) (setting : Setting) (keyout : Pointer) (world : World) :
    Except AccessFault World := do
  let heap ← world.heap.store keyout (wordBytes (getKey prf (fresh setting.memory)).1)
  return { world with heap }

/-- `ecall_election`. -/
def ecallElection (prf : PRF) (setting : Setting) (prfkey : UInt64) (numNodes : Int32)
    (output : Pointer) (world : World) : Except Crash World := do
  let (_, world) ← (createRsaPair setting.sdk setting.stack (some pubkey) (some seckey)
    world).mapError .access
  let commitValue ← (Ecall.election prf setting.memory prfkey numNodes).mapError .fault
  let world ← (ocallPrint (wordBytes commitValue ++ setting.following) world).mapError .access
  let heap ← (world.heap.store output (wordBytes commitValue)).mapError .access
  return { world with heap }

/-- One call. What it returns to the caller besides the buffer is dropped. -/
def perform (prf : PRF) (world : World) : Setting × Call → Except Crash World
  | (setting, .test message) => (ecallTest setting message world).mapError .access
  | (setting, .getKey keyout) => (ecallGetKey prf setting (some keyout) world).mapError .access
  | (setting, .createRsaKeyPair pkey) =>
      ((ecallCreateRsaKeyPair setting.sdk setting.stack (some pkey) world).map
        Prod.snd).mapError .access
  | (setting, .election prfkey numNodes output) =>
      ecallElection prf setting prfkey numNodes (some output) world

/-! ## What the caller sees -/

/-- What memory holds in no member. -/
def blank : Memory := ⟨0, 0, 0⟩

/-- What a call does to the buffers that are there: nothing is created, and nothing
is printed. -/
def answer (prf : PRF) (heap : Heap) : Call → Except Crash Heap
  | .test _ => .ok heap
  | .getKey keyout =>
      (heap.store (some keyout) (wordBytes (getKey prf (fresh blank)).1)).mapError .access
  | .createRsaKeyPair pkey => (heap.memcpy (some pkey) (some pubkey) keySize).mapError .access
  | .election prfkey numNodes output => do
      let commitValue ← (Ecall.election prf blank prfkey numNodes).mapError .fault
      (heap.store (some output) (wordBytes commitValue)).mapError .access

/-- The buffer of the caller that a call fills. -/
def Call.buffer? : Call → Option Nat
  | .test _ => none
  | .getKey keyout => some keyout
  | .createRsaKeyPair pkey => some pkey
  | .election _ _ output => some output

/-- Both key objects are created. -/
def Setting.Creates (setting : Setting) : Prop :=
  ∃ privateKey publicKey,
    setting.sdk.createPrivateKey (setting.sdk.params setting.stack) = .ok privateKey ∧
      setting.sdk.createPublicKey (setting.sdk.params setting.stack) = .ok publicKey

/-- The key pair of a call is created, and the text that it prints ends. -/
def Setting.Meets (prf : PRF) (setting : Setting) : Call → Prop
  | .test message => 0 ∈ message ++ setting.following
  | .getKey _ => True
  | .createRsaKeyPair _ => setting.Creates
  | .election prfkey numNodes _ => setting.Creates ∧
      ∀ commitValue, Ecall.election prf blank prfkey numNodes = .ok commitValue →
        0 ∈ wordBytes commitValue ++ setting.following

/-- The first buffers of a heap. -/
def visible (count : Nat) (heap : Heap) : Heap := ⟨heap.buffers.take count⟩

/-- What is visible is as it is on the heap. -/
theorem bytesAt_visible {count i : Nat} (inside : i < count) (heap : Heap) :
    (visible count heap).bytesAt i = heap.bytesAt i := by
  rw [Heap.bytesAt, visible, List.getElem?_take_of_lt inside]
  rfl

/-- Buffers created later are not visible. -/
theorem visible_append {count : Nat} {buffers : List Bytes} (few : count ≤ buffers.length)
    (created : List Bytes) : visible count ⟨buffers ++ created⟩ = visible count ⟨buffers⟩ := by
  rw [visible, List.take_append_of_le_length few]
  rfl

/-- Filling one of the first buffers. -/
theorem store_visible {count i : Nat} (inside : i < count) (heap : Heap) (bytes : Bytes) :
    (visible count heap).store (some i) bytes =
      (heap.store (some i) bytes).map (visible count) := by
  rw [Heap.store, Heap.store, bytesAt_visible inside]
  split
  · rw [Except.map, visible, visible, List.take_set]
  · rfl

/-- A copy between visible buffers can be seen. -/
theorem memcpy_visible {count i j : Nat} (inside : i < count) (inside' : j < count) (heap : Heap)
    (size : Nat) :
    (visible count heap).memcpy (some i) (some j) size =
      (heap.memcpy (some i) (some j) size).map (visible count) := by
  rw [Heap.memcpy, Heap.memcpy, Heap.load, Heap.load, bytesAt_visible inside']
  split
  · rw [ok_bind, ok_bind, store_visible inside]
  · rfl

/-! ## One call -/

/-- What a created key pair prints: a failed first call is reported and nothing
else. -/
def warnings (setting : Setting) : List String :=
  if statusOf setting.sdk.createKeyParams ≠ success then ["Key param generation failed"] else []

/-- What a call that returns prints. -/
def texts (prf : PRF) (setting : Setting) : Call → List String
  | .test message => [shown (leading (message ++ setting.following))]
  | .getKey _ => []
  | .createRsaKeyPair _ => warnings setting
  | .election prfkey numNodes _ => warnings setting ++
      ((Ecall.election prf blank prfkey numNodes).toOption.map fun commitValue =>
        shown (leading (wordBytes commitValue ++ setting.following))).toList

/-- How many buffers a call leaves behind on the heap. -/
def Call.left : Call → Nat
  | .test _ => 0
  | .getKey _ => 0
  | .createRsaKeyPair _ => 6
  | .election _ _ _ => 6

/-- The key does not depend on what memory held. -/
theorem getKey_blank (prf : PRF) (memory : Memory) :
    (getKey prf (fresh memory)).1 = (getKey prf (fresh blank)).1 := rfl

/-- The value that an election releases does not depend on what memory held. -/
theorem election_blank (prf : PRF) (memory : Memory) (prfkey : UInt64) (numNodes : Int32) :
    Ecall.election prf memory prfkey numNodes = Ecall.election prf blank prfkey numNodes := rfl

/-- A text that ends is printed up to its end. -/
theorem ocallPrint_of_mem {memory : Bytes} (ends : 0 ∈ memory) (world : World) :
    ocallPrint memory world =
      .ok { world with printed := world.printed ++ [shown (leading memory)] } := by
  rw [ocallPrint, cText, if_pos ends]
  rfl

/-- A text that does not end is read out of bounds. -/
theorem ocallPrint_of_not_mem {memory : Bytes} (endless : 0 ∉ memory) (world : World) :
    ocallPrint memory world = .error .outOfBounds := by
  rw [ocallPrint, cText, if_neg endless]
  rfl

/-- A key pair that is created is appended to the heap. -/
theorem createRsaPair_of_creates {setting : Setting} (creates : setting.Creates)
    (world : World) :
    ∃ created : List Bytes, created.length = 6 ∧
      createRsaPair setting.sdk setting.stack (some pubkey) (some seckey) world =
        .ok (success, ⟨⟨world.heap.buffers ++ created⟩, world.printed ++ warnings setting⟩) := by
  obtain ⟨privateKey, publicKey, privateOk, publicOk⟩ := creates
  refine ⟨[privateKey.bytes, publicKey.bytes, (setting.sdk.params setting.stack).n.toList,
    longBytes e, publicKey.leading, privateKey.leading], rfl, ?_⟩
  have silent (world : World) (key : KeyObject) (message : String) :
      world.check (statusOf (.ok key)) message = world := if_neg (not_not.mpr rfl)
  have reported : world.check (statusOf setting.sdk.createKeyParams) "Key param generation failed" =
      ⟨world.heap, world.printed ++ warnings setting⟩ := by
    rw [World.check, warnings]
    split
    · rfl
    · rw [List.append_nil]
  simp only [createRsaPair, privateOk, publicOk, silent, reported, World.create,
    Heap.allocate, List.append_assoc, List.cons_append, List.nil_append, List.length_append,
    List.length_cons, List.length_nil, Nat.zero_add]
  rw [copyKeys_eq]
  rfl

/-- A key pair that is not created is read through a null pointer. -/
theorem createRsaPair_of_not_creates {setting : Setting} (failed : ¬ setting.Creates)
    (world : World) :
    createRsaPair setting.sdk setting.stack (some pubkey) (some seckey) world =
      .error .nullPointer :=
  createRsaPair_of_null (fun privateKey publicKey privateOk publicOk =>
    failed ⟨privateKey, publicKey, privateOk, publicOk⟩) _ _ world

/-- A call whose keys are created and whose text ends does to a larger heap what the
caller sees. -/
theorem perform_of_meets (prf : PRF) {setting : Setting} {call : Call}
    (meets : setting.Meets prf call) (world : World) :
    ∃ created : List Bytes, created.length = call.left ∧
      perform prf world (setting, call) =
        (answer prf ⟨world.heap.buffers ++ created⟩ call).map fun heap =>
          ⟨heap, world.printed ++ texts prf setting call⟩ := by
  cases call with
  | test message =>
      refine ⟨[], rfl, ?_⟩
      rw [perform, ecallTest, ocallPrint_of_mem meets, List.append_nil]
      rfl
  | getKey keyout =>
      refine ⟨[], rfl, ?_⟩
      rw [perform, ecallGetKey, answer, texts, getKey_blank, List.append_nil, List.append_nil]
      cases world.heap.store (some keyout) (wordBytes (getKey prf (fresh blank)).1) with
      | error fault => rfl
      | ok heap => rfl
  | createRsaKeyPair pkey =>
      obtain ⟨created, size, returned⟩ := createRsaPair_of_creates meets world
      refine ⟨created, size, ?_⟩
      rw [perform, ecallCreateRsaKeyPair, returned, answer, texts, ok_bind]
      simp only
      cases Heap.memcpy ⟨world.heap.buffers ++ created⟩ (some pkey) (some pubkey) keySize with
      | error fault => rfl
      | ok heap => rfl
  | election prfkey numNodes output =>
      obtain ⟨creates, ends⟩ := meets
      obtain ⟨created, size, returned⟩ := createRsaPair_of_creates creates world
      refine ⟨created, size, ?_⟩
      rw [perform, ecallElection, returned, answer, texts, election_blank]
      cases elected : Ecall.election prf blank prfkey numNodes with
      | error fault => rfl
      | ok commitValue =>
          have text := ocallPrint_of_mem (ends commitValue elected)
            ⟨⟨world.heap.buffers ++ created⟩, world.printed ++ warnings setting⟩
          simp only [Except.mapError, ok_bind, text]
          cases Heap.store ⟨world.heap.buffers ++ created⟩ (some output)
            (wordBytes commitValue) with
          | error fault => rfl
          | ok heap =>
              change Except.ok (World.mk heap (world.printed ++ warnings setting ++ [_])) =
                Except.ok (World.mk heap (world.printed ++ (warnings setting ++ [_])))
              rw [List.append_assoc]

/-- What has been printed ends. -/
theorem mem_of_ocallPrint {memory : Bytes} {world next : World}
    (printed : ocallPrint memory world = .ok next) : 0 ∈ memory := by
  by_contra endless
  rw [ocallPrint_of_not_mem endless] at printed
  cases printed

/-- If the enclave goes on, the key pair was created. -/
theorem creates_of_createRsaPair {setting : Setting} {world : World} {result : Status × World}
    (returned : createRsaPair setting.sdk setting.stack (some pubkey) (some seckey) world =
      .ok result) : setting.Creates := by
  by_contra failed
  rw [createRsaPair_of_not_creates failed] at returned
  cases returned

/-- A call returns only with its keys created, and with a text that ends. -/
theorem meets_of_perform {prf : PRF} {setting : Setting} {call : Call} {world next : World}
    (performed : perform prf world (setting, call) = .ok next) : setting.Meets prf call := by
  cases call with
  | test message => exact mem_of_ocallPrint (mapError_eq_ok_iff.mp performed)
  | getKey keyout => trivial
  | createRsaKeyPair pkey =>
      have returned := mapError_eq_ok_iff.mp performed
      cases made : ecallCreateRsaKeyPair setting.sdk setting.stack (some pkey) world with
      | error fault =>
          rw [made] at returned
          cases returned
      | ok result =>
          rw [ecallCreateRsaKeyPair, bind_eq_ok_iff] at made
          obtain ⟨_, pair, -⟩ := made
          exact creates_of_createRsaPair pair
  | election prfkey numNodes output =>
      rw [perform, ecallElection, bind_eq_ok_iff] at performed
      obtain ⟨⟨_, paired⟩, pair, rest⟩ := performed
      simp only [bind_eq_ok_iff] at rest
      obtain ⟨commitValue, elected, _, text, -⟩ := rest
      refine ⟨creates_of_createRsaPair (mapError_eq_ok_iff.mp pair), fun other same => ?_⟩
      rw [mapError_eq_ok_iff, election_blank, same] at elected
      cases elected
      exact mem_of_ocallPrint (mapError_eq_ok_iff.mp text)

/-- A call that returns has filled the buffers of a larger heap. -/
theorem answer_of_perform {prf : PRF} {setting : Setting} {call : Call} {world next : World}
    (performed : perform prf world (setting, call) = .ok next) :
    ∃ created heap, created.length = call.left ∧
      answer prf ⟨world.heap.buffers ++ created⟩ call = .ok heap ∧
      next = ⟨heap, world.printed ++ texts prf setting call⟩ := by
  obtain ⟨created, size, equal⟩ := perform_of_meets prf (meets_of_perform performed) world
  rw [equal] at performed
  cases answered : answer prf ⟨world.heap.buffers ++ created⟩ call with
  | error fault =>
      rw [answered] at performed
      cases performed
  | ok heap =>
      rw [answered] at performed
      cases performed
      exact ⟨created, heap, size, answered, rfl⟩

/-! ## The buffers of the caller -/

section Answer

variable {prf : PRF} {call : Call}

/-- A call reads and fills the first buffers alike, whatever stands behind them. -/
theorem answer_visible {count : Nat} (inside : ∀ i, call.buffer? = some i → i < count)
    (heap : Heap) :
    answer prf (visible count heap) call = (answer prf heap call).map (visible count) := by
  cases call with
  | test message => rfl
  | getKey keyout => rw [answer, answer, store_visible (inside keyout rfl), mapError_map]
  | createRsaKeyPair pkey =>
      have below := inside pkey rfl
      have below' : pubkey < count := Nat.zero_lt_of_lt below
      rw [answer, answer, memcpy_visible below below', mapError_map]
  | election prfkey numNodes output =>
      simp only [answer, store_visible (inside output rfl), mapError_map]
      cases Ecall.election prf blank prfkey numNodes with
      | error fault => rfl
      | ok commitValue => rfl

/-- A call fills its buffer and nothing else. -/
theorem answer_cases {heap after : Heap} (answered : answer prf heap call = .ok after) :
    after = heap ∨ ∃ i bytes, call.buffer? = some i ∧ heap.store (some i) bytes = .ok after := by
  cases call with
  | test message => exact .inl (Except.ok.inj answered).symm
  | getKey keyout => exact .inr ⟨keyout, _, rfl, mapError_eq_ok_iff.mp answered⟩
  | createRsaKeyPair pkey =>
      have copied := mapError_eq_ok_iff.mp answered
      rw [Heap.memcpy, bind_eq_ok_iff] at copied
      obtain ⟨bytes, -, stored⟩ := copied
      exact .inr ⟨pkey, bytes, rfl, stored⟩
  | election prfkey numNodes output =>
      rw [answer, bind_eq_ok_iff] at answered
      obtain ⟨commitValue, -, stored⟩ := answered
      exact .inr ⟨output, _, rfl, mapError_eq_ok_iff.mp stored⟩

/-- An answer fills its buffer and leaves the others alone. -/
theorem answer_frame {heap after : Heap} (answered : answer prf heap call = .ok after) :
    after.buffers.length = heap.buffers.length ∧
      ∀ j, call.buffer? ≠ some j → after.bytesAt j = heap.bytesAt j := by
  rcases answer_cases answered with rfl | ⟨i, bytes, filled, stored⟩
  · exact ⟨rfl, fun _ _ => rfl⟩
  · obtain ⟨size, others⟩ := Heap.store_frame stored
    exact ⟨size, fun j other => others j fun same => other (same ▸ filled)⟩

end Answer

/-! ## Whole runs -/

/-- **One call.** -/
theorem perform_eq_ok_iff (prf : PRF) {setting : Setting} {call : Call} {count : Nat}
    {world : World} (few : count ≤ world.heap.buffers.length)
    (inside : ∀ i, call.buffer? = some i → i < count) (seen : Heap) :
    (∃ next, perform prf world (setting, call) = .ok next ∧ visible count next.heap = seen) ↔
      setting.Meets prf call ∧ answer prf (visible count world.heap) call = .ok seen := by
  by_cases meets : setting.Meets prf call
  · obtain ⟨created, -, performed⟩ := perform_of_meets prf meets world
    rw [and_iff_right meets, performed, ← visible_append few created, answer_visible inside]
    cases answer prf ⟨world.heap.buffers ++ created⟩ call with
    | error fault => exact iff_of_false (fun ⟨_, impossible, _⟩ => nomatch impossible) nofun
    | ok heap => simp [Except.map]
  · exact iff_of_false (fun ⟨next, performed, _⟩ => meets (meets_of_perform performed))
      fun both => meets both.1

/-- What a call that returns leaves behind. -/
structure Leaves (world next : World) (created : Nat) (texts : List String)
    (filled : Nat → Prop) : Prop where
  size : next.heap.buffers.length = world.heap.buffers.length + created
  printed : next.printed = world.printed ++ texts
  others : ∀ i < world.heap.buffers.length, ¬ filled i →
    next.heap.bytesAt i = world.heap.bytesAt i

theorem perform_leaves {prf : PRF} {setting : Setting} {call : Call} {world next : World}
    (performed : perform prf world (setting, call) = .ok next) :
    Leaves world next call.left (texts prf setting call) fun i => call.buffer? = some i := by
  obtain ⟨created, heap, size, answered, rfl⟩ := answer_of_perform performed
  obtain ⟨same, others⟩ := answer_frame answered
  refine ⟨?_, rfl, fun i inside other => ?_⟩
  · rw [same, List.length_append, size]
  · rw [others i other]
    exact Heap.bytesAt_append_of_lt inside created

/-- No call changes the size of a buffer. -/
theorem length_bytesAt_perform {prf : PRF} {setting : Setting} {call : Call} {world next : World}
    (performed : perform prf world (setting, call) = .ok next) {i : Nat}
    (inside : i < world.heap.buffers.length) :
    (next.heap.bytesAt i).length = (world.heap.bytesAt i).length := by
  obtain ⟨created, heap, -, answered, rfl⟩ := answer_of_perform performed
  rw [← Heap.bytesAt_append_of_lt inside created]
  rcases answer_cases answered with rfl | ⟨j, bytes, -, stored⟩
  · rfl
  · exact Heap.length_bytesAt_store stored i

/-- A run and the run without key pairs, seen in the first buffers. -/
theorem run_visible_iff (prf : PRF) {calls : List (Setting × Call)} {count : Nat}
    {world : World} (few : count ≤ world.heap.buffers.length)
    (inside : ∀ call ∈ calls, ∀ i, call.2.buffer? = some i → i < count) (seen : Heap) :
    (∃ final, Runs.run (perform prf) world calls = .ok final ∧
        visible count final.heap = seen) ↔
      (∀ call ∈ calls, call.1.Meets prf call.2) ∧
        Runs.run (answer prf) (visible count world.heap) (calls.map Prod.snd) = .ok seen := by
  induction calls generalizing world with
  | nil =>
      rw [List.map_nil, Runs.run_nil, Runs.run_nil, Except.ok.injEq,
        and_iff_right (List.forall_mem_nil _)]
      exact ⟨fun ⟨_, same, shown⟩ => Except.ok.inj same ▸ shown, fun shown => ⟨_, rfl, shown⟩⟩
  | cons call calls ih =>
      rw [List.forall_mem_cons] at inside ⊢
      simp only [List.map_cons, Runs.run_cons_eq_ok_iff]
      have first (seen : Heap) := @perform_eq_ok_iff prf call.1 call.2 _ _ few inside.1 seen
      have rest {next : World} (performed : perform prf world call = .ok next) :=
        ih ((few.trans (Nat.le_add_right _ _)).trans_eq (perform_leaves performed).size.symm)
          inside.2
      constructor
      · rintro ⟨final, ⟨next, performed, ran⟩, shown⟩
        obtain ⟨meets, answered⟩ := (first _).mp ⟨next, performed, rfl⟩
        obtain ⟨others, ended⟩ := (rest performed).mp ⟨final, ran, shown⟩
        exact ⟨⟨meets, others⟩, _, answered, ended⟩
      · rintro ⟨⟨meets, others⟩, seen, answered, ended⟩
        obtain ⟨next, performed, rfl⟩ := (first seen).mpr ⟨meets, answered⟩
        obtain ⟨final, ran, shown⟩ := (rest performed).mpr ⟨others, ended⟩
        exact ⟨final, ⟨next, performed, ran⟩, shown⟩

/-- **Runs.** If every call fills a buffer that was there before the run, then the run
returns and leaves these buffers in some state exactly when the run without key pairs
does so and each call has its keys created and its text ended. -/
theorem run_iff (prf : PRF) (world : World) (calls : List (Setting × Call))
    (inside : ∀ call ∈ calls, ∀ i, call.2.buffer? = some i → i < world.heap.buffers.length)
    (seen : Heap) :
    (∃ final, Runs.run (perform prf) world calls = .ok final ∧
        visible world.heap.buffers.length final.heap = seen) ↔
      (∀ call ∈ calls, call.1.Meets prf call.2) ∧
        Runs.run (answer prf) world.heap (calls.map Prod.snd) = .ok seen := by
  have whole : visible world.heap.buffers.length world.heap = world.heap := by
    rw [visible, List.take_length]
  have ran := run_visible_iff prf (Nat.le_refl _) inside seen
  rwa [whole] at ran

/-- Keys that are created, and the bytes given behind printed values. -/
def settingOf (following : Bytes) : Setting := ⟨sdkOf 1 2, zeroParams, blank, following⟩

theorem run_iff_of_two :
    (∀ call ∈ [(settingOf [0], Call.createRsaKeyPair 2), (settingOf [0], .election 9 3 2)],
      ∀ i, call.2.buffer? = some i → i < (worldOf 0 0).heap.buffers.length) ∧
    ∀ seen,
      (∃ final, Runs.run (perform (PRF.returning 7)) (worldOf 0 0)
          [(settingOf [0], .createRsaKeyPair 2), (settingOf [0], .election 9 3 2)] = .ok final ∧
        visible (worldOf 0 0).heap.buffers.length final.heap = seen) ↔
      (∀ call ∈ [(settingOf [0], Call.createRsaKeyPair 2), (settingOf [0], .election 9 3 2)],
        call.1.Meets (PRF.returning 7) call.2) ∧
      Runs.run (answer (PRF.returning 7)) (worldOf 0 0).heap
        ([(settingOf [0], .createRsaKeyPair 2), (settingOf [0], .election 9 3 2)].map Prod.snd) =
          .ok seen := by
  have inside : ∀ call ∈
      [(settingOf [0], Call.createRsaKeyPair 2), (settingOf [0], .election 9 3 2)],
      ∀ i, call.2.buffer? = some i → i < (worldOf 0 0).heap.buffers.length := by
    have three : (worldOf 0 0).heap.buffers.length = 3 := rfl
    simp [Call.buffer?, three]
  exact ⟨inside, run_iff _ _ _ inside⟩

/-- What the calls of a run print. -/
def log (prf : PRF) (calls : List (Setting × Call)) : List String :=
  calls.flatMap fun call => texts prf call.1 call.2

theorem leaves_run {prf : PRF} {world final : World} {calls : List (Setting × Call)}
    (performed : Runs.run (perform prf) world calls = .ok final) :
    Leaves world final (calls.map fun call => call.2.left).sum (log prf calls)
      fun i => ∃ call ∈ calls, call.2.buffer? = some i := by
  induction calls generalizing world with
  | nil =>
      cases performed
      exact ⟨rfl, (List.append_nil _).symm, fun _ _ _ => rfl⟩
  | cons call calls ih =>
      obtain ⟨next, first, rest⟩ := Runs.run_cons_eq_ok_iff.mp performed
      have one := perform_leaves first
      have more := ih rest
      refine ⟨?_, ?_, fun i inside other => ?_⟩
      · rw [more.size, one.size, List.map_cons, List.sum_cons, Nat.add_assoc]
      · rw [more.printed, one.printed, List.append_assoc]
        rfl
      · have still : i < _ := inside.trans_le (Nat.le.intro one.size.symm)
        rw [more.others i still fun ⟨later, member, fills⟩ =>
          other ⟨later, List.mem_cons_of_mem _ member, fills⟩]
        exact one.others i inside fun fills => other ⟨call, List.mem_cons_self, fills⟩

/-- What `ecall_create_rsa_key_pair` copies to the caller. -/
theorem delivered_of_perform {prf : PRF} {setting : Setting} {pkey : Nat} {world next : World}
    (inside : pubkey < world.heap.buffers.length)
    (performed : perform prf world (setting, .createRsaKeyPair pkey) = .ok next) :
    (next.heap.bytesAt pkey).take keySize = (world.heap.bytesAt pubkey).take keySize := by
  obtain ⟨created, heap, -, answered, rfl⟩ := answer_of_perform performed
  have copied := Heap.memcpy_take (by decide) (mapError_eq_ok_iff.mp answered)
  rwa [Heap.bytesAt_append_of_lt inside] at copied

/-- **What a run leaves.** After a run, the buffers that no call has filled are as they
were, and there are six more for each key pair created. If those of the enclave are
among the former, the next public key delivered is what was there before the run. -/
theorem run_leaves (prf : PRF) (world final : World) (calls : List (Setting × Call))
    (apart : ∀ call ∈ calls, call.2.buffer? ≠ some pubkey)
    (inside : pubkey < world.heap.buffers.length)
    (performed : Runs.run (perform prf) world calls = .ok final) :
    (∀ i < world.heap.buffers.length, (∀ call ∈ calls, call.2.buffer? ≠ some i) →
        final.heap.bytesAt i = world.heap.bytesAt i) ∧
      final.heap.buffers.length = world.heap.buffers.length +
        (calls.map fun call => call.2.left).sum ∧
      ∀ setting pkey next, perform prf final (setting, .createRsaKeyPair pkey) = .ok next →
        (next.heap.bytesAt pkey).take keySize = (world.heap.bytesAt pubkey).take keySize := by
  have leaves := leaves_run performed
  refine ⟨fun i below others => leaves.others i below fun ⟨call, member, fills⟩ =>
    others call member fills, leaves.size, fun setting pkey next delivered => ?_⟩
  rw [delivered_of_perform (inside.trans_le (Nat.le.intro leaves.size.symm)) delivered,
    leaves.others pubkey inside fun ⟨call, member, fills⟩ => apart call member fills]

set_option maxRecDepth 4000 in
theorem run_leaves_of_two :
    ∃ final, Runs.run (perform (PRF.returning 7)) (worldOf 0 0)
        [(settingOf [0], .getKey 2), (settingOf [0], .election 9 3 2)] = .ok final ∧
      (∀ i < (worldOf 0 0).heap.buffers.length,
        (∀ call ∈ [(settingOf [0], Call.getKey 2), (settingOf [0], .election 9 3 2)],
          call.2.buffer? ≠ some i) →
        final.heap.bytesAt i = (worldOf 0 0).heap.bytesAt i) ∧
      final.heap.buffers.length = (worldOf 0 0).heap.buffers.length +
        ([(settingOf [0], Call.getKey 2), (settingOf [0], .election 9 3 2)].map
          fun call => call.2.left).sum ∧
      ∀ setting pkey next,
        perform (PRF.returning 7) final (setting, .createRsaKeyPair pkey) = .ok next →
          (next.heap.bytesAt pkey).take keySize =
            ((worldOf 0 0).heap.bytesAt pubkey).take keySize :=
  ⟨_, rfl, run_leaves (PRF.returning 7) (worldOf 0 0) _
    [(settingOf [0], .getKey 2), (settingOf [0], .election 9 3 2)]
    (by simp [Call.buffer?, pubkey]) (by decide) rfl⟩

/-! ## What the prints disclose -/

/-- The same call, in settings that differ in what stands behind values only. -/
structure Alike (first second : Setting × Call) : Prop where
  call : first.2 = second.2
  sdk : first.1.sdk = second.1.sdk

/-- A printed text ends before what stands behind it, or that ends alike. -/
def Undisclosed (prf : PRF) (first second : Setting × Call) : Prop :=
  match first.2 with
  | .test message => 0 ∈ message ∨ leading first.1.following = leading second.1.following
  | .election prfkey numNodes _ => ∀ commitValue,
      Ecall.election prf blank prfkey numNodes = .ok commitValue →
        0 ∈ wordBytes commitValue ∨ leading first.1.following = leading second.1.following
  | _ => True

/-- Printed texts are told apart by their bytes. -/
theorem shown_injective : Function.Injective shown := by
  intro text text' same
  refine List.map_injective_iff.mpr (fun byte byte' equal => ?_) (String.ofList_injective same)
  have value (byte : UInt8) : (Char.ofNat byte.toNat).toNat = byte.toNat := by
    rw [Char.ofNat, dif_pos (.inl (byte.toNat_lt.trans (by decide)))]
    rfl
  rw [← UInt8.toNat_inj, ← value byte, equal, value]

/-- The text ends in front, or goes on behind it. -/
theorem leading_append (front rest : Bytes) :
    leading (front ++ rest) = if 0 ∈ front then leading front else front ++ leading rest := by
  induction front with
  | nil => rfl
  | cons byte front ih =>
      by_cases zero : byte = 0
      · simp [leading, zero]
      · have kept (rest : Bytes) : leading (byte :: rest) = byte :: leading rest :=
          List.takeWhile_cons_of_pos (decide_eq_true zero)
        rw [List.cons_append, kept, kept, ih]
        simp only [List.mem_cons, Ne.symm zero, false_or, List.cons_append]
        split <;> rfl

/-- The text of a value is the same for all that stands behind it, if it ends there. -/
theorem leading_append_eq_iff (front rest rest' : Bytes) :
    leading (front ++ rest) = leading (front ++ rest') ↔
      0 ∈ front ∨ leading rest = leading rest' := by
  rw [leading_append, leading_append]
  by_cases ends : 0 ∈ front
  · rw [if_pos ends, if_pos ends]
    exact iff_of_true rfl (.inl ends)
  · rw [if_neg ends, if_neg ends, or_iff_right ends, List.append_right_inj]

theorem warnings_of_alike {first second : Setting × Call} (alike : Alike first second) :
    warnings first.1 = warnings second.1 := by
  rw [warnings, warnings, alike.sdk]

/-- Two prints of the same call. -/
theorem texts_eq_iff (prf : PRF) {first second : Setting × Call} (alike : Alike first second) :
    texts prf first.1 first.2 = texts prf second.1 second.2 ↔ Undisclosed prf first second := by
  have warned := warnings_of_alike alike
  obtain ⟨setting, call⟩ := first
  obtain ⟨setting', call'⟩ := second
  obtain ⟨rfl, -⟩ := alike
  cases call with
  | test message =>
      simp only [texts, Undisclosed, List.cons.injEq, and_true, shown_injective.eq_iff]
      exact leading_append_eq_iff _ _ _
  | getKey keyout => exact iff_of_true rfl trivial
  | createRsaKeyPair pkey => exact iff_of_true warned trivial
  | election prfkey numNodes output =>
      simp only [texts, Undisclosed, warned, List.append_right_inj]
      cases Ecall.election prf blank prfkey numNodes with
      | error fault => exact iff_of_true rfl nofun
      | ok commitValue =>
          simp only [Except.toOption, Option.map_some, Option.toList_some, List.cons.injEq,
            and_true, shown_injective.eq_iff, Except.ok.injEq, forall_eq']
          exact leading_append_eq_iff _ _ _

/-- Calls that are alike print as many texts. -/
theorem length_texts {prf : PRF} {first second : Setting × Call} (alike : Alike first second) :
    (texts prf first.1 first.2).length = (texts prf second.1 second.2).length := by
  have warned := congrArg List.length (warnings_of_alike alike)
  obtain ⟨setting, call⟩ := first
  obtain ⟨setting', call'⟩ := second
  obtain ⟨rfl, -⟩ := alike
  cases call with
  | test message => rfl
  | getKey keyout => rfl
  | createRsaKeyPair pkey => exact warned
  | election prfkey numNodes output =>
      simp only [texts, List.length_append, Option.length_toList, Option.isSome_map]
      exact congrArg (· + _) warned

/-- Runs print the same texts when every call does. -/
theorem log_eq_iff (prf : PRF) {first second : List (Setting × Call)}
    (alike : List.Forall₂ Alike first second) :
    log prf first = log prf second ↔ List.Forall₂ (Undisclosed prf) first second := by
  induction alike with
  | nil => exact iff_of_true rfl .nil
  | cons call calls ih =>
      rw [List.forall₂_cons, ← ih, ← texts_eq_iff prf call, log, log, List.flatMap_cons,
        List.flatMap_cons]
      constructor
      · exact fun same => List.append_inj same (length_texts call)
      · rintro ⟨now, later⟩
        rw [now]
        exact congrArg _ later

/-- **Disclosure.** Two runs of the same calls, in settings that differ in what stands
behind the values printed, print the same exactly when each printed value has a zero
byte or what stands behind it is the same up to its first zero. -/
theorem printed_eq_iff (prf : PRF) (world final final' : World)
    (calls calls' : List (Setting × Call)) (alike : List.Forall₂ Alike calls calls')
    (performed : Runs.run (perform prf) world calls = .ok final)
    (performed' : Runs.run (perform prf) world calls' = .ok final') :
    final.printed = final'.printed ↔ List.Forall₂ (Undisclosed prf) calls calls' := by
  rw [(leaves_run performed).printed, (leaves_run performed').printed, List.append_right_inj]
  exact log_eq_iff prf alike

set_option maxRecDepth 4000 in
theorem printed_eq_iff_of_two :
    List.Forall₂ Alike [(settingOf [0], .test [65]), (settingOf [0], .election 9 3 2)]
      [(settingOf [66, 0], .test [65]), (settingOf [66, 0], .election 9 3 2)] ∧
    ∃ final final',
      Runs.run (perform (PRF.returning 7)) (worldOf 0 0)
        [(settingOf [0], .test [65]), (settingOf [0], .election 9 3 2)] = .ok final ∧
      Runs.run (perform (PRF.returning 7)) (worldOf 0 0)
        [(settingOf [66, 0], .test [65]), (settingOf [66, 0], .election 9 3 2)] = .ok final' ∧
      (final.printed = final'.printed ↔ List.Forall₂ (Undisclosed (PRF.returning 7))
        [(settingOf [0], .test [65]), (settingOf [0], .election 9 3 2)]
        [(settingOf [66, 0], .test [65]), (settingOf [66, 0], .election 9 3 2)]) :=
  have alike : List.Forall₂ Alike [(settingOf [0], .test [65]), (settingOf [0], .election 9 3 2)]
      [(settingOf [66, 0], .test [65]), (settingOf [66, 0], .election 9 3 2)] :=
    .cons ⟨rfl, rfl⟩ (.cons ⟨rfl, rfl⟩ .nil)
  ⟨alike, _, _, rfl, rfl, printed_eq_iff (PRF.returning 7) (worldOf 0 0) _ _ _ _ alike rfl rfl⟩

end Ssle.Calls
