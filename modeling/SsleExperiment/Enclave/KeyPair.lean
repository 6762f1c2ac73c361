import SsleExperiment.Cpp.Memory

/-! # The key pair of the enclave

`create_rsa_pair` makes a key pair with three calls of the SDK and copies the key
objects. After a failed call it prints a message and goes on, and it copies into
buffers that it allocates itself, over the pointers it was given, so that the buffers
of the enclave never change (`Ssle.KeyPair.createRsaPair_frame`). Keys are therefore
delivered only if the enclave's buffers held the same bytes before
(`Ssle.KeyPair.deliversKeys_iff`), and a key object that was not created is read through
`NULL` (`Ssle.KeyPair.createRsaPair_of_null`).
-/

namespace Ssle.KeyPair

/-- `RSA_MOD_SIZE`. -/
def rsaModSize : Nat := 256

/-- `KEY_SIZE`. -/
def keySize : Nat := 8

/-- `sgx_status_t`. -/
abbrev Status := UInt32

/-- `SGX_SUCCESS`. -/
def success : Status := 0

/-- The status of a call that failed. -/
structure Failure where
  status : Status
  failed : status ≠ success

/-- The numbers that make up an RSA key pair. -/
structure KeyParams where
  n : Vector UInt8 rsaModSize
  d : Vector UInt8 rsaModSize
  p : Vector UInt8 rsaModSize
  q : Vector UInt8 rsaModSize
  dmp1 : Vector UInt8 rsaModSize
  dmq1 : Vector UInt8 rsaModSize
  iqmp : Vector UInt8 rsaModSize

/-- A key object of the SDK. `KEY_SIZE` bytes can be read from it. -/
structure KeyObject where
  bytes : Bytes
  long : keySize ≤ bytes.length

/-- The leading `KEY_SIZE` bytes. -/
def KeyObject.leading (key : KeyObject) : Bytes := key.bytes.take keySize

/-- The three calls of the SDK. Each sets its output only if it succeeds. -/
structure Sdk where
  sgxCreateRsaKeyPair (nByteSize eByteSize : Nat) (e : Int64) : Except Failure KeyParams
  sgxCreateRsaPriv2Key (modSize expSize : Nat) (e : Int64)
    (p q dmp1 dmq1 iqmp : Vector UInt8 rsaModSize) : Except Failure KeyObject
  sgxCreateRsaPub1Key (modSize expSize : Nat) (n : Vector UInt8 rsaModSize) (e : Int64) :
    Except Failure KeyObject

/-- The status that a call returns. -/
def statusOf {α : Type} : Except Failure α → Status
  | .ok _ => success
  | .error failure => failure.status

/-- The heap, and what `ocall_print` has printed. -/
structure World where
  heap : Heap
  printed : List String

/-- `if (status != SGX_SUCCESS) ocall_print(message)`. -/
def World.check (world : World) (status : Status) (message : String) : World :=
  if status ≠ success then { world with printed := world.printed ++ [message] } else world

/-- The pointer to a created key object, `NULL` if the call failed. -/
def World.create (world : World) : Except Failure KeyObject → Pointer × World
  | .ok key =>
      let (pointer, heap) := world.heap.allocate key.bytes
      (pointer, { world with heap })
  | .error _ => (none, world)

/-- The public exponent. -/
def e : Int64 := 65537

/-- `sizeof(e)`. -/
def eSize : Nat := 8

/-- The bytes of a `long`, the lowest first. -/
def longBytes (value : Int64) : Bytes :=
  (List.range eSize).map fun i => (value.toUInt64 >>> UInt64.ofNat (8 * i)).toUInt8

/-- The end of `create_rsa_pair`, from its first `malloc` on. -/
def copyKeys (n : Vector UInt8 rsaModSize) (publicKey privateKey : Pointer) (heap : Heap) :
    Except AccessFault Heap := do
  let (ocallMod, heap) := heap.malloc rsaModSize
  let (ocallExp, heap) := heap.malloc eSize
  let heap ← heap.store ocallMod n.toList
  let heap ← heap.store ocallExp (longBytes e)
  let (pubk, heap) := heap.malloc keySize
  let (prik, heap) := heap.malloc keySize
  let heap ← heap.memcpy pubk publicKey keySize
  heap.memcpy prik privateKey keySize

namespace Sdk

variable (sdk : Sdk)

/-- The first call of `create_rsa_pair`. -/
def createKeyParams : Except Failure KeyParams :=
  sdk.sgxCreateRsaKeyPair rsaModSize eSize e

/-- The second call. -/
def createPrivateKey (params : KeyParams) : Except Failure KeyObject :=
  sdk.sgxCreateRsaPriv2Key rsaModSize eSize e params.p params.q params.dmp1 params.dmq1
    params.iqmp

/-- The third call. -/
def createPublicKey (params : KeyParams) : Except Failure KeyObject :=
  sdk.sgxCreateRsaPub1Key rsaModSize eSize params.n e

/-- The arrays after the first call: what `stack` held, if it failed. -/
def params (stack : KeyParams) : KeyParams := sdk.createKeyParams.toOption.getD stack

end Sdk

/-- `create_rsa_pair`, with the initial contents of its arrays. The pointers given
are overwritten before they are read. -/
def createRsaPair (sdk : Sdk) (stack : KeyParams) (_pubk _prik : Pointer) (world : World) :
    Except AccessFault (Status × World) := do
  let params := sdk.params stack
  let world := world.check (statusOf sdk.createKeyParams) "Key param generation failed"
  let (privateKey, world) := world.create (sdk.createPrivateKey params)
  let world := world.check (statusOf (sdk.createPrivateKey params))
    "Private key generation failed"
  let (publicKey, world) := world.create (sdk.createPublicKey params)
  let world := world.check (statusOf (sdk.createPublicKey params)) "Public key generation failed"
  let heap ← copyKeys params.n publicKey privateKey world.heap
  return (success, { world with heap })

/-- The global `pubkey` of the enclave. -/
def pubkey : Nat := 0

/-- The global `seckey` of the enclave. -/
def seckey : Nat := 1

/-- `ecall_create_rsa_key_pair`. -/
def ecallCreateRsaKeyPair (sdk : Sdk) (stack : KeyParams) (pkey : Pointer) (world : World) :
    Except AccessFault (Int32 × World) := do
  let (_, world) ← createRsaPair sdk stack (some pubkey) (some seckey) world
  let heap ← world.heap.memcpy pkey (some pubkey) keySize
  return (0, { world with heap })

/-! ## Copying the keys -/

@[simp] theorem length_longBytes (value : Int64) : (longBytes value).length = eSize := by
  rw [longBytes, List.length_map, List.length_range]

/-- The keys are copied into the last two of four new buffers. -/
theorem copyKeys_eq_memcpy (n : Vector UInt8 rsaModSize) (publicKey privateKey : Pointer)
    (front : List Bytes) :
    copyKeys n publicKey privateKey ⟨front⟩ = (do
      let heap ← Heap.memcpy ⟨front ++ [n.toList, longBytes e, List.replicate keySize 0,
        List.replicate keySize 0]⟩ (some (front.length + 2)) publicKey keySize
      heap.memcpy (some (front.length + 3)) privateKey keySize) := by
  have mod := @Heap.store_append front front.length rfl (List.replicate rsaModSize 0) n.toList
    (by simp) [List.replicate eSize 0]
  have exp := @Heap.store_append (front ++ [n.toList]) (front.length + 1) (by simp)
    (List.replicate eSize 0) (longBytes e) (by simp) []
  simp only [List.append_assoc, List.cons_append, List.nil_append] at exp
  simp only [copyKeys, Heap.malloc, Heap.allocate, List.append_assoc, List.cons_append,
    List.nil_append, List.length_append, List.length_cons, List.length_nil, Nat.zero_add,
    Nat.reduceAdd, mod, ok_bind, exp]

/-- The copies fill the buffers allocated for them. -/
theorem copyKeys_eq (n : Vector UInt8 rsaModSize) (front : List Bytes)
    (privateKey publicKey : KeyObject) :
    copyKeys n (some (front.length + 1)) (some front.length)
      ⟨front ++ [privateKey.bytes, publicKey.bytes]⟩ =
    .ok ⟨front ++ [privateKey.bytes, publicKey.bytes, n.toList, longBytes e, publicKey.leading,
      privateKey.leading]⟩ := by
  have readPublic (rest : List Bytes) :
      Heap.bytesAt ⟨front ++ privateKey.bytes :: publicKey.bytes :: rest⟩ (front.length + 1) =
        publicKey.bytes := by
    have read := @Heap.bytesAt_append_of_eq (front ++ [privateKey.bytes]) (front.length + 1)
      (by simp) publicKey.bytes rest
    rwa [List.append_assoc] at read
  have readPrivate (rest : List Bytes) :
      Heap.bytesAt ⟨front ++ privateKey.bytes :: rest⟩ front.length = privateKey.bytes :=
    Heap.bytesAt_append_of_eq rfl _ _
  have pub := @Heap.memcpy_append
    (front ++ [privateKey.bytes, publicKey.bytes, n.toList, longBytes e]) (front.length + 4)
    (by simp) (List.replicate keySize 0) [List.replicate keySize 0] (front.length + 1)
  have pri := @Heap.memcpy_append
    (front ++ [privateKey.bytes, publicKey.bytes, n.toList, longBytes e, publicKey.leading])
    (front.length + 5) (by simp) (List.replicate keySize 0) [] front.length
  simp only [List.append_assoc, List.cons_append, List.nil_append, List.length_replicate,
    readPublic, readPrivate] at pub pri
  simp only [copyKeys_eq_memcpy, List.append_assoc, List.cons_append, List.nil_append,
    List.length_append, List.length_cons, List.length_nil, Nat.zero_add, Nat.reduceAdd,
    Nat.add_assoc]
  rw [pub publicKey.long, ok_bind]
  exact pri privateKey.long

/-- A missing public key is read through a null pointer. -/
theorem copyKeys_null_public (n : Vector UInt8 rsaModSize) (privateKey : Pointer) (heap : Heap) :
    copyKeys n none privateKey heap = .error .nullPointer := by
  rw [copyKeys_eq_memcpy]
  rfl

/-- A missing private key is read through a null pointer. -/
theorem copyKeys_null_private (n : Vector UInt8 rsaModSize) (front : List Bytes)
    (publicKey : KeyObject) :
    copyKeys n (some front.length) none ⟨front ++ [publicKey.bytes]⟩ = .error .nullPointer := by
  have read (rest : List Bytes) :
      Heap.bytesAt ⟨front ++ publicKey.bytes :: rest⟩ front.length = publicKey.bytes :=
    Heap.bytesAt_append_of_eq rfl _ _
  have pub := @Heap.memcpy_append (front ++ [publicKey.bytes, n.toList, longBytes e])
    (front.length + 3) (by simp) (List.replicate keySize 0) [List.replicate keySize 0]
    front.length
  simp only [List.append_assoc, List.cons_append, List.nil_append, List.length_replicate, read]
    at pub
  simp only [copyKeys_eq_memcpy, List.append_assoc, List.cons_append, List.nil_append,
    List.length_append, List.length_cons, List.length_nil, Nat.zero_add, Nat.add_assoc,
    Nat.reduceAdd]
  rw [pub publicKey.long]
  rfl

/-! ## The three calls -/

@[simp] theorem heap_check (world : World) (status : Status) (message : String) :
    (world.check status message).heap = world.heap := by
  unfold World.check
  split <;> rfl

/-- A key object that is not created leaves a null pointer. -/
theorem create_error (world : World) (failure : Failure) :
    world.create (.error failure) = (none, world) := rfl

/-- Both key objects are created: a failed first call does not matter. -/
theorem createRsaPair_of_ok {sdk : Sdk} {stack : KeyParams} {privateKey publicKey : KeyObject}
    (privateOk : sdk.createPrivateKey (sdk.params stack) = .ok privateKey)
    (publicOk : sdk.createPublicKey (sdk.params stack) = .ok publicKey)
    (pubk prik : Pointer) (world : World) :
    ∃ after, createRsaPair sdk stack pubk prik world = .ok (success, after) ∧
      after.heap = ⟨world.heap.buffers ++ [privateKey.bytes, publicKey.bytes,
        (sdk.params stack).n.toList, longBytes e, publicKey.leading, privateKey.leading]⟩ := by
  simp only [createRsaPair, privateOk, publicOk, World.create, Heap.allocate, heap_check,
    List.append_assoc, List.cons_append, List.nil_append, List.length_append, List.length_cons,
    List.length_nil, Nat.zero_add]
  rw [copyKeys_eq]
  exact ⟨_, rfl, rfl⟩

/-- A key object that was not created is read all the same. -/
theorem createRsaPair_of_null {sdk : Sdk} {stack : KeyParams}
    (failed : ∀ privateKey publicKey,
      sdk.createPrivateKey (sdk.params stack) = .ok privateKey →
        sdk.createPublicKey (sdk.params stack) ≠ .ok publicKey)
    (pubk prik : Pointer) (world : World) :
    createRsaPair sdk stack pubk prik world = .error .nullPointer := by
  cases publicCall : sdk.createPublicKey (sdk.params stack) with
  | error failure =>
    simp only [createRsaPair, publicCall, create_error, copyKeys_null_public]
    rfl
  | ok publicKey =>
    cases privateCall : sdk.createPrivateKey (sdk.params stack) with
    | error failure =>
      simp only [createRsaPair, publicCall, privateCall, World.create, Heap.allocate, heap_check,
        copyKeys_null_private]
      rfl
    | ok privateKey => exact absurd publicCall (failed privateKey publicKey privateCall)

/-! ## Delivery -/

/-- All three calls succeed, with these results. -/
structure Sdk.Generates (sdk : Sdk) (params : KeyParams) (privateKey publicKey : KeyObject) :
    Prop where
  params_ok : sdk.createKeyParams = .ok params
  private_ok : sdk.createPrivateKey params = .ok privateKey
  public_ok : sdk.createPublicKey params = .ok publicKey

def Sdk.Succeeds (sdk : Sdk) : Prop :=
  ∃ params privateKey publicKey, sdk.Generates params privateKey publicKey

/-- The buffers of the enclave, and the buffer for the caller behind `pkey`. -/
structure Layout (heap : Heap) (pkey : Nat) : Prop where
  length_pubkey : (heap.bytesAt pubkey).length = 256
  length_seckey : (heap.bytesAt seckey).length = 256
  length_pkey : (heap.bytesAt pkey).length = 256
  apart : seckey < pkey

namespace Layout

variable {heap : Heap} {pkey : Nat} (layout : Layout heap pkey)

include layout

theorem pkey_lt : pkey < heap.buffers.length := by
  apply Heap.lt_length_of_bytesAt
  apply List.ne_nil_of_length_pos
  rw [layout.length_pkey]
  decide

theorem seckey_lt : seckey < heap.buffers.length := Nat.lt_trans layout.apart layout.pkey_lt

theorem pubkey_lt : pubkey < heap.buffers.length :=
  Nat.lt_trans (by decide) layout.seckey_lt

end Layout

/-- `create_rsa_pair` with `status` and `ecall_create_rsa_key_pair` with `code` deliver
the keys, or the first reports the failure and the buffers are left intact. -/
structure Delivery (sdk : Sdk) (world : World) (pkey : Nat) (status : Status) (after : World)
    (code : Int32) (returned : World) : Prop where
  status_eq : status = success ↔ sdk.Succeeds
  delivered : ∀ params privateKey publicKey, sdk.Generates params privateKey publicKey →
    (after.heap.bytesAt pubkey).take keySize = publicKey.leading ∧
    (after.heap.bytesAt seckey).take keySize = privateKey.leading ∧
    code = 0 ∧ (returned.heap.bytesAt pkey).take keySize = publicKey.leading
  intact : ¬ sdk.Succeeds → ∀ i ∈ [pubkey, seckey, pkey],
    after.heap.bytesAt i = world.heap.bytesAt i ∧ returned.heap.bytesAt i = world.heap.bytesAt i

/-- Neither function reads through `NULL`, and the keys are delivered or the buffers
left intact. -/
def DeliversKeys (sdk : Sdk) (stack : KeyParams) (world : World) (pkey : Nat) : Prop :=
  ∃ status after code returned,
    createRsaPair sdk stack (some pubkey) (some seckey) world = .ok (status, after) ∧
    ecallCreateRsaKeyPair sdk stack (some pkey) world = .ok (code, returned) ∧
    Delivery sdk world pkey status after code returned

/-- What the SDK generates does not depend on the stack. -/
theorem Sdk.Generates.params_eq {sdk : Sdk} {params : KeyParams} {privateKey publicKey : KeyObject}
    (generates : sdk.Generates params privateKey publicKey) (stack : KeyParams) :
    sdk.params stack = params := by
  rw [Sdk.params, generates.params_ok]
  rfl

/-- The SDK generates one key pair. -/
theorem Sdk.Generates.unique {sdk : Sdk} {params params' : KeyParams}
    {privateKey publicKey privateKey' publicKey' : KeyObject}
    (generates : sdk.Generates params privateKey publicKey)
    (generates' : sdk.Generates params' privateKey' publicKey') :
    privateKey = privateKey' ∧ publicKey = publicKey' := by
  have same := Except.ok.inj (generates.params_ok.symm.trans generates'.params_ok)
  subst same
  exact ⟨Except.ok.inj (generates.private_ok.symm.trans generates'.private_ok),
    Except.ok.inj (generates.public_ok.symm.trans generates'.public_ok)⟩

/-- If `create_rsa_pair` returns at all, then it returns `SGX_SUCCESS`, and every buffer
that was there is as it was. -/
theorem createRsaPair_frame {sdk : Sdk} {stack : KeyParams} {pubk prik : Pointer}
    {world after : World} {status : Status}
    (returns : createRsaPair sdk stack pubk prik world = .ok (status, after)) :
    status = success ∧ ∀ i < world.heap.buffers.length,
      after.heap.bytesAt i = world.heap.bytesAt i := by
  by_cases created : ∃ privateKey publicKey,
      sdk.createPrivateKey (sdk.params stack) = .ok privateKey ∧
        sdk.createPublicKey (sdk.params stack) = .ok publicKey
  · obtain ⟨privateKey, publicKey, privateOk, publicOk⟩ := created
    obtain ⟨after', returns', heap_eq⟩ := createRsaPair_of_ok privateOk publicOk pubk prik world
    rw [returns] at returns'
    cases returns'
    refine ⟨rfl, fun i inside => ?_⟩
    rw [heap_eq]
    exact Heap.bytesAt_append_of_lt inside _
  · have failed : ∀ privateKey publicKey,
        sdk.createPrivateKey (sdk.params stack) = .ok privateKey →
          sdk.createPublicKey (sdk.params stack) ≠ .ok publicKey :=
      fun privateKey publicKey privateOk publicOk =>
        created ⟨privateKey, publicKey, privateOk, publicOk⟩
    rw [createRsaPair_of_null failed] at returns
    cases returns

/-- The copy for the caller, after the keys were copied elsewhere. -/
theorem ecallCreateRsaKeyPair_spec {sdk : Sdk} {stack : KeyParams} {world after : World}
    {status : Status} {pkey : Nat} (layout : Layout world.heap pkey)
    (returns : createRsaPair sdk stack (some pubkey) (some seckey) world = .ok (status, after)) :
    ∃ returned, ecallCreateRsaKeyPair sdk stack (some pkey) world = .ok (0, returned) ∧
      (returned.heap.bytesAt pkey).take keySize = (world.heap.bytesAt pubkey).take keySize := by
  obtain ⟨-, same⟩ := createRsaPair_frame returns
  have pubkey_eq : after.heap.bytesAt pubkey = world.heap.bytesAt pubkey :=
    same pubkey layout.pubkey_lt
  have pkey_eq : after.heap.bytesAt pkey = world.heap.bytesAt pkey := same pkey layout.pkey_lt
  have long : keySize ≤ (after.heap.bytesAt pubkey).length := by
    rw [pubkey_eq, layout.length_pubkey]
    decide
  have room : keySize ≤ (after.heap.bytesAt pkey).length := by
    rw [pkey_eq, layout.length_pkey]
    decide
  obtain ⟨heap, copied, copy⟩ := Heap.memcpy_spec (by decide) long room
  refine ⟨{ after with heap }, ?_, ?_⟩
  · simp only [ecallCreateRsaKeyPair, returns, ok_bind, copied]
    rfl
  · rw [← pubkey_eq]
    exact copy

/-- The keys are delivered exactly when they were in the buffers of the enclave
before. -/
theorem deliversKeys_iff (sdk : Sdk) (stack : KeyParams) (world : World) (pkey : Nat)
    (layout : Layout world.heap pkey) :
    DeliversKeys sdk stack world pkey ↔ ∃ params privateKey publicKey,
      sdk.Generates params privateKey publicKey ∧
      (world.heap.bytesAt pubkey).take keySize = publicKey.leading ∧
      (world.heap.bytesAt seckey).take keySize = privateKey.leading := by
  constructor
  · rintro ⟨status, after, code, returned, returns, -, delivery⟩
    obtain ⟨status_success, same⟩ := createRsaPair_frame returns
    obtain ⟨params, privateKey, publicKey, generates⟩ := delivery.status_eq.mp status_success
    obtain ⟨publicHeld, privateHeld, -, -⟩ := delivery.delivered _ _ _ generates
    refine ⟨params, privateKey, publicKey, generates, ?_, ?_⟩
    · rw [← same pubkey layout.pubkey_lt]
      exact publicHeld
    · rw [← same seckey layout.seckey_lt]
      exact privateHeld
  · rintro ⟨params, privateKey, publicKey, generates, publicHeld, privateHeld⟩
    have params_eq := generates.params_eq stack
    obtain ⟨after, returns, -⟩ := createRsaPair_of_ok
      (params_eq.symm ▸ generates.private_ok) (params_eq.symm ▸ generates.public_ok)
      (some pubkey) (some seckey) world
    obtain ⟨-, same⟩ := createRsaPair_frame returns
    obtain ⟨returned, ecallReturns, copy⟩ := ecallCreateRsaKeyPair_spec layout returns
    have succeeds : sdk.Succeeds := ⟨params, privateKey, publicKey, generates⟩
    refine ⟨success, after, 0, returned, returns, ecallReturns,
      ⟨iff_of_true rfl succeeds, ?_, fun fails => absurd succeeds fails⟩⟩
    intro params' privateKey' publicKey' generates'
    obtain ⟨rfl, rfl⟩ := generates.unique generates'
    refine ⟨?_, ?_, rfl, copy.trans publicHeld⟩
    · rw [same pubkey layout.pubkey_lt]
      exact publicHeld
    · rw [same seckey layout.seckey_lt]
      exact privateHeld

def zeroParams : KeyParams where
  n := Vector.replicate _ 0
  d := Vector.replicate _ 0
  p := Vector.replicate _ 0
  q := Vector.replicate _ 0
  dmp1 := Vector.replicate _ 0
  dmq1 := Vector.replicate _ 0
  iqmp := Vector.replicate _ 0

/-- A key object of equal bytes. -/
def keyOf (byte : UInt8) : KeyObject := ⟨List.replicate keySize byte, by simp⟩

/-- An SDK whose calls all succeed. -/
def sdkOf (privateByte publicByte : UInt8) : Sdk where
  sgxCreateRsaKeyPair _ _ _ := .ok zeroParams
  sgxCreateRsaPriv2Key _ _ _ _ _ _ _ _ := .ok (keyOf privateByte)
  sgxCreateRsaPub1Key _ _ _ _ := .ok (keyOf publicByte)

/-- The buffers of the enclave filled with one byte each, and a buffer for the caller. -/
def worldOf (secretByte publicByte : UInt8) : World where
  heap := ⟨[List.replicate 256 publicByte, List.replicate 256 secretByte, List.replicate 256 0]⟩
  printed := []

/-- An SDK that generates the keys of the two bytes. -/
theorem sdkOf_generates (privateByte publicByte : UInt8) :
    (sdkOf privateByte publicByte).Generates zeroParams (keyOf privateByte) (keyOf publicByte) :=
  ⟨rfl, rfl, rfl⟩

/-- The buffers of the caller are apart. -/
theorem layout_worldOf (secretByte publicByte : UInt8) :
    Layout (worldOf secretByte publicByte).heap 2 where
  length_pubkey := List.length_replicate
  length_seckey := List.length_replicate
  length_pkey := List.length_replicate
  apart := by decide

theorem deliversKeys_iff_of_same :
    Layout (worldOf 1 2).heap 2 ∧ DeliversKeys (sdkOf 1 2) zeroParams (worldOf 1 2) 2 := by
  refine ⟨layout_worldOf 1 2, ?_⟩
  apply (deliversKeys_iff (sdkOf 1 2) zeroParams (worldOf 1 2) 2 (layout_worldOf 1 2)).mpr
  exact ⟨zeroParams, keyOf 1, keyOf 2, sdkOf_generates 1 2, by decide, by decide⟩

/-- Every call succeeds, and the key does not arrive. -/
theorem undelivered_key :
    Layout (worldOf 0 0).heap 2 ∧ (sdkOf 1 2).Succeeds ∧
      ¬ DeliversKeys (sdkOf 1 2) zeroParams (worldOf 0 0) 2 := by
  refine ⟨layout_worldOf 0 0, ⟨_, _, _, sdkOf_generates 1 2⟩, ?_⟩
  rintro ⟨status, after, code, returned, returns, -, delivery⟩
  obtain ⟨-, same⟩ := createRsaPair_frame returns
  obtain ⟨held, -⟩ := delivery.delivered _ _ _ (sdkOf_generates 1 2)
  rw [same pubkey (by decide)] at held
  revert held
  decide

end Ssle.KeyPair
