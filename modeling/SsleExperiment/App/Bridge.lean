import Mathlib.Data.Nat.Digits.Defs
import SsleExperiment.Cpp.Flat
import SsleExperiment.Enclave.Calls

/-! # The bridge into the enclave

The host calls the enclave through a bridge that is generated from `Enclave.edl`. For
each buffer that is handed over, `Enclave.edl` says how many bytes are copied, into the
enclave before the call (`in`) or back into the host after it (`out`), and this need not
be the size of what the pointer of the host points to. A buffer that is copied back is
zero when the enclave gets it, and freed in the end. The key that `ecall_get_key` writes
takes eight bytes, but `Enclave.edl` says 256, so the host gets 248 zeros behind its key
(`Ssle.Bridge.enter_getKey`).
-/

namespace Ssle.Bridge

open Calls KeyPair SSLEObfuscation

/-- The memory of the host, and what the enclave has and has printed. -/
structure Sides where
  host : Flat
  enclave : World

/-- A `uint64_t` in memory, the lowest byte first. -/
def wordOf (bytes : Bytes) : UInt64 :=
  UInt64.ofNat (Nat.ofDigits (2 ^ 8) (bytes.map UInt8.toNat))

/-- A call of a function of the enclave with a buffer of its own, whose bytes are
returned. -/
def enter (prf : PRF) (setting : Setting) (size : Nat) (call : Nat → Calls.Call)
    (world : World) : Except Crash (Bytes × World) := do
  let buffer := world.heap.buffers.length
  let entered := { world with heap := (world.heap.malloc size).2 }
  let left ← Calls.perform prf entered (setting, call buffer)
  return (left.heap.bytesAt buffer, { left with heap := left.heap.free buffer })

/-- A call with one buffer, which is copied back. Without a setting, the bridge refuses
the call. A fault in the enclave is a fault of the run: what the SDK makes of it is not
modelled. -/
def copyBack (prf : PRF) (entered : Option Setting) (span : Span) (call : Nat → Calls.Call)
    (sides : Sides) : Except Crash Sides :=
  match entered with
  | none => .ok sides
  | some setting => do
    let (bytes, enclave) ← enter prf setting span.size call sides.enclave
    return ⟨sides.host.write span.start bytes, enclave⟩

/-- `ecall_get_key` of the host. -/
def ecallGetKey (prf : PRF) (entered : Option Setting) (keyout : Nat) (sides : Sides) :
    Except Crash Sides :=
  copyBack prf entered ⟨keyout, 256⟩ .getKey sides

/-- `ecall_create_rsa_key_pair` of the host. -/
def ecallCreateRsaKeyPair (prf : PRF) (entered : Option Setting) (pkey : Nat) (sides : Sides) :
    Except Crash Sides :=
  copyBack prf entered ⟨pkey, 256⟩ .createRsaKeyPair sides

/-- `ecall_election` of the host, with no result if the bridge refuses the call. The
enclave writes nothing to the buffer of `encryptedData`, and of the eight bytes that the
bridge copies for `participants` it reads the `int` in front. -/
def ecallElection (prf : PRF) (entered : Option Setting) (prfkey : Nat) (participants : Int32)
    (output encryptedData : Nat) (sides : Sides) : Except Crash (Option Sides) :=
  match entered with
  | none => .ok none
  | some setting => do
    let key := wordOf (sides.host.read ⟨prfkey, 8⟩)
    let (bytes, enclave) ← enter prf setting 8 (.election key participants) sides.enclave
    let host := sides.host.write output bytes
    return some ⟨host.write encryptedData (List.replicate 8 0), enclave⟩

/-! ## Words in memory -/

/-- A word is read back from its bytes. -/
theorem wordOf_wordBytes (value : UInt64) : wordOf (wordBytes value) = value := by
  have low := value.toNat_lt
  have same : Nat.ofDigits (2 ^ 8) ((wordBytes value).map UInt8.toNat) = value.toNat := by
    change Nat.ofDigits (2 ^ 8) [value.toNat >>> 0 % 2 ^ 8, value.toNat >>> 8 % 2 ^ 8,
      value.toNat >>> 16 % 2 ^ 8, value.toNat >>> 24 % 2 ^ 8, value.toNat >>> 32 % 2 ^ 8,
      value.toNat >>> 40 % 2 ^ 8, value.toNat >>> 48 % 2 ^ 8,
      value.toNat >>> 56 % 2 ^ 8] = value.toNat
    simp only [Nat.ofDigits_cons, Nat.ofDigits_nil, Nat.shiftRight_eq_div_pow]
    omega
  rw [wordOf, same, UInt64.ofNat_toNat]

theorem length_wordBytes (value : UInt64) : (wordBytes value).length = 8 := length_longBytes _

/-! ## One call -/

/-- The key that every enclave issues. -/
def issuedKey (prf : PRF) : UInt64 := (getKey prf (fresh blank)).1

/-- The global `pubkey` is there. -/
def Loaded (world : World) : Prop := (world.heap.bytesAt pubkey).length = 256

section Enter

variable {prf : PRF} {setting : Setting} {size : Nat} {call : Nat → Calls.Call}
  {world after : World} {bytes : Bytes}

/-- The key buffer of a loaded enclave is on its heap. -/
theorem Loaded.lt (loaded : Loaded world) : pubkey < world.heap.buffers.length := by
  apply Heap.lt_length_of_bytesAt
  apply List.ne_nil_of_length_pos
  rw [loaded]
  decide

/-- A call returns when it does in the enclave, on a fresh buffer. -/
theorem enter_eq_ok_iff :
    enter prf setting size call world = .ok (bytes, after) ↔
      ∃ left, Calls.perform prf { world with heap := (world.heap.malloc size).2 }
          (setting, call world.heap.buffers.length) = .ok left ∧
        left.heap.bytesAt world.heap.buffers.length = bytes ∧
        { left with heap := left.heap.free world.heap.buffers.length } = after := by
  rw [enter, bind_eq_ok_iff]
  refine exists_congr fun left => and_congr_right fun _ => ?_
  change Except.ok (_, _) = Except.ok (_, _) ↔ _
  rw [Except.ok.injEq, Prod.mk.injEq]

/-- A call that returns has met what it needs. -/
theorem meets_of_enter (returned : enter prf setting size call world = .ok (bytes, after)) :
    setting.Meets prf (call world.heap.buffers.length) := by
  obtain ⟨left, performed, -⟩ := enter_eq_ok_iff.mp returned
  exact meets_of_perform performed

/-- The fresh buffer is zero. -/
theorem bytesAt_malloc (world : World) (size : Nat) :
    (world.heap.malloc size).2.bytesAt world.heap.buffers.length = List.replicate size 0 :=
  Heap.bytesAt_append_of_eq rfl _ []

/-- The bridge copies back as many bytes as there are in its buffer. -/
theorem length_of_enter (returned : enter prf setting size call world = .ok (bytes, after)) :
    bytes.length = size := by
  obtain ⟨left, performed, rfl, -⟩ := enter_eq_ok_iff.mp returned
  have here : world.heap.buffers.length < (world.heap.malloc size).2.buffers.length := by
    simp [Heap.malloc, Heap.allocate]
  rw [length_bytesAt_perform performed here, bytesAt_malloc, List.length_replicate]

/-- The buffers of the enclave stand in front of the one of the bridge. -/
theorem Loaded.malloc (loaded : Loaded world) (size : Nat) (created : List Bytes) :
    (Heap.bytesAt ⟨(world.heap.malloc size).2.buffers ++ created⟩ pubkey).length = 256 := by
  rw [Heap.malloc, Heap.allocate, List.append_assoc, Heap.bytesAt_append_of_lt loaded.lt]
  exact loaded

/-- A loaded enclave stays loaded. -/
theorem Loaded.enter (loaded : Loaded world)
    (returned : enter prf setting size call world = .ok (bytes, after)) : Loaded after := by
  obtain ⟨left, performed, -, rfl⟩ := enter_eq_ok_iff.mp returned
  have there := loaded.malloc size []
  rw [List.append_nil] at there
  have kept : pubkey < (world.heap.malloc size).2.buffers.length := by
    apply Heap.lt_length_of_bytesAt
    exact List.ne_nil_of_length_pos (there ▸ by decide)
  rw [Loaded, Heap.bytesAt_free loaded.lt.ne, length_bytesAt_perform performed kept]
  exact there

end Enter

/-- The host gets the key, and zeros behind it. -/
theorem enter_getKey (prf : PRF) (setting : Setting) (world : World) :
    ∃ after, enter prf setting 256 .getKey world =
      .ok (wordBytes (issuedKey prf) ++ List.replicate 248 0, after) := by
  have meets : setting.Meets prf (.getKey world.heap.buffers.length) := trivial
  obtain ⟨created, none, performed⟩ :=
    perform_of_meets prf meets { world with heap := (world.heap.malloc 256).2 }
  rw [List.eq_nil_of_length_eq_zero none, List.append_nil] at performed
  have room : (wordBytes (issuedKey prf)).length ≤ (List.replicate 256 (0 : UInt8)).length := by
    rw [length_wordBytes, List.length_replicate]
    decide
  have stored := @Heap.store_append_of_le world.heap.buffers _ rfl _ _ room []
  rw [length_wordBytes, List.drop_replicate] at stored
  rw [answer, ← issuedKey] at performed
  simp only [Heap.malloc, Heap.allocate, stored] at performed
  exact ⟨_, enter_eq_ok_iff.mpr ⟨_, performed, Heap.bytesAt_append_of_eq rfl _ _, rfl⟩⟩

/-- A key pair that the SDK creates is returned. -/
theorem exists_enter_keyPair (prf : PRF) {setting : Setting} (creates : setting.Creates)
    {world : World} (loaded : Loaded world) :
    ∃ bytes after, enter prf setting 256 .createRsaKeyPair world = .ok (bytes, after) := by
  have meets : setting.Meets prf (.createRsaKeyPair world.heap.buffers.length) := creates
  obtain ⟨created, -, performed⟩ :=
    perform_of_meets prf meets { world with heap := (world.heap.malloc 256).2 }
  have long : keySize ≤ (Heap.bytesAt ⟨(world.heap.malloc 256).2.buffers ++ created⟩
      pubkey).length := by
    rw [loaded.malloc]
    decide
  have room : keySize ≤ (Heap.bytesAt ⟨(world.heap.malloc 256).2.buffers ++ created⟩
      world.heap.buffers.length).length := by
    rw [Heap.malloc, Heap.allocate, List.append_assoc, List.singleton_append,
      Heap.bytesAt_append_of_eq rfl, List.length_replicate]
    decide
  obtain ⟨after, copied, -⟩ := Heap.memcpy_spec (by decide) long room
  rw [answer, copied] at performed
  exact ⟨_, _, enter_eq_ok_iff.mpr ⟨_, performed, rfl, rfl⟩⟩

/-- The host gets the value that the election releases. -/
theorem enter_election (prf : PRF) {setting : Setting} {key commitValue : UInt64}
    {participants : Int32} {world : World}
    (meets : setting.Meets prf (.election key participants world.heap.buffers.length))
    (elected : Ecall.election prf blank key participants = .ok commitValue) :
    ∃ after, enter prf setting 8 (.election key participants) world =
      .ok (wordBytes commitValue, after) := by
  obtain ⟨created, -, performed⟩ :=
    perform_of_meets prf meets { world with heap := (world.heap.malloc 8).2 }
  have whole : (wordBytes commitValue).length = (List.replicate 8 (0 : UInt8)).length := by
    rw [length_wordBytes, List.length_replicate]
  have stored := @Heap.store_append world.heap.buffers _ rfl _ _ whole created
  rw [answer, elected] at performed
  simp only [Heap.malloc, Heap.allocate, List.append_assoc, List.singleton_append,
    Except.mapError, ok_bind, stored] at performed
  exact ⟨_, enter_eq_ok_iff.mpr ⟨_, performed, Heap.bytesAt_append_of_eq rfl _ _, rfl⟩⟩

end Ssle.Bridge
