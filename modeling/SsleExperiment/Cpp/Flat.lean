import SsleExperiment.Cpp.Memory

/-! # Flat memory

Memory as a byte at each address, without a division into buffers, so that what is
written past the end of an object is written into what lies behind it. What is
written can be read back, whole or from the front (`Ssle.Flat.read_write`), and
reads from elsewhere do not notice (`Ssle.Flat.KeptOutside.read`).
-/

namespace Ssle

/-- The addresses from one on. -/
structure Span where
  start : Nat
  size : Nat

namespace Span

instance : Membership Nat Span :=
  ⟨fun span address => span.start ≤ address ∧ address < span.start + span.size⟩

instance (address : Nat) (span : Span) : Decidable (address ∈ span) :=
  inferInstanceAs (Decidable (_ ∧ _))

theorem mem_iff {address start size : Nat} :
    address ∈ (⟨start, size⟩ : Span) ↔ start ≤ address ∧ address < start + size := Iff.rfl

/-- No address is in both. -/
def Apart (span other : Span) : Prop := ∀ address ∈ span, address ∉ other

theorem Apart.symm {span other : Span} (apart : span.Apart other) : other.Apart span :=
  fun address inside inside' => apart address inside' inside

end Span

/-- A byte at each address. -/
abbrev Flat := Nat → UInt8

namespace Flat

/-- The bytes of a span. -/
def read (memory : Flat) (span : Span) : Bytes :=
  (List.range span.size).map fun i => memory (span.start + i)

/-- Bytes written from an address on. -/
def write (memory : Flat) (start : Nat) (bytes : Bytes) : Flat := fun address =>
  if start ≤ address then bytes[address - start]?.getD (memory address) else memory address

/-- A write leaves other addresses alone. -/
theorem write_of_not_mem {memory : Flat} {start address : Nat} {bytes : Bytes}
    (outside : address ∉ (⟨start, bytes.length⟩ : Span)) :
    memory.write start bytes address = memory address := by
  rw [Span.mem_iff] at outside
  rw [write]
  split
  next behind =>
    rw [List.getElem?_eq_none (by omega)]
    rfl
  next => rfl

/-- A write stores its bytes in order. -/
theorem write_add {memory : Flat} {start i : Nat} {bytes : Bytes} (inside : i < bytes.length) :
    memory.write start bytes (start + i) = bytes[i] := by
  rw [write, if_pos (Nat.le_add_right start i), Nat.add_sub_cancel_left,
    List.getElem?_eq_getElem inside]
  rfl

theorem read_congr {memory other : Flat} {span : Span}
    (same : ∀ address ∈ span, memory address = other address) :
    memory.read span = other.read span := by
  refine List.map_congr_left fun i below => same _ ⟨Nat.le_add_right _ _, ?_⟩
  exact Nat.add_lt_add_left (List.mem_range.mp below) span.start

/-- No byte outside a span differs. -/
def KeptOutside (span : Span) (before after : Flat) : Prop :=
  ∀ address, address ∉ span → after address = before address

/-- A write keeps what is outside of it. -/
theorem keptOutside_write (memory : Flat) (start : Nat) {size : Nat} {bytes : Bytes}
    (fits : bytes.length = size) : KeptOutside ⟨start, size⟩ memory (memory.write start bytes) :=
  fun _ outside => write_of_not_mem (fits ▸ outside)

/-- A read apart from what has changed is as before. -/
theorem KeptOutside.read {span other : Span} {before after : Flat}
    (kept : KeptOutside span before after) (apart : other.Apart span) :
    after.read other = before.read other :=
  read_congr fun address member => kept address (apart address member)

/-- What is written is read back. -/
theorem read_write {memory : Flat} {start count : Nat} {bytes : Bytes}
    (enough : count ≤ bytes.length) :
    (memory.write start bytes).read ⟨start, count⟩ = bytes.take count := by
  apply List.ext_getElem
  · rw [read, List.length_map, List.length_range, List.length_take_of_le enough]
  · intro i below _
    rw [read, List.length_map, List.length_range] at below
    simp only [read, List.getElem_map, List.getElem_range, List.getElem_take]
    exact write_add (Nat.lt_of_lt_of_le below enough)

end Flat

end Ssle
