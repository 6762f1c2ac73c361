import SsleExperiment.Cpp.Basic

/-! # Buffers and pointers

A heap is a list of buffers, and a pointer is `NULL` or the number of a buffer.
`malloc` adds a buffer at the end, and filling a buffer leaves those before and
after it as they were (`Ssle.Heap.store_append`). `memcpy` overwrites the start of a
buffer (`Ssle.Heap.memcpy_spec`).
-/

namespace Ssle

/-- The ways an access through a pointer is undefined. -/
inductive AccessFault where
  | nullPointer
  | outOfBounds
  deriving DecidableEq, Repr

/-- The contents of a buffer. -/
abbrev Bytes := List UInt8

/-- `NULL`, or the number of a buffer. -/
abbrev Pointer := Option Nat

/-- The buffers, in the order of their allocation. -/
structure Heap where
  buffers : List Bytes

namespace Heap

/-- The contents of a buffer, empty if there is none of this number. -/
def bytesAt (heap : Heap) (i : Nat) : Bytes := heap.buffers[i]?.getD []

/-- A new buffer with the bytes given. -/
def allocate (heap : Heap) (bytes : Bytes) : Pointer × Heap :=
  (some heap.buffers.length, ⟨heap.buffers ++ [bytes]⟩)

/-- `malloc`, taken to succeed. The contents of a new buffer are indeterminate; zeros
stand for them. -/
def malloc (heap : Heap) (size : Nat) : Pointer × Heap :=
  heap.allocate (List.replicate size 0)

/-- `free`. No byte of the buffer can be accessed any more. -/
def free (heap : Heap) (i : Nat) : Heap := ⟨heap.buffers.set i []⟩

/-- The first `count` bytes behind a pointer. -/
def load (heap : Heap) (src : Pointer) (count : Nat) : Except AccessFault Bytes :=
  match src with
  | none => .error .nullPointer
  | some i =>
      if count ≤ (heap.bytesAt i).length then .ok ((heap.bytesAt i).take count)
      else .error .outOfBounds

/-- The bytes written behind a pointer. -/
def store (heap : Heap) (dst : Pointer) (bytes : Bytes) : Except AccessFault Heap :=
  match dst with
  | none => .error .nullPointer
  | some i =>
      if bytes.length ≤ (heap.bytesAt i).length then
        .ok ⟨heap.buffers.set i (bytes ++ (heap.bytesAt i).drop bytes.length)⟩
      else .error .outOfBounds

/-- `memcpy`. -/
def memcpy (heap : Heap) (dst src : Pointer) (count : Nat) : Except AccessFault Heap := do
  let bytes ← heap.load src count
  heap.store dst bytes

theorem bytesAt_append_of_eq {front : List Bytes} {i : Nat} (here : i = front.length)
    (bytes : Bytes) (rest : List Bytes) : bytesAt ⟨front ++ bytes :: rest⟩ i = bytes := by
  subst here
  rw [bytesAt, List.getElem?_append_right (Nat.le_refl _), Nat.sub_self]
  rfl

/-- Later buffers do not change earlier ones. -/
theorem bytesAt_append_of_lt {front : List Bytes} {i : Nat} (inside : i < front.length)
    (rest : List Bytes) : bytesAt ⟨front ++ rest⟩ i = bytesAt ⟨front⟩ i := by
  rw [bytesAt, List.getElem?_append_left inside]
  rfl

/-- A buffer with bytes in it is one of the heap's. -/
theorem lt_length_of_bytesAt {heap : Heap} {i : Nat} (some : heap.bytesAt i ≠ []) :
    i < heap.buffers.length := by
  by_contra outside
  rw [bytesAt, List.getElem?_eq_none (Nat.le_of_not_lt outside)] at some
  exact some rfl

/-- A buffer filled from the front. -/
theorem store_append_of_le {front : List Bytes} {i : Nat} (here : i = front.length)
    {old bytes : Bytes} (room : bytes.length ≤ old.length) (rest : List Bytes) :
    store ⟨front ++ old :: rest⟩ (some i) bytes =
      .ok ⟨front ++ (bytes ++ old.drop bytes.length) :: rest⟩ := by
  rw [store, bytesAt_append_of_eq here, if_pos room,
    List.set_append_right _ _ (Nat.le_of_eq here.symm), here, Nat.sub_self]
  rfl

/-- A buffer filled whole. -/
theorem store_append {front : List Bytes} {i : Nat} (here : i = front.length) {old bytes : Bytes}
    (same : bytes.length = old.length) (rest : List Bytes) :
    store ⟨front ++ old :: rest⟩ (some i) bytes = .ok ⟨front ++ bytes :: rest⟩ := by
  rw [store_append_of_le here (Nat.le_of_eq same), same, List.drop_length, List.append_nil]

/-- A copy replaces the buffer it goes to. -/
theorem memcpy_append {front : List Bytes} {dst : Nat} (here : dst = front.length) {old : Bytes}
    {rest : List Bytes} {src : Nat}
    (long : old.length ≤ (bytesAt ⟨front ++ old :: rest⟩ src).length) :
    memcpy ⟨front ++ old :: rest⟩ (some dst) (some src) old.length =
      .ok ⟨front ++ (bytesAt ⟨front ++ old :: rest⟩ src).take old.length :: rest⟩ := by
  rw [memcpy, load, if_pos long, ok_bind, store_append here (List.length_take_of_le long)]

theorem bytesAt_set {heap : Heap} {i : Nat} (inside : i < heap.buffers.length) (bytes : Bytes) :
    bytesAt ⟨heap.buffers.set i bytes⟩ i = bytes := by
  rw [bytesAt, List.getElem?_set_self inside]
  rfl

/-- What is copied stands at the start of the buffer. -/
theorem memcpy_spec {heap : Heap} {dst src count : Nat} (positive : 0 < count)
    (long : count ≤ (heap.bytesAt src).length) (room : count ≤ (heap.bytesAt dst).length) :
    ∃ after, heap.memcpy (some dst) (some src) count = .ok after ∧
      (after.bytesAt dst).take count = (heap.bytesAt src).take count := by
  have size := List.length_take_of_le long
  have inside : dst < heap.buffers.length := by
    apply lt_length_of_bytesAt
    exact List.ne_nil_of_length_pos (Nat.lt_of_lt_of_le positive room)
  refine ⟨⟨heap.buffers.set dst ((heap.bytesAt src).take count ++ (heap.bytesAt dst).drop count)⟩,
    ?_, ?_⟩
  · rw [memcpy, load, if_pos long, ok_bind, store, size, if_pos room]
  · rw [bytesAt_set inside]
    exact List.take_left' size

/-- What has been copied is at both places. -/
theorem memcpy_take {heap after : Heap} {dst src count : Nat} (positive : 0 < count)
    (copied : heap.memcpy (some dst) (some src) count = .ok after) :
    (after.bytesAt dst).take count = (heap.bytesAt src).take count := by
  by_cases long : count ≤ (heap.bytesAt src).length
  · by_cases room : count ≤ (heap.bytesAt dst).length
    · obtain ⟨other, same, copy⟩ := memcpy_spec positive long room
      rw [same] at copied
      cases copied
      exact copy
    · rw [memcpy, load, if_pos long, ok_bind, store, List.length_take_of_le long,
        if_neg room] at copied
      cases copied
  · rw [memcpy, load, if_neg long] at copied
    cases copied

/-- Writing changes one buffer. -/
theorem store_frame {heap after : Heap} {i : Nat} {bytes : Bytes}
    (stored : heap.store (some i) bytes = .ok after) :
    after.buffers.length = heap.buffers.length ∧
      ∀ j, j ≠ i → after.bytesAt j = heap.bytesAt j := by
  rw [store] at stored
  split at stored
  · cases stored
    refine ⟨List.length_set, fun j other => ?_⟩
    rw [bytesAt, List.getElem?_set_ne (Ne.symm other)]
    rfl
  · cases stored

/-- Freeing a buffer leaves the others alone. -/
theorem bytesAt_free {heap : Heap} {i j : Nat} (other : j ≠ i) :
    (heap.free i).bytesAt j = heap.bytesAt j := by
  rw [bytesAt, free, List.getElem?_set_ne (Ne.symm other)]
  rfl

/-- A write changes the size of no buffer. -/
theorem length_bytesAt_store {heap after : Heap} {i : Nat} {bytes : Bytes}
    (stored : heap.store (some i) bytes = .ok after) (j : Nat) :
    (after.bytesAt j).length = (heap.bytesAt j).length := by
  by_cases same : j = i
  · subst same
    rw [store] at stored
    split at stored
    next room =>
      cases stored
      by_cases inside : j < heap.buffers.length
      · rw [bytesAt_set inside, List.length_append, List.length_drop, Nat.add_sub_cancel' room]
      · rw [bytesAt, List.set_eq_of_length_le (Nat.le_of_not_lt inside)]
        rfl
    next => cases stored
  · rw [(store_frame stored).2 j same]

end Heap

end Ssle
