import Mathlib.Data.List.Basic

/-! # Fields of a delimited list

The fields of a list are the pieces that its separators cut it into, less an
empty last piece: a separator at the very end closes the last field and opens no
other. Pieces free of separators are the fields of the list that they make up
when they are joined (`Ssle.Fields.fields_intercalate`), with or without a
separator at the end.
-/

namespace Ssle.Fields

variable {α : Type*} [DecidableEq α]

/-- The pieces, without an empty last one. -/
def dropEmptyLast : List (List α) → List (List α)
  | [] => []
  | [last] => if last = [] then [] else [last]
  | piece :: next :: pieces => piece :: dropEmptyLast (next :: pieces)

/-- The fields of a list. -/
def fields (separator : α) (xs : List α) : List (List α) :=
  dropEmptyLast (xs.splitOn separator)

@[simp] theorem fields_nil (separator : α) : fields separator [] = [] := rfl

/-- A list without a separator is one field. -/
theorem fields_of_not_mem {separator : α} {xs : List α} (free : separator ∉ xs) (some : xs ≠ []) :
    fields separator xs = [xs] := by
  rw [fields, List.splitOn_eq_singleton free, dropEmptyLast, if_neg some]

/-- The field before the first separator, and the fields after it. -/
theorem fields_append_cons {separator : α} {xs : List α} (free : separator ∉ xs) (rest : List α) :
    fields separator (xs ++ separator :: rest) = xs :: fields separator rest := by
  rw [fields, List.splitOn_append_cons_self_of_not_mem free, fields]
  cases pieces : rest.splitOn separator with
  | nil => exact (List.splitOn_ne_nil separator rest pieces).elim
  | cons next pieces => rfl

/-- The first field goes past elements that are no separators. -/
theorem takeWhile_append_of_not_mem {separator : α} {xs : List α} (free : separator ∉ xs)
    (rest : List α) :
    (xs ++ rest).takeWhile (· ≠ separator) = xs ++ rest.takeWhile (· ≠ separator) := by
  refine List.takeWhile_append_of_pos fun x member => decide_eq_true fun same => free ?_
  rwa [← same]

/-- The first field is all of a list without a separator. -/
theorem takeWhile_of_not_mem {separator : α} {xs : List α} (free : separator ∉ xs) :
    xs.takeWhile (· ≠ separator) = xs := by
  simpa using takeWhile_append_of_not_mem free []

/-- The first field ends at the first separator. -/
theorem takeWhile_append_of_mem {separator : α} {xs : List α} (member : separator ∈ xs)
    (rest : List α) :
    (xs ++ rest).takeWhile (· ≠ separator) = xs.takeWhile (· ≠ separator) := by
  obtain ⟨first, after, rfl, free⟩ := List.eq_append_cons_of_mem member
  rw [List.append_assoc, takeWhile_append_of_not_mem free, takeWhile_append_of_not_mem free]
  simp

/-- The first field reaches to the first separator, or to the end. -/
theorem fields_eq_cons (separator : α) {xs : List α} (some : xs ≠ []) :
    fields separator xs = xs.takeWhile (· ≠ separator) ::
      fields separator (xs.drop ((xs.takeWhile (· ≠ separator)).length + 1)) := by
  by_cases member : separator ∈ xs
  · obtain ⟨first, rest, rfl, free⟩ := List.eq_append_cons_of_mem member
    have reached : (first ++ separator :: rest).takeWhile (· ≠ separator) = first := by
      rw [takeWhile_append_of_not_mem free]
      simp
    have after : (first ++ separator :: rest).drop (first.length + 1) = rest := by
      simp [List.drop_append]
    rw [reached, after, fields_append_cons free]
  · rw [takeWhile_of_not_mem member, List.drop_of_length_le (Nat.le_succ _), fields_nil,
      fields_of_not_mem member some]

/-- **Joining and cutting.** -/
theorem fields_intercalate {separator : α} {pieces : List (List α)}
    (valid : ∀ piece ∈ pieces, separator ∉ piece ∧ piece ≠ []) :
    fields separator ([separator].intercalate pieces) = pieces := by
  induction pieces with
  | nil => rfl
  | cons piece pieces ih =>
      rw [List.forall_mem_cons] at valid
      cases pieces with
      | nil =>
          rw [List.intercalate_singleton]
          exact fields_of_not_mem valid.1.1 valid.1.2
      | cons next pieces =>
          rw [List.intercalate_cons_cons, List.append_assoc, List.singleton_append,
            fields_append_cons valid.1.1, ih valid.2]

/-- A separator at the end opens no field. -/
theorem fields_intercalate_concat {separator : α} {pieces : List (List α)} (some : pieces ≠ [])
    (valid : ∀ piece ∈ pieces, separator ∉ piece) :
    fields separator ([separator].intercalate pieces ++ [separator]) = pieces := by
  induction pieces with
  | nil => exact (some rfl).elim
  | cons piece pieces ih =>
      rw [List.forall_mem_cons] at valid
      cases pieces with
      | nil => rw [List.intercalate_singleton, fields_append_cons valid.1, fields_nil]
      | cons next pieces =>
          rw [List.intercalate_cons_cons, List.append_assoc, List.append_assoc,
            List.singleton_append, fields_append_cons valid.1, ih (List.cons_ne_nil _ _) valid.2]

omit [DecidableEq α] in
/-- No piece is longer than all of them together. -/
theorem length_le_length_intercalate {separator piece : List α} {pieces : List (List α)}
    (member : piece ∈ pieces) : piece.length ≤ (separator.intercalate pieces).length := by
  induction pieces with
  | nil => cases member
  | cons first pieces ih =>
      cases pieces with
      | nil =>
          apply Nat.le_of_eq
          rw [List.intercalate_singleton, List.mem_singleton.mp member]
      | cons next pieces =>
          rw [List.intercalate_cons_cons, List.length_append, List.length_append]
          rcases List.mem_cons.mp member with rfl | later
          · omega
          · have rest := ih later
            omega

end Ssle.Fields
