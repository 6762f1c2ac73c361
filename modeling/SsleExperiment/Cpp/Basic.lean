import Mathlib.Data.List.Basic

/-! # Calls that may not return

The program is C++: a signed remainder, an access to a `std::vector`, an
`assert` or a call into the standard library can leave defined behaviour or
throw. A modelled call that can do so returns `Except Fault`, and the
operations that decide it (`Ssle.intRem`, `Ssle.storeAt`, `Ssle.Str.erase`)
are stated here once.
-/

namespace Ssle

/-- A `std::string`, as the list of its characters. -/
abbrev Str := List Char

/-- The ways a call ends without returning: undefined behaviour, a failed
assertion, an exception of the standard library, or a loop that does not end. -/
inductive Fault where
  | remainderByZero
  | remainderOverflow
  | signedOverflow
  | indexOutOfRange
  | bufferOverread
  | assertionFailed
  | outOfRange
  | invalidArgument
  | lengthError
  | endlessLoop
  deriving DecidableEq, Repr

@[simp] theorem ok_bind {ε α β : Type} (value : α) (rest : α → Except ε β) :
    (Except.ok value >>= rest) = rest value := rfl

@[simp] theorem error_bind {ε α β : Type} (fault : ε) (rest : α → Except ε β) :
    (Except.error fault >>= rest) = .error fault := rfl

/-- Both parts of a computation that returns have returned. -/
theorem bind_eq_ok_iff {ε α β : Type} {first : Except ε α} {rest : α → Except ε β} {value : β} :
    (first >>= rest) = .ok value ↔ ∃ middle, first = .ok middle ∧ rest middle = .ok value := by
  cases first with
  | error fault => exact iff_of_false nofun fun ⟨_, impossible, _⟩ => nomatch impossible
  | ok middle => simp

/-- Renaming faults does not change what returns. -/
theorem mapError_eq_ok_iff {ε ε' α : Type} {f : ε → ε'} {result : Except ε α} {value : α} :
    result.mapError f = .ok value ↔ result = .ok value := by
  cases result with
  | error fault => exact iff_of_false nofun nofun
  | ok other => rw [Except.mapError, Except.ok.injEq, Except.ok.injEq]

/-- Faults and results are mapped apart from each other. -/
theorem mapError_map {ε ε' α β : Type} (f : ε → ε') (g : α → β) (result : Except ε α) :
    (result.map g).mapError f = (result.mapError f).map g := by
  cases result <;> rfl

/-- `a % b` on `int`: undefined for a zero divisor and for `INT_MIN % -1`,
otherwise the remainder of the division rounded toward zero. -/
def intRem (a b : Int32) : Except Fault Int32 :=
  if b = 0 then .error .remainderByZero
  else if a = Int32.minValue ∧ b = -1 then .error .remainderOverflow
  else .ok (a % b)

/-- A remainder is defined for a divisor other than zero, unless the quotient overflows.
-/
theorem intRem_eq_ok_iff {a b r : Int32} :
    intRem a b = .ok r ↔ (b ≠ 0 ∧ ¬ (a = Int32.minValue ∧ b = -1)) ∧ a % b = r := by
  unfold intRem
  split_ifs with zero overflow
  · simp [zero]
  · simp [overflow]
  · simp [zero, overflow]

/-- `values[i] = value` on a `std::vector`, undefined outside its size. -/
def storeAt {α : Type*} (values : List α) (i : Nat) (value : α) : Except Fault (List α) :=
  if i < values.length then .ok (values.set i value) else .error .indexOutOfRange

/-- Storing into every index below `count`, in order, replaces the first
`count` entries and keeps the others, if there are that many. -/
theorem foldlM_storeAt {α : Type*} (entry : Nat → α) (values : List α) (count : Nat) :
    (List.range count).foldlM (fun stored i => storeAt stored i (entry i)) values =
      if count ≤ values.length then .ok ((List.range count).map entry ++ values.drop count)
      else .error .indexOutOfRange := by
  induction count with
  | zero => rfl
  | succ count ih =>
      rw [List.range_succ, List.foldlM_append, ih]
      by_cases earlier : count ≤ values.length
      · have size : ((List.range count).map entry ++ values.drop count).length =
            values.length := by
          rw [List.length_append, List.length_map, List.length_range, List.length_drop]
          omega
        rw [if_pos earlier]
        change (storeAt _ count (entry count) >>= pure) = _
        rw [bind_pure, storeAt, size]
        by_cases inside : count < values.length
        · rw [if_pos inside, if_pos (Nat.succ_le_of_lt inside),
            List.set_append_right _ _ (by simp)]
          simp only [List.length_map, List.length_range, Nat.sub_self, List.map_append,
            List.map_singleton, List.append_assoc, List.singleton_append]
          rw [List.drop_eq_getElem_cons inside, List.set_cons_zero]
        · rw [if_neg inside, if_neg (by omega)]
      · rw [if_neg earlier, if_neg (by omega)]
        rfl

/-- A loop whose steps all return, returns. -/
theorem mapM_eq_ok {α β : Type*} {f : α → Except Fault β} {g : α → β} {xs : List α}
    (returns : ∀ x ∈ xs, f x = .ok (g x)) : xs.mapM f = .ok (xs.map g) := by
  induction xs with
  | nil => rfl
  | cons x xs ih =>
      rw [List.forall_mem_cons] at returns
      rw [List.mapM_cons, returns.1, ih returns.2]
      rfl

/-- `s.erase(pos)`, which throws when `pos` lies past the end. -/
def Str.erase (s : Str) (pos : Nat) : Except Fault Str :=
  if pos ≤ s.length then .ok (s.take pos) else .error .outOfRange

/-- `s.erase(pos, count)`. -/
def Str.eraseSpan (s : Str) (pos count : Nat) : Except Fault Str :=
  if pos ≤ s.length then .ok (s.take pos ++ s.drop (pos + count)) else .error .outOfRange

end Ssle
