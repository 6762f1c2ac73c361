import Mathlib.Data.List.Basic
import Mathlib.Tactic.Linarith

/-! # Encoders and the distance of what they emit

An encoder emits a word of fixed width for each input. If any two windows of
inputs that start differently are emitted at some distance, from every state,
then so are any two input sequences that differ before their last window
(`Ssle.Encoder.separated`). A sequence nearest to a received word therefore
agrees there with every sequence emitted close to it
(`Ssle.Encoder.take_eq_of_near`).
-/

namespace Ssle

/-- The number of positions at which two lists differ. -/
def mismatches {β : Type*} [DecidableEq β] : List β → List β → Nat
  | a :: x, b :: y => (if a = b then 0 else 1) + mismatches x y
  | _, _ => 0

section Mismatches

variable {β : Type*} [DecidableEq β]

@[simp] theorem mismatches_self (x : List β) : mismatches x x = 0 := by
  induction x with
  | nil => rfl
  | cons a x ih => simp [mismatches, ih]

theorem mismatches_comm (x y : List β) : mismatches x y = mismatches y x := by
  induction x generalizing y with
  | nil => cases y <;> rfl
  | cons a x ih =>
      cases y with
      | nil => rfl
      | cons b y => simp only [mismatches, ih y, eq_comm]

/-- There are at most as many mismatches as elements. -/
theorem mismatches_le_length (x y : List β) : mismatches x y ≤ y.length := by
  induction x generalizing y with
  | nil => simp [mismatches]
  | cons a x ih =>
      cases y with
      | nil => simp [mismatches]
      | cons b y =>
          have rest := ih y
          simp only [mismatches, List.length_cons]
          split <;> omega

/-- Changing one element makes at most one mismatch. -/
theorem mismatches_modify_le (x : List β) (k : Nat) (f : β → β) :
    mismatches (x.modify k f) x ≤ 1 := by
  induction x generalizing k with
  | nil => simp
  | cons a x ih =>
      cases k with
      | zero =>
          rw [List.modify_zero_cons, mismatches, mismatches_self]
          split <;> omega
      | succ k =>
          rw [List.modify_succ_cons, mismatches, if_pos rfl, Nat.zero_add]
          exact ih k

/-- A change of one element is one mismatch. -/
theorem mismatches_modify {f : β → β} (changes : ∀ a, f a ≠ a) {x : List β} {k : Nat}
    (inside : k < x.length) : mismatches (x.modify k f) x = 1 := by
  induction x generalizing k with
  | nil => exact (Nat.not_lt_zero k inside).elim
  | cons a x ih =>
      cases k with
      | zero => rw [List.modify_zero_cons, mismatches, mismatches_self, if_neg (changes a)]
      | succ k =>
          rw [List.modify_succ_cons, mismatches, if_pos rfl, Nat.zero_add]
          exact ih (Nat.lt_of_succ_lt_succ inside)

/-- Repetitions of different elements mismatch everywhere. -/
theorem mismatches_replicate {a b : β} (different : a ≠ b) (count : Nat) :
    mismatches (List.replicate count a) (List.replicate count b) = count := by
  induction count with
  | zero => rfl
  | succ count ih =>
      rw [List.replicate_succ, List.replicate_succ, mismatches, if_neg different, ih, Nat.add_comm]

/-- Mismatches add up over the parts of a list. -/
theorem mismatches_append {x y : List β} (same : x.length = y.length) (x' y' : List β) :
    mismatches (x ++ x') (y ++ y') = mismatches x y + mismatches x' y' := by
  induction x generalizing y with
  | nil =>
      rw [List.eq_nil_of_length_eq_zero same.symm]
      simp [mismatches]
  | cons a x ih =>
      cases y with
      | nil => cases same
      | cons b y =>
          simp only [List.cons_append, mismatches, ih (Nat.succ.inj same)]
          omega

/-- Different lists mismatch somewhere. -/
theorem mismatches_pos {x y : List β} (same : x.length = y.length) (differ : x ≠ y) :
    0 < mismatches x y := by
  induction x generalizing y with
  | nil => exact (differ (List.eq_nil_of_length_eq_zero same.symm).symm).elim
  | cons a x ih =>
      cases y with
      | nil => cases same
      | cons b y =>
          rw [mismatches]
          by_cases first : a = b
          · subst first
            have rest := ih (Nat.succ.inj same) fun equal => differ (congrArg (a :: ·) equal)
            omega
          · rw [if_neg first]
            omega

/-- One mismatch is a change of one element, if the change of each is known. -/
theorem exists_modify_of_mismatches_eq_one {f : β → β} {x y : List β}
    (same : y.length = x.length) (known : ∀ a ∈ x, ∀ b ∈ y, b ≠ a → b = f a)
    (one : mismatches y x = 1) : ∃ k < x.length, y = x.modify k f := by
  induction x generalizing y with
  | nil =>
      rw [List.eq_nil_of_length_eq_zero same] at one
      cases one
  | cons a x ih =>
      cases y with
      | nil => cases same
      | cons b y =>
          rw [mismatches] at one
          by_cases first : b = a
          · rw [if_pos first, Nat.zero_add] at one
            obtain ⟨k, inside, rfl⟩ := ih (Nat.succ.inj same) (fun a member b member' =>
              known a (List.mem_cons_of_mem _ member) b (List.mem_cons_of_mem _ member')) one
            exact ⟨k + 1, Nat.succ_lt_succ inside, by rw [first, List.modify_succ_cons]⟩
          · rw [if_neg first] at one
            have rest : y = x := by
              by_contra differ
              have positive := mismatches_pos (Nat.succ.inj same) differ
              omega
            refine ⟨0, Nat.succ_pos _, ?_⟩
            rw [rest, List.modify_zero_cons,
              known a List.mem_cons_self b List.mem_cons_self first]

/-- Mismatches satisfy the triangle inequality. -/
theorem mismatches_triangle {x y z : List β} (same : x.length = y.length)
    (same' : y.length = z.length) : mismatches x z ≤ mismatches x y + mismatches y z := by
  induction x generalizing y z with
  | nil => simp [mismatches]
  | cons a x ih =>
      cases y with
      | nil => cases same
      | cons b y =>
          cases z with
          | nil => cases same'
          | cons c z =>
              have rest := ih (Nat.succ.inj same) (Nat.succ.inj same')
              simp only [mismatches]
              by_cases first : a = b
              · subst first
                omega
              · by_cases second : b = c
                · subst second
                  simp only [first, ↓reduceIte]
                  omega
                · simp only [first, second, ↓reduceIte]
                  split <;> omega

end Mismatches

/-- A machine that emits a word of one width for every input. -/
structure Encoder (σ ι β : Type*) where
  next : σ → ι → σ
  out : σ → ι → List β
  width : Nat
  length_out : ∀ s i, (out s i).length = width

namespace Encoder

variable {σ ι β : Type*} (E : Encoder σ ι β)

/-- What the inputs emit. -/
def emit : σ → List ι → List β
  | _, [] => []
  | s, i :: inputs => E.out s i ++ emit (E.next s i) inputs

/-- The state after the inputs. -/
def final (s : σ) (inputs : List ι) : σ := inputs.foldl E.next s

@[simp] theorem emit_nil (s : σ) : E.emit s [] = [] := rfl

@[simp] theorem emit_cons (s : σ) (i : ι) (inputs : List ι) :
    E.emit s (i :: inputs) = E.out s i ++ E.emit (E.next s i) inputs := rfl

@[simp] theorem final_nil (s : σ) : E.final s [] = s := rfl

@[simp] theorem final_cons (s : σ) (i : ι) (inputs : List ι) :
    E.final s (i :: inputs) = E.final (E.next s i) inputs := rfl

/-- The state after both sequences is reached from the state after the first. -/
theorem final_append (s : σ) (first second : List ι) :
    E.final s (first ++ second) = E.final (E.final s first) second :=
  List.foldl_append

/-- A second sequence is emitted from the state after the first. -/
theorem emit_append (s : σ) (first second : List ι) :
    E.emit s (first ++ second) = E.emit s first ++ E.emit (E.final s first) second := by
  induction first generalizing s with
  | nil => rfl
  | cons i first ih => simp [ih]

/-- Every input emits as many symbols as the encoder is wide. -/
@[simp] theorem length_emit (s : σ) (inputs : List ι) :
    (E.emit s inputs).length = inputs.length * E.width := by
  induction inputs generalizing s with
  | nil => simp
  | cons i inputs ih =>
      rw [emit_cons, List.length_append, E.length_out, ih, List.length_cons, Nat.succ_mul,
        Nat.add_comm]

variable [DecidableEq β]

/-- Windows that start differently are emitted at this distance. -/
def Separates (window distance : Nat) : Prop :=
  ∀ s : σ, ∀ x y : List ι, x.length = window → y.length = window → x.head? ≠ y.head? →
    distance ≤ mismatches (E.emit s x) (E.emit s y)

variable {E}

/-- **Separation.** Sequences that differ before their last window are emitted
at the distance of two windows. -/
theorem separated {tail distance : Nat} (separates : E.Separates (tail + 1) distance)
    {x y : List ι} (same : x.length = y.length) {count : Nat} (room : count + tail ≤ x.length)
    (differ : x.take count ≠ y.take count) (s : σ) :
    distance ≤ mismatches (E.emit s x) (E.emit s y) := by
  classical
  induction count generalizing s x y with
  | zero => exact (differ rfl).elim
  | succ count ih =>
      cases x with
      | nil => simp at room
      | cons i x =>
          cases y with
          | nil => cases same
          | cons j y =>
              have same' := Nat.succ.inj same
              by_cases first : i = j
              · subst first
                rw [emit_cons, emit_cons, mismatches_append rfl, mismatches_self, Nat.zero_add]
                refine ih same' ?_ (fun agree => differ ?_) _
                · rw [List.length_cons] at room
                  omega
                · rw [List.take_succ_cons, List.take_succ_cons, agree]
              · -- the windows that start at the first difference
                rw [List.length_cons] at room
                have size : ((i :: x).take (tail + 1)).length = tail + 1 := by
                  rw [List.length_take, List.length_cons]
                  omega
                have size' : ((j :: y).take (tail + 1)).length = tail + 1 := by
                  rw [List.length_take, List.length_cons]
                  omega
                have apart := separates s _ _ size size' (by
                  rw [List.take_succ_cons, List.take_succ_cons]
                  simpa using first)
                rw [← List.take_append_drop (tail + 1) (i :: x),
                  ← List.take_append_drop (tail + 1) (j :: y), emit_append, emit_append,
                  mismatches_append (by rw [length_emit, length_emit, size, size'])]
                exact apart.trans (Nat.le_add_right _ _)

/-- Sequences that are emitted alike agree before their last window. -/
theorem take_eq_of_emit_eq {tail : Nat} (separates : E.Separates (tail + 1) 1) {x y : List ι}
    {s : σ} (same : x.length = y.length) {count : Nat} (room : count + tail ≤ x.length)
    (emitted : E.emit s x = E.emit s y) : x.take count = y.take count := by
  by_contra differ
  have apart := separated separates same room differ s
  rw [emitted, mismatches_self] at apart
  exact Nat.not_succ_le_zero 0 apart

/-- **Unique decoding.** A sequence emitted nearest to the received word agrees,
before the last window, with every sequence emitted within half the distance. -/
theorem take_eq_of_near {tail distance : Nat} (separates : E.Separates (tail + 1) distance)
    {x y : List ι} {received : List β} {s : σ} (same : x.length = y.length)
    (size : received.length = x.length * E.width) {count : Nat} (room : count + tail ≤ x.length)
    (near : 2 * mismatches received (E.emit s x) < distance)
    (nearest : mismatches received (E.emit s y) ≤ mismatches received (E.emit s x)) :
    y.take count = x.take count := by
  by_contra differ
  have far := separated separates same room (Ne.symm differ) s
  have triangle : mismatches (E.emit s x) (E.emit s y) ≤
      mismatches (E.emit s x) received + mismatches received (E.emit s y) :=
    mismatches_triangle (by rw [length_emit, size]) (by rw [length_emit, size, same])
  rw [mismatches_comm (E.emit s x) received] at triangle
  omega

end Encoder

end Ssle
