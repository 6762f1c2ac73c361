import Mathlib.Data.List.Induction
import SsleExperiment.Math.Encoder

/-! # Cheapest paths through a trellis

Every state of a trellis is entered from two others, under one input. A table
of costs is updated symbol by symbol: each state takes the cheaper of its two
predecessors, and a column of the choices is kept for the way back. A number
that no cost reaches stands for "not reached yet". The table and the columns
describe cheapest paths after every symbol (`Ssle.Trellis.Survives.step`), so
the way back from a cheapest state is a cheapest path
(`Ssle.Trellis.Survives.traceback_le`).
-/

namespace Ssle

/-- A machine with the cost of each step for each received symbol, and the way
back into each state. -/
structure Trellis (σ ι α : Type*) where
  next : σ → ι → σ
  weight : σ → ι → α → Nat
  label : σ → ι
  first : σ → σ
  second : σ → σ
  next_eq_iff : ∀ s i t, next s i = t ↔ i = label t ∧ (s = first t ∨ s = second t)

namespace Trellis

variable {σ ι α : Type*} (T : Trellis σ ι α)

/-! ## Paths -/

/-- The state after the inputs. -/
def final (s : σ) (inputs : List ι) : σ := inputs.foldl T.next s

/-- The cost of the inputs against the received symbols. -/
def cost : σ → List ι → List α → Nat
  | s, i :: inputs, a :: received => T.weight s i a + cost (T.next s i) inputs received
  | _, _, _ => 0

@[simp] theorem final_concat (s : σ) (inputs : List ι) (i : ι) :
    T.final s (inputs ++ [i]) = T.next (T.final s inputs) i := by
  simp [final]

/-- The last step adds its weight. -/
theorem cost_concat (s : σ) {inputs : List ι} {received : List α}
    (same : inputs.length = received.length) (i : ι) (a : α) :
    T.cost s (inputs ++ [i]) (received ++ [a]) =
      T.cost s inputs received + T.weight (T.final s inputs) i a := by
  induction inputs generalizing s received with
  | nil =>
      rw [List.eq_nil_of_length_eq_zero same.symm]
      simp [cost, final]
  | cons j inputs ih =>
      cases received with
      | nil => cases same
      | cons b received =>
          simp only [List.cons_append, cost, ih _ (Nat.succ.inj same), final, List.foldl_cons]
          omega

/-- Steps of bounded weight have bounded cost. -/
theorem cost_le {bound : Nat} (light : ∀ s i a, T.weight s i a ≤ bound) (s : σ) (inputs : List ι)
    (received : List α) : T.cost s inputs received ≤ received.length * bound := by
  induction inputs generalizing s received with
  | nil => simp [cost]
  | cons i inputs ih =>
      cases received with
      | nil => simp [cost]
      | cons a received =>
          have one := light s i a
          have rest := ih (T.next s i) received
          rw [List.length_cons, Nat.succ_mul]
          simp only [cost]
          omega

/-! ## One symbol -/

variable (top : Nat)

/-- The cost of entering a state from a predecessor, if that was reached. -/
def extend (metric : σ → Nat) (a : α) (source target : σ) : Nat :=
  if metric source < top then metric source + T.weight source (T.label target) a
  else metric source

/-- The cheaper predecessor, the first one when both are equal. -/
def select (metric : σ → Nat) (a : α) (target : σ) : Nat × σ :=
  if T.extend top metric a (T.first target) target ≤ T.extend top metric a (T.second target) target
  then (T.extend top metric a (T.first target) target, T.first target)
  else (T.extend top metric a (T.second target) target, T.second target)

/-- The inputs on the way back, the last input first. -/
def traceback : List (σ → σ) → σ → List ι
  | [], _ => []
  | column :: columns, s => T.label s :: traceback columns (column s)

@[simp] theorem length_traceback (columns : List (σ → σ)) (s : σ) :
    (T.traceback columns s).length = columns.length := by
  induction columns generalizing s with
  | nil => rfl
  | cons column columns ih => exact congrArg (· + 1) (ih _)

/-- The selected source leads to the target, at the metric selected. -/
theorem select_spec (metric : σ → Nat) (a : α) (target : σ) :
    T.next (T.select top metric a target).2 (T.label target) = target ∧
      (T.select top metric a target).1 =
        T.extend top metric a (T.select top metric a target).2 target := by
  unfold select
  split
  · exact ⟨(T.next_eq_iff _ _ _).mpr ⟨rfl, .inl rfl⟩, rfl⟩
  · exact ⟨(T.next_eq_iff _ _ _).mpr ⟨rfl, .inr rfl⟩, rfl⟩

/-- No other way to the target is cheaper. -/
theorem select_le (metric : σ → Nat) (a : α) (source : σ) (i : ι) :
    (T.select top metric a (T.next source i)).1 ≤ metric source + T.weight source i a := by
  obtain ⟨sameInput, predecessor⟩ := (T.next_eq_iff source i _).mp rfl
  have entered : T.extend top metric a source (T.next source i) ≤
      metric source + T.weight source i a := by
    rw [extend, ← sameInput]
    split <;> omega
  refine le_trans ?_ entered
  unfold select
  rcases predecessor with first | second
  · rw [← first]
    split <;> omega
  · rw [← second]
    split <;> omega

/-! ## Survivors -/

/-- What the table of costs and the columns, the last one first, say about the
paths from `start` against the received symbols. -/
structure Survives (bound : Nat) (start : σ) (received : List α) (metric : σ → Nat)
    (columns : List (σ → σ)) : Prop where
  size : columns.length = received.length
  reached : ∀ s, metric s < top →
    T.final start (T.traceback columns s).reverse = s ∧
      T.cost start (T.traceback columns s).reverse received = metric s
  least : ∀ inputs : List ι, inputs.length = received.length →
    metric (T.final start inputs) ≤ T.cost start inputs received
  limited : ∀ s, metric s = top ∨ metric s ≤ received.length * bound

variable {T top}

/-- Nothing received yet: the start is free, and nothing else is reached. -/
theorem survives_start [DecidableEq σ] (bound : Nat) (start : σ) :
    T.Survives top bound start [] (fun s => if s = start then 0 else top) [] where
  size := rfl
  reached s below := by
    by_cases same : s = start
    · simp [same, traceback, final, cost]
    · simp [same] at below
  least inputs same := by
    rw [List.eq_nil_of_length_eq_zero same]
    simp [final]
  limited s := by
    by_cases same : s = start
    · simp [same]
    · simp [same]

/-- **One symbol.** The updated table and the new column describe the cheapest
paths against the symbols received so far. -/
theorem Survives.step {bound : Nat} {start : σ} {received : List α} {metric : σ → Nat}
    {columns : List (σ → σ)} (survives : T.Survives top bound start received metric columns)
    (light : ∀ s i a, T.weight s i a ≤ bound) (a : α) :
    T.Survives top bound start (received ++ [a]) (fun s => (T.select top metric a s).1)
      ((fun s => (T.select top metric a s).2) :: columns) where
  size := by simp [survives.size]
  reached s below := by
    obtain ⟨enters, chosen⟩ := T.select_spec top metric a s
    rw [chosen, extend] at below ⊢
    by_cases seen : metric (T.select top metric a s).2 < top
    · obtain ⟨arrives, paid⟩ := survives.reached _ seen
      rw [if_pos seen, traceback, List.reverse_cons, final_concat, arrives]
      refine ⟨enters, ?_⟩
      rw [cost_concat, paid, arrives]
      rw [List.length_reverse, length_traceback, survives.size]
    · rw [if_neg seen] at below
      exact (seen below).elim
  least inputs same := by
    cases inputs using List.reverseRecOn with
    | nil => simp at same
    | append_singleton inputs i =>
        have same' : inputs.length = received.length := by simpa using same
        rw [final_concat, cost_concat _ _ same']
        have earlier := survives.least inputs same'
        exact (T.select_le top metric a _ i).trans (Nat.add_le_add_right earlier _)
  limited s := by
    obtain ⟨_, chosen⟩ := T.select_spec top metric a s
    rw [chosen, extend, List.length_append, List.length_singleton, Nat.succ_mul]
    have weight := light (T.select top metric a s).2 (T.label s) a
    rcases survives.limited (T.select top metric a s).2 with unseen | cheap
    · rw [unseen, if_neg (Nat.lt_irrefl _)]
      exact .inl rfl
    · right
      split <;> omega

section Short

variable {bound : Nat} {start : σ} {received : List α} {metric : σ → Nat} {columns : List (σ → σ)}
  (survives : T.Survives top bound start received metric columns)
  (light : ∀ s i a, T.weight s i a ≤ bound) (short : received.length * bound < top)

include survives light short

theorem Survives.final_lt {inputs : List ι} (same : inputs.length = received.length) :
    metric (T.final start inputs) < top :=
  ((survives.least inputs same).trans (T.cost_le light start inputs received)).trans_lt short

omit light in
theorem Survives.lt_top_iff (s : σ) : metric s < top ↔ metric s ≠ top := by
  refine ⟨Nat.ne_of_lt, fun seen => ?_⟩
  exact ((survives.limited s).resolve_left seen).trans_lt short

/-- **Reached states.** A state has a cost exactly when a path leads to it. -/
theorem Survives.eq_top_iff (s : σ) :
    metric s = top ↔
      ¬ ∃ inputs : List ι, inputs.length = received.length ∧ T.final start inputs = s := by
  rw [← not_iff_not, not_not, ← ne_eq, ← survives.lt_top_iff short]
  constructor
  · intro reached
    refine ⟨_, ?_, (survives.reached s reached).1⟩
    rw [List.length_reverse, length_traceback, survives.size]
  · rintro ⟨inputs, same, rfl⟩
    exact survives.final_lt light short same

/-- **Way back.** From a cheapest state the way back is a cheapest path. -/
theorem Survives.traceback_le {best : σ} (cheapest : ∀ s, metric best ≤ metric s)
    {inputs : List ι} (same : inputs.length = received.length) :
    T.cost start (T.traceback columns best).reverse received ≤ T.cost start inputs received := by
  have below := (cheapest _).trans_lt (survives.final_lt light short same)
  rw [(survives.reached best below).2]
  exact (cheapest _).trans (survives.least inputs same)

end Short

end Trellis

/-! ## The trellis of an encoder -/

/-- Received words are weighed by their distance from the word emitted. -/
def Encoder.trellis {σ ι β : Type*} [DecidableEq β] (E : Encoder σ ι β) (label : σ → ι)
    (first second : σ → σ)
    (next_eq_iff : ∀ s i t, E.next s i = t ↔ i = label t ∧ (s = first t ∨ s = second t)) :
    Trellis σ ι (List β) where
  next := E.next
  weight s i a := mismatches a (E.out s i)
  label := label
  first := first
  second := second
  next_eq_iff := next_eq_iff

/-- The cost of a path is the distance of what it emits. -/
theorem Encoder.cost_trellis {σ ι β : Type*} [DecidableEq β] {E : Encoder σ ι β} {label : σ → ι}
    {first second : σ → σ}
    {next_eq_iff : ∀ s i t, E.next s i = t ↔ i = label t ∧ (s = first t ∨ s = second t)} (s : σ)
    {inputs : List ι} {received : List (List β)} (same : inputs.length = received.length)
    (words : ∀ a ∈ received, a.length = E.width) :
    (E.trellis label first second next_eq_iff).cost s inputs received =
      mismatches received.flatten (E.emit s inputs) := by
  induction inputs generalizing s received with
  | nil =>
      rw [List.eq_nil_of_length_eq_zero same.symm]
      rfl
  | cons i inputs ih =>
      cases received with
      | nil => cases same
      | cons a received =>
          rw [List.forall_mem_cons] at words
          rw [List.flatten_cons, Encoder.emit_cons,
            mismatches_append (words.1.trans (E.length_out s i).symm), ← ih _ (Nat.succ.inj same)
              words.2]
          rfl

end Ssle
