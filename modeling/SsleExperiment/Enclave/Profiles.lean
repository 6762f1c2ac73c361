import SsleExperiment.Enclave.Puncturing
import SsleExperiment.Math.Endings

/-! # Path metrics up to an offset

Up to an offset, the path metrics of the codec are one of thirteen tables
(`Ssle.PPRF.exists_profile`). On these, the state before the last two symbols on
the way back leads with the flushing bits whenever some state leads both with
the flushing bits and with some two last inputs (`Ssle.PPRF.wayBack_leads`). The
way back itself does not depend on the offset (`Ssle.PPRF.wayBack_shift`).
-/

namespace Ssle.PPRF

/-- The trellis of the codec of `depuncturing`. -/
abbrev trellis : Trellis codec.State Bool Str := codec.codeTrellis

/-- A symbol costs at most two. -/
theorem light (s : codec.State) (input : Bool) (symbol : Str) :
    trellis.weight s input symbol ≤ 2 :=
  codec.weight_codeTrellis_le s input symbol

/-- The table after one more symbol. -/
def updated (top : Nat) (metric : codec.State → Nat) (symbol : Str) (s : codec.State) : Nat :=
  (trellis.select top metric symbol s).1

/-- The path metrics after the symbols received. -/
def metrics (received : List Str) : codec.State → Nat := (codec.progress received).pathMetrics.get

/-- The columns after the symbols received, the last one first. -/
def columns (received : List Str) : List (codec.State → codec.State) :=
  (codec.progress received).trellis.reverse.map Vector.get

theorem metrics_concat (received : List Str) (symbol : Str) :
    metrics (received ++ [symbol]) = updated intMax (metrics received) symbol :=
  codec.pathMetrics_concat received symbol

theorem columns_concat (received : List Str) (symbol : Str) :
    columns (received ++ [symbol]) =
      (fun s => (trellis.select intMax (metrics received) symbol s).2) :: columns received :=
  codec.columns_concat received symbol

/-- The metrics are those of survivors. -/
theorem survives (received : List Str) :
    trellis.Survives intMax 2 codec.start received (metrics received) (columns received) :=
  codec.survives_progress received

/-- The symbols of two bits. -/
def pairs : List Str := ["00".toList, "01".toList, "10".toList, "11".toList]

/-- The flushing bits. -/
def flushed : List (List Bool) := [[false, false]]

/-- All inputs in their place. -/
def unflushed : List (List Bool) := [[false, false], [false, true], [true, false], [true, true]]

/-- The endings are all pairs of inputs. -/
theorem mem_unflushed_iff {ending : List Bool} : ending ∈ unflushed ↔ ending.length = 2 := by
  constructor
  · have sizes : ∀ ending ∈ unflushed, ending.length = 2 := by decide
    exact sizes ending
  · intro size
    obtain ⟨i, j, rfl⟩ := List.length_eq_two.mp size
    cases i <;> cases j <;> decide

/-! ## Tables up to an offset -/

/-- The costs of the four states, the least of which is `0`; a state that was not
reached costs `9`. -/
def profiles : List (List Nat) :=
  [[0, 9, 9, 9], [0, 9, 1, 9], [1, 9, 0, 9], [0, 2, 1, 3], [1, 1, 2, 0], [1, 1, 0, 0],
    [2, 0, 3, 1], [1, 3, 0, 2], [3, 1, 2, 0], [2, 0, 1, 1], [1, 1, 0, 2], [0, 2, 1, 1],
    [0, 0, 1, 1]]

/-- The table of costs that a list stands for. -/
def profile (costs : List Nat) (s : codec.State) : Nat := costs.getD s.1 9

/-- The costs after one more symbol, and the offset by which they grow. -/
def advance (costs : List Nat) (symbol : Str) : Nat × List Nat :=
  let costs := (List.finRange 4).map fun s => updated 9 (profile costs) symbol s
  let least := costs.foldl min 9
  (least, costs.map fun cost => if cost < 9 then cost - least else 9)

/-- All profiles leave room for a symbol. -/
theorem roomy_profile : ∀ costs ∈ profiles, Trellis.Roomy 9 2 (profile costs) := by
  unfold Trellis.Roomy
  decide +kernel

/-- The thirteen tables are closed under every symbol. -/
theorem advance_spec : ∀ costs ∈ profiles, ∀ symbol ∈ pairs,
    (advance costs symbol).2 ∈ profiles ∧ (advance costs symbol).1 ≤ 2 ∧
      ∀ s, updated 9 (profile costs) symbol s =
        Trellis.shift 9 9 (advance costs symbol).1 (profile (advance costs symbol).2 s) := by
  decide +kernel

/-- Taking in a symbol commutes with shifting. -/
theorem updated_shift {top offset : Nat} (fits : offset + 9 ≤ top) {metric : codec.State → Nat}
    (room : Trellis.Roomy 9 2 metric) (symbol : Str) :
    updated top (fun s => Trellis.shift top 9 offset (metric s)) symbol =
      fun s => Trellis.shift top 9 offset (updated 9 metric symbol s) := by
  funext s
  rw [updated, Trellis.select_shift light room fits]
  rfl

/-- **The tables.** The path metrics are one of the thirteen tables, up to an
offset. -/
theorem exists_profile {received : List Str} (words : ∀ symbol ∈ received, symbol ∈ pairs)
    (short : received.length * 2 + 9 ≤ intMax) :
    ∃ costs ∈ profiles, ∃ offset ≤ received.length * 2,
      metrics received = fun s => Trellis.shift intMax 9 offset (profile costs s) := by
  induction received using List.reverseRecOn with
  | nil =>
      refine ⟨[0, 9, 9, 9], by decide, 0, Nat.le_refl 0, ?_⟩
      change codec.initialMetrics.get = _
      rw [codec.get_initialMetrics]
      have initial : ∀ s : codec.State,
          (if s = codec.start then 0 else intMax) =
            Trellis.shift intMax 9 0 (profile [0, 9, 9, 9] s) := by
        decide
      exact funext initial
  | append_singleton received symbol ih =>
      rw [List.length_append, List.length_singleton] at short ⊢
      have earlier : ∀ symbol ∈ received, symbol ∈ pairs :=
        fun symbol member => words symbol (List.mem_append_left _ member)
      have pair := words symbol (List.mem_append_right _ (List.mem_singleton_self symbol))
      obtain ⟨costs, known, offset, small, table⟩ := ih earlier (by omega)
      obtain ⟨known', growth, selected⟩ := advance_spec costs known symbol pair
      refine ⟨_, known', offset + (advance costs symbol).1, by omega, ?_⟩
      rw [metrics_concat, table, updated_shift (by omega) (roomy_profile costs known)]
      funext s
      rw [selected]
      exact Trellis.shift_shift growth (roomy_profile _ known' s)

/-! ## The way back -/

/-- The first state of least cost. -/
def firstLeast (metric : codec.State → Nat) : codec.State :=
  (List.finRange _).foldl (fun best s => if metric s < metric best then s else best) codec.start

/-- The state before the last two symbols, on the way back from the cheapest. -/
def wayBack (top : Nat) (metric : codec.State → Nat) (first second : Str) : codec.State :=
  let best := firstLeast (updated top (updated top metric first) second)
  let previous := (trellis.select top (updated top metric first) second best).2
  (trellis.select top metric first previous).2

instance (slack top : Nat) (metric : codec.State → Nat) (rest : List Str)
    (endings : List (List Bool)) (s : codec.State) (ending : List Bool) :
    Decidable (trellis.Leads slack top metric rest endings s ending) :=
  inferInstanceAs (Decidable (_ ∧ _ ∧ _))

/-- All metrics that follow a profile leave room for a symbol. -/
theorem roomy_updated : ∀ costs ∈ profiles, ∀ symbol ∈ pairs,
    Trellis.Roomy 9 2 (updated 9 (profile costs) symbol) := by
  unfold Trellis.Roomy
  decide +kernel

/-- **The finite core.** The state on the way back leads with the flushing bits up
to a slack of two, and without slack if some state leads both with the flushing
bits and with some ending. -/
theorem wayBack_leads : ∀ costs ∈ profiles, ∀ first ∈ pairs, ∀ second ∈ pairs,
    trellis.Leads 2 9 (profile costs) [first, second] flushed
        (wayBack 9 (profile costs) first second) [false, false] ∧
      ∀ s, trellis.Leads 0 9 (profile costs) [first, second] flushed s [false, false] →
        (∃ ending ∈ unflushed,
          trellis.Leads 0 9 (profile costs) [first, second] unflushed s ending) →
        trellis.Leads 0 9 (profile costs) [first, second] flushed
          (wayBack 9 (profile costs) first second) [false, false] := by
  decide +kernel

/-- The first state of least metric stays the same. -/
theorem firstLeast_shift {top offset : Nat} (fits : offset + 9 ≤ top) {metric : codec.State → Nat}
    (bounded : ∀ s, metric s ≤ 9) :
    firstLeast (fun s => Trellis.shift top 9 offset (metric s)) = firstLeast metric := by
  unfold firstLeast
  congr 1
  funext best s
  simp only [← Nat.not_le, Trellis.shift_le_shift_iff fits (bounded best) (bounded s)]

/-- The way back does not depend on the offset. -/
theorem wayBack_shift {top offset : Nat} (fits : offset + 9 ≤ top) {costs : List Nat}
    (known : costs ∈ profiles) {first : Str} (pair : first ∈ pairs) (second : Str) :
    wayBack top (fun s => Trellis.shift top 9 offset (profile costs s)) first second =
      wayBack 9 (profile costs) first second := by
  have room := roomy_profile costs known
  have room' := roomy_updated costs known first pair
  have bounded (s : codec.State) : updated 9 (updated 9 (profile costs) first) second s ≤ 9 :=
    Trellis.select_le_small light room' second s
  simp only [wayBack, updated_shift fits room, updated_shift fits room',
    firstLeast_shift fits bounded, Trellis.select_shift light room fits,
    Trellis.select_shift light room' fits]

end Ssle.PPRF
