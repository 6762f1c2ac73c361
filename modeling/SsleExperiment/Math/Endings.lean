import SsleExperiment.Math.Trellis

/-! # The last steps through a trellis

A table of costs decides how a path is best completed. A prefix and an ending
are cheapest together exactly when the prefix is a cheapest path to its state and
this state leads with the ending (`Ssle.Trellis.Survives.leads_iff`). Neither the
choices of the table nor the leading states depend on a common offset of the
costs (`Ssle.Trellis.select_shift`, `Ssle.Trellis.leads_shift_iff`).
-/

namespace Ssle.Trellis

variable {σ ι α : Type*} (T : Trellis σ ι α)

/-- The state after an ending is reached from the state before it. -/
theorem final_append (s : σ) (inputs ending : List ι) :
    T.final s (inputs ++ ending) = T.final (T.final s inputs) ending :=
  List.foldl_append

/-- The cost of an ending adds to the cost before it. -/
theorem cost_append (s : σ) {inputs : List ι} {received : List α}
    (same : inputs.length = received.length) (ending : List ι) (rest : List α) :
    T.cost s (inputs ++ ending) (received ++ rest) =
      T.cost s inputs received + T.cost (T.final s inputs) ending rest := by
  induction inputs generalizing s received with
  | nil =>
      rw [List.eq_nil_of_length_eq_zero same.symm]
      simp [cost, final]
  | cons i inputs ih =>
      cases received with
      | nil => cases same
      | cons a received =>
          rw [List.cons_append, List.cons_append, cost, cost, ih _ (Nat.succ.inj same),
            Nat.add_assoc]
          rfl

/-! ## Endings -/

/-- A reached state leads with an ending against the rest of what is received: no
reached state is completed by any of the endings at a cost lower by more than the
slack. -/
def Leads (slack top : Nat) (metric : σ → Nat) (rest : List α) (endings : List (List ι)) (s : σ)
    (ending : List ι) : Prop :=
  metric s < top ∧ ending ∈ endings ∧ ∀ t, metric t < top → ∀ other ∈ endings,
    metric s + T.cost s ending rest ≤ metric t + T.cost t other rest + slack

variable {T} {slack top bound : Nat} {start : σ} {received : List α} {metric : σ → Nat}
  {columns : List (σ → σ)} {endings : List (List ι)}

section Completion

variable (survives : T.Survives top bound start received metric columns)
  (light : ∀ s i a, T.weight s i a ≤ bound) (short : received.length * bound < top)

include survives light short

/-- A cheapest path to a leading state is completed at no higher cost than any
other path, up to the slack. -/
theorem Survives.cost_le_of_leads {inputs : List ι} (same : inputs.length = received.length)
    (exact : T.cost start inputs received = metric (T.final start inputs)) {rest : List α}
    {ending : List ι}
    (leads : T.Leads slack top metric rest endings (T.final start inputs) ending)
    {others : List ι} (size : others.length = received.length) {other : List ι}
    (among : other ∈ endings) :
    T.cost start (inputs ++ ending) (received ++ rest) ≤
      T.cost start (others ++ other) (received ++ rest) + slack := by
  obtain ⟨_, _, leads⟩ := leads
  have least := survives.least others size
  have compared := leads _ (survives.final_lt light short size) other among
  rw [cost_append _ _ same, cost_append _ _ size, exact]
  omega

/-- **Completion.** A prefix and an ending are cheapest together exactly when the
prefix is cheapest to its state and the state leads with the ending. -/
theorem Survives.leads_iff {inputs : List ι} (same : inputs.length = received.length)
    (rest : List α) {ending : List ι} (member : ending ∈ endings) :
    (∀ others : List ι, others.length = received.length → ∀ other ∈ endings,
      T.cost start (inputs ++ ending) (received ++ rest) ≤
        T.cost start (others ++ other) (received ++ rest)) ↔
      T.cost start inputs received = metric (T.final start inputs) ∧
        T.Leads 0 top metric rest endings (T.final start inputs) ending := by
  constructor
  · intro cheapest
    -- the survivor of a reached state, completed in any way, costs no less
    have below (t : σ) (reached : metric t < top) (other : List ι) (among : other ∈ endings) :
        T.cost start inputs received + T.cost (T.final start inputs) ending rest ≤
          metric t + T.cost t other rest := by
      obtain ⟨arrives, paid⟩ := survives.reached t reached
      have size : (T.traceback columns t).reverse.length = received.length := by
        rw [List.length_reverse, length_traceback, survives.size]
      have compared := cheapest _ size other among
      rwa [cost_append _ _ same, cost_append _ _ size, arrives, paid] at compared
    have seen := survives.final_lt light short same
    have exact : T.cost start inputs received = metric (T.final start inputs) := by
      apply Nat.le_antisymm
      · exact Nat.le_of_add_le_add_right (below _ seen ending member)
      · exact survives.least inputs same
    refine ⟨exact, seen, member, fun t reached other among => ?_⟩
    rw [← exact]
    exact below t reached other among
  · rintro ⟨exact, leads⟩ others size other among
    exact survives.cost_le_of_leads light short same exact leads size among

end Completion

/-! ## Offsets -/

/-- A cost counted from an offset. Below, `small` stands for a state that was not
reached, as `top` does above. -/
def shift (top small offset cost : Nat) : Nat := if cost < small then offset + cost else top

variable {small offset : Nat}

/-- Costs below `small` are offset. -/
theorem shift_of_lt {cost : Nat} (below : cost < small) :
    shift top small offset cost = offset + cost := if_pos below

/-- `small` is shifted to `top`. -/
theorem shift_self : shift top small offset small = top := if_neg (Nat.lt_irrefl small)

/-- Exactly the costs below `small` stay below the top. -/
theorem shift_lt_top_iff (fits : offset + small ≤ top) {cost : Nat} :
    shift top small offset cost < top ↔ cost < small := by
  unfold shift
  split
  next below => exact iff_of_true (by omega) below
  next above => exact iff_of_false (Nat.lt_irrefl top) above

/-- Shifting keeps the order of costs. -/
theorem shift_le_shift_iff (fits : offset + small ≤ top) {cost cost' : Nat}
    (below : cost ≤ small) (below' : cost' ≤ small) :
    shift top small offset cost ≤ shift top small offset cost' ↔ cost ≤ cost' := by
  unfold shift
  split <;> split <;> omega

/-- Costs leave room for one more step, unless they stand for a state that was
not reached. -/
def Roomy (small bound : Nat) (metric : σ → Nat) : Prop :=
  ∀ s, metric s = small ∨ metric s + bound < small

/-- Offsets add up. -/
theorem shift_shift {inner : Nat} (inside : inner ≤ bound) {cost : Nat}
    (room : cost = small ∨ cost + bound < small) :
    shift top small offset (shift small small inner cost) =
      shift top small (offset + inner) cost := by
  rcases room with rfl | room
  · rw [shift_self, shift_self, shift_self]
  · have reached : cost < small := by omega
    have reached' : inner + cost < small := by omega
    rw [shift_of_lt reached, shift_of_lt reached, shift_of_lt reached', Nat.add_assoc]

/-- No extended path goes past `small`. -/
theorem extend_le (light : ∀ s i a, T.weight s i a ≤ bound)
    (room : Roomy small bound metric) (a : α) (source target : σ) :
    T.extend small metric a source target ≤ small := by
  have weight := light source (T.label target) a
  unfold extend
  rcases room source with unseen | seen
  · rw [unseen, if_neg (Nat.lt_irrefl small)]
  · split <;> omega

/-- Extending a path commutes with shifting the metric. -/
theorem extend_shift (light : ∀ s i a, T.weight s i a ≤ bound)
    (room : Roomy small bound metric) (fits : offset + small ≤ top) (a : α) (source target : σ) :
    T.extend top (fun s => shift top small offset (metric s)) a source target =
      shift top small offset (T.extend small metric a source target) := by
  have weight := light source (T.label target) a
  unfold extend
  beta_reduce
  rcases room source with unseen | seen
  · rw [unseen, shift_self, if_neg (Nat.lt_irrefl _), if_neg (Nat.lt_irrefl _), shift_self]
  · have below : metric source < small := by omega
    rw [shift_of_lt below, if_pos (by omega), if_pos below, shift_of_lt (by omega), Nat.add_assoc]

/-- **One step.** The table keeps the offset, and the choice does not depend on
it. -/
theorem select_shift (light : ∀ s i a, T.weight s i a ≤ bound)
    (room : Roomy small bound metric) (fits : offset + small ≤ top) (a : α) (target : σ) :
    T.select top (fun s => shift top small offset (metric s)) a target =
      (shift top small offset (T.select small metric a target).1,
        (T.select small metric a target).2) := by
  have first := extend_le light room a (T.first target) target
  have second := extend_le light room a (T.second target) target
  unfold select
  rw [extend_shift light room fits, extend_shift light room fits]
  simp only [shift_le_shift_iff fits first second]
  split <;> rfl

/-- No selected metric goes past `small`. -/
theorem select_le_small
    (light : ∀ s i a, T.weight s i a ≤ bound) (room : Roomy small bound metric) (a : α)
    (target : σ) : (T.select small metric a target).1 ≤ small := by
  unfold select
  split
  · exact extend_le light room a _ target
  · exact extend_le light room a _ target

/-- Shifting the metric does not change which ending leads. -/
theorem leads_shift_iff (fits : offset + small ≤ top) {rest : List α} {s : σ} {ending : List ι} :
    T.Leads slack top (fun s => shift top small offset (metric s)) rest endings s ending ↔
      T.Leads slack small metric rest endings s ending := by
  unfold Leads
  simp only [shift_lt_top_iff fits]
  refine and_congr_right fun reached => and_congr_right fun _ => ?_
  refine forall_congr' fun t => forall_congr' fun seen => ?_
  rw [shift_of_lt reached, shift_of_lt seen]
  simp only [Nat.add_assoc, Nat.add_le_add_iff_left]

end Ssle.Trellis
