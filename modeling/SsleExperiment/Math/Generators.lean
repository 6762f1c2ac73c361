import Mathlib.Logic.Function.Iterate
import Mathlib.SetTheory.Cardinal.Finite

/-! # Generators that lose nothing

A generator draws a value from its state and moves to another state. It is
reversible if no two states move to the same one. If the value drawn is a
coordinate of the state, every value is drawn from equally many states
(`Ssle.Coordinate.card`). Both carry over from one round to the last of several
(`Ssle.Generator.Reversible.rounds`, `Ssle.Generator.coordinate_rounds`).
-/

namespace Ssle

open Function

variable {σ ω ν κ τ : Type*}

/-- The value of a function is one coordinate of its argument, which has another
one in `κ` beside it. -/
def Coordinate (f : σ → ω) (κ : Type*) : Prop := ∃ e : σ ≃ ω × κ, ∀ s, f s = (e s).1

namespace Coordinate

/-- **Counting by a coordinate.** -/
theorem card {f : σ → ω} (coordinate : Coordinate f κ) (p : ω → Prop) :
    Nat.card {s // p (f s)} = Nat.card {value // p value} * Nat.card κ := by
  obtain ⟨e, first⟩ := coordinate
  have split : {s // p (f s)} ≃ {value // p value} × κ :=
    (e.subtypeEquiv fun s => by rw [first]).trans Equiv.prodSubtypeFstEquivSubtypeProd
  rw [Nat.card_congr split, Nat.card_prod]

/-- A coordinate of a coordinate. -/
theorem comp {f : σ → ω} {g : ω → ν} (outer : Coordinate g τ) (inner : Coordinate f κ) :
    Coordinate (g ∘ f) (τ × κ) := by
  obtain ⟨e, first⟩ := inner
  obtain ⟨e', first'⟩ := outer
  refine ⟨e.trans ((Equiv.prodCongr e' (Equiv.refl κ)).trans (Equiv.prodAssoc ν τ κ)), fun s => ?_⟩
  change g (f s) = (e' (e s).1).1
  rw [first s, first']

/-- A coordinate of a permuted argument. -/
theorem comp_bijective {f : σ → ω} {g : σ → σ} (coordinate : Coordinate f κ)
    (bijective : Bijective g) : Coordinate (f ∘ g) κ := by
  obtain ⟨e, first⟩ := coordinate
  exact ⟨(Equiv.ofBijective g bijective).trans e, fun s => first (g s)⟩

/-- On finitely many arguments it is enough that the value and the rest
determine the argument, if there are no more arguments than pairs of them. -/
theorem of_injective [Finite ω] [Finite κ] {f : σ → ω} (rest : σ → κ)
    (injective : Injective fun s => (f s, rest s))
    (few : Nat.card ω * Nat.card κ ≤ Nat.card σ) : Coordinate f κ := by
  have bijective : Bijective fun s => (f s, rest s) :=
    injective.bijective_of_nat_card_le (by rwa [Nat.card_prod])
  exact ⟨Equiv.ofBijective _ bijective, fun s => rfl⟩

end Coordinate

namespace Generator

/-- The state that a draw leaves behind. -/
def next (draw : σ → ω × σ) (state : σ) : σ := (draw state).2

/-- The last value and the state after so many draws: `value` if there are none. -/
def rounds (draw : σ → ω × σ) : Nat → ω → σ → ω × σ
  | 0, value, state => (value, state)
  | count + 1, _, state => rounds draw count (draw state).1 (draw state).2

/-- No two states move to the same one. -/
def Reversible (draw : σ → ω × σ) : Prop := Injective (next draw)

variable {draw : σ → ω × σ}

/-- The state after some rounds is that of as many draws. -/
theorem rounds_snd (count : Nat) (value : ω) (state : σ) :
    (rounds draw count value state).2 = (next draw)^[count] state := by
  induction count generalizing value state with
  | zero => rfl
  | succ count ih => exact ih (draw state).1 (draw state).2

/-- The value of the last round is what it draws. -/
theorem rounds_succ_fst (count : Nat) (value : ω) (state : σ) :
    (rounds draw (count + 1) value state).1 = (draw ((next draw)^[count] state)).1 := by
  induction count generalizing value state with
  | zero => rfl
  | succ count ih => exact ih (draw state).1 (draw state).2

/-- Rounds of reversible draws are reversible. -/
theorem Reversible.rounds (reversible : Reversible draw) (count : Nat) (value : ω) :
    Reversible (rounds draw count value) := by
  have iterated : next (Generator.rounds draw count value) = (next draw)^[count] :=
    funext (rounds_snd count value)
  rw [Reversible, iterated]
  exact reversible.iterate count

/-- The value of the last round is a coordinate of the state if the value of
every round is. -/
theorem coordinate_rounds [Finite σ] (reversible : Reversible draw)
    (coordinate : Coordinate (fun s => (draw s).1) κ) (count : Nat) (value : ω) :
    Coordinate (fun s => (rounds draw (count + 1) value s).1) κ := by
  have last : (fun s => (rounds draw (count + 1) value s).1) =
      (fun s => (draw s).1) ∘ (next draw)^[count] := funext (rounds_succ_fst count value)
  rw [last]
  exact coordinate.comp_bijective (Finite.injective_iff_bijective.mp (reversible.iterate count))

end Generator

end Ssle
