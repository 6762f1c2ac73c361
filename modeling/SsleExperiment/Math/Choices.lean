import Mathlib.Data.List.Forall2
import Mathlib.Data.Set.Card

/-! # Choices along a list

A list can be chosen element by element. The choices made at the positions of a
list reach the lists related to it element by element
(`Ssle.Choices.exists_map_zipIdx_iff`), and the number of these is the product of
the numbers of possible elements (`Ssle.Choices.ncard_forall₂`).
-/

namespace Ssle.Choices

variable {α β ω : Type*}

/-- What is reached by a choice at each position. -/
theorem exists_map_zipIdx_iff [Inhabited ω] (g : ω → α → β) (xs : List α) (ys : List β) :
    (∃ choice : Nat → ω, (xs.zipIdx.map fun x => g (choice x.2) x.1) = ys) ↔
      List.Forall₂ (fun y x => ∃ w, g w x = y) ys xs := by
  constructor
  · rintro ⟨choice, rfl⟩
    conv_rhs => rw [← List.zipIdx_map_fst 0 xs]
    rw [List.forall₂_map_left_iff, List.forall₂_map_right_iff, List.forall₂_same]
    exact fun x _ => ⟨_, rfl⟩
  · intro related
    obtain ⟨same, related⟩ := List.forall₂_iff_get.mp related
    have reached (i : Nat) : ∃ w, ∀ (inside : i < ys.length) (inside' : i < xs.length),
        g w xs[i] = ys[i] := by
      by_cases inside : i < ys.length
      · obtain ⟨w, reaches⟩ := related i inside (same ▸ inside)
        exact ⟨w, fun _ _ => reaches⟩
      · exact ⟨default, fun inside' => (inside inside').elim⟩
    choose choice reaches using reached
    refine ⟨choice, List.ext_getElem (by simp [same]) fun i _ inside => ?_⟩
    simpa using reaches i inside (same ▸ inside)

/-- The number of lists related to one element by element. -/
theorem ncard_forall₂ (R : β → α → Prop) (xs : List α) :
    {ys | List.Forall₂ R ys xs}.ncard = (xs.map fun x => {y | R y x}.ncard).prod := by
  induction xs with
  | nil => simp [List.forall₂_nil_right_iff]
  | cons x xs ih =>
      have split : {ys | List.Forall₂ R ys (x :: xs)} =
          (fun pair : β × List β => pair.1 :: pair.2) ''
            ({y | R y x} ×ˢ {ys | List.Forall₂ R ys xs}) := by
        ext ys
        simp only [Set.mem_ofPred_eq, List.forall₂_cons_right_iff, Set.mem_image, Set.mem_prod,
          Prod.exists]
        exact ⟨fun ⟨y, rest, first, others, equal⟩ => ⟨y, rest, ⟨first, others⟩, equal.symm⟩,
          fun ⟨y, rest, ⟨first, others⟩, equal⟩ => ⟨y, rest, first, others, equal.symm⟩⟩
      have injective : Function.Injective fun pair : β × List β => pair.1 :: pair.2 :=
        fun _ _ equal => Prod.ext (List.cons.inj equal).1 (List.cons.inj equal).2
      rw [split, Set.ncard_image_of_injective _ injective, Set.ncard_prod, ih, List.map_cons,
        List.prod_cons]

end Ssle.Choices
