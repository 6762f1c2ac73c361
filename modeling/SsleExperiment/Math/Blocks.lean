import Mathlib.Data.List.Basic
import Mathlib.Data.Nat.Init

/-! # Lists cut into blocks

A list is cut into consecutive blocks of one size, the last of which may be
shorter. The sizes of the blocks are those of a list of this length
(`Ssle.Blocks.map_length_blocks`), and pieces of such sizes are the blocks of
the list they make up (`Ssle.Blocks.blocks_flatten`).
-/

namespace Ssle.Blocks

variable {α β : Type*}

/-- The block at position `k`. -/
def segment (n k : Nat) (xs : List α) : List α := (xs.drop (k * n)).take n

/-- The consecutive blocks of size `n`, the last one possibly shorter. -/
def blocks (n : Nat) (xs : List α) : List (List α) :=
  (List.range ((xs.length + n - 1) / n)).map fun k => segment n k xs

/-- As many blocks as it takes, the last of which may be short. -/
theorem length_blocks (n : Nat) (xs : List α) :
    (blocks n xs).length = (xs.length + n - 1) / n := by
  rw [blocks, List.length_map, List.length_range]

@[simp] theorem blocks_nil (n : Nat) : blocks n ([] : List α) = [] := by
  cases n with
  | zero => simp [blocks]
  | succ n => simp [blocks, Nat.div_eq_of_lt]

@[simp] theorem segment_zero (n : Nat) (xs : List α) : segment n 0 xs = xs.take n := by
  simp [segment]

/-- Segments after the first are those of what follows it. -/
theorem segment_succ (n k : Nat) (xs : List α) :
    segment n (k + 1) xs = segment n k (xs.drop n) := by
  rw [segment, segment, List.drop_drop, Nat.succ_mul, Nat.add_comm]

/-- A segment is full, or takes what is left. -/
theorem length_segment (n k : Nat) (xs : List α) :
    (segment n k xs).length = min n (xs.length - k * n) := by
  rw [segment, List.length_take, List.length_drop]

/-- The first block, and those of what follows it. -/
theorem blocks_eq_cons {n : Nat} (positive : 0 < n) {xs : List α} (some : xs ≠ []) :
    blocks n xs = xs.take n :: blocks n (xs.drop n) := by
  have size : 0 < xs.length := List.length_pos_iff.mpr some
  have count : (xs.length + n - 1) / n = ((xs.drop n).length + n - 1) / n + 1 := by
    rw [← Nat.add_div_right _ positive, List.length_drop]
    by_cases whole : n ≤ xs.length
    · congr 1
      omega
    · have once (m : Nat) (low : n ≤ m) (high : m < 2 * n) : m / n = 1 :=
        Nat.div_eq_of_lt_le (by omega) (by omega)
      rw [Nat.sub_eq_zero_of_le (Nat.le_of_not_le whole),
        once (xs.length + n - 1) (by omega) (by omega),
        once (0 + n - 1 + n) (by omega) (by omega)]
  rw [blocks, count, List.range_succ_eq_map, List.map_cons, List.map_map, segment_zero]
  congr 1
  exact List.map_congr_left fun k _ => segment_succ n k xs

/-- Induction on a list block by block. -/
theorem drop_induction {n : Nat} (positive : 0 < n) {motive : List α → Prop} (nil : motive [])
    (block : ∀ xs, xs ≠ [] → motive (xs.drop n) → motive xs) (xs : List α) : motive xs := by
  induction size : xs.length using Nat.strongRecOn generalizing xs with
  | ind length ih =>
      by_cases empty : xs = []
      · rwa [empty]
      · apply block xs empty
        refine ih _ ?_ _ rfl
        rw [List.length_drop, ← size]
        exact Nat.sub_lt (List.length_pos_iff.mpr empty) positive

/-- The blocks of a list make it up. -/
theorem flatten_blocks {n : Nat} (positive : 0 < n) (xs : List α) :
    (blocks n xs).flatten = xs := by
  induction xs using drop_induction positive with
  | nil => simp
  | block xs some ih =>
      rw [blocks_eq_cons positive some, List.flatten_cons, ih, List.take_append_drop]

theorem mem_of_mem_blocks {n : Nat} (positive : 0 < n) {xs block : List α}
    (member : block ∈ blocks n xs) {x : α} (inside : x ∈ block) : x ∈ xs := by
  rw [← flatten_blocks positive xs]
  exact List.mem_flatten.mpr ⟨block, member, inside⟩

/-- A block that starts inside the list is there. -/
theorem lt_length_blocks {n k : Nat} (positive : 0 < n) {xs : List α}
    (inside : k * n < xs.length) : k < (blocks n xs).length := by
  rw [length_blocks, Nat.lt_div_iff_mul_lt positive]
  omega

/-- The blocks are the segments of the list. -/
theorem getElem?_blocks {n k : Nat} {xs : List α} (below : k < (blocks n xs).length) :
    (blocks n xs)[k]? = some (segment n k xs) := by
  rw [length_blocks] at below
  rw [blocks, List.getElem?_map, List.getElem?_range below]
  rfl

/-- No block is longer than it should be. -/
theorem length_le_of_mem_blocks {n : Nat} {xs block : List α} (member : block ∈ blocks n xs) :
    block.length ≤ n := by
  obtain ⟨k, _, rfl⟩ := List.mem_map.mp member
  rw [length_segment]
  exact Nat.min_le_left _ _

/-- A list of whole blocks has as many as go into it. -/
theorem length_blocks_of_mul {n count : Nat} (positive : 0 < n) {xs : List α}
    (whole : xs.length = count * n) : (blocks n xs).length = count := by
  rw [length_blocks, whole, Nat.add_sub_assoc positive, Nat.add_comm,
    Nat.add_mul_div_right _ _ positive, Nat.div_eq_of_lt (by omega), Nat.zero_add]

/-- All blocks of a list of whole blocks are full. -/
theorem length_of_mem_blocks {n count : Nat} (positive : 0 < n) {xs block : List α}
    (whole : xs.length = count * n) (member : block ∈ blocks n xs) : block.length = n := by
  have size := length_blocks_of_mul positive whole
  rw [length_blocks] at size
  obtain ⟨k, below, rfl⟩ := List.mem_map.mp member
  rw [List.mem_range, size] at below
  have room : (k + 1) * n ≤ xs.length := by
    rw [whole]
    exact Nat.mul_le_mul_right _ below
  rw [Nat.succ_mul] at room
  rw [length_segment]
  omega

theorem length_flatten_of_full {n : Nat} {parts : List (List α)}
    (full : ∀ part ∈ parts, part.length = n) : parts.flatten.length = parts.length * n := by
  rw [List.length_flatten, List.map_congr_left full, List.map_const', List.sum_replicate_nat]

/-- Lists of one length are equal if their segments are. -/
theorem ext_segment {n : Nat} (positive : 0 < n) {xs ys : List α} (same : xs.length = ys.length)
    (agree : ∀ k, k * n < xs.length → segment n k xs = segment n k ys) : xs = ys := by
  rw [← flatten_blocks positive xs, ← flatten_blocks positive ys, blocks, blocks, same]
  refine congrArg List.flatten (List.map_congr_left fun k member => agree k ?_)
  rw [List.mem_range, Nat.lt_div_iff_mul_lt positive] at member
  omega

theorem blocks_map (f : α → β) (n : Nat) (xs : List α) :
    blocks n (xs.map f) = (blocks n xs).map (List.map f) := by
  rw [blocks, blocks, List.length_map, List.map_map]
  refine List.map_congr_left fun k _ => ?_
  rw [Function.comp_apply, segment, segment, List.map_take, List.map_drop]

/-- The sizes of the blocks depend on the length of the list only. -/
theorem map_length_blocks {n : Nat} {xs : List α} {ys : List β} (same : xs.length = ys.length) :
    (blocks n xs).map List.length = (blocks n ys).map List.length := by
  simp only [blocks, List.map_map, same]
  refine List.map_congr_left fun k _ => ?_
  simp only [Function.comp_apply, length_segment, same]

/-- Sizes of blocks: all full but the last, which is not empty. -/
def Cut (n : Nat) : List Nat → Prop
  | [] => True
  | [size] => 0 < size ∧ size ≤ n
  | size :: next :: sizes => size = n ∧ Cut n (next :: sizes)

/-- The blocks of a list have the lengths of blocks. -/
theorem cut_blocks {n : Nat} (positive : 0 < n) (xs : List α) :
    Cut n ((blocks n xs).map List.length) := by
  induction xs using drop_induction positive with
  | nil => simp [Cut]
  | block xs some ih =>
      have size := List.length_pos_iff.mpr some
      rw [blocks_eq_cons positive some, List.map_cons]
      by_cases last : xs.drop n = []
      · rw [last, blocks_nil, List.map_nil, List.length_take]
        exact ⟨by omega, Nat.min_le_left _ _⟩
      · have more := List.length_pos_iff.mpr last
        rw [List.length_drop] at more
        rw [blocks_eq_cons positive last, List.map_cons] at ih ⊢
        refine ⟨?_, ih⟩
        rw [List.length_take]
        omega

/-- **Uniqueness.** Pieces with the sizes of blocks are the blocks of the list
they make up. -/
theorem blocks_flatten {n : Nat} (positive : 0 < n) {parts : List (List α)}
    (cut : Cut n (parts.map List.length)) : blocks n parts.flatten = parts := by
  induction parts with
  | nil => simp
  | cons part parts ih =>
      cases parts with
      | nil =>
          obtain ⟨some, short⟩ := cut
          rw [List.flatten_singleton, blocks_eq_cons positive (List.length_pos_iff.mp some),
            List.take_of_length_le short, List.drop_of_length_le short, blocks_nil]
      | cons next parts =>
          obtain ⟨full, rest⟩ := cut
          have some : (part :: next :: parts).flatten ≠ [] := by
            rw [List.flatten_cons]
            intro empty
            rw [(List.append_eq_nil_iff.mp empty).1] at full
            exact Nat.ne_of_lt positive full
          rw [blocks_eq_cons positive some, List.flatten_cons, ← full, List.take_left,
            List.drop_left, full, ih rest]

/-- Lists that are the blocks of what they make up are its segments. -/
theorem segment_flatten {n : Nat} (positive : 0 < n) {parts : List (List α)}
    (cut : blocks n parts.flatten = parts) (k : Nat) :
    segment n k parts.flatten = parts[k]?.getD [] := by
  rcases Nat.lt_or_ge k parts.length with inside | past
  · have below : k < (blocks n parts.flatten).length := cut.symm ▸ inside
    have block := getElem?_blocks below
    rw [cut] at block
    rw [block, Option.getD_some]
  · have short : parts.flatten.length ≤ k * n := by
      refine Nat.le_of_not_lt fun inside => ?_
      have below := lt_length_blocks positive inside
      rw [cut] at below
      exact Nat.not_lt.mpr past below
    rw [List.getElem?_eq_none past, Option.getD_none, segment, List.drop_of_length_le short,
      List.take_nil]

/-- After full blocks, the rest is cut into blocks of its own. -/
theorem blocks_append_of_mul {n count : Nat} (positive : 0 < n) {xs : List α}
    (whole : xs.length = count * n) (ys : List α) :
    blocks n (xs ++ ys) = blocks n xs ++ blocks n ys := by
  induction count generalizing xs with
  | zero =>
      rw [Nat.zero_mul] at whole
      rw [List.eq_nil_of_length_eq_zero whole, blocks_nil, List.nil_append, List.nil_append]
  | succ count ih =>
      have size : n ≤ xs.length := whole ▸ Nat.le_mul_of_pos_left n (Nat.succ_pos count)
      have some : xs ≠ [] := List.ne_nil_of_length_pos (Nat.lt_of_lt_of_le positive size)
      have rest : (xs.drop n).length = count * n := by
        rw [List.length_drop, whole, Nat.succ_mul, Nat.add_sub_cancel]
      rw [blocks_eq_cons positive some, blocks_eq_cons positive (List.append_ne_nil_of_left_ne_nil
        some ys), List.take_append_of_le_length size, List.drop_append_of_le_length size, ih rest,
        List.cons_append]

/-- A full block after full blocks is the last one. -/
theorem blocks_append {n count : Nat} (positive : 0 < n) {xs ys : List α}
    (whole : xs.length = count * n) (full : ys.length = n) :
    blocks n (xs ++ ys) = blocks n xs ++ [ys] := by
  have some : ys ≠ [] := List.ne_nil_of_length_pos (full.symm ▸ positive)
  rw [blocks_append_of_mul positive whole, blocks_eq_cons positive some,
    List.take_of_length_le (Nat.le_of_eq full), List.drop_of_length_le (Nat.le_of_eq full),
    blocks_nil]

/-- Sizes that map full blocks to full ones and others to smaller ones keep the
cut. -/
theorem Cut.map {n m : Nat} {f : Nat → Nat} (full : f n = m)
    (short : ∀ size, 0 < size → size ≤ n → 0 < f size ∧ f size ≤ m) {sizes : List Nat}
    (cut : Cut n sizes) : Cut m (sizes.map f) := by
  induction sizes with
  | nil => exact trivial
  | cons size sizes ih =>
      cases sizes with
      | nil => exact short size cut.1 cut.2
      | cons next sizes => exact ⟨(congrArg f cut.1).trans full, ih cut.2⟩

end Ssle.Blocks
