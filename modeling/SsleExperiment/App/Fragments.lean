import SsleExperiment.App.Registration

/-! # Registering a piece of an address

A receive may return the address of a participant in part. A first piece of a
printed number reads as the number only if it is the whole (`Ssle.atoi_prefix_iff`),
so a piece of an address registers the node it belongs to only if it is the
whole address, or the address ends after the host and the host happens to
read as the port (`Ssle.App.registrationBy_prefix_iff`).
-/

namespace Ssle

/-- The first digits of a number are the digits of a number. -/
theorem exists_of_prefix_toDigits {n : Nat} {piece : Str} (place : piece <+: Nat.toDigits 10 n)
    (some : piece ≠ []) : ∃ m ≤ n, piece = Nat.toDigits 10 m := by
  induction n using Nat.strong_induction_on with
  | _ n ih =>
      by_cases small : n < 10
      · rw [Nat.toDigits_of_lt_base small, List.prefix_cons_iff] at place
        obtain ⟨rest, rfl, none⟩ := place.resolve_left some
        refine ⟨n, Nat.le_refl n, ?_⟩
        rw [Nat.toDigits_of_lt_base small, List.prefix_nil.mp none]
      · have large := Nat.le_of_not_lt small
        have shorter : n / 10 < n :=
          Nat.div_lt_self (Nat.lt_of_lt_of_le (by decide) large) (by decide)
        rw [Nat.toDigits_of_base_le (by decide) large] at place
        rcases List.prefix_concat_iff.mp place with whole | earlier
        · refine ⟨n, Nat.le_refl n, ?_⟩
          rw [Nat.toDigits_of_base_le (by decide) large, whole]
        · obtain ⟨m, below, digits⟩ := ih (n / 10) shorter earlier
          exact ⟨m, below.trans (Nat.le_of_lt shorter), digits⟩

/-- Numbers are told apart by their digits. -/
theorem toDigits_inj {m n : Nat} : Nat.toDigits 10 m = Nat.toDigits 10 n ↔ m = n := by
  refine ⟨fun same => ?_, fun same => by rw [same]⟩
  have values := congrArg (fun digits => Nat.ofDigitChars 10 digits 0) same
  simpa using values

/-- `atoi` of the digits of a number in range, with a sign or without. -/
theorem atoi_of_digits {s : Str} {negative : Bool} {m : Nat} (small : m ≤ 2 ^ 31)
    (signed : readSign (s.dropWhile isSpace) = (negative, Nat.toDigits 10 m)) :
    atoi s = Int32.ofInt (if negative then -(m : Int) else m) := by
  rw [atoi, strtol_of_digits signed]
  congr 1
  split <;> omega

/-- Ports are told apart as `int`s. -/
theorem atoi_eq_iff {s : Str} {n : Int32} {x : Int} (read : atoi s = Int32.ofInt x)
    (low : -2 ^ 31 ≤ x) (high : x < 2 ^ 31) : atoi s = n ↔ x = n.toInt := by
  rw [read, ← Int32.toInt_inj, Int32.toInt_ofInt_of_le low high]

/-- **Pieces of numbers.** The first characters of a printed number read as the
number only if they are all of it. -/
theorem atoi_prefix_iff {n : Int32} {piece : Str} (place : piece <+: (toString n.toInt).toList)
    (some : piece ≠ []) : atoi piece = n ↔ piece = (toString n.toInt).toList := by
  have low := Int32.le_toInt n
  have high := Int32.toInt_lt n
  rw [Int.toString_eq_repr, Int.repr_eq_if] at place ⊢
  by_cases nonnegative : 0 ≤ n.toInt
  · rw [if_pos nonnegative, Nat.toList_repr] at place ⊢
    obtain ⟨m, below, rfl⟩ := exists_of_prefix_toDigits place some
    have read : atoi (Nat.toDigits 10 m) = Int32.ofInt m :=
      atoi_of_digits (by omega) (readSign_digits m)
    rw [atoi_eq_iff read (by omega) (by omega), toDigits_inj]
    omega
  · rw [if_neg nonnegative, String.toList_append, Nat.toList_repr] at place ⊢
    change piece <+: '-' :: Nat.toDigits 10 (-n.toInt).toNat at place
    obtain ⟨digits, rfl, inside⟩ := (List.prefix_cons_iff.mp place).resolve_left some
    change _ ↔ '-' :: digits = '-' :: Nat.toDigits 10 (-n.toInt).toNat
    by_cases none : digits = []
    · -- a sign alone reads as zero
      have zero : n ≠ 0 := fun zero => nonnegative (by rw [zero]; decide)
      rw [none]
      refine iff_of_false (fun read => zero (read.symm.trans (by decide))) fun same => ?_
      exact Nat.toDigits_ne_nil (List.cons.inj same).2.symm
    · obtain ⟨m, below, rfl⟩ := exists_of_prefix_toDigits inside none
      have read : atoi ('-' :: Nat.toDigits 10 m) = Int32.ofInt (-m) :=
        @atoi_of_digits _ true _ (by omega) rfl
      rw [atoi_eq_iff read (by omega) (by omega), List.cons_inj_right, toDigits_inj]
      omega

namespace App

/-- An address with its delimiter. -/
def addressBy (del : Char) (ipaddr : Str) (portno : Int32) : Str :=
  ipaddr ++ del :: (toString portno.toInt).toList

/-- A piece of an address is a piece of the host, or it has the delimiter and a
piece of the port after the host. -/
theorem addressBy_prefix {del : Char} {ipaddr piece : Str} {portno : Int32}
    (place : piece <+: addressBy del ipaddr portno) :
    piece <+: ipaddr ∨ ∃ digits, piece = ipaddr ++ del :: digits ∧
      digits <+: (toString portno.toInt).toList := by
  obtain ⟨rest, same⟩ := place
  rcases List.append_eq_append_iff.mp same with ⟨after, host, _⟩ | ⟨digits, rfl, split⟩
  · exact .inl ⟨after, host.symm⟩
  · match digits with
    | [] => exact .inl (by rw [List.append_nil])
    | _ :: digits =>
        obtain ⟨rfl, port⟩ := List.cons.inj split
        exact .inr ⟨digits, rfl, rest, port.symm⟩

/-- Nodes are told apart by their hosts and ports. -/
theorem make_eq_iff {ipaddr host : Str} {portno port : Int32} :
    (Except.ok (Node.make ipaddr portno) : Except Fault Node) = .ok (Node.make host port) ↔
      ipaddr = host ∧ portno = port := by
  simp [Node.make]

/-- Without a delimiter, the piece is taken twice. -/
theorem registrationBy_of_not_mem {del : Char} {piece : Str} (some : piece ≠ [])
    (absent : del ∉ piece) (short : piece.length < 2 ^ 31 - 1) :
    registrationBy del piece = .ok (Node.make piece (atoi piece)) := by
  rw [registrationBy_eq short, scanned, if_neg absent, Fields.fields_of_not_mem absent some]
  rfl

/-- With nothing after the delimiter, there is no second part. -/
theorem registrationBy_of_mem {del : Char} {ipaddr digits : Str} (free : del ∉ ipaddr)
    (freePort : del ∉ digits) (short : (ipaddr ++ del :: digits).length < 2 ^ 31 - 1) :
    registrationBy del (ipaddr ++ del :: digits) =
      if digits = [] then .error .indexOutOfRange else .ok (Node.make ipaddr (atoi digits)) := by
  rw [registrationBy_eq short, scanned, if_pos (by simp), Fields.fields_append_cons free]
  by_cases none : digits = []
  · rw [if_pos none, none, Fields.fields_nil]
    rfl
  · rw [if_neg none, Fields.fields_of_not_mem freePort none]
    rfl

/-- **Pieces of addresses.** A piece registers the node of the address exactly
when it is the address, or the host alone and the host reads as the port. -/
theorem registrationBy_prefix_iff {del : Char} (noSign : del ≠ '-') (noDigit : ¬ del.isDigit)
    {ipaddr piece : Str} {portno : Int32} (free : del ∉ ipaddr) (some : piece ≠ [])
    (place : piece <+: addressBy del ipaddr portno)
    (short : (addressBy del ipaddr portno).length < 2 ^ 31 - 1) :
    registrationBy del piece = .ok (Node.make ipaddr portno) ↔
      piece = addressBy del ipaddr portno ∨ piece = ipaddr ∧ atoi ipaddr = portno := by
  have small := Nat.lt_of_le_of_lt place.length_le short
  rcases addressBy_prefix place with host | ⟨digits, rfl, port⟩
  · have absent : del ∉ piece := fun member => free (host.subset member)
    rw [registrationBy_of_not_mem some absent small]
    refine Iff.trans make_eq_iff ⟨fun same => .inr ⟨same.1, ?_⟩, fun cases => ?_⟩
    · rw [← same.1]
      exact same.2
    · rcases cases with whole | ⟨rfl, reads⟩
      · exact (absent (by rw [whole, addressBy]; simp)).elim
      · exact ⟨rfl, reads⟩
  · have other : ipaddr ++ del :: digits ≠ ipaddr := by simp
    have freePort : del ∉ digits := fun member =>
      not_mem_toString portno.toInt noSign noDigit (port.subset member)
    rw [registrationBy_of_mem free freePort small]
    by_cases none : digits = []
    · rw [if_pos none]
      refine iff_of_false (fun impossible => by cases impossible) ?_
      rintro (whole | ⟨same, _⟩)
      · rw [none, addressBy, List.append_cancel_left_eq, List.cons_inj_right] at whole
        exact toString_ne_nil portno.toInt whole.symm
      · exact other same
    · rw [if_neg none]
      refine Iff.trans make_eq_iff ?_
      rw [atoi_prefix_iff port none, addressBy, List.append_cancel_left_eq, List.cons_inj_right]
      simp [other]

end App

end Ssle
