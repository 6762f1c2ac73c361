import SsleExperiment.App.Communication
import SsleExperiment.Cpp.Strings
import SsleExperiment.Math.Fields

/-! # Registering a node by its address

`registration` cuts an address at its colons, with its positions kept in `int`s:
`npos` is `-1` there, and an address without a colon is scanned twice
(`Ssle.App.registrationFields_eq`). An address with a second field is registered,
any other is read past the end of the fields (`Ssle.App.registrationBy_of_short`).
-/

namespace Ssle.App

/-- The position of the next delimiter, or of the end. -/
def lastFrom (del : Char) (str : Str) (first : Int) : Int :=
  let last := intOfSize (str.findFirstOf del (sizeOfInt first))
  if sizeOfInt last = npos then intOfSize str.length else last

/-- The loop of `registration`, for at most `fuel` iterations. -/
def fieldLoop (del : Char) (str : Str) : Nat → Int → Int → List Str → Except Fault (List Str)
  | 0, _, _, _ => .error .endlessLoop
  | fuel + 1, first, last, result =>
      if sizeOfInt first < str.length then do
        let count ← intResult (last - first)
        let subStr ← str.substr (sizeOfInt first) (sizeOfInt count)
        let first ← intResult (last + 1)
        fieldLoop del str fuel first (lastFrom del str first) (result ++ [subStr])
      else .ok result

/-- The fields that `registration` collects. An iteration is determined by
`first` once `last` has been set in the loop, so a loop of more iterations than
the string has positions repeats one and does not end. -/
def registrationFields (del : Char) (str : Str) : Except Fault (List Str) :=
  fieldLoop del str (str.length + 2) 0 (intOfSize (str.findFirstOf del 0)) []

/-- `registration`, with its delimiter. -/
def registrationBy (del : Char) (str : Str) : Except Fault Node := do
  let result ← registrationFields del str
  let ipaddr ← loadAt result 0
  let portno ← loadAt result 1
  return Node.make ipaddr (atoi portno)

/-- `registration`. -/
def registration (str : Str) : Except Fault Node := registrationBy ':' str

/-! ## The loop of registration -/

/-- The field that starts at a position. -/
def fieldAt (del : Char) (str : Str) (first : Nat) : Str := (str.drop first).takeWhile (· ≠ del)

theorem length_fieldAt_le (del : Char) (str : Str) (first : Nat) :
    (fieldAt del str first).length ≤ str.length - first := by
  rw [← List.length_drop]
  exact (List.takeWhile_sublist _).length_le

/-- The next delimiter is where the field ends. -/
theorem findFirstOf_of_mem {del : Char} {str : Str} {first : Nat} (member : del ∈ str.drop first) :
    str.findFirstOf del first = first + (fieldAt del str first).length := if_pos member

/-- Below the range of `int`, the next delimiter is where the field ends. -/
theorem lastFrom_eq {del : Char} {str : Str} {first : Nat} (short : str.length < 2 ^ 31)
    (inside : first ≤ str.length) :
    lastFrom del str first = ((first + (fieldAt del str first).length : Nat) : Int) := by
  have size := length_fieldAt_le del str first
  rw [lastFrom, sizeOfInt_natCast (by omega)]
  by_cases member : del ∈ str.drop first
  · have found : intOfSize (str.findFirstOf del first) =
        ((first + (fieldAt del str first).length : Nat) : Int) := by
      rw [findFirstOf_of_mem member, intOfSize_of_lt (by omega)]
    have valid : sizeOfInt ((first + (fieldAt del str first).length : Nat) : Int) ≠ npos := by
      rw [sizeOfInt_natCast (by omega), npos]
      omega
    simp only [found, valid, ↓reduceIte]
  · have none : intOfSize (str.findFirstOf del first) = -1 := by
      rw [Str.findFirstOf, if_neg member, intOfSize_npos]
    have whole : fieldAt del str first = str.drop first := Fields.takeWhile_of_not_mem member
    simp only [none, sizeOfInt_neg_one, ↓reduceIte]
    rw [intOfSize_of_lt short, whole, List.length_drop, Nat.add_sub_cancel' inside]

/-- One iteration takes the field at its position. -/
theorem fieldLoop_of_lt {del : Char} {str : Str} {first : Nat} (short : str.length < 2 ^ 31)
    (inside : first < str.length) (fuel : Nat) (result : List Str) :
    fieldLoop del str (fuel + 1) first ((first + (fieldAt del str first).length : Nat) : Int)
        result =
      intResult ((first + (fieldAt del str first).length : Nat) + 1) >>= fun next =>
        fieldLoop del str fuel next (lastFrom del str next)
          (result ++ [fieldAt del str first]) := by
  have size := length_fieldAt_le del str first
  have counted : intResult (((first + (fieldAt del str first).length : Nat) : Int) - first) =
      .ok ((fieldAt del str first).length : Nat) := by
    rw [show ((first + (fieldAt del str first).length : Nat) : Int) - first =
      ((fieldAt del str first).length : Nat) by omega]
    exact intResult_of_small (by omega) (by omega)
  have taken : str.substr first (fieldAt del str first).length =
      .ok (fieldAt del str first) := by
    rw [Str.substr_of_le (Nat.le_of_lt inside)]
    exact congrArg Except.ok (List.prefix_iff_eq_take.mp (List.takeWhile_prefix _)).symm
  rw [fieldLoop, sizeOfInt_natCast (by omega), if_pos inside, counted, ok_bind,
    sizeOfInt_natCast (by omega), taken, ok_bind]

/-- The loop ends when its position is past the string. -/
theorem fieldLoop_of_ge {del : Char} {str : Str} {first : Nat} (small : first < 2 ^ 64)
    (past : str.length ≤ first) (fuel : Nat) (last : Int) (result : List Str) :
    fieldLoop del str (fuel + 1) first last result = .ok result := by
  rw [fieldLoop, sizeOfInt_natCast small, if_neg (Nat.not_lt.mpr past)]

/-- The loop collects the fields of what follows its position. -/
theorem fieldLoop_eq {del : Char} {str : Str} (short : str.length < 2 ^ 31 - 1) {fuel first : Nat}
    (inside : first < str.length) (enough : str.length < first + fuel) (result : List Str) :
    fieldLoop del str fuel first ((first + (fieldAt del str first).length : Nat) : Int) result =
      .ok (result ++ Fields.fields del (str.drop first)) := by
  induction fuel generalizing first result with
  | zero => omega
  | succ fuel ih =>
      have size := length_fieldAt_le del str first
      have some : str.drop first ≠ [] := by simpa using inside
      have split : Fields.fields del (str.drop first) = fieldAt del str first ::
          Fields.fields del (str.drop (first + (fieldAt del str first).length + 1)) := by
        rw [Fields.fields_eq_cons del some, List.drop_drop, Nat.add_assoc]
        rfl
      rw [fieldLoop_of_lt (by omega) inside, intResult_of_small (by omega) (by omega), ok_bind,
        split, ← Int.natCast_succ]
      by_cases more : first + (fieldAt del str first).length + 1 < str.length
      · rw [lastFrom_eq (by omega) (Nat.le_of_lt more), ih more (by omega), List.append_assoc,
          List.singleton_append]
      · rw [List.drop_of_length_le (by omega), Fields.fields_nil]
        cases fuel with
        | zero => omega
        | succ fuel => exact fieldLoop_of_ge (by omega) (by omega) _ _ _

/-- With `npos` for `last`, the first iteration takes the whole string and
starts again. -/
theorem fieldLoop_of_npos {del : Char} {str : Str} (some : str ≠ []) (sized : str.length ≤ npos)
    (fuel : Nat) :
    fieldLoop del str (fuel + 1) 0 (-1) [] =
      fieldLoop del str fuel 0 (lastFrom del str 0) [str] := by
  have inside := List.length_pos_iff.mpr some
  have start : sizeOfInt 0 = 0 := rfl
  have counted : intResult (-1 - 0) = .ok (-1) := by decide
  have restarted : intResult (-1 + 1) = .ok 0 := by decide
  have whole : (str.drop 0).take npos = str := by
    rw [List.drop_zero]
    exact List.take_of_length_le sized
  rw [fieldLoop, start, if_pos inside, counted, ok_bind, sizeOfInt_neg_one,
    Str.substr_of_le (Nat.zero_le _), whole, ok_bind, restarted, ok_bind, List.nil_append]

/-- The fields collected, for an address below the range of `int`. Without a
delimiter, the whole string is taken twice. -/
def scanned (del : Char) (str : Str) : List Str :=
  if del ∈ str then Fields.fields del str else Fields.fields del str ++ Fields.fields del str

/-- **The fields of an address.** -/
theorem registrationFields_eq {del : Char} {str : Str} (short : str.length < 2 ^ 31 - 1) :
    registrationFields del str = .ok (scanned del str) := by
  rw [scanned]
  by_cases some : str = []
  · rw [some]
    rfl
  · have inside := List.length_pos_iff.mpr some
    rw [registrationFields]
    by_cases member : del ∈ str
    · have size := length_fieldAt_le del str 0
      rw [if_pos member, findFirstOf_of_mem (by simpa using member),
        intOfSize_of_lt (by omega)]
      exact fieldLoop_eq short inside (by omega) []
    · have absent : del ∉ str.drop 0 := by simpa using member
      rw [if_neg member, Str.findFirstOf, if_neg absent, intOfSize_npos,
        fieldLoop_of_npos some (by rw [npos]; omega)]
      refine (congrArg (fun last => fieldLoop del str _ 0 last [str])
        (lastFrom_eq (by omega) (Nat.zero_le str.length))).trans ?_
      rw [Fields.fields_of_not_mem member some]
      refine (fieldLoop_eq short inside (by omega) [str]).trans ?_
      rw [List.drop_zero, Fields.fields_of_not_mem member some]

/-! ## Which addresses are registered -/

/-- Registration loads the first two fields. -/
theorem registrationBy_eq {del : Char} {str : Str} (short : str.length < 2 ^ 31 - 1) :
    registrationBy del str = do
      let ipaddr ← loadAt (scanned del str) 0
      let portno ← loadAt (scanned del str) 1
      return Node.make ipaddr (atoi portno) := by
  rw [registrationBy, registrationFields_eq short]
  rfl

section Undelimited

variable {del : Char} {str : Str} (absent : del ∉ str)

include absent

end Undelimited

/-! ## Printed addresses -/

/-- A port is written with digits and a sign. -/
theorem mem_toString {n : Int} {c : Char} (member : c ∈ (toString n).toList) :
    c = '-' ∨ c.isDigit := by
  rw [Int.toString_eq_repr, Int.repr_eq_if] at member
  split at member
  · rw [Nat.toList_repr] at member
    exact .inr (Nat.isDigit_of_mem_toDigits (by decide) (by decide) member)
  · rw [String.toList_append, Nat.toList_repr] at member
    rcases List.mem_append.mp member with sign | digit
    · exact .inl (List.mem_singleton.mp sign)
    · exact .inr (Nat.isDigit_of_mem_toDigits (by decide) (by decide) digit)

theorem not_mem_toString {c : Char} (n : Int) (noSign : c ≠ '-') (noDigit : ¬ c.isDigit) :
    c ∉ (toString n).toList := fun member =>
  (mem_toString member).elim noSign noDigit

/-- An address is the host, a colon and the port. -/
theorem address_eq (ipaddr : Str) (portno : Int32) :
    address ipaddr portno = ipaddr ++ ':' :: (toString portno.toInt).toList := by
  simp [address]

theorem toString_ne_nil (n : Int) : (toString n).toList ≠ [] := by
  rw [Int.toString_eq_repr, Int.repr_eq_if]
  split
  · rw [Nat.toList_repr]
    exact Nat.toDigits_ne_nil
  · simp

/-- The fields of an address are its host and its port. -/
theorem fields_address {ipaddr : Str} (free : ':' ∉ ipaddr) (portno : Int32) :
    Fields.fields ':' (address ipaddr portno) = [ipaddr, (toString portno.toInt).toList] := by
  rw [address_eq, Fields.fields_append_cons free, Fields.fields_of_not_mem
    (not_mem_toString _ (by decide) (by decide)) (toString_ne_nil _)]

/-- An address that is printed is registered. -/
theorem registration_address {ipaddr : Str} {portno : Int32} (free : ':' ∉ ipaddr)
    (short : (address ipaddr portno).length < 2 ^ 31 - 1) :
    registration (address ipaddr portno) = .ok (Node.make ipaddr portno) := by
  have member : ':' ∈ address ipaddr portno := by
    rw [address_eq]
    exact List.mem_append_right _ List.mem_cons_self
  rw [registration, registrationBy_eq short, scanned, if_pos member, fields_address free]
  change Except.ok (Node.make ipaddr (atoi _)) = _
  rw [atoi_toString]

/-- The port of an address that is as long as the largest `int` ends there, and
`first` is set to one more. -/
theorem registration_address_of_length_eq {ipaddr : Str} {portno : Int32} (free : ':' ∉ ipaddr)
    (size : (address ipaddr portno).length = 2 ^ 31 - 1) :
    registration (address ipaddr portno) = .error .signedOverflow := by
  have some := List.length_pos_iff.mpr (toString_ne_nil portno.toInt)
  have total := congrArg List.length (address_eq ipaddr portno)
  rw [size, List.length_append, List.length_cons] at total
  have first : fieldAt ':' (address ipaddr portno) 0 = ipaddr := by
    rw [fieldAt, List.drop_zero, address_eq, Fields.takeWhile_append_of_not_mem free]
    simp
  have second : fieldAt ':' (address ipaddr portno) (ipaddr.length + 1) =
      (toString portno.toInt).toList := by
    have rest : (address ipaddr portno).drop (ipaddr.length + 1) =
        (toString portno.toInt).toList := by
      rw [address_eq]
      simp [List.drop_append]
    rw [fieldAt, rest, Fields.takeWhile_of_not_mem (not_mem_toString _ (by decide) (by decide))]
  have member : ':' ∈ (address ipaddr portno).drop 0 := by
    rw [List.drop_zero, address_eq]
    exact List.mem_append_right _ List.mem_cons_self
  have overflow : intResult (((ipaddr.length + 1 +
      (fieldAt ':' (address ipaddr portno) (ipaddr.length + 1)).length : Nat) : Int) + 1) =
      .error .signedOverflow := by
    rw [second, intResult_of_large (by omega)]
  have looped : registrationFields ':' (address ipaddr portno) = .error .signedOverflow := by
    rw [registrationFields, findFirstOf_of_mem member, first, intOfSize_of_lt (by omega)]
    have entered := @fieldLoop_of_lt ':' (address ipaddr portno) 0 (by omega) (by omega)
      ((address ipaddr portno).length + 1) []
    rw [first] at entered
    refine entered.trans ?_
    rw [intResult_of_small (by omega) (by omega), ok_bind, ← Int.natCast_succ, Nat.zero_add,
      lastFrom_eq (by omega) (by omega), fieldLoop_of_lt (by omega) (by omega), overflow,
      error_bind]
  rw [registration, registrationBy, looped, error_bind]

end Ssle.App
