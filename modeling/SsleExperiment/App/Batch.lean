import SsleExperiment.App.Registration

/-! # Registering a list of nodes

`batchRegistration` cuts a list of addresses at its commas and registers each
(`Ssle.App.batchRegistration_eq`), so that two lists with a comma between them are
registered one after the other (`Ssle.App.batchRegistration_append`). Printed nodes
are registered as they were printed, unless a comma follows no address or an address
is as long as the largest `int` (`Ssle.App.batchRegistration_iff`).
-/

namespace Ssle.App

/-- One character of `batchRegistration`, over the nodes and the current token. -/
def batchStep (state : List Node × Str) (c : Char) : Except Fault (List Node × Str) :=
  if c = ',' then do
    let node ← registration state.2
    return (state.1 ++ [node], [])
  else return (state.1, state.2 ++ [c])

/-- The last token of `batchRegistration`, if it is not empty. -/
def batchEnd (state : List Node × Str) : Except Fault (List Node) :=
  if state.2 ≠ [] then do
    let node ← registration state.2
    return state.1 ++ [node]
  else return state.1

/-- `batchRegistration`, over the nodes registered before. -/
def batchRegistration (nodes : List Node) (str : Str) : Except Fault (List Node) := do
  let state ← str.foldlM batchStep (nodes, [])
  batchEnd state

/-! ## The tokens -/

/-- The nodes registered for tokens, after those registered before. -/
def registerAll (nodes : List Node) (tokens : List Str) : Except Fault (List Node) := do
  return nodes ++ (← tokens.mapM registration)

/-- The first token is registered before the others. -/
theorem registerAll_cons (nodes : List Node) (token : Str) (tokens : List Str) :
    registerAll nodes (token :: tokens) =
      registration token >>= fun node => registerAll (nodes ++ [node]) tokens := by
  rw [registerAll, List.mapM_cons]
  cases registration token with
  | error fault => rfl
  | ok node =>
      simp only [ok_bind, registerAll]
      cases tokens.mapM registration with
      | error fault => rfl
      | ok rest =>
          change Except.ok (nodes ++ node :: rest) = Except.ok (nodes ++ [node] ++ rest)
          rw [List.append_assoc, List.singleton_append]

theorem registerAll_nil (nodes : List Node) : registerAll nodes [] = .ok nodes :=
  congrArg Except.ok (List.append_nil nodes)

/-- Tokens that all register are registered in their order. -/
theorem registerAll_map {entries : List (Str × Int32)} {token : Str × Int32 → Str}
    (registers : ∀ entry ∈ entries,
      registration (token entry) = .ok (Node.make entry.1 entry.2)) (nodes : List Node) :
    registerAll nodes (entries.map token) =
      .ok (nodes ++ entries.map fun entry => Node.make entry.1 entry.2) := by
  induction entries generalizing nodes with
  | nil => rw [List.map_nil, List.map_nil, registerAll_nil, List.append_nil]
  | cons entry entries ih =>
      rw [List.forall_mem_cons] at registers
      rw [List.map_cons, registerAll_cons, registers.1, ok_bind, ih registers.2, List.map_cons,
        List.append_assoc, List.singleton_append]

/-- All tokens of a list that is registered register. -/
theorem registerAll_returned {nodes result : List Node} {tokens : List Str}
    (returned : registerAll nodes tokens = .ok result) {token : Str} (member : token ∈ tokens) :
    ∃ node, registration token = .ok node := by
  induction tokens generalizing nodes with
  | nil => cases member
  | cons first tokens ih =>
      rw [registerAll_cons] at returned
      cases registered : registration first with
      | error fault =>
          rw [registered, error_bind] at returned
          cases returned
      | ok node =>
          rw [registered, ok_bind] at returned
          rcases List.mem_cons.mp member with rfl | later
          · exact ⟨node, registered⟩
          · exact ih returned later

/-- From a token without a comma on, the rest of the string is cut at its
commas. -/
theorem foldlM_batchStep (str : Str) (nodes : List Node) {token : Str} (free : ',' ∉ token) :
    (str.foldlM batchStep (nodes, token) >>= batchEnd) =
      registerAll nodes (Fields.fields ',' (token ++ str)) := by
  induction str generalizing nodes token with
  | nil =>
      rw [List.append_nil]
      change batchEnd (nodes, token) = _
      rw [batchEnd]
      by_cases some : token = []
      · rw [some, Fields.fields_nil, registerAll_nil]
        rfl
      · rw [Fields.fields_of_not_mem free some, registerAll_cons, if_pos some]
        simp only [registerAll_nil]
        rfl
  | cons c str ih =>
      rw [List.foldlM_cons, batchStep]
      by_cases comma : c = ','
      · have ended (nodes : List Node) := ih nodes (List.not_mem_nil : ',' ∉ ([] : Str))
        rw [if_pos comma, comma, Fields.fields_append_cons free, registerAll_cons]
        cases registration token with
        | error fault => rfl
        | ok node => exact ended _
      · have longer : ',' ∉ token ++ [c] := by
          rw [List.mem_append, List.mem_singleton]
          exact fun member => member.elim free fun same => comma same.symm
        have regrouped : token ++ c :: str = token ++ [c] ++ str := List.append_cons token c str
        rw [if_neg comma, regrouped]
        exact ih nodes longer

/-- **The tokens.** `batchRegistration` registers the fields between commas. -/
theorem batchRegistration_eq (nodes : List Node) (str : Str) :
    batchRegistration nodes str = registerAll nodes (Fields.fields ',' str) :=
  foldlM_batchStep str nodes List.not_mem_nil

/-! ## Lists one after the other -/

/-- The token is empty before the first character and after a comma. -/
theorem token_eq_nil_iff {str : Str} {nodes : List Node} {state : List Node × Str}
    (returned : str.foldlM batchStep (nodes, []) = .ok state) :
    state.2 = [] ↔ str = [] ∨ str.getLast? = some ',' := by
  induction str using List.reverseRecOn generalizing state with
  | nil =>
      cases returned
      exact iff_of_true rfl (.inl rfl)
  | append_singleton str c ih =>
      rw [List.foldlM_append] at returned
      cases before : str.foldlM batchStep (nodes, []) with
      | error fault =>
          rw [before] at returned
          cases returned
      | ok previous =>
          rw [before, ok_bind, List.foldlM_cons, batchStep] at returned
          have some : str ++ [c] ≠ [] :=
            List.append_ne_nil_of_right_ne_nil str (List.cons_ne_nil c [])
          rw [or_iff_right some, List.getLast?_concat, Option.some.injEq]
          by_cases comma : c = ','
          · rw [if_pos comma] at returned
            cases registered : registration previous.2 with
            | error fault =>
                rw [registered] at returned
                cases returned
            | ok node =>
                rw [registered] at returned
                cases returned
                exact iff_of_true rfl comma
          · rw [if_neg comma] at returned
            cases returned
            exact iff_of_false (List.append_ne_nil_of_right_ne_nil _ (List.cons_ne_nil c [])) comma

theorem registration_nil : registration [] = .error .indexOutOfRange := rfl

/-- **Composition.** A list with a comma and another list is registered like the two,
one after the other, unless the first one is empty or ends with a comma: then the
empty token between the commas is a fault. -/
theorem batchRegistration_append (nodes : List Node) (first second : Str) :
    batchRegistration nodes (first ++ ',' :: second) =
      batchRegistration nodes first >>= fun nodes =>
        if first = [] ∨ first.getLast? = some ',' then .error .indexOutOfRange
        else batchRegistration nodes second := by
  rw [batchRegistration, batchRegistration, List.foldlM_append]
  cases returned : first.foldlM batchStep (nodes, []) with
  | error fault => rfl
  | ok state =>
      have token := token_eq_nil_iff returned
      rw [ok_bind, ok_bind, List.foldlM_cons, batchStep, if_pos rfl, batchEnd]
      by_cases empty : state.2 = []
      · simp only [empty, registration_nil, token.mp empty, if_true]
        rfl
      · simp only [empty, mt token.mpr empty, ne_eq, not_false_eq_true, if_true, if_false]
        cases registration state.2 with
        | error fault => rfl
        | ok node => rfl

/-! ## Printed nodes -/

/-- The addresses of nodes, joined by commas, with or without one at the end. -/
def printed (entries : List (Str × Int32)) (trailing : Bool) : Str :=
  [','].intercalate (entries.map fun entry => address entry.1 entry.2) ++
    if trailing then [','] else []

/-- Addresses have commas only in their hosts. -/
theorem comma_not_mem_address {ipaddr : Str} (free : ',' ∉ ipaddr) (portno : Int32) :
    ',' ∉ address ipaddr portno := by
  rw [address_eq, List.mem_append, List.mem_cons]
  intro member
  rcases member with inIp | colon | inPort
  · exact free inIp
  · cases colon
  · exact not_mem_toString _ (by decide) (by decide) inPort

/-- The tokens of printed nodes are their addresses, and an empty one before a
comma that follows none. -/
theorem fields_printed {entries : List (Str × Int32)} (free : ∀ entry ∈ entries, ',' ∉ entry.1)
    (trailing : Bool) :
    Fields.fields ',' (printed entries trailing) =
      if entries = [] ∧ trailing then [[]]
      else entries.map fun entry => address entry.1 entry.2 := by
  have valid : ∀ piece ∈ entries.map (fun entry => address entry.1 entry.2),
      ',' ∉ piece ∧ piece ≠ [] := by
    intro piece member
    obtain ⟨entry, among, rfl⟩ := List.mem_map.mp member
    exact ⟨comma_not_mem_address (free entry among) entry.2, address_ne_nil entry.1 entry.2⟩
  cases trailing with
  | false =>
      rw [printed, if_neg Bool.false_ne_true, List.append_nil, Fields.fields_intercalate valid,
        if_neg (fun none => Bool.false_ne_true none.2)]
  | true =>
      rw [printed, if_pos rfl]
      by_cases none : entries = []
      · rw [none, if_pos ⟨rfl, rfl⟩]
        rfl
      · rw [if_neg (fun both => none both.1), Fields.fields_intercalate_concat
          (fun empty => none (List.map_eq_nil_iff.mp empty)) fun piece member =>
            (valid piece member).1]

/-- No address is longer than the whole that is printed. -/
theorem length_address_le_printed {entries : List (Str × Int32)} {entry : Str × Int32}
    (member : entry ∈ entries) (trailing : Bool) :
    (address entry.1 entry.2).length ≤ (printed entries trailing).length := by
  have among : address entry.1 entry.2 ∈ entries.map fun entry => address entry.1 entry.2 :=
    List.mem_map_of_mem (f := fun entry => address entry.1 entry.2) member
  rw [printed, List.length_append]
  exact (Fields.length_le_length_intercalate among).trans (Nat.le_add_right _ _)

/-- **Registering what was printed.** The printed nodes are appended to those
registered before, exactly when no comma follows an empty list and every address
is shorter than the largest `int`. -/
theorem batchRegistration_iff (nodes : List Node) (entries : List (Str × Int32)) (trailing : Bool)
    (free : ∀ entry ∈ entries, ':' ∉ entry.1 ∧ ',' ∉ entry.1)
    (total : (printed entries trailing).length < 2 ^ 31) :
    batchRegistration nodes (printed entries trailing) =
        .ok (nodes ++ entries.map fun entry => Node.make entry.1 entry.2) ↔
      ¬ (entries = [] ∧ trailing = true) ∧
        ∀ entry ∈ entries, (address entry.1 entry.2).length < 2 ^ 31 - 1 := by
  rw [batchRegistration_eq, fields_printed fun entry member => (free entry member).2]
  refine ⟨fun returned => ⟨fun none => ?_, fun entry member => ?_⟩, fun shortened => ?_⟩
  · rw [if_pos none] at returned
    obtain ⟨node, registered⟩ := registerAll_returned returned List.mem_cons_self
    cases registered
  · by_contra long
    have size : (address entry.1 entry.2).length = 2 ^ 31 - 1 := by
      have within := length_address_le_printed member trailing
      omega
    rw [if_neg fun none => List.ne_nil_of_mem member none.1] at returned
    obtain ⟨node, registered⟩ := registerAll_returned returned (List.mem_map_of_mem member)
    rw [registration_address_of_length_eq (free entry member).1 size] at registered
    cases registered
  · rw [if_neg shortened.1]
    exact registerAll_map (fun entry member =>
      registration_address (free entry member).1 (shortened.2 entry member)) nodes

/-- Two nodes. -/
def twoNodes : List (Str × Int32) := [(['a'], 80), (['b'], -443)]

theorem batchRegistration_iff_of_twoNodes :
    (∀ entry ∈ twoNodes, ':' ∉ entry.1 ∧ ',' ∉ entry.1) ∧
    (printed twoNodes true).length < 2 ^ 31 ∧
    (batchRegistration [] (printed twoNodes true) =
        .ok ([] ++ twoNodes.map fun entry => Node.make entry.1 entry.2) ↔
      ¬ (twoNodes = [] ∧ true = true) ∧
        ∀ entry ∈ twoNodes, (address entry.1 entry.2).length < 2 ^ 31 - 1) := by
  have free : ∀ entry ∈ twoNodes, ':' ∉ entry.1 ∧ ',' ∉ entry.1 := by
    refine List.forall_mem_cons.mpr ⟨⟨by decide, by decide⟩, ?_⟩
    exact List.forall_mem_singleton.mpr ⟨by decide, by decide⟩
  have total : (printed twoNodes true).length < 2 ^ 31 := by decide
  exact ⟨free, total, batchRegistration_iff [] twoNodes true free total⟩

/-- No nodes, and a comma after them: the token before the comma is empty. -/
theorem registered_comma :
    batchRegistration [] (printed [] true) = .error .indexOutOfRange ∧
      batchRegistration [] (printed [] true) ≠
        .ok ([] ++ ([] : List (Str × Int32)).map fun entry => Node.make entry.1 entry.2) := by
  have failed : batchRegistration [] (printed [] true) = .error .indexOutOfRange := by
    rw [batchRegistration_eq, fields_printed (List.forall_mem_nil _), if_pos ⟨rfl, rfl⟩]
    rfl
  exact ⟨failed, fun returned => nomatch failed.symm.trans returned⟩

end Ssle.App
