import Mathlib.Data.List.Infix

/-! # The launch token of the enclave

`initialize_enclave` hands a token from a file to `sgx_create_enclave` and writes
the token back if that call updated it. Every file operation may fail, and what
is written may be cut off. Over all launches from a missing file, the token handed
over is nevertheless zero or one that an earlier launch was issued, and the
function succeeds when the SDK does; if no file operation fails, it is always the
token issued last (`Ssle.App.launch_tokens`).
-/

namespace Ssle.App

/-- `sizeof(sgx_launch_token_t)`. -/
def tokenSize : Nat := 1024

/-- `sgx_launch_token_t`. -/
abbrev Token := { bytes : List UInt8 // bytes.length = tokenSize }

/-- The token that `initialize_enclave` starts from. -/
def zeroToken : Token := ⟨List.replicate tokenSize 0, List.length_replicate⟩

/-- What `sgx_create_enclave` returns, and leaves in `token` and `updated`. -/
structure Creation where
  succeeded : Bool
  token : Token
  updated : Bool

/-- What the file system and the SDK do in one launch: whether each of the calls
that open the file succeeds, the most bytes that `fread` and `fwrite` transfer,
and the call of `sgx_create_enclave`. -/
structure Conditions where
  readable : Bool
  writable : Bool
  read : Nat
  create : Token → Creation
  reopened : Bool
  written : Nat

/-- How the token file has been opened. -/
inductive Stream where
  | reading
  | writing
  deriving DecidableEq

/-- The token file, if there is one. -/
abbrev File := Option (List UInt8)

/-- The first `fopen`, and the second one if that fails, which leaves an empty
file. -/
def openToken (conditions : Conditions) (file : File) : Option Stream × File :=
  if conditions.readable ∧ file ≠ none then (some .reading, file)
  else if conditions.writable then (some .writing, some [])
  else (none, file)

/-- The bytes that `fread` transfers: none from a stream for writing. -/
def readBytes (conditions : Conditions) (fp : Option Stream) (file : File) : List UInt8 :=
  if fp = some .reading then (file.getD []).take (min tokenSize conditions.read) else []

/-- No more than a token is read. -/
theorem length_readBytes_le (conditions : Conditions) (fp : Option Stream) (file : File) :
    (readBytes conditions fp file).length ≤ tokenSize := by
  rw [readBytes]
  split
  · exact (List.length_take_le _ _).trans (Nat.min_le_left _ _)
  · exact Nat.zero_le _

/-- The token in memory after `fread`, cleared if it is neither missing nor whole. -/
def readToken (conditions : Conditions) (fp : Option Stream) (file : File) : Token :=
  let bytes := readBytes conditions fp file
  if bytes.length ≠ 0 ∧ bytes.length ≠ tokenSize then zeroToken
  else ⟨bytes ++ zeroToken.1.drop bytes.length, by
    have short := length_readBytes_le conditions fp file
    rw [List.length_append, List.length_drop, zeroToken.2]
    exact Nat.add_sub_of_le short⟩

/-- The return value, the token handed to the SDK, and the file left behind. -/
structure Outcome where
  ret : Int
  passed : Token
  file : File

/-- `initialize_enclave`. -/
def initializeEnclave (conditions : Conditions) (file : File) : Outcome :=
  let fp := (openToken conditions file).1
  let file := (openToken conditions file).2
  let token := readToken conditions fp file
  let creation := conditions.create token
  if ¬ creation.succeeded then ⟨-1, token, file⟩
  else if ¬ creation.updated ∨ fp = none then ⟨0, token, file⟩
  else if ¬ conditions.reopened then ⟨0, token, file⟩
  else ⟨0, token, some (creation.token.1.take conditions.written)⟩

/-! ## One launch -/

section Launch

variable (conditions : Conditions) (file : File)

/-- The token that a launch is issued: the one the SDK updated. -/
def issued : Option Token :=
  let creation := conditions.create (initializeEnclave conditions file).passed
  if creation.succeeded ∧ creation.updated then some creation.token else none

/-- The token passed is the one that was read. -/
theorem passed_eq : (initializeEnclave conditions file).passed =
    readToken conditions (openToken conditions file).1 (openToken conditions file).2 := by
  simp only [initializeEnclave]
  split
  · rfl
  · split
    · rfl
    · split <;> rfl

/-- The function succeeds when the SDK does, whatever the file operations do. -/
theorem ret_eq : (initializeEnclave conditions file).ret =
    if (conditions.create (initializeEnclave conditions file).passed).succeeded then 0 else -1 := by
  rw [passed_eq]
  cases succeeded : (conditions.create (readToken conditions (openToken conditions file).1
    (openToken conditions file).2)).succeeded with
  | false => simp [initializeEnclave, succeeded]
  | true =>
      simp only [initializeEnclave, succeeded, not_true_eq_false, if_false, if_true]
      split
      · rfl
      · split <;> rfl

/-- If nothing is read, the token is zero. -/
theorem readToken_of_nil {fp : Option Stream} (none : readBytes conditions fp file = []) :
    readToken conditions fp file = zeroToken := by
  refine Subtype.ext ?_
  simp only [readToken, none, List.length_nil, ne_eq, not_true_eq_false, false_and, if_false,
    List.nil_append, List.drop_zero]

/-- A token that is read whole is passed as it is. -/
theorem readToken_of_whole {fp : Option Stream}
    (whole : (readBytes conditions fp file).length = tokenSize) :
    (readToken conditions fp file).1 = readBytes conditions fp file := by
  simp only [readToken, whole, ne_eq, not_true_eq_false, and_false, if_false]
  rw [List.drop_of_length_le zeroToken.2.le, List.append_nil]

/-- The bytes of a token handed over: zero, or the beginning of the file. -/
theorem readToken_cases (fp : Option Stream) :
    readToken conditions fp file = zeroToken ∨
      (readToken conditions fp file).1 = (file.getD []).take tokenSize := by
  by_cases none : (readBytes conditions fp file).length = 0
  · exact .inl (readToken_of_nil conditions file (List.eq_nil_of_length_eq_zero none))
  by_cases whole : (readBytes conditions fp file).length = tokenSize
  · right
    rw [readToken_of_whole conditions file whole]
    rw [readBytes] at whole ⊢
    split at whole
    next reading =>
      rw [List.length_take] at whole
      rw [if_pos reading, Nat.min_eq_left (by omega)]
    next => cases whole
  · exact .inl (if_pos ⟨none, whole⟩)

/-- Opening the file leaves it alone, or makes an empty one. -/
theorem openToken_file : (openToken conditions file).2 = file ∨
    (openToken conditions file).2 = some [] := by
  rw [openToken]
  split
  · exact .inl rfl
  · split
    · exact .inr rfl
    · exact .inl rfl

/-- The file left behind: what opening it has left, or the beginning of the token
issued. -/
theorem file_cases : (initializeEnclave conditions file).file = (openToken conditions file).2 ∨
    ∃ token, issued conditions file = some token ∧
      (initializeEnclave conditions file).file = some (token.1.take conditions.written) := by
  rw [issued, passed_eq]
  simp only [initializeEnclave]
  split
  · exact .inl rfl
  next succeeded =>
    split
    · exact .inl rfl
    next updated =>
      split
      · exact .inl rfl
      · rw [not_or, not_not] at updated
        exact .inr ⟨_, if_pos ⟨not_not.mp succeeded, updated.1⟩, rfl⟩

end Launch

/-! ## Runs of launches -/

/-- The token file, and the tokens issued so far. -/
structure History where
  file : File
  tokens : List Token

/-- One launch. -/
def History.launch (history : History) (conditions : Conditions) : History where
  file := (initializeEnclave conditions history.file).file
  tokens := history.tokens ++ (issued conditions history.file).toList

/-- The launches from a missing file. -/
def launches (run : List Conditions) : History := run.foldl History.launch ⟨none, []⟩

/-- The file has the beginning of an issued token. -/
def History.Genuine (history : History) : Prop :=
  history.file.getD [] = [] ∨ ∃ token ∈ history.tokens, history.file.getD [] <+: token.1

/-- Launches keep histories genuine. -/
theorem History.Genuine.launch {history : History} (genuine : history.Genuine)
    (conditions : Conditions) : (history.launch conditions).Genuine := by
  rcases file_cases conditions history.file with kept | ⟨token, here, written⟩
  · rcases openToken_file conditions history.file with same | empty
    · rcases genuine with none | ⟨token, member, place⟩
      · exact .inl (by rw [History.launch, kept, same, none])
      · exact .inr ⟨token, List.mem_append_left _ member, by rwa [History.launch, kept, same]⟩
    · exact .inl (by rw [History.launch, kept, empty]; rfl)
  · refine .inr ⟨token, List.mem_append_right _ (by rw [here]; exact List.mem_singleton_self _), ?_⟩
    rw [History.launch, written]
    exact List.take_prefix _ _

/-- All histories are genuine. -/
theorem genuine_launches (run : List Conditions) : (launches run).Genuine := by
  induction run using List.reverseRecOn with
  | nil => exact .inl rfl
  | append_singleton run conditions ih =>
      rw [launches, List.foldl_append]
      exact ih.launch conditions

/-- What is handed over from a genuine file is zero or has been issued. -/
theorem History.Genuine.passed {history : History} (genuine : history.Genuine)
    (conditions : Conditions) :
    (initializeEnclave conditions history.file).passed = zeroToken ∨
      (initializeEnclave conditions history.file).passed ∈ history.tokens := by
  rw [passed_eq]
  rcases readToken_cases conditions (openToken conditions history.file).2
    (openToken conditions history.file).1 with cleared | whole
  · exact .inl cleared
  · have begins : (openToken conditions history.file).2.getD [] = [] ∨
        ∃ token ∈ history.tokens, (openToken conditions history.file).2.getD [] <+: token.1 := by
      rcases openToken_file conditions history.file with same | empty
      · rwa [same]
      · exact .inl (by rw [empty]; rfl)
    have long := (readToken conditions (openToken conditions history.file).1
      (openToken conditions history.file).2).2
    rcases begins with none | ⟨token, member, place⟩
    · rw [whole, none] at long
      cases long
    · rw [whole] at long
      have same : readToken conditions (openToken conditions history.file).1
          (openToken conditions history.file).2 = token :=
        Subtype.ext (whole.trans
          (((List.take_prefix _ _).trans place).eq_of_length (long.trans token.2.symm)))
      exact .inr (same ▸ member)

/-! ## Launches in which no file operation fails -/

/-- Every file operation of a launch succeeds. -/
structure Conditions.Sound (conditions : Conditions) : Prop where
  readable : conditions.readable
  writable : conditions.writable
  read : tokenSize ≤ conditions.read
  reopened : conditions.reopened
  written : tokenSize ≤ conditions.written

/-- The file has the token issued last. -/
def History.Saved (history : History) : Prop :=
  history.file.getD [] = history.tokens.getLast?.elim [] Subtype.val

/-- What a file is opened for. -/
theorem Conditions.Sound.openToken {conditions : Conditions} (sound : conditions.Sound)
    (file : File) : openToken conditions file =
      if file = none then (some .writing, some []) else (some .reading, file) := by
  rw [Ssle.App.openToken]
  by_cases missing : file = none
  · rw [if_neg (fun both => both.2 missing), if_pos sound.writable, if_pos missing]
  · rw [if_pos ⟨sound.readable, missing⟩, if_neg missing]

/-- If nothing fails, opening the file loses no byte of it. -/
theorem Conditions.Sound.openToken_getD {conditions : Conditions} (sound : conditions.Sound)
    (file : File) : (Ssle.App.openToken conditions file).2.getD [] = file.getD [] := by
  rw [sound.openToken]
  split
  next missing => rw [missing]; rfl
  · rfl

/-- If nothing fails, the token passed is the one issued last. -/
theorem Conditions.Sound.passed {conditions : Conditions} (sound : conditions.Sound)
    {history : History} (saved : history.Saved) :
    (initializeEnclave conditions history.file).passed =
      history.tokens.getLast?.getD zeroToken := by
  rw [passed_eq, sound.openToken]
  rw [History.Saved] at saved
  cases last : history.tokens.getLast? with
  | none =>
      rw [last] at saved
      split
      · exact readToken_of_nil _ _ (if_neg nofun)
      · exact readToken_of_nil _ _ ((if_pos rfl).trans (by rw [saved]; exact List.take_nil))
  | some token =>
      rw [last] at saved
      have filled : history.file ≠ none := fun missing => by
        have none : token.1 = [] := by rw [missing] at saved; exact saved.symm
        have long := token.2
        rw [none] at long
        cases long
      have whole : readBytes conditions (some .reading) history.file = token.1 := by
        rw [readBytes, if_pos rfl, saved, Nat.min_eq_left sound.read]
        exact List.take_of_length_le token.2.le
      rw [if_neg filled]
      refine Subtype.ext ?_
      rw [readToken_of_whole _ _ (by rw [whole, token.2]), whole]
      rfl

/-- The file after a launch: the token issued there, or what was in it. -/
theorem Conditions.Sound.file {conditions : Conditions} (sound : conditions.Sound)
    (file : File) : (initializeEnclave conditions file).file.getD [] =
      (issued conditions file).elim (file.getD []) Subtype.val := by
  have opened : (Ssle.App.openToken conditions file).1 ≠ none := by
    rw [sound.openToken]
    split <;> exact Option.some_ne_none _
  rw [issued, passed_eq]
  simp only [initializeEnclave]
  split
  next failed =>
    rw [if_neg fun both => failed both.1]
    exact sound.openToken_getD file
  next succeeded =>
    split
    next kept =>
      rw [if_neg fun both => kept.elim (fun old => old both.2) opened]
      exact sound.openToken_getD file
    next updated =>
      rw [not_or, not_not] at updated
      rw [if_neg fun closed => closed sound.reopened, if_pos ⟨not_not.mp succeeded, updated.1⟩]
      have short (token : Token) : token.1.length ≤ conditions.written := by
        rw [token.2]
        exact sound.written
      exact List.take_of_length_le (short _)

/-- If nothing fails, the token issued is saved. -/
theorem History.Saved.launch {history : History} (saved : history.Saved)
    {conditions : Conditions} (sound : conditions.Sound) :
    (history.launch conditions).Saved := by
  rw [History.Saved, History.launch, sound.file]
  cases issued conditions history.file with
  | none => simpa using show history.file.getD [] = _ from saved
  | some token => simp

/-- As long as nothing fails, the file holds the token issued last. -/
theorem saved_launches (run : List Conditions) (sound : ∀ conditions ∈ run, conditions.Sound) :
    (launches run).Saved := by
  induction run using List.reverseRecOn with
  | nil => rfl
  | append_singleton run conditions ih =>
      rw [launches, List.foldl_append]
      exact (ih fun other member => sound other (List.mem_append_left _ member)).launch
        (sound conditions (List.mem_append_right _ (List.mem_singleton_self _)))

/-- After any launches from a missing file, whatever file operations fail and
wherever a write is cut off, the next launch hands over the zero token or one
issued earlier, and it succeeds exactly when the SDK does. If no file operation has
failed, it hands over the token issued last. -/
theorem launch_tokens (run : List Conditions) (conditions : Conditions) :
    ((initializeEnclave conditions (launches run).file).passed = zeroToken ∨
      (initializeEnclave conditions (launches run).file).passed ∈ (launches run).tokens) ∧
    (initializeEnclave conditions (launches run).file).ret =
      (if (conditions.create
        (initializeEnclave conditions (launches run).file).passed).succeeded then 0 else -1) ∧
    ((∀ earlier ∈ run, earlier.Sound) → conditions.Sound →
      (initializeEnclave conditions (launches run).file).passed =
        (launches run).tokens.getLast?.getD zeroToken) :=
  ⟨(genuine_launches run).passed conditions, ret_eq conditions _,
    fun earlier sound => sound.passed (saved_launches run earlier)⟩

end Ssle.App
