import Mathlib.Data.List.Infix
import Mathlib.Logic.Relation

/-! # Two scripts over one stream

Two parties run straight-line scripts over one connected stream. The bytes of
each direction arrive in order. A receive takes a nonempty piece of what is in
flight, up to a limit, or the end of the stream once the peer has closed it.
Every reachable state satisfies `Ssle.Session.Follows` for both parties: what a
party has taken, what is in flight toward it and what its peer has still to
send are the bytes of the peer's script.
-/

namespace Ssle.Session

variable {β : Type*}

/-- One action of a script. -/
inductive Action (β : Type*) where
  | send (bytes : List β)
  | receive
  | close
  deriving DecidableEq

/-- A party: the actions left, the bytes in flight toward it, what its receives
have returned, and whether it has closed the stream. -/
structure Party (β : Type*) where
  script : List (Action β)
  inbox : List β
  taken : List (List β)
  closed : Bool

/-- A party that has done nothing yet. -/
def Party.starting (script : List (Action β)) : Party β := ⟨script, [], [], false⟩

/-- An action of one party, and what it does to the peer. -/
inductive Act (limit : Nat) : Party β → Party β → Party β → Party β → Prop
  | send {bytes rest inbox taken closed} (peer : Party β) :
      Act limit ⟨.send bytes :: rest, inbox, taken, closed⟩ peer
        ⟨rest, inbox, taken, closed⟩ { peer with inbox := peer.inbox ++ bytes }
  | receive {rest chunk remaining taken closed} (peer : Party β) (nonempty : chunk ≠ [])
      (fits : chunk.length ≤ limit) :
      Act limit ⟨.receive :: rest, chunk ++ remaining, taken, closed⟩ peer
        ⟨rest, remaining, taken ++ [chunk], closed⟩ peer
  | endOfStream {rest taken closed} (peer : Party β) (ended : peer.closed = true) :
      Act limit ⟨.receive :: rest, [], taken, closed⟩ peer
        ⟨rest, [], taken ++ [[]], closed⟩ peer
  | close {rest inbox taken closed} (peer : Party β) :
      Act limit ⟨.close :: rest, inbox, taken, closed⟩ peer ⟨rest, inbox, taken, true⟩ peer

/-- Both ends of the stream. -/
structure Connection (β : Type*) where
  server : Party β
  client : Party β

/-- Either party acts. -/
inductive Step (limit : Nat) : Connection β → Connection β → Prop
  | server {server client server' client' : Party β}
      (act : Act limit server client server' client') :
      Step limit ⟨server, client⟩ ⟨server', client'⟩
  | client {server client server' client' : Party β}
      (act : Act limit client server client' server') :
      Step limit ⟨server, client⟩ ⟨server', client'⟩

/-- The states of a run. -/
def Reachable (limit : Nat) : Connection β → Connection β → Prop :=
  Relation.ReflTransGen (Step limit)

/-- The party waits in a receive, with nothing in flight toward it. -/
structure Blocked (party peer : Party β) : Prop where
  receiving : party.script.head? = some .receive
  empty : party.inbox = []
  isOpen : peer.closed = false

/-- Both parties wait for each other. -/
def Deadlocked (state : Connection β) : Prop :=
  Blocked state.server state.client ∧ Blocked state.client state.server

/-! ## What every run preserves -/

/-- The bytes a script sends. -/
def pending (script : List (Action β)) : List β :=
  script.flatMap fun
    | .send bytes => bytes
    | _ => []

@[simp] theorem pending_nil : pending ([] : List (Action β)) = [] := rfl

@[simp] theorem pending_send (bytes : List β) (rest : List (Action β)) :
    pending (.send bytes :: rest) = bytes ++ pending rest := rfl

@[simp] theorem pending_receive (rest : List (Action β)) :
    pending (.receive :: rest) = pending rest := rfl

@[simp] theorem pending_close (rest : List (Action β)) :
    pending (.close :: rest) = pending rest := rfl

/-- The number of receives of a script. -/
def receives (script : List (Action β)) : Nat :=
  script.countP fun
    | .receive => true
    | _ => false

@[simp] theorem receives_nil : receives ([] : List (Action β)) = 0 := rfl

@[simp] theorem receives_send (bytes : List β) (rest : List (Action β)) :
    receives (.send bytes :: rest) = receives rest := by
  simp [receives]

@[simp] theorem receives_receive (rest : List (Action β)) :
    receives (.receive :: rest) = receives rest + 1 := by
  simp [receives]

@[simp] theorem receives_close (rest : List (Action β)) :
    receives (.close :: rest) = receives rest := by
  simp [receives]

/-- The party is somewhere in its script, and nothing its peer has sent is lost
or out of order. -/
structure Follows (limit : Nat) (script peerScript : List (Action β)) (party peer : Party β) :
    Prop where
  conserved : party.taken.flatten ++ party.inbox ++ pending peer.script = pending peerScript
  suffix : party.script <:+ script
  counted : party.taken.length + receives party.script = receives script
  limited : ∀ chunk ∈ party.taken, chunk.length ≤ limit

/-- A party that has done nothing follows its script. -/
theorem follows_starting (limit : Nat) (script peerScript : List (Action β)) :
    Follows limit script peerScript (.starting script) (.starting peerScript) where
  conserved := rfl
  suffix := List.suffix_rfl
  counted := Nat.zero_add _
  limited _ impossible := nomatch impossible

/-- A party that acts goes on following its script. -/
theorem Act.follows {limit : Nat} {script peerScript : List (Action β)}
    {party peer party' peer' : Party β} (act : Act limit party peer party' peer')
    (follows : Follows limit script peerScript party peer) :
    Follows limit script peerScript party' peer' := by
  obtain ⟨conserved, suffix, counted, limited⟩ := follows
  cases act with
  | send peer =>
      exact ⟨conserved, (List.suffix_cons _ _).trans suffix, by simpa using counted, limited⟩
  | receive peer nonempty fits =>
      refine ⟨by simpa using conserved, (List.suffix_cons _ _).trans suffix, ?_,
        List.forall_mem_append.mpr ⟨limited, List.forall_mem_singleton.mpr fits⟩⟩
      rwa [List.length_append, List.length_singleton, Nat.add_assoc, Nat.add_comm 1,
        ← receives_receive]
  | endOfStream peer ended =>
      refine ⟨by simpa using conserved, (List.suffix_cons _ _).trans suffix, ?_,
        List.forall_mem_append.mpr ⟨limited, List.forall_mem_singleton.mpr (Nat.zero_le _)⟩⟩
      rwa [List.length_append, List.length_singleton, Nat.add_assoc, Nat.add_comm 1,
        ← receives_receive]
  | close peer =>
      exact ⟨conserved, (List.suffix_cons _ _).trans suffix, by simpa using counted, limited⟩

/-- The peer of a party that acts goes on following its script. -/
theorem Act.follows_peer {limit : Nat} {script peerScript : List (Action β)}
    {party peer party' peer' : Party β} (act : Act limit party peer party' peer')
    (follows : Follows limit peerScript script peer party) :
    Follows limit peerScript script peer' party' := by
  obtain ⟨conserved, suffix, counted, limited⟩ := follows
  cases act with
  | send peer => exact ⟨by simpa using conserved, suffix, counted, limited⟩
  | receive peer nonempty fits => exact ⟨by simpa using conserved, suffix, counted, limited⟩
  | endOfStream peer ended => exact ⟨by simpa using conserved, suffix, counted, limited⟩
  | close peer => exact ⟨by simpa using conserved, suffix, counted, limited⟩

/-- **Conservation.** In every run both parties follow their scripts. -/
theorem Reachable.follows {limit : Nat} {script peerScript : List (Action β)}
    {state : Connection β}
    (reachable : Reachable limit ⟨.starting script, .starting peerScript⟩ state) :
    Follows limit script peerScript state.server state.client ∧
      Follows limit peerScript script state.client state.server := by
  induction reachable with
  | refl => exact ⟨follows_starting limit _ _, follows_starting limit _ _⟩
  | tail _ step ih =>
      cases step with
      | server act => exact ⟨act.follows ih.1, act.follows_peer ih.2⟩
      | client act => exact ⟨act.follows_peer ih.1, act.follows ih.2⟩

/-- What has been taken stays taken. -/
theorem Act.taken_prefix {limit : Nat} {party peer party' peer' : Party β}
    (act : Act limit party peer party' peer') :
    party.taken <+: party'.taken ∧ peer.taken <+: peer'.taken := by
  cases act with
  | send peer => exact ⟨List.prefix_rfl, List.prefix_rfl⟩
  | receive peer nonempty fits => exact ⟨List.prefix_append _ _, List.prefix_rfl⟩
  | endOfStream peer ended => exact ⟨List.prefix_append _ _, List.prefix_rfl⟩
  | close peer => exact ⟨List.prefix_rfl, List.prefix_rfl⟩

/-- What has been taken stays taken along a run. -/
theorem Reachable.taken_prefix {limit : Nat} {start state : Connection β}
    (reachable : Reachable limit start state) :
    start.server.taken <+: state.server.taken ∧ start.client.taken <+: state.client.taken := by
  induction reachable with
  | refl => exact ⟨List.prefix_rfl, List.prefix_rfl⟩
  | tail _ step ih =>
      cases step with
      | server act => exact ⟨ih.1.trans act.taken_prefix.1, ih.2.trans act.taken_prefix.2⟩
      | client act => exact ⟨ih.1.trans act.taken_prefix.2, ih.2.trans act.taken_prefix.1⟩

/-! ## What one party can do -/

/-- A party that waits with nothing in flight cannot act. -/
theorem Blocked.not_act {limit : Nat} {party peer party' peer' : Party β}
    (blocked : Blocked party peer) : ¬ Act limit party peer party' peer' := by
  obtain ⟨receiving, empty, isOpen⟩ := blocked
  intro act
  cases act with
  | send peer => cases receiving
  | receive peer nonempty fits => exact nonempty (List.append_eq_nil_iff.mp empty).1
  | endOfStream peer ended => exact absurd ended (by rw [isOpen]; decide)
  | close peer => cases receiving

theorem Act.of_send {limit : Nat} {bytes inbox : List β} {rest : List (Action β)}
    {taken : List (List β)} {closed : Bool} {peer party' peer' : Party β}
    (act : Act limit ⟨.send bytes :: rest, inbox, taken, closed⟩ peer party' peer') :
    party' = ⟨rest, inbox, taken, closed⟩ ∧
      peer' = { peer with inbox := peer.inbox ++ bytes } := by
  cases act
  exact ⟨rfl, rfl⟩

/-- A message that fits can be received whole. -/
theorem Act.receive_all {limit : Nat} {message : List β} {rest : List (Action β)}
    {taken : List (List β)} {closed : Bool} (peer : Party β) (some : message ≠ [])
    (fits : message.length ≤ limit) :
    Act limit ⟨.receive :: rest, message, taken, closed⟩ peer
      ⟨rest, [], taken ++ [message], closed⟩ peer := by
  have act : Act limit ⟨.receive :: rest, message ++ [], taken, closed⟩ peer
      ⟨rest, [], taken ++ [message], closed⟩ peer := .receive peer some fits
  rwa [List.append_nil] at act

/-- A receive that takes the message in flight as a whole leaves nothing. -/
theorem Act.of_receive {limit : Nat} {message : List β} {rest : List (Action β)}
    {taken : List (List β)} {closed : Bool} {peer party' peer' : Party β} (some : message ≠ [])
    (act : Act limit ⟨.receive :: rest, message, taken, closed⟩ peer party' peer')
    (whole : party'.taken <+: taken ++ [message]) :
    party' = ⟨rest, [], taken ++ [message], closed⟩ ∧ peer' = peer := by
  generalize same : Party.mk (.receive :: rest) message taken closed = party at act
  cases act with
  | send peer => cases same
  | receive peer nonempty fits =>
      injection same with sameScript sameInbox sameTaken sameClosed
      cases sameScript
      cases sameTaken
      cases sameClosed
      have chunk := List.prefix_append_right_inj _ |>.mp whole
      rw [List.prefix_cons_iff] at chunk
      simp only [List.cons_ne_nil, List.cons.injEq, false_or] at chunk
      obtain ⟨_, ⟨rfl, _⟩, _⟩ := chunk
      rw [List.self_eq_append_right.mp sameInbox]
      exact ⟨rfl, rfl⟩
  | endOfStream peer ended =>
      injection same with _ sameInbox
      exact (some sameInbox).elim
  | close peer => cases same

end Ssle.Session
