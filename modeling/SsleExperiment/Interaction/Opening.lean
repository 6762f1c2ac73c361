import SsleExperiment.Interaction.Dialogue

/-! # The first reports of a dialogue

Until the client's first receive, a run of a dialogue can be described step by
step (`Ssle.Dialogue.Early`). That receive returns a piece of the answers, or
nothing: if the server has failed on the request, or has taken a second piece of
it for the acknowledgement and reset the stream (`Ssle.Dialogue.early_or_opened`).
-/

namespace Ssle.Dialogue

open Processes
open Session (Action)

variable {limit : Nat} {β ι σ τ ε : Type*} {D : Dialogue limit β ι σ τ ε}
  {state : Peers limit β ι σ τ ε}

variable (D) in
/-- The client has sent its request and has received nothing. -/
def listening (inbox : List β) : Process limit β ι τ ε :=
  ⟨[.receive, .receive, .send D.acknowledgement, .close], inbox, [], D.clientMemory, none⟩

/-- A run up to the first receive of the client. -/
inductive Early (D : Dialogue limit β ι σ τ ε) : Peers limit β ι σ τ ε → Prop
  | started : Early D D.start
  | requested :
      Early D ⟨⟨D.serverScript, D.request, [], D.serverMemory, none⟩, D.listening []⟩
  /-- The server has accepted what it has received, and sends its answers. -/
  | answering {input : ι} {chunk : Chunk limit β} {remaining inbox : List β} {memory : σ}
      {unsent : List (List β)} (request : chunk.bytes ++ remaining = D.request)
      (computed : D.serve 0 input (.bytes chunk) D.serverMemory = .ok memory)
      (stream : inbox ++ unsent.flatten = D.stream) :
      Early D ⟨⟨unsent.map .send ++ [.receive, .close], remaining, [(input, .bytes chunk)], memory,
        none⟩, D.listening inbox⟩
  /-- The server has failed on what it has received. -/
  | refusing {input : ι} {chunk : Chunk limit β} {remaining : List β} {fault : ε}
      (request : chunk.bytes ++ remaining = D.request)
      (failed : D.serve 0 input (.bytes chunk) D.serverMemory = .error fault) :
      Early D ⟨⟨[], remaining, [(input, .bytes chunk)], D.serverMemory, some (.fault fault)⟩,
        D.listening []⟩
  /-- The server has taken a second piece of the request for the acknowledgement. -/
  | mistaken {server : Process limit β ι σ ε} {input input' : ι} {chunk chunk' : Chunk limit β}
      {memory : σ} (place : server.script <:+ [.close])
      (log : server.log = [(input, .bytes chunk), (input', .bytes chunk')])
      (request : chunk.bytes ++ (chunk'.bytes ++ server.inbox) = D.request)
      (computed : D.serve 0 input (.bytes chunk) D.serverMemory = .ok memory) :
      Early D ⟨server, D.listening D.stream⟩

/-- What the first reports of both processes were. -/
inductive Opened (D : Dialogue limit β ι σ τ ε) (state : Peers limit β ι σ τ ε) : Prop
  /-- Both have received a piece of what the other sends first. -/
  | answered {input input' : ι} {chunk chunk' : Chunk limit β}
      (server : state.server.log.head? = some (input, .bytes chunk))
      (client : state.client.log.head? = some (input', .bytes chunk'))
      (place : chunk.bytes <+: D.request) (place' : chunk'.bytes <+: D.stream)
      (accepted : ∃ memory, D.serve 0 input (.bytes chunk) D.serverMemory = .ok memory)
  /-- The server has failed on its piece, and the client has received nothing. -/
  | refused {input : ι} {chunk : Chunk limit β} {entry : ι × Report limit β}
      (server : state.server.log.head? = some (input, .bytes chunk))
      (client : state.client.log.head? = some entry)
      (place : chunk.bytes <+: D.request) (empty : entry.2.brings = [])
      (failed : ∃ fault, D.serve 0 input (.bytes chunk) D.serverMemory = .error fault)
  /-- The server has reset the stream after a second piece of the request, and
  the answers are lost. -/
  | dropped {input : ι} {chunk : Chunk limit β} {entry : ι × Report limit β}
      (server : state.server.log.head? = some (input, .bytes chunk))
      (client : state.client.log.head? = some entry)
      (place : chunk.bytes <+: D.request) (empty : entry.2.brings = [])
      (accepted : ∃ memory, D.serve 0 input (.bytes chunk) D.serverMemory = .ok memory)
      (unread : chunk.bytes.length + 1 < D.request.length)

/-- First receives stay what they were. -/
theorem Opened.of_prefix {later : Peers limit β ι σ τ ε} (opened : Opened D state)
    (server : state.server.log <+: later.server.log)
    (client : state.client.log <+: later.client.log) : Opened D later := by
  cases opened with
  | answered first first' place place' accepted =>
      exact .answered (head?_of_grows server first) (head?_of_grows client first') place place'
        accepted
  | refused first first' place empty failed =>
      exact .refused (head?_of_grows server first) (head?_of_grows client first') place empty
        failed
  | dropped first first' place empty accepted unread =>
      exact .dropped (head?_of_grows server first) (head?_of_grows client first') place empty
        accepted unread

/-- The client has not received yet. -/
theorem Early.client_log (early : Early D state) : state.client.log = [] := by
  cases early <;> rfl

theorem listening_present (inbox : List β) : ¬ (D.listening inbox : Process limit β ι τ ε).Over :=
  List.cons_ne_nil _ _

/-- What the server can do before the client's first receive. -/
theorem Early.server_act {server server' : Process limit β ι σ ε}
    {client client' : Process limit β ι τ ε} (early : Early D ⟨server, client⟩)
    (act : Act D.serve server client server' client') : Early D ⟨server', client'⟩ := by
  cases early with
  | started => exact (Blocked.not_act ⟨rfl, rfl, start_present.2⟩ act).elim
  | requested =>
      obtain ⟨rfl, input, ⟨chunk, remaining, split, rfl⟩ | ⟨-, ended, -⟩ | ⟨resets, -⟩⟩ :=
        act.of_receive rfl
      · cases computed : D.serve 0 input (.bytes chunk) D.serverMemory with
        | ok memory =>
            rw [Process.handle_of_ok computed]
            exact .answering split.symm computed rfl
        | error fault =>
            rw [Process.handle_of_error computed]
            exact .refusing split.symm computed
      · exact (listening_present [] ended).elim
      · exact (listening_present [] resets.1).elim
  | @answering input chunk remaining inbox memory unsent request computed stream =>
      cases unsent with
      | nil =>
          rw [List.flatten_nil, List.append_nil] at stream
          obtain ⟨rfl, input', ⟨chunk', rest, split, rfl⟩ | ⟨-, ended, -⟩ | ⟨resets, -⟩⟩ :=
            act.of_receive rfl
          · rw [stream]
            cases next : D.serve 1 input' (.bytes chunk') memory with
            | ok memory' =>
                rw [Process.handle_of_ok next]
                exact .mistaken List.suffix_rfl rfl (by rw [← split]; exact request) computed
            | error fault =>
                rw [Process.handle_of_error next]
                exact .mistaken (List.nil_suffix) rfl (by rw [← split]; exact request) computed
          · exact (listening_present inbox ended).elim
          · exact (listening_present inbox resets.1).elim
      | cons answer unsent =>
          obtain ⟨rfl, rfl⟩ | ⟨resets, -, -⟩ := act.of_send rfl
          · refine .answering request computed ?_
            rw [← stream, List.flatten_cons, List.append_assoc]
            rfl
          · exact (listening_present inbox resets.1).elim
  | refusing request failed => exact (act.present rfl).elim
  | mistaken place log request computed =>
      rcases List.suffix_cons_iff.mp place with close | none
      · obtain ⟨rfl, rfl⟩ := act.of_close close
        exact .mistaken List.nil_suffix log request computed
      · exact (act.present (List.suffix_nil.mp none)).elim

/-- The first report of a client that has sent its request. -/
theorem exists_entry_of_receive {inbox : List β} {server server' : Process limit β ι σ ε}
    {client' : Process limit β ι τ ε} (act : Act D.use (D.listening inbox) server client' server') :
    server' = server ∧ ∃ entry, client'.log.head? = some entry ∧
      ((∃ chunk, entry.2 = .bytes chunk ∧ chunk.bytes <+: inbox) ∨
        (entry.2.brings = [] ∧ (inbox = [] ∧ server.Over ∨ server.Resets))) := by
  obtain ⟨rfl, input, ⟨chunk, remaining, split, rfl⟩ | ⟨empty, ended, rfl⟩ | ⟨resets, rfl⟩⟩ :=
    act.of_receive rfl
  · exact ⟨rfl, (input, .bytes chunk), by simp [listening],
      .inl ⟨chunk, rfl, remaining, split.symm⟩⟩
  · exact ⟨rfl, (input, .endOfStream), by simp [listening], .inr ⟨rfl, .inl ⟨empty, ended⟩⟩⟩
  · exact ⟨rfl, (input, .error), by simp [listening], .inr ⟨rfl, .inr resets⟩⟩

/-- What the client can do before its first receive, and with it. -/
theorem Early.client_act {server server' : Process limit β ι σ ε}
    {client client' : Process limit β ι τ ε} (early : Early D ⟨server, client⟩)
    (act : Act D.use client server client' server') :
    Early D ⟨server', client'⟩ ∨ Opened D ⟨server', client'⟩ := by
  cases early with
  | started =>
      obtain ⟨rfl, rfl⟩ | ⟨resets, -, -⟩ := act.of_send rfl
      · exact .inl .requested
      · exact (start_present.1 resets.1).elim
  | requested => exact (Blocked.not_act ⟨rfl, rfl, by exact List.cons_ne_nil _ _⟩ act).elim
  | @answering input chunk remaining inbox memory unsent request computed stream =>
      have present : unsent.map Action.send ++ [.receive, .close] ≠ [] :=
        List.append_ne_nil_of_right_ne_nil _ (List.cons_ne_nil _ _)
      obtain ⟨rfl, ⟨input', report⟩, head, ⟨chunk', rfl, piece⟩ | ⟨-, ⟨-, ended⟩ | resets⟩⟩ :=
        exists_entry_of_receive act
      · have place' : chunk'.bytes <+: D.stream := stream ▸ piece.trans (List.prefix_append _ _)
        exact .inr (.answered rfl head ⟨remaining, request⟩ place' ⟨memory, computed⟩)
      · exact (present ended).elim
      · exact (present resets.1).elim
  | @refusing input chunk remaining fault request failed =>
      obtain ⟨rfl, ⟨input', report⟩, head, ⟨chunk', rfl, piece⟩ | ⟨empty, -⟩⟩ :=
        exists_entry_of_receive act
      · exact (chunk'.nonempty (List.prefix_nil.mp piece)).elim
      · exact .inr (.refused rfl head ⟨remaining, request⟩ empty ⟨fault, failed⟩)
  | @mistaken _ input input' chunk chunk' memory place log request computed =>
      have first : server.log.head? = some (input, .bytes chunk) := by rw [log]; rfl
      have inside : chunk.bytes <+: D.request := ⟨_, request⟩
      obtain ⟨rfl, ⟨input', report⟩, head, ⟨chunk', rfl, piece⟩ |
        ⟨empty, ⟨none, -⟩ | resets⟩⟩ := exists_entry_of_receive act
      · exact .inr (.answered first head inside piece ⟨memory, computed⟩)
      · exact (D.answered none).elim
      · refine .inr (.dropped first head inside empty ⟨memory, computed⟩ ?_)
        have some := List.length_pos_iff.mpr chunk'.nonempty
        have unread := List.length_pos_iff.mpr resets.2
        rw [← request, List.length_append, List.length_append]
        omega

/-- **First reports.** Every run has either not come to the client's first
receive, or both first reports are as `Opened` says. -/
theorem early_or_opened (reachable : Reachable D.serve D.use D.start state) :
    Early D state ∨ Opened D state := by
  induction reachable with
  | refl => exact .inl .started
  | @tail middle next before step ih =>
      rcases ih with early | opened
      · cases step with
        | server act => exact .inl (early.server_act act)
        | client act => exact early.client_act act
      · have grows := Reachable.log_prefix (.single step)
        exact .inr (opened.of_prefix grows.1 grows.2)

/-- Once the client has received, both processes have. -/
theorem opened_of_received (reachable : Reachable D.serve D.use D.start state)
    (received : state.client.log ≠ []) : Opened D state :=
  (early_or_opened reachable).resolve_left fun early => received early.client_log

end Ssle.Dialogue
