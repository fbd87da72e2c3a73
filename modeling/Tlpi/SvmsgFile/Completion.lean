import Tlpi.SvmsgFile.Replies

/-!
# Every client is served

A step of a process brings the work to an end that its client has brought along when it was
started (`State.todo`).  So a run has only so many of them, whatever the scheduling; and where no
process can go on although nobody has failed, every client has its file or has been refused.

* `todo_step`: what a step takes.
* `served_of_stuck`: no deadlock.
* `server_completes`: both together.
-/

namespace Tlpi.SvmsgFile

open Tlpi.Lib

/-- A step of a process; it may fail. -/
def Event.Counts : Event → Bool
  | .start _ | .killClient _ | .killChild _ | .eintr => false
  | _ => true

/-- A step that needs nobody to fail. -/
def Event.Goes : Event → Prop
  | .client _ | .parent | .child _ | .read _ _ => True
  | _ => False

/-! ### The number of steps -/

/-- What a file costs its child. -/
def cost (file : Bytes → Option Bytes) (pathname : Bytes) : Nat :=
  3 * ((file pathname).getD []).length + 4

/-- `n` is what the file of the child costs, and `rest` what is left of it. -/
def ChildPc.todo (n rest : Nat) : ChildPc → Nat
  | .opening => n
  | .read => 3 * rest + 3
  | .sendData _ => 3 * rest + 5
  | .sendEnd | .sendFailure => 2
  | .exited => 0

/-- The steps that a child has still to take, and the messages that it has still to send. -/
def Child.todo (file : Bytes → Option Bytes) (ch : Child) : Nat :=
  ch.pc.todo (cost file ch.req.pathname) ch.rest.length

/-- `n` is what the file of the client costs. -/
def ClientPc.todo (n : Nat) : ClientPc → Nat
  | .send => n + 5
  | .first | .loop _ _ _ => 2
  | .remove _ => 1
  | .exited _ => 0

/-- The steps of a client; it takes the messages from its queue in as many. -/
def Client.todo (file : Bytes → Option Bytes) (c : Client) : Nat :=
  c.pc.todo (cost file c.pathname) + (c.queue.getD []).length

def ParentPc.todo (file : Bytes → Option Bytes) : ParentPc → Nat
  | .recv => 2
  | .fork req => cost file req.pathname + 3
  | .remove => 1
  | .exited => 0

/-- A measure of what is left to be done. -/
def State.todo (file : Bytes → Option Bytes) (s : State) : Nat :=
  total (Client.todo file) s.clients + total (Child.todo file) s.children +
    total (fun r : Request => cost file r.pathname + 2) (s.serverQ.getD []) + s.parent.todo file

/-- What a client brings along. -/
def Event.gain (file : Bytes → Option Bytes) : Event → Nat
  | .start pathname => cost file pathname + 5
  | _ => 0

section Steps

variable {file : Bytes → Option Bytes} {qbytes : Nat} {s s' : State}

theorem todo_setClient {q : Nat} {c c' : Client} (hc : s.clients[q]? = some c)
    (h : c'.todo file + 1 ≤ c.todo file) : (s.setClient q c').todo file + 1 ≤ s.todo file := by
  have := total_set_add (f := Client.todo file) hc c'
  simp only [State.todo, State.setClient]
  omega

theorem todo_setChild {j : Nat} {ch ch' : Child} (hch : s.children[j]? = some ch)
    (h : ch'.todo file + 1 ≤ ch.todo file) : (s.setChild j ch').todo file + 1 ≤ s.todo file := by
  have := total_set_add (f := Child.todo file) hch ch'
  simp only [State.todo, State.setChild]
  omega

theorem todo_stepClient {q : Nat} {c : Client} (hc : s.clients[q]? = some c)
    (hstep : stepClient qbytes s q c = some s') : s'.todo file + 1 ≤ s.todo file := by
  cases hpc : c.pc <;> simp only [stepClient, hpc] at hstep
  case send =>
    split at hstep
    · cases hstep
      refine todo_setClient hc ?_
      simp only [Client.todo, hpc, ClientPc.todo]
      omega
    · next l hq =>
      split_ifs at hstep
      cases hstep
      have := total_set_add (f := Client.todo file) hc { c with pc := .first }
      simp only [Client.todo, hpc, ClientPc.todo] at this
      simp only [State.todo, State.setClient, hq, Option.getD_some, total_append, total_singleton]
      omega
  case first =>
    split at hstep
    · cases hstep
      refine todo_setClient hc ?_
      simp only [Client.todo, hpc, ClientPc.todo]
      omega
    · cases hstep
    · next r l hq =>
      cases hstep
      refine todo_setClient hc ?_
      simp only [Client.todo, hpc, hq, Option.getD_some, List.length_cons]
      split <;> simp only [ClientPc.todo] <;> omega
  case loop mtype totBytes numMsgs =>
    split_ifs at hstep
    · split at hstep
      · cases hstep
        refine todo_setClient hc ?_
        simp only [Client.todo, hpc, ClientPc.todo]
        omega
      · cases hstep
      · next r l hq =>
        cases hstep
        refine todo_setClient hc ?_
        simp only [Client.todo, hpc, hq, Option.getD_some, List.length_cons, ClientPc.todo]
        omega
    · cases hstep
      refine todo_setClient hc ?_
      simp only [Client.todo, hpc, ClientPc.todo]
      omega
  case remove out =>
    cases hstep
    refine todo_setClient hc ?_
    simp only [Client.todo, hpc, ClientPc.todo, Option.getD_none, List.length_nil]
    omega
  case exited => cases hstep

theorem todo_stepParent (hstep : stepParent s = some s') : s'.todo file + 1 ≤ s.todo file := by
  cases hpc : s.parent <;> simp only [stepParent, hpc] at hstep
  case recv =>
    split at hstep
    · cases hstep
      simp only [State.todo, hpc, ParentPc.todo]
      omega
    · cases hstep
    · next r l hq =>
      cases hstep
      simp only [State.todo, hpc, hq, ParentPc.todo, Option.getD_some, total]
      omega
  case fork req =>
    cases hstep
    simp only [State.todo, hpc, ParentPc.todo, total_append, total_singleton, Child.todo,
      ChildPc.todo]
    omega
  case remove =>
    cases hstep
    simp only [State.todo, hpc, ParentPc.todo, Option.getD_none, total]
    omega
  case exited => cases hstep

theorem todo_sendResponse {j : Nat} {ch : Child} {r : Response} {ok err : ChildPc}
    (hch : s.children[j]? = some ch) (hstep : sendResponse qbytes s j ch r ok err = some s')
    (hok : ∀ n, ok.todo n ch.rest.length + 2 ≤ ch.pc.todo n ch.rest.length)
    (herr : ∀ n, err.todo n ch.rest.length + 1 ≤ ch.pc.todo n ch.rest.length) :
    s'.todo file + 1 ≤ s.todo file := by
  have hfail : ({ ch with pc := err } : Child).todo file + 1 ≤ ch.todo file := herr _
  have hsent := hok (cost file ch.req.pathname)
  rw [sendResponse] at hstep
  split at hstep
  · cases hstep
    exact todo_setChild hch hfail
  · next c hc =>
    split at hstep
    · cases hstep
      exact todo_setChild hch hfail
    · next l hq =>
      split_ifs at hstep
      cases hstep
      have hcl := total_set_add (f := Client.todo file) hc { c with queue := some (l ++ [r]) }
      have hchild := total_set_add (f := Child.todo file) hch
        { ch with pc := ok, sent := ch.sent ++ [r] }
      simp only [Client.todo, hq, Option.getD_some, List.length_append, List.length_singleton]
        at hcl
      simp only [Child.todo] at hchild
      simp only [State.todo, State.setClient, State.setChild]
      omega

theorem todo_stepChild {j : Nat} {ch : Child} (hch : s.children[j]? = some ch)
    (hstep : stepChild file qbytes s j ch = some s') : s'.todo file + 1 ≤ s.todo file := by
  cases hpc : ch.pc <;> simp only [stepChild, hpc] at hstep
  case opening =>
    split at hstep
    · cases hstep
      refine todo_setChild hch ?_
      simp [Child.todo, hpc, ChildPc.todo, cost]
    · next contents hfile =>
      cases hstep
      refine todo_setChild hch ?_
      simp [Child.todo, hpc, ChildPc.todo, cost, hfile]
  case read | exited => cases hstep
  case sendData b =>
    refine todo_sendResponse hch hstep (fun n => ?_) fun n => ?_
    · simp only [hpc, ChildPc.todo]
      omega
    · simp only [hpc, ChildPc.todo]
      omega
  case sendEnd | sendFailure =>
    refine todo_sendResponse hch hstep (fun n => ?_) fun n => ?_
    · simp only [hpc, ChildPc.todo]
      omega
    · simp only [hpc, ChildPc.todo]
      omega

theorem todo_stepRead {j n : Nat} {ch : Child} (hch : s.children[j]? = some ch)
    (hstep : stepRead s j ch n = some s') : s'.todo file + 1 ≤ s.todo file := by
  rw [stepRead] at hstep
  split_ifs at hstep with hcond hn
  · cases hstep
    refine todo_setChild hch ?_
    simp [Child.todo, hcond.1, ChildPc.todo]
  · cases hstep
    refine todo_setChild hch ?_
    simp only [Child.todo, hcond.1, ChildPc.todo, List.length_drop]
    omega

theorem todo_step {e : Event} (hstep : step file qbytes s e = some s') :
    s'.todo file + (if e.Counts then 1 else 0) ≤ s.todo file + e.gain file := by
  cases e <;> simp only [step] at hstep <;>
    simp only [Event.Counts, Event.gain, if_true, Bool.false_eq_true, if_false, Nat.add_zero]
  case start pathname =>
    rw [startClient] at hstep
    split_ifs at hstep
    cases hstep
    simp only [State.todo, total_append, total_singleton, Client.todo, ClientPc.todo,
      Option.getD_some, List.length_nil]
    omega
  case client q =>
    split at hstep
    · cases hstep
    · next c hc =>
      split_ifs at hstep
      exact todo_stepClient hc hstep
  case killClient q =>
    split at hstep
    · cases hstep
    · next c hc =>
      cases hstep
      have := total_set_add (f := Client.todo file) hc { c with dead := true }
      simp only [Client.todo] at this
      simp only [State.todo, State.setClient]
      omega
  case parent => exact todo_stepParent hstep
  case eintr =>
    split_ifs at hstep
    cases hstep
    exact Nat.le_refl _
  case recvFails =>
    split_ifs at hstep with hpc
    cases hstep
    simp only [State.todo, hpc, ParentPc.todo]
    omega
  case forkFails =>
    split at hstep
    · next req hpc =>
      cases hstep
      simp only [State.todo, hpc, ParentPc.todo]
      omega
    · cases hstep
  case child j =>
    split at hstep
    · cases hstep
    · next ch hch =>
      split_ifs at hstep
      exact todo_stepChild hch hstep
  case read j n =>
    split at hstep
    · cases hstep
    · next ch hch =>
      split_ifs at hstep
      exact todo_stepRead hch hstep
  case readFails j =>
    split at hstep
    · cases hstep
    · next ch hch =>
      split_ifs at hstep with hcond
      rw [not_or, not_not] at hcond
      cases hstep
      refine todo_setChild hch ?_
      simp only [Child.todo, hcond.2, ChildPc.todo]
      omega
  case killChild j =>
    split at hstep
    · cases hstep
    · next ch hch =>
      cases hstep
      have := total_set_add (f := Child.todo file) hch { ch with killed := true }
      simp only [Child.todo] at this
      simp only [State.todo, State.setChild]
      omega

/-! ### No deadlock -/

/-- The server serves, and nobody has been killed or could not read. -/
structure State.Healthy (s : State) : Prop where
  serving : s.Serving
  client : ∀ c ∈ s.clients, c.dead = false
  child : ∀ ch ∈ s.children, ch.killed = false ∧ ch.readFailed = false

/-- The client has not failed. -/
def ClientPc.Well : ClientPc → Prop
  | .remove .failed | .exited .failed => False
  | _ => True

/-- When it has exited, its queue is gone. -/
def Client.Clean (c : Client) : Prop :=
  match c.pc with
  | .exited _ => c.queue = none
  | _ => True

/-- While the server has its queue no client fails. -/
structure Unfailed (s : State) : Prop where
  well : s.serverQ ≠ none → ∀ c ∈ s.clients, c.pc.Well
  clean : ∀ c ∈ s.clients, c.Clean

theorem Unfailed.of_clients (h : Unfailed s) (hclients : s'.clients = s.clients)
    (hq : s'.serverQ ≠ none → s.serverQ ≠ none) : Unfailed s' :=
  ⟨fun hne => hclients ▸ h.well (hq hne), hclients ▸ h.clean⟩

theorem Unfailed.set (h : Unfailed s) {q : Nat} {c' : Client}
    (hclients : s'.clients = s.clients.set q c') (hq : s'.serverQ ≠ none → s.serverQ ≠ none)
    (hwell : s'.serverQ ≠ none → c'.pc.Well) (hclean : c'.Clean) : Unfailed s' := by
  refine ⟨fun hne c hc => ?_, fun c hc => ?_⟩
  · rw [hclients] at hc
    rcases List.mem_or_eq_of_mem_set hc with hc | rfl
    · exact h.well (hq hne) c hc
    · exact hwell hne
  · rw [hclients] at hc
    rcases List.mem_or_eq_of_mem_set hc with hc | rfl
    · exact h.clean c hc
    · exact hclean

theorem unfailed_stepClient {q : Nat} {c : Client} (hinv : Inv file s) (h : Unfailed s)
    (hc : s.clients[q]? = some c) (hstep : stepClient qbytes s q c = some s') : Unfailed s' := by
  have hclient := hinv.client q c hc
  cases hpc : c.pc <;> simp only [stepClient, hpc] at hstep <;>
    simp only [ClientInv, hpc] at hclient
  case send =>
    split at hstep
    · next hq =>
      cases hstep
      exact h.set rfl id (fun hne => absurd hq hne) trivial
    · next l hq =>
      split_ifs at hstep
      cases hstep
      exact h.set rfl (fun _ => hq ▸ Option.some_ne_none l) (fun _ => trivial) trivial
  case first =>
    split at hstep
    · next hq => exact absurd hq hclient.2
    · cases hstep
    · next r l hq =>
      cases hstep
      by_cases hfail : r.mtype = .RESP_MT_FAILURE
      · rw [if_pos hfail]
        exact h.set rfl id (fun _ => trivial) trivial
      · rw [if_neg hfail]
        exact h.set rfl id (fun _ => trivial) trivial
  case loop mtype totBytes numMsgs =>
    split_ifs at hstep
    · split at hstep
      · next hq => exact absurd hq hclient.2
      · cases hstep
      · cases hstep
        exact h.set rfl id (fun _ => trivial) trivial
    · cases hstep
      exact h.set rfl id (fun _ => trivial) trivial
  case remove out =>
    cases hstep
    refine h.set rfl id (fun hne => ?_) rfl
    have hwell := h.well hne c (List.mem_of_getElem? hc)
    rw [hpc] at hwell
    cases out with
    | failed => exact hwell
    | received | refused => trivial
  case exited => cases hstep

theorem unfailed_sendResponse {j : Nat} {ch : Child} {r : Response} {ok err : ChildPc}
    (h : Unfailed s) (hstep : sendResponse qbytes s j ch r ok err = some s') : Unfailed s' := by
  rw [sendResponse] at hstep
  split at hstep
  · cases hstep
    exact h.of_clients rfl id
  · next c hc =>
    have hmem := List.mem_of_getElem? hc
    split at hstep
    · cases hstep
      exact h.of_clients rfl id
    · next l hq =>
      split_ifs at hstep
      cases hstep
      refine h.set rfl id (fun hne => h.well hne c hmem) ?_
      -- A client that has exited would have no queue.
      have hclean := h.clean c hmem
      cases hpc : c.pc <;> simp only [Client.Clean, hpc] at hclean ⊢
      case exited =>
        rw [hq] at hclean
        cases hclean

theorem unfailed_step {e : Event} (hinv : Inv file s) (h : Unfailed s)
    (hstep : step file qbytes s e = some s') : Unfailed s' := by
  cases e <;> simp only [step] at hstep
  case start pathname =>
    rw [startClient] at hstep
    split_ifs at hstep with hcond
    cases hstep
    refine ⟨fun _ c hc => ?_, fun c hc => ?_⟩ <;> rcases List.mem_append.mp hc with hc | hc
    · exact h.well (Option.isSome_iff_ne_none.mp hcond.1) c hc
    · rw [List.mem_singleton.mp hc]
      trivial
    · exact h.clean c hc
    · rw [List.mem_singleton.mp hc]
      trivial
  case client q =>
    split at hstep
    · cases hstep
    · next c hc =>
      split_ifs at hstep
      exact unfailed_stepClient hinv h hc hstep
  case killClient q =>
    split at hstep
    · cases hstep
    · next c hc =>
      have hmem := List.mem_of_getElem? hc
      cases hstep
      exact h.set rfl id (fun hne => h.well hne c hmem) (h.clean c hmem)
  case parent =>
    cases hpc : s.parent <;> simp only [stepParent, hpc] at hstep
    case recv =>
      split at hstep
      · cases hstep
        exact h.of_clients rfl id
      · cases hstep
      · next r l hq =>
        cases hstep
        exact h.of_clients rfl fun _ => hq ▸ Option.some_ne_none _
    case fork | remove =>
      cases hstep
      exact h.of_clients rfl fun hne => by first | exact hne | exact absurd rfl hne
    case exited => cases hstep
  case eintr =>
    split_ifs at hstep
    cases hstep
    exact h
  case recvFails =>
    split_ifs at hstep
    cases hstep
    exact h.of_clients rfl id
  case forkFails =>
    split at hstep
    · cases hstep
      exact h.of_clients rfl id
    · cases hstep
  case child j =>
    split at hstep
    · cases hstep
    · next ch hch =>
      split_ifs at hstep
      cases hpc : ch.pc <;> simp only [stepChild, hpc] at hstep
      case opening =>
        split at hstep
        · cases hstep
          exact h.of_clients rfl id
        · cases hstep
          exact h.of_clients rfl id
      case read | exited => cases hstep
      case sendData | sendEnd | sendFailure => exact unfailed_sendResponse h hstep
  case read j n =>
    split at hstep
    · cases hstep
    · next ch hch =>
      split_ifs at hstep
      rw [stepRead] at hstep
      split_ifs at hstep
      · cases hstep
        exact h.of_clients rfl id
      · cases hstep
        exact h.of_clients rfl id
  case readFails j =>
    split at hstep
    · cases hstep
    · split_ifs at hstep
      cases hstep
      exact h.of_clients rfl id
  case killChild j =>
    split at hstep
    · cases hstep
    · cases hstep
      exact h.of_clients rfl id

theorem unfailed_of_reach (h : (system file qbytes).Reach s) : Unfailed s := by
  have hboth := System.Reach.invariant (I := fun s => Inv file s ∧ Unfailed s)
    ⟨inv_init file, fun _ _ hc => absurd hc List.not_mem_nil,
      fun _ hc => absurd hc List.not_mem_nil⟩
    (fun _ _ _ hinv hstep => ⟨inv_step hinv.1 hstep, unfailed_step hinv.1 hinv.2 hstep⟩) h
  exact hboth.2

/-- No process can go on. -/
def Stuck (file : Bytes → Option Bytes) (qbytes : Nat) (s : State) : Prop :=
  ∀ e : Event, e.Goes → step file qbytes s e = none

theorem Stuck.parent (h : Stuck file qbytes s) (hserving : s.Serving) :
    s.parent = .recv ∧ s.serverQ = some [] := by
  obtain ⟨hq, hremove, hexited⟩ := hserving
  have hnone := h .parent trivial
  simp only [step] at hnone
  cases hpc : s.parent <;> simp only [stepParent, hpc] at hnone
  case recv =>
    split at hnone
    · cases hnone
    · next hnil => exact ⟨rfl, hnil⟩
    · cases hnone
  case fork => cases hnone
  case remove => exact absurd hpc hremove
  case exited => exact absurd hpc hexited

/-- A client that cannot go on has exited, or it waits for a message. -/
theorem Stuck.client {q : Nat} {c : Client} (h : Stuck file qbytes s)
    (hreq : REQ_MSG_SIZE ≤ qbytes) (hserverQ : s.serverQ = some []) (hc : s.clients[q]? = some c)
    (hdead : c.dead = false) :
    (∃ out, c.pc = .exited out) ∨ (c.queue = some [] ∧
      (c.pc = .first ∨ ∃ totBytes numMsgs, c.pc = .loop .RESP_MT_DATA totBytes numMsgs)) := by
  have hnone := h (.client q) trivial
  simp only [step, hc, hdead, Bool.false_eq_true, if_false] at hnone
  cases hpc : c.pc <;> simp only [stepClient, hpc] at hnone
  case send =>
    have hroom : Room qbytes (([] : List Request).length * REQ_MSG_SIZE)
        ([] : List Request).length REQ_MSG_SIZE := by
      rw [REQ_MSG_SIZE, PATH_MAX] at hreq ⊢
      exact ⟨by simpa using hreq, by rw [List.length_nil]; omega⟩
    simp only [hserverQ, if_pos hroom] at hnone
    cases hnone
  case first =>
    split at hnone
    · cases hnone
    · next hnil => exact .inr ⟨hnil, .inl rfl⟩
    · cases hnone
  case loop mtype totBytes numMsgs =>
    split_ifs at hnone with hdata
    split at hnone
    · cases hnone
    · next hnil => exact .inr ⟨hnil, .inr ⟨totBytes, numMsgs, by rw [hdata]⟩⟩
    · cases hnone
  case remove => cases hnone
  case exited out => exact .inl ⟨out, rfl⟩

/-- An empty queue has room for an answer, and one that is not there makes nobody wait. -/
theorem sendResponse_ne_none {j : Nat} {ch : Child} {r : Response} {ok err : ChildPc}
    (hroom : r.data.length ≤ qbytes) (hpos : 1 ≤ qbytes)
    (hempty : ∀ c, s.clients[ch.req.clientId]? = some c → c.queue = none ∨ c.queue = some []) :
    sendResponse qbytes s j ch r ok err ≠ none := by
  rw [sendResponse]
  split
  · exact Option.some_ne_none _
  · next c hc =>
    rcases hempty c hc with hq | hq
    · rw [hq]
      exact Option.some_ne_none _
    · have : Room qbytes (bytesOf []) ([] : List Response).length r.data.length :=
        ⟨by simpa [bytesOf] using hroom, by simpa using hpos⟩
      simp only [hq, if_pos this]
      exact Option.some_ne_none _

theorem Stuck.child {j : Nat} {ch : Child} (h : Stuck file qbytes s) (hinv : Inv file s)
    (hresp : RESP_MSG_SIZE ≤ qbytes) (hch : s.children[j]? = some ch) (hkilled : ch.killed = false)
    (hempty : ∀ c, s.clients[ch.req.clientId]? = some c → c.queue = none ∨ c.queue = some []) :
    ch.pc = .exited := by
  have hnone := h (.child j) trivial
  have hchild := hinv.child ch (List.mem_of_getElem? hch)
  simp only [step, hch, hkilled, Bool.false_eq_true, if_false] at hnone
  cases hpc : ch.pc <;> simp only [stepChild, hpc] at hnone <;>
    simp only [ChildInv, hpc] at hchild
  case opening =>
    split at hnone
    · cases hnone
    · cases hnone
  case read =>
    -- `read` returns as much as there is room for.
    have hread := h (.read j (min RESP_MSG_SIZE ch.rest.length)) trivial
    have hcond : ch.pc = .read ∧ min RESP_MSG_SIZE ch.rest.length ≤ RESP_MSG_SIZE ∧
        min RESP_MSG_SIZE ch.rest.length ≤ ch.rest.length ∧
        (min RESP_MSG_SIZE ch.rest.length = 0 → ch.rest = []) := by
      refine ⟨hpc, Nat.min_le_left _ _, Nat.min_le_right _ _, fun hzero => ?_⟩
      rw [RESP_MSG_SIZE] at hzero
      exact List.length_eq_zero_iff.mp (by omega)
    simp only [step, hch, hkilled, Bool.false_eq_true, if_false, stepRead, if_pos hcond] at hread
    cases hread
  case sendData b =>
    exact absurd hnone (sendResponse_ne_none (hchild.2.2.trans hresp)
      (Nat.le_trans (by decide) hresp) hempty)
  case sendEnd =>
    exact absurd hnone (sendResponse_ne_none (Nat.zero_le _)
      (Nat.le_trans (by decide) hresp) hempty)
  case sendFailure =>
    exact absurd hnone (sendResponse_ne_none (Nat.le_trans (by decide) hresp)
      (Nat.le_trans (by decide) hresp) hempty)
  case exited => rfl

/-- Nobody waits for a message for ever. -/
theorem Stuck.exited {q : Nat} {c : Client} (h : Stuck file qbytes s) (hinv : Inv file s)
    (hreq : REQ_MSG_SIZE ≤ qbytes) (hresp : RESP_MSG_SIZE ≤ qbytes) (hhealthy : s.Healthy)
    (hc : s.clients[q]? = some c) : ∃ out, c.pc = .exited out := by
  obtain ⟨hparent, hserverQ⟩ := h.parent hhealthy.serving
  rcases h.client hreq hserverQ hc (hhealthy.client c (List.mem_of_getElem? hc)) with
    hout | ⟨hnil, hpc⟩
  · exact hout
  · have hwaits : c.pc.Waits := by
      rcases hpc with hpc | ⟨totBytes, numMsgs, hpc⟩ <;> rw [hpc] <;> trivial
    -- The request of this client has a child, which has exited.
    obtain ⟨r, hr, rfl⟩ := List.mem_map.mp (hinv.waits hhealthy.serving q c hc hwaits)
    simp only [State.requests, hparent, hserverQ, ParentPc.request, Option.getD_some,
      List.append_nil] at hr
    obtain ⟨ch, hch, rfl⟩ := List.mem_map.mp hr
    obtain ⟨j, hj⟩ := List.mem_iff_getElem?.mp hch
    have hexited := h.child hinv hresp hj (hhealthy.child ch hch).1 fun d hd => by
      rw [hc] at hd
      cases hd
      exact .inr hnil
    have hchild := hinv.child ch hch
    simp only [ChildInv, hexited] at hchild
    have hans := hchild.resolve_right fun hgone => by
      rw [hgone.1 c hc] at hnil
      cases hnil
    -- It has sent a last message, and the client has not seen one.
    have hseen := (hinv.stream ch hch c hc).2 _ hnil
    rw [List.append_nil] at hseen
    have hlast : ∃ r ∈ c.seen, r.mtype ≠ .RESP_MT_DATA := by
      rw [hseen]
      rcases hans with ⟨-, hsent⟩ | ⟨ds, contents, -, -, hsent, -⟩
      · rw [hsent]
        exact ⟨couldntOpen, List.mem_singleton_self _, by decide⟩
      · rw [hsent]
        exact ⟨endMsg, List.mem_append_right _ (List.mem_singleton_self _), by decide⟩
    obtain ⟨r, hr, hmtype⟩ := hlast
    have hclient := hinv.client _ c hc
    rcases hpc with hpc | ⟨totBytes, numMsgs, hpc⟩ <;> simp only [ClientInv, hpc] at hclient
    · rw [hclient.1] at hr
      cases hr
    · obtain ⟨⟨before, r', heq, hbefore, hr', -⟩, -⟩ := hclient
      rw [heq] at hr
      rcases List.mem_append.mp hr with hr | hr
      · exact absurd (hbefore r hr) hmtype
      · rw [List.mem_singleton.mp hr, hr'] at hmtype
        exact absurd rfl hmtype

end Steps

/-- What a client has got in the end. -/
def Served (file : Bytes → Option Bytes) (c : Client) : Prop :=
  match file c.pathname with
  | none => c.pc = .exited .refused
  | some contents => ∃ ds : List Bytes, Parts ds ∧ ds.flatten = contents ∧
      c.seen = ds.map dataMsg ++ [endMsg] ∧
      c.pc = .exited (.received contents.length (ds.length + 1))

/-- Everybody has finished, and no queue is left but the server's, which is empty. -/
structure AllServed (file : Bytes → Option Bytes) (s : State) : Prop where
  serverQ : s.serverQ = some []
  child : ∀ ch ∈ s.children, ch.pc = .exited
  client : ∀ c ∈ s.clients, c.queue = none ∧ Served file c

theorem served_of_stuck {file : Bytes → Option Bytes} {qbytes : Nat} {s : State}
    (hreq : REQ_MSG_SIZE ≤ qbytes) (hresp : RESP_MSG_SIZE ≤ qbytes)
    (hreach : (system file qbytes).Reach s) (hhealthy : s.Healthy) (h : Stuck file qbytes s) :
    AllServed file s := by
  have hinv := inv_of_reach hreach
  have hunfailed := unfailed_of_reach hreach
  have hserverQ := (h.parent hhealthy.serving).2
  have hqueue : ∀ c ∈ s.clients, c.queue = none := by
    intro c hc
    obtain ⟨q, hq⟩ := List.mem_iff_getElem?.mp hc
    obtain ⟨out, hpc⟩ := h.exited hinv hreq hresp hhealthy hq
    have hclean := hunfailed.clean c hc
    simpa only [Client.Clean, hpc] using hclean
  refine ⟨hserverQ, fun ch hch => ?_, fun c hc => ⟨hqueue c hc, ?_⟩⟩
  · obtain ⟨j, hj⟩ := List.mem_iff_getElem?.mp hch
    exact h.child hinv hresp hj (hhealthy.child ch hch).1 fun c hc =>
      .inl (hqueue c (List.mem_of_getElem? hc))
  · obtain ⟨q, hq⟩ := List.mem_iff_getElem?.mp hc
    obtain ⟨out, hpc⟩ := h.exited hinv hreq hresp hhealthy hq
    have htold := serves_every_client hreach hq
    cases out with
    | received totBytes numMsgs =>
      obtain ⟨ch, hch, -, ds, contents, hfile, hparts, hseen, htot, hnum, -, hall⟩ :=
        htold.received totBytes numMsgs hpc
      have hflat := hall (hhealthy.child ch hch).2
      rw [Served, hfile]
      refine ⟨ds, hparts, hflat, hseen, ?_⟩
      rw [hpc, htot, hnum, hflat]
    | refused =>
      rw [Served, (htold.refused hpc).1]
      exact hpc
    | failed =>
      have hwell := hunfailed.well (hserverQ ▸ Option.some_ne_none _) c hc
      rw [hpc] at hwell
      exact hwell.elim

/-- **Every client is served.**  The processes take at most so many steps, whatever the
scheduling: two, and for every client that is started those that its file costs.  Where none of
them can go on and nobody has failed, every client has got its file in whole, or has been refused
because it cannot be opened. -/
theorem server_completes (file : Bytes → Option Bytes) (qbytes : Nat)
    (hreq : REQ_MSG_SIZE ≤ qbytes) (hresp : RESP_MSG_SIZE ≤ qbytes) (es : List Event) (s : State)
    (h : (system file qbytes).exec init es = some s) :
    es.countP Event.Counts ≤ 2 + total (Event.gain file) es ∧
      (s.Healthy → Stuck file qbytes s → AllServed file s) := by
  refine ⟨?_, served_of_stuck hreq hresp (System.reach_of_exec h)⟩
  have hbound := System.countP_le_of_gain (State.todo file) Event.Counts (Event.gain file)
    (fun _ _ _ => todo_step) es h
  have hinit : State.todo file init = 2 := rfl
  omega

theorem server_completes_two :
    twoClients.countP Event.Counts ≤ 2 + total (Event.gain threeBytes) twoClients ∧
      AllServed threeBytes twoClientsEnd := by
  have h := server_completes threeBytes 16384 (by decide) (by decide) twoClients twoClientsEnd
    (by decide +kernel)
  refine ⟨h.1, h.2 ⟨⟨by decide, by decide, by decide⟩, by decide, by decide⟩ fun e he => ?_⟩
  cases e with
  | client q => rcases q with _ | _ | q <;> rfl
  | parent => rfl
  | child j => rcases j with _ | _ | j <;> rfl
  | read j n => rcases j with _ | _ | j <;> rfl
  | _ => exact he.elim

end Tlpi.SvmsgFile
