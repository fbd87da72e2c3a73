import Mathlib.Data.List.Infix
import Tlpi.Lib.Lists
import Tlpi.SvmsgFile.Model

/-!
# Every client gets its own file

The requests are a list that nobody reorders: those that have a child, the one that the parent
has in its hands, and those in the queue (`State.requests`).  No two of them are of the same
client, so a client's queue is filled by one child only: what the client has seen and what is in
its queue are what this child has sent (`Inv.stream`).

* `inv_step`: every step keeps the invariant.
* `serves_every_client`: what a client is told is about the file it has asked for.
-/

namespace Tlpi.SvmsgFile

open Tlpi.Lib

/-- The request that the parent has taken from the queue. -/
def ParentPc.request : ParentPc → List Request
  | .fork req => [req]
  | _ => []

/-- The requests that have been sent, the oldest first. -/
def State.requests (s : State) : List Request :=
  s.children.map Child.req ++ (s.parent.request ++ s.serverQ.getD [])

/-- The clients that have sent a request. -/
def State.ids (s : State) : List Nat := s.requests.map Request.clientId

/-- The queue with this identifier is not there. -/
def Gone (s : State) (q : Nat) : Prop := ∀ c, s.clients[q]? = some c → c.queue = none

/-- The parts that a file is sent in. -/
def Parts (ds : List Bytes) : Prop := ∀ d ∈ ds, d ≠ [] ∧ d.length ≤ RESP_MSG_SIZE

/-- The first parts of a file have been sent, and `after` is behind them. -/
def Sending (file : Bytes → Option Bytes) (ch : Child) (after : Bytes → Prop) : Prop :=
  ∃ (ds : List Bytes) (contents : Bytes), file ch.req.pathname = some contents ∧ Parts ds ∧
    ch.sent = ds.map dataMsg ∧ ∃ rest, contents = ds.flatten ++ rest ∧ after rest

/-- A whole answer. -/
def Answered (file : Bytes → Option Bytes) (ch : Child) : Prop :=
  (file ch.req.pathname = none ∧ ch.sent = [couldntOpen]) ∨
    ∃ (ds : List Bytes) (contents : Bytes), file ch.req.pathname = some contents ∧ Parts ds ∧
      ch.sent = ds.map dataMsg ++ [endMsg] ∧ ds.flatten <+: contents ∧
      (ch.readFailed = false → ds.flatten = contents)

/-- What a child has sent. -/
def ChildInv (file : Bytes → Option Bytes) (gone : Prop) (ch : Child) : Prop :=
  match ch.pc with
  | .opening => ch.sent = []
  | .read => Sending file ch (· = ch.rest)
  | .sendData b =>
      Sending file ch (· = b ++ ch.rest) ∧ b ≠ [] ∧ b.length ≤ RESP_MSG_SIZE
  | .sendEnd => Sending file ch fun rest => ch.readFailed = false → rest = [] ∨ gone
  | .sendFailure => file ch.req.pathname = none ∧ ch.sent = []
  | .exited => Answered file ch ∨ (gone ∧ ∃ ds : List Bytes, ch.sent = ds.map dataMsg)

/-- What a client has seen when it ends. -/
def Ended (seen : List Response) : Outcome → Prop
  | .received totBytes numMsgs =>
      ∃ before r, seen = before ++ [r] ∧ (∀ m ∈ before, m.mtype = .RESP_MT_DATA) ∧
        r.mtype ≠ .RESP_MT_DATA ∧ (before = [] → r.mtype ≠ .RESP_MT_FAILURE) ∧
        totBytes = bytesOf seen ∧ numMsgs = seen.length
  | .refused => ∃ r, seen = [r] ∧ r.mtype = .RESP_MT_FAILURE
  | .failed => True

/-- What a client has seen. -/
def ClientInv (c : Client) : Prop :=
  match c.pc with
  | .send | .first => c.seen = [] ∧ c.queue ≠ none
  | .loop mtype totBytes numMsgs =>
      (∃ before r, c.seen = before ++ [r] ∧ (∀ m ∈ before, m.mtype = .RESP_MT_DATA) ∧
        r.mtype = mtype ∧ (before = [] → r.mtype ≠ .RESP_MT_FAILURE) ∧
        totBytes = bytesOf c.seen ∧ numMsgs = c.seen.length) ∧ c.queue ≠ none
  | .remove out => Ended c.seen out ∧ c.queue ≠ none
  | .exited out => Ended c.seen out

/-- The client waits for an answer. -/
def ClientPc.Waits : ClientPc → Prop
  | .first | .loop _ _ _ => True
  | _ => False

/-- The server goes on serving. -/
def State.Serving (s : State) : Prop :=
  s.serverQ ≠ none ∧ s.parent ≠ .remove ∧ s.parent ≠ .exited

structure Inv (file : Bytes → Option Bytes) (s : State) : Prop where
  nodup : s.ids.Nodup
  request : ∀ r ∈ s.requests, ∃ c, s.clients[r.clientId]? = some c ∧ c.pathname = r.pathname ∧
    c.pc ≠ .send
  child : ∀ ch ∈ s.children, ChildInv file (Gone s ch.req.clientId) ch
  stream : ∀ ch ∈ s.children, ∀ c, s.clients[ch.req.clientId]? = some c →
    c.seen <+: ch.sent ∧ ∀ l, c.queue = some l → c.seen ++ l = ch.sent
  quiet : ∀ (q : Nat) (c : Client), s.clients[q]? = some c →
    (∀ ch ∈ s.children, ch.req.clientId ≠ q) → c.seen = [] ∧ ∀ l, c.queue = some l → l = []
  client : ∀ (q : Nat) (c : Client), s.clients[q]? = some c → ClientInv c
  waits : s.Serving → ∀ (q : Nat) (c : Client), s.clients[q]? = some c → c.pc.Waits → q ∈ s.ids

section Steps

variable {file : Bytes → Option Bytes} {qbytes : Nat} {s s' : State}

theorem inv_init (file : Bytes → Option Bytes) : Inv file init := by
  constructor <;> simp [init, State.ids, State.requests, ParentPc.request]

theorem Sending.mono {ch : Child} {after after' : Bytes → Prop} (h : Sending file ch after)
    (himp : ∀ rest, after rest → after' rest) : Sending file ch after' := by
  obtain ⟨ds, contents, hfile, hparts, hsent, rest, heq, hafter⟩ := h
  exact ⟨ds, contents, hfile, hparts, hsent, rest, heq, himp rest hafter⟩

theorem ChildInv.mono {gone gone' : Prop} {ch : Child} (h : ChildInv file gone ch)
    (hgone : gone → gone') : ChildInv file gone' ch := by
  cases hpc : ch.pc <;> simp only [ChildInv, hpc] at h ⊢
  case sendEnd => exact h.mono fun rest hrest hread => (hrest hread).imp_right hgone
  case exited => exact h.imp_right fun hg => ⟨hgone hg.1, hg.2⟩
  all_goals exact h

/-! #### Clients -/

theorem bytesOf_snoc (l : List Response) (r : Response) :
    bytesOf (l ++ [r]) = bytesOf l + r.data.length := by
  induction l with
  | nil => simp [bytesOf]
  | cons a l ih =>
    rw [List.cons_append, bytesOf, ih, bytesOf]
    omega

/-- What a step of a client does with its queue: nothing, it takes a message, or it removes it. -/
def Takes (c c' : Client) : Prop :=
  (c'.seen = c.seen ∧ (c'.queue = c.queue ∨ c'.queue = none)) ∨
    ∃ r l, c.queue = some (r :: l) ∧ c'.queue = some l ∧ c'.seen = c.seen ++ [r]

theorem Takes.stream {c c' : Client} {sent : List Response} (h : Takes c c')
    (hs : c.seen <+: sent ∧ ∀ l, c.queue = some l → c.seen ++ l = sent) :
    c'.seen <+: sent ∧ ∀ l, c'.queue = some l → c'.seen ++ l = sent := by
  rcases h with ⟨hseen, hqueue | hqueue⟩ | ⟨r, l, hq, hq', hseen⟩
  · rw [hseen, hqueue]
    exact hs
  · rw [hseen, hqueue]
    exact ⟨hs.1, nofun⟩
  · have hall : c.seen ++ [r] ++ l = sent := by
      rw [List.append_assoc]
      exact hs.2 _ hq
    rw [hseen, hq']
    refine ⟨⟨l, hall⟩, fun l' hl' => ?_⟩
    cases hl'
    exact hall

theorem getElem?_clients {q q' : Nat} {c c' : Client} (hc : s.clients[q]? = some c)
    (hclients : s'.clients = s.clients.set q c') :
    s'.clients[q']? = if q = q' then some c' else s.clients[q']? := by
  rw [hclients, List.getElem?_set]
  split
  · rw [if_pos (List.getElem?_eq_some_iff.mp hc).1]
  · rfl

/-- A step of a client. -/
theorem inv_of_client {q : Nat} {c c' : Client} (h : Inv file s) (hc : s.clients[q]? = some c)
    (hclients : s'.clients = s.clients.set q c') (hchildren : s'.children = s.children)
    (htakes : Takes c c') (hinv : ClientInv c') (hnodup : s'.ids.Nodup)
    (hrequest : ∀ r ∈ s'.requests, ∃ c, s'.clients[r.clientId]? = some c ∧
      c.pathname = r.pathname ∧ c.pc ≠ .send)
    (hwaits : s'.Serving → ∀ (q : Nat) (c : Client), s'.clients[q]? = some c → c.pc.Waits →
      q ∈ s'.ids) : Inv file s' := by
  have hget : ∀ q', s'.clients[q']? = if q = q' then some c' else s.clients[q']? :=
    fun q' => getElem?_clients hc hclients
  refine ⟨hnodup, hrequest, fun ch hch => ?_, fun ch hch d hd => ?_, fun q' d hd hno => ?_,
    fun q' d hd => ?_, hwaits⟩
  · rw [hchildren] at hch
    refine (h.child ch hch).mono fun hgone d hd => ?_
    rw [hget] at hd
    split at hd
    · next heq =>
      cases hd
      have hnone := hgone c (heq ▸ hc)
      rcases htakes with ⟨-, hqueue | hqueue⟩ | ⟨r, l, hq, -⟩
      · rw [hqueue, hnone]
      · exact hqueue
      · rw [hnone] at hq
        cases hq
    · exact hgone d hd
  · rw [hchildren] at hch
    rw [hget] at hd
    split at hd
    · next heq =>
      cases hd
      exact htakes.stream (h.stream ch hch c (heq ▸ hc))
    · exact h.stream ch hch d hd
  · rw [hchildren] at hno
    rw [hget] at hd
    split at hd
    · next heq =>
      cases hd
      subst heq
      obtain ⟨hseen, hqueue⟩ := h.quiet q c hc hno
      rcases htakes with ⟨hseen', hqueue' | hqueue'⟩ | ⟨r, l, hq, -⟩
      · rw [hseen', hqueue']
        exact ⟨hseen, hqueue⟩
      · rw [hseen', hqueue']
        exact ⟨hseen, nofun⟩
      · cases hqueue _ hq
    · exact h.quiet q' d hd hno
  · rw [hget] at hd
    split at hd
    · cases hd
      exact hinv
    · exact h.client q' d hd

/-- A step of a client that sends nothing. -/
theorem inv_setClient {q : Nat} {c c' : Client} (h : Inv file s) (hc : s.clients[q]? = some c)
    (hpath : c'.pathname = c.pathname) (hpc : c.pc ≠ .send → c'.pc ≠ .send) (htakes : Takes c c')
    (hinv : ClientInv c') (hwaits : c'.pc.Waits → c.pc.Waits) : Inv file (s.setClient q c') := by
  refine inv_of_client h hc rfl rfl htakes hinv h.nodup (fun r hr => ?_)
    fun hserving q' d hd hwait => ?_
  · obtain ⟨d, hd, hdpath, hdpc⟩ := h.request r hr
    rw [getElem?_clients hc rfl]
    split
    · next heq =>
      rw [← heq, hc] at hd
      cases hd
      exact ⟨c', rfl, hpath.trans hdpath, hpc hdpc⟩
    · exact ⟨d, hd, hdpath, hdpc⟩
  · rw [getElem?_clients hc rfl] at hd
    split at hd
    · next heq =>
      cases hd
      subst heq
      exact h.waits hserving q c hc (hwaits hwait)
    · exact h.waits hserving q' d hd hwait

/-- A client that has not sent its request has none. -/
theorem Inv.not_mem_ids {q : Nat} {c : Client} (h : Inv file s) (hc : s.clients[q]? = some c)
    (hpc : c.pc = .send) : q ∉ s.ids := by
  intro hmem
  obtain ⟨r, hr, rfl⟩ := List.mem_map.mp hmem
  obtain ⟨d, hd, -, hne⟩ := h.request r hr
  rw [hc] at hd
  cases hd
  exact hne hpc

theorem inv_send {q : Nat} {c : Client} {l : List Request} (h : Inv file s)
    (hc : s.clients[q]? = some c) (hpc : c.pc = .send) (hq : s.serverQ = some l) :
    Inv file ({ s with serverQ := some (l ++ [Request.mk q c.pathname]) }.setClient q
      { c with pc := .first }) := by
  have hrequests : ({ s with serverQ := some (l ++ [Request.mk q c.pathname]) }.setClient q
      { c with pc := .first }).requests = s.requests ++ [Request.mk q c.pathname] := by
    simp [State.requests, State.setClient, hq]
  have hids : ({ s with serverQ := some (l ++ [Request.mk q c.pathname]) }.setClient q
      { c with pc := .first }).ids = s.ids ++ [q] := by
    rw [State.ids, hrequests, List.map_append]
    rfl
  have hnot := h.not_mem_ids hc hpc
  have hclient := h.client q c hc
  simp only [ClientInv, hpc] at hclient
  refine inv_of_client h hc rfl rfl (.inl ⟨rfl, .inl rfl⟩) hclient ?_ (fun r hr => ?_)
    fun hserving q' d hd hwait => ?_
  · rw [hids, List.nodup_append]
    refine ⟨h.nodup, List.pairwise_singleton _ _, fun a ha b hb heq => hnot ?_⟩
    rw [← List.mem_singleton.mp hb, ← heq]
    exact ha
  · rw [getElem?_clients hc rfl]
    rw [hrequests, List.mem_append, List.mem_singleton] at hr
    rcases hr with hr | rfl
    · have hne : q ≠ r.clientId := fun heq => hnot (heq ▸ List.mem_map_of_mem hr)
      rw [if_neg hne]
      exact h.request r hr
    · rw [if_pos rfl]
      exact ⟨_, rfl, rfl, nofun⟩
  · rw [hids, List.mem_append, List.mem_singleton]
    rw [getElem?_clients hc rfl] at hd
    split at hd
    · next heq => exact .inr heq.symm
    · refine .inl (h.waits ⟨?_, hserving.2⟩ q' d hd hwait)
      rw [hq]
      exact nofun

theorem inv_stepClient {q : Nat} {c : Client} (h : Inv file s) (hc : s.clients[q]? = some c)
    (hstep : stepClient qbytes s q c = some s') : Inv file s' := by
  have hinv := h.client q c hc
  cases hpc : c.pc <;> simp only [stepClient, hpc] at hstep <;> simp only [ClientInv, hpc] at hinv
  case send =>
    split at hstep
    · cases hstep
      exact inv_setClient h hc rfl nofun (.inl ⟨rfl, .inl rfl⟩) ⟨trivial, hinv.2⟩ False.elim
    · next l hq =>
      split_ifs at hstep
      cases hstep
      exact inv_send h hc hpc hq
  case first =>
    split at hstep
    · next hq => exact absurd hq hinv.2
    · cases hstep
    · next r l hq =>
      cases hstep
      have hwaits : c.pc.Waits := by rw [hpc]; trivial
      refine inv_setClient h hc rfl (fun _ => ?_) (.inr ⟨r, l, hq, rfl, rfl⟩) ?_ fun _ => hwaits
      · show (if _ then ClientPc.remove .refused else _) ≠ _
        split <;> exact nofun
      · by_cases hfail : r.mtype = .RESP_MT_FAILURE
        · simp only [ClientInv, hfail, if_pos]
          exact ⟨⟨r, by rw [hinv.1, List.nil_append], hfail⟩, nofun⟩
        · simp only [ClientInv, if_neg hfail]
          refine ⟨⟨[], r, by rw [hinv.1], nofun, rfl, fun _ => hfail, ?_, ?_⟩, nofun⟩
          · rw [hinv.1]
            rfl
          · rw [hinv.1]
            rfl
  case loop mtype totBytes numMsgs =>
    obtain ⟨⟨before, r₀, hseen, hbefore, hr₀, hfirst, htot, hnum⟩, hqueue⟩ := hinv
    split_ifs at hstep with hdata
    · split at hstep
      · next hq => exact absurd hq hqueue
      · cases hstep
      · next r l hq =>
        cases hstep
        have hwaits : c.pc.Waits := by rw [hpc]; trivial
        refine inv_setClient h hc rfl (fun _ => nofun) (.inr ⟨r, l, hq, rfl, rfl⟩) ?_ fun _ => hwaits
        refine ⟨⟨c.seen, r, rfl, ?_, rfl, fun hnil => ?_, ?_, ?_⟩, nofun⟩
        · rw [hseen]
          intro m hm
          rcases List.mem_append.mp hm with hm | hm
          · exact hbefore m hm
          · rw [List.mem_singleton.mp hm, hr₀, hdata]
        · rw [hseen] at hnil
          simp at hnil
        · rw [bytesOf_snoc, htot]
        · rw [List.length_append, hnum]
          rfl
    · cases hstep
      refine inv_setClient h hc rfl (fun _ => nofun) (.inl ⟨rfl, .inl rfl⟩) ?_ False.elim
      exact ⟨⟨before, r₀, hseen, hbefore, hr₀ ▸ hdata, hfirst, htot, hnum⟩, hqueue⟩
  case remove out =>
    cases hstep
    exact inv_setClient h hc rfl nofun (.inl ⟨rfl, .inr rfl⟩) hinv.1 False.elim
  case exited => cases hstep

/-- A child's client is there. -/
theorem Inv.client_of_child {ch : Child} (h : Inv file s) (hch : ch ∈ s.children) :
    ∃ c, s.clients[ch.req.clientId]? = some c ∧ c.pathname = ch.req.pathname ∧ c.pc ≠ .send :=
  h.request ch.req (List.mem_append_left _ (List.mem_map_of_mem hch))

theorem inv_start {pathname : Bytes} (h : Inv file s) (hstep : startClient s pathname = some s') :
    Inv file s' := by
  rw [startClient] at hstep
  split_ifs at hstep
  cases hstep
  generalize hnew : (⟨pathname, .send, false, some [], []⟩ : Client) = new
  have hold : ∀ (q : Nat) (d : Client), s.clients[q]? = some d →
      (s.clients ++ [new])[q]? = some d := by
    intro q d hd
    rw [List.getElem?_append_left (List.getElem?_eq_some_iff.mp hd).1, hd]
  have hget : ∀ (q : Nat) (d : Client), (s.clients ++ [new])[q]? = some d →
      s.clients[q]? = some d ∨ (s.clients[q]? = none ∧ d = new) := by
    intro q d hd
    rw [List.getElem?_append] at hd
    split at hd
    · exact .inl hd
    · next hge =>
      refine .inr ⟨List.getElem?_eq_none_iff.mpr (not_lt.mp hge), ?_⟩
      exact List.mem_singleton.mp (List.mem_of_getElem? hd)
  refine ⟨h.nodup, fun r hr => ?_, fun ch hch => ?_, fun ch hch d hd => ?_, fun q d hd hno => ?_,
    fun q d hd => ?_, fun hserving q d hd hwait => ?_⟩
  · obtain ⟨d, hd, hrest⟩ := h.request r hr
    exact ⟨d, hold _ _ hd, hrest⟩
  · refine (h.child ch hch).mono fun hgone d hd => ?_
    rcases hget _ _ hd with hd | ⟨hnone, -⟩
    · exact hgone d hd
    · obtain ⟨c, hc, -⟩ := h.client_of_child hch
      rw [hnone] at hc
      cases hc
  · rcases hget _ _ hd with hd | ⟨hnone, -⟩
    · exact h.stream ch hch d hd
    · obtain ⟨c, hc, -⟩ := h.client_of_child hch
      rw [hnone] at hc
      cases hc
  · rcases hget _ _ hd with hd | ⟨-, rfl⟩
    · exact h.quiet q d hd hno
    · subst hnew
      exact ⟨rfl, fun l hl => (Option.some.inj hl).symm⟩
  · rcases hget _ _ hd with hd | ⟨-, rfl⟩
    · exact h.client q d hd
    · subst hnew
      exact ⟨rfl, nofun⟩
  · rcases hget _ _ hd with hd | ⟨-, rfl⟩
    · exact h.waits hserving q d hd hwait
    · subst hnew
      exact hwait.elim

/-! #### The server -/

/-- A step of the parent that starts no child. -/
theorem inv_of_parent (h : Inv file s) (hclients : s'.clients = s.clients)
    (hchildren : s'.children = s.children) (hsub : s'.requests.Sublist s.requests)
    (hserving : s'.Serving → s.Serving ∧ s'.requests = s.requests) : Inv file s' := by
  refine ⟨(hsub.map Request.clientId).nodup h.nodup, fun r hr => ?_, ?_, ?_, ?_, ?_,
    fun hs => ?_⟩
  · rw [hclients]
    exact h.request r (hsub.subset hr)
  · rw [hchildren]
    intro ch hch
    refine (h.child ch hch).mono fun hgone d hd => hgone d ?_
    rwa [hclients] at hd
  · rw [hchildren, hclients]
    exact h.stream
  · rw [hchildren, hclients]
    exact h.quiet
  · rw [hclients]
    exact h.client
  · obtain ⟨hs', heq⟩ := hserving hs
    rw [hclients, State.ids, heq]
    exact h.waits hs'

/-- The parent ends the loop. -/
theorem inv_parent_remove (h : Inv file s) : Inv file { s with parent := .remove } := by
  refine inv_of_parent h rfl rfl ?_ fun hs => absurd rfl hs.2.1
  simp only [State.requests, ParentPc.request, List.nil_append]
  exact (List.Sublist.refl _).append (List.sublist_append_right _ _)

theorem inv_fork {req : Request} (h : Inv file s) (hpc : s.parent = .fork req) :
    Inv file { s with
      children := s.children ++ [⟨req, .opening, [], [], false, false⟩]
      parent := .recv } := by
  have hrequests : ({ s with
      children := s.children ++ [⟨req, .opening, [], [], false, false⟩]
      parent := .recv } : State).requests = s.requests := by
    simp [State.requests, hpc, ParentPc.request]
  have hreq : req ∈ s.requests := by simp [State.requests, hpc, ParentPc.request]
  have hno : ∀ ch ∈ s.children, ch.req.clientId ≠ req.clientId := by
    intro ch hch heq
    have hnodup := h.nodup
    rw [State.ids, State.requests, List.map_append, List.nodup_append] at hnodup
    refine hnodup.2.2 _ (List.mem_map_of_mem (List.mem_map_of_mem hch)) req.clientId ?_ heq
    simp [hpc, ParentPc.request]
  refine ⟨?_, ?_, fun ch hch => ?_, fun ch hch d hd => ?_, fun q d hd hnone => ?_, h.client, ?_⟩
  · rw [State.ids, hrequests]
    exact h.nodup
  · rw [hrequests]
    exact h.request
  · rcases List.mem_append.mp hch with hch | hch
    · exact h.child ch hch
    · rw [List.mem_singleton.mp hch]
      rfl
  · rcases List.mem_append.mp hch with hch | hch
    · exact h.stream ch hch d hd
    · rw [List.mem_singleton.mp hch] at hd ⊢
      obtain ⟨hseen, hqueue⟩ := h.quiet req.clientId d hd hno
      rw [hseen]
      exact ⟨List.nil_prefix, fun l hl => hqueue l hl⟩
  · exact h.quiet q d hd fun ch hch => hnone ch (List.mem_append_left _ hch)
  · intro hs
    rw [State.ids, hrequests]
    exact h.waits ⟨hs.1, by simp [hpc], by simp [hpc]⟩

theorem inv_stepParent (h : Inv file s) (hstep : stepParent s = some s') : Inv file s' := by
  cases hpc : s.parent <;> simp only [stepParent, hpc] at hstep
  case recv =>
    split at hstep
    · cases hstep
      exact inv_parent_remove h
    · cases hstep
    · next r l hq =>
      cases hstep
      have heq : ({ s with serverQ := some l, parent := .fork r } : State).requests =
          s.requests := by
        simp [State.requests, hpc, hq, ParentPc.request]
      refine inv_of_parent h rfl rfl (heq ▸ List.Sublist.refl _) fun _ => ⟨?_, heq⟩
      exact ⟨by simp [hq], by simp [hpc], by simp [hpc]⟩
  case fork req =>
    cases hstep
    exact inv_fork h hpc
  case remove =>
    cases hstep
    refine inv_of_parent h rfl rfl ?_ fun hs => absurd rfl hs.1
    simp only [State.requests, ParentPc.request, hpc]
    exact (List.Sublist.refl _).append (List.nil_sublist _)
  case exited => cases hstep

/-! #### The children -/

/-- A child goes on and sends nothing. -/
theorem inv_setChild {j : Nat} {ch ch' : Child} (h : Inv file s) (hch : s.children[j]? = some ch)
    (hreq : ch'.req = ch.req) (hsent : ch'.sent = ch.sent)
    (hinv : ChildInv file (Gone s ch.req.clientId) ch') : Inv file (s.setChild j ch') := by
  have hmem : ∀ d ∈ s.children.set j ch', d = ch' ∨ d ∈ s.children := fun d hd =>
    (mem_set_cases hd).imp_right fun ⟨_, _, hk⟩ => List.mem_of_getElem? hk
  have hreqs : (s.setChild j ch').children.map Child.req = s.children.map Child.req :=
    map_set_eq hch hreq
  have hrequests : (s.setChild j ch').requests = s.requests := by
    rw [State.requests, hreqs]
    rfl
  have hold := List.mem_of_getElem? hch
  refine ⟨?_, ?_, fun d hd => ?_, fun d hd => ?_, fun q c hc hno => h.quiet q c hc ?_, h.client, ?_⟩
  · rw [State.ids, hrequests]
    exact h.nodup
  · rw [hrequests]
    exact h.request
  · rcases hmem d hd with rfl | hd
    · rw [hreq]
      exact hinv
    · exact h.child d hd
  · rcases hmem d hd with rfl | hd
    · rw [hreq, hsent]
      exact h.stream ch hold
    · exact h.stream d hd
  · intro d hd
    have hd' : d.req ∈ (s.setChild j ch').children.map Child.req :=
      hreqs ▸ List.mem_map_of_mem hd
    obtain ⟨e, he, heq⟩ := List.mem_map.mp hd'
    rw [← heq]
    exact hno e he
  · intro hs
    rw [State.ids, hrequests]
    exact h.waits hs

/-- A child sends `r`. -/
theorem inv_reply {j : Nat} {ch : Child} {c : Client} {l : List Response} {r : Response}
    {ok : ChildPc} (h : Inv file s) (hch : s.children[j]? = some ch)
    (hc : s.clients[ch.req.clientId]? = some c) (hl : c.queue = some l)
    (hinv : ChildInv file (Gone s ch.req.clientId) { ch with pc := ok, sent := ch.sent ++ [r] }) :
    Inv file ((s.setChild j { ch with pc := ok, sent := ch.sent ++ [r] }).setClient
      ch.req.clientId { c with queue := some (l ++ [r]) }) := by
  generalize hch' : ({ ch with pc := ok, sent := ch.sent ++ [r] } : Child) = ch' at hinv ⊢
  generalize hc' : ({ c with queue := some (l ++ [r]) } : Client) = c'
  have hreq : ch'.req = ch.req := by rw [← hch']
  have hold := List.mem_of_getElem? hch
  have hget : ∀ q, (s.clients.set ch.req.clientId c')[q]? =
      if ch.req.clientId = q then some c' else s.clients[q]? :=
    fun q => @getElem?_clients s (s.setClient ch.req.clientId c') _ q c c' hc rfl
  have hreqs : (s.children.set j ch').map Child.req = s.children.map Child.req :=
    map_set_eq hch hreq
  have hrequests : ((s.setChild j ch').setClient ch.req.clientId c').requests = s.requests := by
    show (s.children.set j ch').map Child.req ++ _ = _
    rw [hreqs]
    rfl
  have hgone : ∀ q, Gone s q → Gone ((s.setChild j ch').setClient ch.req.clientId c') q := by
    intro q hq d hd
    have hd' : (s.clients.set ch.req.clientId c')[q]? = some d := hd
    rw [hget] at hd'
    split at hd'
    · next heq =>
      have := hq c (heq ▸ hc)
      rw [hl] at this
      cases this
    · exact hq d hd'
  -- No other child has this client.
  have hother : ∀ d ∈ s.children.set j ch', d = ch' ∨
      d ∈ s.children ∧ d.req.clientId ≠ ch.req.clientId := by
    intro d hd
    refine (mem_set_cases hd).imp_right fun ⟨k, hk, hdk⟩ => ⟨List.mem_of_getElem? hdk, ?_⟩
    have hnodup := h.nodup
    rw [State.ids, State.requests, List.map_append, List.nodup_append, List.map_map] at hnodup
    exact ne_of_nodup_map (f := fun d : Child => d.req.clientId) hnodup.1 hch hdk hk
  refine ⟨?_, fun q hq => ?_, fun d hd => ?_, fun d hd e he => ?_, fun q e he hno => ?_,
    fun q e he => ?_, fun hs q e he hwait => ?_⟩
  · rw [State.ids, hrequests]
    exact h.nodup
  · rw [hrequests] at hq
    obtain ⟨e, he, hpath, hpc⟩ := h.request q hq
    show ∃ e, (s.clients.set ch.req.clientId c')[q.clientId]? = some e ∧ _
    rw [hget]
    split
    · next heq =>
      rw [← heq, hc] at he
      cases he
      exact ⟨c', rfl, by rw [← hc', hpath], by rw [← hc']; exact hpc⟩
    · exact ⟨e, he, hpath, hpc⟩
  · rcases hother d hd with rfl | ⟨hd, -⟩
    · exact (hreq ▸ hinv).mono (hgone _)
    · exact (h.child d hd).mono (hgone _)
  · have he' : (s.clients.set ch.req.clientId c')[d.req.clientId]? = some e := he
    rw [hget] at he'
    rcases hother d hd with rfl | ⟨hd, hne⟩
    · rw [if_pos (congrArg Request.clientId hreq.symm)] at he'
      cases he'
      have hstream := (h.stream ch hold c hc).2 l hl
      subst hc'
      rw [← hch', ← hstream, List.append_assoc]
      exact ⟨⟨l ++ [r], rfl⟩, fun l' hl' => by cases hl'; rfl⟩
    · rw [if_neg (Ne.symm hne)] at he'
      exact h.stream d hd e he'
  · have he' : (s.clients.set ch.req.clientId c')[q]? = some e := he
    have hmem : ∀ d ∈ s.children, d.req.clientId ≠ q := by
      intro d hd
      have hd' : d.req ∈ (s.children.set j ch').map Child.req := hreqs ▸ List.mem_map_of_mem hd
      obtain ⟨d', hd', heq⟩ := List.mem_map.mp hd'
      rw [← heq]
      exact hno d' hd'
    rw [hget, if_neg (hmem ch hold)] at he'
    exact h.quiet q e he' hmem
  · have he' : (s.clients.set ch.req.clientId c')[q]? = some e := he
    rw [hget] at he'
    split at he'
    · cases he'
      have hclient := h.client _ c hc
      subst hc'
      cases hpc : c.pc <;> simp only [ClientInv, hpc] at hclient ⊢
      case exited => exact hclient
      all_goals exact ⟨hclient.1, nofun⟩
    · exact h.client q e he'
  · have he' : (s.clients.set ch.req.clientId c')[q]? = some e := he
    rw [State.ids, hrequests]
    rw [hget] at he'
    split at he'
    · next heq =>
      cases he'
      subst hc'
      subst heq
      exact h.waits hs _ c hc hwait
    · exact h.waits hs q e he' hwait

/-- `msgsnd` of a child. -/
theorem inv_sendResponse {j : Nat} {ch : Child} {r : Response} {ok err : ChildPc}
    (h : Inv file s) (hch : s.children[j]? = some ch)
    (hstep : sendResponse qbytes s j ch r ok err = some s')
    (hok : ¬ Gone s ch.req.clientId →
      ChildInv file (Gone s ch.req.clientId) { ch with pc := ok, sent := ch.sent ++ [r] })
    (herr : Gone s ch.req.clientId →
      ChildInv file (Gone s ch.req.clientId) { ch with pc := err }) : Inv file s' := by
  rw [sendResponse] at hstep
  split at hstep
  · next hnone =>
    cases hstep
    refine inv_setChild h hch rfl rfl (herr fun c hc => ?_)
    rw [hnone] at hc
    cases hc
  · next c hc =>
    split at hstep
    · next hqueue =>
      cases hstep
      refine inv_setChild h hch rfl rfl (herr fun d hd => ?_)
      rw [hc] at hd
      cases hd
      exact hqueue
    · next l hqueue =>
      split_ifs at hstep
      cases hstep
      refine inv_reply h hch hc hqueue (hok fun hgone => ?_)
      rw [hgone c hc] at hqueue
      cases hqueue

theorem inv_stepChild {j : Nat} {ch : Child} (h : Inv file s) (hch : s.children[j]? = some ch)
    (hstep : stepChild file qbytes s j ch = some s') : Inv file s' := by
  have hinv := h.child ch (List.mem_of_getElem? hch)
  cases hpc : ch.pc <;> simp only [stepChild, hpc] at hstep <;> simp only [ChildInv, hpc] at hinv
  case opening =>
    split at hstep
    · next hfile =>
      cases hstep
      exact inv_setChild h hch rfl rfl ⟨hfile, hinv⟩
    · next contents hfile =>
      cases hstep
      refine inv_setChild h hch rfl rfl ⟨[], contents, hfile, nofun, hinv, contents, rfl, rfl⟩
  case read => cases hstep
  case sendData b =>
    obtain ⟨⟨ds, contents, hfile, hparts, hsent, rest, heq, rfl⟩, hne, hlen⟩ := hinv
    refine inv_sendResponse h hch hstep (fun _ => ?_) fun hgone => ?_
    · refine ⟨ds ++ [b], contents, hfile, fun d hd => ?_, ?_, ch.rest, ?_, rfl⟩
      · rcases List.mem_append.mp hd with hd | hd
        · exact hparts d hd
        · rw [List.mem_singleton.mp hd]
          exact ⟨hne, hlen⟩
      · rw [List.map_append, ← hsent]
        rfl
      · rw [List.flatten_append, List.append_assoc, List.flatten_singleton, heq]
    · exact ⟨ds, contents, hfile, hparts, hsent, _, heq, fun _ => .inr hgone⟩
  case sendEnd =>
    obtain ⟨ds, contents, hfile, hparts, hsent, rest, heq, hafter⟩ := hinv
    refine inv_sendResponse h hch hstep (fun hgone => Or.inl (.inr ?_))
      fun hgone => Or.inr ⟨hgone, ds, hsent⟩
    refine ⟨ds, contents, hfile, hparts, ?_, ⟨rest, heq.symm⟩, fun hread => ?_⟩
    · rw [← hsent]
    · rw [heq, (hafter hread).resolve_right hgone, List.append_nil]
  case sendFailure =>
    refine inv_sendResponse h hch hstep (fun _ => Or.inl (.inl ⟨hinv.1, ?_⟩))
      fun hgone => Or.inr ⟨hgone, [], hinv.2⟩
    show ch.sent ++ [couldntOpen] = [couldntOpen]
    rw [hinv.2, List.nil_append]
  case exited => cases hstep

theorem inv_stepRead {j n : Nat} {ch : Child} (h : Inv file s) (hch : s.children[j]? = some ch)
    (hstep : stepRead s j ch n = some s') : Inv file s' := by
  have hinv := h.child ch (List.mem_of_getElem? hch)
  rw [stepRead] at hstep
  split_ifs at hstep with hcond hn
  · obtain ⟨hpc, -, -, hzero⟩ := hcond
    cases hstep
    simp only [ChildInv, hpc] at hinv
    refine inv_setChild h hch rfl rfl ?_
    exact hinv.mono fun rest hrest _ => .inl (hrest.trans (hzero hn))
  · obtain ⟨hpc, hmax, hle, -⟩ := hcond
    cases hstep
    simp only [ChildInv, hpc] at hinv
    refine inv_setChild h hch rfl rfl ⟨hinv.mono fun rest hrest => ?_, ?_, ?_⟩
    · rw [hrest, List.take_append_drop]
    · rw [ne_eq, List.take_eq_nil_iff, not_or]
      refine ⟨hn, fun hnil => hn ?_⟩
      rw [hnil, List.length_nil] at hle
      exact Nat.le_zero.mp hle
    · rw [List.length_take]
      exact (Nat.min_le_left _ _).trans hmax

theorem inv_step {e : Event} (h : Inv file s) (hstep : step file qbytes s e = some s') :
    Inv file s' := by
  cases e <;> simp only [step] at hstep
  case start pathname => exact inv_start h hstep
  case client q =>
    split at hstep
    · cases hstep
    · next c hc =>
      split_ifs at hstep
      exact inv_stepClient h hc hstep
  case killClient q =>
    split at hstep
    · cases hstep
    · next c hc =>
      cases hstep
      exact inv_setClient h hc rfl id (.inl ⟨rfl, .inl rfl⟩) (h.client q c hc) id
  case parent => exact inv_stepParent h hstep
  case eintr =>
    split_ifs at hstep
    cases hstep
    exact h
  case recvFails =>
    split_ifs at hstep
    cases hstep
    exact inv_parent_remove h
  case forkFails =>
    split at hstep
    · cases hstep
      exact inv_parent_remove h
    · cases hstep
  case child j =>
    split at hstep
    · cases hstep
    · next ch hch =>
      split_ifs at hstep
      exact inv_stepChild h hch hstep
  case read j n =>
    split at hstep
    · cases hstep
    · next ch hch =>
      split_ifs at hstep
      exact inv_stepRead h hch hstep
  case readFails j =>
    split at hstep
    · cases hstep
    · next ch hch =>
      split_ifs at hstep with hcond
      rw [not_or, not_not] at hcond
      cases hstep
      have hinv := h.child ch (List.mem_of_getElem? hch)
      simp only [ChildInv, hcond.2] at hinv
      exact inv_setChild h hch rfl rfl (hinv.mono fun rest _ => nofun)
  case killChild j =>
    split at hstep
    · cases hstep
    · next ch hch =>
      cases hstep
      exact inv_setChild h hch rfl rfl (h.child ch (List.mem_of_getElem? hch))

theorem inv_of_reach (h : (system file qbytes).Reach s) : Inv file s :=
  h.invariant (inv_init file) fun _ _ _ => inv_step

end Steps

/-! ### What a client is told -/

theorem mtype_of_mem_data {ds : List Bytes} {r : Response} (h : r ∈ ds.map dataMsg) :
    r.mtype = .RESP_MT_DATA := by
  obtain ⟨b, -, rfl⟩ := List.mem_map.mp h
  rfl

theorem bytesOf_answer (ds : List Bytes) :
    bytesOf (ds.map dataMsg ++ [endMsg]) = ds.flatten.length := by
  induction ds with
  | nil => rfl
  | cons d ds ih =>
    rw [List.map_cons, List.cons_append, bytesOf, ih, List.flatten_cons, List.length_append]
    rfl

section Told

variable {file : Bytes → Option Bytes} {qbytes : Nat} {s : State} {q : Nat} {c : Client}
  {ch : Child} {before : List Response} {r : Response}

/-- A message other than one of data has been sent. -/
theorem ChildInv.answered {gone : Prop} (h : ChildInv file gone ch) (hr : r ∈ ch.sent)
    (hmtype : r.mtype ≠ .RESP_MT_DATA) : Answered file ch := by
  have hdata : ∀ ds : List Bytes, ch.sent ≠ ds.map dataMsg := fun ds heq =>
    hmtype (mtype_of_mem_data (heq ▸ hr))
  have hsending : ∀ after : Bytes → Prop, ¬ Sending file ch after :=
    fun after ⟨ds, _, _, _, hsent, _⟩ => hdata ds hsent
  cases hpc : ch.pc <;> simp only [ChildInv, hpc] at h
  case opening => exact absurd h (hdata [])
  case read => exact absurd h (hsending _)
  case sendData b => exact absurd h.1 (hsending _)
  case sendEnd => exact absurd h (hsending _)
  case sendFailure => exact absurd h.2 (hdata [])
  case exited => exact h.resolve_right fun ⟨_, ds, hsent⟩ => hdata ds hsent

/-- A client that has seen such a message has the whole answer of its child. -/
theorem Inv.answered (h : Inv file s) (hc : s.clients[q]? = some c)
    (hseen : c.seen = before ++ [r]) (hr : r.mtype ≠ .RESP_MT_DATA) :
    ∃ ch ∈ s.children, ch.req = ⟨q, c.pathname⟩ ∧ Answered file ch ∧ c.seen = ch.sent := by
  obtain ⟨ch, hch, rfl⟩ : ∃ ch ∈ s.children, ch.req.clientId = q := by
    by_contra hno
    have hnil := (h.quiet q c hc fun ch hch heq => hno ⟨ch, hch, heq⟩).1
    rw [hseen] at hnil
    simp at hnil
  obtain ⟨hlead, -⟩ := h.stream ch hch c hc
  have hmem : r ∈ ch.sent := by
    refine hlead.subset ?_
    rw [hseen]
    exact List.mem_append_right _ (List.mem_singleton_self r)
  have hans := (h.child ch hch).answered hmem hr
  obtain ⟨d, hd, hpath, -⟩ := h.client_of_child hch
  rw [hc] at hd
  cases hd
  refine ⟨ch, hch, by rw [hpath], hans, ?_⟩
  -- It is the last message of the answer.
  rcases hans with ⟨-, hsent⟩ | ⟨ds, contents, -, -, hsent, -⟩
  · rw [hsent, ← List.nil_append [couldntOpen]] at hlead
    rcases List.prefix_concat_iff.mp hlead with heq | hnil
    · rw [heq, hsent, List.nil_append]
    · rw [hseen] at hnil
      simp at hnil
  · rw [hsent] at hlead
    rcases List.prefix_concat_iff.mp hlead with heq | hpre
    · rw [heq, hsent]
    · refine absurd (mtype_of_mem_data (hpre.subset ?_)) hr
      rw [hseen]
      exact List.mem_append_right _ (List.mem_singleton_self r)

/-- What a client that ends is told.  It has received the file that it has asked for, in as many
messages and bytes as it says, and all of it unless a `read` of its child has failed; or the
file cannot be opened. -/
structure Told (file : Bytes → Option Bytes) (s : State) (q : Nat) (c : Client) : Prop where
  received : ∀ totBytes numMsgs, c.pc = .exited (.received totBytes numMsgs) →
    ∃ ch ∈ s.children, ch.req = ⟨q, c.pathname⟩ ∧ ∃ (ds : List Bytes) (contents : Bytes),
      file c.pathname = some contents ∧ Parts ds ∧ c.seen = ds.map dataMsg ++ [endMsg] ∧
      totBytes = ds.flatten.length ∧ numMsgs = ds.length + 1 ∧ ds.flatten <+: contents ∧
      (ch.readFailed = false → ds.flatten = contents)
  refused : c.pc = .exited .refused → file c.pathname = none ∧ c.seen = [couldntOpen]

theorem serves_every_client (h : (system file qbytes).Reach s) (hc : s.clients[q]? = some c) :
    Told file s q c := by
  have hinv := inv_of_reach h
  have hclient := hinv.client q c hc
  refine ⟨fun totBytes numMsgs hpc => ?_, fun hpc => ?_⟩
  · simp only [ClientInv, hpc] at hclient
    obtain ⟨before, r, hseen, hbefore, hr, hfirst, htot, hnum⟩ := hclient
    obtain ⟨ch, hch, hreq, hans, hsent⟩ := hinv.answered hc hseen hr
    refine ⟨ch, hch, hreq, ?_⟩
    rcases hans with ⟨-, hsent'⟩ | ⟨ds, contents, hfile, hparts, hsent', hpre, hall⟩
    · -- The first message was not a failure.
      rw [hsent, hsent', ← List.nil_append [couldntOpen]] at hseen
      obtain ⟨hnil, hlast⟩ := List.append_inj' hseen rfl
      refine absurd ?_ (hfirst hnil.symm)
      rw [← List.singleton_inj.mp hlast]
      rfl
    · rw [hreq] at hfile
      refine ⟨ds, contents, hfile, hparts, hsent.trans hsent', ?_, ?_, hpre, hall⟩
      · rw [htot, hsent, hsent', bytesOf_answer]
      · rw [hnum, hsent, hsent', List.length_append, List.length_map]
        rfl
  · simp only [ClientInv, hpc] at hclient
    obtain ⟨r, hseen, hr⟩ := hclient
    obtain ⟨ch, hch, hreq, hans, hsent⟩ := hinv.answered hc (show c.seen = [] ++ [r] from hseen)
      (by rw [hr]; exact nofun)
    rcases hans with ⟨hfile, hsent'⟩ | ⟨ds, contents, hfile, hparts, hsent', hpre, hall⟩
    · rw [hreq] at hfile
      exact ⟨hfile, hsent.trans hsent'⟩
    · -- A failure is no message of a file that has been opened.
      have hmem : r ∈ ds.map dataMsg ++ [endMsg] := by
        rw [← hsent', ← hsent, hseen]
        exact List.mem_singleton_self r
      rcases List.mem_append.mp hmem with hmem | hmem
      · rw [mtype_of_mem_data hmem] at hr
        cases hr
      · rw [List.mem_singleton.mp hmem] at hr
        cases hr

end Told

/-- One file, of three bytes. -/
def threeBytes (pathname : Bytes) : Option Bytes :=
  if pathname = ascii "a" then some [1, 2, 3] else none

/-- Two clients, of which the second asks for a file that is not there.  Their children send at
the same time. -/
def twoClients : List Event :=
  [.start (ascii "a"), .start (ascii "b"), .client 1, .client 0, .parent, .parent, .eintr,
    .child 0, .parent, .parent, .child 1, .read 1 2, .child 1, .child 0, .client 1, .client 0,
    .read 1 1, .child 1, .client 1, .read 1 0, .client 0, .child 1, .client 0, .client 0,
    .client 0]

def firstClient : Client where
  pathname := ascii "a"
  pc := .exited (.received 3 3)
  dead := false
  queue := none
  seen := [dataMsg [1, 2], dataMsg [3], endMsg]

def secondClient : Client where
  pathname := ascii "b"
  pc := .exited .refused
  dead := false
  queue := none
  seen := [couldntOpen]

def twoClientsEnd : State where
  serverQ := some []
  parent := .recv
  children := [⟨⟨1, ascii "b"⟩, .exited, [], [couldntOpen], false, false⟩,
    ⟨⟨0, ascii "a"⟩, .exited, [], [dataMsg [1, 2], dataMsg [3], endMsg], false, false⟩]
  clients := [firstClient, secondClient]

theorem serves_every_client_two : Told threeBytes twoClientsEnd 0 firstClient ∧
    Told threeBytes twoClientsEnd 1 secondClient := by
  have h : (system threeBytes 16384).Reach twoClientsEnd :=
    System.reach_of_exec (show _ = some twoClientsEnd from
      (by decide +kernel : (system threeBytes 16384).exec init twoClients = _))
  exact ⟨serves_every_client h rfl, serves_every_client h rfl⟩

end Tlpi.SvmsgFile
