import Tlpi.Seqnum.Clients

/-!
# What a client can do

A step of a client, a call of it that fails, and a signal that kills it come down to eight
kinds of `Move`.  Most move the client on and leave everything else alone (`Goes`), or
close what it has open (`Releases`); the others create its FIFO, open the server's, send
the request, open its own FIFO, read from it, and remove its name.

What every move leaves alone is said here once: the server, the other clients, their names,
and the write ends of all FIFOs but the server's.
-/

namespace Tlpi.Seqnum

open Tlpi.Lib

/-- The name of the FIFO of client `i`. -/
def State.fifoName (s : State) (i : Nat) : String := clientFifo (s.client i).pid

/-- Client `i` comes to `pc`, and nothing else happens. -/
structure Goes (s : State) (i : Nat) (pc : ClientPc) : Prop where
  live : (s.client i).pc.Live
  held : pc.held = (s.client i).pc.held
  owns : pc.Owns → (s.client i).pc.Owns ∨
    (s.client i).pc = .create ∧ ∃ ino, s.dir (s.fifoName i) = some ino
  send : pc = .send → ∃ n, (s.client i).pc = .openingServer n ∧ s.srv.rOpens ≠ n
  connecting : ∀ n, pc ≠ .openingServer n
  awaiting : pc.Awaiting →
    ∃ ino n, (s.client i).pc = .openingOwn ino n ∧ (s.fifo ino).wOpens ≠ n ∧ pc = .read ino
  leave : ∀ ino, pc ≠ .leave (.own ino)

/-- A client at `pc` closes what it has open and comes to `pc'`. -/
def Releases (pc pc' : ClientPc) : Prop :=
  pc.Live ∧ (pc = .closeServer ∧ pc' = .openOwn ∨ pc.Owns ∧ pc' = .unlink .none ∨ pc' = .dead)

/-- What client `i` can do in `s`, and where it leads. -/
inductive Move (s : State) (i : Nat) : State → Prop
  | goes (pc : ClientPc) (h : Goes s i pc) : Move s i (s.setPc i pc)
  | creates (hpc : (s.client i).pc = .create) (hdir : s.dir (s.fifoName i) = none) :
      Move s i { s.setPc i .register with
        dir := Function.update s.dir (s.fifoName i) (some s.next)
        fifo := Function.update s.fifo s.next .empty
        next := s.next + 1 }
  | connects (hpc : (s.client i).pc = .openServer) :
      Move s i { s.setPc i (if s.srv.readers = 0 then .openingServer s.srv.rOpens else .send) with
        srv := s.srv.openWr }
  | sends (hpc : (s.client i).pc = .send) (hreaders : s.srv.readers ≠ 0) :
      Move s i { s.setPc i .closeServer with
        srv := s.srv.write (s.client i).request.encode
        sent := s.sent ++ [i] }
  | releases (pc : ClientPc) (h : Releases (s.client i).pc pc) :
      Move s i ((s.release (s.client i).pc.held).setPc i pc)
  | opens (ino : Nat) (hpc : (s.client i).pc = .openOwn) (hdir : s.dir (s.fifoName i) = some ino) :
      Move s i ((s.setFifo ino (s.fifo ino).openRd).setPc i
        (if (s.fifo ino).writers = 0 then .openingOwn ino (s.fifo ino).wOpens else .read ino))
  | reads (ino : Nat) (c : Client) (hpc : (s.client i).pc = .read ino)
      (hreq : c.request = (s.client i).request)
      (hc : c.pc = .closeOwn ino ∨ c.pc = .unlink (.own ino)) :
      Move s i { s.setFifo ino ((s.fifo ino).drop 4) with client := Function.update s.client i c }
  | unlinks (h : Held) (hpc : (s.client i).pc = .unlink h) :
      Move s i { s.setPc i (.leave h) with dir := Function.update s.dir (s.fifoName i) none }

variable {cfg : Config} {s s' : State} {i j : Nat}

theorem Move.of_release {h : Held} {pc : ClientPc} (hheld : (s.client i).pc.held = h)
    (hrel : Releases (s.client i).pc pc) : Move s i ((s.release h).setPc i pc) := by
  subst hheld
  exact .releases pc hrel

/-- Where a client comes to that neither sends nor waits, and does not leave its FIFO open. -/
def ClientPc.Quiet (pc : ClientPc) : Prop :=
  pc = .register ∨ pc = .openServer ∨ (∃ h, pc = .unlink h) ∨ pc = .leave .none

theorem goes_of_quiet {pc : ClientPc} (hlive : (s.client i).pc.Live) (hquiet : pc.Quiet)
    (hheld : pc.held = (s.client i).pc.held)
    (howns : pc.Owns → (s.client i).pc.Owns ∨
      (s.client i).pc = .create ∧ ∃ ino, s.dir (s.fifoName i) = some ino) : Goes s i pc := by
  obtain rfl | rfl | ⟨h, rfl⟩ | rfl := hquiet <;>
    exact ⟨hlive, hheld, howns, nofun, nofun, False.elim, nofun⟩

theorem goes_send {n : Nat} (hpc : (s.client i).pc = .openingServer n) (hn : s.srv.rOpens ≠ n) :
    Goes s i .send := by
  refine ⟨?_, ?_, fun _ => .inl ?_, fun _ => ⟨n, hpc, hn⟩, nofun, False.elim, nofun⟩ <;> rw [hpc]
  · exact ⟨nofun, nofun⟩
  · rfl
  · trivial

theorem goes_read {ino n : Nat} (hpc : (s.client i).pc = .openingOwn ino n)
    (hn : (s.fifo ino).wOpens ≠ n) : Goes s i (.read ino) := by
  refine ⟨?_, ?_, fun _ => .inl ?_, nofun, nofun, fun _ => ⟨ino, n, hpc, hn, rfl⟩, nofun⟩ <;>
    rw [hpc]
  · exact ⟨nofun, nofun⟩
  · rfl
  · trivial

theorem live_of_stepClient (hstep : stepClient cfg s i = some s') : (s.client i).pc.Live := by
  constructor <;> intro hpc <;> rw [stepClient, hpc] at hstep <;> cases hstep

theorem live_of_failClient (hstep : failClient s i = some s') : (s.client i).pc.Live := by
  constructor <;> intro hpc <;> rw [failClient, hpc] at hstep <;> cases hstep

theorem move_of_stepClient (hstep : stepClient cfg s i = some s') : Move s i s' := by
  have hlive := live_of_stepClient hstep
  cases hpc : (s.client i).pc <;> simp only [stepClient, hpc] at hstep
  case unborn | dead => cases hstep
  case create =>
    split at hstep
    · next ino hdir =>
      cases hstep
      exact .goes _ (goes_of_quiet hlive (.inl rfl) (by rw [hpc]; rfl) fun _ =>
        .inr ⟨hpc, ino, hdir⟩)
    · next hdir =>
      cases hstep
      exact .creates hpc hdir
  case register =>
    cases hstep
    exact .goes _ (goes_of_quiet hlive (.inr (.inl rfl)) (by rw [hpc]; rfl) fun _ =>
      .inl (by rw [hpc]; trivial))
  case openServer =>
    split at hstep
    · cases hstep
      exact .connects hpc
    · cases hstep
      exact .goes _ (goes_of_quiet hlive (.inr (.inr (.inl ⟨_, rfl⟩))) (by rw [hpc]; rfl) fun _ =>
        .inl (by rw [hpc]; trivial))
  case openingServer n =>
    split at hstep
    · next hmoved =>
      cases hstep
      exact .goes _ (goes_send hpc hmoved)
    · cases hstep
  case send =>
    split at hstep
    · cases hstep
      exact .of_release (by rw [hpc]; rfl) ⟨hlive, .inr (.inr rfl)⟩
    · next hreaders =>
      split at hstep
      · cases hstep
        exact .sends hpc hreaders
      · cases hstep
  case closeServer =>
    cases hstep
    exact .of_release (by rw [hpc]; rfl) ⟨hlive, .inl ⟨hpc, rfl⟩⟩
  case openOwn =>
    split at hstep
    · cases hstep
      exact .goes _ (goes_of_quiet hlive (.inr (.inr (.inl ⟨_, rfl⟩))) (by rw [hpc]; rfl) fun _ =>
        .inl (by rw [hpc]; trivial))
    · next ino hdir =>
      cases hstep
      exact .opens ino hpc hdir
  case openingOwn ino n =>
    split at hstep
    · next hmoved =>
      cases hstep
      exact .goes _ (goes_read hpc hmoved)
    · cases hstep
  case read ino =>
    split at hstep
    · cases hstep
    · split at hstep
      · cases hstep
        exact .reads ino _ hpc rfl (.inl rfl)
      · cases hstep
        exact .reads ino _ hpc rfl (.inr rfl)
  case closeOwn ino =>
    cases hstep
    exact .of_release (by rw [hpc]; rfl) ⟨hlive, .inr (.inl ⟨by rw [hpc]; trivial, rfl⟩)⟩
  case unlink h =>
    cases hstep
    exact .unlinks h hpc
  case leave h =>
    cases hstep
    exact .of_release (by rw [hpc]; rfl) ⟨hlive, .inr (.inr rfl)⟩

theorem move_of_failClient (hstep : failClient s i = some s') : Move s i s' := by
  have hlive := live_of_failClient hstep
  cases hpc : (s.client i).pc <;> simp only [failClient, hpc] at hstep
  case unborn | unlink | leave | dead => cases hstep
  all_goals cases hstep
  case create | register =>
    exact .goes _ (goes_of_quiet hlive (.inr (.inr (.inr rfl))) (by rw [hpc]; rfl) False.elim)
  case openServer | openOwn | send | read =>
    exact .goes _ (goes_of_quiet hlive (.inr (.inr (.inl ⟨_, rfl⟩))) (by rw [hpc]; rfl) fun _ =>
      .inl (by rw [hpc]; trivial))
  case openingServer | closeServer | openingOwn | closeOwn =>
    exact .of_release (by rw [hpc]; rfl) ⟨hlive, .inr (.inl ⟨by rw [hpc]; trivial, rfl⟩)⟩

theorem move_of_killClient (hstep : killClient s i = some s') : Move s i s' := by
  rw [killClient] at hstep
  split at hstep
  · next hlive =>
    cases hstep
    exact .releases _ ⟨hlive, .inr (.inr rfl)⟩
  · cases hstep

/-! ### What a client comes to that closes what it has open -/

theorem Releases.held {pc pc' : ClientPc} (h : Releases pc pc') : pc'.held = .none := by
  obtain ⟨-, ⟨-, rfl⟩ | ⟨-, rfl⟩ | rfl⟩ := h <;> rfl

theorem Releases.owns {pc pc' : ClientPc} (h : Releases pc pc') (howns : pc'.Owns) : pc.Owns := by
  obtain ⟨-, ⟨rfl, rfl⟩ | ⟨hpc, rfl⟩ | rfl⟩ := h
  · trivial
  · exact hpc
  · exact absurd howns id

theorem Releases.awaiting {pc pc' : ClientPc} (h : Releases pc pc') (hpc' : pc'.Awaiting) :
    pc = .closeServer ∧ pc' = .openOwn := by
  obtain ⟨-, hclose | ⟨-, rfl⟩ | rfl⟩ := h
  · exact hclose
  · exact absurd hpc' id
  · exact absurd hpc' id

theorem Releases.ne {pc pc' : ClientPc} (h : Releases pc pc') :
    pc' ≠ .send ∧ ∀ n, pc' ≠ .openingServer n := by
  obtain ⟨-, ⟨-, rfl⟩ | ⟨-, rfl⟩ | rfl⟩ := h <;> exact ⟨nofun, nofun⟩

/-! ### What a move leaves alone -/

/-- A step that opens and closes no FIFO of a client for writing. -/
structure SameOpens (s s' : State) : Prop where
  next : s.next ≤ s'.next
  fresh : ∀ ino < s'.next, s.next ≤ ino → (s'.fifo ino).writers = 0
  writers : ∀ ino < s.next, (s'.fifo ino).writers = (s.fifo ino).writers
  wOpens : ∀ ino < s.next, (s'.fifo ino).wOpens = (s.fifo ino).wOpens

theorem sameOpens_of_eq (hfifo : s'.fifo = s.fifo) (hnext : s'.next = s.next) : SameOpens s s' := by
  constructor
  · exact Nat.le_of_eq hnext.symm
  · intro ino hlt hle
    omega
  · exact fun ino _ => by rw [hfifo]
  · exact fun ino _ => by rw [hfifo]

/-- A field of the FIFOs that one of them keeps when it changes. -/
theorem field_update {α : Type} (g : Fifo → α) {fifo : Nat → Fifo} {ino : Nat} {f : Fifo}
    (h : g f = g (fifo ino)) (k : Nat) : g (Function.update fifo ino f k) = g (fifo k) := by
  by_cases hk : k = ino
  · rw [hk, Function.update_self, h]
  · rw [Function.update_of_ne hk]

theorem sameOpens_setFifo {ino : Nat} {f : Fifo} (hfifo : s'.fifo = Function.update s.fifo ino f)
    (hnext : s'.next = s.next) (hw : f.writers = (s.fifo ino).writers)
    (ho : f.wOpens = (s.fifo ino).wOpens) : SameOpens s s' := by
  constructor
  · exact Nat.le_of_eq hnext.symm
  · intro k hlt hle
    omega
  · intro k _
    rw [hfifo]
    exact field_update Fifo.writers hw k
  · intro k _
    rw [hfifo]
    exact field_update Fifo.wOpens ho k

theorem sameOpens_create (hfifo : s'.fifo = Function.update s.fifo s.next .empty)
    (hnext : s'.next = s.next + 1) : SameOpens s s' := by
  constructor
  · omega
  · intro ino hlt hle
    have hino : ino = s.next := by omega
    rw [hfifo, hino, Function.update_self]
    rfl
  · exact fun ino hlt => by rw [hfifo, Function.update_of_ne (Nat.ne_of_lt hlt)]
  · exact fun ino hlt => by rw [hfifo, Function.update_of_ne (Nat.ne_of_lt hlt)]

theorem sameOpens_release_setPc (s : State) (h : Held) (i : Nat) (pc : ClientPc) :
    SameOpens s ((s.release h).setPc i pc) := by
  cases h with
  | none | server => exact sameOpens_of_eq rfl rfl
  | own ino => exact sameOpens_setFifo rfl rfl (Fifo.discard_writers _) (Fifo.discard_wOpens _)

theorem release_client (s : State) (h : Held) : (s.release h).client = s.client := by
  cases h <;> rfl

theorem release_dir (s : State) (h : Held) : (s.release h).dir = s.dir := by
  cases h <;> rfl

theorem release_sent (s : State) (h : Held) : (s.release h).sent = s.sent := by
  cases h <;> rfl

theorem release_next (s : State) (h : Held) : (s.release h).next = s.next := by
  cases h <;> rfl

theorem Move.same (h : Move s i s') : SameServer s s' := by
  cases h with
  | releases => exact sameServer_release_setPc ..
  | goes | creates | connects | sends | opens | reads | unlinks => exact ⟨rfl, rfl, rfl, rfl⟩

theorem Move.sameOpens (h : Move s i s') : SameOpens s s' := by
  cases h with
  | goes | connects | sends | unlinks => exact sameOpens_of_eq rfl rfl
  | creates => exact sameOpens_create rfl rfl
  | releases => exact sameOpens_release_setPc ..
  | opens | reads => exact sameOpens_setFifo rfl rfl rfl rfl

theorem Move.other (h : Move s i s') (hj : j ≠ i) : s'.client j = s.client j := by
  cases h with
  | releases pc =>
    show Function.update (s.release _).client i _ j = _
    rw [Function.update_of_ne hj, release_client]
  | goes | creates | connects | sends | opens | reads | unlinks => exact Function.update_of_ne hj ..

theorem Move.request (h : Move s i s') : (s'.client i).request = (s.client i).request := by
  cases h with
  | releases pc =>
    show (Function.update (s.release _).client i _ i).request = _
    rw [Function.update_self, release_client]
    rfl
  | reads ino c hpc hreq =>
    show (Function.update s.client i c i).request = _
    rw [Function.update_self, hreq]
  | goes | creates | connects | sends | opens | unlinks =>
    show (Function.update s.client i { s.client i with pc := _ } i).request = _
    rw [Function.update_self]
    rfl

theorem Move.pid (h : Move s i s') : (s'.client i).pid = (s.client i).pid :=
  congrArg Request.pid h.request

theorem Move.pid_eq (h : Move s i s') (j : Nat) : (s'.client j).pid = (s.client j).pid := by
  by_cases hj : j = i
  · rw [hj, h.pid]
  · rw [h.other hj]

theorem Move.live (h : Move s i s') : (s.client i).pc.Live := by
  cases h with
  | goes pc h => exact h.live
  | releases pc h => exact h.1
  | creates hpc | connects hpc | sends hpc | opens ino hpc | reads ino c hpc | unlinks h hpc =>
    rw [hpc]
    exact ⟨nofun, nofun⟩

theorem Move.dir (h : Move s i s') {n : String} (hn : n ≠ s.fifoName i) : s'.dir n = s.dir n := by
  cases h with
  | releases pc =>
    show (s.release _).dir n = _
    rw [release_dir]
  | creates | unlinks => exact Function.update_of_ne hn ..
  | goes | connects | sends | opens | reads => rfl

/-- What is opened for reading, by whom. -/
theorem Move.rOpens (h : Move s i s') {ino : Nat} (hlt : ino < s.next) :
    (s'.fifo ino).rOpens = (s.fifo ino).rOpens ∨
      (s.client i).pc = .openOwn ∧ s.dir (s.fifoName i) = some ino ∧
        (s'.fifo ino).rOpens = (s.fifo ino).rOpens + 1 := by
  cases h with
  | goes | connects | sends | unlinks => exact .inl rfl
  | creates =>
    refine .inl ?_
    show (Function.update s.fifo s.next .empty ino).rOpens = _
    rw [Function.update_of_ne (Nat.ne_of_lt hlt)]
  | releases pc h =>
    refine .inl ?_
    show ((s.release _).fifo ino).rOpens = _
    cases (s.client i).pc.held with
    | none | server => rfl
    | own k =>
      refine field_update Fifo.rOpens ?_ ino
      exact Fifo.discard_rOpens _
  | reads k =>
    refine .inl (field_update Fifo.rOpens ?_ ino)
    rfl
  | opens k hpc hdir =>
    show (Function.update s.fifo k (s.fifo k).openRd ino).rOpens = _ ∨ _ ∧ _ ∧
      (Function.update s.fifo k (s.fifo k).openRd ino).rOpens = _
    by_cases hk : ino = k
    · rw [← hk] at hdir
      rw [← hk, Function.update_self]
      exact .inr ⟨hpc, hdir, rfl⟩
    · rw [Function.update_of_ne hk]
      exact .inl rfl

/-- How a client comes to have its FIFO open. -/
theorem Move.opened (h : Move s i s') {ino : Nat}
    (hpc' : (∃ n, (s'.client i).pc = .openingOwn ino n) ∨ (s'.client i).pc = .read ino) :
    ((s.client i).pc = .openOwn ∧ s.dir (s.fifoName i) = some ino ∧
        ((s.fifo ino).writers = 0 ∧ (s'.client i).pc = .openingOwn ino (s.fifo ino).wOpens ∨
          (s.fifo ino).writers ≠ 0 ∧ (s'.client i).pc = .read ino)) ∨
      ∃ n, (s.client i).pc = .openingOwn ino n ∧ (s.fifo ino).wOpens ≠ n ∧
        (s'.client i).pc = .read ino := by
  have hawait : (s'.client i).pc.Awaiting := by
    rcases hpc' with ⟨n, hpc'⟩ | hpc' <;> rw [hpc'] <;> trivial
  cases h with
  | goes pc hgoes =>
    rw [setPc_pc] at hawait hpc' ⊢
    obtain ⟨k, n, hpc, hmoved, rfl⟩ := hgoes.awaiting hawait
    obtain ⟨n, hn⟩ | hk := hpc'
    · cases hn
    · cases hk
      exact .inr ⟨n, hpc, hmoved, rfl⟩
  | creates | unlinks =>
    change ((s.setPc i _).client i).pc.Awaiting at hawait
    rw [setPc_pc] at hawait
    exact absurd hawait id
  | connects =>
    change ((s.setPc i _).client i).pc.Awaiting at hawait
    rw [setPc_pc] at hawait
    split at hawait <;> exact absurd hawait id
  | sends =>
    change (∃ n, ((s.setPc i _).client i).pc = _) ∨ ((s.setPc i _).client i).pc = _ at hpc'
    rw [setPc_pc] at hpc'
    obtain ⟨n, hn⟩ | hk := hpc'
    · cases hn
    · cases hk
  | releases pc hrel =>
    rw [setPc_pc] at hawait hpc'
    obtain ⟨-, rfl⟩ := hrel.awaiting hawait
    obtain ⟨n, hn⟩ | hk := hpc'
    · cases hn
    · cases hk
  | opens k hpc hdir =>
    rw [setPc_pc] at hpc' ⊢
    by_cases hnone : (s.fifo k).writers = 0
    · rw [if_pos hnone] at hpc' ⊢
      obtain ⟨n, hn⟩ | hk := hpc'
      · cases hn
        exact .inl ⟨hpc, hdir, .inl ⟨hnone, rfl⟩⟩
      · cases hk
    · rw [if_neg hnone] at hpc' ⊢
      obtain ⟨n, hn⟩ | hk := hpc'
      · cases hn
      · cases hk
        exact .inl ⟨hpc, hdir, .inr ⟨hnone, rfl⟩⟩
  | reads k c hpc hreq hc =>
    change (Function.update s.client i c i).pc.Awaiting at hawait
    rw [Function.update_self] at hawait
    rcases hc with hc | hc <;> rw [hc] at hawait <;> exact absurd hawait id

/-- How it comes to sleep in that `open`. -/
theorem Move.opening (h : Move s i s') {ino n : Nat} (hpc' : (s'.client i).pc = .openingOwn ino n) :
    (s.client i).pc = .openOwn ∧ s.dir (s.fifoName i) = some ino ∧ (s.fifo ino).writers = 0 ∧
      (s.fifo ino).wOpens = n := by
  rcases h.opened (.inl ⟨n, hpc'⟩) with ⟨hpc, hdir, ⟨hnone, hn⟩ | ⟨-, hread⟩⟩ | ⟨m, -, -, hread⟩
  · rw [hpc', ClientPc.openingOwn.injEq] at hn
    exact ⟨hpc, hdir, hnone, hn.2.symm⟩
  · rw [hpc'] at hread
    cases hread
  · rw [hpc'] at hread
    cases hread

end Tlpi.Seqnum
