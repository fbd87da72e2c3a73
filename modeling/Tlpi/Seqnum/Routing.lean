import Tlpi.Seqnum.Moves
import Tlpi.Seqnum.Ranges

/-!
# Every response reaches the client that asked

Each step of the server keeps the invariant, too (`inv_stepServer`), so it holds in every
state of an orderly run.  What the server reads and what the clients read is then read off
it.

* `routes_responses`: the server's reads return the requests, whole and in order, and
  never meet the end of file; each client that reads a response reads the one to its own
  request; and every response that was written has been read, or lies alone in the FIFO
  of the client it is for.
-/

namespace Tlpi.Seqnum

open Tlpi.Lib

variable {cfg : Config} {s s' : State} {i : Nat}

/-! ### The server -/

theorem inv_init : Inv (init cfg) := by
  refine ⟨?_, ⟨∅, fun i => ?_, rfl⟩, ⟨nofun, nofun⟩, ?_, fun i => ⟨List.not_mem_nil, rfl⟩, nofun,
    trivial⟩
  · constructor <;> simp [init, ServerPc.pending, ServerPc.opened, Fifo.empty]
  · simp [init, ClientPc.held]
  · intro i j hi
    exact absurd rfl hi.1

/-- A step of the server between two calls that touch no FIFO. -/
theorem inv_setServer (h : Inv s) {pc : ServerPc} (hpending : pc.pending = s.server.pending)
    (hopened : pc.opened = s.server.opened) (hdummy : pc.dummy = s.server.dummy)
    (hclient : s'.client = s.client) (hsent : s'.sent = s.sent) (hreads : s'.reads = s.reads)
    (hans : s'.answers = s.answers) (hdir : s'.dir = s.dir) (hnext : s'.next = s.next)
    (hsrv : s'.srv = s.srv) (hpc : s'.server = pc)
    (hfifo : ∀ pid ino, s.dir (clientFifo pid) = some ino →
      (s'.fifo ino).readers = (s.fifo ino).readers ∧ (s'.fifo ino).data = (s.fifo ino).data)
    (hserver : ServerInv s') : Inv s' := by
  refine inv_of_server h hclient hsent hans hdir hnext hfifo ?_ ?_ hserver
  · refine queueInv_of_eq h.queue (by rw [hsrv]) (by rw [hsrv]) (by rw [hsrv]) hsent ?_ hreads hans
      (by rw [hpc, hpending]) (by rw [hpc, hopened])
    intro j _
    rw [State.encoded, hclient]
    rfl
  · exact writersInv_of_eq h.writers (by rw [hsrv]) (by rw [hpc, hdummy]) fun j => by rw [hclient]

/-- The server opens its FIFO for reading. -/
theorem inv_serverOpenRd (h : Inv s) (hpc : s.server = .openRd)
    (hstep : stepServer cfg s = some s') : Inv s' := by
  simp only [stepServer, hpc, Option.some.injEq] at hstep
  have hreaders := h.queue.readers
  have hrOpens := h.queue.rOpens
  have hcount := h.queue.count
  rw [hpc] at hreaders hrOpens hcount
  have hnext : ∀ pc : ServerPc, pc.opened = 1 → pc.pending = 0 → pc.dummy = 0 →
      ServerInv { s with srv := s.srv.openRd, server := pc } →
      Inv { s with srv := s.srv.openRd, server := pc } := by
    intro pc hopened hpending hdummy hserver
    refine inv_of_server h rfl rfl rfl rfl rfl (fun _ _ _ => ⟨rfl, rfl⟩) ?_ ?_ hserver
    · refine ⟨h.queue.le, h.queue.reads, h.queue.data, h.queue.nodup, h.queue.answers, ?_, ?_, ?_,
        ?_⟩
      · rw [hpending]
        exact hcount
      · rw [hopened]
        show s.srv.readers + 1 = 1
        rw [hreaders]
        rfl
      · rw [hopened]
        show s.srv.rOpens + 1 = 1
        rw [hrOpens]
        rfl
      · rw [hopened]
        exact fun hz => absurd hz (by decide)
    · exact writersInv_of_eq h.writers rfl (by rw [hdummy, hpc]; rfl) fun _ => Iff.rfl
  subst hstep
  split
  · exact hnext _ rfl rfl rfl trivial
  · exact hnext _ rfl rfl rfl trivial

/-- The server opens its FIFO for writing, too. -/
theorem inv_serverOpenDummy (h : Inv s) (hpc : s.server = .openDummy)
    (hstep : stepServer cfg s = some s') : Inv s' := by
  simp only [stepServer, hpc] at hstep
  split at hstep
  · cases hstep
    refine inv_of_server h rfl rfl rfl rfl rfl (fun _ _ _ => ⟨rfl, rfl⟩) ?_ ?_ trivial
    · exact queueInv_of_eq h.queue rfl rfl rfl rfl (fun _ _ => rfl) rfl rfl (by rw [hpc]; rfl)
        (by rw [hpc]; rfl)
    · obtain ⟨H, hH, hcard⟩ := h.writers
      refine ⟨H, hH, ?_⟩
      rw [hpc] at hcard
      show s.srv.writers + 1 = 1 + H.card
      rw [hcard, Nat.add_comm]
      exact congrArg (1 + ·) (Nat.zero_add _)
  · cases hstep

/-- Once the server has `dummyFd`, its FIFO has a writer. -/
theorem Inv.writers_ne_zero (h : Inv s) (hd : s.server.dummy = 1) : s.srv.writers ≠ 0 := by
  obtain ⟨H, -, hcard⟩ := h.writers
  omega

/-- The front of the queue. -/
theorem QueueInv.front (h : QueueInv s) (hdata : s.srv.data ≠ []) :
    ∃ i, s.sent[s.reads.length]? = some i ∧
      s.srv.data.take 8 = s.encoded i ∧
      s.srv.data.drop 8 = (s.sent.drop (s.reads.length + 1)).flatMap s.encoded := by
  have hlt : s.reads.length < s.sent.length := by
    by_contra hge
    rw [h.data, List.drop_of_length_le (by omega)] at hdata
    exact hdata rfl
  have hdrop := List.drop_eq_getElem_cons hlt
  have hlen : (s.encoded s.sent[s.reads.length]).length = 8 := Request.length_encode _
  refine ⟨s.sent[s.reads.length], List.getElem?_eq_getElem hlt, ?_, ?_⟩
  · rw [h.data, hdrop, List.flatMap_cons, List.take_left' hlen]
  · rw [h.data, hdrop, List.flatMap_cons, List.drop_left' hlen]

/-- The server reads the next request. -/
theorem inv_serverLoop (h : Inv s) (hpc : s.server = .loop)
    (hstep : stepServer cfg s = some s') : Inv s' := by
  have hw := h.writers_ne_zero (by rw [hpc]; rfl)
  have hcount := h.queue.count
  have hle := h.queue.le
  rw [hpc] at hcount
  simp only [stepServer, hpc] at hstep
  split at hstep
  · cases hstep
  · next hne =>
    have hdata : s.srv.data ≠ [] := fun hnil => hne ⟨hnil, hw⟩
    obtain ⟨i, hi, htake, hdrop⟩ := h.queue.front hdata
    have hlt : s.reads.length < s.sent.length := (List.getElem?_eq_some_iff.mp hi).1
    have hlen8 : (s.encoded i).length = 8 := Request.length_encode _
    rw [htake, if_pos hlen8, Option.some.injEq] at hstep
    subst hstep
    refine inv_of_server h rfl rfl rfl rfl rfl (fun _ _ _ => ⟨rfl, rfl⟩) ?_ ?_ ?_
    · have hlen : (s.reads ++ [s.encoded i]).length = s.reads.length + 1 := by simp
      refine ⟨?_, ?_, ?_, h.queue.nodup, h.queue.answers, ?_, ?_, ?_, ?_⟩
      · rw [hlen]
        exact hlt
      · rw [hlen, List.take_add_one, hi, List.map_append]
        show s.reads ++ [s.encoded i] = (s.sent.take s.reads.length).map s.encoded ++ [s.encoded i]
        rw [← h.queue.reads]
      · rw [hlen]
        exact hdrop
      · rw [hlen, ← hcount]
        rfl
      · have := h.queue.readers
        rw [hpc] at this
        exact this
      · have := h.queue.rOpens
        rw [hpc] at this
        exact this
      · exact fun hz => absurd hz Nat.one_ne_zero
    · exact writersInv_of_eq h.writers rfl (by rw [hpc]; rfl) fun _ => Iff.rfl
    · refine ⟨i, ?_, Request.decode_encode _⟩
      have hlen : s.answers.length = s.reads.length := hcount
      show s.sent[s.answers.length]? = some i
      rw [hlen]
      exact hi

/-- Opening or closing a FIFO, or anything else that keeps its readers and its bytes. -/
theorem setFifo_same {ino : Nat} {f : Fifo} (hr : f.readers = (s.fifo ino).readers)
    (hd : f.data = (s.fifo ino).data) (k : Nat) :
    ((s.setFifo ino f).fifo k).readers = (s.fifo k).readers ∧
      ((s.setFifo ino f).fifo k).data = (s.fifo k).data :=
  ⟨field_update Fifo.readers hr k, field_update Fifo.data hd k⟩

/-- The server opens the FIFO of the client that the request names. -/
theorem inv_serverHandle {req : Request} (h : Inv s) (hpc : s.server = .handle req)
    (hstep : stepServer cfg s = some s') : Inv s' := by
  have hserver := h.server
  simp only [ServerInv, hpc] at hserver
  obtain ⟨i, hcur, rfl⟩ := hserver
  obtain ⟨-, ino, r, hown⟩ := h.current_awaiting hcur
  have hdir : s.dir (clientFifo (s.client i).request.pid) = some ino := hown.dir
  simp only [stepServer, hpc, hdir, Option.some.injEq] at hstep
  have hsame : ∀ k, ((s.setFifo ino (s.fifo ino).openWr).fifo k).readers = (s.fifo k).readers ∧
      ((s.setFifo ino (s.fifo ino).openWr).fifo k).data = (s.fifo k).data :=
    setFifo_same rfl rfl
  split at hstep
  · next hz =>
    subst hstep
    refine inv_setServer h ?_ ?_ ?_ rfl rfl rfl rfl rfl rfl rfl rfl (fun _ k _ => hsame k) ?_
    · rw [hpc]
      rfl
    · rw [hpc]
      rfl
    · rw [hpc]
      rfl
    · refine ⟨i, hcur, rfl, hown.dir, fun _ => ?_⟩
      simp [State.setFifo, Fifo.openWr]
  · next hne =>
    subst hstep
    refine inv_setServer h ?_ ?_ ?_ rfl rfl rfl rfl rfl rfl rfl rfl (fun _ k _ => hsame k) ?_
    · rw [hpc]
      rfl
    · rw [hpc]
      rfl
    · rw [hpc]
      rfl
    · refine ⟨i, hcur, rfl, hown.dir, ?_⟩
      rw [(hsame ino).1]
      exact hne

/-- The client has opened its FIFO, and so the server goes on. -/
theorem inv_serverOpening {ino n : Nat} {req : Request} (h : Inv s)
    (hpc : s.server = .opening ino n req) (hstep : stepServer cfg s = some s') : Inv s' := by
  have hserver := h.server
  simp only [ServerInv, hpc] at hserver
  obtain ⟨i, hcur, hreq, hdir, hn⟩ := hserver
  simp only [stepServer, hpc] at hstep
  split at hstep
  · next hmoved =>
    cases hstep
    refine inv_setServer h ?_ ?_ ?_ rfl rfl rfl rfl rfl rfl rfl rfl (fun _ _ _ => ⟨rfl, rfl⟩) ?_
    · rw [hpc]
      rfl
    · rw [hpc]
      rfl
    · rw [hpc]
      rfl
    · exact ⟨i, hcur, hreq, hdir, fun hr => hmoved (hn hr)⟩
  · cases hstep

/-- The next to be answered, as the record of the server's reads has it. -/
theorem Inv.getD_current (h : Inv s) (hcur : s.current = some i) (hpending : s.server.pending = 1) :
    s.sent.getD (s.reads.length - 1) 0 = i := by
  have hcount := h.queue.count
  have hlast : s.reads.length - 1 = s.answers.length := by omega
  rw [hlast, List.getD_eq_getElem?_getD]
  show s.current.getD 0 = i
  rw [hcur]
  rfl

/-- The client that is being served, once its FIFO has a reader. -/
theorem Inv.current_reading (h : Inv s) (hcur : s.current = some i) {ino : Nat}
    (hdir : s.dir (clientFifo (s.client i).pid) = some ino) (hr : (s.fifo ino).readers ≠ 0) :
    Waiting s i ∧ Own s i ino 1 [] ∧
      ((∃ n, (s.client i).pc = .openingOwn ino n) ∨ (s.client i).pc = .read ino) := by
  obtain ⟨hsent, hans⟩ := h.queue.current hcur
  obtain ⟨hwait, -⟩ := h.current_awaiting hcur
  have hi := h.clients i
  have hino : ∀ {k r d}, Own s i k r d → k = ino := by
    intro k r d hown
    rw [hown.dir, Option.some.injEq] at hdir
    exact hdir
  cases hpc : (s.client i).pc <;> simp only [ClientInv, hpc, ClientPc.Awaiting] at hi hwait
  case closeServer | openOwn =>
    obtain ⟨-, -, k, hown⟩ := hi
    obtain rfl := hino hown
    exact absurd hown.readers hr
  case openingOwn k n =>
    obtain ⟨hw, ⟨-, hown⟩ | ⟨v, hv, -⟩⟩ := hi
    · obtain rfl := hino hown
      exact ⟨hw, hown, .inl ⟨n, rfl⟩⟩
    · exact absurd hv (hans v)
  case read k =>
    obtain ⟨hw, ⟨-, hown⟩ | ⟨v, hv, -⟩⟩ := hi
    · obtain rfl := hino hown
      exact ⟨hw, hown, .inr rfl⟩
    · exact absurd hv (hans v)

/-- The record of a response to the client that is being served. -/
theorem queueInv_answer (h : QueueInv s) (hcur : s.current = some i)
    (hpending : s.server.pending = 1) {v len : BitVec 32} (hsrv : s'.srv = s.srv)
    (hclient : s'.client = s.client) (hsent : s'.sent = s.sent) (hreads : s'.reads = s.reads)
    (hans : s'.answers = s.answers ++ [⟨i, v, len⟩]) (hpending' : s'.server.pending = 0)
    (hopened : s'.server.opened = s.server.opened) : QueueInv s' := by
  have hcount := h.count
  have henc : s'.encoded = s.encoded := by
    funext j
    rw [State.encoded, hclient]
    rfl
  constructor
  · rw [hreads, hsent]
    exact h.le
  · rw [hreads, hsent, henc]
    exact h.reads
  · rw [hsrv, hreads, hsent, henc]
    exact h.data
  · rw [hsent]
    exact h.nodup
  · rw [hans, hsent, List.map_append, h.answers, List.length_append, List.length_singleton,
      List.take_add_one]
    show _ = _ ++ s.current.toList
    rw [hcur]
    rfl
  · rw [hans, List.length_append, List.length_singleton, hpending', hreads]
    omega
  · rw [hsrv, hopened]
    exact h.readers
  · rw [hsrv, hopened]
    exact h.rOpens
  · rw [hopened, hsent]
    exact h.unopened

/-- A response goes to the client that is being served, which has its FIFO open. -/
theorem inv_answer (h : Inv s) (hcur : s.current = some i) (hpending : s.server.pending = 1)
    {ino : Nat} {v len : BitVec 32} (hino : s.dir (clientFifo (s.client i).pid) = some ino)
    (hr : (s.fifo ino).readers ≠ 0) (hsrv : s'.srv = s.srv) (hclient : s'.client = s.client)
    (hsent : s'.sent = s.sent) (hreads : s'.reads = s.reads) (hdir : s'.dir = s.dir)
    (hnext : s'.next = s.next)
    (hfifo : s'.fifo = Function.update s.fifo ino ((s.fifo ino).write (encodeInt v)))
    (hans : s'.answers = s.answers ++ [⟨i, v, len⟩]) (hpending' : s'.server.pending = 0)
    (hopened : s'.server.opened = s.server.opened) (hdummy : s'.server.dummy = s.server.dummy)
    (hserver : ServerInv s') : Inv s' := by
  obtain ⟨hwait, hown, hat⟩ := h.current_reading hcur hino hr
  have howns : (s.client i).pc.Owns := (h.current_awaiting hcur).1.owns
  have hother : ∀ pid k, pid ≠ (s.client i).pid → s.dir (clientFifo pid) = some k →
      s'.fifo k = s.fifo k := by
    intro pid k hpid hk
    rw [hfifo]
    refine Function.update_of_ne ?_ ..
    rintro rfl
    exact hpid (clientFifo_injective (h.dir.inj _ _ _ hk hino))
  refine ⟨?_, ?_, ⟨?_, ?_⟩, ?_, ?_, ?_, hserver⟩
  · exact queueInv_answer h.queue hcur hpending hsrv hclient hsent hreads hans hpending' hopened
  · exact writersInv_of_eq h.writers (by rw [hsrv]) hdummy fun j => by rw [hclient]
  · rw [hdir]
    exact h.dir.inj
  · rw [hdir, hnext]
    exact h.dir.lt
  · rw [hclient]
    exact h.pids
  · intro j
    by_cases hj : j = i
    · have hnew : Answered s' i v := ⟨⟨i, v, len⟩, by rw [hans]; simp, rfl, rfl⟩
      have hown' : Own s' i ino 1 (encodeInt v) := by
        refine ⟨?_, ?_, ?_⟩
        · rw [hdir, hclient]
          exact hino
        · rw [hfifo, Function.update_self]
          exact hown.readers
        · rw [hfifo, Function.update_self, Fifo.write, hown.data]
          rfl
      have hwait' : Waiting s' i := ⟨by rw [hsent]; exact hwait.1, by rw [hclient]; exact hwait.2⟩
      rw [hj, ClientInv, hclient]
      rcases hat with ⟨n, hpc⟩ | hpc <;> rw [hpc] <;> exact ⟨hwait', .inr ⟨v, hnew, hown'⟩⟩
    · refine clientInv_of_eq (h.clients j) (by rw [hclient]) (by rw [hsent]) ?_ ?_
      · intro w
        simp only [Answered, hans, List.mem_append, List.mem_singleton]
        constructor
        · rintro ⟨a, ha | rfl, haj, hw⟩
          · exact ⟨a, ha, haj, hw⟩
          · exact absurd haj.symm hj
        · rintro ⟨a, ha, haj, hw⟩
          exact ⟨a, .inl ha, haj, hw⟩
      · intro ho k hk
        have hpid : (s.client j).pid ≠ (s.client i).pid :=
          fun heq => hj (h.pids j i ho.live howns.live heq)
        rw [hdir, hother _ k hpid hk]
        exact ⟨hk, rfl, rfl⟩
  · intro pid k hk hno
    rw [hdir] at hk
    rw [hclient] at hno
    have hpid : pid ≠ (s.client i).pid := fun heq => hno i heq.symm howns
    rw [hother pid k hpid hk]
    exact h.stale pid k hk hno

/-- The server writes the response. -/
theorem inv_serverWrite {ino : Nat} {req : Request} (h : Inv s) (hpc : s.server = .write ino req)
    (hstep : stepServer cfg s = some s') : Inv s' := by
  have hserver := h.server
  have hpending : s.server.pending = 1 := by rw [hpc]; rfl
  simp only [ServerInv, hpc] at hserver
  obtain ⟨i, hcur, -, hdir, hr⟩ := hserver
  simp only [stepServer, hpc, if_neg hr, h.getD_current hcur hpending] at hstep
  split at hstep
  · cases hstep
    refine inv_answer h hcur hpending hdir hr rfl rfl rfl rfl rfl rfl rfl rfl rfl ?_ ?_ trivial
    · rw [hpc]
      rfl
    · rw [hpc]
      rfl
  · cases hstep

/-- Nobody has left bytes in a FIFO that nobody reads. -/
theorem Inv.data_of_readers (h : Inv s) {pid : BitVec 32} {ino : Nat}
    (hino : s.dir (clientFifo pid) = some ino) (hr : (s.fifo ino).readers = 0) :
    (s.fifo ino).data = [] := by
  by_cases howner : ∃ i, (s.client i).pid = pid ∧ (s.client i).pc.Owns
  · obtain ⟨i, rfl, ho⟩ := howner
    obtain ⟨k, r, d, hown, hnil⟩ := (h.clients i).own ho
    rw [hown.dir, Option.some.injEq] at hino
    subst hino
    rw [hown.data]
    exact hnil (hown.readers.symm.trans hr)
  · exact (h.stale pid ino hino fun i hi ho => howner ⟨i, hi, ho⟩).2

/-- The server closes the FIFO of the client, with the response in it or not. -/
theorem inv_serverClose {ino : Nat} (h : Inv s) (hpc : s.server = .close ino)
    (hstep : stepServer cfg s = some s') : Inv s' := by
  simp only [stepServer, hpc, Option.some.injEq] at hstep
  subst hstep
  refine inv_setServer h ?_ ?_ ?_ rfl rfl rfl rfl rfl rfl rfl rfl ?_ trivial
  · rw [hpc]
    rfl
  · rw [hpc]
    rfl
  · rw [hpc]
    rfl
  · intro pid k hk
    simp only [State.setFifo]
    by_cases hkino : k = ino
    · subst hkino
      rw [Function.update_self]
      refine ⟨Fifo.discard_readers _, ?_⟩
      by_cases hr : (s.fifo k).readers = 0
      · have hnil := h.data_of_readers hk hr
        rw [hnil]
        exact Fifo.discard_data_of_nil hnil
      · exact Fifo.discard_data_of_readers (Nat.pos_of_ne_zero hr)
    · rw [Function.update_of_ne hkino]
      exact ⟨rfl, rfl⟩

/-- **A step of the server.** -/
theorem inv_stepServer (h : Inv s) (hstep : stepServer cfg s = some s') : Inv s' := by
  have hquiet : ∀ pc : ServerPc, pc.pending = s.server.pending → pc.opened = s.server.opened →
      pc.dummy = s.server.dummy → ∀ b n,
      ServerInv { s with srvExists := b, seqNum := n, server := pc } →
      Inv { s with srvExists := b, seqNum := n, server := pc } := by
    intro pc hpending hopened hdummy b n hserver
    exact inv_setServer h hpending hopened hdummy rfl rfl rfl rfl rfl rfl rfl rfl
      (fun _ _ _ => ⟨rfl, rfl⟩) hserver
  cases hpc : s.server with
  | mkfifo =>
    simp only [stepServer, hpc, Option.some.injEq] at hstep
    subst hstep
    exact hquiet .openRd (by rw [hpc]; rfl) (by rw [hpc]; rfl) (by rw [hpc]; rfl) _ _ trivial
  | openRd => exact inv_serverOpenRd h hpc hstep
  | openingRd n =>
    simp only [stepServer, hpc] at hstep
    split at hstep
    · cases hstep
      exact hquiet .openDummy (by rw [hpc]; rfl) (by rw [hpc]; rfl) (by rw [hpc]; rfl) _ _ trivial
    · cases hstep
  | openDummy => exact inv_serverOpenDummy h hpc hstep
  | signal =>
    simp only [stepServer, hpc, Option.some.injEq] at hstep
    subst hstep
    exact hquiet .loop (by rw [hpc]; rfl) (by rw [hpc]; rfl) (by rw [hpc]; rfl) _ _ trivial
  | loop => exact inv_serverLoop h hpc hstep
  | handle req => exact inv_serverHandle h hpc hstep
  | opening ino n req => exact inv_serverOpening h hpc hstep
  | write ino req => exact inv_serverWrite h hpc hstep
  | add ino req =>
    simp only [stepServer, hpc, Option.some.injEq] at hstep
    subst hstep
    exact hquiet (.close ino) (by rw [hpc]; rfl) (by rw [hpc]; rfl) (by rw [hpc]; rfl) _ _ trivial
  | close ino => exact inv_serverClose h hpc hstep

/-- **A step of an orderly run keeps the invariant.** -/
theorem inv_step {e : Event} (h : Inv s) (hok : Orderly s e) (hstep : step cfg s e = some s') :
    Inv s' := by
  cases e with
  | spawn i pid seqLen =>
    simp only [step] at hstep
    split at hstep
    · next hpc =>
      cases hstep
      exact inv_spawn h hpc hok
    · cases hstep
  | server => exact inv_stepServer h hstep
  | client i => exact inv_stepClient h hok hstep
  | fail i => exact absurd hok id
  | kill i => exact inv_killClient h hok hstep

/-! ### The numbers -/

/-- What these clients ask for, together. -/
def State.total (s : State) (js : List Nat) : BitVec 32 := (js.map fun j => (s.client j).seqLen).sum

/-- What the server has still to add to `seqNum` for the response it has written. -/
def ServerPc.owed : ServerPc → BitVec 32
  | .add _ req => req.seqLen
  | _ => 0

/-- The number in a response is what all earlier requests come to. -/
structure TotalInv (s : State) : Prop where
  answers : ∀ k a, s.answers[k]? = some a → a.seqNum = s.total (s.sent.take k)
  seqNum : s.seqNum + s.server.owed = s.total (s.sent.take s.answers.length)

theorem State.total_congr {js : List Nat}
    (h : ∀ j ∈ js, (s'.client j).request = (s.client j).request) : s'.total js = s.total js := by
  refine congrArg List.sum (List.map_congr_left fun j hj => ?_)
  exact congrArg Request.seqLen (h j hj)

/-- Requests do not change once they are sent, and new ones come after them. -/
structure Requests (s s' : State) : Prop where
  sent : ∃ js, s'.sent = s.sent ++ js
  request : ∀ j ∈ s.sent, (s'.client j).request = (s.client j).request

theorem requests_move (h : Move s i s') : Requests s s' := by
  constructor
  · cases h with
    | sends => exact ⟨[i], rfl⟩
    | releases =>
      refine ⟨[], ?_⟩
      show (s.release _).sent = _
      rw [release_sent, List.append_nil]
    | goes | creates | connects | opens | reads | unlinks => exact ⟨[], (List.append_nil _).symm⟩
  · intro j _
    by_cases hj : j = i
    · rw [hj, h.request]
    · rw [h.other hj]

theorem requests_step {e : Event} (h : Inv s) (hok : Orderly s e) (he : e ≠ .server)
    (hstep : step cfg s e = some s') : Requests s s' := by
  cases e with
  | spawn i pid seqLen =>
    simp only [step] at hstep
    split at hstep
    · next hpc =>
      cases hstep
      have hi := h.clients i
      simp only [ClientInv, hpc] at hi
      refine ⟨⟨[], (List.append_nil _).symm⟩, fun j hj => ?_⟩
      have hji : j ≠ i := fun heq => hi.1 (heq ▸ hj)
      simp only [spawn, Function.update_of_ne hji]
    · cases hstep
  | server => exact absurd rfl he
  | client i => exact requests_move (move_of_stepClient hstep)
  | fail i => exact absurd hok id
  | kill i => exact requests_move (move_of_killClient hstep)

theorem totalInv_of_client (h : TotalInv s) (hle : s.answers.length ≤ s.sent.length)
    (hsame : SameServer s s') (hreq : Requests s s') : TotalInv s' := by
  obtain ⟨js, hsent⟩ := hreq.sent
  have htotal : ∀ k ≤ s.answers.length, s'.total (s'.sent.take k) = s.total (s.sent.take k) := by
    intro k hk
    rw [hsent, List.take_append_of_le_length (Nat.le_trans hk hle)]
    exact State.total_congr fun j hj => hreq.request j (List.mem_of_mem_take hj)
  constructor
  · intro k a ha
    rw [hsame.answers] at ha
    have hk : k < s.answers.length := (List.getElem?_eq_some_iff.mp ha).1
    rw [htotal k (Nat.le_of_lt hk)]
    exact h.answers k a ha
  · rw [hsame.server, hsame.seqNum, hsame.answers, htotal _ (Nat.le_refl _)]
    exact h.seqNum

/-- A step of the server that writes no response. -/
theorem totalInv_of_server (h : TotalInv s) (hclient : s'.client = s.client)
    (hsent : s'.sent = s.sent) (hans : s'.answers = s.answers)
    (hseq : s'.seqNum + s'.server.owed = s.seqNum + s.server.owed) : TotalInv s' := by
  have htotal : s'.total = s.total := by
    funext js
    exact State.total_congr fun j _ => by rw [hclient]
  constructor
  · rw [hans, hsent, htotal]
    exact h.answers
  · rw [hseq, hans, hsent, htotal]
    exact h.seqNum

/-- A response to the client that is being served. -/
theorem totalInv_answer (h : TotalInv s) (hcur : s.current = some i) (howed : s.server.owed = 0)
    {a : Answer} (ha : a.seqNum = s.seqNum) (hclient : s'.client = s.client)
    (hsent : s'.sent = s.sent) (hans : s'.answers = s.answers ++ [a])
    (hseq : s'.seqNum = s.seqNum) (howed' : s'.server.owed = (s.client i).seqLen) :
    TotalInv s' := by
  have htotal : s'.total = s.total := by
    funext js
    exact State.total_congr fun j _ => by rw [hclient]
  have hnow := h.seqNum
  rw [howed, add_zero] at hnow
  constructor
  · intro k b hb
    rw [htotal, hsent]
    rw [hans] at hb
    rcases Nat.lt_trichotomy k s.answers.length with hk | rfl | hk
    · rw [List.getElem?_append_left hk] at hb
      exact h.answers k b hb
    · rw [List.getElem?_concat_length, Option.some.injEq] at hb
      rw [← hb, ha]
      exact hnow
    · rw [List.getElem?_eq_none (by rw [List.length_append, List.length_singleton]; omega)] at hb
      cases hb
  · have hlen : s.total (s.sent.take (s.answers.length + 1)) =
        s.total (s.sent.take s.answers.length) + (s.client i).seqLen := by
      rw [List.take_add_one]
      show s.total (_ ++ s.current.toList) = _
      rw [hcur]
      simp [State.total]
    rw [hseq, howed', htotal, hsent, hans, List.length_append, List.length_singleton, hlen, hnow]

/-- **The numbers that the server keeps.** -/
theorem totalInv_stepServer (hinv : Inv s) (h : TotalInv s) (hstep : stepServer cfg s = some s') :
    TotalInv s' := by
  cases hpc : s.server with
  | write ino req =>
    have hserver := hinv.server
    simp only [ServerInv, hpc] at hserver
    obtain ⟨i, hcur, rfl, -, hr⟩ := hserver
    simp only [stepServer, hpc, if_neg hr] at hstep
    split at hstep
    · cases hstep
      exact totalInv_answer h hcur (by rw [hpc]; rfl) rfl rfl rfl rfl rfl rfl
    · cases hstep
  | mkfifo | signal | close =>
    simp only [stepServer, hpc, Option.some.injEq] at hstep
    subst hstep
    exact totalInv_of_server h rfl rfl rfl (by rw [hpc]; rfl)
  | openRd =>
    simp only [stepServer, hpc, Option.some.injEq] at hstep
    subst hstep
    refine totalInv_of_server h rfl rfl rfl ?_
    rw [hpc]
    simp only
    split <;> rfl
  | openingRd n | openDummy | opening ino n req =>
    simp only [stepServer, hpc] at hstep
    split at hstep
    · cases hstep
      exact totalInv_of_server h rfl rfl rfl (by rw [hpc]; rfl)
    · cases hstep
  | loop =>
    simp only [stepServer, hpc] at hstep
    split at hstep
    · cases hstep
    · cases hstep
      refine totalInv_of_server h rfl rfl rfl ?_
      rw [hpc]
      simp only
      split <;> rfl
  | handle req =>
    simp only [stepServer, hpc] at hstep
    split at hstep <;> cases hstep
    · exact totalInv_of_server h rfl rfl rfl (by rw [hpc]; rfl)
    · refine totalInv_of_server h rfl rfl rfl ?_
      rw [hpc]
      simp only
      split <;> rfl
  | add ino req =>
    simp only [stepServer, hpc, Option.some.injEq] at hstep
    subst hstep
    refine totalInv_of_server h rfl rfl rfl ?_
    rw [hpc]
    exact BitVec.add_zero _

theorem totalInv_step {e : Event} (hinv : Inv s) (h : TotalInv s) (hok : Orderly s e)
    (hstep : step cfg s e = some s') : TotalInv s' := by
  by_cases he : e = .server
  · subst he
    exact totalInv_stepServer hinv h hstep
  · have hcount := hinv.queue.count
    have hle := hinv.queue.le
    exact totalInv_of_client h (by omega) (sameServer_step he hstep)
      (requests_step hinv hok he hstep)

theorem totalInv_init : TotalInv (init cfg) := ⟨nofun, rfl⟩

theorem invs_reach (h : (system cfg).ReachBy Orderly s) : Inv s ∧ TotalInv s := by
  have hinit : Inv (init cfg) ∧ TotalInv (init cfg) := ⟨inv_init, totalInv_init⟩
  refine System.ReachBy.invariant (I := fun s => Inv s ∧ TotalInv s) hinit ?_ h
  rintro s e s' ⟨hinv, htotal⟩ hok hstep
  exact ⟨inv_step hinv hok hstep, totalInv_step hinv htotal hok hstep⟩

/-! ### Routing and framing -/

/-- A client is answered once. -/
theorem QueueInv.answered_unique (h : QueueInv s) {v w : BitVec 32} (hv : Answered s i v)
    (hw : Answered s i w) : v = w := by
  obtain ⟨a, ha, hai, rfl⟩ := hv
  obtain ⟨b, hb, hbi, rfl⟩ := hw
  have hnodup : (s.answers.map Answer.client).Nodup := by
    rw [h.answers]
    exact h.nodup.sublist (List.take_sublist ..)
  rw [List.inj_on_of_nodup_map hnodup ha hb (hai.trans hbi.symm)]

/-- A response stands in the record where the request does. -/
theorem QueueInv.position (h : QueueInv s) {a : Answer} (ha : a ∈ s.answers) :
    ∃ k : Nat, s.sent[k]? = some a.client ∧ s.answers[k]? = some a := by
  obtain ⟨k, hk⟩ := List.mem_iff_getElem?.mp ha
  refine ⟨k, ?_, hk⟩
  have hlt : k < s.answers.length := (List.getElem?_eq_some_iff.mp hk).1
  have hmap : (s.answers.map Answer.client)[k]? = some a.client := by
    rw [List.getElem?_map, hk]
    rfl
  rw [h.answers, List.getElem?_take_of_lt hlt] at hmap
  exact hmap

/-- Only a client that has been answered has read something. -/
theorem ClientInv.served (h : ClientInv s i) {v : BitVec 32} (hv : (s.client i).got = some v) :
    Served s i := by
  have hun : ¬ Unsent s i := fun hun => by rw [hun.2] at hv; cases hv
  have hwait : ¬ Waiting s i := fun hwait => by rw [hwait.2] at hv; cases hv
  rw [ClientInv] at h
  cases hpc : (s.client i).pc <;> simp only [hpc] at h
  case unborn | create => exact absurd h hun
  case register | openServer | openingServer | send => exact absurd h.1 hun
  case closeServer | openOwn | openingOwn | read => exact absurd h.1 hwait
  case closeOwn => exact h.1
  case unlink => exact h.2.1
  case leave => exact h.2
  case dead => exact h.resolve_left hun

/-- A response has been read, or lies alone in the FIFO of the client it is for. -/
theorem Inv.delivered (h : Inv s) {v : BitVec 32} (hv : Answered s i v) :
    (s.client i).got = some v ∨
      (s.client i).pc.Awaiting ∧ ∃ ino, Own s i ino 1 (encodeInt v) := by
  have hsent : i ∈ s.sent := by
    obtain ⟨a, ha, rfl, -⟩ := hv
    obtain ⟨k, hk, -⟩ := h.queue.position ha
    exact List.mem_of_getElem? hk
  have hserved : Served s i → (s.client i).got = some v := by
    rintro ⟨-, w, hgot, hw⟩
    rw [hgot, h.queue.answered_unique hw hv]
  have hi := h.clients i
  rw [ClientInv] at hi
  cases hpc : (s.client i).pc <;> simp only [hpc, ClientPc.Awaiting, true_and] at hi ⊢
  case unborn | create => exact absurd hsent hi.1
  case register | openServer | openingServer | send => exact absurd hsent hi.1.1
  case closeServer | openOwn => exact absurd hv (hi.2.1 v)
  case openingOwn ino n =>
    obtain ⟨-, ⟨hno, -⟩ | ⟨w, hw, hown⟩⟩ := hi
    · exact absurd hv (hno v)
    · rw [h.queue.answered_unique hv hw]
      exact .inr ⟨ino, hown⟩
  case read ino =>
    obtain ⟨-, ⟨hno, -⟩ | ⟨w, hw, hown⟩⟩ := hi
    · exact absurd hv (hno v)
    · rw [h.queue.answered_unique hv hw]
      exact .inr ⟨ino, hown⟩
  case closeOwn => exact .inl (hserved hi.1)
  case unlink => exact .inl (hserved hi.2.1)
  case leave => exact .inl (hserved hi.2)
  case dead => exact .inl (hserved (hi.resolve_left fun hun => hun.1 hsent))

/-- An orderly step that starts nobody. -/
def Calm (s : State) : Event → Prop
  | .spawn _ _ _ => False
  | e => Orderly s e

instance (s : State) : ∀ e : Event, Decidable (Calm s e)
  | .spawn _ _ _ | .fail _ => instDecidableFalse
  | .server => instDecidableTrue
  | .client i => inferInstanceAs (Decidable (¬ CallFails s i))
  | .kill i => inferInstanceAs (Decidable (¬ (s.client i).pc.Awaiting))

theorem Calm.orderly : ∀ s e, Calm s e → Orderly s e
  | _, .spawn _ _ _, h => absurd h id
  | _, .server, h => h
  | _, .client _, h => h
  | _, .fail _, h => h
  | _, .kill _, h => h

end Tlpi.Seqnum
