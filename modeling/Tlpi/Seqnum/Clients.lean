import Tlpi.Seqnum.Invariant

/-!
# The steps of a client

Each call of a client keeps the invariant, if it does not fail (`inv_stepClient`).  A call
touches the client itself, its own FIFO and the server's, and `inv_of_client` has said
that the others do not notice; what remains is the client's own part, and its part in the
queue.  So do a signal that does not come while the client waits (`inv_killClient`), and
the start of a client whose PID is free (`inv_spawn`).
-/

namespace Tlpi.Seqnum

open Tlpi.Lib

variable {cfg : Config} {s s' : State} {i : Nat}

theorem footprint_setPc (pc : ClientPc) : Footprint s (s.setPc i pc) i := by
  refine ⟨⟨rfl, rfl, rfl, rfl⟩, fun j hj => ?_, ?_, .inl rfl, fun _ _ => rfl, fun _ _ _ => rfl⟩
  · exact Function.update_of_ne hj ..
  · simp [State.setPc, Client.request]

@[simp] theorem setPc_pc (s : State) (i : Nat) (pc : ClientPc) :
    ((s.setPc i pc).client i).pc = pc := by
  simp [State.setPc]

theorem Unsent.setPc {pc : ClientPc} (h : Unsent s i) : Unsent (s.setPc i pc) i :=
  ⟨h.1, by simpa [State.setPc] using h.2⟩

theorem Waiting.setPc {pc : ClientPc} (h : Waiting s i) : Waiting (s.setPc i pc) i :=
  ⟨h.1, by simpa [State.setPc] using h.2⟩

theorem Served.setPc {pc : ClientPc} (h : Served s i) : Served (s.setPc i pc) i := by
  obtain ⟨hsent, v, hgot, hans⟩ := h
  exact ⟨hsent, v, by simpa [State.setPc] using hgot, hans⟩

theorem Own.setPc {pc : ClientPc} {ino r : Nat} {d : Bytes} (h : Own s i ino r d) :
    Own (s.setPc i pc) i ino r d :=
  ⟨by simpa [State.setPc] using h.dir, h.readers, h.data⟩

/-- A step of client `i` that leaves the server's FIFO alone. -/
theorem inv_of_quietClient (h : Inv s) (hf : Footprint s s' i) (hlive : (s.client i).pc.Live)
    (hsrv : s'.srv = s.srv) (hsent : s'.sent = s.sent)
    (hheld : (s'.client i).pc.held = .server ↔ (s.client i).pc.held = .server)
    (hdir : DirInv s') (hi : ClientInv s' i)
    (hstale : ¬ (s'.client i).pc.Owns → ∀ ino, s'.dir (clientFifo (s.client i).pid) = some ino →
      (s'.fifo ino).readers = 0 ∧ (s'.fifo ino).data = [])
    (hcur : s.current = some i → ∀ ino, s.dir (clientFifo (s.client i).pid) = some ino →
      s'.dir (clientFifo (s.client i).pid) = some ino ∧
        ((s'.fifo ino).readers = 0 →
          (s.fifo ino).readers = 0 ∧ (s'.fifo ino).rOpens = (s.fifo ino).rOpens)) :
    Inv s' := by
  refine inv_of_client h hf hlive ?_ ?_ hdir hi hstale hcur
  · exact queueInv_of_eq h.queue (by rw [hsrv]) (by rw [hsrv]) (by rw [hsrv]) hsent
      (fun j _ => by rw [State.encoded, hf.request_eq]; rfl) hf.same.reads hf.same.answers
      (by rw [hf.same.server]) (by rw [hf.same.server])
  · refine writersInv_of_eq h.writers (by rw [hsrv]) (by rw [hf.same.server]) fun j => ?_
    by_cases hj : j = i
    · rw [hj]
      exact hheld
    · rw [hf.other j hj]

/-- The client that is being served is not one that does not wait. -/
theorem Inv.not_current (h : Inv s) (hpc : ¬ (s.client i).pc.Awaiting) : s.current ≠ some i :=
  fun hcur => hpc (h.current_awaiting hcur).1

/-- The FIFO behind the name of a live client that does not own it is a stale one. -/
theorem Inv.own_of_not_owns (h : Inv s) (hlive : (s.client i).pc.Live)
    (hno : ¬ (s.client i).pc.Owns) {ino : Nat}
    (hino : s.dir (clientFifo (s.client i).pid) = some ino) : Own s i ino 0 [] := by
  have hnone : ∀ j, (s.client j).pid = (s.client i).pid → ¬ (s.client j).pc.Owns := by
    intro j hj ho
    rw [h.pids j i ho.live hlive hj] at ho
    exact hno ho
  obtain ⟨hr, hd⟩ := h.stale _ ino hino hnone
  exact ⟨hino, hr, hd⟩

theorem dirInv_create (h : DirInv s) {n : String} {s' : State}
    (hdir : s'.dir = Function.update s.dir n (some s.next)) (hnext : s'.next = s.next + 1) :
    DirInv s' := by
  constructor
  · intro m k ino hm hk
    rw [hdir] at hm hk
    by_cases hmn : m = n
    · by_cases hkn : k = n
      · rw [hmn, hkn]
      · rw [hmn, Function.update_self, Option.some.injEq] at hm
        rw [Function.update_of_ne hkn] at hk
        exact absurd (h.lt k ino hk) (by omega)
    · rw [Function.update_of_ne hmn] at hm
      by_cases hkn : k = n
      · rw [hkn, Function.update_self, Option.some.injEq] at hk
        exact absurd (h.lt m ino hm) (by omega)
      · rw [Function.update_of_ne hkn] at hk
        exact h.inj m k ino hm hk
  · intro m ino hm
    rw [hdir] at hm
    rw [hnext]
    by_cases hmn : m = n
    · rw [hmn, Function.update_self, Option.some.injEq] at hm
      omega
    · rw [Function.update_of_ne hmn] at hm
      exact Nat.lt_succ_of_lt (h.lt m ino hm)

theorem inv_create (h : Inv s) (hpc : (s.client i).pc = .create)
    (hstep : stepClient cfg s i = some s') : Inv s' := by
  have hlive : (s.client i).pc.Live := by rw [hpc]; decide
  have hi := h.clients i
  have hnot := h.not_current (i := i) (by rw [hpc]; exact id)
  simp only [ClientInv, hpc] at hi
  simp only [stepClient, hpc] at hstep
  split at hstep
  · next ino hino =>
    cases hstep
    refine inv_of_quietClient h (footprint_setPc _) hlive rfl rfl ?_ ⟨h.dir.inj, h.dir.lt⟩ ?_ ?_
      (fun hc => absurd hc hnot)
    · simp [State.setPc, hpc, ClientPc.held]
    · simp only [ClientInv, setPc_pc]
      exact ⟨hi.setPc, ino, (h.own_of_not_owns hlive (by rw [hpc]; exact id) hino).setPc⟩
    · intro hno
      simp [State.setPc, ClientPc.Owns] at hno
  · cases hstep
    refine inv_of_quietClient h ?_ hlive rfl rfl ?_ (dirInv_create h.dir rfl rfl) ?_ ?_
      (fun hc => absurd hc hnot)
    · refine ⟨⟨rfl, rfl, rfl, rfl⟩, fun j hj => Function.update_of_ne hj .., ?_, .inl rfl, ?_, ?_⟩
      · simp [State.setPc, Client.request]
      · exact fun n hn => Function.update_of_ne hn ..
      · exact fun ino hlt _ => Function.update_of_ne (Nat.ne_of_lt hlt) ..
    · simp [State.setPc, hpc, ClientPc.held]
    · simp only [ClientInv, State.setPc, Function.update_self]
      refine ⟨⟨hi.1, by simpa using hi.2⟩, s.next, ?_, ?_, ?_⟩ <;> simp [Fifo.empty]
    · intro hno
      simp [State.setPc, ClientPc.Owns] at hno

/-- A step of client `i` that does nothing but take it to its next call. -/
theorem inv_setPc (h : Inv s) {pc : ClientPc} (hlive : (s.client i).pc.Live)
    (hheld : pc.held = .server ↔ (s.client i).pc.held = .server)
    (hi : ClientInv (s.setPc i pc) i) (ho : pc.Owns) : Inv (s.setPc i pc) := by
  refine inv_of_quietClient h (footprint_setPc pc) hlive rfl rfl ?_ ⟨h.dir.inj, h.dir.lt⟩ hi ?_ ?_
  · rw [setPc_pc]
    exact hheld
  · intro hno
    rw [setPc_pc] at hno
    exact absurd ho hno
  · exact fun _ ino hino => ⟨hino, fun hr => ⟨hr, rfl⟩⟩

theorem inv_register (h : Inv s) (hpc : (s.client i).pc = .register)
    (hstep : stepClient cfg s i = some s') : Inv s' := by
  have hi := h.clients i
  simp only [ClientInv, hpc] at hi
  simp only [stepClient, hpc, Option.some.injEq] at hstep
  subst hstep
  obtain ⟨hun, ino, hown⟩ := hi
  apply inv_setPc h
  · rw [hpc]
    decide
  · simp [hpc, ClientPc.held]
  · simp only [ClientInv, setPc_pc]
    exact ⟨hun.setPc, ino, hown.setPc⟩
  · trivial

theorem inv_openingServer {n : Nat} (h : Inv s) (hpc : (s.client i).pc = .openingServer n)
    (hstep : stepClient cfg s i = some s') : Inv s' := by
  have hi := h.clients i
  simp only [ClientInv, hpc] at hi
  simp only [stepClient, hpc] at hstep
  split at hstep
  · cases hstep
    obtain ⟨hun, ino, hown⟩ := hi
    apply inv_setPc h
    · rw [hpc]
      simp [ClientPc.Live]
    · simp [hpc, ClientPc.held]
    · simp only [ClientInv, setPc_pc]
      exact ⟨hun.setPc, ino, hown.setPc⟩
    · trivial
  · cases hstep

/-- Client `i` opens the server's FIFO. -/
theorem inv_openServer (h : Inv s) (hpc : (s.client i).pc = .openServer)
    (hok : ¬ CallFails s i) (hstep : stepClient cfg s i = some s') : Inv s' := by
  have hi := h.clients i
  have hnot := h.not_current (i := i) (by rw [hpc]; exact id)
  simp only [ClientInv, hpc] at hi
  simp only [CallFails, hpc, Bool.not_eq_false] at hok
  simp only [stepClient, hpc, hok, if_true, Option.some.injEq] at hstep
  obtain ⟨hun, ino, hown⟩ := hi
  have hnext : ∀ pc : ClientPc, (pc = .openingServer s.srv.rOpens ∨ pc = .send) →
      Inv { s.setPc i pc with srv := s.srv.openWr } := by
    intro pc hpc'
    have hf : Footprint s { s.setPc i pc with srv := s.srv.openWr } i :=
      { footprint_setPc pc with same := ⟨rfl, rfl, rfl, rfl⟩ }
    have hheld : pc.held = .server := by rcases hpc' with rfl | rfl <;> rfl
    refine inv_of_client h hf (by rw [hpc]; decide) ?_ ?_ ⟨h.dir.inj, h.dir.lt⟩ ?_ ?_
      (fun hc => absurd hc hnot)
    · exact queueInv_of_eq h.queue rfl rfl rfl rfl
        (fun j _ => by rw [State.encoded, hf.request_eq]; rfl) rfl rfl rfl rfl
    · refine writersInv_open (i := i) h.writers rfl rfl ?_ ?_ hf.other
      · simp [hpc, ClientPc.held]
      · simpa [State.setPc] using hheld
    · have hun' : Unsent (s.setPc i pc) i := hun.setPc
      have hown' : Own (s.setPc i pc) i ino 0 [] := hown.setPc
      rcases hpc' with rfl | rfl <;> simp only [ClientInv, State.setPc, Function.update_self] <;>
        exact ⟨hun', ino, hown'.dir, hown'.readers, hown'.data⟩
    · intro hno
      rcases hpc' with rfl | rfl <;> simp [State.setPc, ClientPc.Owns] at hno
  subst hstep
  apply hnext
  split
  · exact .inl rfl
  · exact .inr rfl

/-- Client `i` writes its request. -/
theorem inv_send (h : Inv s) (hpc : (s.client i).pc = .send) (hok : ¬ CallFails s i)
    (hstep : stepClient cfg s i = some s') : Inv s' := by
  have hi := h.clients i
  have hnot := h.not_current (i := i) (by rw [hpc]; exact id)
  simp only [ClientInv, hpc] at hi
  simp only [CallFails, hpc] at hok
  simp only [stepClient, hpc] at hstep
  rw [if_neg hok] at hstep
  obtain ⟨hun, ino, hown⟩ := hi
  split at hstep
  · cases hstep
    have hf : Footprint s { s.setPc i .closeServer with
        srv := s.srv.write (s.client i).request.encode, sent := s.sent ++ [i] } i :=
      { footprint_setPc .closeServer with same := ⟨rfl, rfl, rfl, rfl⟩, sent := .inr rfl }
    have hopen : s.server.opened ≠ 0 := by rw [← h.queue.readers]; exact hok
    refine inv_of_client h hf (by rw [hpc]; decide) ?_ ?_ ⟨h.dir.inj, h.dir.lt⟩ ?_ ?_
      (fun hc => absurd hc hnot)
    · refine queueInv_send h.queue hun.1 hopen rfl rfl rfl rfl ?_ hf.same
      funext j
      rw [State.encoded, hf.request_eq]
      rfl
    · refine writersInv_of_eq h.writers rfl rfl fun j => ?_
      by_cases hj : j = i
      · simp [hj, State.setPc, hpc, ClientPc.held]
      · rw [hf.other j hj]
    · have hgot : Unsent (s.setPc i .closeServer) i := hun.setPc
      have hown' : Own (s.setPc i .closeServer) i ino 0 [] := hown.setPc
      simp only [ClientInv, State.setPc, Function.update_self]
      refine ⟨⟨by simp, hgot.2⟩, ?_, ino, hown'.dir, hown'.readers, hown'.data⟩
      rintro v ⟨a, ha, hai, -⟩
      apply hun.1
      have hmem : a.client ∈ s.answers.map Answer.client := List.mem_map_of_mem ha
      rw [h.queue.answers, hai] at hmem
      exact List.mem_of_mem_take hmem
    · intro hno
      simp [State.setPc, ClientPc.Owns] at hno
  · cases hstep

/-- Closing the server's FIFO loses none of its bytes. -/
theorem QueueInv.closeWr_data (h : QueueInv s) : s.srv.closeWr.data = s.srv.data := by
  by_cases hopen : s.server.opened = 0
  · have hnil : s.srv.data = [] := by rw [h.data, h.unopened hopen]; simp
    rw [hnil]
    exact Fifo.discard_data_of_nil hnil
  · refine Fifo.discard_data_of_readers ?_
    have := h.readers
    show 0 < s.srv.readers
    omega

/-- A step in which client `i` closes the server's FIFO. -/
theorem inv_of_closeServer (h : Inv s) {pc : ClientPc} (hlive : (s.client i).pc.Live)
    (hheld : (s.client i).pc.held = .server) (hheld' : pc.held ≠ .server)
    (hi : ClientInv ((s.release .server).setPc i pc) i)
    (hstale : ¬ pc.Owns → ∀ ino, s.dir (clientFifo (s.client i).pid) = some ino →
      (s.fifo ino).readers = 0 ∧ (s.fifo ino).data = []) :
    Inv ((s.release .server).setPc i pc) := by
  have hf : Footprint s ((s.release .server).setPc i pc) i :=
    { footprint_setPc pc with same := ⟨rfl, rfl, rfl, rfl⟩ }
  refine inv_of_client h hf hlive ?_ ?_ ⟨h.dir.inj, h.dir.lt⟩ hi ?_ ?_
  · refine queueInv_of_eq h.queue h.queue.closeWr_data ?_ ?_ rfl
      (fun j _ => by rw [State.encoded, hf.request_eq]; rfl) rfl rfl rfl rfl
    · exact Fifo.discard_readers _
    · exact Fifo.discard_rOpens _
  · refine writersInv_close (i := i) h.writers ?_ rfl hheld ?_ hf.other
    · exact Fifo.discard_writers _
    · simpa [State.setPc] using hheld'
  · intro hno
    rw [setPc_pc] at hno
    exact hstale hno
  · exact fun _ ino hino => ⟨hino, fun hr => ⟨hr, rfl⟩⟩

theorem inv_closeServer (h : Inv s) (hpc : (s.client i).pc = .closeServer)
    (hstep : stepClient cfg s i = some s') : Inv s' := by
  have hi := h.clients i
  simp only [ClientInv, hpc] at hi
  simp only [stepClient, hpc, Option.some.injEq] at hstep
  subst hstep
  obtain ⟨hwait, hans, ino, hown⟩ := hi
  have hwait' : Waiting (s.setPc i .openOwn) i := hwait.setPc
  have hown' : Own (s.setPc i .openOwn) i ino 0 [] := hown.setPc
  apply inv_of_closeServer h
  · rw [hpc]
    decide
  · rw [hpc]
    rfl
  · simp [ClientPc.held]
  · simp only [ClientInv, setPc_pc]
    exact ⟨⟨hwait'.1, hwait'.2⟩, hans, ino, hown'.dir, hown'.readers, hown'.data⟩
  · exact fun hno => absurd trivial hno

/-- A step of client `i` on its own FIFO. -/
theorem footprint_setFifo {ino : Nat} (hino : s.dir (clientFifo (s.client i).pid) = some ino)
    (f : Fifo) {c : Client} (hc : c.request = (s.client i).request) :
    Footprint s { s.setFifo ino f with client := Function.update s.client i c } i := by
  refine ⟨⟨rfl, rfl, rfl, rfl⟩, fun j hj => Function.update_of_ne hj .., ?_, .inl rfl,
    fun _ _ => rfl, fun k _ hk => Function.update_of_ne ?_ ..⟩
  · simpa using hc
  · rintro rfl
    exact hk hino

theorem inv_openOwn (h : Inv s) (hpc : (s.client i).pc = .openOwn)
    (hstep : stepClient cfg s i = some s') : Inv s' := by
  have hi := h.clients i
  simp only [ClientInv, hpc] at hi
  obtain ⟨hwait, hans, ino, hown⟩ := hi
  simp only [stepClient, hpc, hown.dir, Option.some.injEq] at hstep
  have hnext : ∀ pc : ClientPc, (pc = .openingOwn ino (s.fifo ino).wOpens ∨ pc = .read ino) →
      Inv ((s.setFifo ino (s.fifo ino).openRd).setPc i pc) := by
    intro pc hpc'
    have hone : ((Function.update s.fifo ino (s.fifo ino).openRd) ino).readers = 1 := by
      rw [Function.update_self, Fifo.openRd, hown.readers]
    have hdata : ((Function.update s.fifo ino (s.fifo ino).openRd) ino).data = [] := by
      rw [Function.update_self]
      exact hown.data
    refine inv_of_quietClient h (footprint_setFifo hown.dir _ rfl) (by rw [hpc]; decide) rfl rfl ?_
      ⟨h.dir.inj, h.dir.lt⟩ ?_ ?_ ?_
    · rcases hpc' with rfl | rfl <;> simp [hpc, ClientPc.held]
    · have hwait' : Waiting (s.setPc i pc) i := hwait.setPc
      have hown' : Own (s.setPc i pc) i ino 0 [] := hown.setPc
      rcases hpc' with rfl | rfl <;> simp only [ClientInv, setPc_pc] <;>
        exact ⟨⟨hwait'.1, hwait'.2⟩, .inl ⟨hans, hown'.dir, hone, hdata⟩⟩
    · intro hno
      rcases hpc' with rfl | rfl <;> simp [ClientPc.Owns] at hno
    · intro _ k hk
      rw [hown.dir, Option.some.injEq] at hk
      subst hk
      refine ⟨hown.dir, fun hr => ?_⟩
      exact absurd (hr.symm.trans hone) (by decide)
  subst hstep
  apply hnext
  split
  · exact .inl rfl
  · exact .inr rfl

theorem inv_openingOwn {ino n : Nat} (h : Inv s) (hpc : (s.client i).pc = .openingOwn ino n)
    (hstep : stepClient cfg s i = some s') : Inv s' := by
  have hi := h.clients i
  simp only [ClientInv, hpc] at hi
  simp only [stepClient, hpc] at hstep
  split at hstep
  · cases hstep
    apply inv_setPc h
    · simp [hpc, ClientPc.Live]
    · simp [hpc, ClientPc.held]
    · simp only [ClientInv, setPc_pc]
      refine ⟨hi.1.setPc, hi.2.imp ?_ ?_⟩
      · exact fun hempty => ⟨hempty.1, hempty.2.setPc⟩
      · rintro ⟨v, hv, hown⟩
        exact ⟨v, hv, hown.setPc⟩
    · trivial
  · cases hstep

/-- Client `i` reads the response to its own request. -/
theorem inv_read {ino : Nat} (h : Inv s) (hpc : (s.client i).pc = .read ino)
    (hok : ¬ CallFails s i) (hstep : stepClient cfg s i = some s') : Inv s' := by
  have hi := h.clients i
  simp only [ClientInv, hpc] at hi
  simp only [CallFails, hpc] at hok
  simp only [stepClient, hpc] at hstep
  obtain ⟨hwait, ⟨-, hown⟩ | ⟨v, hv, hown⟩⟩ := hi
  · have hwriters : (s.fifo ino).writers ≠ 0 := fun hw => hok ⟨hown.data, hw⟩
    rw [if_pos ⟨hown.data, hwriters⟩] at hstep
    cases hstep
  · have hne : ¬ ((s.fifo ino).data = [] ∧ (s.fifo ino).writers ≠ 0) := by
      rintro ⟨hnil, -⟩
      have hlen : (s.fifo ino).data.length = 4 := by rw [hown.data, length_encodeInt]
      rw [hnil] at hlen
      cases hlen
    have htake : (s.fifo ino).data.take 4 = encodeInt v := by
      rw [hown.data, List.take_of_length_le (by simp)]
    rw [if_neg hne, htake, if_pos (length_encodeInt v), decodeInt_encodeInt, Option.some.injEq]
      at hstep
    subst hstep
    refine inv_of_quietClient h (footprint_setFifo hown.dir _ rfl) ?_ rfl rfl ?_
      ⟨h.dir.inj, h.dir.lt⟩ ?_ ?_ ?_
    · simp [hpc, ClientPc.Live]
    · simp [hpc, ClientPc.held]
    · simp only [ClientInv, Function.update_self]
      refine ⟨⟨hwait.1, v, by simp, hv⟩, ?_, ?_, ?_⟩
      · simpa [State.setFifo] using hown.dir
      · simpa [State.setFifo, Fifo.drop] using hown.readers
      · simp [State.setFifo, Fifo.drop, hown.data]
    · intro hno
      simp [ClientPc.Owns] at hno
    · exact fun hcur => absurd hv ((h.queue.current hcur).2 v)

theorem inv_closeOwn {ino : Nat} (h : Inv s) (hpc : (s.client i).pc = .closeOwn ino)
    (hstep : stepClient cfg s i = some s') : Inv s' := by
  have hi := h.clients i
  have hnot := h.not_current (i := i) (by rw [hpc]; exact id)
  simp only [ClientInv, hpc] at hi
  simp only [stepClient, hpc, Option.some.injEq] at hstep
  subst hstep
  obtain ⟨hserved, hown⟩ := hi
  have hserved' : Served (s.setPc i (.unlink .none)) i := hserved.setPc
  have hown' : Own (s.setPc i (.unlink .none)) i ino 1 [] := hown.setPc
  refine inv_of_quietClient h (footprint_setFifo hown.dir _ rfl) ?_ rfl rfl ?_
    ⟨h.dir.inj, h.dir.lt⟩ ?_ ?_ (fun hc => absurd hc hnot)
  · simp [hpc, ClientPc.Live]
  · simp [hpc, ClientPc.held]
  · simp only [ClientInv, setPc_pc]
    refine ⟨trivial, ⟨hserved'.1, hserved'.2⟩, ino, hown'.dir, ?_, ?_⟩
    · simp [State.release, State.setFifo, State.setPc, Fifo.closeRd, hown.readers]
    · simp only [State.release, State.setFifo, State.setPc, Function.update_self]
      exact Fifo.discard_data_of_nil hown.data
  · intro hno
    simp [ClientPc.Owns] at hno

theorem dirInv_unlink (h : DirInv s) (n : String) {s' : State}
    (hdir : s'.dir = Function.update s.dir n none) (hnext : s'.next = s.next) : DirInv s' := by
  have hback : ∀ m ino, s'.dir m = some ino → s.dir m = some ino := by
    intro m ino hm
    rw [hdir] at hm
    by_cases hmn : m = n
    · rw [hmn, Function.update_self] at hm
      cases hm
    · rwa [Function.update_of_ne hmn] at hm
  constructor
  · exact fun m k ino hm hk => h.inj m k ino (hback m ino hm) (hback k ino hk)
  · intro m ino hm
    rw [hnext]
    exact h.lt m ino (hback m ino hm)

theorem inv_unlink {e : Held} (h : Inv s) (hpc : (s.client i).pc = .unlink e)
    (hstep : stepClient cfg s i = some s') : Inv s' := by
  have hi := h.clients i
  have hnot := h.not_current (i := i) (by rw [hpc]; exact id)
  simp only [ClientInv, hpc] at hi
  obtain ⟨rfl, hserved, -⟩ := hi
  simp only [stepClient, hpc, Option.some.injEq] at hstep
  subst hstep
  have hserved' : Served (s.setPc i (.leave .none)) i := hserved.setPc
  refine inv_of_quietClient h ?_ ?_ rfl rfl ?_ (dirInv_unlink h.dir _ rfl rfl) ?_ ?_
    (fun hc => absurd hc hnot)
  · exact { footprint_setPc (.leave .none) with
      same := ⟨rfl, rfl, rfl, rfl⟩
      dir := fun n hn => Function.update_of_ne hn .. }
  · simp [hpc, ClientPc.Live]
  · simp [State.setPc, hpc, ClientPc.held]
  · simp only [ClientInv, State.setPc, Function.update_self]
    exact ⟨trivial, hserved'.1, hserved'.2⟩
  · intro _ ino hino
    simp at hino

/-- Client `i` is gone, and what it held of its own FIFO is closed. -/
theorem inv_dead (h : Inv s) (hlive : (s.client i).pc.Live) (hwait : ¬ (s.client i).pc.Awaiting)
    (hend : Unsent s i ∨ Served s i) (hheld : (s.client i).pc.held ≠ .server)
    (hown : ∀ ino, s.dir (clientFifo (s.client i).pid) = some ino →
      ((s.release (s.client i).pc.held).fifo ino).readers = 0 ∧
        ((s.release (s.client i).pc.held).fifo ino).data = [])
    (hself : ∀ ino, (s.client i).pc.held = .own ino →
      s.dir (clientFifo (s.client i).pid) = some ino) :
    Inv ((s.release (s.client i).pc.held).setPc i .dead) := by
  have hnot := h.not_current hwait
  have hend' : Unsent (s.setPc i .dead) i ∨ Served (s.setPc i .dead) i :=
    hend.imp Unsent.setPc Served.setPc
  cases hh : (s.client i).pc.held with
  | none =>
    rw [hh] at hown
    refine inv_of_quietClient h (footprint_setPc .dead) hlive rfl rfl ?_ ⟨h.dir.inj, h.dir.lt⟩ ?_ ?_
      (fun hc => absurd hc hnot)
    · rw [setPc_pc]
      exact iff_of_false nofun hheld
    · simp only [ClientInv, setPc_pc]
      exact hend'
    · exact fun _ => hown
  | server => exact absurd hh hheld
  | own ino =>
    rw [hh] at hown
    refine inv_of_quietClient h (footprint_setFifo (hself ino hh) _ rfl) hlive rfl rfl ?_
      ⟨h.dir.inj, h.dir.lt⟩ ?_ ?_ (fun hc => absurd hc hnot)
    · rw [setPc_pc]
      exact iff_of_false nofun hheld
    · simp only [ClientInv, setPc_pc]
      exact hend'
    · exact fun _ => hown

theorem inv_leave {e : Held} (h : Inv s) (hpc : (s.client i).pc = .leave e)
    (hstep : stepClient cfg s i = some s') : Inv s' := by
  have hi := h.clients i
  simp only [ClientInv, hpc] at hi
  obtain ⟨rfl, hserved⟩ := hi
  simp only [stepClient, hpc, Option.some.injEq] at hstep
  subst hstep
  have hheld : (s.client i).pc.held = .none := by rw [hpc]; rfl
  have hlive : (s.client i).pc.Live := by simp [hpc, ClientPc.Live]
  have hdead := inv_dead h hlive (by rw [hpc]; exact id) (.inr hserved) (by simp [hheld])
    (fun ino hino => by
      have hown := h.own_of_not_owns hlive (by rw [hpc]; exact id) hino
      rw [hheld]
      exact ⟨hown.readers, hown.data⟩)
    (fun ino hino => by rw [hheld] at hino; cases hino)
  rwa [hheld] at hdead

/-- **A step of a client.** -/
theorem inv_stepClient (h : Inv s) (hok : ¬ CallFails s i)
    (hstep : stepClient cfg s i = some s') : Inv s' := by
  cases hpc : (s.client i).pc with
  | unborn => simp [stepClient, hpc] at hstep
  | create => exact inv_create h hpc hstep
  | register => exact inv_register h hpc hstep
  | openServer => exact inv_openServer h hpc hok hstep
  | openingServer n => exact inv_openingServer h hpc hstep
  | send => exact inv_send h hpc hok hstep
  | closeServer => exact inv_closeServer h hpc hstep
  | openOwn => exact inv_openOwn h hpc hstep
  | openingOwn ino n => exact inv_openingOwn h hpc hstep
  | read ino => exact inv_read h hpc hok hstep
  | closeOwn ino => exact inv_closeOwn h hpc hstep
  | unlink e => exact inv_unlink h hpc hstep
  | leave e => exact inv_leave h hpc hstep
  | dead => simp [stepClient, hpc] at hstep

/-- A client that is killed when it has nothing to wait for leaves an empty FIFO. -/
theorem inv_killClient (h : Inv s) (hwait : ¬ (s.client i).pc.Awaiting)
    (hstep : killClient s i = some s') : Inv s' := by
  rw [killClient] at hstep
  split at hstep
  · next hlive =>
    cases hstep
    have hi := h.clients i
    have hempty : ∀ ino, s.dir (clientFifo (s.client i).pid) = some ino →
        (∃ k, Own s i k 0 []) → (s.fifo ino).readers = 0 ∧ (s.fifo ino).data = [] := by
      rintro ino hino ⟨k, hown⟩
      rw [hown.dir, Option.some.injEq] at hino
      rw [← hino]
      exact ⟨hown.readers, hown.data⟩
    have hquiet : (Unsent s i ∨ Served s i) → (s.client i).pc.held = .none →
        (∀ ino, s.dir (clientFifo (s.client i).pid) = some ino →
          (s.fifo ino).readers = 0 ∧ (s.fifo ino).data = []) →
        Inv ((s.release (s.client i).pc.held).setPc i .dead) := by
      intro hend hheld hown
      exact inv_dead h hlive hwait hend (by simp [hheld]) (by rw [hheld]; exact hown)
        (by simp [hheld])
    cases hpc : (s.client i).pc <;> simp only [ClientInv, hpc, ClientPc.Awaiting, not_true] at hi hwait
    case unborn => exact absurd hpc hlive.1
    case create =>
      have := hquiet (.inl hi) (by rw [hpc]; rfl) fun ino hino => by
        have hown := h.own_of_not_owns hlive (by rw [hpc]; exact id) hino
        exact ⟨hown.readers, hown.data⟩
      rwa [hpc] at this
    case register | openServer =>
      have := hquiet (.inl hi.1) (by rw [hpc]; rfl) fun ino hino => hempty ino hino hi.2
      rwa [hpc] at this
    case openingServer | send =>
      have hdead : ClientPc.dead.held ≠ .server := by simp [ClientPc.held]
      apply inv_of_closeServer h hlive (by rw [hpc]; rfl) hdead
      · simp only [ClientInv, setPc_pc]
        have hun : Unsent (s.setPc i .dead) i := hi.1.setPc
        exact .inl ⟨hun.1, hun.2⟩
      · exact fun _ ino hino => hempty ino hino hi.2
    case closeOwn ino =>
      have := inv_dead h hlive (by rw [hpc]; exact id) (.inr hi.1) (by simp [hpc, ClientPc.held])
        (fun k hk => by
          rw [hi.2.dir, Option.some.injEq] at hk
          subst hk
          rw [hpc]
          simp only [ClientPc.held, State.release, State.setFifo, Function.update_self]
          refine ⟨?_, Fifo.discard_data_of_nil hi.2.data⟩
          simp [Fifo.closeRd, hi.2.readers])
        (fun k hk => by rw [hpc] at hk; cases hk; exact hi.2.dir)
      rwa [hpc] at this
    case unlink e =>
      obtain ⟨rfl, hserved, hown⟩ := hi
      have := hquiet (.inr hserved) (by rw [hpc]; rfl) fun ino hino => hempty ino hino hown
      rwa [hpc] at this
    case leave e =>
      obtain ⟨rfl, hserved⟩ := hi
      have := hquiet (.inr hserved) (by rw [hpc]; rfl) fun ino hino => by
        have hown := h.own_of_not_owns hlive (by rw [hpc]; exact id) hino
        exact ⟨hown.readers, hown.data⟩
      rwa [hpc] at this
    case dead => exact absurd hpc hlive.2
  · cases hstep

/-- The PIDs of the clients that are there stay different. -/
theorem pids_spawn {pid seqLen : BitVec 32}
    (hpids : ∀ j k, (s.client j).pc.Live → (s.client k).pc.Live →
      (s.client j).pid = (s.client k).pid → j = k) (hfree : Free s pid) (j k : Nat)
    (hj : ((spawn s i pid seqLen).client j).pc.Live)
    (hk : ((spawn s i pid seqLen).client k).pc.Live)
    (heq : ((spawn s i pid seqLen).client j).pid = ((spawn s i pid seqLen).client k).pid) :
    j = k := by
  have hself : (spawn s i pid seqLen).client i = ⟨pid, seqLen, .create, none⟩ :=
    Function.update_self ..
  have hother : ∀ j, j ≠ i → (spawn s i pid seqLen).client j = s.client j :=
    fun j hj => Function.update_of_ne hj ..
  by_cases hji : j = i
  · by_cases hki : k = i
    · rw [hji, hki]
    · rw [hji, hself, hother k hki] at heq
      rw [hother k hki] at hk
      exact absurd heq.symm (hfree k hk)
  · rw [hother j hji] at hj heq
    by_cases hki : k = i
    · rw [hki, hself] at heq
      exact absurd heq (hfree j hj)
    · rw [hother k hki] at hk heq
      exact hpids j k hj hk heq

/-- A new client with a free PID. -/
theorem inv_spawn (h : Inv s) {pid seqLen : BitVec 32} (hpc : (s.client i).pc = .unborn)
    (hfree : Free s pid) : Inv (spawn s i pid seqLen) := by
  have hi := h.clients i
  simp only [ClientInv, hpc] at hi
  have hother : ∀ j, j ≠ i → (spawn s i pid seqLen).client j = s.client j :=
    fun j hj => Function.update_of_ne hj ..
  have hself : (spawn s i pid seqLen).client i = ⟨pid, seqLen, .create, none⟩ :=
    Function.update_self ..
  have hne : ∀ j ∈ s.sent, j ≠ i := fun j hj heq => hi.1 (heq ▸ hj)
  refine ⟨?_, ?_, ⟨h.dir.inj, h.dir.lt⟩, ?_, ?_, ?_, ?_⟩
  · exact queueInv_of_eq h.queue rfl rfl rfl rfl
      (fun j hj => by rw [State.encoded, hother j (hne j hj)]; rfl) rfl rfl rfl rfl
  · refine writersInv_of_eq h.writers rfl rfl fun j => ?_
    by_cases hj : j = i
    · rw [hj, hself, hpc]
      simp [ClientPc.held]
    · rw [hother j hj]
  · exact pids_spawn h.pids hfree
  · intro j
    by_cases hj : j = i
    · subst hj
      simp only [ClientInv, hself]
      exact ⟨hi.1, by rw [hself]⟩
    · exact clientInv_of_eq (h.clients j) (hother j hj) Iff.rfl (fun _ => Iff.rfl)
        fun _ ino hino => ⟨hino, rfl, rfl⟩
  · intro p ino hino hno
    refine h.stale p ino hino fun j hj => ?_
    by_cases hji : j = i
    · rw [hji, hpc]
      exact id
    · have := hno j
      rw [hother j hji] at this
      exact this hj
  · refine serverInv_of_current h.server rfl fun j hj => ?_
    have hsame := hother j (hne j (h.queue.current hj).1)
    rw [hsame]
    exact ⟨hj, rfl, fun ino hino => ⟨hino, fun hr => ⟨hr, rfl⟩⟩⟩

end Tlpi.Seqnum
