import Tlpi.Seqnum.Names

/-!
# The requests in the server's FIFO

What is in the server's FIFO is a list of whole requests, also when clients are killed or
fail: a request is written in one piece, and while the server has the FIFO open, nothing
is lost when a client closes it.  A client that has sent a request has found the server
there, so before the server has opened its FIFO, and while it sleeps in that `open`, nobody
waits for a response.
-/

namespace Tlpi.Seqnum

open Tlpi.Lib

/-- `q` is what is in the server's FIFO.  Until a client has opened it, nobody has sent a
request. -/
structure RequestsInv (q : List Request) (s : State) : Prop where
  readers : s.srv.readers = s.server.opened
  rOpens : s.srv.rOpens = s.server.opened
  data : s.srv.data = q.flatMap Request.encode
  writers : WritersInv s
  early : s.server.opened = 0 →
    q = [] ∧ ∀ i, (s.client i).pc ≠ .send ∧ ¬ (s.client i).pc.Awaiting
  connecting : ∀ i n, (s.client i).pc = .openingServer n → n = 0
  lonely : ∀ n, s.server = .openingRd n → n ≤ s.srv.wOpens ∧
    (s.srv.wOpens = n → ∀ i, (s.client i).pc.held ≠ .server ∧ ¬ (s.client i).pc.Awaiting)

variable {cfg : Config} {s s' : State} {i j : Nat} {q q' : List Request}

/-! ### Clients -/

/-- What is to be shown of client `i` itself. -/
theorem requestsInv_of_client (h : RequestsInv q s) (hserver : s'.server = s.server)
    (hother : ∀ j, j ≠ i → s'.client j = s.client j)
    (hreaders : s'.srv.readers = s.srv.readers) (hrOpens : s'.srv.rOpens = s.srv.rOpens)
    (hwOpens : s.srv.wOpens ≤ s'.srv.wOpens) (hdata : s'.srv.data = q'.flatMap Request.encode)
    (hwriters : WritersInv s')
    (hearly : s.server.opened = 0 →
      q' = [] ∧ (s'.client i).pc ≠ .send ∧ ¬ (s'.client i).pc.Awaiting)
    (hconnecting : ∀ n, (s'.client i).pc = .openingServer n → n = 0)
    (hlonely : ∀ n, s.server = .openingRd n → s'.srv.wOpens = n →
      (s'.client i).pc.held ≠ .server ∧ ¬ (s'.client i).pc.Awaiting) : RequestsInv q' s' := by
  refine ⟨?_, ?_, hdata, hwriters, ?_, ?_, ?_⟩
  · rw [hreaders, hserver]
    exact h.readers
  · rw [hrOpens, hserver]
    exact h.rOpens
  · rw [hserver]
    intro hzero
    refine ⟨(hearly hzero).1, fun j => ?_⟩
    by_cases hj : j = i
    · rw [hj]
      exact (hearly hzero).2
    · rw [hother j hj]
      exact (h.early hzero).2 j
  · intro j n hpc
    by_cases hj : j = i
    · rw [hj] at hpc
      exact hconnecting n hpc
    · rw [hother j hj] at hpc
      exact h.connecting j n hpc
  · rw [hserver]
    intro n hn
    obtain ⟨hle, hnobody⟩ := h.lonely n hn
    refine ⟨Nat.le_trans hle hwOpens, fun heq j => ?_⟩
    by_cases hj : j = i
    · rw [hj]
      exact hlonely n hn heq
    · rw [hother j hj]
      exact hnobody (by omega) j

/-- Client `i` leaves the server's FIFO alone. -/
theorem requestsInv_of_quiet (h : RequestsInv q s) (hserver : s'.server = s.server)
    (hother : ∀ j, j ≠ i → s'.client j = s.client j) (hsrv : s'.srv = s.srv)
    (hheld : (s'.client i).pc.held = .server ↔ (s.client i).pc.held = .server)
    (hsend : (s'.client i).pc = .send → s.server.opened ≠ 0)
    (hawait : (s'.client i).pc.Awaiting → (s.client i).pc.Awaiting)
    (hconnecting : ∀ n, (s'.client i).pc ≠ .openingServer n) : RequestsInv q s' := by
  refine requestsInv_of_client h hserver hother (by rw [hsrv]) (by rw [hsrv]) (by rw [hsrv])
    (by rw [hsrv]; exact h.data) ?_ ?_ (fun n hn => absurd hn (hconnecting n)) ?_
  · refine writersInv_of_eq h.writers (by rw [hsrv]) (by rw [hserver]) fun j => ?_
    by_cases hj : j = i
    · rw [hj]
      exact hheld
    · rw [hother j hj]
  · intro hzero
    obtain ⟨hq, hnobody⟩ := h.early hzero
    exact ⟨hq, fun hpc => hsend hpc hzero, fun hpc => (hnobody i).2 (hawait hpc)⟩
  · intro n hn heq
    rw [hsrv] at heq
    obtain ⟨hno, hidle⟩ := (h.lonely n hn).2 heq i
    exact ⟨fun hpc => hno (hheld.mp hpc), fun hpc => hidle (hawait hpc)⟩

/-- Closing the server's FIFO for writing loses no request. -/
theorem RequestsInv.closeWr_data (h : RequestsInv q s) :
    s.srv.closeWr.data = q.flatMap Request.encode := by
  by_cases hzero : s.server.opened = 0
  · have hq := (h.early hzero).1
    have hnil : s.srv.data = [] := by rw [h.data, hq, List.flatMap_nil]
    rw [hq, List.flatMap_nil]
    exact Fifo.discard_data_of_nil hnil
  · rw [← h.data]
    refine Fifo.discard_data_of_readers ?_
    show 0 < s.srv.readers
    rw [h.readers]
    exact Nat.pos_of_ne_zero hzero

theorem requestsInv_connects (h : RequestsInv q s) (hpc : (s.client i).pc = .openServer) :
    RequestsInv q { s.setPc i (if s.srv.readers = 0 then .openingServer s.srv.rOpens else .send) with
      srv := s.srv.openWr } := by
  have hmove := Move.connects hpc
  have hpc' : ∀ pc, (({ s.setPc i pc with srv := s.srv.openWr } : State).client i).pc = pc :=
    fun pc => setPc_pc s i pc
  refine requestsInv_of_client h rfl (fun j => hmove.other) rfl rfl (Nat.le_succ _) h.data ?_ ?_ ?_ ?_
  · refine writersInv_open h.writers rfl rfl (i := i) ?_ ?_ fun j => hmove.other
    · rw [hpc]
      nofun
    · rw [hpc']
      split <;> rfl
  · intro hzero
    rw [hpc', if_pos (by rw [h.readers, hzero])]
    exact ⟨(h.early hzero).1, nofun, id⟩
  · intro n hn
    rw [hpc'] at hn
    split at hn
    · next hnone =>
      cases hn
      rw [h.readers] at hnone
      rw [h.rOpens, hnone]
    · cases hn
  · intro n hn heq
    have hle := (h.lonely n hn).1
    change s.srv.wOpens + 1 = n at heq
    omega

theorem requestsInv_sends (h : RequestsInv q s) (hpc : (s.client i).pc = .send)
    (hreaders : s.srv.readers ≠ 0) :
    RequestsInv (q ++ [(s.client i).request]) { s.setPc i .closeServer with
      srv := s.srv.write (s.client i).request.encode
      sent := s.sent ++ [i] } := by
  have hmove := Move.sends hpc hreaders
  have hpc' : (({ s.setPc i .closeServer with
      srv := s.srv.write (s.client i).request.encode
      sent := s.sent ++ [i] } : State).client i).pc = .closeServer := setPc_pc ..
  refine requestsInv_of_client h rfl (fun j => hmove.other) rfl rfl (Nat.le_refl _) ?_ ?_ ?_ ?_ ?_
  · show s.srv.data ++ _ = _
    rw [h.data, List.flatMap_append, List.flatMap_singleton]
  · refine writersInv_of_eq h.writers rfl rfl fun j => ?_
    by_cases hj : j = i
    · rw [hj, hpc', hpc]
      exact Iff.rfl
    · rw [hmove.other hj]
  · intro hzero
    rw [h.readers] at hreaders
    exact absurd hzero hreaders
  · intro n hn
    rw [hpc'] at hn
    cases hn
  · intro n hn heq
    have hno := ((h.lonely n hn).2 heq i).1
    rw [hpc] at hno
    exact absurd rfl hno

theorem requestsInv_releases (h : RequestsInv q s) {pc : ClientPc}
    (hrel : Releases (s.client i).pc pc) :
    RequestsInv q ((s.release (s.client i).pc.held).setPc i pc) := by
  have hmove := Move.releases pc hrel
  have hawait : pc.Awaiting → (s.client i).pc.Awaiting := by
    intro hpc
    rw [(hrel.awaiting hpc).1]
    trivial
  -- a client that has the server's FIFO open closes it; the others leave it alone
  have hquiet : (s.client i).pc.held ≠ .server →
      ((s.release (s.client i).pc.held).setPc i pc).srv = s.srv →
      RequestsInv q ((s.release (s.client i).pc.held).setPc i pc) := by
    intro hno hsrv
    refine requestsInv_of_quiet h hmove.same.server (fun j => hmove.other) hsrv ?_ ?_ ?_ ?_ (i := i)
    · rw [setPc_pc, hrel.held]
      exact ⟨nofun, fun hs => absurd hs hno⟩
    · rw [setPc_pc]
      exact fun hs => absurd hs hrel.ne.1
    · rwa [setPc_pc]
    · rw [setPc_pc]
      exact hrel.ne.2
  cases hheld : (s.client i).pc.held with
  | none =>
    rw [hheld] at hquiet
    exact hquiet nofun rfl
  | own ino =>
    rw [hheld] at hquiet
    exact hquiet nofun rfl
  | server =>
    rw [hheld] at hmove
    have hwOpens : s.srv.closeWr.wOpens = s.srv.wOpens := Fifo.discard_wOpens _
    refine requestsInv_of_client h rfl (fun j => hmove.other) (Fifo.discard_readers _)
      (Fifo.discard_rOpens _) (Nat.le_of_eq hwOpens.symm) h.closeWr_data ?_ ?_ ?_ ?_
    · refine writersInv_close h.writers (Fifo.discard_writers _) rfl hheld ?_ fun j => hmove.other
      rw [setPc_pc, hrel.held]
      nofun
    · intro hzero
      obtain ⟨hq, hnobody⟩ := h.early hzero
      rw [setPc_pc]
      exact ⟨hq, hrel.ne.1, fun hpc => (hnobody i).2 (hawait hpc)⟩
    · rw [setPc_pc]
      exact fun n hn => absurd hn (hrel.ne.2 n)
    · intro n hn heq
      exact absurd hheld ((h.lonely n hn).2 (hwOpens.symm.trans heq) i).1

/-- **The requests, after a move of a client.** -/
theorem requestsInv_move (h : RequestsInv q s) (hmove : Move s i s') :
    ∃ q', RequestsInv q' s' ∧ (∀ r ∈ q, r ∈ q') ∧
      ((s'.client i).pc = .closeServer → ∃ r ∈ q', r.pid = (s.client i).pid) := by
  have hother := fun j => hmove.other (j := j)
  cases hmove with
  | goes pc hgoes =>
    refine ⟨q, requestsInv_of_quiet h rfl hother rfl ?_ ?_ ?_ ?_, fun _ => id, ?_⟩
    · rw [setPc_pc, hgoes.held]
    · rw [setPc_pc]
      intro hpc hzero
      obtain ⟨n, hn, hmoved⟩ := hgoes.send hpc
      rw [h.connecting i n hn, h.rOpens, hzero] at hmoved
      exact hmoved rfl
    · rw [setPc_pc]
      intro hpc
      obtain ⟨ino, n, hold, -⟩ := hgoes.awaiting hpc
      rw [hold]
      trivial
    · rw [setPc_pc]
      exact hgoes.connecting
    · rw [setPc_pc]
      rintro rfl
      obtain ⟨ino, n, -, -, hread⟩ := hgoes.awaiting trivial
      cases hread
  | creates hpc hdir =>
    have hpc' : (({ s.setPc i .register with
        dir := Function.update s.dir (s.fifoName i) (some s.next)
        fifo := Function.update s.fifo s.next .empty
        next := s.next + 1 } : State).client i).pc = .register := setPc_pc ..
    refine ⟨q, requestsInv_of_quiet h rfl hother rfl ?_ ?_ ?_ ?_, fun _ => id, ?_⟩ <;> rw [hpc']
    · rw [hpc]
      exact Iff.rfl
    · nofun
    · exact False.elim
    · nofun
    · nofun
  | connects hpc =>
    refine ⟨q, requestsInv_connects h hpc, fun _ => id, fun hclose => ?_⟩
    change ((s.setPc i _).client i).pc = _ at hclose
    rw [setPc_pc] at hclose
    split at hclose <;> cases hclose
  | sends hpc hreaders =>
    exact ⟨_, requestsInv_sends h hpc hreaders, fun r => List.mem_append_left _,
      fun _ => ⟨_, List.mem_append_right _ (List.mem_singleton_self _), rfl⟩⟩
  | releases pc hrel =>
    refine ⟨q, requestsInv_releases h hrel, fun _ => id, fun hclose => ?_⟩
    rw [setPc_pc] at hclose
    have hopen := (hrel.awaiting (by rw [hclose]; trivial)).2
    rw [hclose] at hopen
    cases hopen
  | opens ino hpc hdir =>
    refine ⟨q, requestsInv_of_quiet h rfl hother rfl ?_ ?_ ?_ ?_, fun _ => id, ?_⟩ <;>
      rw [setPc_pc]
    · rw [hpc]
      split <;> exact ⟨nofun, nofun⟩
    · split <;> nofun
    · rw [hpc]
      exact fun _ => trivial
    · split <;> nofun
    · split <;> nofun
  | reads ino c hpc hreq hc =>
    have hpc' : (({ s.setFifo ino ((s.fifo ino).drop 4) with
        client := Function.update s.client i c } : State).client i) = c := Function.update_self ..
    refine ⟨q, requestsInv_of_quiet h rfl hother rfl ?_ ?_ ?_ ?_, fun _ => id, ?_⟩ <;> rw [hpc']
    · rw [hpc]
      rcases hc with hc | hc <;> rw [hc] <;> exact ⟨nofun, nofun⟩
    · rcases hc with hc | hc <;> rw [hc] <;> nofun
    · rw [hpc]
      exact fun _ => trivial
    · rcases hc with hc | hc <;> rw [hc] <;> nofun
    · rcases hc with hc | hc <;> rw [hc] <;> nofun
  | unlinks e hpc =>
    have hpc' : (({ s.setPc i (.leave e) with
        dir := Function.update s.dir (s.fifoName i) none } : State).client i).pc = .leave e :=
      setPc_pc ..
    refine ⟨q, requestsInv_of_quiet h rfl hother rfl ?_ ?_ ?_ ?_, fun _ => id, ?_⟩ <;> rw [hpc']
    · rw [hpc]
      exact Iff.rfl
    · nofun
    · exact False.elim
    · nofun
    · nofun

theorem requestsInv_spawn (h : RequestsInv q s) {pid seqLen : BitVec 32}
    (hpc : (s.client i).pc = .unborn) : RequestsInv q (spawn s i pid seqLen) := by
  have hself : ((spawn s i pid seqLen).client i).pc = .create := by
    show (Function.update s.client i ⟨pid, seqLen, .create, none⟩ i).pc = _
    rw [Function.update_self]
  refine requestsInv_of_quiet h rfl (fun j hj => Function.update_of_ne hj ..) rfl ?_ ?_ ?_ ?_
    (i := i) <;> rw [hself]
  · rw [hpc]
    exact Iff.rfl
  · nofun
  · exact False.elim
  · nofun

/-! ### The server -/

/-- The server leaves its own FIFO alone. -/
theorem requestsInv_of_server (h : RequestsInv q s) (hclient : s'.client = s.client)
    (hsrv : s'.srv = s.srv) (hopened : s'.server.opened = s.server.opened)
    (hdummy : s'.server.dummy = s.server.dummy) (hopening : ∀ n, s'.server ≠ .openingRd n) :
    RequestsInv q s' := by
  refine ⟨?_, ?_, ?_, ?_, ?_, ?_, fun n hn => absurd hn (hopening n)⟩
  · rw [hsrv, hopened]
    exact h.readers
  · rw [hsrv, hopened]
    exact h.rOpens
  · rw [hsrv]
    exact h.data
  · exact writersInv_of_eq h.writers (by rw [hsrv]) hdummy fun j => by rw [hclient]
  · rw [hopened, hclient]
    exact h.early
  · rw [hclient]
    exact h.connecting

/-- The server's `open` for reading. -/
theorem requestsInv_openRd (h : RequestsInv q s) (hpc : s.server = .openRd) {pc : ServerPc}
    (hopening : s.srv.writers = 0 ∧ pc = .openingRd s.srv.wOpens ∨ pc = .openDummy) :
    RequestsInv q { s with srv := s.srv.openRd, server := pc } := by
  have hopened : pc.opened = 1 ∧ pc.dummy = 0 := by
    rcases hopening with ⟨-, rfl⟩ | rfl <;> exact ⟨rfl, rfl⟩
  have hzero : s.server.opened = 0 := by rw [hpc]; rfl
  refine ⟨?_, ?_, h.data, ?_, ?_, h.connecting, ?_⟩
  · show s.srv.readers + 1 = pc.opened
    rw [h.readers, hzero, hopened.1]
  · show s.srv.rOpens + 1 = pc.opened
    rw [h.rOpens, hzero, hopened.1]
  · refine writersInv_of_eq h.writers rfl ?_ fun _ => Iff.rfl
    rw [hpc]
    exact hopened.2
  · intro hno
    change pc.opened = 0 at hno
    rw [hopened.1] at hno
    cases hno
  · rintro n rfl
    rcases hopening with ⟨hnone, hn⟩ | hn
    · cases hn
      refine ⟨Nat.le_refl _, fun _ j => ⟨fun hheld => ?_, ((h.early hzero).2 j).2⟩⟩
      -- nobody has it open for writing
      obtain ⟨H, hH, hcard⟩ := h.writers
      have hpos : 0 < H.card := Finset.card_pos.mpr ⟨j, (hH j).mpr hheld⟩
      omega
    · cases hn

/-- The server's `open` for writing. -/
theorem requestsInv_openDummy (h : RequestsInv q s) (hpc : s.server = .openDummy) :
    RequestsInv q { s with srv := s.srv.openWr, server := .signal } := by
  refine ⟨?_, ?_, h.data, ?_, nofun, h.connecting, nofun⟩
  · show s.srv.readers = _
    rw [h.readers, hpc]
    rfl
  · show s.srv.rOpens = _
    rw [h.rOpens, hpc]
    rfl
  · obtain ⟨H, hH, hcard⟩ := h.writers
    refine ⟨H, hH, ?_⟩
    show s.srv.writers + 1 = 1 + H.card
    rw [hcard, hpc]
    show 0 + H.card + 1 = 1 + H.card
    omega

/-- The server takes `q'` out of its FIFO. -/
theorem requestsInv_loop (h : RequestsInv q s) (hpc : s.server = .loop) {pc : ServerPc}
    (hdata : s.srv.data.drop 8 = q'.flatMap Request.encode) {b : List Bytes}
    (hpc' : pc = .loop ∨ ∃ req, pc = .handle req) :
    RequestsInv q' { s with srv := s.srv.drop 8, reads := b, server := pc } := by
  have hopened : pc.opened = 1 ∧ pc.dummy = 1 := by
    rcases hpc' with rfl | ⟨req, rfl⟩ <;> exact ⟨rfl, rfl⟩
  refine ⟨?_, ?_, hdata, ?_, ?_, h.connecting, ?_⟩
  · show s.srv.readers = pc.opened
    rw [h.readers, hpc, hopened.1]
    rfl
  · show s.srv.rOpens = pc.opened
    rw [h.rOpens, hpc, hopened.1]
    rfl
  · refine writersInv_of_eq h.writers rfl ?_ fun _ => Iff.rfl
    rw [hpc]
    exact hopened.2
  · intro hno
    change pc.opened = 0 at hno
    rw [hopened.1] at hno
    cases hno
  · rintro n rfl
    rcases hpc' with hn | ⟨req, hn⟩ <;> cases hn

theorem requestsInv_init : RequestsInv [] (init cfg) := by
  refine ⟨rfl, rfl, rfl, ⟨∅, fun i => ?_, rfl⟩, fun _ => ⟨rfl, fun i => ⟨?_, id⟩⟩, nofun, nofun⟩
  · simp [init, ClientPc.held]
  · simp [init]

end Tlpi.Seqnum
