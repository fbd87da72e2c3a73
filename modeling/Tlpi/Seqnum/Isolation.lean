import Tlpi.Seqnum.Requests
import Tlpi.Seqnum.EndOfFile

/-!
# When clients die

A client may be killed at any point, or end because a call of it fails, and the others
shall not notice.  They do: the server's `open` of the FIFO of a client that has been
killed after its request finds the name, finds nobody who reads, and sleeps until somebody
does.  Nobody will, and whoever has sent a request after that waits for ever
(`server_stuck`).

The runs in which this does not happen are the `Careful` ones.  The server does not open a
FIFO that has no reader unless a client with this PID is about to open it, and while the
server sleeps there, that client does not die.  Everything else may happen at any time.

* `WaitInv`: a request of each client that waits for the server is still to be handled, or
  the server is waiting for the client.
* `clients_isolated`: when some client waits for its response, somebody can go on.
-/

namespace Tlpi.Seqnum

open Tlpi.Lib

/-- Between the `write` of the request and the `open` of the FIFO for the response. -/
def ClientPc.Coming : ClientPc → Prop
  | .closeServer | .openOwn => True
  | _ => False

/-- The server sleeps in the `open` of the FIFO of client `i`. -/
def Expected (s : State) (i : Nat) : Prop :=
  ∃ ino n req, s.server = .opening ino n req ∧ s.dir (s.fifoName i) = some ino ∧
    (s.fifo ino).rOpens = n

/-- The steps of the runs in question. -/
def Careful (s : State) : Event → Prop
  | .spawn _ pid _ => Free s pid
  | .server => ∀ req ino, s.server = .handle req → s.dir (clientFifo req.pid) = some ino →
      (s.fifo ino).readers = 0 → ∃ i, (s.client i).pid = req.pid ∧ (s.client i).pc.Coming
  | .client _ => True
  | .fail i | .kill i => (s.client i).pc.Coming → ¬ Expected s i

/-- A request from the PID of client `i` is still to be handled. -/
def Due (q : List Request) (s : State) (i : Nat) : Prop :=
  (∃ r ∈ q, r.pid = (s.client i).pid) ∨
    ∃ req, s.server = .handle req ∧ req.pid = (s.client i).pid

structure WaitInv (q : List Request) (s : State) : Prop where
  coming : ∀ i, (s.client i).pc.Coming → Due q s i ∨ Expected s i
  opening : ∀ i ino n, (s.client i).pc = .openingOwn ino n → n ≤ (s.fifo ino).wOpens ∧
    ((s.fifo ino).wOpens = n → Due q s i ∧ ¬ s.server.Holds ino)
  asleep : ∀ ino n req, s.server = .opening ino n req → n ≤ (s.fifo ino).rOpens ∧
    ((s.fifo ino).rOpens = n → ∃ i, (s.client i).pc.Coming ∧ s.dir (s.fifoName i) = some ino)

structure IsoInv (q : List Request) (s : State) : Prop where
  names : NamesInv s
  ends : WriteEnds s
  requests : RequestsInv q s
  waits : WaitInv q s

variable {cfg : Config} {s s' : State} {i j : Nat} {q q' : List Request}

theorem ClientPc.Coming.awaiting {pc : ClientPc} (h : pc.Coming) : pc.Awaiting := by
  cases pc <;> trivial

/-! ### Who waits for whom -/

section Waits

/-- How a client comes to be on its way to its FIFO. -/
theorem Move.coming (h : Move s i s') (hpc' : (s'.client i).pc.Coming) :
    (s'.client i).pc = .closeServer ∨
      (s.client i).pc = .closeServer ∧ s'.dir = s.dir ∧ s'.fifo = s.fifo := by
  cases h with
  | goes pc hgoes =>
    rw [setPc_pc] at hpc'
    obtain ⟨ino, n, -, -, rfl⟩ := hgoes.awaiting hpc'.awaiting
    exact absurd hpc' id
  | creates =>
    change ((s.setPc i _).client i).pc.Coming at hpc'
    rw [setPc_pc] at hpc'
    exact absurd hpc' id
  | connects =>
    change ((s.setPc i _).client i).pc.Coming at hpc'
    rw [setPc_pc] at hpc'
    split at hpc' <;> exact absurd hpc' id
  | sends => exact .inl (setPc_pc ..)
  | releases pc hrel =>
    rw [setPc_pc] at hpc'
    obtain ⟨hclose, rfl⟩ := hrel.awaiting hpc'.awaiting
    rw [hclose]
    exact .inr ⟨rfl, rfl, rfl⟩
  | opens =>
    rw [setPc_pc] at hpc'
    split at hpc' <;> exact absurd hpc' id
  | reads ino c hpc hreq hc =>
    change (Function.update s.client i c i).pc.Coming at hpc'
    rw [Function.update_self] at hpc'
    rcases hc with hc | hc <;> rw [hc] at hpc' <;> exact absurd hpc' id
  | unlinks =>
    change ((s.setPc i _).client i).pc.Coming at hpc'
    rw [setPc_pc] at hpc'
    exact absurd hpc' id

theorem Due.mono (h : Due q s i) (hq : ∀ r ∈ q, r ∈ q') (hserver : s'.server = s.server)
    (hpid : (s'.client i).pid = (s.client i).pid) : Due q' s' i := by
  rw [Due, hserver, hpid]
  exact h.imp_left fun ⟨r, hr, hrpid⟩ => ⟨r, hq r hr, hrpid⟩

theorem Expected.of_eq (h : Expected s i) (hserver : s'.server = s.server)
    (hdir : s'.dir (s'.fifoName i) = s.dir (s.fifoName i))
    (hrOpens : ∀ ino, s.dir (s.fifoName i) = some ino →
      (s'.fifo ino).rOpens = (s.fifo ino).rOpens) : Expected s' i := by
  obtain ⟨ino, n, req, hpc, hino, hn⟩ := h
  exact ⟨ino, n, req, by rw [hserver, hpc], by rw [hdir, hino], by rw [hrOpens ino hino, hn]⟩

/-- The server keeps waiting for a client while others move. -/
theorem Expected.of_move (h : Expected s j) (hnames : NamesInv s) (hmove : Move s i s')
    (hj : j ≠ i) (hlive : (s.client j).pc.Live) : Expected s' j := by
  refine h.of_eq hmove.same.server (hnames.dir_of_move hmove hj hlive) fun ino hino => ?_
  refine (hmove.rOpens (hnames.dir.lt _ _ hino)).resolve_right fun hopen => ?_
  exact hnames.name_ne hmove.live hlive hj (hnames.dir.inj _ _ _ hino hopen.2.1)

/-- **The waiting, after a move of a client.**  The one that the server waits for opens its
FIFO or stays on its way. -/
theorem waitInv_move (hnames : NamesInv s) (hends : WriteEnds s) (h : WaitInv q s)
    (hmove : Move s i s') (hq : ∀ r ∈ q, r ∈ q')
    (hsent : (s'.client i).pc = .closeServer → ∃ r ∈ q', r.pid = (s.client i).pid)
    (hstay : (s.client i).pc.Coming → Expected s i →
      (s'.client i).pc.Coming ∧ s'.dir (s.fifoName i) = s.dir (s.fifoName i) ∨
        ∀ ino, s.dir (s.fifoName i) = some ino →
          (s'.fifo ino).rOpens = (s.fifo ino).rOpens + 1) : WaitInv q' s' := by
  have hserver := hmove.same.server
  have hname : s'.fifoName i = s.fifoName i := congrArg clientFifo hmove.pid
  have hdue : ∀ j, Due q s j → Due q' s' j := fun j hj => hj.mono hq hserver (hmove.pid_eq j)
  refine ⟨?_, ?_, ?_⟩
  · intro j hpc
    by_cases hj : j = i
    · subst hj
      rcases hmove.coming hpc with hclose | ⟨hclose, hdir', hfifo⟩
      · obtain ⟨r, hr, hpid⟩ := hsent hclose
        exact .inl (.inl ⟨r, hr, hpid.trans (hmove.pid_eq j).symm⟩)
      · refine (h.coming j (by rw [hclose]; trivial)).imp (hdue j) fun hexp => ?_
        exact hexp.of_eq hserver (by rw [hname, hdir']) fun ino _ => by rw [hfifo]
    · rw [hmove.other hj] at hpc
      refine (h.coming j hpc).imp (hdue j) fun hexp => ?_
      exact hexp.of_move hnames hmove hj hpc.awaiting.owns.live
  · intro j ino n hpc
    by_cases hj : j = i
    · subst hj
      obtain ⟨hopen, hino, hnone, rfl⟩ := hmove.opening hpc
      have hlt := hnames.dir.lt _ _ hino
      have hfree : ¬ s.server.Holds ino := by
        intro hholds
        rw [hends.held ino hlt hholds] at hnone
        cases hnone
      rw [hserver, hmove.sameOpens.wOpens ino hlt]
      refine ⟨Nat.le_refl _, fun _ => ⟨?_, hfree⟩⟩
      -- the server is not waiting for it, since it would have the FIFO open
      refine hdue j ((h.coming j (by rw [hopen]; trivial)).resolve_right ?_)
      rintro ⟨k, m, req, hsleep, hk, -⟩
      rw [hino, Option.some.injEq] at hk
      refine hfree (.inl ?_)
      rw [hsleep, hk]
      rfl
    · rw [hmove.other hj] at hpc
      have hlt : ino < s.next := hnames.lt j ino (by rw [Holder, hpc]; rfl)
      rw [hserver, hmove.sameOpens.wOpens ino hlt]
      obtain ⟨hle, hwait⟩ := h.opening j ino n hpc
      exact ⟨hle, fun heq => ⟨hdue j (hwait heq).1, (hwait heq).2⟩⟩
  · intro ino n req hpc
    rw [hserver] at hpc
    obtain ⟨hle, hwait⟩ := h.asleep ino n req hpc
    have hlt : ino < s.next := hends.lt ino (by rw [hpc]; exact .inl rfl)
    have hmono : (s.fifo ino).rOpens ≤ (s'.fifo ino).rOpens := by
      rcases hmove.rOpens hlt with heq | ⟨-, -, heq⟩ <;> omega
    refine ⟨Nat.le_trans hle hmono, fun heq => ?_⟩
    have hn : (s.fifo ino).rOpens = n := by omega
    obtain ⟨j, hj, hino⟩ := hwait hn
    refine ⟨j, ?_⟩
    by_cases hji : j = i
    · subst hji
      rcases hstay hj ⟨ino, n, req, hpc, hino, hn⟩ with ⟨hj', hdir'⟩ | hopen
      · rw [hname, hdir']
        exact ⟨hj', hino⟩
      · have hmore := hopen ino hino
        omega
    · rw [hnames.dir_of_move hmove hji hj.awaiting.owns.live, hmove.other hji]
      exact ⟨hj, hino⟩

theorem waitInv_spawn (h : WaitInv q s) {pid seqLen : BitVec 32}
    (hpc : (s.client i).pc = .unborn) : WaitInv q (spawn s i pid seqLen) := by
  have hother : ∀ j, j ≠ i → (spawn s i pid seqLen).client j = s.client j :=
    fun j hj => Function.update_of_ne hj ..
  have hself : ((spawn s i pid seqLen).client i).pc = .create := by
    show (Function.update s.client i ⟨pid, seqLen, .create, none⟩ i).pc = _
    rw [Function.update_self]
  have hname : ∀ j, j ≠ i → (spawn s i pid seqLen).fifoName j = s.fifoName j :=
    fun j hj => by rw [State.fifoName, hother j hj]; rfl
  have hdue : ∀ j, j ≠ i → Due q s j → Due q (spawn s i pid seqLen) j :=
    fun j hj hd => hd.mono (fun _ => id) rfl (by rw [hother j hj])
  refine ⟨?_, ?_, ?_⟩
  · intro j hj
    have hji : j ≠ i := by
      rintro rfl
      rw [hself] at hj
      exact hj
    rw [hother j hji] at hj
    refine (h.coming j hj).imp (hdue j hji) fun hexp => ?_
    exact hexp.of_eq rfl (by rw [hname j hji]; rfl) fun _ _ => rfl
  · intro j ino n hj
    have hji : j ≠ i := by
      rintro rfl
      rw [hself] at hj
      cases hj
    rw [hother j hji] at hj
    obtain ⟨hle, hwait⟩ := h.opening j ino n hj
    exact ⟨hle, fun heq => ⟨hdue j hji (hwait heq).1, (hwait heq).2⟩⟩
  · intro ino n req hserver
    obtain ⟨hle, hwait⟩ := h.asleep ino n req hserver
    refine ⟨hle, fun heq => ?_⟩
    obtain ⟨j, hj, hino⟩ := hwait heq
    have hji : j ≠ i := by
      rintro rfl
      rw [hpc] at hj
      exact hj
    refine ⟨j, ?_, ?_⟩
    · rw [hother j hji]
      exact hj
    · rw [hname j hji]
      exact hino

/-- A step of the server other than an `open` of a FIFO of a client. -/
theorem waitInv_of_server (h : WaitInv q s) (hclient : s'.client = s.client)
    (hwOpens : ∀ ino, (s'.fifo ino).wOpens = (s.fifo ino).wOpens)
    (hdue : ∀ i, (s.client i).pc.Awaiting → Due q s i → Due q' s' i)
    (hexp : ∀ i, ¬ Expected s i) (hholds : ∀ ino, s'.server.Holds ino → s.server.Holds ino)
    (hserver : ∀ ino n req, s'.server ≠ .opening ino n req) : WaitInv q' s' := by
  refine ⟨?_, ?_, fun ino n req hpc => absurd hpc (hserver ino n req)⟩
  · rw [hclient]
    intro j hj
    exact .inl (hdue j hj.awaiting ((h.coming j hj).resolve_right (hexp j)))
  · rw [hclient]
    intro j ino n hj
    rw [hwOpens]
    obtain ⟨hle, hwait⟩ := h.opening j ino n hj
    refine ⟨hle, fun heq => ⟨hdue j (by rw [hj]; trivial) (hwait heq).1, ?_⟩⟩
    exact fun hheld => (hwait heq).2 (hholds ino hheld)

theorem ClientPc.Coming.held_ne {pc : ClientPc} (h : pc.Coming) (ino : Nat) : pc.held ≠ .own ino := by
  cases pc with
  | closeServer | openOwn => nofun
  | unborn | create | register | openServer | openingServer | send | openingOwn | read | closeOwn
  | unlink | leave | dead => exact absurd h id

/-- The server opens the FIFO of the client that the request names. -/
theorem waitInv_opens (hnames : NamesInv s) (h : WaitInv q s) {req : Request} {ino : Nat}
    (hpc : s.server = .handle req) (hdir : s.dir (clientFifo req.pid) = some ino)
    (hok : Careful s .server) :
    WaitInv q { s.setFifo ino (s.fifo ino).openWr with
      server := if (s.fifo ino).readers = 0 then .opening ino (s.fifo ino).rOpens req
        else .write ino req } := by
  have hrOpens : ∀ k, (Function.update s.fifo ino (s.fifo ino).openWr k).rOpens =
      (s.fifo k).rOpens := fun k => field_update Fifo.rOpens (by rfl) k
  -- its name leads to this FIFO
  have hnamed : ∀ i, req.pid = (s.client i).pid → s.dir (s.fifoName i) = some ino := by
    intro i hpid
    rw [State.fifoName, ← hpid]
    exact hdir
  have hdue : ∀ i, Due q s i → s.dir (s.fifoName i) ≠ some ino → ∃ r ∈ q, r.pid = (s.client i).pid := by
    rintro i (hr | ⟨r, hr, hpid⟩) hne
    · exact hr
    · rw [hpc, ServerPc.handle.injEq] at hr
      subst hr
      exact absurd (hnamed i hpid) hne
  refine ⟨?_, ?_, ?_⟩
  · intro i hi
    rcases h.coming i hi with (hr | ⟨r, hr, hpid⟩) | ⟨k, n, r, hsleep, -⟩
    · exact .inl (.inl hr)
    · rw [hpc, ServerPc.handle.injEq] at hr
      subst hr
      have hname := hnamed i hpid
      have hzero := hnames.unread hi.awaiting.owns.live (hi.held_ne ino) hname
      exact .inr ⟨ino, (s.fifo ino).rOpens, req, if_pos hzero, hname, hrOpens ino⟩
    · rw [hpc] at hsleep
      cases hsleep
  · intro i k n hi
    obtain ⟨hle, hwait⟩ := h.opening i k n hi
    show n ≤ (Function.update s.fifo ino (s.fifo ino).openWr k).wOpens ∧
      ((Function.update s.fifo ino (s.fifo ino).openWr k).wOpens = n → _)
    by_cases hk : k = ino
    · rw [hk] at hle
      rw [hk, Function.update_self]
      refine ⟨Nat.le_succ_of_le hle, fun heq => ?_⟩
      change (s.fifo ino).wOpens + 1 = n at heq
      omega
    · rw [Function.update_of_ne hk]
      refine ⟨hle, fun heq => ⟨.inl (hdue i (hwait heq).1 fun hname => ?_), ?_⟩⟩
      · change (s.client i).pc = _ at hi
        have hown := hnames.own i k (by rw [Holder, hi]; rfl) (by rw [hi]; trivial)
        rw [hown, Option.some.injEq] at hname
        exact hk hname
      · intro hheld
        refine hk ?_
        change ServerPc.Holds (if _ then _ else _) k at hheld
        split at hheld <;>
        · rcases hheld with hheld | hheld
          · exact (Option.some.inj hheld).symm
          · cases hheld
  · intro k n r hsleep
    change (if _ then _ else _) = _ at hsleep
    split at hsleep
    · next hzero =>
      rw [ServerPc.opening.injEq] at hsleep
      obtain ⟨rfl, rfl, rfl⟩ := hsleep
      refine ⟨Nat.le_of_eq (hrOpens ino).symm, fun _ => ?_⟩
      obtain ⟨i, hpid, hi⟩ := hok req ino hpc hdir hzero
      exact ⟨i, hi, hnamed i hpid.symm⟩
    · cases hsleep

theorem waitInv_init : WaitInv [] (init cfg) :=
  ⟨fun _ hi => absurd hi id, nofun, nofun⟩

end Waits

/-! ### The whole run -/

theorem ClientPc.Coming.steps (cfg : Config) (hpc : (s.client i).pc.Coming) :
    ((s.client i).pc = .closeServer ∧
        stepClient cfg s i = some ((s.release .server).setPc i .openOwn)) ∨
      (s.client i).pc = .openOwn ∧
        ∀ ino, s.dir (s.fifoName i) = some ino →
          stepClient cfg s i = some ((s.setFifo ino (s.fifo ino).openRd).setPc i
            (if (s.fifo ino).writers = 0 then .openingOwn ino (s.fifo ino).wOpens
              else .read ino)) := by
  cases hc : (s.client i).pc <;> rw [hc] at hpc
  case closeServer => exact .inl ⟨rfl, by simp only [stepClient, hc]⟩
  case openOwn =>
    refine .inr ⟨rfl, fun ino hino => ?_⟩
    rw [State.fifoName] at hino
    simp only [stepClient, hc, hino]
  all_goals exact absurd hpc id

/-- The client that the server waits for goes on towards its FIFO, or opens it. -/
theorem stays_stepClient (hstep : stepClient cfg s i = some s') (hpc : (s.client i).pc.Coming) :
    (s'.client i).pc.Coming ∧ s'.dir (s.fifoName i) = s.dir (s.fifoName i) ∨
      ∀ ino, s.dir (s.fifoName i) = some ino →
        (s'.fifo ino).rOpens = (s.fifo ino).rOpens + 1 := by
  rcases hpc.steps cfg with ⟨-, hs⟩ | ⟨-, hs⟩
  · rw [hs, Option.some.injEq] at hstep
    subst hstep
    refine .inl ⟨?_, rfl⟩
    rw [setPc_pc]
    trivial
  · refine .inr fun ino hino => ?_
    rw [hs ino hino, Option.some.injEq] at hstep
    subst hstep
    show (Function.update s.fifo ino (s.fifo ino).openRd ino).rOpens = _
    rw [Function.update_self]
    rfl

theorem isoInv_move (h : IsoInv q s) (hmove : Move s i s')
    (hstay : (s.client i).pc.Coming → Expected s i →
      (s'.client i).pc.Coming ∧ s'.dir (s.fifoName i) = s.dir (s.fifoName i) ∨
        ∀ ino, s.dir (s.fifoName i) = some ino →
          (s'.fifo ino).rOpens = (s.fifo ino).rOpens + 1) : ∃ q', IsoInv q' s' := by
  obtain ⟨q', hrequests, hq, hsent⟩ := requestsInv_move h.requests hmove
  exact ⟨q', namesInv_move h.names hmove,
    writeEnds_of_client h.ends hmove.same.server hmove.sameOpens, hrequests,
    waitInv_move h.names h.ends h.waits hmove hq hsent hstay⟩

theorem not_expected (hpc : ∀ ino n req, s.server ≠ .opening ino n req) (i : Nat) :
    ¬ Expected s i :=
  fun ⟨ino, n, req, hsleep, _⟩ => hpc ino n req hsleep

theorem Due.queued (h : Due q s i) (hpc : ∀ req, s.server ≠ .handle req) :
    ∃ r ∈ q, r.pid = (s.client i).pid :=
  h.resolve_right fun ⟨req, hreq, _⟩ => hpc req hreq

/-- A step of the server that opens no FIFO of a client. -/
theorem isoInv_of_server (h : IsoInv q s) (hclient : s'.client = s.client) (hdir : s'.dir = s.dir)
    (hnext : s'.next = s.next)
    (hfifo : ∀ ino, (s'.fifo ino).readers = (s.fifo ino).readers ∧
      (s'.fifo ino).writers = (s.fifo ino).writers ∧ (s'.fifo ino).wOpens = (s.fifo ino).wOpens)
    (hholds : ∀ ino, s'.server.Holds ino ↔ s.server.Holds ino) (hrequests : RequestsInv q' s')
    (hdue : ∀ i, (s.client i).pc.Awaiting → Due q s i → Due q' s' i)
    (hexp : ∀ i, ¬ Expected s i) (hpc' : ∀ ino n req, s'.server ≠ .opening ino n req) :
    IsoInv q' s' where
  names := namesInv_of_server h.names hclient hdir hnext fun ino => (hfifo ino).1
  ends := writeEnds_of_server h.ends hnext (fun ino => (hfifo ino).2.1) hholds
  requests := hrequests
  waits := waitInv_of_server h.waits hclient (fun ino => (hfifo ino).2.2) hdue hexp
    (fun ino => (hholds ino).mp) hpc'

/-- One at which nobody who waits is concerned. -/
theorem isoInv_of_idle (h : IsoInv q s) (hclient : s'.client = s.client) (hdir : s'.dir = s.dir)
    (hnext : s'.next = s.next)
    (hfifo : ∀ ino, (s'.fifo ino).readers = (s.fifo ino).readers ∧
      (s'.fifo ino).writers = (s.fifo ino).writers ∧ (s'.fifo ino).wOpens = (s.fifo ino).wOpens)
    (hholds : ∀ ino, s'.server.Holds ino ↔ s.server.Holds ino) (hrequests : RequestsInv q s')
    (hpc : (∀ req, s.server ≠ .handle req) ∧ ∀ ino n req, s.server ≠ .opening ino n req)
    (hpc' : ∀ ino n req, s'.server ≠ .opening ino n req) : IsoInv q s' := by
  refine isoInv_of_server h hclient hdir hnext hfifo hholds hrequests (fun i _ hi => .inl ?_)
    (not_expected hpc.2) hpc'
  rw [hclient]
  exact hi.queued hpc.1

/-- The server opens its FIFO for reading. -/
theorem isoInv_openRd (h : IsoInv q s) (hpc : s.server = .openRd) :
    IsoInv q { s with
      srv := s.srv.openRd
      server := if s.srv.writers = 0 then .openingRd s.srv.wOpens else .openDummy } := by
  have hquiet : ∀ {pc : ServerPc}, s.srv.writers = 0 ∧ pc = .openingRd s.srv.wOpens ∨
      pc = .openDummy → IsoInv q { s with srv := s.srv.openRd, server := pc } := by
    intro pc hpc'
    refine isoInv_of_idle h rfl rfl rfl (fun _ => ⟨rfl, rfl, rfl⟩) ?_
      (requestsInv_openRd h.requests hpc hpc') ?_ ?_
    · rw [hpc]
      rcases hpc' with ⟨-, rfl⟩ | rfl <;> exact fun _ => Iff.rfl
    · rw [hpc]
      exact ⟨nofun, nofun⟩
    · rcases hpc' with ⟨-, rfl⟩ | rfl <;> nofun
  split
  · next hnone => exact hquiet (.inl ⟨hnone, rfl⟩)
  · exact hquiet (.inr rfl)

/-- The server has written the response, or has found nobody to read it. -/
theorem isoInv_write {ino : Nat} {req : Request} (h : IsoInv q s) (hpc : s.server = .write ino req)
    (hclient : s'.client = s.client) (hdir : s'.dir = s.dir) (hnext : s'.next = s.next)
    (hsrv : s'.srv = s.srv) (hserver : s'.server = .add ino req)
    (hfifo : ∀ k, (s'.fifo k).readers = (s.fifo k).readers ∧
      (s'.fifo k).writers = (s.fifo k).writers ∧ (s'.fifo k).wOpens = (s.fifo k).wOpens) :
    IsoInv q s' := by
  refine isoInv_of_idle h hclient hdir hnext hfifo ?_ ?_ ?_ ?_
  · rw [hpc, hserver]
    exact fun _ => or_comm
  · exact requestsInv_of_server h.requests hclient hsrv (by rw [hpc, hserver]; rfl)
      (by rw [hpc, hserver]; rfl) (by rw [hserver]; nofun)
  · rw [hpc]
    exact ⟨nofun, nofun⟩
  · rw [hserver]
    nofun

/-- The server reads its FIFO. -/
theorem isoInv_loop (h : IsoInv q s) (hpc : s.server = .loop)
    (hstep : stepServer cfg s = some s') : ∃ q', IsoInv q' s' := by
  have hdata := h.requests.data
  simp only [stepServer, hpc] at hstep
  split at hstep
  · cases hstep
  · cases q with
    | nil =>
      rw [List.flatMap_nil] at hdata
      simp only [hdata, List.take_nil, List.length_nil, OfNat.zero_ne_ofNat, if_false,
        Option.some.injEq] at hstep
      subst hstep
      refine ⟨[], isoInv_of_idle h rfl rfl rfl (fun _ => ⟨rfl, rfl, rfl⟩) ?_ ?_ ?_ (by simp)⟩
      · rw [hpc]
        exact fun _ => Iff.rfl
      · exact requestsInv_loop h.requests hpc (by rw [hdata]; rfl) (.inl rfl)
      · simp [hpc]
    | cons r q =>
      have htake : s.srv.data.take 8 = r.encode := by
        rw [hdata, List.flatMap_cons, List.take_left' r.length_encode]
      have hdrop : s.srv.data.drop 8 = q.flatMap Request.encode := by
        rw [hdata, List.flatMap_cons, List.drop_left' r.length_encode]
      simp only [htake, Request.length_encode, if_true, Request.decode_encode,
        Option.some.injEq] at hstep
      subst hstep
      refine ⟨q, isoInv_of_server h rfl rfl rfl (fun _ => ⟨rfl, rfl, rfl⟩) ?_
        (requestsInv_loop h.requests hpc hdrop (.inr ⟨r, rfl⟩)) ?_
        (not_expected (by simp [hpc])) (by simp)⟩
      · rw [hpc]
        exact fun _ => Iff.rfl
      · intro i _ hi
        obtain ⟨r', hr', hpid⟩ := hi.queued (by simp [hpc])
        rcases List.mem_cons.mp hr' with rfl | hmem
        · exact .inr ⟨r', rfl, hpid⟩
        · exact .inl ⟨r', hmem, hpid⟩

/-- The server turns to the client of a request. -/
theorem isoInv_handle {req : Request} (h : IsoInv q s) (hpc : s.server = .handle req)
    (hok : Careful s .server) (hstep : stepServer cfg s = some s') : IsoInv q s' := by
  simp only [stepServer, hpc] at hstep
  split at hstep
  · next hdir =>
    cases hstep
    refine isoInv_of_server h rfl rfl rfl (fun _ => ⟨rfl, rfl, rfl⟩) ?_ ?_ ?_
      (not_expected (by simp [hpc])) (by simp)
    · rw [hpc]
      exact fun _ => Iff.rfl
    · exact requestsInv_of_server h.requests rfl rfl (by rw [hpc]; rfl) (by rw [hpc]; rfl)
        (by simp)
    · -- nobody who waits for a response has this PID, or the name would be there
      rintro i hi (hr | ⟨r, hr, hpid⟩)
      · exact .inl hr
      · rw [hpc, ServerPc.handle.injEq] at hr
        subst hr
        obtain ⟨ino, hino⟩ := h.names.named i hi.owns
        rw [State.fifoName, ← hpid, hdir] at hino
        cases hino
  · next ino hdir =>
    cases hstep
    have hfree : ∀ k, ¬ s.server.Holds k := by
      rw [hpc]
      exact ServerPc.not_holds rfl rfl
    refine ⟨?_, ?_, ?_, waitInv_opens h.names h.waits hpc hdir hok⟩
    · exact namesInv_of_server h.names rfl rfl rfl (field_update Fifo.readers rfl)
    · refine writeEnds_open h.ends (h.names.dir.lt _ _ hdir) hfree rfl rfl fun k => ?_
      show ServerPc.Holds (if _ then _ else _) k ↔ _
      split <;>
      · show some ino = some k ∨ none = some k ↔ _
        simp [eq_comm]
    · refine requestsInv_of_server h.requests rfl rfl ?_ ?_ ?_
      · rw [hpc]
        show ServerPc.opened (if _ then _ else _) = _
        split <;> rfl
      · rw [hpc]
        show ServerPc.dummy (if _ then _ else _) = _
        split <;> rfl
      · dsimp only
        split <;> simp

/-- The server gets through its `open`. -/
theorem isoInv_opening {ino n : Nat} {req : Request} (h : IsoInv q s)
    (hpc : s.server = .opening ino n req) (hmoved : (s.fifo ino).rOpens ≠ n) :
    IsoInv q { s with server := .write ino req } := by
  refine isoInv_of_server h rfl rfl rfl (fun _ => ⟨rfl, rfl, rfl⟩) ?_ ?_ ?_ ?_ nofun
  · rw [hpc]
    exact fun _ => Iff.rfl
  · exact requestsInv_of_server h.requests rfl rfl (by rw [hpc]; rfl) (by rw [hpc]; rfl) nofun
  · exact fun i _ hi => .inl (hi.queued (by rw [hpc]; nofun))
  · rintro i ⟨k, m, r, hsleep, -, hm⟩
    rw [hpc, ServerPc.opening.injEq] at hsleep
    obtain ⟨rfl, rfl, -⟩ := hsleep
    exact hmoved hm

theorem isoInv_close {ino : Nat} (h : IsoInv q s) (hpc : s.server = .close ino) :
    IsoInv q { s.setFifo ino (s.fifo ino).closeWr with server := .loop } := by
  have hfree : ∀ k, ¬ ServerPc.loop.Holds k := ServerPc.not_holds rfl rfl
  have hholds : ∀ k, s.server.Holds k ↔ k = ino := by
    intro k
    rw [hpc]
    show none = some k ∨ some ino = some k ↔ _
    rw [Option.some.injEq]
    exact ⟨fun hk => (hk.resolve_left nofun).symm, fun hk => .inr hk.symm⟩
  refine ⟨?_, ?_, ?_, ?_⟩
  · refine namesInv_of_server h.names rfl rfl rfl (field_update Fifo.readers ?_)
    exact Fifo.discard_readers _
  · exact writeEnds_close h.ends hholds rfl rfl hfree
  · exact requestsInv_of_server h.requests rfl rfl (by rw [hpc]; rfl) (by rw [hpc]; rfl) nofun
  · refine waitInv_of_server h.waits rfl (field_update Fifo.wOpens ?_)
      (fun i _ hi => .inl (hi.queued (by rw [hpc]; nofun))) (not_expected (by rw [hpc]; nofun))
      (fun k hk => absurd hk (hfree k)) nofun
    exact Fifo.discard_wOpens _

theorem isoInv_stepServer (h : IsoInv q s) (hok : Careful s .server)
    (hstep : stepServer cfg s = some s') : ∃ q', IsoInv q' s' := by
  cases hpc : s.server with
  | mkfifo | signal | add =>
    simp only [stepServer, hpc, Option.some.injEq] at hstep
    subst hstep
    refine ⟨q, isoInv_of_idle h rfl rfl rfl (fun _ => ⟨rfl, rfl, rfl⟩) ?_ ?_ ?_ (by simp)⟩
    · rw [hpc]
      exact fun _ => Iff.rfl
    · exact requestsInv_of_server h.requests rfl rfl (by rw [hpc]; rfl) (by rw [hpc]; rfl)
          (by simp)
    · simp [hpc]
  | openRd =>
    simp only [stepServer, hpc, Option.some.injEq] at hstep
    subst hstep
    exact ⟨q, isoInv_openRd h hpc⟩
  | openingRd n =>
    simp only [stepServer, hpc] at hstep
    split at hstep
    · cases hstep
      refine ⟨q, isoInv_of_idle h rfl rfl rfl (fun _ => ⟨rfl, rfl, rfl⟩) ?_ ?_ ?_ (by simp)⟩
      · rw [hpc]
        exact fun _ => Iff.rfl
      · exact requestsInv_of_server h.requests rfl rfl (by rw [hpc]; rfl) (by rw [hpc]; rfl)
          (by simp)
      · simp [hpc]
    · cases hstep
  | openDummy =>
    simp only [stepServer, hpc] at hstep
    split at hstep
    · cases hstep
      refine ⟨q, isoInv_of_idle h rfl rfl rfl (fun _ => ⟨rfl, rfl, rfl⟩) ?_
        (requestsInv_openDummy h.requests hpc) ?_ (by simp)⟩
      · rw [hpc]
        exact fun _ => Iff.rfl
      · simp [hpc]
    · cases hstep
  | loop => exact isoInv_loop h hpc hstep
  | handle req => exact ⟨q, isoInv_handle h hpc hok hstep⟩
  | opening ino n req =>
    simp only [stepServer, hpc] at hstep
    split at hstep
    · next hmoved =>
      cases hstep
      exact ⟨q, isoInv_opening h hpc hmoved⟩
    · cases hstep
  | write ino req =>
    simp only [stepServer, hpc] at hstep
    split at hstep
    · cases hstep
      exact ⟨q, isoInv_write h hpc rfl rfl rfl rfl rfl fun _ => ⟨rfl, rfl, rfl⟩⟩
    · split at hstep
      · cases hstep
        refine ⟨q, isoInv_write h hpc rfl rfl rfl rfl rfl fun k => ⟨?_, ?_, ?_⟩⟩
        · exact field_update Fifo.readers (by rfl) k
        · exact field_update Fifo.writers (by rfl) k
        · exact field_update Fifo.wOpens (by rfl) k
      · cases hstep
  | close ino =>
    simp only [stepServer, hpc, Option.some.injEq] at hstep
    subst hstep
    exact ⟨q, isoInv_close h hpc⟩

theorem isoInv_step {e : Event} (h : IsoInv q s) (hok : Careful s e)
    (hstep : step cfg s e = some s') : ∃ q', IsoInv q' s' := by
  cases e with
  | spawn i pid seqLen =>
    simp only [step] at hstep
    split at hstep
    · next hpc =>
      cases hstep
      exact ⟨q, namesInv_spawn h.names hpc hok,
        writeEnds_of_client h.ends rfl (sameOpens_of_eq rfl rfl),
        requestsInv_spawn h.requests hpc, waitInv_spawn h.waits hpc⟩
    · cases hstep
  | server => exact isoInv_stepServer h hok hstep
  | client i =>
    exact isoInv_move h (move_of_stepClient hstep) fun hpc _ => stays_stepClient hstep hpc
  | fail i =>
    exact isoInv_move h (move_of_failClient hstep) fun hpc hexp => absurd hexp (hok hpc)
  | kill i =>
    exact isoInv_move h (move_of_killClient hstep) fun hpc hexp => absurd hexp (hok hpc)

theorem isoInv_reach (h : (system cfg).ReachBy Careful s) : ∃ q, IsoInv q s := by
  induction h with
  | init =>
    refine ⟨[], namesInv_init, ⟨?_, ?_, ?_⟩, requestsInv_init, waitInv_init⟩
    · exact fun ino hlt => absurd hlt (Nat.not_lt_zero _)
    · exact fun ino hlt => absurd hlt (Nat.not_lt_zero _)
    · exact fun ino hheld => absurd hheld (ServerPc.not_holds rfl rfl ino)
  | step e _ hok hstep ih =>
    obtain ⟨q, hq⟩ := ih
    exact isoInv_step hq hok hstep

/-! ### Somebody can go on -/

/-- Where a client waits that waits for its response and cannot go on. -/
theorem blocked_of_awaiting (hpc : (s.client i).pc.Awaiting) (hstep : stepClient cfg s i = none) :
    (∃ ino n, (s.client i).pc = .openingOwn ino n ∧ (s.fifo ino).wOpens = n) ∨
      ∃ ino, (s.client i).pc = .read ino ∧ (s.fifo ino).writers ≠ 0 := by
  cases hc : (s.client i).pc <;> rw [hc] at hpc <;> simp only [stepClient, hc] at hstep
  case closeServer => cases hstep
  case openOwn => split at hstep <;> cases hstep
  case openingOwn ino n =>
    split at hstep
    · cases hstep
    · next hn => exact .inl ⟨ino, n, rfl, not_not.mp hn⟩
  case read ino =>
    split at hstep
    · next hempty => exact .inr ⟨ino, rfl, hempty.2⟩
    · split at hstep <;> cases hstep
  all_goals exact absurd hpc id

/-- A client that has its FIFO open finds the bytes in it. -/
theorem blocked_of_holder {ino : Nat} (hheld : Holder s i ino) (hstep : stepClient cfg s i = none)
    (hdata : (s.fifo ino).data ≠ []) :
    ∃ n, (s.client i).pc = .openingOwn ino n ∧ (s.fifo ino).wOpens = n := by
  rw [Holder] at hheld
  cases hc : (s.client i).pc <;> rw [hc] at hheld <;> simp only [stepClient, hc] at hstep
  case openingOwn k n =>
    cases hheld
    split at hstep
    · cases hstep
    · next hn => exact ⟨n, rfl, not_not.mp hn⟩
  case read k =>
    cases hheld
    rw [if_neg fun hempty => hdata hempty.1] at hstep
    split at hstep <;> cases hstep
  case closeOwn | unlink | leave => cases hstep
  all_goals cases hheld

/-- **No deadlock.** -/
theorem IsoInv.progress (h : IsoInv q s) (hi : (s.client i).pc.Awaiting) :
    stepServer cfg s ≠ none ∨ ∃ j, stepClient cfg s j ≠ none := by
  by_contra hstuck
  rw [not_or, not_exists] at hstuck
  have hserver : stepServer cfg s = none := not_not.mp hstuck.1
  have hclient : ∀ j, stepClient cfg s j = none := fun j => not_not.mp (hstuck.2 j)
  cases hpc : s.server <;> simp only [stepServer, hpc] at hserver
  case mkfifo | openRd | signal | add | close => cases hserver
  case openingRd n =>
    split at hserver
    · cases hserver
    · next hn => exact ((h.requests.lonely n hpc).2 (not_not.mp hn) i).2 hi
  case openDummy =>
    have hreaders := h.requests.readers
    rw [hpc] at hreaders
    rw [if_pos (by rw [hreaders]; decide)] at hserver
    cases hserver
  case loop =>
    split at hserver
    · next hempty =>
      rcases blocked_of_awaiting hi (hclient i) with ⟨ino, n, hci, hn⟩ | ⟨ino, hci, hwriters⟩
      · -- its request is not in the empty FIFO
        obtain ⟨r, hr, -⟩ := ((h.waits.opening i ino n hci).2 hn).1.queued (by simp [hpc])
        have hdata := h.requests.data
        rw [hempty.1] at hdata
        have hnil := List.flatMap_eq_nil_iff.mp hdata.symm r hr
        have hlen := r.length_encode
        rw [hnil] at hlen
        cases hlen
      · have hlt : ino < s.next := h.names.lt i ino (by rw [Holder, hci]; rfl)
        exact hwriters (h.ends.free ino hlt (by rw [hpc]; exact ServerPc.not_holds rfl rfl ino))
    · cases hserver
  case handle req => split at hserver <;> cases hserver
  case opening ino n req =>
    split at hserver
    · cases hserver
    · next hn =>
      obtain ⟨j, hj, hdir⟩ := (h.waits.asleep ino n req hpc).2 (not_not.mp hn)
      rcases hj.steps cfg with ⟨-, hstep⟩ | ⟨-, hstep⟩
      · rw [hclient j] at hstep
        cases hstep
      · have hopen := hstep ino hdir
        rw [hclient j] at hopen
        cases hopen
  case write ino req =>
    split at hserver
    · cases hserver
    · next hreaders =>
      split at hserver
      · cases hserver
      · next hfull =>
        -- the one who has it open would find the bytes that fill it
        have hholds : s.server.Holds ino := by rw [hpc]; exact .inl rfl
        have hdata : (s.fifo ino).data ≠ [] := by
          intro hnil
          have hcap := cfg.le_capacity
          rw [hnil, List.length_nil] at hfull
          omega
        obtain ⟨j, hj⟩ := (h.names.readers ino (h.ends.lt ino hholds)).2 hreaders
        obtain ⟨n, hcj, hn⟩ := blocked_of_holder hj (hclient j) hdata
        exact ((h.waits.opening j ino n hcj).2 hn).2 hholds

/-- The client that the server waits for wakes it with its next calls. -/
theorem IsoInv.wakes (h : IsoInv q s) {ino n : Nat} {req : Request}
    (hpc : s.server = .opening ino n req) (hn : (s.fifo ino).rOpens = n) :
    ∃ i k s', (s.client i).pc.Awaiting ∧ s.dir (s.fifoName i) = some ino ∧
      (system cfg).exec s (List.replicate k (.client i)) = some s' ∧ stepServer cfg s' ≠ none := by
  -- once it has been opened for reading, the server goes on
  have hopens : ∀ {t : State} {i : Nat}, t.server = .opening ino n req → (t.fifo ino).rOpens = n →
      (t.client i).pc = .openOwn → t.dir (t.fifoName i) = some ino →
      ∃ t', stepClient cfg t i = some t' ∧ stepServer cfg t' ≠ none := by
    intro t i hserver hrOpens hcoming hdir
    rcases ClientPc.Coming.steps cfg (by rw [hcoming]; trivial) with ⟨hclose, -⟩ | ⟨-, hstep⟩
    · rw [hcoming] at hclose
      cases hclose
    · refine ⟨_, hstep ino hdir, ?_⟩
      have hmoved : (Function.update t.fifo ino (t.fifo ino).openRd ino).rOpens ≠ n := by
        rw [Function.update_self]
        show (t.fifo ino).rOpens + 1 ≠ n
        omega
      simp only [stepServer, State.setPc, State.setFifo, hserver, if_pos hmoved]
      exact Option.some_ne_none _
  obtain ⟨i, hi, hdir⟩ := (h.waits.asleep ino n req hpc).2 hn
  rcases hi.steps cfg with ⟨hclose, hstep⟩ | ⟨hopen, -⟩
  · have hname : ((s.release .server).setPc i .openOwn).fifoName i = s.fifoName i :=
      congrArg clientFifo (move_of_stepClient hstep).pid
    have hdir' : s.dir (((s.release .server).setPc i .openOwn).fifoName i) = some ino := by
      rw [hname, hdir]
    obtain ⟨s', hs', hgoes⟩ := hopens (t := (s.release .server).setPc i .openOwn) hpc hn
      (setPc_pc ..) hdir'
    refine ⟨i, 2, s', hi.awaiting, hdir, ?_, hgoes⟩
    show (stepClient cfg s i).bind (fun t => (stepClient cfg t i).bind some) = _
    rw [hstep, Option.bind_some, hs']
    rfl
  · obtain ⟨s', hs', hgoes⟩ := hopens hpc hn hopen hdir
    refine ⟨i, 1, s', hi.awaiting, hdir, ?_, hgoes⟩
    show (stepClient cfg s i).bind some = _
    rw [hs']
    rfl

/-- **Clients do not hinder each other.**  In careful runs, whatever dies and whenever:
while some client waits for its response, the server or a client can take a step; and when
the server sleeps in the `open` of a FIFO, that FIFO is the one of a live client that waits
for its response, and the next calls of this client wake it. -/
theorem clients_isolated (h : (system cfg).ReachBy Careful s) :
    ((∃ i, (s.client i).pc.Awaiting) →
        stepServer cfg s ≠ none ∨ ∃ j, stepClient cfg s j ≠ none) ∧
      ∀ ino n req, s.server = .opening ino n req → stepServer cfg s = none →
        ∃ i k s', (s.client i).pc.Awaiting ∧ s.dir (s.fifoName i) = some ino ∧
          (system cfg).exec s (List.replicate k (.client i)) = some s' ∧
          stepServer cfg s' ≠ none := by
  obtain ⟨q, hq⟩ := isoInv_reach h
  refine ⟨fun ⟨i, hi⟩ => hq.progress hi, fun ino n req hpc hsleep => hq.wakes hpc ?_⟩
  by_contra hmoved
  simp only [stepServer, hpc, if_pos hmoved] at hsleep
  cases hsleep

/-- A careful step that starts nobody and opens no FIFO of a client for writing. -/
def Plain (s : State) : Event → Prop
  | .server => s.server.pending = 0
  | .client _ => True
  | .kill i => ¬ (s.client i).pc.Awaiting
  | _ => False

instance (s : State) : ∀ e : Event, Decidable (Plain s e)
  | .server => inferInstanceAs (Decidable (s.server.pending = 0))
  | .client _ => instDecidableTrue
  | .kill i => inferInstanceAs (Decidable (¬ (s.client i).pc.Awaiting))
  | .spawn _ _ _ | .fail _ => instDecidableFalse

theorem Plain.careful : ∀ s e, Plain s e → Careful s e
  | s, .server, h => fun req _ hpc => by
    rw [Plain, hpc] at h
    cases h
  | _, .client _, _ => trivial
  | _, .kill _, h => fun hpc => absurd hpc.awaiting h
  | _, .spawn _ _ _, h => absurd h id
  | _, .fail _, h => absurd h id

/-- A client is killed before it opens the server's FIFO; the server comes to the request of
the next one before that has closed the server's FIFO, and waits for it. -/
theorem clients_isolated_killed :
    ∃ s, (system ⟨4096, false, by decide⟩).ReachBy Careful s ∧
      (s.client 0).pc = .dead ∧ s.dir (clientFifo 7) = some 0 ∧ (s.client 1).pc.Awaiting ∧
      s.server = .opening 1 0 ⟨8, 3⟩ ∧ stepServer ⟨4096, false, by decide⟩ s = none ∧
      (stepServer ⟨4096, false, by decide⟩ s ≠ none ∨
        ∃ j, stepClient ⟨4096, false, by decide⟩ s j ≠ none) ∧
      ∃ i k s', (s.client i).pc.Awaiting ∧ s.dir (s.fifoName i) = some 1 ∧
        (system ⟨4096, false, by decide⟩).exec s (List.replicate k (.client i)) = some s' ∧
        stepServer ⟨4096, false, by decide⟩ s' ≠ none := by
  have hfirst : (system ⟨4096, false, by decide⟩).ReachBy Careful
      (spawn (init ⟨4096, false, by decide⟩) 0 7 5) :=
    .step (.spawn 0 7 5) .init (fun _ hj => absurd rfl hj.1) rfl
  obtain ⟨t, u, s, ht, hfree, hspawn, hu, hserver, hcoming, hpid, hs, hdead, hdir, hpc, hsleep⟩ :
      ∃ t u s, (system ⟨4096, false, by decide⟩).execBy Plain
          (spawn (init ⟨4096, false, by decide⟩) 0 7 5) [.client 0, .client 0, .kill 0] = some t ∧
        Free t 8 ∧
        (system ⟨4096, false, by decide⟩).step t (.spawn 1 8 3) = some (spawn t 1 8 3) ∧
        (system ⟨4096, false, by decide⟩).execBy Plain (spawn t 1 8 3)
          [.client 1, .client 1, .server, .server, .client 1, .server, .server, .server, .client 1,
            .server] = some u ∧
        u.server = .handle ⟨8, 3⟩ ∧ (u.client 1).pc = .closeServer ∧ (u.client 1).pid = 8 ∧
        (system ⟨4096, false, by decide⟩).step u .server = some s ∧
        (s.client 0).pc = .dead ∧ s.dir (clientFifo 7) = some 0 ∧
        (s.client 1).pc = .closeServer ∧ s.server = .opening 1 0 ⟨8, 3⟩ ∧
        stepServer ⟨4096, false, by decide⟩ s = none := by
    refine ⟨_, _, _, rfl, ?_, rfl, rfl, rfl, rfl, rfl, rfl, rfl, rfl, rfl, rfl, rfl⟩
    intro j hj
    cases j with
    | zero => exact absurd rfl hj.2
    | succ j => exact absurd rfl hj.1
  have hkilled := System.reachBy_of_execBy_from Plain.careful hfirst _ ht
  have hsent := System.reachBy_of_execBy_from Plain.careful
    (.step (.spawn 1 8 3) hkilled hfree hspawn) _ hu
  have hreach : (system ⟨4096, false, by decide⟩).ReachBy Careful s := by
    refine .step .server hsent (fun req ino hreq _ _ => ?_) hs
    rw [hserver, ServerPc.handle.injEq] at hreq
    exact ⟨1, by rw [hpid, ← hreq], by rw [hcoming]; trivial⟩
  have hawait : (s.client 1).pc.Awaiting := by
    rw [hpc]
    trivial
  obtain ⟨hgoes, hwakes⟩ := clients_isolated hreach
  exact ⟨s, hreach, hdead, hdir, hawait, hsleep.1, hsleep.2, hgoes ⟨1, hawait⟩,
    hwakes 1 0 _ hsleep.1 hsleep.2⟩

/-- **The server sleeps for ever.**  A client is killed after it has sent its request.  Its
FIFO stays, the server's `open` of it finds no reader, and the next client, whose request
is in the queue, waits for its response.  No process can take a step. -/
theorem server_stuck :
    ∃ s, (system ⟨4096, false, by decide⟩).exec (init ⟨4096, false, by decide⟩)
        [.server, .server, .spawn 0 7 1, .client 0, .client 0, .client 0, .server, .server, .server,
          .client 0, .kill 0, .spawn 1 8 1, .client 1, .client 1, .client 1, .client 1, .client 1,
          .client 1, .server, .server] = some s ∧
      (s.client 0).pc = .dead ∧ s.server = .opening 0 0 ⟨7, 1⟩ ∧
      s.srv.data = Request.encode ⟨8, 1⟩ ∧ (s.client 1).pc.Awaiting ∧
      stepServer ⟨4096, false, by decide⟩ s = none ∧
      ∀ j, stepClient ⟨4096, false, by decide⟩ s j = none := by
  refine ⟨_, rfl, rfl, rfl, by decide, trivial, rfl, fun j => ?_⟩
  match j with
  | 0 => rfl
  | 1 => rfl
  | j + 2 => rfl

end Tlpi.Seqnum
