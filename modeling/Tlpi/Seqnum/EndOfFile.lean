import Tlpi.Seqnum.Routing

/-!
# When a client's read meets the end of file

Orderly runs are those in which no call of a client fails, its `read` of the response
among them.  That call returns 0 when the FIFO is empty and nobody has it open for
writing.  It can only come to that when a client is killed after it has read its response
and before its exit handler runs, the next client with this PID takes over the FIFO, and
the server has not closed it yet: the new client finds a writer, and loses it again.

* `reads_no_eof`: in runs in which a client does not open its FIFO at such a moment
  (`Prompt`), the end of file is never met, and so the runs are orderly.
-/

namespace Tlpi.Seqnum

open Tlpi.Lib

/-- The FIFO that the server has open for a response that is still to be written. -/
def ServerPc.serving : ServerPc → Option Nat
  | .opening ino _ _ | .write ino _ => some ino
  | _ => none

/-- The FIFO that it has open after it has written the response. -/
def ServerPc.leaving : ServerPc → Option Nat
  | .add ino _ | .close ino => some ino
  | _ => none

def ServerPc.Holds (pc : ServerPc) (ino : Nat) : Prop :=
  pc.serving = some ino ∨ pc.leaving = some ino

/-- At the `read` of the response. -/
def ClientPc.Reading (pc : ClientPc) : Prop := ∃ ino, pc = .read ino

/-- An orderly step, but for what a `read` of a response returns; and a client that opens
its FIFO does not find the server there from the response before. -/
def Prompt (s : State) : Event → Prop
  | .client i => (¬ (s.client i).pc.Reading → ¬ CallFails s i) ∧
      ((s.client i).pc = .openOwn → ∀ ino, s.dir (clientFifo (s.client i).pid) = some ino →
        s.server.leaving ≠ some ino)
  | e => Orderly s e

/-- Client `i` has been answered, or is about to be. -/
def Attended (s : State) (i ino : Nat) : Prop :=
  (∃ v, Answered s i v) ∨ s.server.serving = some ino

/-- The server is the only one who has a FIFO of a client open for writing. -/
structure WriteEnds (s : State) : Prop where
  held : ∀ ino < s.next, s.server.Holds ino → (s.fifo ino).writers = 1
  free : ∀ ino < s.next, ¬ s.server.Holds ino → (s.fifo ino).writers = 0
  lt : ∀ ino, s.server.Holds ino → ino < s.next

/-- The server is the only writer, and it has the FIFO open for as long as a client that
has got through its `open` has no response. -/
structure EofInv (s : State) : Prop where
  held : ∀ ino < s.next, s.server.Holds ino → (s.fifo ino).writers = 1
  free : ∀ ino < s.next, ¬ s.server.Holds ino → (s.fifo ino).writers = 0
  lt : ∀ ino, s.server.Holds ino → ino < s.next
  opening : ∀ i ino n, (s.client i).pc = .openingOwn ino n → (s.fifo ino).wOpens ≠ n →
    Attended s i ino
  reading : ∀ i ino, (s.client i).pc = .read ino → Attended s i ino

variable {cfg : Config} {s s' : State} {i j : Nat}

theorem EofInv.ends (h : EofInv s) : WriteEnds s := ⟨h.held, h.free, h.lt⟩

theorem eofInv_init : EofInv (init cfg) := by
  constructor <;> intros <;> simp_all [init, ServerPc.Holds, ServerPc.serving, ServerPc.leaving]

/-- A client that reads has its FIFO open. -/
theorem Inv.own_of_opened (h : Inv s) {ino : Nat}
    (hpc : (∃ n, (s.client i).pc = .openingOwn ino n) ∨ (s.client i).pc = .read ino) :
    (s.client i).pc.Live ∧ s.dir (clientFifo (s.client i).pid) = some ino ∧
      ((∃ v, Answered s i v) → (s.fifo ino).data ≠ []) := by
  have hi := h.clients i
  have hcases : (∀ v, ¬ Answered s i v) ∧ Own s i ino 1 [] ∨
      ∃ v, Answered s i v ∧ Own s i ino 1 (encodeInt v) := by
    rcases hpc with ⟨n, hpc⟩ | hpc <;> simp only [ClientInv, hpc] at hi <;> exact hi.2
  have hlive : (s.client i).pc.Live := by
    rcases hpc with ⟨n, hpc⟩ | hpc <;> simp [hpc, ClientPc.Live]
  rcases hcases with ⟨hno, hown⟩ | ⟨v, -, hown⟩
  · refine ⟨hlive, hown.dir, ?_⟩
    rintro ⟨v, hv⟩
    exact absurd hv (hno v)
  · refine ⟨hlive, hown.dir, fun _ hnil => ?_⟩
    have hlen := length_encodeInt v
    rw [← hown.data, hnil] at hlen
    cases hlen

/-- **No end of file.** -/
theorem EofInv.not_atEof (h : EofInv s) (hinv : Inv s) {ino : Nat}
    (hpc : (s.client i).pc = .read ino) : ¬ (s.fifo ino).AtEof := by
  rintro ⟨hdata, hwriters⟩
  obtain ⟨-, hdir, hans⟩ := hinv.own_of_opened (.inr hpc)
  rcases h.reading i ino hpc with hv | hserving
  · exact hans hv hdata
  · have hone := h.held ino (hinv.dir.lt _ _ hdir) (.inl hserving)
    rw [hwriters] at hone
    cases hone

theorem EofInv.orderly (h : EofInv s) (hinv : Inv s) {e : Event} (hok : Prompt s e) :
    Orderly s e := by
  cases e with
  | client i =>
    intro hfails
    by_cases hpc : (s.client i).pc.Reading
    · obtain ⟨ino, hpc⟩ := hpc
      have heof := hfails
      simp only [CallFails, hpc] at heof
      exact h.not_atEof hinv hpc heof
    · exact hok.1 hpc hfails
  | spawn | server | fail | kill => exact hok

/-! ### Clients -/

theorem writeEnds_of_client (h : WriteEnds s) (hserver : s'.server = s.server)
    (hopens : SameOpens s s') : WriteEnds s' := by
  constructor
  · intro ino hlt hholds
    rw [hserver] at hholds
    have hold := h.lt ino hholds
    rw [hopens.writers ino hold]
    exact h.held ino hold hholds
  · intro ino hlt hfree
    rw [hserver] at hfree
    by_cases hold : ino < s.next
    · rw [hopens.writers ino hold]
      exact h.free ino hold hfree
    · exact hopens.fresh ino hlt (by omega)
  · intro ino hholds
    rw [hserver] at hholds
    exact Nat.lt_of_lt_of_le (h.lt ino hholds) hopens.next

/-- What a step of client `i` leaves of the others. -/
theorem eofInv_of_client (h : EofInv s) (hinv : Inv s) (hsame : SameServer s s')
    (hopens : SameOpens s s') (hother : ∀ j, j ≠ i → s'.client j = s.client j)
    (hopening : ∀ ino n, (s'.client i).pc = .openingOwn ino n → (s'.fifo ino).wOpens ≠ n →
      Attended s i ino)
    (hreading : ∀ ino, (s'.client i).pc = .read ino → Attended s i ino) : EofInv s' := by
  have hatt : ∀ j ino, Attended s j ino → Attended s' j ino := by
    intro j ino hatt
    rw [Attended, hsame.server]
    refine hatt.imp_left ?_
    rintro ⟨v, a, ha, hv⟩
    exact ⟨v, a, by rw [hsame.answers]; exact ha, hv⟩
  have hends := writeEnds_of_client h.ends hsame.server hopens
  refine ⟨hends.held, hends.free, hends.lt, ?_, ?_⟩
  · intro j ino n hpc hmoved
    by_cases hj : j = i
    · rw [hj] at hpc ⊢
      exact hatt i ino (hopening ino n hpc hmoved)
    · rw [hother j hj] at hpc
      obtain ⟨-, hdir, -⟩ := hinv.own_of_opened (.inl ⟨n, hpc⟩)
      rw [hopens.wOpens ino (hinv.dir.lt _ _ hdir)] at hmoved
      exact hatt j ino (h.opening j ino n hpc hmoved)
  · intro j ino hpc
    by_cases hj : j = i
    · rw [hj] at hpc ⊢
      exact hatt i ino (hreading ino hpc)
    · rw [hother j hj] at hpc
      exact hatt j ino (h.reading j ino hpc)

/-- A client that opens its FIFO does not find the server there from the response before. -/
theorem eofInv_move (h : EofInv s) (hinv : Inv s) (hmove : Move s i s')
    (hprompt : (s.client i).pc = .openOwn → ∀ ino, s.dir (s.fifoName i) = some ino →
      s.server.leaving ≠ some ino) : EofInv s' := by
  have hopens := hmove.sameOpens
  refine eofInv_of_client h hinv hmove.same hopens (fun j => hmove.other) ?_ ?_
  · intro ino n hpc' hmoved
    obtain ⟨-, hdir, -, hn⟩ := hmove.opening hpc'
    rw [hopens.wOpens ino (hinv.dir.lt _ _ hdir)] at hmoved
    exact absurd hn hmoved
  · intro ino hpc'
    rcases hmove.opened (.inr hpc') with ⟨hpc, hdir, ⟨-, hn⟩ | ⟨hw, -⟩⟩ | ⟨m, hpc, hmoved, -⟩
    · rw [hpc'] at hn
      cases hn
    · -- the server is there for the response to come, since it has left after the one before
      by_cases hholds : s.server.Holds ino
      · exact .inr (hholds.resolve_right (hprompt hpc ino hdir))
      · exact absurd (h.free ino (hinv.dir.lt _ _ hdir) hholds) hw
    · exact h.opening i ino m hpc hmoved

theorem eofInv_spawn (h : EofInv s) (hinv : Inv s) (pid seqLen : BitVec 32) :
    EofInv (spawn s i pid seqLen) := by
  refine eofInv_of_client h hinv ⟨rfl, rfl, rfl, rfl⟩ (sameOpens_of_eq rfl rfl) (i := i) ?_ ?_ ?_
  · exact fun j hj => Function.update_of_ne hj ..
  · intro ino n hpc
    simp [spawn] at hpc
  · intro ino hpc
    simp [spawn] at hpc

/-! ### The server -/

/-- A step of the server that opens and closes no FIFO of a client. -/
theorem writeEnds_of_server (h : WriteEnds s) (hnext : s'.next = s.next)
    (hfifo : ∀ ino, (s'.fifo ino).writers = (s.fifo ino).writers)
    (hholds : ∀ ino, s'.server.Holds ino ↔ s.server.Holds ino) : WriteEnds s' := by
  constructor
  · intro ino hlt hheld
    rw [hnext] at hlt
    rw [hfifo]
    exact h.held ino hlt ((hholds ino).mp hheld)
  · intro ino hlt hfree
    rw [hnext] at hlt
    rw [hfifo]
    exact h.free ino hlt fun hheld => hfree ((hholds ino).mpr hheld)
  · intro ino hheld
    rw [hnext]
    exact h.lt ino ((hholds ino).mp hheld)

/-- A step of the server that leaves the FIFOs of the clients alone. -/
theorem eofInv_of_server (h : EofInv s) (hclient : s'.client = s.client) (hfifo : s'.fifo = s.fifo)
    (hnext : s'.next = s.next) (hans : s'.answers = s.answers)
    (hserving : s'.server.serving = s.server.serving)
    (hleaving : s'.server.leaving = s.server.leaving) : EofInv s' := by
  have hends : WriteEnds s' := by
    refine writeEnds_of_server h.ends hnext (fun _ => by rw [hfifo]) fun ino => ?_
    rw [ServerPc.Holds, hserving, hleaving]
    rfl
  have hatt : ∀ j ino, Attended s' j ino = Attended s j ino := by
    intro j ino
    simp only [Attended, Answered, hans, hserving]
  refine ⟨hends.held, hends.free, hends.lt, ?_, ?_⟩
  · rw [hclient, hfifo]
    intro j ino n hpc hmoved
    rw [hatt]
    exact h.opening j ino n hpc hmoved
  · rw [hclient]
    intro j ino hpc
    rw [hatt]
    exact h.reading j ino hpc

theorem ServerPc.not_holds {pc : ServerPc} (hserving : pc.serving = none)
    (hleaving : pc.leaving = none) (ino : Nat) : ¬ pc.Holds ino := by
  rintro (hino | hino)
  · rw [hserving] at hino
    cases hino
  · rw [hleaving] at hino
    cases hino

/-- While the server serves nobody, those who are attended have been answered. -/
theorem Attended.of_unserved {ino : Nat} (h : Attended s j ino)
    (hserving : s.server.serving = none) (hans : s'.answers = s.answers) : Attended s' j ino := by
  rcases h with ⟨v, a, ha, hv⟩ | hino
  · exact .inl ⟨v, a, by rw [hans]; exact ha, hv⟩
  · rw [hserving] at hino
    cases hino

/-- The server opens a FIFO. -/
theorem writeEnds_open (h : WriteEnds s) {ino : Nat} (hlt : ino < s.next)
    (hnone : ∀ k, ¬ s.server.Holds k) (hnext : s'.next = s.next)
    (hfifo : s'.fifo = Function.update s.fifo ino (s.fifo ino).openWr)
    (hholds : ∀ k, s'.server.Holds k ↔ k = ino) : WriteEnds s' := by
  constructor
  · intro k hk hheld
    rw [(hholds k).mp hheld, hfifo, Function.update_self]
    show (s.fifo ino).writers + 1 = 1
    rw [h.free ino hlt (hnone ino)]
  · intro k hk hfree
    have hne : k ≠ ino := fun heq => hfree ((hholds k).mpr heq)
    rw [hnext] at hk
    rw [hfifo, Function.update_of_ne hne]
    exact h.free k hk (hnone k)
  · intro k hheld
    rw [(hholds k).mp hheld, hnext]
    exact hlt

theorem eofInv_open (h : EofInv s) {ino : Nat} (hlt : ino < s.next)
    (hserving : s.server.serving = none) (hleaving : s.server.leaving = none)
    (hclient : s'.client = s.client) (hnext : s'.next = s.next) (hans : s'.answers = s.answers)
    (hfifo : s'.fifo = Function.update s.fifo ino (s.fifo ino).openWr)
    (hserving' : s'.server.serving = some ino) (hleaving' : s'.server.leaving = none) :
    EofInv s' := by
  have hnone := ServerPc.not_holds hserving hleaving
  have hholds : ∀ k, s'.server.Holds k ↔ k = ino := by
    intro k
    rw [ServerPc.Holds, hserving', hleaving', Option.some.injEq]
    exact ⟨fun hk => (hk.resolve_right nofun).symm, fun hk => .inl hk.symm⟩
  have hends := writeEnds_open h.ends hlt hnone hnext hfifo hholds
  refine ⟨hends.held, hends.free, hends.lt, ?_, ?_⟩
  · intro j k n hpc hmoved
    by_cases hk : k = ino
    · exact .inr (by rw [hserving', hk])
    · rw [hfifo, Function.update_of_ne hk] at hmoved
      rw [hclient] at hpc
      exact (h.opening j k n hpc hmoved).of_unserved hserving hans
  · intro j k hpc
    rw [hclient] at hpc
    exact (h.reading j k hpc).of_unserved hserving hans

/-- The server closes it. -/
theorem writeEnds_close (h : WriteEnds s) {ino : Nat} (hholds : ∀ k, s.server.Holds k ↔ k = ino)
    (hnext : s'.next = s.next) (hfifo : s'.fifo = Function.update s.fifo ino (s.fifo ino).closeWr)
    (hnone : ∀ k, ¬ s'.server.Holds k) : WriteEnds s' := by
  have hheld : s.server.Holds ino := (hholds ino).mpr rfl
  constructor
  · exact fun k _ hk => absurd hk (hnone k)
  · intro k hk _
    rw [hnext] at hk
    rw [hfifo]
    by_cases hkino : k = ino
    · rw [hkino, Function.update_self]
      refine (Fifo.discard_writers _).trans ?_
      show (s.fifo ino).writers - 1 = 0
      rw [h.held ino (h.lt ino hheld) hheld]
    · rw [Function.update_of_ne hkino]
      exact h.free k hk fun hheld => hkino ((hholds k).mp hheld)
  · exact fun k hk => absurd hk (hnone k)

theorem eofInv_close (h : EofInv s) {ino : Nat} (hserving : s.server.serving = none)
    (hleaving : s.server.leaving = some ino) (hclient : s'.client = s.client)
    (hnext : s'.next = s.next) (hans : s'.answers = s.answers)
    (hfifo : s'.fifo = Function.update s.fifo ino (s.fifo ino).closeWr)
    (hserving' : s'.server.serving = none) (hleaving' : s'.server.leaving = none) : EofInv s' := by
  have hholds : ∀ k, s.server.Holds k ↔ k = ino := by
    intro k
    rw [ServerPc.Holds, hserving, hleaving, Option.some.injEq]
    exact ⟨fun hk => (hk.resolve_left nofun).symm, fun hk => .inr hk.symm⟩
  have hends := writeEnds_close h.ends hholds hnext hfifo (ServerPc.not_holds hserving' hleaving')
  refine ⟨hends.held, hends.free, hends.lt, ?_, ?_⟩
  · intro j k n hpc hmoved
    rw [hclient] at hpc
    rw [hfifo] at hmoved
    refine (h.opening j k n hpc ?_).of_unserved hserving hans
    by_cases hkino : k = ino
    · rw [hkino, Function.update_self] at hmoved
      rw [hkino]
      exact fun heq => hmoved ((Fifo.discard_wOpens _).trans heq)
    · rwa [Function.update_of_ne hkino] at hmoved
  · intro j k hpc
    rw [hclient] at hpc
    exact (h.reading j k hpc).of_unserved hserving hans

/-- The server writes the response, to the one client that has this FIFO open. -/
theorem eofInv_write {ino : Nat} {req : Request} (h : EofInv s) (hinv : Inv s)
    (hpc : s.server = .write ino req) (hstep : stepServer cfg s = some s') : EofInv s' := by
  have hserver := hinv.server
  have hpending : s.server.pending = 1 := by rw [hpc]; rfl
  simp only [ServerInv, hpc] at hserver
  obtain ⟨i, hcur, -, hdir, hr⟩ := hserver
  have hlive : (s.client i).pc.Live := (hinv.current_awaiting hcur).1.owns.live
  have hserving : s.server.serving = some ino := by rw [hpc]; rfl
  simp only [stepServer, hpc, if_neg hr, hinv.getD_current hcur hpending] at hstep
  split at hstep
  · cases hstep
    have hatt : ∀ j k, ((∃ n, (s.client j).pc = .openingOwn k n) ∨ (s.client j).pc = .read k) →
        Attended s j k → ∃ v, ∃ a ∈ s.answers ++ [⟨i, s.seqNum, req.seqLen⟩],
          a.client = j ∧ a.seqNum = v := by
      rintro j k hj (⟨v, a, ha, hv⟩ | hk)
      · exact ⟨v, a, List.mem_append_left _ ha, hv⟩
      · obtain ⟨hlivej, hdirj, -⟩ := hinv.own_of_opened hj
        rw [hserving, Option.some.injEq] at hk
        rw [← hk] at hdirj
        have hpid := clientFifo_injective (hinv.dir.inj _ _ _ hdirj hdir)
        have hji := hinv.pids j i hlivej hlive hpid
        exact ⟨s.seqNum, ⟨i, s.seqNum, req.seqLen⟩, by simp, hji.symm, rfl⟩
    have hopens : SameOpens s (s.setFifo ino ((s.fifo ino).write (encodeInt s.seqNum))) :=
      sameOpens_setFifo rfl rfl rfl rfl
    have hends : WriteEnds { s.setFifo ino ((s.fifo ino).write (encodeInt s.seqNum)) with
        answers := s.answers ++ [⟨i, s.seqNum, req.seqLen⟩]
        server := .add ino req } := by
      refine writeEnds_of_server h.ends rfl (field_update Fifo.writers rfl) fun k => ?_
      rw [hpc]
      exact or_comm
    refine ⟨hends.held, hends.free, hends.lt, ?_, ?_⟩
    · intro j k n hj hmoved
      obtain ⟨-, hdirj, -⟩ := hinv.own_of_opened (.inl ⟨n, hj⟩)
      have hsame := hopens.wOpens k (hinv.dir.lt _ _ hdirj)
      refine .inl (hatt j k (.inl ⟨n, hj⟩) (h.opening j k n hj fun heq => hmoved ?_))
      exact hsame.trans heq
    · exact fun j k hj => .inl (hatt j k (.inr hj) (h.reading j k hj))
  · cases hstep

theorem eofInv_handle {req : Request} (h : EofInv s) (hinv : Inv s)
    (hpc : s.server = .handle req) (hstep : stepServer cfg s = some s') : EofInv s' := by
  have hserving : s.server.serving = none := by rw [hpc]; rfl
  have hleaving : s.server.leaving = none := by rw [hpc]; rfl
  simp only [stepServer, hpc] at hstep
  split at hstep
  · cases hstep
    exact eofInv_of_server h rfl rfl rfl rfl hserving.symm hleaving.symm
  · next ino hino =>
    have hlt := hinv.dir.lt _ _ hino
    split at hstep <;> cases hstep <;>
      exact eofInv_open h hlt hserving hleaving rfl rfl rfl rfl rfl rfl

theorem eofInv_stepServer (h : EofInv s) (hinv : Inv s) (hstep : stepServer cfg s = some s') :
    EofInv s' := by
  cases hpc : s.server with
  | mkfifo | signal | add =>
    simp only [stepServer, hpc, Option.some.injEq] at hstep
    subst hstep
    exact eofInv_of_server h rfl rfl rfl rfl (by rw [hpc]; rfl) (by rw [hpc]; rfl)
  | openRd =>
    simp only [stepServer, hpc, Option.some.injEq] at hstep
    subst hstep
    refine eofInv_of_server h rfl rfl rfl rfl ?_ ?_
    · rw [hpc]
      simp only
      split <;> rfl
    · rw [hpc]
      simp only
      split <;> rfl
  | openingRd | openDummy | opening =>
    simp only [stepServer, hpc] at hstep
    split at hstep
    · cases hstep
      exact eofInv_of_server h rfl rfl rfl rfl (by rw [hpc]; rfl) (by rw [hpc]; rfl)
    · cases hstep
  | loop =>
    simp only [stepServer, hpc] at hstep
    split at hstep
    · cases hstep
    · cases hstep
      refine eofInv_of_server h rfl rfl rfl rfl ?_ ?_
      · rw [hpc]
        simp only
        split <;> rfl
      · rw [hpc]
        simp only
        split <;> rfl
  | handle req => exact eofInv_handle h hinv hpc hstep
  | write ino req => exact eofInv_write h hinv hpc hstep
  | close ino =>
    simp only [stepServer, hpc, Option.some.injEq] at hstep
    subst hstep
    exact eofInv_close h (by rw [hpc]; rfl) (by rw [hpc]; rfl) rfl rfl rfl rfl rfl rfl

theorem eofInv_step {e : Event} (h : EofInv s) (hinv : Inv s) (hok : Prompt s e)
    (hstep : step cfg s e = some s') : EofInv s' := by
  cases e with
  | spawn i pid seqLen =>
    simp only [step] at hstep
    split at hstep
    · cases hstep
      exact eofInv_spawn h hinv pid seqLen
    · cases hstep
  | server => exact eofInv_stepServer h hinv hstep
  | client i => exact eofInv_move h hinv (move_of_stepClient hstep) hok.2
  | fail i => exact absurd hok id
  | kill i =>
    refine eofInv_move h hinv (move_of_killClient hstep) fun hpc => absurd ?_ hok
    rw [hpc]
    trivial

/-- **The end of file is never met.**  A run in which no client opens its FIFO while the
server has it open from the response to a client before is an orderly one, and no client
comes to a `read` that returns 0. -/
theorem reads_no_eof (h : (system cfg).ReachBy Prompt s) :
    (system cfg).ReachBy Orderly s ∧
      ∀ i ino, (s.client i).pc = .read ino → ¬ (s.fifo ino).AtEof := by
  suffices hinv : (system cfg).ReachBy Orderly s ∧ Inv s ∧ EofInv s from
    ⟨hinv.1, fun _ _ => hinv.2.2.not_atEof hinv.2.1⟩
  induction h with
  | init => exact ⟨.init, inv_init, eofInv_init⟩
  | step e _ hok hstep ih =>
    obtain ⟨hreach, hinv, heof⟩ := ih
    have horderly := heof.orderly hinv hok
    exact ⟨.step e hreach horderly hstep, inv_step hinv horderly hstep,
      eofInv_step heof hinv hok hstep⟩

end Tlpi.Seqnum
