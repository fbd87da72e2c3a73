import Mathlib
import Tlpi.Seqnum.Model

/-!
# The invariant of the protocol

The state of the whole system is tied together by who owns which FIFO.

* `QueueInv`: what is in the server's FIFO is the requests that have been sent and not
  read yet, and the responses go to the senders in the order of the requests.
* `ClientInv`: a client by itself, call by call.  While it waits, its FIFO is empty, or
  holds the response to its own request and nothing else.
* `DirInv`, `StaleInv`: no two names lead to one inode, and a FIFO that a killed client has
  left behind is empty.
* `ServerInv`: the request that is being handled is the next one to be answered, and the
  FIFO that the server has opened is its sender's.

Runs are those in which the calls of the clients succeed, PIDs are unique among live
clients, and no client is killed while it waits for its response (`Orderly`).
-/

namespace Tlpi.Seqnum

open Tlpi.Lib

/-! ### Orderly runs -/

/-- A client that has sent its request and has not read the response. -/
def ClientPc.Awaiting : ClientPc → Prop
  | .closeServer | .openOwn | .openingOwn _ _ | .read _ => True
  | _ => False

instance : ∀ pc : ClientPc, Decidable pc.Awaiting
  | .closeServer | .openOwn | .openingOwn _ _ | .read _ => instDecidableTrue
  | .unborn | .create | .register | .openServer | .openingServer _ | .send
  | .closeOwn _ | .unlink _ | .leave _ | .dead => instDecidableFalse

/-- A client whose FIFO has its name. -/
def ClientPc.Owns : ClientPc → Prop
  | .unborn | .create | .leave _ | .dead => False
  | _ => True

/-- No live client has this PID. -/
def Free (s : State) (pid : BitVec 32) : Prop := ∀ j, (s.client j).pc.Live → (s.client j).pid ≠ pid

/-- The call that client `i` is at fails: a FIFO to be opened is not there, nobody reads
what is written, or there is nothing to read and nobody who writes. -/
def CallFails (s : State) (i : Nat) : Prop :=
  match (s.client i).pc with
  | .openServer => s.srvExists = false
  | .send => s.srv.readers = 0
  | .openOwn => s.dir (clientFifo (s.client i).pid) = none
  | .read ino => (s.fifo ino).AtEof
  | _ => False

instance (s : State) (i : Nat) : Decidable (CallFails s i) :=
  show Decidable (match (s.client i).pc with
    | .openServer => s.srvExists = false
    | .send => s.srv.readers = 0
    | .openOwn => s.dir (clientFifo (s.client i).pid) = none
    | .read ino => (s.fifo ino).AtEof
    | _ => False) from
  match (s.client i).pc with
  | .openServer => inferInstanceAs (Decidable (s.srvExists = false))
  | .send => inferInstanceAs (Decidable (s.srv.readers = 0))
  | .openOwn => inferInstanceAs (Decidable (s.dir (clientFifo (s.client i).pid) = none))
  | .read ino => inferInstanceAs (Decidable (s.fifo ino).AtEof)
  | .unborn | .create | .register | .openingServer _ | .closeServer | .openingOwn _ _
  | .closeOwn _ | .unlink _ | .leave _ | .dead => instDecidableFalse

/-- The steps of the runs in question. -/
def Orderly (s : State) : Event → Prop
  | .spawn _ pid _ => Free s pid
  | .server => True
  | .client i => ¬ CallFails s i
  | .fail _ => False
  | .kill i => ¬ (s.client i).pc.Awaiting

/-! ### The parts -/

theorem clientFifo_injective {p q : BitVec 32} (h : clientFifo p = clientFifo q) : p = q := by
  have hrepr : toString p.toInt = toString q.toInt := (String.append_right_inj _).mp h
  exact BitVec.eq_of_toInt_eq (Int.repr_injective hrepr)

/-- The request of client `i` as it goes through the server's FIFO. -/
def State.encoded (s : State) (i : Nat) : Bytes := (s.client i).request.encode

/-- Requests that have been read and not answered. -/
def ServerPc.pending : ServerPc → Nat
  | .handle _ | .opening _ _ _ | .write _ _ => 1
  | _ => 0

/-- Whether the server has its FIFO open for reading. -/
def ServerPc.opened : ServerPc → Nat
  | .mkfifo | .openRd => 0
  | _ => 1

/-- Whether it has it open for writing, too. -/
def ServerPc.dummy : ServerPc → Nat
  | .mkfifo | .openRd | .openingRd _ | .openDummy => 0
  | _ => 1

structure QueueInv (s : State) : Prop where
  le : s.reads.length ≤ s.sent.length
  reads : s.reads = (s.sent.take s.reads.length).map s.encoded
  data : s.srv.data = (s.sent.drop s.reads.length).flatMap s.encoded
  nodup : s.sent.Nodup
  answers : s.answers.map Answer.client = s.sent.take s.answers.length
  count : s.answers.length + s.server.pending = s.reads.length
  readers : s.srv.readers = s.server.opened
  rOpens : s.srv.rOpens = s.server.opened
  unopened : s.server.opened = 0 → s.sent = []

/-- Those who have the server's FIFO open for writing. -/
def WritersInv (s : State) : Prop :=
  ∃ H : Finset Nat, (∀ i, i ∈ H ↔ (s.client i).pc.held = .server) ∧
    s.srv.writers = s.server.dummy + H.card

structure DirInv (s : State) : Prop where
  inj : ∀ n m ino, s.dir n = some ino → s.dir m = some ino → n = m
  lt : ∀ n ino, s.dir n = some ino → ino < s.next

/-- A response to client `i`, with this number, has been written. -/
def Answered (s : State) (i : Nat) (v : BitVec 32) : Prop :=
  ∃ a ∈ s.answers, a.client = i ∧ a.seqNum = v

/-- The name of client `i` leads to `ino`, with so many readers and these bytes. -/
structure Own (s : State) (i ino readers : Nat) (data : Bytes) : Prop where
  dir : s.dir (clientFifo (s.client i).pid) = some ino
  readers : (s.fifo ino).readers = readers
  data : (s.fifo ino).data = data

def Unsent (s : State) (i : Nat) : Prop := i ∉ s.sent ∧ (s.client i).got = none

def Waiting (s : State) (i : Nat) : Prop := i ∈ s.sent ∧ (s.client i).got = none

def Served (s : State) (i : Nat) : Prop :=
  i ∈ s.sent ∧ ∃ v, (s.client i).got = some v ∧ Answered s i v

/-- A client by itself, call by call. -/
def ClientInv (s : State) (i : Nat) : Prop :=
  match (s.client i).pc with
  | .unborn | .create => Unsent s i
  | .register | .openServer | .openingServer _ | .send => Unsent s i ∧ ∃ ino, Own s i ino 0 []
  | .closeServer | .openOwn =>
      Waiting s i ∧ (∀ v, ¬ Answered s i v) ∧ ∃ ino, Own s i ino 0 []
  | .openingOwn ino _ | .read ino =>
      Waiting s i ∧ ((∀ v, ¬ Answered s i v) ∧ Own s i ino 1 [] ∨
        ∃ v, Answered s i v ∧ Own s i ino 1 (encodeInt v))
  | .closeOwn ino => Served s i ∧ Own s i ino 1 []
  | .unlink h => h = .none ∧ Served s i ∧ ∃ ino, Own s i ino 0 []
  | .leave h => h = .none ∧ Served s i
  | .dead => Unsent s i ∨ Served s i

/-- A FIFO whose name is left over from a client that is gone. -/
def StaleInv (s : State) : Prop :=
  ∀ pid ino, s.dir (clientFifo pid) = some ino →
    (∀ i, (s.client i).pid = pid → ¬ (s.client i).pc.Owns) →
      (s.fifo ino).readers = 0 ∧ (s.fifo ino).data = []

/-- The client whose request is the next to be answered. -/
def State.current (s : State) : Option Nat := s.sent[s.answers.length]?

/-- The request that is being handled, and the FIFO that has been opened for it. -/
def ServerInv (s : State) : Prop :=
  match s.server with
  | .handle req => ∃ i, s.current = some i ∧ req = (s.client i).request
  | .opening ino n req => ∃ i, s.current = some i ∧ req = (s.client i).request ∧
      s.dir (clientFifo (s.client i).pid) = some ino ∧
      ((s.fifo ino).readers = 0 → (s.fifo ino).rOpens = n)
  | .write ino req => ∃ i, s.current = some i ∧ req = (s.client i).request ∧
      s.dir (clientFifo (s.client i).pid) = some ino ∧ (s.fifo ino).readers ≠ 0
  | _ => True

structure Inv (s : State) : Prop where
  queue : QueueInv s
  writers : WritersInv s
  dir : DirInv s
  pids : ∀ i j, (s.client i).pc.Live → (s.client j).pc.Live →
    (s.client i).pid = (s.client j).pid → i = j
  clients : ∀ i, ClientInv s i
  stale : StaleInv s
  server : ServerInv s

/-! ### Frames -/

section Frames

variable {s s' : State} {i j : Nat}

theorem ClientPc.Owns.live {pc : ClientPc} (h : pc.Owns) : pc.Live := by
  cases pc <;> simp_all [ClientPc.Owns, ClientPc.Live]

theorem ClientPc.Awaiting.owns {pc : ClientPc} (h : pc.Awaiting) : pc.Owns := by
  cases pc <;> simp_all [ClientPc.Owns, ClientPc.Awaiting]

/-- The FIFO of an owner has bytes only while the owner has it open. -/
theorem ClientInv.own (h : ClientInv s i) (ho : (s.client i).pc.Owns) :
    ∃ ino readers data, Own s i ino readers data ∧ (readers = 0 → data = []) := by
  rw [ClientInv] at h
  cases hpc : (s.client i).pc <;> simp only [hpc, ClientPc.Owns] at h ho
  case register | openServer | openingServer | send =>
    obtain ⟨-, ino, hown⟩ := h
    exact ⟨ino, _, _, hown, fun _ => rfl⟩
  case closeServer | openOwn =>
    obtain ⟨-, -, ino, hown⟩ := h
    exact ⟨ino, _, _, hown, fun _ => rfl⟩
  case openingOwn ino n =>
    obtain ⟨-, ⟨-, hown⟩ | ⟨v, -, hown⟩⟩ := h
    · exact ⟨ino, _, _, hown, fun _ => rfl⟩
    · exact ⟨ino, _, _, hown, nofun⟩
  case read ino =>
    obtain ⟨-, ⟨-, hown⟩ | ⟨v, -, hown⟩⟩ := h
    · exact ⟨ino, _, _, hown, fun _ => rfl⟩
    · exact ⟨ino, _, _, hown, nofun⟩
  case closeOwn ino => exact ⟨ino, _, _, h.2, fun _ => rfl⟩
  case unlink =>
    obtain ⟨-, -, ino, hown⟩ := h
    exact ⟨ino, _, _, hown, fun _ => rfl⟩

/-- What `ClientInv` looks at. -/
theorem clientInv_of_eq (h : ClientInv s j) (hc : s'.client j = s.client j)
    (hsent : j ∈ s'.sent ↔ j ∈ s.sent) (hans : ∀ v, Answered s' j v ↔ Answered s j v)
    (hown : (s.client j).pc.Owns → ∀ ino, s.dir (clientFifo (s.client j).pid) = some ino →
      s'.dir (clientFifo (s.client j).pid) = some ino ∧
        (s'.fifo ino).readers = (s.fifo ino).readers ∧ (s'.fifo ino).data = (s.fifo ino).data) :
    ClientInv s' j := by
  have hunsent : Unsent s j → Unsent s' j := by
    rintro ⟨h1, h2⟩
    exact ⟨fun hmem => h1 (hsent.mp hmem), by rw [hc]; exact h2⟩
  have hwaiting : Waiting s j → Waiting s' j := by
    rintro ⟨h1, h2⟩
    exact ⟨hsent.mpr h1, by rw [hc]; exact h2⟩
  have hserved : Served s j → Served s' j := by
    rintro ⟨h1, v, h2, h3⟩
    exact ⟨hsent.mpr h1, v, by rw [hc]; exact h2, (hans v).mpr h3⟩
  have hnot : (∀ v, ¬ Answered s j v) → ∀ v, ¬ Answered s' j v :=
    fun hn v hv => hn v ((hans v).mp hv)
  have hO : (s.client j).pc.Owns → ∀ {ino readers data}, Own s j ino readers data →
      Own s' j ino readers data := by
    intro ho ino readers data hown'
    obtain ⟨hdir, hr, hd⟩ := hown ho ino hown'.dir
    exact ⟨by rw [hc]; exact hdir, hr.trans hown'.readers, hd.trans hown'.data⟩
  rw [ClientInv] at h ⊢
  rw [hc]
  cases hpc : (s.client j).pc <;> simp only [hpc, ClientPc.Owns, forall_const] at h hO ⊢
  case unborn | create => exact hunsent h
  case register | openServer | openingServer | send =>
    obtain ⟨h1, ino, h2⟩ := h
    exact ⟨hunsent h1, ino, hO h2⟩
  case closeServer | openOwn =>
    obtain ⟨h1, h2, ino, h3⟩ := h
    exact ⟨hwaiting h1, hnot h2, ino, hO h3⟩
  case openingOwn | read =>
    obtain ⟨h1, ⟨h2, h3⟩ | ⟨v, h2, h3⟩⟩ := h
    · exact ⟨hwaiting h1, .inl ⟨hnot h2, hO h3⟩⟩
    · exact ⟨hwaiting h1, .inr ⟨v, (hans v).mpr h2, hO h3⟩⟩
  case closeOwn => exact ⟨hserved h.1, hO h.2⟩
  case unlink =>
    obtain ⟨h1, h2, ino, h3⟩ := h
    exact ⟨h1, hserved h2, ino, hO h3⟩
  case leave => exact ⟨h.1, hserved h.2⟩
  case dead => exact h.imp hunsent hserved

/-- A client that has sent its request and got no response is waiting, with an empty
FIFO. -/
theorem ClientInv.awaiting (h : ClientInv s i) (hsent : i ∈ s.sent) (hans : ∀ v, ¬ Answered s i v) :
    (s.client i).pc.Awaiting ∧ ∃ ino readers, Own s i ino readers [] := by
  rw [ClientInv] at h
  cases hpc : (s.client i).pc <;> simp only [hpc, ClientPc.Awaiting, true_and, false_and] at h ⊢
  case unborn | create => exact h.1 hsent
  case register | openServer | openingServer | send => exact h.1.1 hsent
  case closeServer | openOwn =>
    obtain ⟨-, -, ino, hown⟩ := h
    exact ⟨ino, _, hown⟩
  case openingOwn ino n =>
    obtain ⟨-, ⟨-, hown⟩ | ⟨v, hv, -⟩⟩ := h
    · exact ⟨ino, _, hown⟩
    · exact absurd hv (hans v)
  case read ino =>
    obtain ⟨-, ⟨-, hown⟩ | ⟨v, hv, -⟩⟩ := h
    · exact ⟨ino, _, hown⟩
    · exact absurd hv (hans v)
  case closeOwn =>
    obtain ⟨-, v, -, hv⟩ := h.1
    exact hans v hv
  case unlink | leave =>
    obtain ⟨-, v, -, hv⟩ : Served s i := by first | exact h.2.1 | exact h.2
    exact hans v hv
  case dead =>
    rcases h with h | ⟨-, v, -, hv⟩
    · exact h.1 hsent
    · exact hans v hv

/-- The next to be answered has not been answered. -/
theorem QueueInv.current (h : QueueInv s) (hcur : s.current = some i) :
    i ∈ s.sent ∧ ∀ v, ¬ Answered s i v := by
  refine ⟨List.mem_of_getElem? hcur, ?_⟩
  rintro v ⟨a, ha, rfl, -⟩
  have hmem : a.client ∈ s.sent.take s.answers.length := by
    rw [← h.answers]
    exact List.mem_map_of_mem ha
  obtain ⟨k, hk⟩ := List.mem_iff_getElem?.mp hmem
  rw [List.getElem?_take] at hk
  split at hk
  · next hlt =>
    have hne := List.nodup_iff_getElem?_ne_getElem?.mp h.nodup k s.answers.length hlt
      (List.getElem?_eq_some_iff.mp hcur).1
    exact hne (hk.trans hcur.symm)
  · cases hk

theorem queueInv_of_eq (h : QueueInv s) (hdata : s'.srv.data = s.srv.data)
    (hreaders : s'.srv.readers = s.srv.readers) (hrOpens : s'.srv.rOpens = s.srv.rOpens)
    (hsent : s'.sent = s.sent) (henc : ∀ i ∈ s.sent, s'.encoded i = s.encoded i)
    (hreads : s'.reads = s.reads) (hans : s'.answers = s.answers)
    (hpending : s'.server.pending = s.server.pending)
    (hopened : s'.server.opened = s.server.opened) : QueueInv s' := by
  have hmap : ∀ k, (s.sent.take k).map s'.encoded = (s.sent.take k).map s.encoded :=
    fun k => List.map_congr_left fun i hi => henc i (List.mem_of_mem_take hi)
  have hflat : ∀ k, (s.sent.drop k).flatMap s'.encoded = (s.sent.drop k).flatMap s.encoded := by
    intro k
    rw [List.flatMap_def, List.flatMap_def,
      List.map_congr_left fun i hi => henc i (List.mem_of_mem_drop hi)]
  constructor
  · rw [hreads, hsent]
    exact h.le
  · rw [hreads, hsent, hmap]
    exact h.reads
  · rw [hdata, hreads, hsent, hflat]
    exact h.data
  · rw [hsent]
    exact h.nodup
  · rw [hans, hsent]
    exact h.answers
  · rw [hans, hpending, hreads]
    exact h.count
  · rw [hreaders, hopened]
    exact h.readers
  · rw [hrOpens, hopened]
    exact h.rOpens
  · rw [hopened, hsent]
    exact h.unopened

/-- A request goes to the end of the queue. -/
theorem queueInv_send (h : QueueInv s) (hi : i ∉ s.sent) (hopen : s.server.opened ≠ 0)
    (hdata : s'.srv.data = s.srv.data ++ s.encoded i) (hreaders : s'.srv.readers = s.srv.readers)
    (hrOpens : s'.srv.rOpens = s.srv.rOpens) (hsent : s'.sent = s.sent ++ [i])
    (henc : s'.encoded = s.encoded) (hsame : SameServer s s') : QueueInv s' := by
  have hle := h.le
  have hcount := h.count
  constructor
  · rw [hsame.reads, hsent, List.length_append]
    omega
  · rw [hsame.reads, hsent, henc, List.take_append_of_le_length hle]
    exact h.reads
  · rw [hsame.reads, hsent, henc, hdata, List.drop_append_of_le_length hle, List.flatMap_append,
      List.flatMap_singleton, h.data]
  · rw [hsent, ← List.concat_eq_append]
    exact h.nodup.concat hi
  · rw [hsame.answers, hsent, List.take_append_of_le_length (by omega)]
    exact h.answers
  · rw [hsame.answers, hsame.server, hsame.reads]
    exact hcount
  · rw [hreaders, hsame.server]
    exact h.readers
  · rw [hrOpens, hsame.server]
    exact h.rOpens
  · rw [hsame.server]
    exact fun hz => absurd hz hopen

theorem writersInv_of_eq (h : WritersInv s) (hw : s'.srv.writers = s.srv.writers)
    (hd : s'.server.dummy = s.server.dummy)
    (hheld : ∀ i, (s'.client i).pc.held = .server ↔ (s.client i).pc.held = .server) :
    WritersInv s' := by
  obtain ⟨H, hH, hcard⟩ := h
  exact ⟨H, fun i => (hH i).trans (hheld i).symm, by rw [hw, hd]; exact hcard⟩

/-- Client `i` opens the server's FIFO. -/
theorem writersInv_open (h : WritersInv s) (hw : s'.srv.writers = s.srv.writers + 1)
    (hd : s'.server.dummy = s.server.dummy) (hi : (s.client i).pc.held ≠ .server)
    (hi' : (s'.client i).pc.held = .server) (hother : ∀ j, j ≠ i → s'.client j = s.client j) :
    WritersInv s' := by
  obtain ⟨H, hH, hcard⟩ := h
  refine ⟨insert i H, fun j => ?_, ?_⟩
  · rw [Finset.mem_insert]
    by_cases hj : j = i
    · simp [hj, hi']
    · rw [hother j hj, ← hH j]
      simp [hj]
  · rw [Finset.card_insert_of_notMem fun hmem => hi ((hH i).mp hmem), hw, hd, hcard]
    omega

/-- Client `i` closes it. -/
theorem writersInv_close (h : WritersInv s) (hw : s'.srv.writers = s.srv.writers - 1)
    (hd : s'.server.dummy = s.server.dummy) (hi : (s.client i).pc.held = .server)
    (hi' : (s'.client i).pc.held ≠ .server) (hother : ∀ j, j ≠ i → s'.client j = s.client j) :
    WritersInv s' := by
  obtain ⟨H, hH, hcard⟩ := h
  have hmem : i ∈ H := (hH i).mpr hi
  have hpos : 0 < H.card := Finset.card_pos.mpr ⟨i, hmem⟩
  refine ⟨H.erase i, fun j => ?_, ?_⟩
  · rw [Finset.mem_erase]
    by_cases hj : j = i
    · simp [hj, hi']
    · rw [hother j hj, ← hH j]
      simp [hj]
  · rw [Finset.card_erase_of_mem hmem, hw, hd, hcard]
    omega

/-- What a step of client `i` can touch: itself, its own name, the FIFO behind it, and the
end of the queue. -/
structure Footprint (s s' : State) (i : Nat) : Prop where
  same : SameServer s s'
  other : ∀ j, j ≠ i → s'.client j = s.client j
  request : (s'.client i).request = (s.client i).request
  sent : s'.sent = s.sent ∨ s'.sent = s.sent ++ [i]
  dir : ∀ n, n ≠ clientFifo (s.client i).pid → s'.dir n = s.dir n
  fifo : ∀ ino, ino < s.next → s.dir (clientFifo (s.client i).pid) ≠ some ino →
    s'.fifo ino = s.fifo ino

theorem Footprint.pid (h : Footprint s s' i) : (s'.client i).pid = (s.client i).pid :=
  congrArg Request.pid h.request

theorem Footprint.request_eq (h : Footprint s s' i) (j : Nat) :
    (s'.client j).request = (s.client j).request := by
  by_cases hj : j = i
  · rw [hj]
    exact h.request
  · rw [h.other j hj]

theorem Footprint.mem_sent (h : Footprint s s' i) (hj : j ≠ i) : j ∈ s'.sent ↔ j ∈ s.sent := by
  rcases h.sent with hs | hs
  · rw [hs]
  · rw [hs, List.mem_append, List.mem_singleton]
    simp [hj]

theorem Footprint.answered (h : Footprint s s' i) (j : Nat) (v : BitVec 32) :
    Answered s' j v ↔ Answered s j v := by
  rw [Answered, h.same.answers]
  rfl

theorem Footprint.current (h : Footprint s s' i) (hcur : s.current = some j) :
    s'.current = some j := by
  have hlt : s.answers.length < s.sent.length := (List.getElem?_eq_some_iff.mp hcur).1
  rw [State.current, h.same.answers]
  rcases h.sent with hs | hs
  · rw [hs]
    exact hcur
  · rw [hs, List.getElem?_append_left hlt]
    exact hcur

/-- Another name leads to another FIFO, which the step leaves alone. -/
theorem Footprint.frame (h : Footprint s s' i) (hd : DirInv s) {pid : BitVec 32}
    (hpid : pid ≠ (s.client i).pid) {ino : Nat} (hino : s.dir (clientFifo pid) = some ino) :
    s'.dir (clientFifo pid) = some ino ∧ s'.fifo ino = s.fifo ino := by
  have hname : clientFifo pid ≠ clientFifo (s.client i).pid :=
    fun heq => hpid (clientFifo_injective heq)
  refine ⟨(h.dir _ hname).trans hino, h.fifo ino (hd.lt _ _ hino) fun hi => ?_⟩
  exact hname (hd.inj _ _ _ hino hi)

/-- The client that is being served is waiting. -/
theorem Inv.current_awaiting (h : Inv s) (hcur : s.current = some i) :
    (s.client i).pc.Awaiting ∧ ∃ ino readers, Own s i ino readers [] := by
  obtain ⟨hsent, hans⟩ := h.queue.current hcur
  exact (h.clients i).awaiting hsent hans

/-- The server's part is about the client it serves: that it is still served, that it is
the same client, and that nobody takes its FIFO away or closes it. -/
theorem serverInv_of_current (h : ServerInv s) (hserver : s'.server = s.server)
    (hcur : ∀ j, s.current = some j → s'.current = some j ∧
      (s'.client j).request = (s.client j).request ∧
      ∀ ino, s.dir (clientFifo (s.client j).pid) = some ino →
        s'.dir (clientFifo (s'.client j).pid) = some ino ∧
          ((s'.fifo ino).readers = 0 →
            (s.fifo ino).readers = 0 ∧ (s'.fifo ino).rOpens = (s.fifo ino).rOpens)) :
    ServerInv s' := by
  rw [ServerInv] at h ⊢
  rw [hserver]
  cases hpc : s.server <;> simp only [hpc] at h ⊢
  case handle req =>
    obtain ⟨j, hj, hreq⟩ := h
    obtain ⟨hj', hsame, -⟩ := hcur j hj
    exact ⟨j, hj', by rw [hsame]; exact hreq⟩
  case opening ino n req =>
    obtain ⟨j, hj, hreq, hino, hn⟩ := h
    obtain ⟨hj', hsame, hframe⟩ := hcur j hj
    obtain ⟨hdir, hreaders⟩ := hframe ino hino
    refine ⟨j, hj', by rw [hsame]; exact hreq, hdir, fun hr => ?_⟩
    rw [(hreaders hr).2]
    exact hn (hreaders hr).1
  case write ino req =>
    obtain ⟨j, hj, hreq, hino, hn⟩ := h
    obtain ⟨hj', hsame, hframe⟩ := hcur j hj
    obtain ⟨hdir, hreaders⟩ := hframe ino hino
    exact ⟨j, hj', by rw [hsame]; exact hreq, hdir, fun hr => hn (hreaders hr).1⟩

/-- A step of client `i` may change where it is, its FIFO and the queue.  All other
clients, all other FIFOs and the server are out of its reach. -/
theorem inv_of_client (h : Inv s) (hf : Footprint s s' i) (hlive : (s.client i).pc.Live)
    (hqueue : QueueInv s') (hwriters : WritersInv s') (hdir : DirInv s') (hi : ClientInv s' i)
    (hstale : ¬ (s'.client i).pc.Owns → ∀ ino, s'.dir (clientFifo (s.client i).pid) = some ino →
      (s'.fifo ino).readers = 0 ∧ (s'.fifo ino).data = [])
    (hcur : s.current = some i → ∀ ino, s.dir (clientFifo (s.client i).pid) = some ino →
      s'.dir (clientFifo (s.client i).pid) = some ino ∧
        ((s'.fifo ino).readers = 0 →
          (s.fifo ino).readers = 0 ∧ (s'.fifo ino).rOpens = (s.fifo ino).rOpens)) :
    Inv s' := by
  have hpid : ∀ j, j ≠ i → (s.client j).pc.Live → (s.client j).pid ≠ (s.client i).pid :=
    fun j hj hl heq => hj (h.pids j i hl hlive heq)
  refine ⟨hqueue, hwriters, hdir, ?_, ?_, ?_, ?_⟩
  · intro j k hj hk heq
    have hback : ∀ j, (s'.client j).pc.Live → (s.client j).pc.Live := by
      intro j hj
      by_cases hji : j = i
      · rw [hji]
        exact hlive
      · rwa [hf.other j hji] at hj
    have hsame : ∀ j, (s'.client j).pid = (s.client j).pid :=
      fun j => congrArg Request.pid (hf.request_eq j)
    rw [hsame, hsame] at heq
    exact h.pids j k (hback j hj) (hback k hk) heq
  · intro j
    by_cases hj : j = i
    · rw [hj]
      exact hi
    · refine clientInv_of_eq (h.clients j) (hf.other j hj) (hf.mem_sent hj) (hf.answered j) ?_
      intro ho ino hino
      obtain ⟨h1, h2⟩ := hf.frame h.dir (hpid j hj ho.live) hino
      exact ⟨h1, by rw [h2], by rw [h2]⟩
  · intro pid ino hino hno
    by_cases hp : pid = (s.client i).pid
    · subst hp
      exact hstale (hno i hf.pid) ino hino
    · have hname : clientFifo pid ≠ clientFifo (s.client i).pid :=
        fun heq => hp (clientFifo_injective heq)
      rw [hf.dir _ hname] at hino
      obtain ⟨-, h2⟩ := hf.frame h.dir hp hino
      rw [h2]
      refine h.stale pid ino hino fun j hj => ?_
      have hji : j ≠ i := fun heq => hp (by rw [← hj, heq])
      have := hno j
      rw [hf.other j hji] at this
      exact this hj
  · refine serverInv_of_current h.server hf.same.server fun j hj => ?_
    refine ⟨hf.current hj, hf.request_eq j, fun ino hino => ?_⟩
    by_cases hji : j = i
    · subst hji
      rw [hf.pid]
      exact hcur hj ino hino
    · have hlive' := (h.current_awaiting hj).1.owns.live
      obtain ⟨h1, h2⟩ := hf.frame h.dir (hpid j hji hlive') hino
      rw [hf.other j hji, h2]
      exact ⟨h1, fun hr => ⟨hr, rfl⟩⟩

/-- A step of the server that moves no response: the FIFOs that names lead to keep their
readers and their bytes. -/
theorem inv_of_server (h : Inv s) (hclient : s'.client = s.client) (hsent : s'.sent = s.sent)
    (hans : s'.answers = s.answers) (hdir : s'.dir = s.dir) (hnext : s'.next = s.next)
    (hfifo : ∀ pid ino, s.dir (clientFifo pid) = some ino →
      (s'.fifo ino).readers = (s.fifo ino).readers ∧ (s'.fifo ino).data = (s.fifo ino).data)
    (hqueue : QueueInv s') (hwriters : WritersInv s') (hserver : ServerInv s') : Inv s' := by
  refine ⟨hqueue, hwriters, ?_, ?_, ?_, ?_, hserver⟩
  · constructor
    · rw [hdir]
      exact h.dir.inj
    · rw [hdir, hnext]
      exact h.dir.lt
  · rw [hclient]
    exact h.pids
  · intro j
    refine clientInv_of_eq (h.clients j) (by rw [hclient]) (by rw [hsent]) ?_ ?_
    · intro v
      rw [Answered, hans]
      rfl
    · intro _ ino hino
      rw [hdir]
      exact ⟨hino, hfifo _ ino hino⟩
  · intro pid ino hino hno
    rw [hdir] at hino
    rw [hclient] at hno
    obtain ⟨h1, h2⟩ := hfifo _ ino hino
    rw [h1, h2]
    exact h.stale pid ino hino hno

end Frames

end Tlpi.Seqnum
