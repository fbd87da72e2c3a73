import Mathlib.Logic.Function.Basic
import Tlpi.Lib.System
import Tlpi.Lib.Fifo
import Tlpi.Lib.Endian

/-!
# The sequence-number server and its clients

`chapter44/fifo_seqnum_server.c` and `chapter44/fifo_seqnum_client.c`.  A client makes a
FIFO that is named after its PID, writes a request to the server's FIFO, opens its own
FIFO and reads the response from it.  The server reads one request after another, opens
the FIFO of the client that the request names, writes the current sequence number to it,
and adds the length that was asked for.

Clients are numbered, in the order in which they start or in any other way; a number is
never used again, while a PID may be, once the client that had it is dead.  A
FIFO is an inode, to which a name in the file system may or may not lead: a client that
ends removes the name of its FIFO, and one that is killed leaves it, for the next client
with that PID to find.

A label names the process that takes a step.  A step of a client is the next call of its
program, with the answer that the state of the FIFOs gives; `fail` lets the call fail for
some other reason, and `kill` is a signal.  A write of at most `PIPE_BUF` bytes is atomic
and waits until it fits.

The last three fields of the state are a record of what has happened, which no process
reads: who has sent a request, in the order in which the requests went into the FIFO;
what the server's calls to `read` have returned; and the responses it has written, each
with the client whose request was being handled.
-/

namespace Tlpi.Seqnum

open Tlpi.Lib

/-- `struct request`. -/
structure Request where
  pid : BitVec 32
  seqLen : BitVec 32
  deriving DecidableEq, Repr

def Request.encode (r : Request) : Bytes := encodeInt r.pid ++ encodeInt r.seqLen

def Request.decode (b : Bytes) : Request := ⟨decodeInt (b.take 4), decodeInt (b.drop 4)⟩

@[simp] theorem Request.length_encode (r : Request) : r.encode.length = 8 := by
  rw [encode, List.length_append, length_encodeInt, length_encodeInt]

@[simp] theorem Request.decode_encode (r : Request) : Request.decode r.encode = r := by
  simp [encode, decode, List.take_left', List.drop_left']

/-- `snprintf(clientFifo, CLIENT_FIFO_NAME_LEN, CLIENT_FIFO_TEMPLATE, (long) pid)`. -/
def clientFifo (pid : BitVec 32) : String := "/tmp/seqnum_client." ++ toString pid.toInt

/-- Descriptors of a client: none, the server's FIFO for writing, its own for reading. -/
inductive Held
  | none
  | server
  | own (ino : Nat)
  deriving DecidableEq, Repr

/-- Where a client is: at a call, or asleep in `open` until the counter named has moved.
`unlink` is the exit handler, and `leave` the end of the process. -/
inductive ClientPc
  | unborn
  | create
  | register
  | openServer
  | openingServer (n : Nat)
  | send
  | closeServer
  | openOwn
  | openingOwn (ino n : Nat)
  | read (ino : Nat)
  | closeOwn (ino : Nat)
  | unlink (h : Held)
  | leave (h : Held)
  | dead
  deriving DecidableEq, Repr

/-- A client; `got` is the sequence number it has read. -/
structure Client where
  pid : BitVec 32
  seqLen : BitVec 32
  pc : ClientPc
  got : Option (BitVec 32)
  deriving DecidableEq, Repr

def Client.request (c : Client) : Request := ⟨c.pid, c.seqLen⟩

/-- Where the server is.  `handle` has read a request; `opening`, `write`, `add` and
`close` are the further calls for it. -/
inductive ServerPc
  | mkfifo
  | openRd
  | openingRd (n : Nat)
  | openDummy
  | signal
  | loop
  | handle (req : Request)
  | opening (ino n : Nat) (req : Request)
  | write (ino : Nat) (req : Request)
  | add (ino : Nat) (req : Request)
  | close (ino : Nat)
  deriving DecidableEq, Repr

/-- A response that has been written, with the client whose request was handled and the
length that it had asked for. -/
structure Answer where
  client : Nat
  seqNum : BitVec 32
  seqLen : BitVec 32
  deriving DecidableEq, Repr

structure State where
  srvExists : Bool
  srv : Fifo
  fifo : Nat → Fifo
  next : Nat
  dir : String → Option Nat
  server : ServerPc
  seqNum : BitVec 32
  client : Nat → Client
  sent : List Nat
  reads : List Bytes
  answers : List Answer

namespace State

def setPc (s : State) (i : Nat) (pc : ClientPc) : State :=
  { s with client := Function.update s.client i { s.client i with pc := pc } }

def setFifo (s : State) (ino : Nat) (f : Fifo) : State :=
  { s with fifo := Function.update s.fifo ino f }

/-- The kernel closes what a client has open. -/
def release (s : State) : Held → State
  | .none => s
  | .server => { s with srv := s.srv.closeWr }
  | .own ino => s.setFifo ino (s.fifo ino).closeRd

end State

def ClientPc.held : ClientPc → Held
  | .openingServer _ | .send | .closeServer => .server
  | .openingOwn ino _ | .read ino | .closeOwn ino => .own ino
  | .unlink h | .leave h => h
  | _ => .none

/-- The capacity of a FIFO, enough for a request, and whether the server's FIFO is there
before the server starts. -/
structure Config where
  capacity : Nat
  preexisting : Bool
  le_capacity : 8 ≤ capacity

/-- The next call of client `i`. -/
def stepClient (cfg : Config) (s : State) (i : Nat) : Option State :=
  let c := s.client i
  match c.pc with
  | .unborn => none
  | .create =>
      match s.dir (clientFifo c.pid) with
      | some _ => some (s.setPc i .register)
      | none =>
          some { s.setPc i .register with
            dir := Function.update s.dir (clientFifo c.pid) (some s.next)
            fifo := Function.update s.fifo s.next .empty
            next := s.next + 1 }
  | .register => some (s.setPc i .openServer)
  | .openServer =>
      if s.srvExists then
        some { s.setPc i (if s.srv.readers = 0 then .openingServer s.srv.rOpens else .send) with
          srv := s.srv.openWr }
      else some (s.setPc i (.unlink .none))
  | .openingServer n => if s.srv.rOpens ≠ n then some (s.setPc i .send) else none
  | .send =>
      if s.srv.readers = 0 then some ((s.release .server).setPc i .dead)
      else if s.srv.data.length + 8 ≤ cfg.capacity then
        some { s.setPc i .closeServer with
          srv := s.srv.write c.request.encode
          sent := s.sent ++ [i] }
      else none
  | .closeServer => some ((s.release .server).setPc i .openOwn)
  | .openOwn =>
      match s.dir (clientFifo c.pid) with
      | none => some (s.setPc i (.unlink .none))
      | some ino =>
          some ((s.setFifo ino (s.fifo ino).openRd).setPc i
            (if (s.fifo ino).writers = 0 then .openingOwn ino (s.fifo ino).wOpens else .read ino))
  | .openingOwn ino n => if (s.fifo ino).wOpens ≠ n then some (s.setPc i (.read ino)) else none
  | .read ino =>
      if (s.fifo ino).data = [] ∧ (s.fifo ino).writers ≠ 0 then none
      else
        let b := (s.fifo ino).data.take 4
        let s' := s.setFifo ino ((s.fifo ino).drop 4)
        if b.length = 4 then
          some { s' with
            client := Function.update s'.client i
              { c with pc := .closeOwn ino, got := some (decodeInt b) } }
        else some (s'.setPc i (.unlink (.own ino)))
  | .closeOwn ino => some ((s.release (.own ino)).setPc i (.unlink .none))
  | .unlink h =>
      some { s.setPc i (.leave h) with dir := Function.update s.dir (clientFifo c.pid) none }
  | .leave h => some ((s.release h).setPc i .dead)
  | .dead => none

/-- The call that client `i` is at fails: it exits, and the exit handler runs if it has
been registered. -/
def failClient (s : State) (i : Nat) : Option State :=
  match (s.client i).pc with
  | .create | .register => some (s.setPc i (.leave .none))
  | .openServer | .openOwn => some (s.setPc i (.unlink .none))
  | .openingServer _ | .closeServer => some ((s.release .server).setPc i (.unlink .none))
  | .send => some (s.setPc i (.unlink .server))
  | .openingOwn ino _ | .closeOwn ino => some ((s.release (.own ino)).setPc i (.unlink .none))
  | .read ino => some (s.setPc i (.unlink (.own ino)))
  | _ => none

def ClientPc.Live (pc : ClientPc) : Prop := pc ≠ .unborn ∧ pc ≠ .dead

instance (pc : ClientPc) : Decidable pc.Live := inferInstanceAs (Decidable (_ ∧ _))

/-- A signal kills client `i`. -/
def killClient (s : State) (i : Nat) : Option State :=
  if (s.client i).pc.Live then some ((s.release (s.client i).pc.held).setPc i .dead) else none

/-- Somebody starts client `i`. -/
def spawn (s : State) (i : Nat) (pid seqLen : BitVec 32) : State :=
  { s with client := Function.update s.client i ⟨pid, seqLen, .create, none⟩ }

/-- The next call of the server. -/
def stepServer (cfg : Config) (s : State) : Option State :=
  match s.server with
  | .mkfifo => some { s with srvExists := true, server := .openRd }
  | .openRd =>
      some { s with
        srv := s.srv.openRd
        server := if s.srv.writers = 0 then .openingRd s.srv.wOpens else .openDummy }
  | .openingRd n => if s.srv.wOpens ≠ n then some { s with server := .openDummy } else none
  | .openDummy =>
      if s.srv.readers ≠ 0 then some { s with srv := s.srv.openWr, server := .signal } else none
  | .signal => some { s with server := .loop }
  | .loop =>
      if s.srv.data = [] ∧ s.srv.writers ≠ 0 then none
      else
        let b := s.srv.data.take 8
        some { s with
          srv := s.srv.drop 8
          reads := s.reads ++ [b]
          server := if b.length = 8 then .handle (Request.decode b) else .loop }
  | .handle req =>
      match s.dir (clientFifo req.pid) with
      | none => some { s with server := .loop }
      | some ino =>
          some { s.setFifo ino (s.fifo ino).openWr with
            server :=
              if (s.fifo ino).readers = 0 then .opening ino (s.fifo ino).rOpens req
              else .write ino req }
  | .opening ino n req =>
      if (s.fifo ino).rOpens ≠ n then some { s with server := .write ino req } else none
  | .write ino req =>
      if (s.fifo ino).readers = 0 then some { s with server := .add ino req }
      else if (s.fifo ino).data.length + 4 ≤ cfg.capacity then
        some { s.setFifo ino ((s.fifo ino).write (encodeInt s.seqNum)) with
          answers := s.answers ++ [⟨s.sent.getD (s.reads.length - 1) 0, s.seqNum, req.seqLen⟩]
          server := .add ino req }
      else none
  | .add ino req => some { s with seqNum := s.seqNum + req.seqLen, server := .close ino }
  | .close ino => some { s.setFifo ino (s.fifo ino).closeWr with server := .loop }

inductive Event
  | spawn (i : Nat) (pid seqLen : BitVec 32)
  | server
  | client (i : Nat)
  | fail (i : Nat)
  | kill (i : Nat)
  deriving DecidableEq, Repr

def step (cfg : Config) (s : State) : Event → Option State
  | .spawn i pid seqLen => if (s.client i).pc = .unborn then some (spawn s i pid seqLen) else none
  | .server => stepServer cfg s
  | .client i => stepClient cfg s i
  | .fail i => failClient s i
  | .kill i => killClient s i

/-- Before the server's `mkfifo`. -/
def init (cfg : Config) : State where
  srvExists := cfg.preexisting
  srv := .empty
  fifo _ := .empty
  next := 0
  dir _ := none
  server := .mkfifo
  seqNum := 0
  client _ := ⟨0, 0, .unborn, none⟩
  sent := []
  reads := []
  answers := []

def system (cfg : Config) : System State Event := ⟨init cfg, step cfg⟩

/-! ### What a step of a client leaves alone -/

/-- The server and its record. -/
structure SameServer (s s' : State) : Prop where
  server : s'.server = s.server
  seqNum : s'.seqNum = s.seqNum
  reads : s'.reads = s.reads
  answers : s'.answers = s.answers

theorem sameServer_release_setPc (s : State) (h : Held) (i : Nat) (pc : ClientPc) :
    SameServer s ((s.release h).setPc i pc) := by
  cases h <;> exact ⟨rfl, rfl, rfl, rfl⟩

theorem sameServer_stepClient {cfg : Config} {s s' : State} {i : Nat}
    (h : stepClient cfg s i = some s') : SameServer s s' := by
  simp only [stepClient] at h
  repeat' split at h
  all_goals
    first
      | cases h; done
      | cases h; exact ⟨rfl, rfl, rfl, rfl⟩
      | cases h; exact sameServer_release_setPc ..

theorem sameServer_failClient {s s' : State} {i : Nat} (h : failClient s i = some s') :
    SameServer s s' := by
  simp only [failClient] at h
  split at h
  all_goals
    first
      | cases h; done
      | cases h; exact ⟨rfl, rfl, rfl, rfl⟩

theorem sameServer_killClient {s s' : State} {i : Nat} (h : killClient s i = some s') :
    SameServer s s' := by
  simp only [killClient] at h
  split at h
  · cases h
    exact sameServer_release_setPc ..
  · cases h

/-- Whatever is not a step of the server. -/
theorem sameServer_step {cfg : Config} {s s' : State} {e : Event} (he : e ≠ .server)
    (h : step cfg s e = some s') : SameServer s s' := by
  cases e with
  | spawn i pid seqLen =>
    simp only [step] at h
    split at h
    · cases h
      exact ⟨rfl, rfl, rfl, rfl⟩
    · cases h
  | server => exact absurd rfl he
  | client i => exact sameServer_stepClient h
  | fail i => exact sameServer_failClient h
  | kill i => exact sameServer_killClient h

end Tlpi.Seqnum
