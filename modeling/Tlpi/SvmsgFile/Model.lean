import Tlpi.Lib.CString
import Tlpi.Lib.System

/-!
# A file server over message queues

`svmsg/svmsg_file_server.c` waits for requests in a System V message queue and forks a child for
each of them, which sends the file back in messages.  `svmsg/svmsg_file_client.c` asks for one
file, and has a queue of its own for the answer.

Any number of clients may be started at any time; the server's parent, its children and the
clients are interleaved call by call.  A client is named by the identifier of its queue: `msgget`
gives one that has not been given before.  A queue holds `qbytes` bytes and as many messages, and
`msgsnd` waits for room.

`seen` and `sent` are no variables of the programs: they record the messages that a client has
taken from its queue and a child has put there.
-/

namespace Tlpi.SvmsgFile

open Tlpi.Lib

def PATH_MAX : Nat := 4096

/-- The size of a request: `clientId` and `pathname`. -/
def REQ_MSG_SIZE : Nat := 4 + PATH_MAX

def RESP_MSG_SIZE : Nat := 8192

/-- `struct requestMsg` -/
structure Request where
  clientId : Nat
  pathname : Bytes
  deriving DecidableEq, Repr

/-- The types of response messages. -/
inductive RespType
  | RESP_MT_FAILURE
  | RESP_MT_DATA
  | RESP_MT_END
  deriving DecidableEq, Repr

/-- `struct responseMsg`, as far as it is sent. -/
structure Response where
  mtype : RespType
  data : Bytes
  deriving DecidableEq, Repr

/-- The text of a failure, with its terminator. -/
def couldntOpen : Response := ⟨.RESP_MT_FAILURE, ascii "Couldn't open" ++ [0]⟩

def dataMsg (b : Bytes) : Response := ⟨.RESP_MT_DATA, b⟩

def endMsg : Response := ⟨.RESP_MT_END, []⟩

/-- How a client ends. -/
inductive Outcome
  /-- `Received %ld bytes (%d messages)` -/
  | received (totBytes numMsgs : Nat)
  | refused
  /-- `errExit` -/
  | failed
  deriving DecidableEq, Repr

/-- The next call of a client. -/
inductive ClientPc
  /-- `msgsnd` of the request -/
  | send
  /-- `msgrcv` of the first response -/
  | first
  /-- `resp.mtype == RESP_MT_DATA`, and then `msgrcv` -/
  | loop (mtype : RespType) (totBytes numMsgs : Nat)
  /-- `removeQueue` -/
  | remove (out : Outcome)
  | exited (out : Outcome)
  deriving DecidableEq, Repr

structure Client where
  pathname : Bytes
  pc : ClientPc
  /-- It has been killed. -/
  dead : Bool
  queue : Option (List Response)
  seen : List Response
  deriving DecidableEq

/-- The next call of a child of the server. -/
inductive ChildPc
  | opening
  /-- `read(fd, resp.data, RESP_MSG_SIZE)` -/
  | read
  /-- `msgsnd` of what has been read -/
  | sendData (b : Bytes)
  | sendEnd
  | sendFailure
  | exited
  deriving DecidableEq, Repr

structure Child where
  req : Request
  pc : ChildPc
  /-- What is left of the file. -/
  rest : Bytes
  sent : List Response
  readFailed : Bool
  killed : Bool
  deriving DecidableEq

/-- The next call of the server's parent. -/
inductive ParentPc
  /-- `msgrcv` -/
  | recv
  | fork (req : Request)
  /-- `msgctl(serverId, IPC_RMID, NULL)` -/
  | remove
  | exited
  deriving DecidableEq, Repr

structure State where
  serverQ : Option (List Request)
  parent : ParentPc
  children : List Child
  clients : List Client
  deriving DecidableEq

inductive Event
  /-- A client is started for a file. -/
  | start (pathname : Bytes)
  | client (q : Nat)
  | killClient (q : Nat)
  | parent
  /-- `msgrcv` is interrupted by `grimReaper`. -/
  | eintr
  | recvFails
  | forkFails
  /-- A step of a child other than `read`. -/
  | child (j : Nat)
  /-- `read` returns `n`. -/
  | read (j n : Nat)
  | readFails (j : Nat)
  | killChild (j : Nat)
  deriving DecidableEq, Repr

/-- There is room for a message. -/
def Room (qbytes used count size : Nat) : Prop := used + size ≤ qbytes ∧ count + 1 ≤ qbytes

instance (qbytes used count size : Nat) : Decidable (Room qbytes used count size) :=
  inferInstanceAs (Decidable (_ ∧ _))

/-- The bytes in a client's queue. -/
def bytesOf : List Response → Nat
  | [] => 0
  | r :: l => r.data.length + bytesOf l

def State.setClient (s : State) (q : Nat) (c : Client) : State :=
  { s with clients := s.clients.set q c }

def State.setChild (s : State) (j : Nat) (ch : Child) : State :=
  { s with children := s.children.set j ch }

/-- `msgget` and the tests of the command line, which leave no process when they fail. -/
def startClient (s : State) (pathname : Bytes) : Option State :=
  if s.serverQ.isSome ∧ pathname.length ≤ PATH_MAX - 1 then
    let c : Client := ⟨pathname, .send, false, some [], []⟩
    some { s with clients := s.clients ++ [c] }
  else none

/-- A step of the client `c` with the queue `q`. -/
def stepClient (qbytes : Nat) (s : State) (q : Nat) (c : Client) : Option State :=
  match c.pc with
  | .send =>
      match s.serverQ with
      | none => some (s.setClient q { c with pc := .remove .failed })
      | some l =>
          if Room qbytes (l.length * REQ_MSG_SIZE) l.length REQ_MSG_SIZE then
            some ({ s with serverQ := some (l ++ [Request.mk q c.pathname]) }.setClient q
              { c with pc := .first })
          else none
  | .first =>
      match c.queue with
      | none => some (s.setClient q { c with pc := .remove .failed })
      | some [] => none
      | some (r :: l) =>
          some (s.setClient q { c with
            queue := some l
            seen := c.seen ++ [r]
            pc := if r.mtype = .RESP_MT_FAILURE then .remove .refused
              else .loop r.mtype r.data.length 1 })
  | .loop mtype totBytes numMsgs =>
      if mtype = .RESP_MT_DATA then
        match c.queue with
        | none => some (s.setClient q { c with pc := .remove .failed })
        | some [] => none
        | some (r :: l) =>
            some (s.setClient q { c with
              queue := some l
              seen := c.seen ++ [r]
              pc := .loop r.mtype (totBytes + r.data.length) (numMsgs + 1) })
      else some (s.setClient q { c with pc := .remove (.received totBytes numMsgs) })
  | .remove out => some (s.setClient q { c with queue := none, pc := .exited out })
  | .exited _ => none

/-- A step of the server's parent. -/
def stepParent (s : State) : Option State :=
  match s.parent with
  | .recv =>
      match s.serverQ with
      | none => some { s with parent := .remove }
      | some [] => none
      | some (r :: l) => some { s with serverQ := some l, parent := .fork r }
  | .fork req =>
      let ch : Child := ⟨req, .opening, [], [], false, false⟩
      some { s with children := s.children ++ [ch], parent := .recv }
  | .remove => some { s with serverQ := none, parent := .exited }
  | .exited => none

/-- `msgsnd(req->clientId, &resp, …)` of the child `j`, which then goes to `ok` or to `err`. -/
def sendResponse (qbytes : Nat) (s : State) (j : Nat) (ch : Child) (r : Response)
    (ok err : ChildPc) : Option State :=
  match s.clients[ch.req.clientId]? with
  | none => some (s.setChild j { ch with pc := err })
  | some c =>
      match c.queue with
      | none => some (s.setChild j { ch with pc := err })
      | some l =>
          if Room qbytes (bytesOf l) l.length r.data.length then
            some ((s.setChild j { ch with pc := ok, sent := ch.sent ++ [r] }).setClient
              ch.req.clientId { c with queue := some (l ++ [r]) })
          else none

/-- A step of the child `j` other than `read`. -/
def stepChild (file : Bytes → Option Bytes) (qbytes : Nat) (s : State) (j : Nat) (ch : Child) :
    Option State :=
  match ch.pc with
  | .opening =>
      match file ch.req.pathname with
      | none => some (s.setChild j { ch with pc := .sendFailure })
      | some contents => some (s.setChild j { ch with pc := .read, rest := contents })
  | .read => none
  | .sendData b => sendResponse qbytes s j ch (dataMsg b) .read .sendEnd
  | .sendEnd => sendResponse qbytes s j ch endMsg .exited .exited
  | .sendFailure => sendResponse qbytes s j ch couldntOpen .exited .exited
  | .exited => none

/-- `read` of the child `j` returns `n`; 0 is the end of the file. -/
def stepRead (s : State) (j : Nat) (ch : Child) (n : Nat) : Option State :=
  if ch.pc = .read ∧ n ≤ RESP_MSG_SIZE ∧ n ≤ ch.rest.length ∧ (n = 0 → ch.rest = []) then
    some (s.setChild j { ch with
      pc := if n = 0 then .sendEnd else .sendData (ch.rest.take n)
      rest := ch.rest.drop n })
  else none

/-- One step. -/
def step (file : Bytes → Option Bytes) (qbytes : Nat) (s : State) : Event → Option State
  | .start pathname => startClient s pathname
  | .client q =>
      match s.clients[q]? with
      | none => none
      | some c => if c.dead then none else stepClient qbytes s q c
  | .killClient q =>
      match s.clients[q]? with
      | none => none
      | some c => some (s.setClient q { c with dead := true })
  | .parent => stepParent s
  | .eintr => if s.parent = .recv then some s else none
  | .recvFails => if s.parent = .recv then some { s with parent := .remove } else none
  | .forkFails =>
      match s.parent with
      | .fork _ => some { s with parent := .remove }
      | _ => none
  | .child j =>
      match s.children[j]? with
      | none => none
      | some ch => if ch.killed then none else stepChild file qbytes s j ch
  | .read j n =>
      match s.children[j]? with
      | none => none
      | some ch => if ch.killed then none else stepRead s j ch n
  | .readFails j =>
      match s.children[j]? with
      | none => none
      | some ch =>
          if ch.killed ∨ ch.pc ≠ .read then none
          else some (s.setChild j { ch with pc := .sendEnd, readFailed := true })
  | .killChild j =>
      match s.children[j]? with
      | none => none
      | some ch => some (s.setChild j { ch with killed := true })

def init : State := ⟨some [], .recv, [], []⟩

def system (file : Bytes → Option Bytes) (qbytes : Nat) : System State Event :=
  ⟨init, step file qbytes⟩

end Tlpi.SvmsgFile
