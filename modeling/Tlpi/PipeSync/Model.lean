import Tlpi.Lib.System
import Tlpi.Lib.Lists

/-!
# Waiting for children at a pipe

`main` of `chapter44/pipe_sync.c`, for any number of children.  The parent makes a pipe,
forks the children, closes its write end and reads until `read` returns 0.  A child works
for some time, says that it has finished, and closes both ends of the pipe.

`fork` gives the child a copy of the descriptors that the parent has open at that moment.
The kernel counts the copies of the write end, `writers`; a `read` from a pipe without
data returns 0 when there are none and blocks otherwise.  Nobody writes to the pipe, so
the number of read ends makes no difference and is not kept.

The calls to `fork` succeed, nobody is killed, and `sleep` may take any time.  `printed`
records which children have come past the `printf` that says they have finished.
-/

namespace Tlpi.PipeSync

open Tlpi.Lib

/-- Which of `pipefd[0]` and `pipefd[1]` a process has open. -/
structure Fds where
  rd : Bool
  wr : Bool
  deriving DecidableEq, Repr

/-- Where a child is. -/
inductive ChildPc
  /-- `printf("子进程 %d (PID: %d) 开始工作...\n", ..)` -/
  | start
  /-- `sleep((i + 1) * 2)` -/
  | sleep
  /-- `printf("子进程 %d (PID: %d) 完成工作\n", ..)` -/
  | finish
  /-- `close(pipefd[1])` -/
  | closeWr
  /-- `close(pipefd[0])` -/
  | closeRd
  /-- `_exit(EXIT_SUCCESS)` -/
  | exit
  | exited
  deriving DecidableEq, Repr

structure Child where
  pc : ChildPc
  fds : Fds
  deriving DecidableEq, Repr

/-- Where the parent is: at the head of the forking loop, at `read`, behind the reading
loop, in `waitpid` for child `j`, or at the end. -/
inductive ParentPc
  | fork (i : Nat)
  | read
  | closeRd
  | wait (j : Nat)
  | done
  deriving DecidableEq, Repr

structure State where
  data : List UInt8
  writers : Nat
  parent : ParentPc
  fds : Fds
  children : List Child
  printed : List Nat
  deriving DecidableEq

/-- After `pipe(pipefd)`. -/
def init : State where
  data := []
  writers := 1
  parent := .fork 0
  fds := ⟨true, true⟩
  children := []
  printed := []

/-- A process takes a step. -/
inductive Event
  | parent
  | child (i : Nat)
  deriving DecidableEq, Repr

/-- How many copies of the write end a process has. -/
def Fds.writers (f : Fds) : Nat := if f.wr then 1 else 0

/-- The next step of the parent. -/
def stepParent (numChildren : Nat) (s : State) : Option State :=
  match s.parent with
  | .fork i =>
      if i < numChildren then
        some { s with
          writers := s.writers + s.fds.writers
          children := s.children ++ [⟨.start, s.fds⟩]
          parent := .fork (i + 1) }
      else
        some { s with
          writers := s.writers - s.fds.writers
          fds := { s.fds with wr := false }
          parent := .read }
  | .read =>
      if s.data ≠ [] then some { s with data := s.data.drop 1 }
      else if s.writers = 0 then some { s with parent := .closeRd }
      else none
  | .closeRd => some { s with fds := { s.fds with rd := false }, parent := .wait 0 }
  | .wait j =>
      if j < numChildren then
        if s.children[j]?.map Child.pc = some .exited then some { s with parent := .wait (j + 1) }
        else none
      else some { s with parent := .done }
  | .done => none

/-- Child `i` goes on as `c`. -/
def State.setChild (s : State) (i : Nat) (c : Child) : State :=
  { s with children := s.children.set i c }

/-- The next step of child `i`, which is `c`. -/
def stepChild (s : State) (i : Nat) (c : Child) : Option State :=
  match c.pc with
  | .start => some (s.setChild i { c with pc := .sleep })
  | .sleep => some (s.setChild i { c with pc := .finish })
  | .finish => some { s.setChild i { c with pc := .closeWr } with printed := s.printed ++ [i] }
  | .closeWr =>
      some { s.setChild i ⟨.closeRd, { c.fds with wr := false }⟩ with
        writers := s.writers - c.fds.writers }
  | .closeRd => some (s.setChild i ⟨.exit, { c.fds with rd := false }⟩)
  | .exit =>
      some { s.setChild i ⟨.exited, ⟨false, false⟩⟩ with writers := s.writers - c.fds.writers }
  | .exited => none

def step (numChildren : Nat) (s : State) : Event → Option State
  | .parent => stepParent numChildren s
  | .child i => s.children[i]?.bind (stepChild s i)

def system (numChildren : Nat) : System State Event := ⟨init, step numChildren⟩

end Tlpi.PipeSync
