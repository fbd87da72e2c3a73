import Mathlib.Logic.Function.Basic
import Tlpi.Lib.System
import Tlpi.Lib.Fifo

/-!
# One reader and two writers

`demonstrateMultipleWriters` of `chapter44/mkfifo.c`.  The parent makes the FIFO, forks
a reader and two writers, and waits for the writers and then for the reader.  A writer
opens the FIFO, writes one message and closes it; the reader reads until `read` returns
0.  The sleeps in the source put no order on the steps.

A message is shorter than 100 bytes, so its `write` is atomic, and the two together do
not fill a FIFO.  A writer that writes when nobody reads is killed by `SIGPIPE`.  The
calls to `fork` and `open` succeed.

`sent` and `got` record what the writers have written, in order, and what the reader has
printed.
-/

namespace Tlpi.MkFifo

open Tlpi.Lib

/-- The two writers, `i = 1` and `i = 2`. -/
inductive Writer
  | one
  | two
  deriving DecidableEq, Repr

/-- Where the reader is; `opening n` is asleep in `open` until the number of opens for
writing is no longer `n`. -/
inductive ReaderPc
  | unborn
  | start
  | opening (n : Nat)
  | loop
  | closing
  | exiting
  | exited
  deriving DecidableEq, Repr

/-- Where a writer is. -/
inductive WriterPc
  | unborn
  | start
  | opening (n : Nat)
  | writing
  | closing
  | exiting
  | exited
  | killed
  deriving DecidableEq, Repr

/-- Where the parent is: before `fork` or inside `waitpid` for the child named, or back
from the last one. -/
inductive ParentPc
  | forkReader
  | forkWriter (w : Writer)
  | waitWriter (w : Writer)
  | waitReader
  | done
  deriving DecidableEq, Repr

structure State where
  fifo : Fifo
  parent : ParentPc
  reader : ReaderPc
  writer : Writer → WriterPc
  sent : List Writer
  got : Bytes

/-- A process takes a step; `k` is how many bytes the kernel is willing to return. -/
inductive Event
  | parent
  | reader (k : Nat)
  | writer (w : Writer)
  deriving DecidableEq, Repr

def BUFFER_SIZE : Nat := 1024

def State.setWriter (s : State) (w : Writer) (pc : WriterPc) : State :=
  { s with writer := Function.update s.writer w pc }

/-- `waitpid` returns for a writer that has ended. -/
def WriterPc.Ended (pc : WriterPc) : Prop := pc = .exited ∨ pc = .killed

instance (pc : WriterPc) : Decidable pc.Ended := inferInstanceAs (Decidable (_ ∨ _))

def stepParent (s : State) : Option State :=
  match s.parent with
  | .forkReader => some { s with parent := .forkWriter .one, reader := .start }
  | .forkWriter .one => some { s.setWriter .one .start with parent := .forkWriter .two }
  | .forkWriter .two => some { s.setWriter .two .start with parent := .waitWriter .one }
  | .waitWriter .one =>
      if (s.writer .one).Ended then some { s with parent := .waitWriter .two } else none
  | .waitWriter .two => if (s.writer .two).Ended then some { s with parent := .waitReader } else none
  | .waitReader => if s.reader = .exited then some { s with parent := .done } else none
  | .done => none

def stepReader (s : State) (k : Nat) : Option State :=
  match s.reader with
  | .unborn => none
  | .start =>
      some { s with
        fifo := s.fifo.openRd
        reader := if s.fifo.writers = 0 then .opening s.fifo.wOpens else .loop }
  | .opening n => if s.fifo.wOpens ≠ n then some { s with reader := .loop } else none
  | .loop =>
      if s.fifo.data ≠ [] then
        let m := max 1 (min k (min (BUFFER_SIZE - 1) s.fifo.data.length))
        some { s with fifo := s.fifo.drop m, got := s.got ++ s.fifo.data.take m }
      else if s.fifo.writers = 0 then some { s with reader := .closing }
      else none
  | .closing => some { s with fifo := s.fifo.closeRd, reader := .exiting }
  | .exiting => some { s with reader := .exited }
  | .exited => none

variable (message : Writer → Bytes)

def stepWriter (s : State) (w : Writer) : Option State :=
  match s.writer w with
  | .unborn => none
  | .start =>
      some { s.setWriter w (if s.fifo.readers = 0 then .opening s.fifo.rOpens else .writing) with
        fifo := s.fifo.openWr }
  | .opening n => if s.fifo.rOpens ≠ n then some (s.setWriter w .writing) else none
  | .writing =>
      if s.fifo.readers = 0 then some { s.setWriter w .killed with fifo := s.fifo.closeWr }
      else some { s.setWriter w .closing with
        fifo := s.fifo.write (message w)
        sent := s.sent ++ [w] }
  | .closing => some { s.setWriter w .exiting with fifo := s.fifo.closeWr }
  | .exiting => some (s.setWriter w .exited)
  | .exited => none
  | .killed => none

def step (s : State) : Event → Option State
  | .parent => stepParent s
  | .reader k => stepReader s k
  | .writer w => stepWriter message s w

/-- After `mkfifo`. -/
def init : State := ⟨.empty, .forkReader, .unborn, fun _ => .unborn, [], []⟩

def system : System State Event := ⟨init, step message⟩

end Tlpi.MkFifo
