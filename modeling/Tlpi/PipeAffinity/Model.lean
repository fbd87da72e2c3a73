import Mathlib.Logic.Function.Basic
import Tlpi.Lib.System
import Tlpi.Lib.FileSys

/-!
# Two processes over two crossed pipes

`chapter35/pipe_cpu_affinity.c`: parent and child both run `transfer_data`.  In each
round a side writes its whole buffer to its output pipe and then reads as many bytes
from its input pipe into the same buffer.  Both pipes are non-blocking; on `EAGAIN` the
side sleeps and tries again, which changes nothing.

A pipe is named by the side that writes to it: `pipefd1` is the parent's, `pipefd2` the
child's.  Each side starts with all four ends open and closes the two that it does not
use.  The counters are `int` in the source; they never pass the buffer size, which is
the size of a pipe and so an `int` itself.

A label says which side takes a step, and how many bytes the kernel is willing to move
if the step is a `read` or a `write`.
-/

namespace Tlpi.PipeAffinity

open Tlpi.Lib

inductive Who
  | parent
  | child
  deriving DecidableEq, Repr

def Who.peer : Who → Who
  | .parent => .child
  | .child => .parent

/-- `buffer_size`, `count`, the capacity of a pipe that `F_SETPIPE_SZ` has set to the
buffer size or a little more, and `PIPE_BUF`. -/
structure Config where
  bufferSize : Nat
  count : Nat
  capacity : Nat
  pipeBuf : Nat
  pos : 0 < bufferSize
  le_capacity : bufferSize ≤ capacity

/-- Where a side is: closing the two ends that it does not use, filling the buffer, at
the head of the `for` loop, in one of the two `while` loops, waiting for the child,
closing the two other ends, or gone.  `failed` is `errExit`. -/
inductive Pc
  | closeFirst
  | closeSecond
  | setup
  | loop
  | write
  | read
  | wait
  | closeThird
  | closeFourth
  | exited
  | failed
  deriving DecidableEq, Repr

/-- A side; `total` is `total_written` or `total_read`, and `round` the `for` loop's `i`. -/
structure Proc where
  pc : Pc
  round : Nat
  total : Nat
  buffer : Bytes
  deriving DecidableEq, Repr

/-- What a pipe holds, and which side has its read end and its write end open. -/
structure Pipe where
  data : Bytes
  rd : Who → Bool
  wr : Who → Bool

def Pipe.hasReader (p : Pipe) : Bool := p.rd .parent || p.rd .child

structure State where
  proc : Who → Proc
  pipe : Who → Pipe

namespace State

def setProc (s : State) (w : Who) (p : Proc) : State :=
  { s with proc := Function.update s.proc w p }

def setData (s : State) (v : Who) (b : Bytes) : State :=
  { s with pipe := Function.update s.pipe v { s.pipe v with data := b } }

/-- `w` closes its copy of the read end of the pipe that `v` writes to. -/
def closeRd (s : State) (w v : Who) : State :=
  { s with
    pipe := Function.update s.pipe v { s.pipe v with rd := Function.update (s.pipe v).rd w false } }

/-- `w` closes its copy of the write end of the pipe that `v` writes to. -/
def closeWr (s : State) (w v : Who) : State :=
  { s with
    pipe := Function.update s.pipe v { s.pipe v with wr := Function.update (s.pipe v).wr w false } }

end State

/-- `for (i = 0; i < buffer_size; i++) buffer[i] = i % 256;` -/
def pattern (n : Nat) : Bytes := (List.range n).map fun i => UInt8.ofNat (i % 256)

/-- How many bytes a non-blocking `write` of `n` bytes moves when there is room for
`free` and the kernel is willing to move `k`; `none` is `EAGAIN`. -/
def writeAmount (pipeBuf free n k : Nat) : Option Nat :=
  if n ≤ pipeBuf then if n ≤ free then some n else none
  else if free = 0 then none
  else some (max 1 (min k (min n free)))

/-- One turn of the `while` loop that writes. -/
def writeSome (c : Config) (s : State) (w : Who) (k : Nat) : State :=
  let p := s.proc w
  let q := s.pipe w
  if ¬ q.hasReader then s.setProc w { p with pc := .failed }
  else
    match writeAmount c.pipeBuf (c.capacity - q.data.length) (c.bufferSize - p.total) k with
    | none => s
    | some m =>
        (s.setData w (q.data ++ (p.buffer.drop p.total).take m)).setProc w
          { p with total := p.total + m }

/-- One turn of the `while` loop that reads.  At end of file `read` returns 0, which is
added to `total_read` like any other count. -/
def readSome (c : Config) (s : State) (w : Who) (k : Nat) : State :=
  let p := s.proc w
  let q := s.pipe w.peer
  if q.data = [] then s
  else
    let m := max 1 (min k (min (c.bufferSize - p.total) q.data.length))
    (s.setData w.peer (q.data.drop m)).setProc w
      { p with
        total := p.total + m
        buffer := p.buffer.take p.total ++ q.data.take m ++ p.buffer.drop (p.total + m) }

structure Event where
  who : Who
  k : Nat
  deriving DecidableEq, Repr

/-- The first and second `close` of a side: the ends it does not use. -/
def closeUnused (s : State) : Who → Bool → State
  | .parent, true => s.closeRd .parent .parent
  | .parent, false => s.closeWr .parent .child
  | .child, true => s.closeWr .child .parent
  | .child, false => s.closeRd .child .child

/-- The third and fourth `close` of a side. -/
def closeUsed (s : State) : Who → Bool → State
  | .parent, true => s.closeWr .parent .parent
  | .parent, false => s.closeRd .parent .child
  | .child, true => s.closeRd .child .parent
  | .child, false => s.closeWr .child .child

/-- One step of a side. -/
def step (c : Config) (s : State) (e : Event) : Option State :=
  let w := e.who
  let p := s.proc w
  match p.pc with
  | .closeFirst => some ((closeUnused s w true).setProc w { p with pc := .closeSecond })
  | .closeSecond => some ((closeUnused s w false).setProc w { p with pc := .setup })
  | .setup => some (s.setProc w { p with pc := .loop, round := 0, buffer := pattern c.bufferSize })
  | .loop =>
      if p.round < c.count then some (s.setProc w { p with pc := .write, total := 0 })
      else
        match w with
        | .parent => some (s.setProc w { p with pc := .wait })
        | .child => some (s.setProc w { p with pc := .closeThird })
  | .write =>
      if p.total < c.bufferSize then some (writeSome c s w e.k)
      else some (s.setProc w { p with pc := .read, total := 0 })
  | .read =>
      if p.total < c.bufferSize then some (readSome c s w e.k)
      else some (s.setProc w { p with pc := .loop, round := p.round + 1 })
  | .wait =>
      if (s.proc .child).pc = .exited then some (s.setProc w { p with pc := .closeThird }) else none
  | .closeThird => some ((closeUsed s w true).setProc w { p with pc := .closeFourth })
  | .closeFourth => some ((closeUsed s w false).setProc w { p with pc := .exited })
  | .exited => none
  | .failed => none

/-- Just after the `fork`. -/
def init : State where
  proc _ := ⟨.closeFirst, 0, 0, []⟩
  pipe _ := ⟨[], fun _ => true, fun _ => true⟩

def system (c : Config) : System State Event := ⟨init, step c⟩

end Tlpi.PipeAffinity
