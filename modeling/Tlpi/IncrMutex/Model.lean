import Mathlib.Logic.Function.Basic
import Tlpi.Lib.System
import Tlpi.GetNum.Model

/-!
# Two threads that count under a mutex

`chapter30/thread_incr_mutex.c`: `main` starts two threads and joins them; each of them adds 1
to `glob` as often as the argument says, and holds a mutex while it reads `glob`, increments
what it has read and writes it back.  Every one of these is a step of its own, so that the
threads may get in each other's way at any point.

`glob` and `loc` are `int`s and wrap around; `overflow` records that an increment has done so,
for which C promises nothing.
-/

namespace Tlpi.IncrMutex

open Tlpi.Lib Tlpi.GetNum

inductive Tid
  | t1
  | t2
  deriving DecidableEq, Repr

def Tid.other : Tid → Tid
  | .t1 => .t2
  | .t2 => .t1

/-- The next step of `threadFunc`; `idle` is a thread that has not been created. -/
inductive Pc
  | idle
  /-- `j < loops` -/
  | test
  | lock
  /-- `loc = glob` -/
  | read
  /-- `loc++` -/
  | incr
  /-- `glob = loc` -/
  | write
  | unlock
  /-- `j++` -/
  | next
  | done
  deriving DecidableEq, Repr

structure Thread where
  pc : Pc
  j : Int
  loc : BitVec 32
  deriving DecidableEq

/-- The next call of `main`; `failed` is `errExit`. -/
inductive MainPc
  | create1
  | create2
  | join1
  | join2
  | print
  | exited
  | failed
  deriving DecidableEq, Repr

/-- The process is there. -/
def MainPc.Running (pc : MainPc) : Prop := pc ≠ .exited ∧ pc ≠ .failed

instance (pc : MainPc) : Decidable pc.Running := inferInstanceAs (Decidable (_ ∧ _))

/-- Both threads have been joined. -/
def MainPc.Joined (pc : MainPc) : Prop := pc = .print ∨ pc = .exited

structure State where
  main : MainPc
  thread : Tid → Thread
  owner : Option Tid
  glob : BitVec 32
  overflow : Bool

def State.set (s : State) (t : Tid) (th : Thread) : State :=
  { s with thread := Function.update s.thread t th }

/-- A step of `main`, of a thread, or a `pthread_create` that fails. -/
inductive Event
  | main
  | fail
  | thread (t : Tid)
  deriving DecidableEq, Repr

/-- `loops`, from the argument if there is one. -/
def loopsOf : Option Bytes → Except Exit Int
  | none => .ok 10000000
  | some arg => getInt (some arg) GN_GT_0 (some (ascii "num-loops"))

/-- A step of `main`. -/
def stepMain (s : State) : Option State :=
  match s.main with
  | .create1 => some { s.set .t1 ⟨.test, 0, 0⟩ with main := .create2 }
  | .create2 => some { s.set .t2 ⟨.test, 0, 0⟩ with main := .join1 }
  | .join1 => if (s.thread .t1).pc = .done then some { s with main := .join2 } else none
  | .join2 => if (s.thread .t2).pc = .done then some { s with main := .print } else none
  | .print => some { s with main := .exited }
  | .exited | .failed => none

/-- A step of `threadFunc`. -/
def stepThread (loops : Int) (s : State) (t : Tid) : Option State :=
  let th := s.thread t
  match th.pc with
  | .idle | .done => none
  | .test => some (s.set t { th with pc := if th.j < loops then .lock else .done })
  | .lock =>
      if s.owner = none then some { s.set t { th with pc := .read } with owner := some t } else none
  | .read => some (s.set t { th with pc := .incr, loc := s.glob })
  | .incr =>
      some { s.set t { th with pc := .write, loc := th.loc + 1 } with
        overflow := s.overflow || decide (th.loc.toInt = INT_MAX) }
  | .write => some { s.set t { th with pc := .unlock } with glob := th.loc }
  | .unlock => some { s.set t { th with pc := .next } with owner := none }
  | .next => some (s.set t { th with pc := .test, j := th.j + 1 })

/-- One step. -/
def step (loops : Int) (s : State) : Event → Option State
  | .main => stepMain s
  | .fail =>
      if s.main = .create1 ∨ s.main = .create2 then some { s with main := .failed } else none
  | .thread t => if s.main.Running then stepThread loops s t else none

def init : State where
  main := .create1
  thread _ := ⟨.idle, 0, 0⟩
  owner := none
  glob := 0
  overflow := false

def system (loops : Int) : System State Event := ⟨init, step loops⟩

end Tlpi.IncrMutex
