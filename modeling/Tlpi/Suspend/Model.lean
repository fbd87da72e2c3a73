import Tlpi.Lib.Signal
import Tlpi.Lib.System
import Mathlib.Logic.Function.Basic

/-!
# Waiting for SIGQUIT with `sigsuspend`

`main` of `chapter22/t_sigsuspend.c`, with its handler.  The process blocks SIGINT and SIGQUIT,
and in each turn of its loop waits in `sigsuspend` for one of them, until the handler has seen
SIGQUIT.

The variable `origMask`, which every `sigsuspend` and the call after the loop read, is assigned
nowhere: the first `sigprocmask` is given `NULL` in its place.  It is a parameter of the initial
state.

A signal is pending from its arrival to its delivery, which may come at any time while the mask
lets it through.  A handler runs on top of the interrupted code, and its return puts back a mask:
the one that the signal found, or, if it interrupts `sigsuspend`, the one from before the call,
which then returns.
-/

namespace Tlpi.Suspend

open Tlpi.Lib

/-- What happens on a signal: `handler` is the `handler` of the program. -/
inductive Disp
  | dfl
  | ign
  | handler
  deriving DecidableEq, Repr

/-- The next call of `main`. -/
inductive Pc
  /-- `sigprocmask(SIG_BLOCK, &blockMask, NULL)` -/
  | block
  /-- `sigaction(SIGINT, &sa, NULL)` -/
  | actInt
  /-- `sigaction(SIGQUIT, &sa, NULL)` -/
  | actQuit
  /-- The test of the `for` loop. -/
  | loop
  /-- From there to the call of `sigsuspend`. -/
  | critical
  /-- In `sigsuspend`, with the mask from before the call. -/
  | suspended (before : SigSet)
  /-- `sigprocmask(SIG_SETMASK, &origMask, NULL)` -/
  | restore
  /-- From there to `exit`. -/
  | finish
  | exited
  /-- A signal whose disposition is the default. -/
  | killed
  /-- `errExit` -/
  | failed
  deriving DecidableEq

def Pc.Suspended (pc : Pc) : Prop := ∃ before, pc = .suspended before

/-- The loop has been left. -/
def Pc.Past (pc : Pc) : Prop := pc = .restore ∨ pc = .finish ∨ pc = .exited

/-- The mask has been put back. -/
def Pc.Restored (pc : Pc) : Prop := pc = .finish ∨ pc = .exited

/-- There is no process any more. -/
def Pc.Ended (pc : Pc) : Prop := pc = .exited ∨ pc = .killed ∨ pc = .failed

instance (pc : Pc) : Decidable pc.Ended := inferInstanceAs (Decidable (_ ∨ _))

/-- A call of the handler: its argument, and the mask that its return puts back. -/
structure Frame where
  sig : Nat
  restore : SigSet
  deriving DecidableEq

/-- A call of `sigsuspend`: the mask it installed, and the signals handled during it. -/
structure Wait where
  installed : SigSet
  handled : List Nat
  deriving DecidableEq

/-- The process; `frames` are the calls of the handler, the innermost first, and `waits` the
calls of `sigsuspend`, the latest first. -/
structure State where
  pc : Pc
  mask : SigSet
  pending : SigSet
  disp : Nat → Disp
  origMask : SigSet
  gotSigquit : Bool
  frames : List Frame
  waits : List Wait

/-- The mask of `main`. -/
def State.base (s : State) : SigSet := (s.frames.getLast?).elim s.mask Frame.restore

def blockMask : SigSet := {SIGINT, SIGQUIT}

/-- What happens next: `main` takes a step; one of its calls fails; a signal arrives; the kernel
delivers one; the handler runs to its end. -/
inductive Event
  | run
  | fail
  | arrive (sig : Nat)
  | deliver (sig : Nat)
  | ret
  deriving DecidableEq, Repr

/-- A step of `main`. -/
def runMain (s : State) : Option State :=
  match s.pc with
  | .block => some { s with pc := .actInt, mask := sigprocmask .block blockMask s.mask }
  | .actInt => some { s with pc := .actQuit, disp := Function.update s.disp SIGINT .handler }
  | .actQuit => some { s with pc := .loop, disp := Function.update s.disp SIGQUIT .handler }
  | .loop => some { s with pc := if s.gotSigquit then .restore else .critical }
  | .critical =>
      some { s with
        pc := .suspended s.mask
        mask := blockable s.origMask
        waits := ⟨blockable s.origMask, []⟩ :: s.waits }
  | .restore =>
      some { s with pc := .finish, mask := sigprocmask .setmask (blockable s.origMask) s.mask }
  | .finish => some { s with pc := .exited }
  | .suspended _ | .exited | .killed | .failed => none

/-- A call of `main` fails. -/
def failMain (s : State) : Option State :=
  match s.pc with
  | .block | .actInt | .actQuit | .critical | .restore => some { s with pc := .failed }
  | _ => none

/-- The kernel delivers `sig`. -/
def deliver (s : State) (sig : Nat) : State :=
  match s.disp sig with
  | .ign => { s with pending := s.pending.erase sig }
  | .dfl => { s with pending := s.pending.erase sig, pc := .killed, frames := [] }
  | .handler =>
      let restore :=
        match s.frames, s.pc with
        | [], .suspended before => before
        | _, _ => s.mask
      { s with
        pending := s.pending.erase sig
        mask := insert sig s.mask
        frames := ⟨sig, restore⟩ :: s.frames }

/-- `handler(f.sig)` returns. -/
def handlerReturn (s : State) (f : Frame) (fs : List Frame) : State :=
  let s := { s with
    gotSigquit := if f.sig = SIGQUIT then true else s.gotSigquit
    mask := f.restore
    frames := fs }
  match s.pc with
  | .suspended before =>
      { s with
        pc := if fs = [] then .loop else .suspended before
        waits := s.waits.modifyHead fun w => { w with handled := w.handled ++ [f.sig] } }
  | _ => s

/-- One step. -/
def step (s : State) : Event → Option State
  | .run => if s.frames = [] then runMain s else none
  | .fail => if s.frames = [] then failMain s else none
  | .arrive sig =>
      if sig ∈ blockMask ∧ ¬ s.pc.Ended then
        if s.disp sig = .ign ∧ sig ∉ s.mask then some s
        else some { s with pending := insert sig s.pending }
      else none
  | .deliver sig =>
      if sig ∈ s.pending ∧ sig ∉ s.mask ∧ ¬ s.pc.Ended then some (deliver s sig) else none
  | .ret =>
      match s.frames with
      | [] => none
      | f :: fs => some (handlerReturn s f fs)

/-- What the process starts with. -/
structure Start where
  mask : Mask
  ignored : SigSet
  pending : SigSet

/-- `main` begins; `garbage` is what happens to be in `origMask`. -/
def init (a : Start) (garbage : SigSet) : State where
  pc := .block
  mask := a.mask.set
  pending := a.pending
  disp sig := if sig ∈ a.ignored then .ign else .dfl
  origMask := garbage
  gotSigquit := false
  frames := []
  waits := []

def system (a : Start) (garbage : SigSet) : System State Event := ⟨init a garbage, step⟩

end Tlpi.Suspend
