import Tlpi.Lib.System
import Tlpi.Sigchld.Handler

/-!
# The function `system`

`system` of `chapter27/system.c`, called by a single-threaded process that has
other children and `sigchldHandler` installed.  The steps of the call interleave
with the ends of all children, the shell's included, and with the handler; the
call stands still while the handler runs on top of it.

The call's own steps are its system calls, in the order of the source.  A
signal that is pending when a call of `sigprocmask` unblocks it is delivered
before that call returns; this is the place `restoring`.  Everywhere else the
kernel may deliver a signal late.

`waitpid` answers from the kernel's table: it blocks while the shell runs and
fails with `ECHILD` when somebody else has reaped it.  A handler of another
signal may interrupt it (`Answer.eintr`), any number of times.

`command == NULL` is the call `system(":")`, whose status is compared with zero
at the end (`result`).
-/

namespace Tlpi.Shell

open Tlpi.Lib Tlpi.Sigchld

/-- A signal disposition, `sa_handler`. -/
inductive Disp
  | dfl
  | ign
  | handler (h : Nat)
  deriving DecidableEq, Repr

/-- Where the call is. -/
inductive Pc
  /-- `sigprocmask(SIG_BLOCK, &blockMask, &origMask)` -/
  | block
  /-- `sigaction(SIGINT, &saIgnore, &saOrigInt)` -/
  | ignoreInt
  /-- `sigaction(SIGQUIT, &saIgnore, &saOrigQuit)` -/
  | ignoreQuit
  /-- `fork()` -/
  | fork
  /-- `waitpid(childPid, &status, 0)` -/
  | waiting
  /-- `sigprocmask(SIG_SETMASK, &origMask, NULL)` -/
  | restoreMask
  /-- in that `sigprocmask`, the mask already changed -/
  | restoring
  /-- `sigaction(SIGINT, &saOrigInt, NULL)` -/
  | restoreInt
  /-- `sigaction(SIGQUIT, &saOrigQuit, NULL)` -/
  | restoreQuit
  | returned
  deriving DecidableEq, Repr

structure State where
  proc : Proc
  dispInt : Disp
  dispQuit : Disp
  pc : Pc
  origMask : SigSet
  saOrigInt : Disp
  saOrigQuit : Disp
  /-- What `fork` returned; `none` also before the fork. -/
  childPid : Option Nat
  status : Int
  /-- The children that ended while the call kept SIGCHLD blocked, in order. -/
  endedMasked : List Nat
  /-- The children the call itself has waited for. -/
  waitedFor : List Nat
  /-- The call's `waitpid` has failed with `ECHILD`. -/
  sawEchild : Bool
  /-- The handler was started after the call had put the mask back. -/
  handlerAfter : Bool
  deriving DecidableEq

/-- The kernel's answer to the call's next system call. -/
inductive Answer
  | ok
  | fail
  | eintr
  deriving DecidableEq, Repr

inductive Ev
  | proc (e : Event)
  | call (a : Answer)
  deriving DecidableEq, Repr

/-- The caller at the moment of the call; `junk` is what the uninitialised `status`
holds. -/
structure Entry where
  kids : Kids
  mask : SigSet
  numLiveChildren : Int
  dispInt : Disp
  dispQuit : Disp
  junk : Int
  deriving DecidableEq

def init (c : Entry) : State :=
  { proc :=
      { kids := c.kids
        mask := c.mask
        suspend := none
        numLiveChildren := c.numLiveChildren
        handler := none
        reapedLog := [] }
    dispInt := c.dispInt
    dispQuit := c.dispQuit
    pc := .block
    origMask := ∅
    saOrigInt := .dfl
    saOrigQuit := .dfl
    childPid := none
    status := c.junk
    endedMasked := []
    waitedFor := []
    sawEchild := false
    handlerAfter := false }

/-- The next system call of `system`. -/
def callStep (s : State) (a : Answer) : Option State :=
  match s.pc with
  | .block =>
      some { s with
        origMask := s.proc.mask
        proc := { s.proc with mask := sigprocmask .block {SIGCHLD} s.proc.mask }
        pc := .ignoreInt }
  | .ignoreInt => some { s with saOrigInt := s.dispInt, dispInt := .ign, pc := .ignoreQuit }
  | .ignoreQuit => some { s with saOrigQuit := s.dispQuit, dispQuit := .ign, pc := .fork }
  | .fork =>
      match a with
      | .ok =>
          some { s with
            proc := { s.proc with kids := s.proc.kids.fork }
            childPid := some s.proc.kids.table.length
            pc := .waiting }
      | _ => some { s with status := -1, pc := .restoreMask }
  | .waiting =>
      match s.childPid with
      | none => none
      | some c =>
          match a with
          | .eintr => some s
          | _ =>
              match s.proc.kids.waitFor c with
              | some (.child p st, k) =>
                  some { s with
                    proc := { s.proc with kids := k }
                    status := st
                    waitedFor := s.waitedFor ++ [p]
                    pc := .restoreMask }
              | some (_, k) =>
                  some { s with
                    proc := { s.proc with kids := k }
                    status := -1
                    sawEchild := true
                    pc := .restoreMask }
              | none => none
  | .restoreMask =>
      some { s with
        proc := { s.proc with mask := sigprocmask .setmask s.origMask s.proc.mask }
        pc := .restoring }
  | .restoring =>
      if s.proc.kids.pending = true ∧ SIGCHLD ∉ s.proc.mask then none
      else some { s with pc := .restoreInt }
  | .restoreInt => some { s with dispInt := s.saOrigInt, pc := .restoreQuit }
  | .restoreQuit => some { s with dispQuit := s.saOrigQuit, pc := .returned }
  | .returned => none

/-- SIGCHLD is blocked by the call. -/
def Pc.masked : Pc → Bool
  | .ignoreInt | .ignoreQuit | .fork | .waiting | .restoreMask => true
  | _ => false

/-- The call has put the mask back. -/
def Pc.unmasked : Pc → Bool
  | .restoring | .restoreInt | .restoreQuit | .returned => true
  | _ => false

/-- A step of the surroundings, with what it adds to the history of the call. -/
def procStep (s : State) (e : Event) : Option State :=
  (s.proc.step e).map fun p =>
    match e with
    | .terminate j _ =>
        { s with
          proc := p
          endedMasked := if s.pc.masked then s.endedMasked ++ [j] else s.endedMasked }
    | .deliver => { s with proc := p, handlerAfter := s.handlerAfter || s.pc.unmasked }
    | _ => { s with proc := p }

def step (s : State) : Ev → Option State
  | .proc e => procStep s e
  | .call a => if s.proc.handler = none then callStep s a else none

def system (c : Entry) : System State Ev := ⟨init c, step⟩

/-- What the call returns: the status, or for `NULL` whether it was zero. -/
def result (null : Bool) (s : State) : Int :=
  if null then (if s.status = 0 then 1 else 0) else s.status

end Tlpi.Shell
