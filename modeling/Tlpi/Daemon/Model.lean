import Tlpi.Lib.FdTable

/-!
# `becomeDaemon`

`becomeDaemon` of `chapter37/become_daemon.c`.  Of the processes that the two calls of
`fork` make, the parents leave with `_exit`, and the model follows the child: what is
returned is returned in the process that the call has come to.

A process has a number, a process group, a session, a mode mask, a working directory and
its descriptors.  The kernel's answers are data of the call (`Kernel`); the two numbers it
gives out are not those of the process group and the session that the caller is in, nor
that of the first child.
-/

namespace Tlpi.Daemon

open Tlpi.Lib

def BD_NO_CHDIR : BitVec 32 := 0o01

def BD_NO_CLOSE_FILES : BitVec 32 := 0o02

def BD_NO_REOPEN_STD_FDS : BitVec 32 := 0o04

def BD_NO_UMASK0 : BitVec 32 := 0o10

def BD_MAX_CLOSE : Int := 8192

def O_RDWR : Nat := 2

def STDIN_FILENO : Nat := 0

def STDOUT_FILENO : Nat := 1

def STDERR_FILENO : Nat := 2

/-- What a descriptor is open on: something the caller has brought, or a file that
`becomeDaemon` has opened. -/
inductive Desc (α : Type)
  | inherited (a : α)
  | opened (path : String) (flags : Nat)
  deriving DecidableEq, Repr

/-- A process. -/
structure Proc (α : Type) where
  pid : Nat
  pgid : Nat
  sid : Nat
  umask : Nat
  cwd : String
  fds : FdTable (Desc α)

/-- The answers to the calls made for `p`: `none` and `false` are `-1`. -/
structure Kernel {α : Type} (p : Proc α) where
  fork : Option Nat
  setsid : Bool
  forkAgain : Option Nat
  chdir : Bool
  /-- `sysconf(_SC_OPEN_MAX)`, a `long`. -/
  sysconf : BitVec 64
  /-- The soft limit of `RLIMIT_NOFILE`. -/
  limit : Nat
  openNull : Bool
  dupStdout : Bool
  dupStderr : Bool
  fork_fresh : ∀ q, fork = some q → q ≠ p.pid ∧ q ≠ p.pgid ∧ q ≠ p.sid
  forkAgain_fresh : ∀ q r, fork = some q → forkAgain = some r → r ≠ q

variable {α : Type}

/-- `flags & bit`. -/
def isSet (flags bit : BitVec 32) : Bool := flags &&& bit ≠ 0

/-- `maxfd` of the closing loop: the `long` cut down to an `int`, or `BD_MAX_CLOSE`. -/
def maxfd (sysconf : BitVec 64) : Int :=
  let maxfd := (sysconf.setWidth 32).toInt
  if maxfd = -1 then BD_MAX_CLOSE else maxfd

/-- `for (fd = 0; fd < maxfd; fd++) close(fd);` -/
def closeBelow (t : FdTable (Desc α)) (maxfd : Int) : FdTable (Desc α) :=
  t.closeAll (List.range maxfd.toNat)

/-- The descriptors 0, 1 and 2 are opened anew; the table, and whether it went well. -/
def reopenStdFds (t : FdTable (Desc α)) (limit : Nat) (openNull dupStdout dupStderr : Bool) :
    FdTable (Desc α) × Bool :=
  let t := t.close STDIN_FILENO
  match if openNull then t.openFd limit (.opened "/dev/null" O_RDWR) else none with
  | none => (t, false)
  | some (fd, t) =>
      if fd ≠ STDIN_FILENO then (t, false)
      else
        match if dupStdout then t.dup2 limit fd STDOUT_FILENO else none with
        | none => (t, false)
        | some t =>
            match if dupStderr then t.dup2 limit fd STDERR_FILENO else none with
            | none => (t, false)
            | some t => (t, true)

/-- `fork`, `setsid` and `fork`: the process that is left, and whether it is the daemon. -/
def detach (p : Proc α) (k : Kernel p) : Proc α × Bool :=
  match k.fork with
  | none => (p, false)
  | some pid =>
      let p := { p with pid }
      if ¬ k.setsid then (p, false)
      else
        let p := { p with sid := p.pid, pgid := p.pid }
        match k.forkAgain with
        | none => (p, false)
        | some pid => ({ p with pid }, true)

/-- `umask(0)` and `chdir("/")`, unless the flags say otherwise. -/
def settle (flags : BitVec 32) (chdir : Bool) (p : Proc α) : Proc α :=
  let p := if ¬ isSet flags BD_NO_UMASK0 then { p with umask := 0 } else p
  if ¬ isSet flags BD_NO_CHDIR ∧ chdir then { p with cwd := "/" } else p

/-- The descriptors below `maxfd` are closed, unless the flags say otherwise. -/
def closeFiles (flags : BitVec 32) (sysconf : BitVec 64) (p : Proc α) : Proc α :=
  if ¬ isSet flags BD_NO_CLOSE_FILES then { p with fds := closeBelow p.fds (maxfd sysconf) } else p

/-- The process that the call returns in, and what it returns. -/
def becomeDaemon (flags : BitVec 32) (p : Proc α) (k : Kernel p) : Proc α × Int :=
  match detach p k with
  | (p, false) => (p, -1)
  | (p, true) =>
      let p := closeFiles flags k.sysconf (settle flags k.chdir p)
      if ¬ isSet flags BD_NO_REOPEN_STD_FDS then
        match reopenStdFds p.fds k.limit k.openNull k.dupStdout k.dupStderr with
        | (t, true) => ({ p with fds := t }, 0)
        | (t, false) => ({ p with fds := t }, -1)
      else (p, 0)

end Tlpi.Daemon
