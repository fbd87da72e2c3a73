import Mathlib.Data.Finset.Basic

/-!
# Signal sets

A `sigset_t` is the finite set of the signal numbers in it, so `sigemptyset` is
`∅` and `sigaddset` is `insert`.  `sigprocmask how set mask` is the mask that the
call of that name leaves behind; `blockable` is what the kernel takes of a `sigset_t`
whose contents are not known to be a mask.
-/

namespace Tlpi.Lib

/-- A `sigset_t`. -/
abbrev SigSet := Finset Nat

def SIGINT : Nat := 2

def SIGQUIT : Nat := 3

def SIGKILL : Nat := 9

def SIGCHLD : Nat := 17

def SIGSTOP : Nat := 19

/-- The first argument of `sigprocmask`. -/
inductive SigHow
  | block
  | setmask
  deriving DecidableEq, Repr

/-- The mask after `sigprocmask(how, &set, ..)`. -/
def sigprocmask (how : SigHow) (set mask : SigSet) : SigSet :=
  match how with
  | .block => mask ∪ set
  | .setmask => set

/-- What a call that installs a mask takes of a `sigset_t`: the signals that there are, without
those that cannot be blocked. -/
def blockable (set : SigSet) : SigSet :=
  set.filter fun sig => 1 ≤ sig ∧ sig ≤ 64 ∧ sig ≠ SIGKILL ∧ sig ≠ SIGSTOP

/-- The mask of a process. -/
structure Mask where
  set : SigSet
  blockable_eq : blockable set = set

end Tlpi.Lib
