import Tlpi.Lib.Forest

/-!
# The process tree

`chapter12/exercise_2.c` collects the processes in `/proc` in a table, links each one to
its parent, and prints the tree below PID 1.  A `struct Process` is kept by its index in
the table; the pointers in `children` are such indices.

`printProcessTree` recurs over the children without any bound, so here it runs on fuel;
without enough of it there is no output.  The table is a snapshot that the kernel did not
take at one instant: all that is known of it is in `Table`.
-/

namespace Tlpi.ProcTree

open Tlpi.Lib

def MAX_PROCESSES : Nat := 10000

/-- `struct Process`; `num_children` is the length of `children`. -/
structure Process where
  pid : Int
  ppid : Int
  cmd : String
  children : List Nat
  deriving DecidableEq, Repr

/-- The index of the first process with this PID. -/
def findProcess (processes : List Process) (pid : Int) : Option Nat :=
  processes.findIdx? fun p => p.pid = pid

def addChild (processes : List Process) (parent child : Nat) : List Process :=
  processes.modify parent fun p =>
    if p.children.length < MAX_PROCESSES then { p with children := p.children ++ [child] } else p

/-- The body of the loop in `buildProcessTree`. -/
def linkOne (processes : List Process) (i : Nat) : List Process :=
  match processes[i]? with
  | none => processes
  | some proc =>
      if proc.ppid > 0 then
        match findProcess processes proc.ppid with
        | none => processes
        | some parent => addChild processes parent i
      else processes

def buildProcessTree (processes : List Process) : List Process :=
  (List.range processes.length).foldl linkOne processes

/-- What is printed for one process: two spaces for each level, and `"%d %s\n"`. -/
def line (level : Nat) (p : Process) : List Char :=
  (List.replicate level [' ', ' ']).flatten ++ (toString p.pid).toList ++ ' ' :: p.cmd.toList ++
    ['\n']

/-- `printProcessTree(proc, level)`, `none` for `proc` being `NULL`. -/
def printProcessTree (processes : List Process) : Nat → Option Nat → Nat → Option (List Char)
  | 0, _, _ => none
  | _ + 1, none, _ => some []
  | fuel + 1, some i, level =>
      match processes[i]? with
      | none => none
      | some proc =>
          (proc.children.mapM fun c => printProcessTree processes fuel (some c) (level + 1)).map
            fun ts => line level proc ++ ts.flatten

/-- The table as `main` has read it: no process is linked yet, each directory of `/proc`
that is named by a PID has given one process, PIDs are positive, and PID 1 has no
parent.  Nothing is known of the other parents. -/
structure Table where
  procs : List Process
  distinct : (procs.map Process.pid).Nodup
  le_max : procs.length ≤ MAX_PROCESSES
  pid_pos : ∀ p ∈ procs, 0 < p.pid
  unlinked : ∀ p ∈ procs, p.children = []
  init : ∃ p ∈ procs, p.pid = 1 ∧ p.ppid = 0

/-- `n` links from `ppid` to `pid`, through processes of the table, lead from a process to
PID 1. -/
inductive Table.Chain (t : Table) : Nat → Process → Prop
  | init {p : Process} (hp : p ∈ t.procs) (hpid : p.pid = 1) : t.Chain 0 p
  | link {n : Nat} {p q : Process} (hp : p ∈ t.procs) (hppid : p.ppid = q.pid)
      (hq : t.Chain n q) : t.Chain (n + 1) p

end Tlpi.ProcTree
