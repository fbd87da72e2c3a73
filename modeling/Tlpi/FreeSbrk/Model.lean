import Tlpi.GetNum.Model

/-!
# Freeing every so-many-th block

`chapter7/exercise_1.c` and `chapter7/free_and_sbrk.c` allocate a number of blocks and free some
of them; the first program shows the program break after each allocation as well.  The block that
`ptr[j]` points to is named by its index.

The counter of the loop that frees is an `int`; a step beyond `INT_MAX` wraps around here, and
`overflow` records it, for C promises nothing then.  The loop has no bound of its own, so it runs
on fuel.
-/

namespace Tlpi.FreeSbrk

open Tlpi.Lib Tlpi.GetNum

def MAX_ALLOCS : Int := 1000000

/-- The numbers of the command line. -/
structure Args where
  numAllocs : Int
  blockSize : Int
  freeStep : Int
  freeMin : Int
  freeMax : Int
  deriving DecidableEq

/-- `usageErr` with the text of both programs. -/
def usage (argv : List Bytes) : Exit where
  status := EXIT_FAILURE
  stderr := ascii "Usage: " ++ argv.headD [] ++
    ascii " num-allocs block-size [step [min [max]]]\n"

/-- `cmdLineErr(msg)` -/
def cmdLineErr (msg : String) : Exit where
  status := EXIT_FAILURE
  stderr := ascii "Command-line usage error: " ++ ascii msg

/-- An argument that may be missing. -/
def optional (argv : List Bytes) (i : Nat) (name : String) (missing : Int) : Except Exit Int :=
  if argv.length > i then getInt argv[i]? GN_GT_0 (some (ascii name)) else .ok missing

/-- The checks of `main`, up to the first allocation. -/
def parseArgs (argv : List Bytes) : Except Exit Args :=
  if argv.length < 3 ∨ argv[1]? = some (ascii "--help") then .error (usage argv)
  else do
    let numAllocs ← getInt argv[1]? GN_GT_0 (some (ascii "num-allocs"))
    if numAllocs > MAX_ALLOCS then .error (cmdLineErr "num-allocs > 1000000\n")
    else do
      let blockSize ← getInt argv[2]? (GN_GT_0 ||| GN_ANY_BASE) (some (ascii "block-size"))
      let freeStep ← optional argv 3 "step" 1
      let freeMin ← optional argv 4 "min" 1
      let freeMax ← optional argv 5 "max" numAllocs
      if freeMax > numAllocs then .error (cmdLineErr "free-max > num-allocs\n")
      else .ok ⟨numAllocs, blockSize, freeStep, freeMin, freeMax⟩

/-- What `malloc` and `sbrk` answer: whether the `j`-th allocation succeeds, and the program
break after `j` of them and after the blocks have been freed. -/
structure Kernel where
  malloc : Nat → Bool
  brk : Nat → Nat
  brkFreed : Nat

/-- `n` allocations from the `j`-th on: the program breaks that are shown in the loop, and
whether `malloc` has never failed. -/
def allocLoop (report : Bool) (k : Kernel) : Nat → Nat → List Nat × Bool
  | 0, _ => ([], true)
  | n + 1, j =>
      let shown := if report then [k.brk (j + 1)] else []
      if k.malloc j then
        let (rest, ok) := allocLoop report k n (j + 1)
        (shown ++ rest, ok)
      else (shown, false)

/-- The loop that frees: its counter, the blocks it has freed, and whether the counter has ever
left the range of `int`. -/
structure Loop where
  j : Int
  freed : List Int
  overflow : Bool
  deriving DecidableEq

/-- What an `int` holds of a number. -/
def wrap (x : Int) : Int := (BitVec.ofInt 32 x).toInt

/-- `free(ptr[j]); j += freeStep` -/
def Loop.next (a : Args) (l : Loop) : Loop where
  j := wrap (l.j + a.freeStep)
  freed := l.freed ++ [l.j]
  overflow := l.overflow || decide (l.j + a.freeStep > INT_MAX)

/-- `for (j = freeMin - 1; j < freeMax; j += freeStep)`; `none` if there is not enough fuel. -/
def freeLoop (a : Args) : Nat → Loop → Option Loop
  | 0, _ => none
  | fuel + 1, l => if l.j < a.freeMax then freeLoop a fuel (l.next a) else some l

/-- How a program ends: with a message, in `errExit("malloc")`, or after the loop. -/
inductive Outcome
  | refused (e : Exit)
  | noMemory (breaks : List Nat)
  | done (breaks : List Nat) (l : Loop)

/-- `main`; with `report` the program break is shown after each allocation. -/
def main (report : Bool) (argv : List Bytes) (k : Kernel) (fuel : Nat) : Option Outcome :=
  match parseArgs argv with
  | .error e => some (.refused e)
  | .ok a =>
      match allocLoop report k a.numAllocs.toNat 0 with
      | (breaks, false) => some (.noMemory (k.brk 0 :: breaks))
      | (breaks, true) =>
          (freeLoop a fuel ⟨a.freeMin - 1, [], false⟩).map fun l =>
            .done (k.brk 0 :: breaks ++ [k.brk a.numAllocs.toNat, k.brkFreed]) l

/-- `exercise_1.c` -/
def exercise_1 (argv : List Bytes) (k : Kernel) (fuel : Nat) : Option Outcome :=
  main true argv k fuel

/-- `free_and_sbrk.c` -/
def free_and_sbrk (argv : List Bytes) (k : Kernel) (fuel : Nat) : Option Outcome :=
  main false argv k fuel

end Tlpi.FreeSbrk
