import Tlpi.Lib.Fgets
import Tlpi.Lib.Scan
import Tlpi.ProcTree.Model

/-!
# Reading the process table

The first half of `main` of `chapter12/exercise_2.c`: it goes through `/proc` and puts a process
into the table for each directory that is named by a number.  An entry of the listing comes with
what the calls for it return: a process may end between them, so each file may be there or not.

The array `processes` has `MAX_PROCESSES` elements, and nothing checks the index of a store; the
scan does not go on behind a store that is outside the array.
-/

namespace Tlpi.ProcTree

open Tlpi.Lib

def MAX_CMD_LEN : Nat := 1024

def MAX_LINE_LEN : Nat := 256

/-- An entry of `/proc`.  `malloc` is whether there is memory for the process; `status`,
`cmdline` and `comm` are the contents of its files, `none` for one that cannot be opened. -/
structure Entry where
  isDir : Bool
  d_name : Bytes
  malloc : Bool
  status : Option Bytes
  cmdline : Option Bytes
  comm : Option Bytes
  deriving DecidableEq

/-- The loop of `getPpid`, over what `fgets` puts into `line`. -/
def ppidOf : List Bytes → Int
  | [] => -1
  | line :: rest =>
      if strncmp (cstring line) (ascii "PPid:") 5 = 0 then atoi ((cstring line).drop 5)
      else ppidOf rest

def getPpid : Option Bytes → Int
  | none => -1
  | some status => ppidOf (reads MAX_LINE_LEN status)

/-- The name in `comm`, without its newline. -/
def commName (comm : Option Bytes) : Bytes :=
  match comm.bind (fgets MAX_CMD_LEN) with
  | none => ascii "[unknown]"
  | some (buffer, _) =>
      let name := cstring buffer
      if name.getLast? = some 10 then name.dropLast else name

def getCmdline (cmdline comm : Option Bytes) : Bytes :=
  match cmdline with
  | none => ascii "[unknown]"
  | some file =>
      let buffer := file.take (MAX_CMD_LEN - 1)
      if buffer = [] then commName comm
      -- the arguments end with a NUL each
      else buffer.map fun c => if c = 0 then 32 else c

/-- A text, byte by byte. -/
def ofBytes (bytes : Bytes) : String := String.ofList (bytes.map fun c => Char.ofNat c.toNat)

/-- `createProcess(pid)`, where `malloc` has succeeded. -/
def createProcess (pid : Int) (e : Entry) : Process :=
  ⟨pid, getPpid e.status, ofBytes (getCmdline e.cmdline e.comm), []⟩

/-- A directory whose name has only digits. -/
def Entry.isPid (e : Entry) : Bool := e.isDir && e.d_name.all isdigit

/-- How the scan ends. -/
inductive Scan
  | table (processes : List Process)
  /-- `exit(EXIT_FAILURE)` in `createProcess` -/
  | noMemory
  /-- a store `processes[process_count++]` with `process_count` not below `MAX_PROCESSES` -/
  | outOfBounds
  deriving DecidableEq

/-- `while ((entry = readdir(dir)) != NULL)` -/
def scan (processes : List Process) : List Entry → Scan
  | [] => .table processes
  | e :: entries =>
      if e.isPid then
        if e.malloc then
          let proc := createProcess (atoi e.d_name) e
          if proc.ppid ≠ -1 then
            if processes.length < MAX_PROCESSES then scan (processes ++ [proc]) entries
            else .outOfBounds
          else scan processes entries
        else .noMemory
      else scan processes entries

/-- A listing of `/proc`: the numbers there are PIDs. -/
structure Listing where
  entries : List Entry
  pid_pos : ∀ e ∈ entries, e.isPid = true → 0 < atoi e.d_name

end Tlpi.ProcTree
