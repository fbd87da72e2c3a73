import Tlpi.Lib.Scan

/-!
# The processes of a user

`main` of `chapter12/exercise_1.c`, with `userIdFromName` of `lib/ugid_functions.c`.  The
program goes through `/proc`; for each process it reads the first `MAX_LINE - 1` bytes of
the file `status`, looks for `Uid:` in them, takes the number behind it for the user and
prints the process if that is the user it was asked for.

Strings are lists of bytes up to the terminator.  Behind the end of the string, where a
pointer gets if `Uid:` are the last four bytes of it, the model has nothing; the program
reads whatever is in the array.
-/

namespace Tlpi.UserProcs

open Tlpi.Lib

def MAX_LINE : Nat := 1000

/-- `"Name:"` -/
def nameKey : Bytes := [78, 97, 109, 101, 58]

/-- `"Uid:"` -/
def uidKey : Bytes := [85, 105, 100, 58]

/-- `"--help"` -/
def helpOption : Bytes := [45, 45, 104, 101, 108, 112]

/-- `userIdFromName(name)`; `none` is `NULL`. -/
def userIdFromName (getpwnam : Bytes → Option (BitVec 32)) (name : Option Bytes) : BitVec 32 :=
  match name with
  | none => -1
  | some name =>
      if name = [] then -1
      else
        let (u, rest) := strtol name
        if rest = [] then BitVec.ofInt 32 u
        else
          match getpwnam name with
          | none => -1
          | some uid => uid

/-- An entry of `/proc`, with what its file `status` contains; `none` when that cannot be
opened or read. -/
structure Entry where
  name : Bytes
  status : Option Bytes
  deriving DecidableEq

/-- A line of the output. -/
structure Row where
  pid : Bytes
  command : Bytes
  deriving DecidableEq

/-- The string in `buffer` after the `read`. -/
def buffer (status : Bytes) : Bytes := (status.take (MAX_LINE - 1)).takeWhile (· ≠ 0)

/-- `cmdName`, from the pointer `nameLinePtr` on. -/
def cmdName (nameLine : Bytes) : Bytes :=
  (((nameLine.drop 5).dropWhile isspace).takeWhile fun c => !isspace c).take 255

/-- `processUid`, from the pointer `uidLinePtr` on. -/
def processUid (uidLine : Bytes) : BitVec 32 :=
  BitVec.ofInt 32 (strtol ((uidLine.drop 5).dropWhile isspace)).1

/-- The name of an entry begins with a digit. -/
def Entry.isProcess (e : Entry) : Bool := e.name.head?.any isdigit

/-- One pass through `while (1)`: what is printed. -/
def row (uid : BitVec 32) (e : Entry) : Option Row :=
  if ¬ e.isProcess then none
  else
    match e.status with
    | none => none
    | some status =>
        if status = [] then none
        else
          match strstr nameKey (buffer status), strstr uidKey (buffer status) with
          | some nameLine, some uidLine =>
              if processUid uidLine = uid then some ⟨e.name, cmdName nameLine⟩ else none
          | _, _ => none

/-- The loop over the entries. -/
def loop (uid : BitVec 32) : List Entry → List Row
  | [] => []
  | e :: entries => (row uid e).toList ++ loop uid entries

/-- The lines that the program prints below the header for the user `user`; `none` when it
gives up before. -/
def main (getpwnam : Bytes → Option (BitVec 32)) (user : Bytes) (entries : List Entry) :
    Option (List Row) :=
  if user = helpOption then none
  else
    let uid := userIdFromName getpwnam (some user)
    if uid = -1 then none else some (loop uid entries)

end Tlpi.UserProcs
