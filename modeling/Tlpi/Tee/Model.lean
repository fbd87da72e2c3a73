import Tlpi.Lib.FileSys

/-!
# `tee`

`main` of `chapter4/tee.c`, from the opening of the files on: `append` is `append_flag`
and the names are those that `getopt` leaves.  Standard input is a stream of bytes that
no output of the program reaches; standard output is what has been written to it.

The answers of the kernel are data of the run.  A `Pass` has those of one pass through
the loop: how many bytes are ready for the `read`, and how many bytes each `write` takes,
where `none` is `-1`.  The run that has used up its passes is still `running`.
-/

namespace Tlpi.Tee

open Tlpi.Lib

def BUFSIZ : Nat := 8192

/-- The answers to the calls of one pass: `writes i` is for `fd_array[i]`. -/
structure Pass where
  read : Option Nat
  writeStdout : Option Nat
  writes : Nat → Option Nat

/-- What makes the program `exit(EXIT_FAILURE)`. -/
inductive Failure
  | opening (name : String)
  | writingStdout
  | writing (name : String)
  | reading
  | closing (name : String)
  deriving DecidableEq, Repr

/-- How a run stands: still in the loop, or left with an exit status. -/
inductive Status
  | running
  | success
  | failure (e : Failure)
  deriving DecidableEq, Repr

/-- `file_names[i]` and `fd_array[i]`: the inode that it is open on, and the offset. -/
structure File where
  name : String
  ino : Nat
  off : Nat

structure State where
  fs : Fs
  inOff : Nat
  out : Bytes
  files : List File

/-- `open` with `O_WRONLY | O_CREAT | (append_flag ? O_APPEND : O_TRUNC)`. -/
def openFile (append : Bool) (fs : Fs) (name : String) : Fs × Nat :=
  if append then fs.touch name else fs.creat name

/-- The loop that opens the files, from `fd_array[i]` on. -/
def openFiles (append : Bool) (opens : Nat → Bool) :
    Nat → Fs → List String → Fs × Except Failure (List File)
  | _, fs, [] => (fs, .ok [])
  | i, fs, name :: names =>
      if ¬ opens i then (fs, .error (.opening name))
      else
        let (fs, ino) := openFile append fs name
        match openFiles append opens (i + 1) fs names with
        | (fs, .ok files) => (fs, .ok (⟨name, ino, 0⟩ :: files))
        | r => r

/-- Where `write` puts its bytes: with `O_APPEND` at the end of the file. -/
def File.position (append : Bool) (fs : Fs) (f : File) : Nat :=
  if append then (fs.data f.ino).length else f.off

/-- `write(fd_array[i], ..)` that takes the bytes `b`. -/
def File.write (append : Bool) (fs : Fs) (f : File) (b : Bytes) : Fs × File :=
  (fs.setData f.ino (pwrite (fs.data f.ino) (f.position append fs) b),
    { f with off := f.position append fs + b.length })

/-- The loop that writes `buf` to the files, from `fd_array[i]` on. -/
def writeFiles (append : Bool) (writes : Nat → Option Nat) (buf : Bytes) :
    Nat → Fs → List File → Fs × List File × Option Failure
  | _, fs, [] => (fs, [], none)
  | i, fs, f :: files =>
      match writes i with
      | none => (fs, f :: files, some (.writing f.name))
      | some w =>
          let (fs, f') := f.write append fs (buf.take w)
          if (buf.take w).length ≠ buf.length then (fs, f' :: files, some (.writing f.name))
          else
            let (fs, files, e) := writeFiles append writes buf (i + 1) fs files
            (fs, f' :: files, e)

/-- One pass through `while ((num_read = read(STDIN_FILENO, buffer, BUFSIZ)) > 0)`. -/
def pass (append : Bool) (input : Bytes) (s : State) (a : Pass) : State × Status :=
  match a.read with
  | none => (s, .failure .reading)
  | some k =>
      let buf := readAt input s.inOff BUFSIZ k
      if buf = [] then (s, .success)
      else
        let s := { s with inOff := s.inOff + buf.length }
        match a.writeStdout with
        | none => (s, .failure .writingStdout)
        | some w =>
            let s := { s with out := s.out ++ buf.take w }
            if (buf.take w).length ≠ buf.length then (s, .failure .writingStdout)
            else
              let (fs, files, e) := writeFiles append a.writes buf 0 s.fs s.files
              ({ s with fs, files }, match e with | none => .running | some e => .failure e)

def loop (append : Bool) (input : Bytes) (s : State) : List Pass → State × Status
  | [] => (s, .running)
  | a :: as =>
      match pass append input s a with
      | (s', .running) => loop append input s' as
      | r => r

/-- The loop that closes the files, from `fd_array[i]` on. -/
def closeFiles (closes : Nat → Bool) : Nat → List File → Status
  | _, [] => .success
  | i, f :: files => if ¬ closes i then .failure (.closing f.name) else closeFiles closes (i + 1) files

/-- The answers to all calls of a run. -/
structure Kernel where
  opens : Nat → Bool
  passes : List Pass
  closes : Nat → Bool

/-- What a run leaves: the file system, what went to standard output, and the status. -/
structure Outcome where
  fs : Fs
  out : Bytes
  status : Status

def main (append : Bool) (names : List String) (fs : Fs) (input : Bytes) (k : Kernel) : Outcome :=
  match openFiles append k.opens 0 fs names with
  | (fs, .error e) => ⟨fs, [], .failure e⟩
  | (fs, .ok files) =>
      match loop append input ⟨fs, 0, [], files⟩ k.passes with
      | (s, .success) => ⟨s.fs, s.out, closeFiles k.closes 0 s.files⟩
      | (s, st) => ⟨s.fs, s.out, st⟩

end Tlpi.Tee
