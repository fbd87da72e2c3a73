import Tlpi.Lib.FileSys

/-!
# The two copying programs

`main` of `chapter4/copy.c` and of `chapter4/cp.c`.  Both open the source, create or
truncate the destination, and copy in a loop; `cp` does not write a block of zero
bytes but moves the output offset past it, to the input offset.

What the kernel answers to the calls of one pass through the loop is a `Pass`: how
many bytes are ready for the `read`, whether each `lseek` succeeds, and how many
bytes the `write` takes.  A run is a list of passes.  The run that has used up its
passes is still `running`.
-/

namespace Tlpi.Copy

open Tlpi.Lib

/-- The kernel's answers to the calls of one pass: `none` is `-1`. -/
structure Pass where
  read : Option Nat
  lseekIn : Bool
  lseekOut : Bool
  write : Option Nat
  deriving DecidableEq, Repr

/-- The answers of a pass whose calls all succeed, with `k` bytes ready for `read`
and the `write` of a buffer of `size` bytes complete. -/
def Pass.ok (size k : Nat) : Pass := ⟨some k, true, true, some size⟩

/-- How a run stands: still in the loop, or left with an exit status. -/
inductive Status
  | running
  | success
  | failure
  deriving DecidableEq, Repr

/-- The open files of the program: two inodes, two offsets. -/
structure State where
  fs : Fs
  inIno : Nat
  inOff : Nat
  outIno : Nat
  outOff : Nat

/-- The file system after `write(outputFd, buf, ..)` took the first `w` bytes of
`buf`, and the new output offset. -/
def State.writeOut (s : State) (buf : Bytes) (w : Nat) : State :=
  { s with
    fs := s.fs.setData s.outIno (pwrite (s.fs.data s.outIno) s.outOff (buf.take w))
    outOff := s.outOff + (buf.take w).length }

/-! ### `copy.c` -/

namespace Plain

def BUF_SIZE : Nat := 1024

/-- One pass through `while ((numRead = read(inputFd, buf, BUF_SIZE)) > 0)`. -/
def pass (s : State) (a : Pass) : State × Status :=
  match a.read with
  | none => (s, .failure)
  | some k =>
      let buf := readAt (s.fs.data s.inIno) s.inOff BUF_SIZE k
      if buf = [] then (s, .success)
      else
        let s := { s with inOff := s.inOff + buf.length }
        match a.write with
        | none => (s, .failure)
        | some w => (s.writeOut buf w, if (buf.take w).length ≠ buf.length then .failure else .running)

def loop (s : State) : List Pass → State × Status
  | [] => (s, .running)
  | a :: as =>
      match pass s a with
      | (s', .running) => loop s' as
      | r => r

/-- `copy old new`, with the answers of the passes and of the two `close` calls. -/
def main (fs : Fs) (old new : String) (as : List Pass) (closes : Bool) : Fs × Status :=
  match fs.names old with
  | none => (fs, .failure)
  | some i =>
      let (fs', o) := fs.creat new
      match loop ⟨fs', i, 0, o, 0⟩ as with
      | (s, .success) => (s.fs, if closes then .success else .failure)
      | (s, st) => (s.fs, st)

end Plain

/-! ### `cp.c` -/

namespace Holes

def BUF_SIZE : Nat := 4096

/-- The loop that sets `allZeros`. -/
def allZeros : Bytes → Bool
  | [] => true
  | b :: buf => if b ≠ 0 then false else allZeros buf

/-- One pass through `while ((numRead = read(inputFd, buf, BUF_SIZE)) > 0)`. -/
def pass (s : State) (a : Pass) : State × Status :=
  match a.read with
  | none => (s, .failure)
  | some k =>
      let buf := readAt (s.fs.data s.inIno) s.inOff BUF_SIZE k
      if buf = [] then (s, .success)
      else
        let s := { s with inOff := s.inOff + buf.length }
        if ¬ a.lseekIn then (s, .failure)
        else if allZeros buf then
          if ¬ a.lseekOut then (s, .failure)
          else ({ s with outOff := s.inOff }, .running)
        else
          match a.write with
          | none => (s, .failure)
          | some w =>
              (s.writeOut buf w, if (buf.take w).length ≠ buf.length then .failure else .running)

def loop (s : State) : List Pass → State × Status
  | [] => (s, .running)
  | a :: as =>
      match pass s a with
      | (s', .running) => loop s' as
      | r => r

/-- `cp source dest`, with the answers of the passes and of the two `close` calls. -/
def main (fs : Fs) (source dest : String) (as : List Pass) (closes : Bool) : Fs × Status :=
  match fs.names source with
  | none => (fs, .failure)
  | some i =>
      let (fs', o) := fs.creat dest
      match loop ⟨fs', i, 0, o, 0⟩ as with
      | (s, .success) => (s.fs, if closes then .success else .failure)
      | (s, st) => (s.fs, st)

end Holes

end Tlpi.Copy
