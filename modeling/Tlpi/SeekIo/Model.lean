import Tlpi.GetNum.Model

/-!
# Reading and writing at any place of a file

`main` of `chapter4/seek_io.c`.  Each argument after the name of the file is a command: read
and show as text (`r`) or in hexadecimal (`R`), write (`w`), or move the file offset (`s`).

A `char` has eight bits and a sign.  In `printf("%02x", (unsigned int) buf[j])` it is first
made an `int`, which keeps its value, and then an `unsigned int`, which keeps the bits of the
`int`.
-/

namespace Tlpi.SeekIo

open Tlpi.Lib GetNum

/-- What the kernel and the library answer to the calls of a command: `none` is `-1`. -/
structure Answers where
  malloc : Bool
  read : Option Nat
  write : Option Nat
  lseek : Bool
  deriving DecidableEq

/-- The file and its offset, and what has been printed. -/
structure State where
  file : Bytes
  off : Nat
  out : Bytes
  deriving DecidableEq

/-- How the program ends before its last argument. -/
inductive Stop
  | getLong (e : Exit)
  | errExit (call : String)
  | cmdLineErr (arg : Bytes)
  | usageErr
  deriving DecidableEq

/-- `read` transfers no more than this, whatever it is asked for. -/
def MAX_RW_COUNT : Nat := 0x7ffff000

/-! ### `printf` -/

def hexDigit (d : Nat) : UInt8 := if d < 10 then UInt8.ofNat (48 + d) else UInt8.ofNat (87 + d)

/-- The eight hexadecimal digits of an `unsigned int`. -/
def nibbles (x : BitVec 32) : List Nat := [7, 6, 5, 4, 3, 2, 1, 0].map fun i => x.toNat / 16 ^ i % 16

/-- `%02x`: without leading zeros, but two digits at least. -/
def hex02 (x : BitVec 32) : Bytes :=
  (((nibbles x).take 6).dropWhile (· = 0) ++ (nibbles x).drop 6).map hexDigit

/-- `(unsigned int) c` for a `char`. -/
def unsignedInt (c : UInt8) : BitVec 32 := c.toBitVec.signExtend 32

def isprint (c : UInt8) : Bool := 32 ≤ c.toNat ∧ c.toNat < 127

/-- What is printed for `buf[j]`, `kind` being the first character of the command. -/
def showByte (kind c : UInt8) : Bytes :=
  if kind = 114 then [if isprint c then c else 63] else hex02 (unsignedInt c)

/-! ### The commands -/

/-- What a command of `len` bytes reads, if `k` bytes are ready. -/
def bytesRead (st : State) (len k : Nat) : Bytes :=
  readAt st.file st.off (min len MAX_RW_COUNT) k

/-- `r` and `R`. -/
def readCommand (ans : Answers) (st : State) (kind : UInt8) (text : Bytes) : Except Stop State :=
  match getLong (some text) GN_ANY_BASE (some (kind :: text)) with
  | .error e => .error (.getLong e)
  | .ok v =>
      let len := (BitVec.ofInt 64 v).toNat
      if ans.malloc = false then .error (.errExit "malloc")
      else
        match ans.read with
        | none => .error (.errExit "read")
        | some k =>
            let buf := bytesRead st len k
            if buf = [] then
              .ok { st with out := st.out ++ (kind :: text ++ ascii ": end-of-file\n") }
            else
              .ok { st with
                off := st.off + buf.length
                out := st.out ++ (kind :: text ++ ascii ": " ++ buf.flatMap (showByte kind) ++
                  ascii "\n") }

/-- `w`. -/
def writeCommand (ans : Answers) (st : State) (text : Bytes) : Except Stop State :=
  match ans.write with
  | none => .error (.errExit "write")
  | some k =>
      let written := text.take k
      .ok { st with
        file := pwrite st.file st.off written
        off := st.off + written.length
        out := st.out ++ (119 :: text ++ ascii ": wrote " ++ decimal written.length ++
          ascii " bytes\n") }

/-- `s`; the kernel refuses a negative offset. -/
def seekCommand (ans : Answers) (st : State) (text : Bytes) : Except Stop State :=
  match getLong (some text) GN_ANY_BASE (some (115 :: text)) with
  | .error e => .error (.getLong e)
  | .ok v =>
      if ans.lseek = false ∨ v < 0 then .error (.errExit "lseek")
      else .ok { st with
        off := v.toNat
        out := st.out ++ (115 :: text ++ ascii ": seek succeeded\n") }

/-- `switch (argv[ap][0])`. -/
def command (ans : Answers) (st : State) (arg : Bytes) : Except Stop State :=
  match arg with
  | [] => .error (.cmdLineErr arg)
  | kind :: text =>
      if kind = 114 ∨ kind = 82 then readCommand ans st kind text
      else if kind = 119 then writeCommand ans st text
      else if kind = 115 then seekCommand ans st text
      else .error (.cmdLineErr arg)

/-- `for (ap = 2; ap < argc; ap++)`: how the program ends, and the file and the output then. -/
def loop (st : State) : List (Bytes × Answers) → State × Option Stop
  | [] => (st, none)
  | (arg, ans) :: args =>
      match command ans st arg with
      | .error stop => (st, some stop)
      | .ok st' => loop st' args

/-- `main` with the arguments after the name of the program, where the file has the contents
`file` once it is open; `none` is an `open` that fails. -/
def main (file : Option Bytes) : List (Bytes × Answers) → Bytes × Option Stop
  | [] => ([], some .usageErr)
  | (name, _) :: args =>
      if args = [] ∨ name = ascii "--help" then ([], some .usageErr)
      else
        match file with
        | none => ([], some (.errExit "open"))
        | some file =>
            let (st, stop) := loop ⟨file, 0, []⟩ args
            (st.out, stop)

end Tlpi.SeekIo
