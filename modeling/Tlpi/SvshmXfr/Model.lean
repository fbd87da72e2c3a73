import Tlpi.Lib.CString
import Tlpi.Lib.System

/-!
# A transfer through shared memory

`svshm/svshm_xfr_writer.c` copies its standard input, block by block, into a System V shared
memory segment, and `svshm/svshm_xfr_reader.c` copies the blocks from there to its standard
output.  Two semaphores, reserved and released by the functions of `svsem/binary_sems.c`, say
whose turn it is.  The two processes are interleaved call by call and access by access: the
writer looks at `shmp->cnt` again after it has given the reader a turn.

The reader may be started at any time; before the writer has made the segment it finds nothing
and ends.  A call that fails ends its process (`errExit`, `fatal`), and a process may be killed
at any point (`Event.die`, which stands for every failure that leaves nothing behind).  `xfrs`
and `bytes` are `int`s and wrap around.
-/

namespace Tlpi.SvshmXfr

open Tlpi.Lib

inductive Proc
  | writer
  | reader
  deriving DecidableEq, Repr

/-- The next call of the writer. -/
inductive WPc
  | semget
  /-- `initSemAvailable(semid, WRITE_SEM)` -/
  | initAvailable
  /-- `initSemInUse(semid, READ_SEM)` -/
  | initInUse
  | shmget
  | shmat
  /-- `reserveSem(semid, WRITE_SEM)` -/
  | reserve
  | read
  /-- `releaseSem(semid, READ_SEM)` -/
  | release
  /-- `if (shmp->cnt == 0)` -/
  | test
  /-- `xfrs++, bytes += shmp->cnt` -/
  | next
  /-- `reserveSem` once more, after the loop -/
  | lastReserve
  | rmSem
  | shmdt
  | rmShm
  | print
  | exited
  deriving DecidableEq, Repr

/-- The next call of the reader. -/
inductive RPc
  | semget
  | shmget
  | shmat
  /-- `reserveSem(semid, READ_SEM)` -/
  | reserve
  /-- `if (shmp->cnt == 0)`, and `bytes += shmp->cnt` otherwise -/
  | test
  | write
  /-- `releaseSem(semid, WRITE_SEM)` -/
  | release
  /-- `xfrs++` -/
  | next
  | shmdt
  /-- `releaseSem` once more, after the loop -/
  | lastRelease
  | print
  | exited
  /-- After a partial or failed write. -/
  | fatal
  deriving DecidableEq, Repr

structure Writer where
  pc : WPc
  xfrs : BitVec 32
  bytes : BitVec 32
  dead : Bool
  deriving DecidableEq

structure Reader where
  pc : RPc
  xfrs : BitVec 32
  bytes : BitVec 32
  dead : Bool
  deriving DecidableEq

/-- The values of `WRITE_SEM` and `READ_SEM`. -/
structure Sems where
  write : Nat
  read : Nat
  deriving DecidableEq, Repr

/-- `struct shmseg` -/
structure Shmseg where
  cnt : Int
  buf : Bytes
  deriving DecidableEq

/-- The bytes in use. -/
def Shmseg.data (m : Shmseg) : Bytes := m.buf.take m.cnt.toNat

/-- `read` puts `block` at the start of `buf`. -/
def Shmseg.fill (m : Shmseg) (block : Bytes) : Shmseg :=
  ⟨block.length, block ++ m.buf.drop block.length⟩

structure State where
  /-- What is left of the writer's standard input. -/
  stdin : Bytes
  /-- The reader's standard output. -/
  stdout : Bytes
  /-- The semaphore set, if there is one. -/
  sems : Option Sems
  /-- `SHM_KEY` leads to the segment. -/
  shmKey : Bool
  /-- The segment; a new one is zero. -/
  shm : Shmseg
  writer : Writer
  reader : Reader
  deriving DecidableEq

inductive Event
  /-- A step of the writer other than `read`. -/
  | writer
  /-- `read` returns `n`. -/
  | read (n : Nat)
  /-- `read` fails. -/
  | readFails
  /-- A step of the reader other than `write`. -/
  | reader
  /-- `write` writes `n` bytes. -/
  | write (n : Nat)
  /-- A blocked `semop` is interrupted by a signal handler. -/
  | eintr (p : Proc)
  /-- A process ends before its time. -/
  | die (p : Proc)
  deriving DecidableEq, Repr

/-- The largest value of a semaphore. -/
def SEMVMX : Nat := 32767

/-- `binary_sems.c`: `reserveSem` tries again. -/
def bsRetryOnEintr : Bool := true

/-- What a call of `binary_sems.c` on one semaphore comes to. -/
inductive SemOp
  | done (v : Nat)
  | blocks
  | fails
  deriving DecidableEq, Repr

/-- The `semop` of `reserveSem`. -/
def reserveSem (v : Nat) : SemOp := if 0 < v then .done (v - 1) else .blocks

/-- The `semop` of `releaseSem`. -/
def releaseSem (v : Nat) : SemOp := if v < SEMVMX then .done (v + 1) else .fails

def initSemAvailable : Nat := 1

def initSemInUse : Nat := 0

def State.dieWriter (s : State) : State := { s with writer := { s.writer with dead := true } }

def State.dieReader (s : State) : State := { s with reader := { s.reader with dead := true } }

def State.toWriter (s : State) (pc : WPc) : State := { s with writer := { s.writer with pc := pc } }

def State.toReader (s : State) (pc : RPc) : State := { s with reader := { s.reader with pc := pc } }

/-- A semaphore operation on `WRITE_SEM`. -/
def State.onWriteSem (s : State) (op : Nat → SemOp) (ok : State → State) (err : State → State) :
    Option State :=
  match s.sems with
  | none => some (err s)
  | some v =>
      match op v.write with
      | .done x => some (ok { s with sems := some { v with write := x } })
      | .blocks => none
      | .fails => some (err s)

/-- A semaphore operation on `READ_SEM`. -/
def State.onReadSem (s : State) (op : Nat → SemOp) (ok : State → State) (err : State → State) :
    Option State :=
  match s.sems with
  | none => some (err s)
  | some v =>
      match op v.read with
      | .done x => some (ok { s with sems := some { v with read := x } })
      | .blocks => none
      | .fails => some (err s)

theorem State.onWriteSem_cases {s s' : State} {op : Nat → SemOp} {ok err : State → State}
    (h : s.onWriteSem op ok err = some s') :
    s' = err s ∨ ∃ v x, s.sems = some v ∧ op v.write = .done x ∧
      s' = ok { s with sems := some { v with write := x } } := by
  rw [State.onWriteSem] at h
  split at h
  · exact .inl (Option.some.inj h).symm
  · next v hv =>
    split at h
    · next x hx => exact .inr ⟨v, x, hv, hx, (Option.some.inj h).symm⟩
    · cases h
    · exact .inl (Option.some.inj h).symm

theorem State.onReadSem_cases {s s' : State} {op : Nat → SemOp} {ok err : State → State}
    (h : s.onReadSem op ok err = some s') :
    s' = err s ∨ ∃ v x, s.sems = some v ∧ op v.read = .done x ∧
      s' = ok { s with sems := some { v with read := x } } := by
  rw [State.onReadSem] at h
  split at h
  · exact .inl (Option.some.inj h).symm
  · next v hv =>
    split at h
    · next x hx => exact .inr ⟨v, x, hv, hx, (Option.some.inj h).symm⟩
    · cases h
    · exact .inl (Option.some.inj h).symm

theorem reserveSem_eq_done {v x : Nat} : reserveSem v = .done x ↔ v = x + 1 := by
  rw [reserveSem]
  split <;> simp <;> omega

theorem releaseSem_eq_done {v x : Nat} : releaseSem v = .done x ↔ v < SEMVMX ∧ x = v + 1 := by
  rw [releaseSem]
  split <;> simp <;> omega

/-- A step of the writer other than `read`. -/
def stepWriter (s : State) : Option State :=
  match s.writer.pc with
  | .semget => some ({ s with sems := some ⟨0, 0⟩ }.toWriter .initAvailable)
  | .initAvailable =>
      s.onWriteSem (fun _ => .done initSemAvailable) (·.toWriter .initInUse) State.dieWriter
  | .initInUse =>
      s.onReadSem (fun _ => .done initSemInUse) (·.toWriter .shmget) State.dieWriter
  | .shmget => some ({ s with shmKey := true }.toWriter .shmat)
  | .shmat => some (s.toWriter .reserve)
  | .reserve => s.onWriteSem reserveSem (·.toWriter .read) State.dieWriter
  | .read => none
  | .release => s.onReadSem releaseSem (·.toWriter .test) State.dieWriter
  | .test => some (s.toWriter (if s.shm.cnt = 0 then .lastReserve else .next))
  | .next =>
      some { s with writer := { s.writer with
        pc := .reserve
        xfrs := s.writer.xfrs + 1
        bytes := s.writer.bytes + BitVec.ofInt 32 s.shm.cnt } }
  | .lastReserve => s.onWriteSem reserveSem (·.toWriter .rmSem) State.dieWriter
  | .rmSem =>
      match s.sems with
      | none => some s.dieWriter
      | some _ => some ({ s with sems := none }.toWriter .shmdt)
  | .shmdt => some (s.toWriter .rmShm)
  | .rmShm => some ({ s with shmKey := false }.toWriter .print)
  | .print => some (s.toWriter .exited)
  | .exited => none

/-- A step of the reader other than `write`. -/
def stepReader (s : State) : Option State :=
  match s.reader.pc with
  | .semget =>
      match s.sems with
      | none => some s.dieReader
      | some _ => some (s.toReader .shmget)
  | .shmget => if s.shmKey then some (s.toReader .shmat) else some s.dieReader
  | .shmat => some (s.toReader .reserve)
  | .reserve => s.onReadSem reserveSem (·.toReader .test) State.dieReader
  | .test =>
      if s.shm.cnt = 0 then some (s.toReader .shmdt)
      else
        some { s with reader := { s.reader with
          pc := .write
          bytes := s.reader.bytes + BitVec.ofInt 32 s.shm.cnt } }
  | .write => none
  | .release => s.onWriteSem releaseSem (·.toReader .next) State.dieReader
  | .next => some { s with reader := { s.reader with pc := .reserve, xfrs := s.reader.xfrs + 1 } }
  | .shmdt => some (s.toReader .lastRelease)
  | .lastRelease => s.onWriteSem releaseSem (·.toReader .print) State.dieReader
  | .print => some (s.toReader .exited)
  | .exited | .fatal => none

/-- `read` into the segment returns `n`; 0 is the end of the input. -/
def stepRead (BUF_SIZE : Nat) (s : State) (n : Nat) : Option State :=
  if s.writer.pc = .read ∧ n ≤ BUF_SIZE ∧ n ≤ s.stdin.length ∧ (n = 0 → s.stdin = []) then
    some ({ s with
      stdin := s.stdin.drop n
      shm := s.shm.fill (s.stdin.take n) }.toWriter .release)
  else none

/-- `write` from the segment writes `n` bytes. -/
def stepWrite (s : State) (n : Nat) : Option State :=
  if s.reader.pc = .write ∧ n ≤ s.shm.cnt.toNat then
    some ({ s with stdout := s.stdout ++ s.shm.buf.take n }.toReader
      (if (n : Int) = s.shm.cnt then .release else .fatal))
  else none

/-- The process waits for a semaphore. -/
def State.Waits (s : State) : Proc → Prop
  | .writer => s.writer.pc = .reserve ∨ s.writer.pc = .lastReserve
  | .reader => s.reader.pc = .reserve

instance (s : State) : DecidablePred s.Waits := fun
  | .writer => inferInstanceAs (Decidable (_ ∨ _))
  | .reader => inferInstanceAs (Decidable (_ = _))

def State.die (s : State) : Proc → State
  | .writer => s.dieWriter
  | .reader => s.dieReader

def State.dead (s : State) : Proc → Bool
  | .writer => s.writer.dead
  | .reader => s.reader.dead

/-- One step. -/
def step (BUF_SIZE : Nat) (s : State) : Event → Option State
  | .writer => if s.writer.dead then none else stepWriter s
  | .read n => if s.writer.dead then none else stepRead BUF_SIZE s n
  | .readFails =>
      if s.writer.dead ∨ s.writer.pc ≠ .read then none
      else some { s with shm := { s.shm with cnt := -1 } }.dieWriter
  | .reader => if s.reader.dead then none else stepReader s
  | .write n => if s.reader.dead then none else stepWrite s n
  | .eintr p =>
      if s.dead p ∨ ¬ s.Waits p then none else some (if bsRetryOnEintr then s else s.die p)
  | .die p => if s.dead p then none else some (s.die p)

def init (BUF_SIZE : Nat) (input : Bytes) : State where
  stdin := input
  stdout := []
  sems := none
  shmKey := false
  shm := ⟨0, List.replicate BUF_SIZE 0⟩
  writer := ⟨.semget, 0, 0, false⟩
  reader := ⟨.semget, 0, 0, false⟩

def system (BUF_SIZE : Nat) (input : Bytes) : System State Event :=
  ⟨init BUF_SIZE input, step BUF_SIZE⟩

end Tlpi.SvshmXfr
