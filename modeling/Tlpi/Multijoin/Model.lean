import Tlpi.Lib.System

/-!
# Joining threads as they end

`chapter30/thread_multijoin.c`: `main` creates one thread for each of its `n`
arguments and then joins whichever thread has marked its slot of the array
`thread` as terminated.  Every worker gets the address of `main`'s loop variable
`idx` and reads its own index through it.

The steps are those of the source: a worker's read of its index, its mutex
section, and each call, assignment and loop step of `main` are one step each.
The array is the list `slots`; an access outside it changes nothing here and is
written down in `accesses` like every other.  A wait on the condition variable
ends after a signal or spuriously.
-/

namespace Tlpi.Multijoin

open Tlpi.Lib

/-- `enum tstate` -/
inductive TState
  | alive
  | terminated
  | joined
  deriving DecidableEq, Repr

/-- An element of the array `thread`. -/
structure Slot where
  tid : Nat
  state : TState
  sleepTime : Nat
  deriving DecidableEq, Repr

/-- Where a worker is in `threadFunc`; from its first step on it holds an index. -/
inductive WorkerPc
  | started
  | hasIdx (idx : Nat)
  | awake (idx : Nat)
  | updated (idx : Nat)
  | ended (idx : Nat)
  | joined (idx : Nat)
  deriving DecidableEq, Repr

/-- The index a worker has read. -/
def WorkerPc.index : WorkerPc → Option Nat
  | .started => none
  | .hasIdx i | .awake i | .updated i | .ended i | .joined i => some i

/-- Where `main` is. -/
inductive MainPc
  /-- `idx < argc - 1` -/
  | createTest
  /-- `thread[idx].sleepTime = ..; thread[idx].state = TS_ALIVE` -/
  | fill
  /-- `pthread_create(&thread[idx].tid, NULL, threadFunc, &idx)` -/
  | create
  /-- `idx++` of the first loop -/
  | createNext
  /-- `totThreads = argc - 1; numLive = totThreads` -/
  | initCounts
  /-- `numLive > 0` -/
  | liveTest
  /-- `pthread_mutex_lock` -/
  | lock
  /-- `numUnjoined == 0` -/
  | condTest
  /-- in `pthread_cond_wait` -/
  | condWait
  /-- `idx < totThreads` -/
  | forTest
  /-- `thread[idx].state == TS_TERMINATED` -/
  | check
  /-- `pthread_join(thread[idx].tid, NULL)` -/
  | join
  /-- `thread[idx].state = TS_JOINED; numLive--; numUnjoined--` -/
  | mark
  /-- `idx++` of the second loop -/
  | forNext
  /-- `pthread_mutex_unlock` -/
  | unlock
  | exited
  /-- left through `errExit` -/
  | failed
  deriving DecidableEq, Repr

structure State where
  slots : List Slot
  workers : List WorkerPc
  pc : MainPc
  idx : Nat
  totThreads : Nat
  numLive : Int
  numUnjoined : Int
  /-- `main` holds `threadMutex`. -/
  locked : Bool
  /-- `threadDied` was signalled while `main` waited. -/
  signalled : Bool
  /-- The index of every access to `thread`, in order. -/
  accesses : List Nat
  /-- The threads that `pthread_join` has returned for, in order. -/
  joinLog : List Nat
  deriving DecidableEq, Repr

inductive Ev
  /-- the next step of `main` -/
  | main
  /-- the call `main` makes next fails -/
  | mainFails
  /-- `pthread_cond_wait` returns without a signal -/
  | spurious
  /-- the next step of worker `k` -/
  | worker (k : Nat)
  deriving DecidableEq, Repr

/-- After `calloc`, which zeroes the array. -/
def init (sleepTimes : List Nat) : State :=
  { slots := List.replicate sleepTimes.length ⟨0, .alive, 0⟩
    workers := []
    pc := .createTest
    idx := 0
    totThreads := 0
    numLive := 0
    numUnjoined := 0
    locked := false
    signalled := false
    accesses := []
    joinLog := [] }

/-- The next step of `main`; `sleepTimes` are the parsed arguments. -/
def mainStep (sleepTimes : List Nat) (s : State) : Option State :=
  match s.pc with
  | .createTest => some { s with pc := if s.idx < sleepTimes.length then .fill else .initCounts }
  | .fill =>
      some { s with
        slots := s.slots.modify s.idx fun t =>
          { t with sleepTime := sleepTimes.getD s.idx 0, state := .alive }
        accesses := s.accesses ++ [s.idx]
        pc := .create }
  | .create =>
      some { s with
        slots := s.slots.modify s.idx fun t => { t with tid := s.workers.length }
        workers := s.workers ++ [.started]
        accesses := s.accesses ++ [s.idx]
        pc := .createNext }
  | .createNext => some { s with idx := s.idx + 1, pc := .createTest }
  | .initCounts =>
      some { s with
        totThreads := sleepTimes.length
        numLive := sleepTimes.length
        pc := .liveTest }
  | .liveTest => some { s with pc := if 0 < s.numLive then .lock else .exited }
  | .lock => if s.locked then none else some { s with locked := true, pc := .condTest }
  | .condTest =>
      if s.numUnjoined = 0 then
        some { s with locked := false, signalled := false, pc := .condWait }
      else some { s with idx := 0, pc := .forTest }
  | .condWait => if s.signalled then some { s with locked := true, pc := .condTest } else none
  | .forTest => some { s with pc := if s.idx < s.totThreads then .check else .unlock }
  | .check =>
      some { s with
        accesses := s.accesses ++ [s.idx]
        pc := if (s.slots[s.idx]?).map Slot.state = some .terminated then .join else .forNext }
  | .join =>
      match s.slots[s.idx]? with
      | none => none
      | some t =>
          match s.workers[t.tid]? with
          | some (.ended i) =>
              some { s with
                workers := s.workers.set t.tid (.joined i)
                accesses := s.accesses ++ [s.idx]
                joinLog := s.joinLog ++ [t.tid]
                pc := .mark }
          | some (.joined _) | none => some { s with pc := .failed }
          | some _ => none
  | .mark =>
      some { s with
        slots := s.slots.modify s.idx fun t => { t with state := .joined }
        numLive := s.numLive - 1
        numUnjoined := s.numUnjoined - 1
        accesses := s.accesses ++ [s.idx]
        pc := .forNext }
  | .forNext => some { s with idx := s.idx + 1, pc := .forTest }
  | .unlock => some { s with locked := false, pc := .liveTest }
  | .exited | .failed => none

/-- The next step of worker `k`. -/
def workerStep (s : State) (k : Nat) : Option State :=
  match s.workers[k]? with
  | some .started => some { s with workers := s.workers.set k (.hasIdx s.idx) }
  | some (.hasIdx i) =>
      some { s with workers := s.workers.set k (.awake i), accesses := s.accesses ++ [i] }
  | some (.awake i) =>
      if s.locked then none
      else
        some { s with
          numUnjoined := s.numUnjoined + 1
          slots := s.slots.modify i fun t => { t with state := .terminated }
          workers := s.workers.set k (.updated i)
          accesses := s.accesses ++ [i] }
  | some (.updated i) =>
      some { s with workers := s.workers.set k (.ended i), signalled := true }
  | _ => none

def step (sleepTimes : List Nat) (s : State) : Ev → Option State
  | .main => mainStep sleepTimes s
  | .mainFails =>
      match s.pc with
      | .create | .lock | .condWait | .join | .unlock => some { s with pc := .failed }
      | _ => none
  | .spurious =>
      match s.pc with
      | .condWait => some { s with locked := true, pc := .condTest }
      | _ => none
  | .worker k =>
      match s.pc with
      | .exited | .failed => none
      | _ => workerStep s k

def system (sleepTimes : List Nat) : System State Ev := ⟨init sleepTimes, step sleepTimes⟩

/-- The number of slots in a given state. -/
def State.countSlots (s : State) (st : TState) : Nat := s.slots.countP fun t => t.state == st

/-- What the program is meant to guarantee in a state: all accesses are inside the
array, no two workers hold the same index, `numUnjoined` is the number of
terminated slots when the mutex is free, and `main` is through only when every
thread was joined exactly once. -/
def Sound (n : Nat) (s : State) : Prop :=
  (∀ i ∈ s.accesses, i < n) ∧
  (∀ j k i : Nat, (s.workers[j]?).bind WorkerPc.index = some i →
    (s.workers[k]?).bind WorkerPc.index = some i → j = k) ∧
  (s.locked = false → s.numUnjoined = s.countSlots .terminated) ∧
  (s.pc = .exited → ∀ k, k < n → s.joinLog.count k = 1)

end Tlpi.Multijoin
