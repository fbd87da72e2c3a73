import Tlpi.Lib.Heap
import Tlpi.Lib.Scan
import Tlpi.Lib.System
import Tlpi.Lib.Tsd

/-!
# Messages in thread-specific data

`strerror_tsd` of `chapter31/tsd.c`.  There is any number of threads, and each of them calls it as
often as it likes and with any error numbers.  What the function calls is one step each, so that the
threads may get in each other's way at any point; the key and the block that a thread gets, and
what is in the memory, are chosen with the step.

`strerror_r` is the one of POSIX: it returns 0 and has stored its message, or it returns an error,
and then the contents of the buffer are unspecified.  What its messages are is not known.
-/

namespace Tlpi.StrerrorTsd

open Tlpi.Lib

abbrev Tid := Nat

/-- `pthread_key_t` -/
abbrev Key := Nat

/-- The size of a buffer. -/
def BUF_SIZE : Nat := 1000

/-- A message that `strerror_r` can store. -/
structure Message where
  text : CStr
  fits : text.bytes.length < BUF_SIZE

/-- What `snprintf(buf, 1000, "Unknown error %d", err)` stores. -/
def unknownError (err : BitVec 32) : Bytes :=
  (ascii "Unknown error " ++ decimalInt err.toInt).take (BUF_SIZE - 1)

/-- The next step of a thread, where `buf` is the pointer in that variable. -/
inductive Pc
  /-- between two calls of `strerrorTsd` -/
  | outside
  /-- `pthread_once(&once, createKey)` -/
  | once
  /-- `pthread_key_create(&strerrorKey, destructor)` in `createKey` -/
  | createKey
  /-- the return from `pthread_once` after that -/
  | created
  | getspecific
  | malloc
  | setspecific (buf : Nat)
  | strerrorR (buf : Nat)
  | snprintf (buf : Nat)
  /-- `return buf` -/
  | ret (buf : Nat)
  /-- The thread has ended. -/
  | ended
  deriving DecidableEq, Repr

/-- A call of `strerrorTsd` that has returned. -/
structure Call where
  err : BitVec 32
  buf : Nat
  deriving DecidableEq, Repr

/-- A thread; `err` is the argument, and `calls` are the calls that have returned, the latest
first. -/
structure Thread where
  pc : Pc
  err : BitVec 32
  calls : List Call
  deriving DecidableEq, Repr

/-- What has become of the process: `failed` is `errExit`, `undefined` a call that is undefined. -/
inductive Status
  | running
  | failed
  | undefined
  deriving DecidableEq, Repr

structure State where
  once : Once Tid
  strerrorKey : Key
  tsd : Tsd Tid Key Nat
  heap : Heap
  thread : Tid → Thread
  status : Status

/-- What a thread does next. -/
inductive Action
  /-- `strerrorTsd(err)` is called. -/
  | call (err : BitVec 32)
  | once
  /-- `pthread_key_create`, which returns `key` -/
  | keyCreate (key : Key)
  | created
  | getspecific
  /-- `malloc(1000)`, which returns `buf` -/
  | malloc (buf : Nat) (bytes : Bytes)
  | setspecific
  /-- `strerror_r(err, buf, 1000)`, which leaves `bytes` behind if it fails -/
  | strerrorR (bytes : Bytes)
  | snprintf
  | ret
  /-- The thread ends. -/
  | exit
  /-- The call that comes next fails, which is an `errExit`. -/
  | fail
  deriving DecidableEq, Repr

structure Event where
  thread : Tid
  action : Action
  deriving DecidableEq, Repr

/-- Thread `t` goes on at `pc`. -/
def State.goto (s : State) (t : Tid) (pc : Pc) : State :=
  { s with thread := Function.update s.thread t { s.thread t with pc := pc } }

/-- A call that is undefined. -/
def State.stray (s : State) : State := { s with status := .undefined }

/-- Something is stored in a block, and then thread `t` goes on at `pc`. -/
def State.stored (s : State) (t : Tid) (pc : Pc) : Option Heap → State
  | none => s.stray
  | some heap => { s.goto t pc with heap := heap }

/-- The calls whose failure is an `errExit`. -/
def Pc.mayFail : Pc → Bool
  | .once | .createKey | .malloc | .setspecific _ => true
  | _ => false

/-- `destructor(buf)` -/
def destructor (heap : Heap) (buf : Nat) : Option Heap := heap.free buf

/-- A step of thread `t`, in `strerrorTsd` or between two calls of it. -/
def strerrorTsd (strerrorR : BitVec 32 → Option Message) (s : State) (t : Tid) :
    Action → Option State
  | .call err =>
      if (s.thread t).pc = .outside then
        some { s with
          thread := Function.update s.thread t { s.thread t with pc := .once, err := err } }
      else none
  | .once =>
      if (s.thread t).pc = .once then
        match s.once with
        | .init => some { s.goto t .createKey with once := .running t }
        -- it waits until the other thread has returned from `createKey`
        | .running _ => none
        | .done => some (s.goto t .getspecific)
      else none
  | .keyCreate key =>
      if (s.thread t).pc = .createKey then
        (s.tsd.create key).map fun tsd => { s.goto t .created with strerrorKey := key, tsd := tsd }
      else none
  | .created =>
      if (s.thread t).pc = .created then some { s.goto t .getspecific with once := .done } else none
  | .getspecific =>
      if (s.thread t).pc = .getspecific then
        match s.tsd.getspecific t s.strerrorKey with
        | none => some s.stray
        | some none => some (s.goto t .malloc)
        | some (some buf) => some (s.goto t (.strerrorR buf))
      else none
  | .malloc buf bytes =>
      if (s.thread t).pc = .malloc ∧ bytes.length = BUF_SIZE then
        (s.heap.malloc buf bytes).map fun heap => { s.goto t (.setspecific buf) with heap := heap }
      else none
  | .setspecific =>
      match (s.thread t).pc with
      | .setspecific buf =>
          match s.tsd.setspecific t s.strerrorKey (some buf) with
          | none => some s.stray
          | some tsd => some { s.goto t (.strerrorR buf) with tsd := tsd }
      | _ => none
  | .strerrorR bytes =>
      match (s.thread t).pc with
      | .strerrorR buf =>
          match strerrorR (s.thread t).err with
          | some message => some (s.stored t (.ret buf) (s.heap.put buf message.text.bytes))
          | none =>
              if bytes.length ≤ BUF_SIZE then
                some (s.stored t (.snprintf buf) (s.heap.fill buf bytes))
              else none
      | _ => none
  | .snprintf =>
      match (s.thread t).pc with
      | .snprintf buf =>
          some (s.stored t (.ret buf) (s.heap.put buf (unknownError (s.thread t).err)))
      | _ => none
  | .ret =>
      match (s.thread t).pc with
      | .ret buf =>
          some { s with
            thread := Function.update s.thread t { s.thread t with
              pc := .outside
              calls := ⟨(s.thread t).err, buf⟩ :: (s.thread t).calls } }
      | _ => none
  | .exit =>
      if (s.thread t).pc = .outside then
        match s.tsd.value t s.strerrorKey with
        | none => some (s.goto t .ended)
        | some buf =>
            let tsd := s.tsd.set t s.strerrorKey none
            some ({ s with tsd := tsd }.stored t .ended (destructor s.heap buf))
      else none
  | .fail => if (s.thread t).pc.mayFail then some { s with status := .failed } else none

def step (strerrorR : BitVec 32 → Option Message) (s : State) (e : Event) : Option State :=
  if s.status = .running then strerrorTsd strerrorR s e.thread e.action else none

def init : State where
  once := .init
  strerrorKey := 0
  tsd := .empty
  heap := .empty
  thread _ := ⟨.outside, 0, []⟩
  status := .running

def system (strerrorR : BitVec 32 → Option Message) : System State Event := ⟨init, step strerrorR⟩

end Tlpi.StrerrorTsd
