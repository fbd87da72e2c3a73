import Tlpi.Lib.Endian

/-!
# The event loop of the inotify programs

`chapter19/exercise_1.c`, `chapter19/demo_inotify.c` and `chapter19/inotify.c` read from an
inotify descriptor into a buffer and go through it with one and the same loop; they differ in
what they print for an event.

`buf` is the memory from the buffer on, a function of the index, as the program may look
behind the end of the buffer if the contents are not what the kernel promises.  An event is a
header of four words and a name; the length of the name is the fourth word.
-/

namespace Tlpi.Inotify

open Tlpi.Lib

/-- `sizeof(struct inotify_event)`. -/
def headerSize : Nat := 16

def NAME_MAX : Nat := 255

/-- The size of `buf` in `exercise_1.c` and in `demo_inotify.c`. -/
def BUF_LEN : Nat := 10 * (headerSize + NAME_MAX + 1)

/-- The size of `buf` in `inotify.c`. -/
def BUF_SIZE : Nat := 10000

/-- An event with its name; the field `len` is the number of bytes of the name. -/
structure Event where
  wd : BitVec 32
  mask : BitVec 32
  cookie : BitVec 32
  name : Bytes
  fits : name.length < 2 ^ 32
  deriving DecidableEq

def Event.len (e : Event) : BitVec 32 := BitVec.ofNat 32 e.name.length

/-- The event as the kernel writes it. -/
def Event.encode (e : Event) : Bytes :=
  encodeInt e.wd ++ (encodeInt e.mask ++ (encodeInt e.cookie ++ (encodeInt e.len ++ e.name)))

/-! ### Memory -/

/-- The `k` bytes from `p` on. -/
def bytesAt (buf : Nat → UInt8) (p : Nat) : Nat → Bytes
  | 0 => []
  | k + 1 => buf p :: bytesAt buf (p + 1) k

theorem length_bytesAt (buf : Nat → UInt8) (p k : Nat) : (bytesAt buf p k).length = k := by
  induction k generalizing p with
  | zero => rfl
  | succ k ih => rw [bytesAt, List.length_cons, ih]

/-- An `int` in memory. -/
def word (buf : Nat → UInt8) (p : Nat) : BitVec 32 := decodeInt (bytesAt buf p 4)

/-- `event = (struct inotify_event *) p`. -/
def eventAt (buf : Nat → UInt8) (p : Nat) : Event where
  wd := word buf p
  mask := word buf (p + 4)
  cookie := word buf (p + 8)
  name := bytesAt buf (p + headerSize) (word buf (p + 12)).toNat
  fits := by
    rw [length_bytesAt]
    exact (word buf (p + 12)).isLt

/-! ### The loop -/

/-- `for (p = buf; p < buf + numRead;)`, from `p` on: where the loop visits an event and which
event that is, and where `p` is when the loop is over. -/
def eventLoop (buf : Nat → UInt8) (numRead p : Nat) : List (Nat × Event) × Nat :=
  if p < numRead then
    let rest := eventLoop buf numRead (p + (headerSize + (word buf (p + 12)).toNat))
    ((p, eventAt buf p) :: rest.1, rest.2)
  else ([], p)
termination_by numRead - p
decreasing_by
  rw [headerSize]
  omega

/-! ### What is printed -/

/-- The bits of `mask` that the programs know. -/
inductive MaskBit
  | IN_ACCESS
  | IN_ATTRIB
  | IN_CLOSE_NOWRITE
  | IN_CLOSE_WRITE
  | IN_CREATE
  | IN_DELETE
  | IN_DELETE_SELF
  | IN_IGNORED
  | IN_ISDIR
  | IN_MODIFY
  | IN_MOVE_SELF
  | IN_MOVED_FROM
  | IN_MOVED_TO
  | IN_OPEN
  | IN_Q_OVERFLOW
  | IN_UNMOUNT
  deriving DecidableEq

/-- As `sys/inotify.h` has them. -/
def MaskBit.value : MaskBit → BitVec 32
  | IN_ACCESS => 0x00000001
  | IN_MODIFY => 0x00000002
  | IN_ATTRIB => 0x00000004
  | IN_CLOSE_WRITE => 0x00000008
  | IN_CLOSE_NOWRITE => 0x00000010
  | IN_OPEN => 0x00000020
  | IN_MOVED_FROM => 0x00000040
  | IN_MOVED_TO => 0x00000080
  | IN_CREATE => 0x00000100
  | IN_DELETE => 0x00000200
  | IN_DELETE_SELF => 0x00000400
  | IN_MOVE_SELF => 0x00000800
  | IN_UNMOUNT => 0x00002000
  | IN_Q_OVERFLOW => 0x00004000
  | IN_IGNORED => 0x00008000
  | IN_ISDIR => 0x40000000

/-- The bits among `bits` that are set, in this order. -/
def setBits (bits : List MaskBit) (mask : BitVec 32) : List MaskBit :=
  bits.filter fun b => mask &&& b.value ≠ 0

/-- What is shown of an event. -/
structure Shown where
  wd : Int
  cookie : Option Int
  mask : List MaskBit
  name : Option Bytes
  deriving DecidableEq

/-- `displayInotifyEvent(event)` of `exercise_1.c` and of `demo_inotify.c`.  A cookie is
printed as an `int`.  The name is printed up to its NUL; the kernel sees to it that there is
one, and the program does not look at `len` for it. -/
def displayInotifyEvent (event : Event) : Shown where
  wd := event.wd.toInt
  cookie := if event.cookie.toNat > 0 then some event.cookie.toInt else none
  mask := setBits [.IN_ACCESS, .IN_ATTRIB, .IN_CLOSE_NOWRITE, .IN_CLOSE_WRITE, .IN_CREATE,
    .IN_DELETE, .IN_DELETE_SELF, .IN_IGNORED, .IN_ISDIR, .IN_MODIFY, .IN_MOVE_SELF,
    .IN_MOVED_FROM, .IN_MOVED_TO, .IN_OPEN, .IN_Q_OVERFLOW, .IN_UNMOUNT] event.mask
  name := if event.len.toNat > 0 then some (event.name.takeWhile (· ≠ 0)) else none

/-- What the loop of `inotify.c` prints for an event. -/
def displayAttrib (event : Event) : Shown where
  wd := event.wd.toInt
  cookie := none
  mask := setBits [.IN_ATTRIB, .IN_CLOSE_WRITE, .IN_DELETE_SELF, .IN_MOVE_SELF] event.mask
  name := none

/-- What is printed for `numRead` bytes, `display` being what the program prints for one
event. -/
def printEvents (display : Event → Shown) (buf : Nat → UInt8) (numRead : Nat) : List Shown :=
  (eventLoop buf numRead 0).1.map fun v => display v.2

/-- How a pass through `while (1)` ends: the program gives up, or it has printed something. -/
inductive PassEnd
  | fatal
  | errExit
  | printed (lines : List Shown)
  deriving DecidableEq

/-- A pass, `size` being the size of the buffer, and `answer` the number of bytes that the
kernel has; `none` is a `read` that fails. -/
def pass (display : Event → Shown) (size : Nat) (buf : Nat → UInt8) (answer : Option Nat) :
    PassEnd :=
  match answer with
  | none => .errExit
  | some n =>
      let numRead := min n size
      if numRead = 0 then .fatal else .printed (printEvents display buf numRead)

/-- The loop of `exercise_1.c`, and that of `demo_inotify.c`. -/
def displayPass : (Nat → UInt8) → Option Nat → PassEnd := pass displayInotifyEvent BUF_LEN

/-- The loop of `inotify.c`. -/
def attribPass : (Nat → UInt8) → Option Nat → PassEnd := pass displayAttrib BUF_SIZE

end Tlpi.Inotify
