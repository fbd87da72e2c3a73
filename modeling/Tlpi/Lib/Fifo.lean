import Tlpi.Lib.FileSys

/-!
# FIFOs

A FIFO is its bytes, the number of open file descriptions for reading and for writing,
and how often it has been opened for either.  An `open` is two steps of the caller.  The
first counts it in (`openRd`, `openWr`), and is all when the other side is there already.
Otherwise the caller sleeps until somebody opens the other side: it remembers the counter
and goes on once that has moved, even if the partner has left again.

`read` has something to return when there are bytes, or when nobody has the FIFO open for
writing, which is the end of file; otherwise it blocks.  The bytes are gone when the last
description is closed.
-/

namespace Tlpi.Lib

/-- A FIFO, open or not. -/
structure Fifo where
  data : Bytes
  readers : Nat
  writers : Nat
  rOpens : Nat
  wOpens : Nat
  deriving DecidableEq, Repr

namespace Fifo

def empty : Fifo := ⟨[], 0, 0, 0, 0⟩

def openRd (f : Fifo) : Fifo := { f with readers := f.readers + 1, rOpens := f.rOpens + 1 }

def openWr (f : Fifo) : Fifo := { f with writers := f.writers + 1, wOpens := f.wOpens + 1 }

/-- The bytes go with the last descriptor. -/
def discard (f : Fifo) : Fifo := if f.readers = 0 ∧ f.writers = 0 then { f with data := [] } else f

def closeRd (f : Fifo) : Fifo := discard { f with readers := f.readers - 1 }

def closeWr (f : Fifo) : Fifo := discard { f with writers := f.writers - 1 }

def write (f : Fifo) (b : Bytes) : Fifo := { f with data := f.data ++ b }

def drop (f : Fifo) (n : Nat) : Fifo := { f with data := f.data.drop n }

/-- `read` returns 0. -/
def AtEof (f : Fifo) : Prop := f.data = [] ∧ f.writers = 0

instance (f : Fifo) : Decidable f.AtEof := inferInstanceAs (Decidable (_ ∧ _))

@[simp] theorem discard_readers (f : Fifo) : f.discard.readers = f.readers := by
  rw [discard]
  split <;> rfl

@[simp] theorem discard_writers (f : Fifo) : f.discard.writers = f.writers := by
  rw [discard]
  split <;> rfl

@[simp] theorem discard_rOpens (f : Fifo) : f.discard.rOpens = f.rOpens := by
  rw [discard]
  split <;> rfl

@[simp] theorem discard_wOpens (f : Fifo) : f.discard.wOpens = f.wOpens := by
  rw [discard]
  split <;> rfl

/-- While somebody reads, nothing is lost. -/
theorem discard_data_of_readers {f : Fifo} (h : 0 < f.readers) : f.discard.data = f.data := by
  rw [discard, if_neg]
  omega

theorem discard_data_of_nil {f : Fifo} (h : f.data = []) : f.discard.data = [] := by
  rw [discard]
  split
  · rfl
  · exact h

end Fifo

end Tlpi.Lib
