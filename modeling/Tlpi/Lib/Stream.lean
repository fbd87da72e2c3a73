import Tlpi.Lib.CString

/-!
# Reading and writing a stream

`read` and `write` transfer as much as the kernel likes.  What the calls on a descriptor come to
is its plan, one answer for each call: `upTo k` transfers what has been asked for, but not more
than `k` bytes, so that `upTo 0` is a transfer of nothing.  When the plan is at its end the call
is still waiting.

* `Source.read_got`, `Sink.write_wrote` and so on: what one call does.
* `Fair`: a plan without errors in which every transfer moves something.
-/

namespace Tlpi.Lib

/-- What a call comes to. -/
inductive Answer
  | upTo (k : Nat)
  | eintr
  | error
  deriving DecidableEq, Repr

/-- The call transfers something, or would. -/
def Answer.Moves : Answer → Bool
  | .upTo k => k != 0
  | _ => false

/-- Nothing but transfers and interruptions. -/
def Fair (plan : List Answer) : Prop := ∀ a ∈ plan, a = .eintr ∨ a.Moves

/-- What `read` returns. -/
inductive ReadRet
  | got (b : Bytes)
  | eintr
  | error
  deriving DecidableEq, Repr

/-- A descriptor to read from: the bytes to come, and the answers. -/
structure Source where
  data : Bytes
  plan : List Answer
  deriving DecidableEq

/-- `read(fd, buf, n)`; `none` while it waits. -/
def Source.read (s : Source) (n : Nat) : Option (ReadRet × Source) :=
  match s.plan with
  | [] => none
  | .upTo k :: plan => some (.got (s.data.take (min n k)), ⟨s.data.drop (min n k), plan⟩)
  | .eintr :: plan => some (.eintr, ⟨s.data, plan⟩)
  | .error :: plan => some (.error, ⟨s.data, plan⟩)

/-- What `write` returns. -/
inductive WriteRet
  | wrote (n : Nat)
  | eintr
  | error
  deriving DecidableEq, Repr

/-- A descriptor to write to: the bytes written, and the answers. -/
structure Sink where
  data : Bytes
  plan : List Answer
  deriving DecidableEq

/-- `write(fd, b, n)`, where `n` is the length of `b`; `none` while it waits. -/
def Sink.write (s : Sink) (b : Bytes) : Option (WriteRet × Sink) :=
  match s.plan with
  | [] => none
  | .upTo k :: plan => some (.wrote (min b.length k), ⟨s.data ++ b.take k, plan⟩)
  | .eintr :: plan => some (.eintr, ⟨s.data, plan⟩)
  | .error :: plan => some (.error, ⟨s.data, plan⟩)

section Calls

variable {n : Nat} {b : Bytes}

theorem Fair.tail {a : Answer} {plan : List Answer} (h : Fair (a :: plan)) : Fair plan :=
  fun a' ha' => h a' (List.mem_cons_of_mem a ha')

theorem Fair.head {a : Answer} {plan : List Answer} (h : Fair (a :: plan)) :
    a = .eintr ∨ a.Moves :=
  h a List.mem_cons_self

section Read

variable {s s' : Source}

theorem Source.read_got (h : s.read n = some (.got b, s')) :
    ∃ k, s.plan = .upTo k :: s'.plan ∧ b = s.data.take (min n k) ∧ s.data = b ++ s'.data := by
  obtain ⟨data, plan⟩ := s
  rcases plan with - | ⟨k | _ | _, plan⟩ <;> cases h
  exact ⟨k, rfl, rfl, (List.take_append_drop _ _).symm⟩

theorem Source.read_eintr (h : s.read n = some (.eintr, s')) :
    s.plan = .eintr :: s'.plan ∧ s'.data = s.data := by
  obtain ⟨data, plan⟩ := s
  rcases plan with - | ⟨k | _ | _, plan⟩ <;> cases h
  exact ⟨rfl, rfl⟩

theorem Source.read_error (h : s.read n = some (.error, s')) :
    s.plan = .error :: s'.plan ∧ s'.data = s.data := by
  obtain ⟨data, plan⟩ := s
  rcases plan with - | ⟨k | _ | _, plan⟩ <;> cases h
  exact ⟨rfl, rfl⟩

/-- Every call takes an answer. -/
theorem Source.plan_of_read {r : ReadRet} (h : s.read n = some (r, s')) :
    ∃ a, s.plan = a :: s'.plan := by
  cases r with
  | got b =>
    obtain ⟨k, hplan, -, -⟩ := Source.read_got h
    exact ⟨_, hplan⟩
  | eintr => exact ⟨_, (Source.read_eintr h).1⟩
  | error => exact ⟨_, (Source.read_error h).1⟩

theorem Source.length_plan_of_read {r : ReadRet} (h : s.read n = some (r, s')) :
    s'.plan.length < s.plan.length := by
  obtain ⟨a, hplan⟩ := Source.plan_of_read h
  rw [hplan]
  exact Nat.lt_succ_self _

end Read

section Write

variable {s s' : Sink} {m : Nat}

theorem Sink.write_wrote (h : s.write b = some (.wrote m, s')) :
    ∃ k, s.plan = .upTo k :: s'.plan ∧ m = min b.length k ∧ s'.data = s.data ++ b.take m := by
  obtain ⟨data, plan⟩ := s
  rcases plan with - | ⟨k | _ | _, plan⟩ <;> cases h
  refine ⟨k, rfl, rfl, ?_⟩
  rw [← List.take_take, List.take_of_length_le (List.length_take_le' _ _)]

theorem Sink.write_eintr (h : s.write b = some (.eintr, s')) :
    s.plan = .eintr :: s'.plan ∧ s'.data = s.data := by
  obtain ⟨data, plan⟩ := s
  rcases plan with - | ⟨k | _ | _, plan⟩ <;> cases h
  exact ⟨rfl, rfl⟩

theorem Sink.write_error (h : s.write b = some (.error, s')) :
    s.plan = .error :: s'.plan ∧ s'.data = s.data := by
  obtain ⟨data, plan⟩ := s
  rcases plan with - | ⟨k | _ | _, plan⟩ <;> cases h
  exact ⟨rfl, rfl⟩

theorem Sink.plan_of_write {r : WriteRet} (h : s.write b = some (r, s')) :
    ∃ a, s.plan = a :: s'.plan := by
  cases r with
  | wrote m =>
    obtain ⟨k, hplan, -, -⟩ := Sink.write_wrote h
    exact ⟨_, hplan⟩
  | eintr => exact ⟨_, (Sink.write_eintr h).1⟩
  | error => exact ⟨_, (Sink.write_error h).1⟩

theorem Sink.length_plan_of_write {r : WriteRet} (h : s.write b = some (r, s')) :
    s'.plan.length < s.plan.length := by
  obtain ⟨a, hplan⟩ := Sink.plan_of_write h
  rw [hplan]
  exact Nat.lt_succ_self _

end Write

/-- A call waits only at the end of the plan. -/
theorem Source.read_eq_none {s : Source} : s.read n = none ↔ s.plan = [] := by
  obtain ⟨data, plan⟩ := s
  cases plan with
  | nil => exact iff_of_true rfl rfl
  | cons a plan => cases a <;> exact iff_of_false nofun nofun

theorem Sink.write_eq_none {s : Sink} : s.write b = none ↔ s.plan = [] := by
  obtain ⟨data, plan⟩ := s
  cases plan with
  | nil => exact iff_of_true rfl rfl
  | cons a plan => cases a <;> exact iff_of_false nofun nofun

end Calls

end Tlpi.Lib
