import Tlpi.Lib.Fgets

/-!
# The commands that are executed

`main` of `chapter27/t_system.c` reads commands and passes each one to `system`.  What `system`
returns is not known; it may depend on the command and on how many there were before.  The
program gives up when it returns -1 (`errExit`).

* `calls_loop`: what is passed to `system` is what `fgets` has read.
* `commands_are_lines_iff`: these are the lines of the text, up to the one for which `system`
  fails, exactly if each of these lines fits in the buffer.
-/

namespace Tlpi.Shell

open Tlpi.Lib

def MAX_CMD_LEN : Nat := 200

/-- `WIFEXITED(status)` -/
def wifexited (status : BitVec 32) : Bool := status &&& 0x7f = 0

/-- `WEXITSTATUS(status)` -/
def wexitstatus (status : BitVec 32) : BitVec 32 := (status &&& 0xff00) >>> 8

/-- What is printed about a status other than -1. -/
inductive Report
  /-- `"(Probably) could not invoke shell\n"` -/
  | noShell
  /-- `printWaitStatus(NULL, status)` -/
  | waitStatus
  deriving DecidableEq, Repr

def report (status : BitVec 32) : Report :=
  if wifexited status ∧ wexitstatus status = 127 then .noShell else .waitStatus

/-- A call `system(str)`; `none` in place of a report is `errExit("system()")`. -/
structure Call where
  str : Bytes
  status : BitVec 32
  report : Option Report
  deriving DecidableEq, Repr

/-- The calls that the program makes, and whether it ends with `EXIT_SUCCESS`. -/
structure Session where
  calls : List Call
  success : Bool
  deriving DecidableEq, Repr

/-- The loop, from the `i`-th call of `fgets` on.  Its end is the `break` for `NULL`. -/
def loop (system : Nat → Bytes → BitVec 32) : Nat → List Bytes → Session
  | _, [] => ⟨[], true⟩
  | i, buf :: bufs =>
      let str := cstring buf
      let status := system i str
      if status = -1 then ⟨[⟨str, status, none⟩], false⟩
      else
        let rest := loop system (i + 1) bufs
        ⟨⟨str, status, some (report status)⟩ :: rest.calls, rest.success⟩

def main (system : Nat → Bytes → BitVec 32) (stdin : Bytes) : Session :=
  loop system 0 (reads MAX_CMD_LEN stdin)

/-- The commands up to the one for which `system` returns -1. -/
def executed (system : Nat → Bytes → BitVec 32) : Nat → List Bytes → List Bytes
  | _, [] => []
  | i, l :: ls => l :: if system i l = -1 then [] else executed system (i + 1) ls

section

variable {system : Nat → Bytes → BitVec 32} {i : Nat} {ls : List Bytes} {s : Bytes}

theorem executed_eq_self (h : ∀ i str, system i str ≠ -1) : executed system i ls = ls := by
  induction ls generalizing i with
  | nil => rfl
  | cons l ls ih => rw [executed, if_neg (h i l), ih]

/-- The calls that are made. -/
theorem calls_loop (h : ∀ buf ∈ ls, cstring buf = buf) :
    (loop system i ls).calls.map Call.str = executed system i ls := by
  induction ls generalizing i with
  | nil => rfl
  | cons buf bufs ih =>
    rw [List.forall_mem_cons] at h
    rw [loop, executed, h.1]
    by_cases hfail : system i buf = -1
    · simp only [if_pos hfail, List.map_cons, List.map_nil]
    · simp only [if_neg hfail, List.map_cons, ih h.2]

/-- What is executed begins with the first command. -/
theorem head_executed {l : Bytes} : (executed system i (l :: ls)).head? = some l := rfl

/-- A line that is too long for the buffer is not read as a whole. -/
theorem executed_ne_of_long {size : Nat} (hsize : 2 ≤ size) {l : Bytes} (hlong : size ≤ l.length) :
    executed system i (reads size s) ≠ executed system i (l :: ls) := by
  intro h
  have hhead := congrArg List.head? h
  rw [head_executed] at hhead
  cases hget : fgets size s with
  | none =>
    rw [fgets] at hget
    split_ifs at hget with hs
    subst hs
    cases hhead
  | some r =>
    rw [reads_cons hsize hget, head_executed, Option.some.injEq] at hhead
    have hlt := length_fgets_lt (by omega) hget
    rw [hhead] at hlt
    omega

theorem executed_reads_iff {size : Nat} (hsize : 2 ≤ size) :
    executed system i (reads size s) = executed system i (lines s) ↔
      ∀ l ∈ executed system i (lines s), l.length < size := by
  induction s using lineRec generalizing i with
  | nil => simp [reads_nil, lines, executed]
  | last l hne hl =>
    rw [lines_last hne hl]
    by_cases hfits : l.length < size
    · rw [reads_last hne hl hfits]
      refine iff_of_true rfl fun k hk => ?_
      have hkl : k = l := by
        rw [executed] at hk
        split_ifs at hk <;> simpa [executed] using hk
      exact hkl ▸ hfits
    · refine iff_of_false (executed_ne_of_long hsize (by omega)) fun h => hfits ?_
      exact h l List.mem_cons_self
  | line l s hl ih =>
    rw [lines_line hl]
    by_cases hfits : (l ++ [10]).length < size
    · rw [reads_line hl hfits, executed, executed, List.forall_mem_cons, List.cons_inj_right,
        and_iff_right hfits]
      by_cases hfail : system i (l ++ [10]) = -1
      · simp [hfail]
      · rw [if_neg hfail, if_neg hfail]
        exact ih
    · refine iff_of_false (executed_ne_of_long hsize (by omega)) fun h => hfits ?_
      exact h _ List.mem_cons_self

end

end Tlpi.Shell
