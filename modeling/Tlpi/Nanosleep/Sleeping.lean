import Mathlib.Tactic.Common

/-!
# Sleeping through interruptions

`chapter23/absolute_clock_nanosleep.c` sleeps until a time and starts over when a handler has
interrupted it; `chapter23/relative_clock_nanosleep.c` announces the end of one interval after
the other.  Both compare what `clock_nanosleep` returns with -1 and look for the reason in
`errno`.  But the function returns the error number itself (`Call.Posix`), so it never returns
-1: to both programs every call looks like a full sleep.

* `sleeps_fully_iff`: the first program is right if its first call is not interrupted, the
  second if none of its calls fails.
* `reached_of_errno`: the loop is right for a call that reports as `nanosleep` does.
-/

namespace Tlpi.Nanosleep

def EINTR : Int := 4

/-- A `struct timespec`. -/
structure Timespec where
  sec : Nat
  nsec : Nat

def Timespec.ns (t : Timespec) : Nat := t.sec * 1000000000 + t.nsec

/-- A call of `clock_nanosleep`: what it returns, `errno` after it, and what the monotonic
clock shows then. -/
structure Call where
  ret : Int
  errno : Int
  clock : Nat
  deriving DecidableEq

/-- The call as POSIX has it, for a sleep until `due`: 0 if that time has come, else the number
of an error; nothing is said of `errno`. -/
def Call.Posix (due : Nat) (c : Call) : Prop := 0 ≤ c.ret ∧ (c.ret = 0 ↔ due ≤ c.clock)

instance (due : Nat) (c : Call) : Decidable (c.Posix due) := inferInstanceAs (Decidable (_ ∧ _))

/-- How the loop is left: after which calls, and with which `errno` for `perror` if it comes to
that. -/
structure Left where
  seen : List Call
  clock : Nat
  perror : Option Int

/-- `while (clock_nanosleep(..) == -1)`; `none` if it is still in the call after the last one
given. -/
def loop : List Call → Option Left
  | [] => none
  | c :: cs =>
      if c.ret = -1 then
        if c.errno = EINTR then (loop cs).map fun l => { l with seen := c :: l.seen }
        else some ⟨[c], c.clock, some c.errno⟩
      else some ⟨[c], c.clock, none⟩

/-- `target_time`, where the clock shows `now` at the beginning. -/
def target (now : Timespec) : Timespec := { now with sec := now.sec + 10 }

/-- The `request` of the other program. -/
def request : Timespec := ⟨2, 500000000⟩

/-- A relative sleep, which begins when the clock shows `start`. -/
structure Nap where
  start : Nat
  call : Call
  deriving DecidableEq

/-- The sleeps after which `"time is up\n"` is printed; at a -1 the program exits. -/
def announced : List Nap → List Nap
  | [] => []
  | r :: rs => if r.call.ret = -1 then [] else r :: announced rs

/-- The loop is left, with no error but EINTR, only when the time has come. -/
def Survives (due : Nat) (cs : List Call) : Prop :=
  ∀ l, loop cs = some l → (∀ c ∈ l.seen, c.ret = 0 ∨ c.ret = EINTR) → due ≤ l.clock

/-- Each announcement comes after an interval that has not been cut short. -/
def Punctual (rs : List Nap) : Prop :=
  ∀ r ∈ announced rs, r.start + request.ns ≤ r.call.clock ∧ r.call.ret ≠ EINTR

section Calls

variable {due : Nat} {c : Call} {cs : List Call} {r : Nap} {rs : List Nap}

theorem Call.Posix.ne (h : c.Posix due) : c.ret ≠ -1 := by
  have := h.1
  omega

/-- The first call ends the loop, whatever it returns. -/
theorem loop_cons (h : c.Posix due) : loop (c :: cs) = some ⟨[c], c.clock, none⟩ := by
  rw [loop, if_neg h.ne]

/-- No sleep ends the program. -/
theorem announced_eq_self (h : ∀ r ∈ rs, r.call.Posix (r.start + request.ns)) :
    announced rs = rs := by
  induction rs with
  | nil => rfl
  | cons r rs ih =>
    have hr := h r List.mem_cons_self
    rw [announced, if_neg hr.ne, ih fun r' hr' => h r' (List.mem_cons_of_mem r hr')]

theorem survives_iff (h : ∀ c ∈ cs, c.Posix due) :
    Survives due cs ↔ ∀ c ∈ cs.head?, c.ret ≠ EINTR := by
  cases cs with
  | nil => exact ⟨fun _ => nofun, fun _ => nofun⟩
  | cons c cs =>
    have hc := h c List.mem_cons_self
    simp only [Survives, loop_cons hc, Option.some.injEq, forall_eq', List.mem_singleton, forall_eq,
      List.head?_cons, Option.mem_def]
    constructor
    · intro hreached hint
      have hzero := hc.2.mpr (hreached (.inr hint))
      rw [hint] at hzero
      cases hzero
    · intro hint hret
      exact hc.2.mp (hret.resolve_right hint)

theorem punctual_iff (h : ∀ r ∈ rs, r.call.Posix (r.start + request.ns)) :
    Punctual rs ↔ ∀ r ∈ rs, r.call.ret = 0 := by
  rw [Punctual, announced_eq_self h]
  refine forall₂_congr fun r hr => ?_
  rw [← (h r hr).2]
  refine and_iff_left_of_imp fun hzero hint => ?_
  rw [hzero] at hint
  cases hint

/-- **For a call that returns -1 and sets `errno`, the loop is right.** -/
theorem reached_of_errno {l : Left} (h : ∀ c ∈ cs, c.ret = 0 ∧ due ≤ c.clock ∨ c.ret = -1)
    (hl : loop cs = some l) : l.perror = none → due ≤ l.clock := by
  induction cs generalizing l with
  | nil => cases hl
  | cons c cs ih =>
    have hcs : ∀ c ∈ cs, c.ret = 0 ∧ due ≤ c.clock ∨ c.ret = -1 :=
      fun c' hc' => h c' (List.mem_cons_of_mem c hc')
    rw [loop] at hl
    split_ifs at hl with hret herrno
    · obtain ⟨l', hl', rfl⟩ := Option.map_eq_some_iff.mp hl
      exact @ih l' hcs hl'
    · cases hl
      exact nofun
    · cases hl
      intro _
      exact ((h c List.mem_cons_self).resolve_right hret).2

end Calls

/-- Sleeping until ten seconds from `now` ends in time if no handler interrupts the first call,
and only then; the announcements are right if no call fails, and only then. -/
theorem sleeps_fully_iff (now : Timespec) (cs : List Call) (rs : List Nap)
    (hcs : ∀ c ∈ cs, c.Posix (target now).ns)
    (hrs : ∀ r ∈ rs, r.call.Posix (r.start + request.ns)) :
    (Survives (target now).ns cs ↔ ∀ c ∈ cs.head?, c.ret ≠ EINTR) ∧
      (Punctual rs ↔ ∀ r ∈ rs, r.call.ret = 0) :=
  ⟨survives_iff hcs, punctual_iff hrs⟩

/-- One call that is interrupted at once, then a sleep to the end; and one full interval. -/
theorem sleeps_fully_interrupted :
    (¬ Survives (target ⟨5, 0⟩).ns [⟨EINTR, 0, 5000000000⟩, ⟨0, 0, 15000000000⟩]) ∧
      Punctual [⟨0, ⟨0, 0, 2500000000⟩⟩] := by
  have h := sleeps_fully_iff ⟨5, 0⟩ [⟨EINTR, 0, 5000000000⟩, ⟨0, 0, 15000000000⟩]
    [⟨0, ⟨0, 0, 2500000000⟩⟩] (by decide) (by decide)
  exact ⟨fun hs => h.1.mp hs _ rfl rfl, h.2.mpr (by decide)⟩

/-- A handler runs just after the call, and the loop is over; and "time is up" is said then. -/
theorem sleeps_cut_short :
    ∃ (now : Timespec) (c : Call) (r : Nap), c.Posix (target now).ns ∧
      r.call.Posix (r.start + request.ns) ∧ ¬ Survives (target now).ns [c] ∧ ¬ Punctual [r] := by
  refine ⟨⟨5, 0⟩, ⟨EINTR, 0, 5000000000⟩, ⟨0, ⟨EINTR, 0, 0⟩⟩, by decide, by decide,
    fun h => ?_, fun h => ?_⟩
  · exact absurd (h ⟨[_], 5000000000, none⟩ rfl (by simp)) (by decide)
  · exact (h _ (List.mem_singleton.mpr rfl)).2 rfl

end Tlpi.Nanosleep
