import Tlpi.Lib.Children
import Tlpi.Lib.Signal

/-!
# The SIGCHLD handler

`sigchldHandler` of `chapter26/multi_SIGCHLD.c`, over the kernel's view of the
process that installed it.  A `Proc` is that process as far as SIGCHLD goes: its
children and the pending bit, its signal mask, whether it sits in `sigsuspend`,
the counter `numLiveChildren`, and the activation of the handler if one is
running.  The handler was installed with `sa_flags = 0` and an empty `sa_mask`,
so while it runs the mask is the one of the interrupted code and SIGCHLD.

A handler that interrupts `sigsuspend` returns to the mask from before the call,
and the call then returns; this is `Proc.suspend`.

`Event` names the steps that are not the main program's: a child ends, the
kernel starts the handler, the handler calls `waitpid`, counts a child down or
returns.  Both programs that run above such a handler, `multi_SIGCHLD` itself and
a caller of `system`, use these steps.
-/

namespace Tlpi.Sigchld

open Tlpi.Lib

/-- Where an activation of `sigchldHandler` is. -/
inductive HandlerPc
  /-- About to call `waitpid(-1, &status, WNOHANG)`. -/
  | waiting
  /-- `waitpid` returned a child; `numLiveChildren--` is next. -/
  | gotChild
  /-- The loop is left; `sleep(5)` and the return are next. -/
  | sleeping
  deriving DecidableEq, Repr

/-- An activation: where it is, and the mask its return puts back. -/
structure Frame where
  pc : HandlerPc
  restore : SigSet
  deriving DecidableEq

/-- A single-threaded process with the handler installed. -/
structure Proc where
  kids : Kids
  mask : SigSet
  /-- In `sigsuspend`: the mask from before the call. -/
  suspend : Option SigSet
  numLiveChildren : Int
  handler : Option Frame
  /-- The children `waitpid` has given to the handler, in order. -/
  reapedLog : List Nat
  deriving DecidableEq

/-- The steps of the children, the kernel and the handler. -/
inductive Event
  | terminate (j status : Nat)
  | deliver
  | waitpid (j : Nat)
  | decrement
  | ret
  deriving DecidableEq, Repr

def Proc.step (p : Proc) : Event → Option Proc
  | .terminate j st => (p.kids.terminate j st).map fun k => { p with kids := k }
  | .deliver =>
      if p.kids.pending = true ∧ SIGCHLD ∉ p.mask ∧ p.handler = none then
        some { p with
          kids := { p.kids with pending := false }
          mask := insert SIGCHLD p.mask
          handler := some ⟨.waiting, p.suspend.getD p.mask⟩ }
      else none
  | .waitpid j =>
      match p.handler with
      | some ⟨.waiting, m⟩ =>
          match p.kids.waitAny j with
          | some (.child c _, k) =>
              some { p with
                kids := k
                handler := some ⟨.gotChild, m⟩
                reapedLog := p.reapedLog ++ [c] }
          -- `0` and `-1` both end the loop, and the only error there is is ECHILD, which
          -- the test after the loop lets pass.
          | some (_, k) => some { p with kids := k, handler := some ⟨.sleeping, m⟩ }
          | none => none
      | _ => none
  | .decrement =>
      match p.handler with
      | some ⟨.gotChild, m⟩ =>
          some { p with
            numLiveChildren := p.numLiveChildren - 1
            handler := some ⟨.waiting, m⟩ }
      | _ => none
  | .ret =>
      match p.handler with
      | some ⟨.sleeping, m⟩ => some { p with mask := m, suspend := none, handler := none }
      | _ => none

/-- **Everything a step of the children, the kernel or the handler can do.** -/
theorem Proc.step_cases {p p' : Proc} {e : Event} (h : p.step e = some p') :
    (∃ j st k, e = .terminate j st ∧ p.kids.terminate j st = some k ∧ p' = { p with kids := k }) ∨
    (e = .deliver ∧ p.kids.pending = true ∧ SIGCHLD ∉ p.mask ∧ p.handler = none ∧
      p' = { p with
        kids := { p.kids with pending := false }
        mask := insert SIGCHLD p.mask
        handler := some ⟨.waiting, p.suspend.getD p.mask⟩ }) ∨
    (∃ j m st k, e = .waitpid j ∧ p.handler = some ⟨.waiting, m⟩ ∧
      p.kids.waitAny j = some (.child j st, k) ∧
      p' = { p with
        kids := k
        handler := some ⟨.gotChild, m⟩
        reapedLog := p.reapedLog ++ [j] }) ∨
    (∃ j m, e = .waitpid j ∧ p.handler = some ⟨.waiting, m⟩ ∧ p.kids.zombies = 0 ∧
      p' = { p with handler := some ⟨.sleeping, m⟩ }) ∨
    (∃ m, e = .decrement ∧ p.handler = some ⟨.gotChild, m⟩ ∧
      p' = { p with
        numLiveChildren := p.numLiveChildren - 1
        handler := some ⟨.waiting, m⟩ }) ∨
    (∃ m, e = .ret ∧ p.handler = some ⟨.sleeping, m⟩ ∧
      p' = { p with mask := m, suspend := none, handler := none }) := by
  cases e with
  | terminate j st =>
    simp only [Proc.step, Option.map_eq_some_iff] at h
    obtain ⟨k, hk, rfl⟩ := h
    exact Or.inl ⟨j, st, k, rfl, hk, rfl⟩
  | deliver =>
    simp only [Proc.step] at h
    split at h
    · next hc => exact Or.inr (Or.inl ⟨rfl, hc.1, hc.2.1, hc.2.2, (Option.some.inj h).symm⟩)
    · cases h
  | waitpid j =>
    simp only [Proc.step] at h
    split at h
    · next m hm =>
      split at h
      · next c st k hk =>
        rcases Kids.waitAny_spec hk with ⟨st', hr, _⟩ | ⟨hr, _⟩
        · obtain ⟨rfl, rfl⟩ := WaitRes.child.inj hr
          exact Or.inr (Or.inr (Or.inl ⟨c, m, st, k, rfl, hm, hk, (Option.some.inj h).symm⟩))
        · rcases hr with hr | hr <;> cases hr
      · next r k hr hk =>
        rcases Kids.waitAny_spec hk with ⟨st', hr', _⟩ | ⟨_, hz, rfl⟩
        · exact absurd hr' (by rintro rfl; exact hr _ _ rfl)
        · exact Or.inr (Or.inr (Or.inr (Or.inl ⟨j, m, rfl, hm, hz, (Option.some.inj h).symm⟩)))
      · cases h
    · cases h
  | decrement =>
    simp only [Proc.step] at h
    split at h
    · next m hm =>
      exact Or.inr (Or.inr (Or.inr (Or.inr (Or.inl ⟨m, rfl, hm, (Option.some.inj h).symm⟩))))
    · cases h
  | ret =>
    simp only [Proc.step] at h
    split at h
    · next m hm =>
      exact Or.inr (Or.inr (Or.inr (Or.inr (Or.inr ⟨m, rfl, hm, (Option.some.inj h).symm⟩))))
    · cases h

end Tlpi.Sigchld
