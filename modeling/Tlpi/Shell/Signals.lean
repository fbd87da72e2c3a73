import Tlpi.Shell.Model

/-!
# The signals around `system`

`system` of `chapter27/system.c` once more, now with all of its `struct sigaction` and
with both processes: the caller, and the child up to its `execl`.  Nothing else is in the
picture, so the call is a function of the caller's signals at the moment of the call and
of the kernel's answers: what `fork` does, and what each `waitpid` returns, in order.

* `system_restores`: the caller gets back the mask and all dispositions it had, with the
  status that `waitpid` returned or `-1`, and the child calls `execl` with the caller's
  mask, SIGINT and SIGQUIT ignored if the caller ignored them and default otherwise.
* `returned_restores`: the same of the mask and of the two dispositions where the steps
  of the call interleave with the ends of the caller's children and with its handler.
-/

namespace Tlpi.Shell

open Tlpi.Lib Tlpi.Sigchld

namespace Signals

def EINTR : Nat := 4

/-- A `struct sigaction`. -/
structure SigAction where
  handler : Disp
  flags : Nat
  mask : SigSet
  deriving DecidableEq

/-- The signals of a process: its mask, and its dispositions by signal number. -/
structure Sig where
  mask : SigSet
  action : Nat → SigAction

/-- The process after `sigaction(sig, &new, &old)`, and `old`. -/
def Sig.sigaction (s : Sig) (sig : Nat) (new : SigAction) : Sig × SigAction :=
  ({ s with action := Function.update s.action sig new }, s.action sig)

/-- The process after `sigprocmask(how, &set, &old)`, and `old`. -/
def Sig.procmask (s : Sig) (how : SigHow) (set : SigSet) : Sig × SigSet :=
  ({ s with mask := sigprocmask how set s.mask }, s.mask)

/-- What `waitpid(childPid, &status, 0)` does: fail with an `errno`, or return the child
with its status. -/
inductive Wait
  | fails (errno : Nat)
  | child (status : Int)
  deriving DecidableEq, Repr

/-- What `fork` does.  After a success the caller gets answers from `waitpid`; when they
are used up it is still waiting. -/
inductive Fork
  | fails (errno : Nat)
  | succeeds (waits : List Wait)
  deriving DecidableEq, Repr

/-- What the call keeps in its local variables. -/
structure Saved where
  origMask : SigSet
  saOrigInt : SigAction
  saOrigQuit : SigAction

def saIgnore : SigAction := ⟨.ign, 0, ∅⟩

def saDefault : SigAction := ⟨.dfl, 0, ∅⟩

/-- The call up to the `fork`. -/
def prepare (s : Sig) : Sig × Saved :=
  let (s, origMask) := s.procmask .block {SIGCHLD}
  let (s, saOrigInt) := s.sigaction SIGINT saIgnore
  let (s, saOrigQuit) := s.sigaction SIGQUIT saIgnore
  (s, ⟨origMask, saOrigInt, saOrigQuit⟩)

/-- `case 0`: the child up to its `execl`. -/
def child (s : Sig) (v : Saved) : Sig :=
  let s := if v.saOrigInt.handler ≠ .ign then (s.sigaction SIGINT saDefault).1 else s
  let s := if v.saOrigQuit.handler ≠ .ign then (s.sigaction SIGQUIT saDefault).1 else s
  (s.procmask .setmask v.origMask).1

/-- `while (waitpid(childPid, &status, 0) == -1)`: `status` and `errno` after the loop. -/
def waitLoop (errno : Nat) : List Wait → Option (Int × Nat)
  | [] => none
  | .fails e :: waits => if e ≠ EINTR then some (-1, e) else waitLoop e waits
  | .child st :: _ => some (st, errno)

/-- The call from `savedErrno = errno` on. -/
def restore (s : Sig) (v : Saved) : Sig :=
  let s := (s.procmask .setmask v.origMask).1
  let s := (s.sigaction SIGINT v.saOrigInt).1
  (s.sigaction SIGQUIT v.saOrigQuit).1

/-- The caller when the call returns. -/
structure Return where
  sig : Sig
  errno : Nat
  status : Int

/-- What comes of a call: the child's command and its signals at the `execl`, if there is
a child, and the caller, if the call returns. -/
structure Outcome where
  execl : Option (String × Sig)
  returned : Option Return

/-- `system(command)` for a command that is not `NULL`. -/
def systemCommand (command : String) (s : Sig) (errno : Nat) (fork : Fork) : Outcome :=
  let (s, v) := prepare s
  match fork with
  | .fails e => ⟨none, some ⟨restore s v, e, -1⟩⟩
  | .succeeds waits =>
      ⟨some (command, child s v),
        (waitLoop errno waits).map fun (status, savedErrno) => ⟨restore s v, savedErrno, status⟩⟩

/-- `system(command)`; `none` is `NULL`, for which it returns `system(":") == 0`. -/
def system (command : Option String) (s : Sig) (errno : Nat) (fork : Fork) : Outcome :=
  match command with
  | some command => systemCommand command s errno fork
  | none =>
      let r := systemCommand ":" s errno fork
      { r with returned := r.returned.map fun c => { c with status := if c.status = 0 then 1 else 0 } }

/-! ### One call -/

section Call

variable (s : Sig)

theorem prepare_saved : (prepare s).2 = ⟨s.mask, s.action SIGINT, s.action SIGQUIT⟩ := rfl

theorem prepare_action : (prepare s).1.action =
    Function.update (Function.update s.action SIGINT saIgnore) SIGQUIT saIgnore := rfl

/-- What was saved is what is put back. -/
theorem restore_prepare : restore (prepare s).1 (prepare s).2 = s := by
  have haction : Function.update (Function.update (prepare s).1.action SIGINT (s.action SIGINT))
      SIGQUIT (s.action SIGQUIT) = s.action := by
    funext i
    simp only [prepare_action, Function.update_apply]
    split
    · next h => rw [h]
    · split
      · next h => rw [h]
      · rfl
  exact congrArg (Sig.mk s.mask) haction

theorem child_mask (t : Sig) (v : Saved) : (child t v).mask = v.origMask := rfl

/-- The child sets to default what was not ignored. -/
theorem child_action (t : Sig) (v : Saved) : (child t v).action SIGINT =
      (if v.saOrigInt.handler ≠ .ign then saDefault else t.action SIGINT) ∧
    (child t v).action SIGQUIT =
      (if v.saOrigQuit.handler ≠ .ign then saDefault else t.action SIGQUIT) := by
  have hne : SIGINT ≠ SIGQUIT := by decide
  simp only [child, Sig.procmask]
  constructor
  · by_cases hint : v.saOrigInt.handler = .ign <;> by_cases hquit : v.saOrigQuit.handler = .ign <;>
      simp [hint, hquit, Sig.sigaction, Function.update_of_ne hne]
  · by_cases hint : v.saOrigInt.handler = .ign <;> by_cases hquit : v.saOrigQuit.handler = .ign <;>
      simp [hint, hquit, Sig.sigaction, Function.update_of_ne hne.symm]

/-- At the `execl` the child has the caller's mask, and of the two signals those ignored
that the caller ignored. -/
theorem child_prepare : (child (prepare s).1 (prepare s).2).mask = s.mask ∧
    ∀ sig, sig = SIGINT ∨ sig = SIGQUIT →
      ((child (prepare s).1 (prepare s).2).action sig).handler =
        if (s.action sig).handler = .ign then .ign else .dfl := by
  refine ⟨by rw [child_mask, prepare_saved], fun sig hsig => ?_⟩
  obtain ⟨hint, hquit⟩ := child_action (prepare s).1 (prepare s).2
  rcases hsig with rfl | rfl
  · rw [hint, prepare_saved]
    by_cases h : (s.action SIGINT).handler = .ign
    · rw [if_neg (not_not.mpr h), if_pos h]
      rfl
    · rw [if_pos h, if_neg h]
      rfl
  · rw [hquit, prepare_saved]
    by_cases h : (s.action SIGQUIT).handler = .ign
    · rw [if_neg (not_not.mpr h), if_pos h]
      rfl
    · rw [if_pos h, if_neg h]
      rfl

end Call

/-- What the call has to return: `-1` when `fork` fails, or when `waitpid` does with
anything but `EINTR`, and else the child's status.  `none` while it waits. -/
def Fork.answer : Fork → Option Int
  | .fails _ => some (-1)
  | .succeeds waits =>
      (waits.find? (· ≠ .fails EINTR)).map fun
        | .fails _ => -1
        | .child st => st

/-- For `NULL` the answer is whether the status of `:` is zero. -/
def answerFor (command : Option String) (status : Int) : Int :=
  match command with
  | some _ => status
  | none => if status = 0 then 1 else 0

/-- Interrupted waits are made again. -/
theorem waitLoop_eq (errno : Nat) (waits : List Wait) :
    (waitLoop errno waits).map Prod.fst = (Fork.succeeds waits).answer := by
  induction waits generalizing errno with
  | nil => rfl
  | cons w waits ih =>
    cases w with
    | child st => rfl
    | fails e =>
      rw [waitLoop]
      by_cases he : e = EINTR
      · rw [if_neg (not_not.mpr he), ih, he]
        rfl
      · have hw : Wait.fails e ≠ .fails EINTR := fun h => he (Wait.fails.inj h)
        rw [if_pos he, Fork.answer, List.find?_cons_of_pos (by exact decide_eq_true hw)]
        rfl

theorem systemCommand_spec (command : String) (s : Sig) (errno : Nat) (fork : Fork) :
    (systemCommand command s errno fork).returned.map Return.status = fork.answer ∧
    ∀ r, (systemCommand command s errno fork).returned = some r → r.sig = s := by
  cases fork with
  | fails e =>
    refine ⟨rfl, fun r hr => ?_⟩
    cases hr
    exact restore_prepare s
  | succeeds waits =>
    constructor
    · rw [← waitLoop_eq errno waits]
      show Option.map _ (Option.map _ _) = _
      rw [Option.map_map]
      rfl
    · intro r hr
      obtain ⟨⟨status, savedErrno⟩, -, rfl⟩ := Option.map_eq_some_iff.mp hr
      exact restore_prepare s

/-- **`system` restores the caller's signals and gives the command clean ones.**  As soon as
the answers of `fork` and of `waitpid` end the call, and not before, it returns with the
caller's signals as they were and with the right result.  After a `fork` the child calls
`execl` with the caller's mask, and with SIGINT and SIGQUIT ignored if the caller ignored
them and default otherwise. -/
theorem system_restores (command : Option String) (s : Sig) (errno : Nat) (fork : Fork) :
    (system command s errno fork).returned.map (fun r => (r.sig, r.status)) =
      fork.answer.map (fun status => (s, answerFor command status)) ∧
    ∀ waits, fork = .succeeds waits → ∃ t,
      (system command s errno fork).execl = some (command.getD ":", t) ∧ t.mask = s.mask ∧
      ∀ sig, sig = SIGINT ∨ sig = SIGQUIT →
        (t.action sig).handler = if (s.action sig).handler = .ign then .ign else .dfl := by
  constructor
  · rw [← (systemCommand_spec (command.getD ":") s errno fork).1]
    have hsig := (systemCommand_spec (command.getD ":") s errno fork).2
    cases command with
    | some command =>
      show (systemCommand command s errno fork).returned.map _ = _
      cases hr : (systemCommand command s errno fork).returned with
      | none => simp [hr]
      | some r => simp [hr, hsig r hr, answerFor]
    | none =>
      show ((systemCommand ":" s errno fork).returned.map _).map _ = _
      cases hr : (systemCommand ":" s errno fork).returned with
      | none => simp [hr]
      | some r => simp [hr, hsig r hr, answerFor]
  · rintro waits rfl
    refine ⟨child (prepare s).1 (prepare s).2, ?_, child_prepare s⟩
    cases command <;> rfl

/-- A caller that ignores SIGINT, has a handler for the other signals and SIGCHLD blocked. -/
def caller : Sig := ⟨{SIGCHLD}, fun sig => ⟨if sig = SIGINT then .ign else .handler 1, 0, ∅⟩⟩

/-- It calls `system(NULL)`; the first `waitpid` is interrupted, and the second returns
status 0. -/
theorem system_restores_null :
    (system none caller 0 (.succeeds [.fails EINTR, .child 0])).returned.map
        (fun r => (r.sig, r.status)) = some (caller, 1) ∧
      ∃ t, (system none caller 0 (.succeeds [.fails EINTR, .child 0])).execl = some (":", t) ∧
        t.mask = {SIGCHLD} ∧ (t.action SIGINT).handler = .ign ∧
        (t.action SIGQUIT).handler = .dfl := by
  obtain ⟨hreturned, hexecl⟩ :=
    system_restores none caller 0 (.succeeds [.fails EINTR, .child 0])
  obtain ⟨t, ht, hmask, hsig⟩ := hexecl _ rfl
  exact ⟨hreturned, t, ht, hmask, hsig SIGINT (Or.inl rfl), hsig SIGQUIT (Or.inr rfl)⟩

end Signals

/-! ### Between the ends of children -/

/-- The mask of the process apart from a handler that runs. -/
def ownMask (p : Proc) : SigSet :=
  match p.handler with
  | none => p.mask
  | some f => f.restore

/-- What the call has saved, and what it has put back. -/
structure Saves (c : Entry) (s : State) : Prop where
  suspend : s.proc.suspend = none
  mask : s.pc = .block ∨ s.pc.unmasked = true → ownMask s.proc = c.mask
  origMask : s.pc ≠ .block → s.origMask = c.mask
  dispInt : s.pc = .block ∨ s.pc = .ignoreInt ∨ s.pc = .restoreQuit ∨ s.pc = .returned →
    s.dispInt = c.dispInt
  saOrigInt : s.pc ≠ .block → s.pc ≠ .ignoreInt → s.saOrigInt = c.dispInt
  dispQuit : s.pc = .block ∨ s.pc = .ignoreInt ∨ s.pc = .ignoreQuit ∨ s.pc = .returned →
    s.dispQuit = c.dispQuit
  saOrigQuit : s.pc ≠ .block → s.pc ≠ .ignoreInt → s.pc ≠ .ignoreQuit → s.saOrigQuit = c.dispQuit

section Steps

variable {c : Entry} {s s' : State}

/-- A handler comes and goes and leaves the mask as it was. -/
theorem ownMask_step {p p' : Proc} {e : Event} (hp : p.suspend = none) (hst : p.step e = some p') :
    p'.suspend = none ∧ ownMask p' = ownMask p := by
  rcases Proc.step_cases hst with ⟨j, st, k, -, -, rfl⟩ | ⟨-, -, -, hh, rfl⟩ |
    ⟨j, m, st, k, -, hh, -, rfl⟩ | ⟨j, m, -, hh, -, rfl⟩ | ⟨m, -, hh, rfl⟩ | ⟨m, -, hh, rfl⟩
  · exact ⟨hp, rfl⟩
  · refine ⟨hp, ?_⟩
    simp only [ownMask, hh, hp, Option.getD_none]
  all_goals
    simp only [ownMask, hh, hp, and_self]

theorem saves_proc (h : Saves c s) {e : Event} (hst : procStep s e = some s') : Saves c s' := by
  simp only [procStep, Option.map_eq_some_iff] at hst
  obtain ⟨p, hp, rfl⟩ := hst
  obtain ⟨hsuspend, hmask⟩ := ownMask_step h.suspend hp
  have hown : s.pc = .block ∨ s.pc.unmasked = true → ownMask p = c.mask :=
    fun hpc => hmask.trans (h.mask hpc)
  cases e <;> exact ⟨hsuspend, hown, h.origMask, h.dispInt, h.saOrigInt, h.dispQuit, h.saOrigQuit⟩

theorem saves_call (h : Saves c s) (hh : s.proc.handler = none) {a : Answer}
    (hst : callStep s a = some s') : Saves c s' := by
  have hown : ownMask s.proc = s.proc.mask := by rw [ownMask, hh]
  unfold callStep at hst
  cases hpc : s.pc <;> simp only [hpc] at hst
  case block =>
    obtain rfl := Option.some.inj hst
    have hmask : s.proc.mask = c.mask := hown ▸ h.mask (Or.inl hpc)
    exact ⟨h.suspend, nofun, fun _ => hmask, fun _ => h.dispInt (Or.inl hpc), nofun,
      fun _ => h.dispQuit (Or.inl hpc), nofun⟩
  case ignoreInt =>
    obtain rfl := Option.some.inj hst
    exact ⟨h.suspend, nofun, fun _ => h.origMask (by simp [hpc]), nofun,
      fun _ _ => h.dispInt (by simp [hpc]), fun _ => h.dispQuit (by simp [hpc]), nofun⟩
  case ignoreQuit =>
    obtain rfl := Option.some.inj hst
    exact ⟨h.suspend, nofun, fun _ => h.origMask (by simp [hpc]), nofun,
      fun _ _ => h.saOrigInt (by simp [hpc]) (by simp [hpc]), nofun,
      fun _ _ _ => h.dispQuit (by simp [hpc])⟩
  case returned => cases hst
  all_goals
    have horig := h.origMask (by simp [hpc])
    have hint := h.saOrigInt (by simp [hpc]) (by simp [hpc])
    have hquit := h.saOrigQuit (by simp [hpc]) (by simp [hpc]) (by simp [hpc])
  case fork =>
    cases a <;> obtain rfl := Option.some.inj hst <;>
      exact ⟨h.suspend, nofun, fun _ => horig, nofun, fun _ _ => hint, nofun, fun _ _ _ => hquit⟩
  case waiting =>
    split at hst
    · cases hst
    split at hst
    · obtain rfl := Option.some.inj hst
      exact h
    split at hst
    · obtain rfl := Option.some.inj hst
      exact ⟨h.suspend, nofun, fun _ => horig, nofun, fun _ _ => hint, nofun, fun _ _ _ => hquit⟩
    · obtain rfl := Option.some.inj hst
      exact ⟨h.suspend, nofun, fun _ => horig, nofun, fun _ _ => hint, nofun, fun _ _ _ => hquit⟩
    · cases hst
  case restoreMask =>
    obtain rfl := Option.some.inj hst
    refine ⟨h.suspend, fun _ => ?_, fun _ => horig, nofun, fun _ _ => hint, nofun,
      fun _ _ _ => hquit⟩
    simp only [ownMask, hh, sigprocmask, horig]
  case restoring =>
    have hmask := h.mask (by simp [hpc, Pc.unmasked])
    split at hst
    · cases hst
    · obtain rfl := Option.some.inj hst
      exact ⟨h.suspend, fun _ => hmask, fun _ => horig, nofun, fun _ _ => hint, nofun,
        fun _ _ _ => hquit⟩
  case restoreInt =>
    have hmask := h.mask (by simp [hpc, Pc.unmasked])
    obtain rfl := Option.some.inj hst
    exact ⟨h.suspend, fun _ => hmask, fun _ => horig, fun _ => hint, fun _ _ => hint, nofun,
      fun _ _ _ => hquit⟩
  case restoreQuit =>
    have hmask := h.mask (by simp [hpc, Pc.unmasked])
    obtain rfl := Option.some.inj hst
    exact ⟨h.suspend, fun _ => hmask, fun _ => horig, fun _ => h.dispInt (by simp [hpc]),
      fun _ _ => hint, fun _ => hquit, fun _ _ _ => hquit⟩

theorem saves_step (h : Saves c s) {e : Ev} (hst : step s e = some s') : Saves c s' := by
  cases e with
  | proc e => exact saves_proc h hst
  | call a =>
    simp only [step] at hst
    split at hst
    · next hh => exact saves_call h hh hst
    · cases hst

end Steps

theorem saves_init (c : Entry) : Saves c (init c) :=
  ⟨rfl, fun _ => rfl, fun h => absurd rfl h, fun _ => rfl, fun h => absurd rfl h, fun _ => rfl,
    fun h => absurd rfl h⟩

/-- **Among children that end and a handler that reaps them**, the call still returns with
the mask and the dispositions it found. -/
theorem returned_restores {c : Entry} {s : State} (h : (system c).Reach s) (hpc : s.pc = .returned)
    (hh : s.proc.handler = none) :
    s.proc.mask = c.mask ∧ s.dispInt = c.dispInt ∧ s.dispQuit = c.dispQuit := by
  have hsaves : Saves c s := System.Reach.invariant (I := Saves c) (saves_init c)
    (fun _ _ _ hi hst => saves_step hi hst) h
  have hmask := hsaves.mask (Or.inr (by rw [hpc]; rfl))
  rw [ownMask, hh] at hmask
  exact ⟨hmask, hsaves.dispInt (by simp [hpc]), hsaves.dispQuit (by simp [hpc])⟩

end Tlpi.Shell
