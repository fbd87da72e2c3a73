import Tlpi.Lib.System

/-!
# Cancellation of a thread

A thread is a list of calls and loops.  `pthread_cancel` makes a request for its cancellation,
which stays pending until it can act: not while cancellation is disabled, and with the deferred
type only at a cancellation point.  Then the thread does nothing more than to call the registered
clean-up handlers.

What the calls do to the thread itself, `Ctx.exec`, does not depend on the requests.  So it can
be told beforehand what is true of each point of the program: `check p q` goes through the
program and compares `p` with every point and `q` with the end.  It goes through a loop twice, the
second time from the state after the body, which has to be the same again then.

* `checked`: a thread whose program passes the check meets `p` wherever it is; when it has been
  cancelled, this happened at a point that meets `p`, and the handlers are what is left to do.
* `ended_cases`: what is known of a thread that has ended.
-/

namespace Tlpi.Lib.Cancel

inductive CancelState
  | enable
  | disable
  deriving DecidableEq, Repr

inductive CancelType
  | deferred
  | asynchronous
  deriving DecidableEq, Repr

/-- The calls of a thread. -/
inductive Call
  | printf
  | sleep
  | usleep
  | testcancel
  /-- `pthread_setcancelstate(state, &old_state)`, or with `NULL` -/
  | setcancelstate (state : CancelState) (save : Bool)
  /-- `pthread_setcancelstate(old_state, NULL)` -/
  | restore
  | setcanceltype (type : CancelType)
  | strdup
  /-- `pthread_cleanup_push`: the handler is registered for the string. -/
  | push
  /-- the first half of `pthread_cleanup_pop(1)`: the handler is removed. -/
  | unregister
  /-- the call of the handler -/
  | enter
  /-- `free(arg)` in the handler -/
  | free
  /-- the return from the handler -/
  | leave
  deriving DecidableEq, Repr

/-- The calls that are cancellation points or may be. -/
def Call.isPoint : Call → Bool
  | .printf | .sleep | .usleep | .testcancel => true
  | _ => false

/-- The second half is what the macro `pthread_cleanup_pop(1)` expands to after the removal. -/
def called (handler : List Call) : List Call := .enter :: handler ++ [.leave]

/-- `pthread_cleanup_pop(1)` -/
def pop (handler : List Call) : List Call := .unregister :: called handler

/-- A thread's own state.  `old` is `old_state`; `critical` is whether the last change of the
cancellation state was to disable it; `stack` counts the handlers that are registered.  The other
numbers count what has happened: registrations, calls of the handler and returns from it, strings
from `strdup` and calls of `free`. -/
structure Ctx where
  canc : CancelState := .enable
  type : CancelType := .deferred
  old : Option CancelState := none
  critical : Bool := false
  stack : Nat := 0
  handling : Bool := false
  pushes : Nat := 0
  calls : Nat := 0
  returns : Nat := 0
  strs : Nat := 0
  frees : Nat := 0
  deriving DecidableEq, Repr

def Ctx.exec (c : Ctx) : Call → Ctx
  | .printf | .sleep | .usleep | .testcancel => c
  | .setcancelstate v save =>
      { c with canc := v, old := if save then some c.canc else c.old, critical := v = .disable }
  | .restore => { c with canc := c.old.getD c.canc, critical := false }
  | .setcanceltype t => { c with type := t }
  | .strdup => { c with strs := c.strs + 1 }
  | .push => { c with stack := c.stack + 1, pushes := c.pushes + 1 }
  | .unregister => { c with stack := c.stack - 1 }
  | .enter => { c with handling := true, calls := c.calls + 1 }
  | .free => { c with frees := c.frees + 1 }
  | .leave => { c with handling := false, returns := c.returns + 1 }

/-- After some calls. -/
def after (is : List Call) (c : Ctx) : Ctx := is.foldl Ctx.exec c

/-- A statement: a call, `for (i = 0; i < n; i++)` or `while (1)`. -/
inductive Stmt
  | call (i : Call)
  | loop (n : Nat) (body : List Call)
  | forever (body : List Call)
  deriving DecidableEq, Repr

def calls (is : List Call) : List Stmt := is.map .call

/-- The call that comes next; at the head of a loop there is none. -/
def next : List Stmt → Option Call
  | .call i :: _ => some i
  | _ => none

/-- A request can act before the call `i`. -/
def acts (i : Option Call) (c : Ctx) : Bool :=
  c.canc = .enable && (c.type = .asynchronous || i.any Call.isPoint)

/-- A thread: what it still has to do, its own state, whether a request has come and whether it
has acted; `cut` is whether it acted during a call of the handler. -/
structure State where
  code : List Stmt
  ctx : Ctx := {}
  pending : Bool := false
  cancelled : Bool := false
  cut : Bool := false
  deriving DecidableEq, Repr

/-- The thread goes on, `pthread_cancel` is called for it, or the request acts. -/
inductive Event
  | run
  | request
  | cancel
  deriving DecidableEq, Repr

/-- The calls of all registered handlers. -/
def unwind (handler : List Call) (n : Nat) : List Call := (List.replicate n (called handler)).flatten

/-- The state in which the handlers are called. -/
def Ctx.unwound (c : Ctx) : Ctx := { c with stack := 0, handling := false }

/-- The state at the end of a thread that is cancelled. -/
def finish (handler : List Call) (c : Ctx) : Ctx := after (unwind handler c.stack) c.unwound

/-- One step of the thread itself. -/
def State.run (s : State) : Option State :=
  match s.code with
  | [] => none
  | .call i :: rest =>
      -- `pthread_testcancel` does not return if there is a request that can act
      if i = .testcancel ∧ s.pending ∧ ¬ s.cancelled ∧ acts (some i) s.ctx then none
      else some { s with code := rest, ctx := s.ctx.exec i }
  | .loop 0 _ :: rest => some { s with code := rest }
  | .loop (n + 1) body :: rest => some { s with code := calls body ++ .loop n body :: rest }
  | .forever body :: rest => some { s with code := calls body ++ .forever body :: rest }

def step (handler : List Call) (s : State) : Event → Option State
  | .run => s.run
  | .request => some { s with pending := true }
  | .cancel =>
      if s.code ≠ [] ∧ s.pending ∧ ¬ s.cancelled ∧ acts (next s.code) s.ctx then
        some { s with
          code := calls (unwind handler s.ctx.stack)
          ctx := s.ctx.unwound
          cancelled := true
          cut := s.ctx.handling }
      else none

/-- A new thread. -/
def thread (handler : List Call) (code : List Stmt) : System State Event :=
  ⟨{ code := code }, step handler⟩

/-! ### The check -/

def checkCalls (p : Option Call → Ctx → Bool) : List Call → Ctx → Bool
  | [], _ => true
  | i :: is, c => p (some i) c && checkCalls p is (c.exec i)

/-- A loop, from its head on. -/
def checkLoop (p : Option Call → Ctx → Bool) (body : List Call) (c : Ctx) : Bool :=
  p none c && checkCalls p body c

/-- Every point of the program meets `p`, and the end meets `q`. -/
def check (p : Option Call → Ctx → Bool) (q : Ctx → Bool) : List Stmt → Ctx → Bool
  | [], c => q c
  | .call i :: rest, c => p (some i) c && check p q rest (c.exec i)
  | .loop _ body :: rest, c =>
      let d := after body c
      checkLoop p body c && check p q rest c &&
        (checkLoop p body d && check p q rest d && after body d = d)
  | .forever body :: _, c =>
      let d := after body c
      checkLoop p body c && (checkLoop p body d && after body d = d)

section Checking

variable {p : Option Call → Ctx → Bool} {q : Ctx → Bool} {handler is : List Call}
  {code rest : List Stmt} {c : Ctx} {s s' : State}

theorem check_next (h : check p q code c = true) (hne : code ≠ []) : p (next code) c = true := by
  cases code with
  | nil => exact absurd rfl hne
  | cons st rest =>
    cases st with
    | call i =>
      rw [check, Bool.and_eq_true] at h
      exact h.1
    | loop n body =>
      simp only [check, checkLoop, Bool.and_eq_true] at h
      exact h.1.1.1
    | forever body =>
      simp only [check, checkLoop, Bool.and_eq_true] at h
      exact h.1.1

theorem check_calls_append (his : checkCalls p is c = true)
    (hrest : check p q rest (after is c) = true) : check p q (calls is ++ rest) c = true := by
  induction is generalizing c with
  | nil => exact hrest
  | cons i is ih =>
    rw [checkCalls, Bool.and_eq_true] at his
    show (p (some i) c && check p q (calls is ++ rest) (c.exec i)) = true
    rw [his.1, ih his.2 hrest]
    rfl

/-- **A step of the thread** keeps the check. -/
theorem check_run (h : check p q s.code s.ctx = true) (hstep : s.run = some s') :
    check p q s'.code s'.ctx = true := by
  rw [State.run] at hstep
  split at hstep
  · cases hstep
  · next i rest heq =>
    rw [heq, check, Bool.and_eq_true] at h
    split at hstep
    · cases hstep
    · cases hstep
      exact h.2
  · next body rest heq =>
    rw [heq, check] at h
    simp only [Bool.and_eq_true] at h
    cases hstep
    exact h.1.2
  · next n body rest heq =>
    rw [heq, check] at h
    simp only [Bool.and_eq_true, decide_eq_true_iff] at h
    obtain ⟨⟨hfirst, -⟩, ⟨hloop, hrest⟩, hsame⟩ := h
    cases hstep
    refine check_calls_append ((Bool.and_eq_true _ _).mp hfirst).2 ?_
    simp [check, hloop, hrest, hsame]
  · next body rest heq =>
    rw [heq, check] at h
    simp only [Bool.and_eq_true, decide_eq_true_iff] at h
    obtain ⟨hfirst, hloop, hsame⟩ := h
    cases hstep
    refine check_calls_append ((Bool.and_eq_true _ _).mp hfirst).2 ?_
    simp [check, hloop, hsame]

/-- The handlers that the thread still has to call lead to the state `d`. -/
def Unwinding (s : State) (d : Ctx) : Prop := ∃ is, s.code = calls is ∧ after is s.ctx = d

theorem unwinding_run {d : Ctx} (h : Unwinding s d) (hstep : s.run = some s') : Unwinding s' d := by
  obtain ⟨is, hcode, hafter⟩ := h
  cases is with
  | nil =>
    rw [State.run, hcode] at hstep
    cases hstep
  | cons i is =>
    rw [State.run, hcode] at hstep
    simp only [calls, List.map_cons] at hstep
    split_ifs at hstep
    cases hstep
    exact ⟨is, rfl, hafter⟩

theorem cancelled_run (hstep : s.run = some s') : s'.cancelled = s.cancelled ∧ s'.cut = s.cut := by
  rw [State.run] at hstep
  split at hstep
  · cases hstep
  · split at hstep
    · cases hstep
    · cases hstep
      exact ⟨rfl, rfl⟩
  all_goals
    cases hstep
    exact ⟨rfl, rfl⟩

/-- The request has acted in the state `t`, which the run admits. -/
structure From (ok : State → Event → Prop) (p : Option Call → Ctx → Bool) (handler : List Call)
    (s t : State) : Prop where
  cancelled : s.cancelled = true
  admitted : ok t .cancel
  point : p (next t.code) t.ctx = true
  acts : acts (next t.code) t.ctx = true
  cut : s.cut = t.ctx.handling
  unwinding : Unwinding s (finish handler t.ctx)

/-- **The check is sound.** -/
theorem checked {ok : State → Event → Prop} (hcheck : check p q code {} = true)
    (h : (thread handler code).ReachBy ok s) :
    (s.cancelled = false ∧ check p q s.code s.ctx = true) ∨ ∃ t, From ok p handler s t := by
  refine System.ReachBy.invariant (I := fun s => (s.cancelled = false ∧
    check p q s.code s.ctx = true) ∨ ∃ t, From ok p handler s t) (.inl ⟨rfl, hcheck⟩) ?_ h
  intro s e s' hs hok hstep
  cases e with
  | run =>
    obtain ⟨hcancelled, hcut⟩ := cancelled_run hstep
    rcases hs with ⟨hlive, hs⟩ | ⟨t, ht⟩
    · exact .inl ⟨hcancelled.trans hlive, check_run hs hstep⟩
    · exact .inr ⟨t, hcancelled.trans ht.cancelled, ht.admitted, ht.point, ht.acts,
        hcut.trans ht.cut, unwinding_run ht.unwinding hstep⟩
  | request =>
    cases hstep
    rcases hs with hs | ⟨t, ht⟩
    · exact .inl hs
    · exact .inr ⟨t, ht.cancelled, ht.admitted, ht.point, ht.acts, ht.cut, ht.unwinding⟩
  | cancel =>
    simp only [thread, step] at hstep
    split_ifs at hstep with hcan
    obtain ⟨hne, -, hlive, hacts⟩ := hcan
    cases hstep
    rcases hs with ⟨-, hs⟩ | ⟨t, ht⟩
    · exact .inr ⟨s, rfl, hok, check_next hs hne, hacts, rfl, _, rfl, rfl⟩
    · exact absurd ht.cancelled hlive

/-- **The end of a thread**: it has come to the end of the program, or it was cancelled and has
called the handlers. -/
theorem ended_cases {ok : State → Event → Prop} (hcheck : check p q code {} = true)
    (h : (thread handler code).ReachBy ok s) (hend : s.code = []) :
    (s.cancelled = false ∧ q s.ctx = true) ∨
      ∃ t, From ok p handler s t ∧ s.ctx = finish handler t.ctx := by
  rcases checked hcheck h with ⟨hlive, hs⟩ | ⟨t, ht⟩
  · rw [hend] at hs
    exact .inl ⟨hlive, hs⟩
  · obtain ⟨is, hcode, hafter⟩ := ht.unwinding
    rw [hend] at hcode
    obtain rfl : is = [] := List.map_eq_nil_iff.mp hcode.symm
    exact .inr ⟨t, ht, hafter⟩

end Checking

end Tlpi.Lib.Cancel
