import Tlpi.ThreadCancel.Model

/-!
# Clean-up after a cancellation

What is to be shown of a thread is a fact about each point of its program, and `check` finds it
there.

* `cleans_up_once`: `criticalSectionThread` cannot be cancelled in its critical section, and the
  clean-up handler is called once.
* `frees_copy`: the string is freed once, unless the cancellation comes between `strdup` and the
  registration of the handler, or in the handler itself when `pthread_cleanup_pop` has called it.
-/

namespace Tlpi.ThreadCancel

open Tlpi.Lib Tlpi.Lib.Cancel

/-! ### The critical section -/

/-- The handler has been called for each registration, of which there is at most one; and it has
returned, unless it was cut short. -/
def Once (cut : Bool) (d : Ctx) : Prop :=
  d.calls = d.pushes ∧ d.pushes ≤ 1 ∧ (cut = false → d.returns = d.calls)

instance (cut : Bool) (d : Ctx) : Decidable (Once cut d) := inferInstanceAs (Decidable (_ ∧ _))

/-- Cancellation is disabled in the critical section and enabled elsewhere. -/
def Shielded (c : Ctx) : Prop := c.canc = if c.critical then .disable else .enable

instance (c : Ctx) : Decidable (Shielded c) := inferInstanceAs (Decidable (_ = _))

def criticalPoint (i : Option Call) (c : Ctx) : Bool :=
  Shielded c ∧ (acts i c = true → Once c.handling (finish cleanupHandler c))

def criticalEnd (c : Ctx) : Bool := Shielded c ∧ Once false c

theorem check_criticalSectionThread :
    check criticalPoint criticalEnd criticalSectionThread {} = true := by decide

section Critical

variable {s : State}

/-- The state of a thread that has not been cancelled. -/
theorem shielded_of_reach (h : (thread cleanupHandler criticalSectionThread).Reach s)
    (hlive : s.cancelled = false) : Shielded s.ctx := by
  rcases checked check_criticalSectionThread h with ⟨-, hs⟩ | ⟨t, ht⟩
  · by_cases hend : s.code = []
    · rw [hend, check, criticalEnd, decide_eq_true_iff] at hs
      exact hs.1
    · have hpoint := check_next hs hend
      rw [criticalPoint, decide_eq_true_iff] at hpoint
      exact hpoint.1
  · rw [ht.cancelled] at hlive
    cases hlive

theorem once_of_ended (h : (thread cleanupHandler criticalSectionThread).Reach s)
    (hend : s.code = []) : Once s.cut s.ctx := by
  rcases ended_cases check_criticalSectionThread h hend with ⟨-, hs⟩ | ⟨t, ht, hfinish⟩
  · rw [criticalEnd, decide_eq_true_iff] at hs
    exact ⟨hs.2.1, hs.2.2.1, fun _ => hs.2.2.2 rfl⟩
  · have hpoint := ht.point
    rw [criticalPoint, decide_eq_true_iff] at hpoint
    rw [hfinish, ht.cut]
    exact hpoint.2 ht.acts

end Critical

/-- The string has no owner: the handler is about to be registered for it, or is being called by
`pthread_cleanup_pop`. -/
def exposed (s : State) : Bool := next s.code = some .push || s.ctx.handling

/-- Each string has been freed once. -/
def Freed (d : Ctx) : Prop := d.strs ≤ 1 ∧ d.frees = d.strs

instance (d : Ctx) : Decidable (Freed d) := inferInstanceAs (Decidable (_ ∧ _))

/-- There is a string, and nobody is going to free it. -/
def Lost (c : Ctx) : Prop := c.stack = 0 ∧ c.strs = 1 ∧ c.frees = 0

instance (c : Ctx) : Decidable (Lost c) := inferInstanceAs (Decidable (_ ∧ _))

def copyPoint (i : Option Call) (c : Ctx) : Bool :=
  acts i c = true → if i = some .push ∨ c.handling then Lost c else Freed (finish cleanupHandler c)

def copyEnd (c : Ctx) : Bool := Freed c

theorem check_copy (w : Which) : check copyPoint copyEnd w.code {} = true := by
  cases w with
  | async => decide
  | deferred => decide
  | disabled => decide

section Copies

variable {w : Which} {s s' : State}

theorem freed_of_ended
    (h : (thread cleanupHandler w.code).ReachBy (fun s e => e = .cancel → exposed s = false) s)
    (hend : s.code = []) : Freed s.ctx := by
  rcases ended_cases (check_copy w) h hend with ⟨-, hs⟩ | ⟨t, ht, hfinish⟩
  · exact of_decide_eq_true hs
  · have hpoint := of_decide_eq_true ht.point ht.acts
    have hsafe := ht.admitted rfl
    rw [exposed, Bool.or_eq_false_iff, decide_eq_false_iff_not] at hsafe
    rw [if_neg (by rw [hsafe.2]; simp [hsafe.1])] at hpoint
    rw [hfinish]
    exact hpoint

theorem lost_of_cancel (h : (thread cleanupHandler w.code).Reach s) (hexposed : exposed s = true)
    (hstep : step cleanupHandler s .cancel = some s') :
    s'.code = [] ∧ s'.ctx.strs = 1 ∧ s'.ctx.frees = 0 := by
  rw [step] at hstep
  split_ifs at hstep with hcan
  obtain ⟨hne, -, hlive, hacts⟩ := hcan
  rcases checked (check_copy w) h with ⟨-, hs⟩ | ⟨t, ht⟩
  · have hpoint := of_decide_eq_true (check_next hs hne) hacts
    rw [exposed, Bool.or_eq_true, decide_eq_true_iff] at hexposed
    rw [if_pos hexposed] at hpoint
    obtain ⟨hstack, hstrs, hfrees⟩ := hpoint
    cases hstep
    exact ⟨by rw [hstack]; rfl, hstrs, hfrees⟩
  · exact absurd ht.cancelled hlive

end Copies

/-- Each of the three threads, in every run in which no cancellation acts between the return of
`strdup` and the registration of the handler, nor during the call of the handler that
`pthread_cleanup_pop` makes: when the thread has ended, the string has been freed once.  A
cancellation that acts there ends the thread at once, with the string not freed. -/
theorem frees_copy (w : Which) :
    (∀ s, (thread cleanupHandler w.code).ReachBy (fun t e => e = .cancel → exposed t = false) s →
        s.code = [] → s.ctx.strs ≤ 1 ∧ s.ctx.frees = s.ctx.strs) ∧
      ∀ s s', (thread cleanupHandler w.code).Reach s → exposed s = true →
        step cleanupHandler s .cancel = some s' →
          s'.code = [] ∧ s'.ctx.strs = 1 ∧ s'.ctx.frees = 0 :=
  ⟨fun _ => freed_of_ended, fun _ _ => lost_of_cancel⟩

set_option maxRecDepth 4000 in
/-- The asynchronous thread, cancelled when `strdup` has returned; and the deferred one, cancelled
in the `printf` of the handler after its twenty rounds. -/
theorem copy_leaks :
    (∃ s, (thread cleanupHandler asyncCancelThread).exec { code := asyncCancelThread }
        (List.replicate 4 .run ++ [.request, .cancel]) = some s ∧
      s.code = [] ∧ s.ctx.strs = 1 ∧ s.ctx.frees = 0) ∧
    ∃ s, (thread cleanupHandler deferredCancelThread).exec { code := deferredCancelThread }
        (List.replicate 88 .run ++ [.request, .cancel]) = some s ∧
      s.code = [] ∧ s.ctx.strs = 1 ∧ s.ctx.frees = 0 :=
  ⟨⟨_, rfl, rfl, rfl, rfl⟩, ⟨_, rfl, rfl, rfl, rfl⟩⟩

end Tlpi.ThreadCancel
