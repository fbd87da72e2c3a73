import Mathlib.Logic.Function.Iterate
import Mathlib.Tactic.Common
import Tlpi.Lib.Lists

/-!
# Labelled systems and their runs

A `System` has one initial state and a partial step function: `step s e` is the
state after the step named by the label `e`, or `none` when that step cannot be
taken in `s`.  Everything a scheduler, a kernel or another process may choose is
part of the label, so the function stays executable and a run is a list of
labels.

* `ReachBy ok s`: some run ends in `s` and each of its steps, taken from a state
  `t` with a label `e`, meets `ok t e`.  `Reach` puts no condition on the steps.
* `ReachBy.invariant`: what holds initially and survives every admitted step
  holds in every state reached.
* `Forever P s`: a run from `s` without an end, in whose states `P` holds.  There is one if such
  states can always be left for such states (`Forever.of_stay`), and none if a measure goes down
  (`not_forever_of_measure`).
* `countP_le_of_gain`: if the steps that `p` picks out take something from a measure, a run has no
  more of them than there is to take and is added (`total`).
* `execBy ok`, `exec`: a given list of labels, run; `reachBy_of_execBy` and
  `reach_of_exec` say that where it ends is reached.
-/

namespace Tlpi.Lib

/-- A labelled system: the initial state and the step each label names. -/
structure System (σ ε : Type) where
  init : σ
  step : σ → ε → Option σ

namespace System

variable {σ ε : Type} (S : System σ ε)

/-- The states reached by the runs whose steps all meet `ok`. -/
inductive ReachBy (ok : σ → ε → Prop) : σ → Prop
  | init : ReachBy ok S.init
  | step {s s' : σ} (e : ε) : ReachBy ok s → ok s e → S.step s e = some s' → ReachBy ok s'

/-- The states reached by any run. -/
def Reach (s : σ) : Prop := S.ReachBy (fun _ _ => True) s

/-- The state after the steps of a list of labels, if all of them can be taken and
meet `ok`. -/
def execBy (ok : σ → ε → Prop) [∀ s e, Decidable (ok s e)] : σ → List ε → Option σ
  | s, [] => some s
  | s, e :: es => if ok s e then (S.step s e).bind fun s' => execBy ok s' es else none

/-- The state after the steps of a list of labels, if all of them can be taken. -/
def exec : σ → List ε → Option σ := S.execBy fun _ _ => True

variable {S}

/-- **The invariant rule.**  What holds initially and is kept by every admitted
step from a reached state holds in every state reached. -/
theorem ReachBy.invariant {ok : σ → ε → Prop} {I : σ → Prop} (h0 : I S.init)
    (hs : ∀ s e s', I s → ok s e → S.step s e = some s' → I s') :
    ∀ {s : σ}, S.ReachBy ok s → I s := by
  intro s h
  induction h with
  | init => exact h0
  | step e _ hok hst ih => exact hs _ e _ ih hok hst

theorem Reach.invariant {I : σ → Prop} (h0 : I S.init)
    (hs : ∀ s e s', I s → S.step s e = some s' → I s') {s : σ} (h : S.Reach s) : I s :=
  ReachBy.invariant h0 (fun s e s' hi _ hst => hs s e s' hi hst) h

theorem reachBy_of_execBy_from {ok ok' : σ → ε → Prop} [∀ s e, Decidable (ok' s e)]
    (himp : ∀ s e, ok' s e → ok s e) {s : σ} (hs : S.ReachBy ok s) :
    ∀ (es : List ε) {s' : σ}, S.execBy ok' s es = some s' → S.ReachBy ok s' := by
  intro es
  induction es generalizing s with
  | nil => intro s' h; rw [execBy, Option.some.injEq] at h; exact h ▸ hs
  | cons e es ih =>
    intro s' h
    rw [execBy] at h
    split at h
    · next hok =>
      rw [Option.bind_eq_some_iff] at h
      obtain ⟨t, ht, h⟩ := h
      exact ih (.step e hs (himp s e hok) ht) h
    · cases h

/-- Where a run of admitted steps ends is reached by such steps. -/
theorem reachBy_of_execBy {ok : σ → ε → Prop} [∀ s e, Decidable (ok s e)] {es : List ε} {s : σ}
    (h : S.execBy ok S.init es = some s) : S.ReachBy ok s :=
  reachBy_of_execBy_from (fun _ _ => id) .init es h

/-- Where a run ends is reached. -/
theorem reach_of_exec {es : List ε} {s : σ} (h : S.exec S.init es = some s) : S.Reach s :=
  reachBy_of_execBy h

theorem exec_cons {e : ε} {s t : σ} (h : S.step s e = some t) (es : List ε) :
    S.exec s (e :: es) = S.exec t es := by
  rw [exec, execBy, if_pos trivial, h]
  rfl

/-! ### Runs without an end -/

variable (S) in
/-- Some run from `s` goes on for ever and stays in `P`. -/
def Forever (P : σ → Prop) (s : σ) : Prop :=
  ∃ run : Nat → σ, run 0 = s ∧ ∀ n, P (run n) ∧ ∃ e, S.step (run n) e = some (run (n + 1))

theorem Forever.of_stay {P A : σ → Prop} (hP : ∀ t, A t → P t)
    (hstep : ∀ t, A t → ∃ e t', S.step t e = some t' ∧ A t') {s : σ} (hs : A s) :
    S.Forever P s := by
  choose e t' hnext hA using hstep
  let next : {t // A t} → {t // A t} := fun t => ⟨t' t.1 t.2, hA t.1 t.2⟩
  refine ⟨fun n => (next^[n] ⟨s, hs⟩).1, rfl, fun n => ⟨hP _ (next^[n] ⟨s, hs⟩).2, ?_⟩⟩
  refine ⟨e _ (next^[n] ⟨s, hs⟩).2, ?_⟩
  show _ = some (next^[n + 1] ⟨s, hs⟩).1
  rw [Function.iterate_succ_apply']
  exact hnext _ _

theorem not_forever_of_measure {P I : σ → Prop} (m : σ → Nat)
    (hstep : ∀ t e t', I t → P t → S.step t e = some t' → P t' → I t' ∧ m t' < m t) {s : σ}
    (hs : I s) : ¬ S.Forever P s := by
  rintro ⟨run, rfl, hrun⟩
  have hdown : ∀ n, I (run n) ∧ m (run n) + n ≤ m (run 0) := by
    intro n
    induction n with
    | zero => exact ⟨hs, Nat.le_refl _⟩
    | succ n ih =>
      obtain ⟨e, he⟩ := (hrun n).2
      obtain ⟨hi, hlt⟩ := hstep _ e _ ih.1 (hrun n).1 he (hrun (n + 1)).1
      exact ⟨hi, by omega⟩
  have hlong := (hdown (m (run 0) + 1)).2
  omega

/-- What the picked steps of a run take from the measure is what has been there and what the
steps have added. -/
theorem countP_le_of_gain (m : σ → Nat) (p : ε → Bool) (gain : ε → Nat)
    (hstep : ∀ s e s', S.step s e = some s' → m s' + (if p e then 1 else 0) ≤ m s + gain e)
    (es : List ε) {s s' : σ} (h : S.exec s es = some s') :
    es.countP p + m s' ≤ m s + total gain es := by
  induction es generalizing s with
  | nil =>
    rw [exec, execBy, Option.some.injEq] at h
    subst h
    exact Nat.le_of_eq (Nat.zero_add _)
  | cons e es ih =>
    rw [exec, execBy, if_pos trivial, Option.bind_eq_some_iff] at h
    obtain ⟨t, ht, h⟩ := h
    have hfirst := hstep s e t ht
    have hrest := ih h
    rw [List.countP_cons, total]
    omega

theorem countP_le_of_measure (m : σ → Nat) (p : ε → Bool)
    (hstep : ∀ s e s', S.step s e = some s' → m s' + (if p e then 1 else 0) ≤ m s) (es : List ε)
    {s s' : σ} (h : S.exec s es = some s') : es.countP p + m s' ≤ m s := by
  have hle := countP_le_of_gain m p (fun _ => 0) hstep es h
  rwa [total_zero] at hle

end System

end Tlpi.Lib
