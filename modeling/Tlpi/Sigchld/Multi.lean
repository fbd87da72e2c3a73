import Tlpi.Lib.System
import Tlpi.Sigchld.Handler

/-!
# Waiting for several children

`main` of `chapter26/multi_SIGCHLD.c`: it blocks SIGCHLD, forks one child for each
of its `n` arguments, and calls `sigsuspend` until the handler has counted
`numLiveChildren` down to zero.  The steps of `main` interleave with the ends of
the children and with the handler; `main` stands still while the handler runs on
top of it.

The invariant `Inv` carries the three facts the program rests on:

* `count`: `numLiveChildren` is the number of children not yet reaped, but for the
  one the handler has in hand between its `waitpid` and its decrement;
* `wake`: a zombie is never forgotten: SIGCHLD is pending, or the handler has
  still to make its last `waitpid`;
* `sig`: every activation of the handler, and the pending bit, is paid for by the
  end of a child of its own.

`reaps_every_child` reads the program's guarantees off it.
-/

namespace Tlpi.Sigchld.Multi

open Tlpi.Lib

/-- Where `main` is. -/
inductive MainPc
  /-- `sigprocmask(SIG_BLOCK, &blockMask, NULL)` -/
  | blocking
  /-- the head of `for (j = 1; j < argc; j++)` -/
  | forking
  /-- the test `numLiveChildren > 0` -/
  | testing
  /-- in `sigsuspend(&emptyMask)` -/
  | suspended
  /-- `sigsuspend` has returned; `sigCnt++` is next -/
  | counting
  /-- after the loop -/
  | finished
  /-- left through `errExit` -/
  | failed
  deriving DecidableEq, Repr

structure State where
  proc : Proc
  pc : MainPc
  j : Nat
  sigCnt : Nat
  deriving DecidableEq

/-- A step of the surroundings or the handler, or the next step of `main`; `ok`
says whether the call it makes succeeds. -/
inductive Ev
  | proc (e : Event)
  | main (ok : Bool)
  deriving DecidableEq, Repr

/-- The process after `sigaction`, with the mask it has inherited. -/
def init (n : Nat) (mask : SigSet) : State :=
  { proc :=
      { kids := ⟨[], false⟩
        mask := mask
        suspend := none
        numLiveChildren := n
        handler := none
        reapedLog := [] }
    pc := .blocking
    j := 1
    sigCnt := 0 }

/-- The next step of `main`. -/
def mainStep (n : Nat) (s : State) (ok : Bool) : Option State :=
  match s.pc with
  | .blocking =>
      if ok then
        some { s with
          proc := { s.proc with mask := sigprocmask .block {SIGCHLD} s.proc.mask }
          pc := .forking }
      else some { s with pc := .failed }
  | .forking =>
      if s.j < n + 1 then
        if ok then some { s with proc := { s.proc with kids := s.proc.kids.fork }, j := s.j + 1 }
        else some { s with pc := .failed }
      else some { s with pc := .testing }
  | .testing =>
      if 0 < s.proc.numLiveChildren then
        some { s with
          proc := { s.proc with mask := ∅, suspend := some s.proc.mask }
          pc := .suspended }
      else some { s with pc := .finished }
  | .suspended => if s.proc.suspend = none then some { s with pc := .counting } else none
  | .counting => some { s with sigCnt := s.sigCnt + 1, pc := .testing }
  | .finished => none
  | .failed => none

def step (n : Nat) (s : State) : Ev → Option State
  | .proc e =>
      if s.pc = .finished ∨ s.pc = .failed then none
      else (s.proc.step e).map fun p => { s with proc := p }
  | .main ok => if s.proc.handler = none then mainStep n s ok else none

def system (n : Nat) (mask : SigSet) : System State Ev := ⟨init n mask, step n⟩

/-! ### The invariant -/

/-- `main` runs with SIGCHLD blocked and nothing on top of it. -/
def Calm (p : Proc) : Prop := SIGCHLD ∈ p.mask ∧ p.handler = none ∧ p.suspend = none

/-- In `sigsuspend`, no handler running. -/
def Asleep (p : Proc) : Prop :=
  p.handler = none ∧ p.mask = ∅ ∧ 0 < p.numLiveChildren ∧ ∃ m, p.suspend = some m ∧ SIGCHLD ∈ m

/-- In `sigsuspend`, the handler running. -/
def Handling (p : Proc) : Prop :=
  SIGCHLD ∈ p.mask ∧ (∃ f, p.handler = some f ∧ SIGCHLD ∈ f.restore) ∧ p.suspend ≠ none

/-- What each place in `main` says about mask, handler and table. -/
def Phase (n : Nat) (s : State) : Prop :=
  match s.pc with
  | .blocking => s.proc.kids = ⟨[], false⟩ ∧ s.j = 1 ∧ s.proc.handler = none ∧ s.proc.suspend = none
  | .forking => Calm s.proc ∧ s.j ≤ n + 1 ∧ s.j = s.proc.kids.table.length + 1
  | .testing | .counting => Calm s.proc ∧ s.proc.kids.table.length = n
  | .finished =>
      Calm s.proc ∧ s.proc.kids.table.length = n ∧ s.proc.numLiveChildren ≤ 0
  | .suspended =>
      (Calm s.proc ∨ Asleep s.proc ∨ Handling s.proc) ∧ s.proc.kids.table.length = n
  | .failed => s.proc.handler = none

/-- One while the handler holds a child it has not counted yet. -/
def inHand (p : Proc) : Nat :=
  match p.handler with
  | some ⟨.gotChild, _⟩ => 1
  | _ => 0

/-- One while an activation of the handler has not been counted in `sigCnt`. -/
def uncounted (s : State) : Nat :=
  if s.proc.handler ≠ none ∨ (s.pc = .suspended ∧ s.proc.suspend = none) ∨ s.pc = .counting
  then 1 else 0

structure Inv (n : Nat) (s : State) : Prop where
  phase : Phase n s
  count : s.proc.numLiveChildren + s.proc.kids.reaped = n + inHand s.proc
  wake : 0 < s.proc.kids.zombies →
    s.proc.kids.pending = true ∨ ∃ f, s.proc.handler = some f ∧ f.pc ≠ .sleeping
  sig : s.sigCnt + uncounted s + (if s.proc.kids.pending then 1 else 0) ≤
    s.proc.kids.zombies + s.proc.kids.reaped
  some_sig : 0 < s.proc.kids.reaped → 0 < s.sigCnt + uncounted s
  log_nodup : s.proc.reapedLog.Nodup
  log : ∀ j, j ∈ s.proc.reapedLog ↔ s.proc.kids.IsReaped j

theorem inv_init (n : Nat) (mask : SigSet) : Inv n (init n mask) := by
  refine ⟨⟨rfl, rfl, rfl, rfl⟩, ?_, ?_, ?_, ?_, ?_, ?_⟩
  · simp [init, inHand, Kids.reaped]
  · simp [init, Kids.zombies]
  · simp [init, uncounted, Kids.zombies, Kids.reaped]
  · simp [init, Kids.reaped]
  · simp [init]
  · simp [init, Kids.IsReaped]

/-- The handler only ever runs inside `sigsuspend`. -/
theorem Inv.handling {n : Nat} {s : State} (h : Inv n s) {f : Frame}
    (hf : s.proc.handler = some f) :
    s.pc = .suspended ∧ SIGCHLD ∈ s.proc.mask ∧ SIGCHLD ∈ f.restore ∧ s.proc.suspend ≠ none ∧
      s.proc.kids.table.length = n := by
  have hp := h.phase
  unfold Phase at hp
  cases hpc : s.pc <;> simp only [hpc, Calm, hf, reduceCtorEq, false_and, and_false] at hp
  obtain ⟨hp | hp | hp, hl⟩ := hp
  · exact hp.elim
  · simp [Asleep, hf] at hp
  · obtain ⟨hm, ⟨f', hf', hr⟩, hs⟩ := hp
    rw [hf, Option.some.injEq] at hf'
    subst hf'
    exact ⟨rfl, hm, hr, hs, hl⟩

/-! ### The steps -/

section Steps

variable {n : Nat} {s : State}

/-- A child ends. -/
theorem inv_terminate (h : Inv n s) {j st : Nat} {k : Kids}
    (hk : s.proc.kids.terminate j st = some k) :
    Inv n { s with proc := { s.proc with kids := k } } := by
  obtain ⟨hj, ht, hp, hrun, hz, hr⟩ := Kids.terminate_spec hk
  have hlen : k.table.length = s.proc.kids.table.length := by rw [ht, List.length_set]
  refine ⟨?_, ?_, fun _ => Or.inl hp, ?_, ?_, h.log_nodup, fun i => ?_⟩
  · have hph := h.phase
    unfold Phase at hph ⊢
    cases hpc : s.pc <;> simp only [hpc] at hph ⊢
    case blocking => rw [hph.1] at hj; simp at hj
    case failed => exact hph
    all_goals rw [hlen]; exact hph
  · have hc := h.count
    simp only [inHand, hr] at hc ⊢
    exact hc
  · have hs := h.sig
    show s.sigCnt + uncounted s + _ ≤ k.zombies + k.reaped
    rw [hp, if_pos rfl, hz, hr]
    omega
  · rw [hr]
    exact h.some_sig
  · exact (h.log i).trans (Kids.isReaped_terminate hk i).symm

/-- The kernel starts the handler: this can only be inside `sigsuspend`. -/
theorem inv_deliver (h : Inv n s) (hp : s.proc.kids.pending = true) (hm : SIGCHLD ∉ s.proc.mask)
    (hh : s.proc.handler = none) (hpc : s.pc ≠ .failed) :
    Inv n { s with proc := { s.proc with
      kids := { s.proc.kids with pending := false }
      mask := insert SIGCHLD s.proc.mask
      handler := some ⟨.waiting, s.proc.suspend.getD s.proc.mask⟩ } } := by
  have hph := h.phase
  have hsus : s.pc = .suspended ∧ Asleep s.proc ∧ s.proc.kids.table.length = n := by
    unfold Phase at hph
    cases hpc' : s.pc <;> simp only [hpc', Calm, hm, false_and] at hph
    case blocking => rw [hph.1] at hp; cases hp
    case failed => exact absurd hpc' hpc
    case suspended =>
      obtain ⟨hq | hq | hq, hl⟩ := hph
      · exact hq.elim
      · exact ⟨rfl, hq, hl⟩
      · exact absurd hq.1 hm
  obtain ⟨hpc', ⟨_, _, _, m, hsm, hmm⟩, hl⟩ := hsus
  refine ⟨?_, ?_, fun _ => Or.inr ⟨_, rfl, by simp⟩, ?_, fun _ => ?_, h.log_nodup, h.log⟩
  · simp only [Phase, hpc']
    refine ⟨Or.inr (Or.inr ⟨Finset.mem_insert_self _ _, ⟨_, rfl, ?_⟩, ?_⟩), hl⟩
    · simpa [hsm] using hmm
    · simp [hsm]
  · have hc := h.count
    simp only [inHand, hh] at hc ⊢
    exact hc
  · have hs := h.sig
    simp only [uncounted, hh, hp, hpc', hsm] at hs
    simp only [uncounted]
    simp at hs ⊢
    exact hs
  · simp [uncounted]

/-- The handler's `waitpid` reaps a child. -/
theorem inv_reap (h : Inv n s) {j st : Nat} {m : SigSet} {k : Kids}
    (hh : s.proc.handler = some ⟨.waiting, m⟩)
    (hk : s.proc.kids.waitAny j = some (.child j st, k)) :
    Inv n { s with proc := { s.proc with
      kids := k
      handler := some ⟨.gotChild, m⟩
      reapedLog := s.proc.reapedLog ++ [j] } } := by
  obtain ⟨hpc, hmask, hm, hs, hl⟩ := h.handling hh
  rcases Kids.waitAny_spec hk with ⟨st', hst, hj, hk', hrun, hz, hr⟩ | ⟨hst, _⟩
  · have hnot : j ∉ s.proc.reapedLog := by
      rw [h.log j]
      rintro ⟨st'', hst''⟩
      rw [hj] at hst''
      cases hst''
    refine ⟨?_, ?_, fun _ => Or.inr ⟨_, rfl, by simp⟩, ?_, fun _ => by simp [uncounted], ?_,
      fun i => ?_⟩
    · simp only [Phase, hpc]
      refine ⟨Or.inr (Or.inr ⟨hmask, ⟨_, rfl, hm⟩, hs⟩), ?_⟩
      rw [hk', List.length_set]
      exact hl
    · have hc := h.count
      simp only [inHand, hh, hr] at hc ⊢
      omega
    · have hsig := h.sig
      have hp : k.pending = s.proc.kids.pending := by rw [hk']
      simp only [uncounted, hh, hp] at hsig ⊢
      simp at hsig ⊢
      omega
    · rw [List.nodup_append]
      refine ⟨h.log_nodup, List.nodup_singleton j, fun a ha b hb => ?_⟩
      rw [List.mem_singleton] at hb
      exact fun hab => hnot (hb ▸ hab ▸ ha)
    · rw [List.mem_append, List.mem_singleton, h.log i, hk', Kids.isReaped_set hj, or_comm]
  · rcases hst with hst | hst <;> cases hst

/-- The handler's `waitpid` finds no zombie. -/
theorem inv_noChild (h : Inv n s) {m : SigSet} (hh : s.proc.handler = some ⟨.waiting, m⟩)
    (hz : s.proc.kids.zombies = 0) :
    Inv n { s with proc := { s.proc with handler := some ⟨.sleeping, m⟩ } } := by
  obtain ⟨hpc, hmask, hm, hs, hl⟩ := h.handling hh
  refine ⟨?_, ?_, fun hpos => ?_, ?_, fun _ => by simp [uncounted], h.log_nodup, h.log⟩
  · simp only [Phase, hpc]
    exact ⟨Or.inr (Or.inr ⟨hmask, ⟨_, rfl, hm⟩, hs⟩), hl⟩
  · have hc := h.count
    simp only [inHand, hh] at hc ⊢
    exact hc
  · exact absurd hpos (by simp [hz])
  · have hsig := h.sig
    simp only [uncounted, hh] at hsig ⊢
    simp at hsig ⊢
    exact hsig

/-- `numLiveChildren--` in the handler. -/
theorem inv_decrement (h : Inv n s) {m : SigSet} (hh : s.proc.handler = some ⟨.gotChild, m⟩) :
    Inv n { s with proc := { s.proc with
      numLiveChildren := s.proc.numLiveChildren - 1
      handler := some ⟨.waiting, m⟩ } } := by
  obtain ⟨hpc, hmask, hm, hs, hl⟩ := h.handling hh
  refine ⟨?_, ?_, fun _ => Or.inr ⟨_, rfl, by simp⟩, ?_, fun _ => by simp [uncounted],
    h.log_nodup, h.log⟩
  · simp only [Phase, hpc]
    exact ⟨Or.inr (Or.inr ⟨hmask, ⟨_, rfl, hm⟩, hs⟩), hl⟩
  · have hc := h.count
    simp only [inHand, hh] at hc ⊢
    omega
  · have hsig := h.sig
    simp only [uncounted, hh] at hsig ⊢
    simp at hsig ⊢
    exact hsig

/-- The handler returns, and with it `sigsuspend`. -/
theorem inv_ret (h : Inv n s) {m : SigSet} (hh : s.proc.handler = some ⟨.sleeping, m⟩) :
    Inv n { s with proc := { s.proc with mask := m, suspend := none, handler := none } } := by
  obtain ⟨hpc, hmask, hm, hs, hl⟩ := h.handling hh
  refine ⟨?_, ?_, fun hpos => ?_, ?_, fun _ => ?_, h.log_nodup, h.log⟩
  · simp only [Phase, hpc]
    exact ⟨Or.inl ⟨hm, rfl, rfl⟩, hl⟩
  · have hc := h.count
    simp only [inHand, hh] at hc ⊢
    exact hc
  · rcases h.wake hpos with hw | ⟨f, hf, hw⟩
    · exact Or.inl hw
    · rw [hh, Option.some.injEq] at hf
      subst hf
      exact absurd rfl hw
  · have hsig := h.sig
    simp only [uncounted, hh, hpc] at hsig ⊢
    simp at hsig ⊢
    exact hsig
  · simp [uncounted, hpc]

/-- A step of `main` that leaves the children and the counters alone keeps the
invariant if the new place agrees with it. -/
theorem inv_of_phase (h : Inv n s) {p : Proc} {pc : MainPc} (hk : p.kids = s.proc.kids)
    (hn : p.numLiveChildren = s.proc.numLiveChildren) (hs : s.proc.handler = none)
    (hh : p.handler = none) (hl : p.reapedLog = s.proc.reapedLog)
    (hu : uncounted { s with proc := p, pc := pc } = uncounted s)
    (hph : Phase n { s with proc := p, pc := pc }) : Inv n { s with proc := p, pc := pc } := by
  refine ⟨hph, ?_, ?_, ?_, ?_, ?_, fun j => ?_⟩
  · have hc := h.count
    simp only [inHand, hs, hh, hk, hn] at hc ⊢
    exact hc
  · have hw := h.wake
    simp only [hk, hh, hs] at hw ⊢
    exact hw
  · have hsig := h.sig
    rw [hu]
    simp only [hk]
    exact hsig
  · have hsome := h.some_sig
    rw [hu]
    simp only [hk]
    exact hsome
  · simp only [hl]
    exact h.log_nodup
  · simp only [hl, hk]
    exact h.log j

/-- `fork` in `main`. -/
theorem inv_fork (h : Inv n s) (hpc : s.pc = .forking) (hj : s.j < n + 1) :
    Inv n { s with proc := { s.proc with kids := s.proc.kids.fork }, j := s.j + 1 } := by
  obtain ⟨_, hz, hr, hlen⟩ := Kids.fork_counts s.proc.kids
  have hph := h.phase
  simp only [Phase, hpc] at hph
  obtain ⟨hcalm, _, hjl⟩ := hph
  refine ⟨?_, ?_, ?_, ?_, ?_, h.log_nodup, fun i => ?_⟩
  · simp only [Phase, hpc]
    exact ⟨hcalm, by omega, by rw [hlen]; omega⟩
  · have hc := h.count
    simp only [inHand, hr] at hc ⊢
    exact hc
  · rw [hz]
    exact h.wake
  · have hs := h.sig
    show s.sigCnt + uncounted s + _ ≤ s.proc.kids.fork.zombies + s.proc.kids.fork.reaped
    rw [hz, hr]
    exact hs
  · rw [hr]
    exact h.some_sig
  · exact (h.log i).trans (Kids.isReaped_fork _ i).symm

/-- `sigCnt++` in `main`. -/
theorem inv_count (h : Inv n s) (hpc : s.pc = .counting) :
    Inv n { s with sigCnt := s.sigCnt + 1, pc := .testing } := by
  have hph := h.phase
  simp only [Phase, hpc] at hph
  refine ⟨hph, h.count, h.wake, ?_, fun _ => by simp only; omega, h.log_nodup, h.log⟩
  have hs := h.sig
  simp only [uncounted, hph.1.2.1, hpc] at hs ⊢
  simp at hs ⊢
  omega

theorem inv_main {s' : State} {ok : Bool} (h : Inv n s) (hh : s.proc.handler = none)
    (hst : mainStep n s ok = some s') : Inv n s' := by
  have hph := h.phase
  unfold mainStep at hst
  cases hpc : s.pc <;> simp only [hpc] at hst <;> simp only [Phase, hpc] at hph
  case blocking =>
    obtain ⟨hk, hj, _, hs⟩ := hph
    split at hst <;> obtain rfl := Option.some.inj hst
    · refine inv_of_phase h rfl rfl hh hh rfl (by simp [uncounted, hh, hpc]) ?_
      simp only [Phase, Calm, sigprocmask]
      exact ⟨⟨by simp, hh, hs⟩, by omega, by rw [hj, hk]; rfl⟩
    · exact inv_of_phase h rfl rfl hh hh rfl (by simp [uncounted, hh, hpc]) hh
  case forking =>
    split at hst
    · next hj =>
      split at hst <;> obtain rfl := Option.some.inj hst
      · simpa only [hpc] using inv_fork h hpc hj
      · exact inv_of_phase h rfl rfl hh hh rfl (by simp [uncounted, hh, hpc]) hh
    · obtain rfl := Option.some.inj hst
      refine inv_of_phase h rfl rfl hh hh rfl (by simp [uncounted, hh, hpc]) ?_
      exact ⟨hph.1, by simp only; omega⟩
  case testing =>
    obtain ⟨hcalm, hl⟩ := hph
    split at hst <;> obtain rfl := Option.some.inj hst
    · next hpos =>
      refine inv_of_phase h rfl rfl hh hh rfl (by simp [uncounted, hh, hpc]) ?_
      exact ⟨Or.inr (Or.inl ⟨hh, rfl, hpos, _, rfl, hcalm.1⟩), hl⟩
    · next hpos =>
      exact inv_of_phase h rfl rfl hh hh rfl (by simp [uncounted, hh, hpc])
        ⟨hcalm, hl, not_lt.mp hpos⟩
  case suspended =>
    split at hst
    · next hs =>
      obtain rfl := Option.some.inj hst
      refine inv_of_phase h rfl rfl hh hh rfl (by simp [uncounted, hpc, hs]) ?_
      obtain ⟨hp | ⟨_, _, _, m, hm, _⟩ | ⟨_, _, hp⟩, hl⟩ := hph
      · exact ⟨hp, hl⟩
      · rw [hs] at hm; cases hm
      · exact absurd hs hp
    · cases hst
  case counting =>
    obtain rfl := Option.some.inj hst
    exact inv_count h hpc
  all_goals cases hst

theorem inv_step {s' : State} {e : Ev} (h : Inv n s) (hst : step n s e = some s') : Inv n s' := by
  cases e with
  | main ok =>
    simp only [step] at hst
    split at hst
    · next hh => exact inv_main h hh hst
    · cases hst
  | proc e =>
    simp only [step] at hst
    split at hst
    · cases hst
    next hpc =>
    rw [not_or] at hpc
    simp only [Option.map_eq_some_iff] at hst
    obtain ⟨p, hp, rfl⟩ := hst
    rcases Proc.step_cases hp with ⟨j, st, k, -, hk, rfl⟩ | ⟨-, hpend, hm, hh, rfl⟩ |
      ⟨j, m, st, k, -, hh, hk, rfl⟩ | ⟨j, m, -, hh, hz, rfl⟩ | ⟨m, -, hh, rfl⟩ | ⟨m, -, hh, rfl⟩
    · exact inv_terminate h hk
    · exact inv_deliver h hpend hm hh hpc.2
    · exact inv_reap h hh hk
    · exact inv_noChild h hh hz
    · exact inv_decrement h hh
    · exact inv_ret h hh

end Steps

theorem inv_of_reach {n : Nat} {mask : SigSet} {s : State} (h : (system n mask).Reach s) :
    Inv n s :=
  System.Reach.invariant (I := Inv n) (inv_init n mask) (fun _ _ _ hi hst => inv_step hi hst) h

/-! ### What the program guarantees -/

/-- In `sigsuspend`, waiting for a signal. -/
def Waiting (s : State) : Prop :=
  s.pc = .suspended ∧ s.proc.suspend ≠ none ∧ s.proc.handler = none

instance (s : State) : Decidable (Waiting s) := by unfold Waiting; infer_instance

/-- **Every child is reaped and no wakeup is lost.**  Whatever the inherited mask
and however the children's ends fall between the steps of `main` and the
handler: at the test of the loop the counter is the number of children not yet
reaped; when the parent waits with no SIGCHLD pending there is no zombie and
somebody still runs; and when the loop is left every child was reaped exactly
once, with between one and `n` signals caught. -/
theorem reaps_every_child (n : Nat) (hn : 1 ≤ n) (mask : SigSet) (s : State)
    (h : (system n mask).Reach s) :
    (s.pc = .testing → s.proc.kids.table.length = n ∧
      s.proc.numLiveChildren = s.proc.kids.running + s.proc.kids.zombies) ∧
    (Waiting s → s.proc.kids.pending = false →
      s.proc.kids.zombies = 0 ∧ 0 < s.proc.kids.running) ∧
    (s.pc = .finished →
      s.proc.kids.table.length = n ∧ (∀ j, j < n → s.proc.kids.IsReaped j) ∧
      (∀ j, j < n → s.proc.reapedLog.count j = 1) ∧ 1 ≤ s.sigCnt ∧ s.sigCnt ≤ n) := by
  have hi := inv_of_reach h
  have hsum := Kids.running_add_zombies_add_reaped s.proc.kids
  have hc := hi.count
  have hph := hi.phase
  refine ⟨fun hpc => ?_, fun ⟨hpc, hs, hh⟩ hpend => ?_, fun hpc => ?_⟩
  · simp only [Phase, hpc, Calm] at hph
    simp only [inHand, hph.1.2.1] at hc
    exact ⟨hph.2, by omega⟩
  · have hz : s.proc.kids.zombies = 0 := by
      by_contra hne
      rcases hi.wake (by omega) with hw | ⟨f, hf, _⟩
      · rw [hpend] at hw; cases hw
      · rw [hh] at hf; cases hf
    simp only [Phase, hpc] at hph
    obtain ⟨hp | hp | hp, hl⟩ := hph
    · exact absurd hp.2.2 hs
    · simp only [inHand, hh] at hc
      have := hp.2.2.1
      exact ⟨hz, by omega⟩
    · obtain ⟨f, hf, _⟩ := hp.2.1
      rw [hh] at hf; cases hf
  · simp only [Phase, hpc, Calm] at hph
    obtain ⟨⟨_, hh, _⟩, hl, hle⟩ := hph
    simp only [inHand, hh] at hc
    have hall : s.proc.kids.reaped = s.proc.kids.table.length := by omega
    have hreaped : ∀ j, j < n → s.proc.kids.IsReaped j := by
      intro j hj
      have hj' : j < s.proc.kids.table.length := by omega
      have hr := List.countP_eq_length.mp hall _ (List.getElem_mem hj')
      cases hc : s.proc.kids.table[j] with
      | reaped st => exact ⟨st, by rw [List.getElem?_eq_getElem hj', hc]⟩
      | running => rw [hc] at hr; cases hr
      | zombie st => rw [hc] at hr; cases hr
    have hsig := hi.sig
    have hsome := hi.some_sig (by omega)
    simp only [uncounted, hh, hpc] at hsig hsome
    simp at hsig hsome
    refine ⟨hl, hreaped, fun j hj => ?_, by omega, by omega⟩
    exact List.count_eq_one_of_mem hi.log_nodup ((hi.log j).mpr (hreaped j hj))

/-- One child that ends while the parent is suspended. -/
theorem reaps_every_child_single :
    ∃ s, (system 1 ∅).Reach s ∧ s.pc = .finished ∧ s.proc.reapedLog.count 0 = 1 := by
  have hrun : ((system 1 ∅).exec (init 1 ∅)
      [.main true, .main true, .main true, .main true, .proc (.terminate 0 0), .proc .deliver,
        .proc (.waitpid 0), .proc .decrement, .proc (.waitpid 0), .proc .ret, .main true,
        .main true, .main true]).map State.pc = some .finished := by decide
  obtain ⟨s, hs, hpc⟩ := Option.map_eq_some_iff.mp hrun
  have hr : (system 1 ∅).Reach s := System.reach_of_exec hs
  have hend := (reaps_every_child 1 (by decide) ∅ s hr).2.2 hpc
  exact ⟨s, hr, hpc, hend.2.2.1 0 (by decide)⟩

end Tlpi.Sigchld.Multi
