import Tlpi.Shell.Model

/-!
# Two reapers, one shell

A caller of `system` whose SIGCHLD handler reaps every child it can find competes
with the `waitpid` inside `system` for the shell.  `Inv` says why the handler
never wins: from the moment before the fork until after the wait SIGCHLD is
blocked and no handler runs (`masked`), so the shell is waited for by the call
alone (`shell`), every other child that ends in that time stays a zombie
(`left`), and the pending bit keeps the handler's turn (`served`) until the mask
is put back.

`system_keeps_status` reads the guarantees off it.
-/

namespace Tlpi.Shell

open Tlpi.Lib Tlpi.Sigchld

/-- What is known of the shell `c`: while the call waits for it nobody has reaped
it, and afterwards the call holds the status it ended with. -/
def ShellOk (s : State) (c : Nat) : Prop :=
  c < s.proc.kids.table.length ∧ c ∉ s.proc.reapedLog ∧
    if s.pc = .waiting then
      s.proc.kids.table[c]? = some .running ∨
        ∃ st, s.proc.kids.table[c]? = some (.zombie st) ∧ c ∈ s.endedMasked
    else ∃ st, s.proc.kids.table[c]? = some (.reaped st) ∧ s.status = st ∧ c ∈ s.endedMasked

structure Inv (s : State) : Prop where
  suspend : s.proc.suspend = none
  masked : s.pc.masked = true → SIGCHLD ∈ s.proc.mask ∧ s.proc.handler = none
  unmasked : s.pc.masked = false → (s.proc.handler = none → SIGCHLD ∉ s.proc.mask) ∧
    ∀ f, s.proc.handler = some f → SIGCHLD ∉ f.restore
  orig : s.pc ≠ .block → SIGCHLD ∉ s.origMask
  log_lt : ∀ j ∈ s.proc.reapedLog, j < s.proc.kids.table.length
  unforked : s.pc = .block ∨ s.pc = .ignoreInt ∨ s.pc = .ignoreQuit ∨ s.pc = .fork →
    s.childPid = none
  shell : ∀ c, s.childPid = some c → ShellOk s c
  left : s.pc.masked = true → ∀ j ∈ s.endedMasked, s.childPid ≠ some j →
    ∃ st, s.proc.kids.table[j]? = some (.zombie st)
  waited : ∀ j ∈ s.waitedFor, s.childPid = some j
  fresh : s.pc = .block → s.endedMasked = []
  served : s.endedMasked ≠ [] → s.handlerAfter = true ∨
    (s.proc.kids.pending = true ∧ (s.pc.masked = true ∨ s.pc = .restoring))
  no_echild : s.sawEchild = false

theorem inv_init {c : Entry} (hm : SIGCHLD ∉ c.mask) : Inv (init c) := by
  constructor <;> simp [init, Pc.masked, hm]

section Steps

variable {s : State}

/-- A child ends. -/
theorem inv_terminate (h : Inv s) {j st : Nat} {k : Kids}
    (hk : s.proc.kids.terminate j st = some k) :
    Inv { s with
      proc := { s.proc with kids := k }
      endedMasked := if s.pc.masked then s.endedMasked ++ [j] else s.endedMasked } := by
  obtain ⟨hj, ht, hp, -⟩ := Kids.terminate_spec hk
  have hlen : k.table.length = s.proc.kids.table.length := by rw [ht, List.length_set]
  obtain ⟨hjl, _⟩ := List.getElem?_eq_some_iff.mp hj
  have hother : ∀ i, i ≠ j → k.table[i]? = s.proc.kids.table[i]? := by
    intro i hi
    rw [ht, List.getElem?_set_ne hi.symm]
  have hself : k.table[j]? = some (.zombie st) := by rw [ht, List.getElem?_set_self hjl]
  have hmono : ∀ i ∈ s.endedMasked,
      i ∈ (if s.pc.masked then s.endedMasked ++ [j] else s.endedMasked) := by
    intro i hi
    split
    · exact List.mem_append_left _ hi
    · exact hi
  refine ⟨h.suspend, h.masked, h.unmasked, h.orig, ?_, h.unforked, ?_, ?_, h.waited, ?_, ?_,
    h.no_echild⟩
  · simp only [hlen]
    exact h.log_lt
  · intro c hc
    obtain ⟨h1, h2, h3⟩ := h.shell c hc
    refine ⟨by simp only [hlen]; exact h1, h2, ?_⟩
    rcases eq_or_ne c j with rfl | hne
    · split at h3
      · next hpc =>
        simp only [hpc, if_true]
        exact Or.inr ⟨st, hself, by simp [Pc.masked]⟩
      · obtain ⟨st', hr, _⟩ := h3
        rw [hj] at hr
        cases hr
    · split at h3
      · next hpc =>
        simp only [hpc, if_true, hother c hne]
        exact h3.imp id fun ⟨st', hz, he⟩ => ⟨st', hz, List.mem_append_left _ he⟩
      · next hpc =>
        simp only [hpc, if_false, hother c hne]
        obtain ⟨st', hr, hs, he⟩ := h3
        exact ⟨st', hr, hs, hmono c he⟩
  · intro hm i hi hc
    rcases eq_or_ne i j with rfl | hne
    · exact ⟨st, hself⟩
    · rw [if_pos hm, List.mem_append, List.mem_singleton] at hi
      simp only [hother i hne]
      exact h.left hm i (hi.resolve_right hne) hc
  · intro hpc
    simp only at hpc
    simp [hpc, Pc.masked, h.fresh hpc]
  · intro hne
    by_cases hm : s.pc.masked = true
    · exact Or.inr ⟨hp, Or.inl hm⟩
    · simp only [hm] at hne
      exact (h.served hne).imp id fun hs => ⟨hp, hs.2⟩

/-- The kernel starts the handler: the call does not have SIGCHLD blocked. -/
theorem inv_deliver (h : Inv s) (hm : SIGCHLD ∉ s.proc.mask) :
    Inv { s with
      proc := { s.proc with
        kids := { s.proc.kids with pending := false }
        mask := insert SIGCHLD s.proc.mask
        handler := some ⟨.waiting, s.proc.suspend.getD s.proc.mask⟩ }
      handlerAfter := s.handlerAfter || s.pc.unmasked } := by
  have hpc : s.pc.masked = false := by
    by_contra hc
    exact hm (h.masked (by simpa using hc)).1
  refine ⟨h.suspend, ?_, ?_, h.orig, h.log_lt, h.unforked, h.shell, ?_, h.waited, h.fresh, ?_,
    h.no_echild⟩
  · intro hc
    rw [hpc] at hc
    cases hc
  · intro _
    refine ⟨(nomatch ·), fun f hf => ?_⟩
    obtain rfl := Option.some.inj hf
    simpa [h.suspend] using hm
  · intro hc
    rw [hpc] at hc
    cases hc
  · intro hne
    left
    have hblk : s.pc ≠ .block := fun hc => hne (h.fresh hc)
    cases hp : s.pc <;> simp_all [Pc.masked, Pc.unmasked]

/-- The handler's own steps change no child but zombies it reaps, which the call
is not waiting for. -/
theorem inv_handler (h : Inv s) {f : Frame} (hf : s.proc.handler = some f) {p : Proc}
    (hk : p.kids = s.proc.kids ∨ ∃ j st, s.proc.kids.table[j]? = some (.zombie st) ∧
      p.kids = { s.proc.kids with table := s.proc.kids.table.set j (.reaped st) })
    (hlog : ∀ j ∈ p.reapedLog, j ∈ s.proc.reapedLog ∨
      ∃ st, s.proc.kids.table[j]? = some (.zombie st))
    (hsus : p.suspend = none)
    (hun : (p.handler = none → SIGCHLD ∉ p.mask) ∧ ∀ f, p.handler = some f → SIGCHLD ∉ f.restore) :
    Inv { s with proc := p } := by
  have hpc : s.pc.masked = false := by
    by_contra hc
    have := (h.masked (by simpa using hc)).2
    rw [hf] at this
    cases this
  have hnw : s.pc ≠ .waiting := by
    intro hc
    rw [hc] at hpc
    cases hpc
  have hlen : p.kids.table.length = s.proc.kids.table.length := by
    rcases hk with hk | ⟨j, st, _, hk⟩ <;> rw [hk]
    exact List.length_set
  have hpend : p.kids.pending = s.proc.kids.pending := by
    rcases hk with hk | ⟨j, st, _, hk⟩ <;> rw [hk]
  have hmasked : s.pc.masked ≠ true := by simp [hpc]
  refine ⟨hsus, fun hc => absurd hc hmasked, fun _ => hun, h.orig, ?_, h.unforked, ?_,
    fun hc => absurd hc hmasked, h.waited, h.fresh, ?_, h.no_echild⟩
  · intro j hj
    show j < p.kids.table.length
    rw [hlen]
    rcases hlog j hj with hj | ⟨st, hj⟩
    · exact h.log_lt j hj
    · exact (List.getElem?_eq_some_iff.mp hj).1
  · intro c hc
    obtain ⟨h1, h2, h3⟩ := h.shell c hc
    rw [if_neg hnw] at h3
    obtain ⟨st, hr, hs, he⟩ := h3
    refine ⟨by simp only [hlen]; exact h1, fun hcl => ?_, ?_⟩
    · rcases hlog c hcl with hcl | ⟨st', hz⟩
      · exact h2 hcl
      · rw [hr] at hz
        cases hz
    · rw [if_neg hnw]
      refine ⟨st, ?_, hs, he⟩
      rcases hk with hk | ⟨j, st', hz, hk⟩
      · simp only [hk, hr]
      · have hjc : j ≠ c := by
          rintro rfl
          rw [hr] at hz
          cases hz
        simp only [hk, List.getElem?_set_ne hjc, hr]
  · intro hne
    simp only [hpend]
    exact h.served hne

theorem inv_proc (h : Inv s) {e : Event} {s' : State} (hst : procStep s e = some s') : Inv s' := by
  simp only [procStep, Option.map_eq_some_iff] at hst
  obtain ⟨p, hp, rfl⟩ := hst
  rcases Proc.step_cases hp with ⟨j, st, k, rfl, hk, rfl⟩ | ⟨rfl, -, hm, -, rfl⟩ |
    ⟨j, m, st, k, rfl, hh, hk, rfl⟩ | ⟨j, m, rfl, hh, hz, rfl⟩ | ⟨m, rfl, hh, rfl⟩ |
    ⟨m, rfl, hh, rfl⟩
  · exact inv_terminate h hk
  · exact inv_deliver h hm
  all_goals
    have hun := h.unmasked (by
      by_contra hc
      have := (h.masked (by simpa using hc)).2
      rw [hh] at this
      cases this)
    have hm := hun.2 _ hh
  · rcases Kids.waitAny_spec hk with ⟨st', hr, hj, hk', -⟩ | ⟨hr, _⟩
    · refine inv_handler h hh (Or.inr ⟨j, st', hj, hk'⟩) (fun i hi => ?_) h.suspend
        ⟨(nomatch ·), fun f hf => ?_⟩
      · rw [List.mem_append, List.mem_singleton] at hi
        rcases hi with hi | rfl
        · exact Or.inl hi
        · exact Or.inr ⟨st', hj⟩
      · obtain rfl := Option.some.inj hf
        exact hm
    · rcases hr with hr | hr <;> cases hr
  · refine inv_handler h hh (Or.inl rfl) (fun i hi => Or.inl hi) h.suspend
      ⟨(nomatch ·), fun f hf => ?_⟩
    obtain rfl := Option.some.inj hf
    exact hm
  · refine inv_handler h hh (Or.inl rfl) (fun i hi => Or.inl hi) h.suspend
      ⟨(nomatch ·), fun f hf => ?_⟩
    obtain rfl := Option.some.inj hf
    exact hm
  · exact inv_handler h hh (Or.inl rfl) (fun i hi => Or.inl hi) rfl
      ⟨fun _ => hm, fun f hf => by cases hf⟩

/-- The `waitpid` of the call: it blocks, or it takes the shell. -/
theorem inv_waitFor (h : Inv s) (hpc : s.pc = .waiting) {c p st : Nat} {k : Kids}
    (hc : s.childPid = some c) (hk : s.proc.kids.waitFor c = some (.child p st, k)) :
    Inv { s with
      proc := { s.proc with kids := k }
      status := st
      waitedFor := s.waitedFor ++ [p]
      pc := .restoreMask } := by
  have hmask : s.pc.masked = true := by rw [hpc]; rfl
  obtain ⟨h1, h2, h3⟩ := h.shell c hc
  rw [if_pos hpc] at h3
  rcases Kids.waitFor_spec hk with ⟨st', hr, hz, rfl⟩ | ⟨hr, _⟩
  · obtain ⟨rfl, rfl⟩ := WaitRes.child.inj hr
    have he : p ∈ s.endedMasked := by
      rcases h3 with h3 | ⟨st', _, he⟩
      · rw [hz] at h3
        cases h3
      · exact he
    refine ⟨h.suspend, fun _ => h.masked hmask, (nomatch ·), fun _ => h.orig (by simp [hpc]), ?_,
      ?_, ?_, ?_, ?_, (nomatch ·), ?_, h.no_echild⟩
    · intro j hj
      simp only [List.length_set]
      exact h.log_lt j hj
    · rintro (hp | hp | hp | hp) <;> cases hp
    · intro d hd
      rw [hc] at hd
      obtain rfl := Option.some.inj hd
      refine ⟨by simp only [List.length_set]; exact h1, h2, ?_⟩
      exact ⟨st, List.getElem?_set_self h1, rfl, he⟩
    · intro _ j hj hd
      have hne : p ≠ j := fun hpj => hd (hpj ▸ hc)
      simp only [List.getElem?_set_ne hne]
      exact h.left hmask j hj hd
    · intro j hj
      rw [List.mem_append, List.mem_singleton] at hj
      rcases hj with hj | rfl
      · exact h.waited j hj
      · exact hc
    · intro hne
      refine (h.served hne).imp id fun hs => ⟨hs.1, Or.inl rfl⟩
  · cases hr

/-- The shell is there to be waited for, so `ECHILD` is not among the answers. -/
theorem waitFor_ne_echild (h : Inv s) (hpc : s.pc = .waiting) {c : Nat} (hc : s.childPid = some c) :
    ∀ k, s.proc.kids.waitFor c ≠ some (.echild, k) := by
  intro k hk
  obtain ⟨_, _, h3⟩ := h.shell c hc
  rw [if_pos hpc] at h3
  rcases Kids.waitFor_spec hk with ⟨st, hr, _⟩ | ⟨_, _, hno⟩
  · cases hr
  · rcases h3 with h3 | ⟨st, h3, _⟩
    · exact (hno 0).1 h3
    · exact (hno st).2 h3

theorem inv_fork (h : Inv s) (hpc : s.pc = .fork) :
    Inv { s with
      proc := { s.proc with kids := s.proc.kids.fork }
      childPid := some s.proc.kids.table.length
      pc := .waiting } := by
  have hmask : s.pc.masked = true := by rw [hpc]; rfl
  have hlen := (Kids.fork_counts s.proc.kids).2.2.2
  refine ⟨h.suspend, fun _ => h.masked hmask, (nomatch ·), fun _ => h.orig (by simp [hpc]), ?_,
    ?_, ?_, ?_, ?_, (nomatch ·), ?_, h.no_echild⟩
  · intro j hj
    have := h.log_lt j hj
    simp only [hlen]
    omega
  · rintro (hp | hp | hp | hp) <;> cases hp
  · intro c hc
    obtain rfl := Option.some.inj hc
    refine ⟨by simp only [hlen]; omega, fun hin => absurd (h.log_lt _ hin) (lt_irrefl _), ?_⟩
    rw [if_pos rfl]
    left
    simp [Kids.fork]
  · intro _ j hj _
    have hnone : s.childPid = none := h.unforked (by simp [hpc])
    obtain ⟨st, hz⟩ := h.left hmask j hj (by simp [hnone])
    obtain ⟨hjl, _⟩ := List.getElem?_eq_some_iff.mp hz
    refine ⟨st, ?_⟩
    simp only [Kids.fork]
    rw [List.getElem?_append_left hjl]
    exact hz
  · intro j hj
    have := h.waited j hj
    rw [h.unforked (by simp [hpc])] at this
    cases this
  · intro hne
    exact (h.served hne).imp id fun hs => ⟨hs.1, Or.inl rfl⟩

/-- A step of the call before there is a shell, SIGCHLD blocked. -/
theorem inv_masked_move (h : Inv s) (hm : s.pc.masked = true) (hc : s.childPid = none)
    {pc : Pc} (hpc : pc.masked = true) (dI dQ oI oQ : Disp) (st : Int) :
    Inv { s with
      dispInt := dI, dispQuit := dQ, saOrigInt := oI, saOrigQuit := oQ, status := st, pc := pc } := by
  have hblock : ∀ {q : Pc}, q.masked = true → q ≠ .block := by rintro q hq rfl; cases hq
  refine ⟨h.suspend, fun _ => h.masked hm, fun hn => ?_, fun _ => h.orig (hblock hm), h.log_lt,
    fun _ => hc, ?_, fun _ => h.left hm, h.waited, fun hb => absurd hb (hblock hpc), ?_,
    h.no_echild⟩
  · rw [hpc] at hn
    cases hn
  · intro c hc'
    rw [hc] at hc'
    cases hc'
  · intro hne
    exact (h.served hne).imp id fun hs => ⟨hs.1, Or.inl hpc⟩

/-- A step of the call after the mask is back and the handler has had its turn. -/
theorem inv_unmasked_move (h : Inv s) (hm : s.pc.unmasked = true)
    (hs : s.endedMasked ≠ [] → s.handlerAfter = true) {pc : Pc} (hpc : pc.unmasked = true)
    (dI dQ : Disp) : Inv { s with dispInt := dI, dispQuit := dQ, pc := pc } := by
  have hnm : ∀ {q : Pc}, q.unmasked = true → q.masked = false := by
    intro q hq
    cases q <;> first | rfl | cases hq
  have hnb : ∀ {q : Pc}, q.unmasked = true → q ≠ .block ∧ q ≠ .ignoreInt ∧ q ≠ .ignoreQuit ∧
      q ≠ .fork ∧ q ≠ .waiting := by
    intro q hq
    cases q <;> simp [Pc.unmasked] at hq ⊢
  obtain ⟨hb, hi, hq, hf, hw⟩ := hnb hpc
  refine ⟨h.suspend, fun hc => ?_, fun _ => h.unmasked (hnm hm), fun _ => h.orig (hnb hm).1,
    h.log_lt, ?_, ?_, fun hc => ?_, h.waited, fun hc => absurd hc hb, fun hne => Or.inl (hs hne),
    h.no_echild⟩
  · rw [hnm hpc] at hc
    cases hc
  · rintro (hc | hc | hc | hc)
    exacts [absurd hc hb, absurd hc hi, absurd hc hq, absurd hc hf]
  · intro c hc
    obtain ⟨h1, h2, h3⟩ := h.shell c hc
    rw [if_neg (hnb hm).2.2.2.2] at h3
    exact ⟨h1, h2, by simp only [hw, if_false]; exact h3⟩
  · rw [hnm hpc] at hc
    cases hc

/-- The call puts the mask back. -/
theorem inv_restoreMask (h : Inv s) (hpc : s.pc = .restoreMask) (hh : s.proc.handler = none) :
    Inv { s with
      proc := { s.proc with mask := sigprocmask .setmask s.origMask s.proc.mask }
      pc := .restoring } := by
  have horig := h.orig (by simp [hpc])
  refine ⟨h.suspend, (nomatch ·), fun _ => ⟨fun _ => horig, fun f hf => ?_⟩, fun _ => horig,
    h.log_lt, ?_, ?_, (nomatch ·), h.waited, (nomatch ·), ?_, h.no_echild⟩
  · simp only [hh] at hf
    cases hf
  · rintro (hp | hp | hp | hp) <;> cases hp
  · intro c hc
    obtain ⟨h1, h2, h3⟩ := h.shell c hc
    rw [if_neg (by simp [hpc])] at h3
    exact ⟨h1, h2, h3⟩
  · intro hne
    exact (h.served hne).imp id fun hs => ⟨hs.1, Or.inr rfl⟩

/-- `system` blocks `SIGCHLD`, before there is a shell. -/
theorem inv_block (h : Inv s) (hh : s.proc.handler = none) (hpc : s.pc = .block) :
    Inv { s with
      origMask := s.proc.mask
      proc := { s.proc with mask := sigprocmask .block {SIGCHLD} s.proc.mask }
      pc := .ignoreInt } := by
  have hend := h.fresh hpc
  have hno := h.unforked (Or.inl hpc)
  have hm := (h.unmasked (by rw [hpc]; rfl)).1 hh
  refine ⟨h.suspend, fun _ => ⟨by simp [sigprocmask], hh⟩, (nomatch ·), fun _ => hm, h.log_lt,
    fun _ => hno, ?_, ?_, h.waited, (nomatch ·), ?_, h.no_echild⟩
  · intro c hc
    rw [hno] at hc
    cases hc
  · intro _ j hj
    rw [hend] at hj
    cases hj
  · intro hne
    exact absurd hend hne

theorem inv_call (h : Inv s) (hh : s.proc.handler = none) {a : Answer} {s' : State}
    (hst : callStep s a = some s') : Inv s' := by
  unfold callStep at hst
  cases hpc : s.pc <;> simp only [hpc] at hst
  case block =>
    obtain rfl := Option.some.inj hst
    exact inv_block h hh hpc
  case ignoreInt | ignoreQuit =>
    obtain rfl := Option.some.inj hst
    exact inv_masked_move h (by rw [hpc]; rfl) (h.unforked (by simp [hpc])) rfl _ _ _ _ _
  case fork =>
    cases a <;> obtain rfl := Option.some.inj hst
    · exact inv_fork h hpc
    all_goals
      exact inv_masked_move h (by rw [hpc]; rfl) (h.unforked (by simp [hpc])) rfl _ _ _ _ _
  case waiting =>
    split at hst
    · cases hst
    next c hc =>
    split at hst
    · obtain rfl := Option.some.inj hst
      exact h
    split at hst
    · next p st k hk =>
      obtain rfl := Option.some.inj hst
      exact inv_waitFor h hpc hc hk
    · next r k hr hk =>
      rcases Kids.waitFor_spec hk with ⟨st, rfl, _⟩ | ⟨rfl, _⟩
      · exact absurd rfl (hr _ _)
      · exact absurd hk (waitFor_ne_echild h hpc hc k)
    · cases hst
  case restoreMask =>
    obtain rfl := Option.some.inj hst
    exact inv_restoreMask h hpc hh
  case restoring =>
    split at hst
    · cases hst
    next hpend =>
    obtain rfl := Option.some.inj hst
    have hm := (h.unmasked (by rw [hpc]; rfl)).1 hh
    refine inv_unmasked_move h (by rw [hpc]; rfl) (fun hne => ?_) rfl _ _
    exact (h.served hne).resolve_right fun hs => hpend ⟨hs.1, hm⟩
  case restoreInt | restoreQuit =>
    obtain rfl := Option.some.inj hst
    refine inv_unmasked_move h (by rw [hpc]; rfl) (fun hne => ?_) rfl _ _
    exact (h.served hne).resolve_right fun hs => by simp [hpc, Pc.masked] at hs
  case returned => cases hst

theorem inv_step (h : Inv s) {e : Ev} {s' : State} (hst : step s e = some s') : Inv s' := by
  cases e with
  | proc e => exact inv_proc h hst
  | call a =>
    simp only [step] at hst
    split at hst
    · next hh => exact inv_call h hh hst
    · cases hst

end Steps

theorem inv_of_reach {c : Entry} (hm : SIGCHLD ∉ c.mask) {s : State} (h : (system c).Reach s) :
    Inv s :=
  System.Reach.invariant (I := Inv) (inv_init hm) (fun _ _ _ hi hst => inv_step hi hst) h

/-! ### What the call guarantees -/

/-- **`system` keeps its child's status.**  For every caller whose mask does not
hold SIGCHLD, whatever children it has and however their ends, the shell's end,
the signals and the interruptions fall:

* the call's `waitpid` never answers `ECHILD`, and has never done so;
* the handler never reaps the shell, and the call waits for nobody else;
* while SIGCHLD is blocked, every other child that has ended since is still a
  zombie, left for the handler;
* when the call has returned, it returns the wait status the shell ended with;
* and by then, if a child ended while SIGCHLD was blocked — the shell did — the
  handler has been started after the mask was put back. -/
theorem system_keeps_status (c : Entry) (hm : SIGCHLD ∉ c.mask) (null : Bool) (s : State)
    (h : (system c).Reach s) :
    (∀ p k, s.pc = .waiting → s.childPid = some p →
      s.proc.kids.waitFor p ≠ some (.echild, k)) ∧ s.sawEchild = false ∧
    (∀ p, s.childPid = some p → p ∉ s.proc.reapedLog) ∧
    (∀ j ∈ s.waitedFor, s.childPid = some j) ∧
    (s.pc.masked = true → ∀ j ∈ s.endedMasked, s.childPid ≠ some j →
      ∃ st, s.proc.kids.table[j]? = some (.zombie st)) ∧
    (s.pc = .returned → ∀ p, s.childPid = some p →
      ∃ st : Nat, s.proc.kids.table[p]? = some (.reaped st) ∧
        result null s = (if null then (if st = 0 then 1 else 0) else (st : Int)) ∧
        p ∈ s.endedMasked) ∧
    (s.pc = .returned → s.endedMasked ≠ [] → s.handlerAfter = true) := by
  have hi := inv_of_reach hm h
  refine ⟨fun p k hpc hp => waitFor_ne_echild hi hpc hp k, hi.no_echild,
    fun p hp => (hi.shell p hp).2.1, hi.waited, hi.left, ?_, ?_⟩
  · intro hpc p hp
    obtain ⟨_, _, h3⟩ := hi.shell p hp
    rw [if_neg (by simp [hpc])] at h3
    obtain ⟨st, hr, hst, he⟩ := h3
    refine ⟨st, hr, ?_, he⟩
    simp only [result, hst, Int.natCast_eq_zero]
  · intro hpc hne
    exact (hi.served hne).resolve_right fun hs => by simp [hpc, Pc.masked] at hs

/-- A caller with one other child, which ends first. -/
theorem system_keeps_status_two_children :
    ∃ s, (system ⟨⟨[.running], false⟩, ∅, 1, .dfl, .dfl, 0⟩).Reach s ∧ s.pc = .returned ∧
      result false s = 7 ∧ s.handlerAfter = true := by
  have hrun : ((system ⟨⟨[.running], false⟩, ∅, 1, .dfl, .dfl, 0⟩).exec
      (init ⟨⟨[.running], false⟩, ∅, 1, .dfl, .dfl, 0⟩)
      [.call .ok, .call .ok, .call .ok, .call .ok, .proc (.terminate 0 5), .call .eintr,
        .proc (.terminate 1 7), .call .ok, .call .ok, .proc .deliver, .proc (.waitpid 0),
        .proc .decrement, .proc (.waitpid 0), .proc .ret, .call .ok, .call .ok, .call .ok]).map
      (fun s => (s.pc, s.childPid, s.proc.kids.table[1]?)) =
        some (.returned, some 1, some (.reaped 7)) := by decide
  obtain ⟨s, hs, hend⟩ := Option.map_eq_some_iff.mp hrun
  simp only [Prod.mk.injEq] at hend
  obtain ⟨hpc, hchild, htab⟩ := hend
  have hr := System.reach_of_exec hs
  obtain ⟨_, _, _, _, _, hres, hafter⟩ := system_keeps_status _ (by decide) false s hr
  obtain ⟨st, hst, hval, hmem⟩ := hres hpc 1 hchild
  rw [htab, Option.some.injEq, Child.reaped.injEq] at hst
  subst hst
  exact ⟨s, hr, hpc, hval, hafter hpc (List.ne_nil_of_mem hmem)⟩

end Tlpi.Shell
