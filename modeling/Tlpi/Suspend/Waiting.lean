import Tlpi.Suspend.Model

/-!
# Under which mask the program waits

What `main` should have saved in `origMask` is the mask that it starts with.  `Inv` says what
holds whatever the variable contains: SIGINT and SIGQUIT are blocked but in `sigsuspend` and
after the loop, so no handler runs elsewhere; each `sigsuspend` installs the mask in `origMask`,
and so does the call after the loop; and the loop ends with the first `sigsuspend` in which
SIGQUIT is handled.

* `inv_reach`: the invariant, for every run.
* `waits_under_mask_iff`: the program does what it is meant to do exactly if `origMask` happens
  to contain the initial mask.
-/

namespace Tlpi.Suspend

open Tlpi.Lib

/-- SIGQUIT has not been handled in any of these calls. -/
def Quiet (ws : List Wait) : Prop := ∀ w ∈ ws, SIGQUIT ∉ w.handled

/-- It has been handled in the latest. -/
def Caught (ws : List Wait) : Prop := ∃ w rest, ws = w :: rest ∧ SIGQUIT ∈ w.handled

/-- The waiting as it is meant, where `m` is the initial mask. -/
structure Faithful (m : SigSet) (s : State) : Prop where
  installed : ∀ w ∈ s.waits, w.installed = m
  first : Quiet s.waits.tail
  goes_on : s.pc = .critical → Quiet s.waits
  ends : s.pc.Past → Caught s.waits
  restored : s.pc.Restored → s.base = m

/-- No SIGINT or SIGQUIT that `m` lets through is left over when the mask is put back, and none
arrives later. -/
def OnTime (m : SigSet) (s : State) : Event → Prop
  | .run => s.pc = .restore → ∀ sig ∈ s.pending, sig ∈ blockMask → sig ∈ m
  | .arrive sig => s.pc = .finish → sig ∈ m
  | _ => True

/-- What holds at each place of `main`. -/
def PcInv (m g : SigSet) (s : State) : Prop :=
  match s.pc with
  | .block => s.mask = m ∧ s.frames = [] ∧ s.waits = [] ∧ s.gotSigquit = false ∧
      ∀ sig, s.disp sig ≠ .handler
  | .actInt | .actQuit =>
      s.mask = m ∪ blockMask ∧ s.frames = [] ∧ s.waits = [] ∧ s.gotSigquit = false
  | .loop => s.mask = m ∪ blockMask ∧ s.frames = [] ∧
      (s.gotSigquit = false ∧ Quiet s.waits ∨ s.gotSigquit = true ∧ Caught s.waits)
  | .critical => s.mask = m ∪ blockMask ∧ s.frames = [] ∧ s.gotSigquit = false ∧ Quiet s.waits
  | .suspended before => before = m ∪ blockMask ∧
      (∀ f ∈ s.frames.getLast?, f.restore = before) ∧ s.waits ≠ [] ∧
      (s.gotSigquit = false ∧ Quiet s.waits ∨ s.gotSigquit = true ∧ Caught s.waits)
  | .restore => s.mask = m ∪ blockMask ∧ s.frames = [] ∧ Caught s.waits
  | .finish => s.base = blockable g ∧ Caught s.waits
  | .exited => s.base = blockable g ∧ s.frames = [] ∧ Caught s.waits
  | .killed | .failed => s.frames = []

/-- The invariant, for any content `g` of `origMask`. -/
structure Inv (m g : SigSet) (s : State) : Prop where
  origMask : s.origMask = g
  installed : ∀ w ∈ s.waits, w.installed = blockable g
  first : Quiet s.waits.tail
  handlers : ∀ sig, s.disp sig = .handler → sig ∈ blockMask
  pc : PcInv m g s

section Steps

variable {m g : SigSet} {s s' : State} {sig : Nat}

theorem inv_init (a : Start) (g : SigSet) : Inv a.mask.set g (init a g) := by
  have hdisp : ∀ sig, (init a g).disp sig ≠ .handler := by
    intro sig
    simp only [init]
    split <;> exact nofun
  exact ⟨rfl, nofun, nofun, fun sig h => absurd h (hdisp sig), rfl, rfl, rfl, rfl, hdisp⟩

theorem inv_run (h : Inv m g s) (hframes : s.frames = []) (hstep : runMain s = some s') :
    Inv m g s' := by
  obtain ⟨horig, hinstalled, hfirst, hhandlers, hpcinv⟩ := h
  have hupdate : ∀ act ∈ blockMask, ∀ sig,
      Function.update s.disp act .handler sig = .handler → sig ∈ blockMask := by
    intro act hact sig hsig
    by_cases heq : sig = act
    · rw [heq]
      exact hact
    · rw [Function.update_of_ne heq] at hsig
      exact hhandlers sig hsig
  cases hpc : s.pc <;> simp only [runMain, hpc] at hstep <;> simp only [PcInv, hpc] at hpcinv
  case block =>
    cases hstep
    obtain ⟨hmask, -, hwaits, hgot, -⟩ := hpcinv
    refine ⟨horig, hinstalled, hfirst, hhandlers, ?_, hframes, hwaits, hgot⟩
    rw [hmask]
    rfl
  case actInt =>
    cases hstep
    exact ⟨horig, hinstalled, hfirst, hupdate SIGINT (by decide), hpcinv⟩
  case actQuit =>
    cases hstep
    obtain ⟨hmask, -, hwaits, hgot⟩ := hpcinv
    refine ⟨horig, hinstalled, hfirst, hupdate SIGQUIT (by decide), hmask, hframes,
      .inl ⟨hgot, ?_⟩⟩
    rw [hwaits]
    exact nofun
  case loop =>
    obtain ⟨hmask, -, ⟨hgot, hquiet⟩ | ⟨hgot, hcaught⟩⟩ := hpcinv
    · simp only [hgot, Bool.false_eq_true, if_false] at hstep
      cases hstep
      exact ⟨horig, hinstalled, hfirst, hhandlers, hmask, hframes, rfl, hquiet⟩
    · simp only [hgot, if_true] at hstep
      cases hstep
      exact ⟨horig, hinstalled, hfirst, hhandlers, hmask, hframes, hcaught⟩
  case critical =>
    cases hstep
    obtain ⟨hmask, -, hgot, hquiet⟩ := hpcinv
    refine ⟨horig, ?_, hquiet, hhandlers, hmask, ?_, List.cons_ne_nil _ _, .inl ⟨hgot, ?_⟩⟩
    · intro w hw
      rcases List.mem_cons.mp hw with rfl | hw
      · rw [horig]
      · exact hinstalled w hw
    · rw [hframes]
      exact nofun
    · intro w hw
      rcases List.mem_cons.mp hw with rfl | hw
      · exact nofun
      · exact hquiet w hw
  case restore =>
    cases hstep
    refine ⟨horig, hinstalled, hfirst, hhandlers, ?_, hpcinv.2.2⟩
    rw [State.base, hframes, horig]
    rfl
  case finish =>
    cases hstep
    exact ⟨horig, hinstalled, hfirst, hhandlers, hpcinv.1, hframes, hpcinv.2⟩
  all_goals cases hstep

theorem inv_fail (h : Inv m g s) (hframes : s.frames = []) (hstep : failMain s = some s') :
    Inv m g s' := by
  unfold failMain at hstep
  split at hstep
  all_goals cases hstep
  all_goals exact ⟨h.origMask, h.installed, h.first, h.handlers, hframes⟩

/-- A handler does not run but in `sigsuspend` and after the loop. -/
theorem suspended_or_finish (h : Inv m g s) (hdisp : s.disp sig = .handler) (hmask : sig ∉ s.mask)
    (hend : ¬ s.pc.Ended) : s.pc.Suspended ∨ s.pc = .finish := by
  have hsig := h.handlers sig hdisp
  have hblocked : s.mask ≠ m ∪ blockMask := by
    intro heq
    rw [heq] at hmask
    exact hmask (Finset.mem_union_right m hsig)
  have hpcinv := h.pc
  cases hpc : s.pc <;> simp only [PcInv, hpc] at hpcinv
  case block => exact absurd hdisp (hpcinv.2.2.2.2 sig)
  case suspended before => exact .inl ⟨before, rfl⟩
  case finish => exact .inr rfl
  case exited | killed | failed => exact absurd (by simp [hpc, Pc.Ended]) hend
  all_goals exact absurd hpcinv.1 hblocked

theorem inv_deliver (h : Inv m g s) (hmask : sig ∉ s.mask) (hend : ¬ s.pc.Ended) :
    Inv m g (deliver s sig) := by
  cases hdisp : s.disp sig with
  | ign =>
    simp only [deliver, hdisp]
    exact ⟨h.origMask, h.installed, h.first, h.handlers, h.pc⟩
  | dfl =>
    simp only [deliver, hdisp]
    exact ⟨h.origMask, h.installed, h.first, h.handlers, rfl⟩
  | handler =>
    have hpcinv := h.pc
    simp only [deliver, hdisp]
    refine ⟨h.origMask, h.installed, h.first, h.handlers, ?_⟩
    rcases suspended_or_finish h hdisp hmask hend with ⟨before, hpc⟩ | hpc <;>
      simp only [PcInv, hpc] at hpcinv ⊢
    · obtain ⟨hbefore, hlast, hwaits, hgot⟩ := hpcinv
      refine ⟨hbefore, ?_, hwaits, hgot⟩
      cases hframes : s.frames with
      | nil => simp
      | cons f fs =>
        rw [hframes] at hlast
        simpa only [List.getLast?_cons_cons] using hlast
    · refine ⟨?_, hpcinv.2⟩
      rw [← hpcinv.1]
      cases hframes : s.frames with
      | nil => simp [State.base, hframes]
      | cons f fs => simp [State.base, hframes, List.getLast?_cons]

/-- The handler of the latest `sigsuspend` returns: what is known of the calls afterwards. -/
theorem waits_handled (sig : Nat) {ws : List Wait} {got : Bool} (hne : ws ≠ [])
    (hfirst : Quiet ws.tail) (hgot : got = false ∧ Quiet ws ∨ got = true ∧ Caught ws) :
    let ws' := ws.modifyHead fun w => { w with handled := w.handled ++ [sig] }
    let got' := if sig = SIGQUIT then true else got
    ws' ≠ [] ∧ Quiet ws'.tail ∧ (got' = false ∧ Quiet ws' ∨ got' = true ∧ Caught ws') := by
  cases ws with
  | nil => exact absurd rfl hne
  | cons w rest =>
    refine ⟨List.cons_ne_nil _ _, hfirst, ?_⟩
    by_cases hsig : sig = SIGQUIT
    · rw [if_pos hsig]
      exact .inr ⟨rfl, _, rest, rfl, by simp [hsig]⟩
    · rw [if_neg hsig]
      refine hgot.imp (fun ⟨hgot, hquiet⟩ => ⟨hgot, fun w' hw' => ?_⟩) fun ⟨hgot, hcaught⟩ => ⟨hgot, ?_⟩
      · rcases List.mem_cons.mp hw' with rfl | hw'
        · have hw := hquiet w List.mem_cons_self
          simp only [List.mem_append, List.mem_singleton, not_or]
          exact ⟨hw, Ne.symm hsig⟩
        · exact hfirst w' hw'
      · obtain ⟨w₀, rest₀, heq, hw₀⟩ := hcaught
        cases heq
        exact ⟨_, rest, rfl, List.mem_append_left _ hw₀⟩

theorem installed_handled (sig : Nat) {ws : List Wait} (h : ∀ w ∈ ws, w.installed = g) :
    ∀ w ∈ ws.modifyHead fun w => { w with handled := w.handled ++ [sig] }, w.installed = g := by
  cases ws with
  | nil => exact h
  | cons w₀ rest =>
    intro w hw
    rcases List.mem_cons.mp hw with rfl | hw
    · exact h w₀ List.mem_cons_self
    · exact h w (List.mem_cons_of_mem w₀ hw)

theorem inv_ret {f : Frame} {fs : List Frame} (h : Inv m g s) (hframes : s.frames = f :: fs) :
    Inv m g (handlerReturn s f fs) := by
  obtain ⟨horig, hinstalled, hfirst, hhandlers, hpcinv⟩ := h
  cases hpc : s.pc <;> simp only [PcInv, hpc, hframes] at hpcinv
  case suspended before =>
    obtain ⟨hbefore, hlast, hwaits, hgot⟩ := hpcinv
    obtain ⟨hwaits', hfirst', hgot'⟩ := waits_handled f.sig hwaits hfirst hgot
    simp only [handlerReturn, hpc]
    refine ⟨horig, installed_handled f.sig hinstalled, hfirst', hhandlers, ?_⟩
    cases fs with
    | nil =>
      simp only [PcInv, if_true]
      exact ⟨(hlast f rfl).trans hbefore, trivial, hgot'⟩
    | cons f' fs =>
      simp only [PcInv, if_neg (List.cons_ne_nil f' fs)]
      rw [List.getLast?_cons_cons] at hlast
      exact ⟨hbefore, hlast, hwaits', hgot'⟩
  case finish =>
    simp only [handlerReturn, hpc]
    refine ⟨horig, hinstalled, hfirst, hhandlers, ?_⟩
    simp only [PcInv]
    refine ⟨?_, hpcinv.2⟩
    rw [← hpcinv.1]
    simp only [State.base, hframes, List.getLast?_cons]
    cases fs.getLast? <;> rfl
  all_goals simp at hpcinv

theorem inv_step {e : Event} (h : Inv m g s) (hstep : step s e = some s') : Inv m g s' := by
  cases e with
  | run =>
    rw [step] at hstep
    split_ifs at hstep with hframes
    exact inv_run h hframes hstep
  | fail =>
    rw [step] at hstep
    split_ifs at hstep with hframes
    exact inv_fail h hframes hstep
  | arrive sig =>
    rw [step] at hstep
    split_ifs at hstep with harrive hign
    · cases hstep
      exact h
    · cases hstep
      exact ⟨h.origMask, h.installed, h.first, h.handlers, h.pc⟩
  | deliver sig =>
    rw [step] at hstep
    split_ifs at hstep with hdeliver
    cases hstep
    exact inv_deliver h hdeliver.2.1 hdeliver.2.2
  | ret =>
    rw [step] at hstep
    split at hstep
    · cases hstep
    · next f fs hframes =>
      cases hstep
      exact inv_ret h hframes

/-- What the invariant says of the waiting, for any content of `origMask`. -/
theorem Inv.faithful (h : Inv m g s) (hg : blockable g = m) : Faithful m s := by
  have hpcinv := h.pc
  refine ⟨fun w hw => (h.installed w hw).trans hg, h.first, ?_, ?_, ?_⟩
  · intro hpc
    simp only [PcInv, hpc] at hpcinv
    exact hpcinv.2.2.2
  · rintro (hpc | hpc | hpc) <;> simp only [PcInv, hpc] at hpcinv
    · exact hpcinv.2.2
    · exact hpcinv.2
    · exact hpcinv.2.2
  · rintro (hpc | hpc) <;> simp only [PcInv, hpc] at hpcinv <;> exact hpcinv.1.trans hg

/-- Handlers run in `sigsuspend` and after the loop. -/
theorem Inv.inside (h : Inv m g s) (hframes : s.frames ≠ []) : s.pc.Suspended ∨ s.pc = .finish := by
  have hpcinv := h.pc
  cases hpc : s.pc <;> simp only [PcInv, hpc] at hpcinv
  case suspended before => exact .inl ⟨before, rfl⟩
  case finish => exact .inr rfl
  case block | actInt | actQuit | loop | critical | restore | exited =>
    exact absurd hpcinv.2.1 hframes
  case killed | failed => exact absurd hpcinv hframes

end Steps

section Runs

variable {a : Start} {g : SigSet} {s : State}

theorem inv_reach (h : (system a g).Reach s) : Inv a.mask.set g s :=
  System.Reach.invariant (I := Inv a.mask.set g) (inv_init a g) (fun _ _ _ hi hst => inv_step hi hst) h

/-- After the loop nothing is pending that could be handled. -/
def Clear (m : SigSet) (s : State) : Prop :=
  s.pc = .finish → s.frames = [] ∧ ∀ sig ∈ s.pending, sig ∈ blockMask → sig ∈ m

theorem clear_step {m : SigSet} {s' : State} {e : Event} (hg : blockable g = m) (hinv : Inv m g s)
    (h : Clear m s) (hok : OnTime m s e) (hstep : step s e = some s') : Clear m s' := by
  cases e with
  | run =>
    rw [step] at hstep
    split_ifs at hstep with hframes
    cases hpc : s.pc <;> simp only [runMain, hpc] at hstep
    case restore =>
      cases hstep
      exact fun _ => ⟨hframes, hok hpc⟩
    case loop =>
      cases hstep
      intro hfinish
      cases hgot : s.gotSigquit <;> simp [hgot] at hfinish
    all_goals cases hstep
    all_goals exact nofun
  | fail =>
    rw [step] at hstep
    split_ifs at hstep
    unfold failMain at hstep
    split at hstep
    all_goals cases hstep
    all_goals exact nofun
  | arrive sig =>
    rw [step] at hstep
    split_ifs at hstep with harrive hign
    · cases hstep
      exact h
    · cases hstep
      intro hfinish
      refine ⟨(h hfinish).1, fun sig' hsig' hblock => ?_⟩
      rcases Finset.mem_insert.mp hsig' with rfl | hsig'
      · exact hok hfinish
      · exact (h hfinish).2 sig' hsig' hblock
  | deliver sig =>
    rw [step] at hstep
    split_ifs at hstep with hdeliver
    cases hstep
    cases hdisp : s.disp sig with
    | ign =>
      simp only [deliver, hdisp]
      exact fun hfinish =>
        ⟨(h hfinish).1, fun sig' hsig' => (h hfinish).2 sig' (Finset.mem_of_mem_erase hsig')⟩
    | dfl =>
      simp only [deliver, hdisp]
      exact nofun
    | handler =>
      simp only [deliver, hdisp]
      intro hfinish
      have hfinish' : s.pc = .finish := hfinish
      obtain ⟨hframes, hpending⟩ := h hfinish'
      have hpcinv := hinv.pc
      simp only [PcInv, hfinish', State.base, hframes] at hpcinv
      have hmask : s.mask = m := hpcinv.1.trans hg
      rw [hmask] at hdeliver
      exact absurd (hpending sig hdeliver.1 (hinv.handlers sig hdisp)) hdeliver.2.1
  | ret =>
    rw [step] at hstep
    split at hstep
    · cases hstep
    · next f fs hframes =>
      cases hstep
      intro hfinish
      cases hpc : s.pc <;> simp only [handlerReturn, hpc] at hfinish
      case suspended before => split_ifs at hfinish
      case finish =>
        rw [(h hpc).1] at hframes
        cases hframes
      all_goals cases hfinish

theorem clear_reach (hg : blockable g = a.mask.set) (h : (system a g).ReachBy (OnTime a.mask.set) s) :
    Inv a.mask.set g s ∧ Clear a.mask.set s := by
  refine System.ReachBy.invariant (I := fun s => Inv a.mask.set g s ∧ Clear a.mask.set s)
    ⟨inv_init a g, fun hpc => by cases hpc⟩ (fun s e s' hi hok hstep => ?_) h
  exact ⟨inv_step hi.1 hstep, clear_step hg hi.1 hi.2 hok hstep⟩

theorem onTime_run {m : SigSet} (pc : Pc) (hpc : s.pc = pc) (hne : pc ≠ .restore) :
    OnTime m s .run :=
  fun hrestore => absurd (hpc.symm.trans hrestore) hne

/-- The first turn of the loop. -/
theorem reach_suspended (a : Start) (g : SigSet) :
    ∃ s, (system a g).ReachBy (OnTime a.mask.set) s ∧ s.waits = [⟨blockable g, []⟩] := by
  have h0 : (system a g).ReachBy (OnTime a.mask.set) (init a g) := .init
  have h1 := h0.step .run (onTime_run .block rfl (by decide)) rfl
  have h2 := h1.step .run (onTime_run .actInt rfl (by decide)) rfl
  have h3 := h2.step .run (onTime_run .actQuit rfl (by decide)) rfl
  have h4 := h3.step .run (onTime_run .loop rfl (by decide)) rfl
  exact ⟨_, h4.step .run (onTime_run .critical rfl (by decide)) rfl, rfl⟩

end Runs

/-- **The mask that nobody has saved.**  While the loop runs and SIGINT or SIGQUIT come in any
order and at any time, `main` waits under its initial mask, handles signals in `sigsuspend`
alone, leaves the loop with the first one in which SIGQUIT is handled, and then has its initial
mask back, exactly if the kernel takes what is in `origMask` for that mask.  A handler may run
after that for a signal that comes too late. -/
theorem waits_under_mask_iff (a : Start) (g : SigSet) :
    ((∀ s, (system a g).ReachBy (OnTime a.mask.set) s →
        Faithful a.mask.set s ∧ (s.frames ≠ [] → s.pc.Suspended)) ↔
      blockable g = a.mask.set) ∧
    (blockable g = a.mask.set → ∀ s, (system a g).Reach s →
      Faithful a.mask.set s ∧ (s.frames ≠ [] → s.pc.Suspended ∨ s.pc = .finish)) := by
  refine ⟨⟨fun h => ?_, fun hg s hs => ?_⟩, fun hg s hs => ?_⟩
  · obtain ⟨s, hs, hwaits⟩ := reach_suspended a g
    refine (h s hs).1.installed ⟨blockable g, []⟩ ?_
    rw [hwaits]
    exact List.mem_singleton.mpr rfl
  · obtain ⟨hinv, hclear⟩ := clear_reach hg hs
    refine ⟨hinv.faithful hg, fun hframes => (hinv.inside hframes).resolve_right fun hpc => ?_⟩
    exact hframes (hclear hpc).1
  · exact ⟨(inv_reach hs).faithful hg, (inv_reach hs).inside⟩

/-- A process that starts with nothing blocked, and with SIGINT in the variable. -/
theorem waits_under_garbage :
    ∃ s, (system ⟨⟨∅, by decide⟩, ∅, ∅⟩ {SIGINT}).Reach s ∧ s.waits = [⟨{SIGINT}, []⟩] ∧
      ¬ Faithful ∅ s := by
  have h0 : (system ⟨⟨∅, by decide⟩, ∅, ∅⟩ {SIGINT}).Reach (init ⟨⟨∅, by decide⟩, ∅, ∅⟩ {SIGINT}) :=
    .init
  have h1 := h0.step .run trivial rfl
  have h2 := h1.step .run trivial rfl
  have h3 := h2.step .run trivial rfl
  have h4 := h3.step .run trivial rfl
  refine ⟨_, h4.step .run trivial rfl, by decide, fun h => ?_⟩
  exact absurd (h.installed _ List.mem_cons_self) (by decide)

end Tlpi.Suspend
