import Tlpi.IncrMutex.Model

/-!
# What the two threads count

`Thread.count` is the number of increments of a thread that have reached `glob`.  The threads
exclude each other from the time they have the mutex (`Pc.Holds`), so what is in `loc` is what
is in `glob`, and `glob` is the sum of the two counts, as an `int` (`Inv`).

* `inv_step`: every step keeps this.
* `exists_joined`: some run comes to the end.
* `counts_exactly_iff`: the sum is the one that the argument asks for exactly if that is an
  `int`.
-/

namespace Tlpi.IncrMutex

open Tlpi.Lib Tlpi.GetNum

/-- From the lock to the unlock. -/
def Pc.Holds (pc : Pc) : Prop := pc = .read ∨ pc = .incr ∨ pc = .write ∨ pc = .unlock

/-- The increments of a thread that are in `glob`. -/
def Thread.count (th : Thread) : Int := th.j + if th.pc = .unlock ∨ th.pc = .next then 1 else 0

/-- What holds of a thread, where `glob` is `g`. -/
def ThreadInv (loops : Int) (g : BitVec 32) (th : Thread) : Prop :=
  match th.pc with
  | .idle => th.j = 0
  | .test => 0 ≤ th.j ∧ th.j ≤ loops
  | .lock | .read | .unlock | .next => 0 ≤ th.j ∧ th.j < loops
  | .incr => 0 ≤ th.j ∧ th.j < loops ∧ th.loc = g
  | .write => 0 ≤ th.j ∧ th.j < loops ∧ th.loc = g + 1
  | .done => th.j = loops

/-- What `main` has waited for. -/
structure MainInv (main : MainPc) (thread : Tid → Thread) : Prop where
  create1 : main = .create1 → ∀ t, (thread t).pc = .idle
  create2 : main = .create2 → (thread .t2).pc = .idle
  join2 : main = .join2 ∨ main.Joined → (thread .t1).pc = .done
  joined : main.Joined → (thread .t2).pc = .done

/-- The sum of both counts. -/
def State.total (s : State) : Int := (s.thread .t1).count + (s.thread .t2).count

/-- The invariant. -/
structure Inv (loops : Int) (s : State) : Prop where
  thread : ∀ t, ThreadInv loops s.glob (s.thread t)
  owner : ∀ t, s.owner = some t ↔ (s.thread t).pc.Holds
  glob : s.glob = BitVec.ofInt 32 s.total
  overflow : 2 * loops ≤ INT_MAX → s.overflow = false
  main : MainInv s.main s.thread

/-- The count as it is meant. -/
structure Exact (loops : Int) (s : State) : Prop where
  sum : s.main.Joined → s.glob.toInt = 2 * loops
  no_overflow : s.overflow = false

theorem Tid.other_ne (t : Tid) : t.other ≠ t := by cases t <;> decide

theorem total_eq (s : State) (t : Tid) : s.total = (s.thread t).count + (s.thread t.other).count := by
  cases t
  · rfl
  · exact Int.add_comm _ _

section Steps

variable {loops : Int} {s s' : State} {t : Tid} {th : Thread} {g : BitVec 32}

theorem inv_init (loops : Int) : Inv loops init := by
  refine ⟨fun _ => rfl, fun t => ?_, rfl, fun _ => rfl, ⟨fun _ _ => rfl, nofun, ?_, ?_⟩⟩
  · simp [init, Pc.Holds]
  · simp [init, MainPc.Joined]
  · simp [init, MainPc.Joined]

/-- A count lies between 0 and `loops`. -/
theorem ThreadInv.count (h : ThreadInv loops g th) (hpos : 0 < loops) :
    0 ≤ th.count ∧ th.count ≤ loops := by
  cases hpc : th.pc <;> simp only [ThreadInv, hpc] at h <;> simp [Thread.count, hpc] <;> omega

/-- A thread that does not hold the mutex does not care what is in `glob`. -/
theorem ThreadInv.glob {g' : BitVec 32} (h : ThreadInv loops g th) (hpc : ¬ th.pc.Holds) :
    ThreadInv loops g' th := by
  cases hth : th.pc <;> simp only [ThreadInv, hth] at h ⊢
  case incr => exact absurd (.inr (.inl hth)) hpc
  case write => exact absurd (.inr (.inr (.inl hth))) hpc
  all_goals exact h

/-- A thread that takes a step has been created and has not ended. -/
theorem mainInv_update {main : MainPc} {thread : Tid → Thread} (h : MainInv main thread)
    (hidle : (thread t).pc ≠ .idle) (hdone : (thread t).pc ≠ .done) :
    MainInv main (Function.update thread t th) := by
  have hkeep : ∀ u pc, (thread u).pc = pc → pc = .idle ∨ pc = .done →
      (Function.update thread t th u).pc = pc := by
    intro u pc hpc hout
    have hne : u ≠ t := by
      rintro rfl
      rcases hout with rfl | rfl
      · exact hidle hpc
      · exact hdone hpc
    rw [Function.update_of_ne hne]
    exact hpc
  refine ⟨fun hm => absurd (h.create1 hm t) hidle, fun hm => ?_, fun hm => ?_, fun hm => ?_⟩
  · exact hkeep .t2 .idle (h.create2 hm) (.inl rfl)
  · exact hkeep .t1 .done (h.join2 hm) (.inr rfl)
  · exact hkeep .t2 .done (h.joined hm) (.inr rfl)

/-- Who holds the mutex when thread `t` is `th`. -/
theorem owner_update {owner : Option Tid} {thread : Tid → Thread}
    (hself : owner = some t ↔ th.pc.Holds)
    (hothers : ∀ u ≠ t, (owner = some u ↔ (thread u).pc.Holds)) (u : Tid) :
    owner = some u ↔ (Function.update thread t th u).pc.Holds :=
  (Function.forall_update_iff thread fun u th => (owner = some u ↔ th.pc.Holds)).mpr
    ⟨hself, hothers⟩ u

/-- **A step of thread `t`.**  What is at stake is its own part, the mutex, and the sum. -/
theorem inv_of_thread (h : Inv loops s) (hidle : (s.thread t).pc ≠ .idle)
    (hdone : (s.thread t).pc ≠ .done) (hmain : s'.main = s.main)
    (hthread : s'.thread = Function.update s.thread t th)
    (hth : ThreadInv loops s'.glob th)
    (hfree : s'.glob = s.glob ∨ (s.thread t).pc.Holds)
    (howner : ∀ u, s'.owner = some u ↔ (s'.thread u).pc.Holds)
    (hglob : s'.glob = BitVec.ofInt 32 (th.count + (s.thread t.other).count))
    (hover : 2 * loops ≤ INT_MAX → s'.overflow = false) : Inv loops s' := by
  refine ⟨fun u => ?_, howner, ?_, hover, ?_⟩
  · rw [hthread]
    by_cases hu : u = t
    · rw [hu, Function.update_self]
      exact hth
    · rw [Function.update_of_ne hu]
      rcases hfree with hsame | hholds
      · rw [hsame]
        exact h.thread u
      · refine (h.thread u).glob fun hother => hu ?_
        have h1 := (h.owner u).mpr hother
        have h2 := (h.owner t).mpr hholds
        rw [h1] at h2
        exact Option.some.inj h2
  · rw [hglob, total_eq s' t, hthread, Function.update_self, Function.update_of_ne t.other_ne]
  · rw [hmain, hthread]
    exact mainInv_update h.main hidle hdone

/-- A step that touches nothing but the thread's own variables. -/
theorem inv_of_local (h : Inv loops s) (hidle : (s.thread t).pc ≠ .idle)
    (hdone : (s.thread t).pc ≠ .done) (hth : ThreadInv loops s.glob th)
    (hholds : th.pc.Holds ↔ (s.thread t).pc.Holds) (hcount : th.count = (s.thread t).count) :
    Inv loops (s.set t th) := by
  refine inv_of_thread h hidle hdone rfl rfl hth (.inl rfl) ?_ ?_ h.overflow
  · exact owner_update ((h.owner t).trans hholds.symm) fun u _ => h.owner u
  · rw [hcount, ← total_eq]
    exact h.glob

/-- An increment overflows only where the sum is more than an `int`. -/
theorem not_overflow (h : Inv loops s) (hpos : 0 < loops) (hfits : 2 * loops ≤ INT_MAX)
    (hpc : (s.thread t).pc = .incr) : (s.thread t).loc.toInt ≠ INT_MAX := by
  have ht := h.thread t
  simp only [ThreadInv, hpc] at ht
  have hcount : (s.thread t).count = (s.thread t).j := by simp [Thread.count, hpc]
  have hother := (h.thread t.other).count hpos
  have htotal := total_eq s t
  rw [ht.2.2, h.glob, toInt_ofInt]
  · omega
  · rw [INT_MIN]
    omega
  · omega

theorem inv_lock (h : Inv loops s) (hpc : (s.thread t).pc = .lock) (hfree : s.owner = none) :
    Inv loops { s.set t { s.thread t with pc := .read } with owner := some t } := by
  have ht := h.thread t
  simp only [ThreadInv, hpc] at ht
  refine inv_of_thread h (by simp [hpc]) (by simp [hpc]) rfl rfl ht (.inl rfl) ?_ ?_ h.overflow
  · refine owner_update (iff_of_true rfl (.inl rfl)) fun u hu => ?_
    rw [← h.owner u, hfree]
    exact iff_of_false (fun heq => hu (Option.some.inj heq).symm) nofun
  · have hcount : ({ s.thread t with pc := .read } : Thread).count = (s.thread t).count := by
      simp [Thread.count, hpc]
    rw [hcount, ← total_eq]
    exact h.glob

theorem inv_write (h : Inv loops s) (hpc : (s.thread t).pc = .write) :
    Inv loops { s.set t { s.thread t with pc := .unlock } with glob := (s.thread t).loc } := by
  have ht := h.thread t
  simp only [ThreadInv, hpc] at ht
  have hholds : (s.thread t).pc.Holds := .inr (.inr (.inl hpc))
  refine inv_of_thread h (by simp [hpc]) (by simp [hpc]) rfl rfl ⟨ht.1, ht.2.1⟩
    (.inr hholds) ?_ ?_ h.overflow
  · refine owner_update ((h.owner t).trans ?_) fun u _ => h.owner u
    exact iff_of_true hholds (.inr (.inr (.inr rfl)))
  · have hcount : ({ s.thread t with pc := .unlock } : Thread).count = (s.thread t).count + 1 := by
      simp [Thread.count, hpc]
    have hsum : (s.thread t).count + 1 + (s.thread t.other).count = s.total + 1 := by
      rw [total_eq s t]
      omega
    show (s.thread t).loc = _
    rw [ht.2.2, h.glob, hcount, hsum, BitVec.ofInt_add]
    rfl

theorem inv_unlock (h : Inv loops s) (hpc : (s.thread t).pc = .unlock) :
    Inv loops { s.set t { s.thread t with pc := .next } with owner := none } := by
  have ht := h.thread t
  simp only [ThreadInv, hpc] at ht
  have howner := (h.owner t).mpr (.inr (.inr (.inr hpc)))
  refine inv_of_thread h (by simp [hpc]) (by simp [hpc]) rfl rfl ht (.inl rfl) ?_ ?_ h.overflow
  · refine owner_update (iff_of_false nofun (by simp [Pc.Holds])) fun u hu => ?_
    rw [← h.owner u, howner]
    exact iff_of_false nofun fun heq => hu (Option.some.inj heq).symm
  · have hcount : ({ s.thread t with pc := .next } : Thread).count = (s.thread t).count := by
      simp [Thread.count, hpc]
    rw [hcount, ← total_eq]
    exact h.glob

theorem inv_incr (h : Inv loops s) (hpos : 0 < loops) (hpc : (s.thread t).pc = .incr) :
    Inv loops { s.set t { s.thread t with pc := .write, loc := (s.thread t).loc + 1 } with
      overflow := s.overflow || decide ((s.thread t).loc.toInt = INT_MAX) } := by
  have ht := h.thread t
  simp only [ThreadInv, hpc] at ht
  have hlocal :
      Inv loops (s.set t { s.thread t with pc := .write, loc := (s.thread t).loc + 1 }) := by
    refine inv_of_local h (by simp [hpc]) (by simp [hpc])
      ⟨ht.1, ht.2.1, by rw [ht.2.2]⟩ ?_ ?_
    · simp [Pc.Holds, hpc]
    · simp [Thread.count, hpc]
  refine ⟨hlocal.thread, hlocal.owner, hlocal.glob, fun hfits => ?_, hlocal.main⟩
  show (s.overflow || decide _) = false
  rw [h.overflow hfits, decide_eq_false (not_overflow h hpos hfits hpc)]
  rfl

theorem inv_stepThread (h : Inv loops s) (hpos : 0 < loops)
    (hstep : stepThread loops s t = some s') : Inv loops s' := by
  have ht := h.thread t
  cases hpc : (s.thread t).pc <;> simp only [stepThread, hpc] at hstep <;>
    simp only [ThreadInv, hpc] at ht
  case test =>
    cases hstep
    by_cases hj : (s.thread t).j < loops
    · rw [if_pos hj]
      refine inv_of_local h (by simp [hpc]) (by simp [hpc]) ⟨ht.1, hj⟩ ?_ ?_
      · simp [Pc.Holds, hpc]
      · simp [Thread.count, hpc]
    · rw [if_neg hj]
      refine inv_of_local h (by simp [hpc]) (by simp [hpc]) ?_ ?_ ?_
      · show (s.thread t).j = loops
        omega
      · simp [Pc.Holds, hpc]
      · simp [Thread.count, hpc]
  case lock =>
    split_ifs at hstep with hfree
    cases hstep
    exact inv_lock h hpc hfree
  case read =>
    cases hstep
    refine inv_of_local h (by simp [hpc]) (by simp [hpc]) ⟨ht.1, ht.2, rfl⟩ ?_ ?_
    · simp [Pc.Holds, hpc]
    · simp [Thread.count, hpc]
  case incr =>
    cases hstep
    exact inv_incr h hpos hpc
  case write =>
    cases hstep
    exact inv_write h hpc
  case unlock =>
    cases hstep
    exact inv_unlock h hpc
  case next =>
    cases hstep
    refine inv_of_local h (by simp [hpc]) (by simp [hpc]) ?_ ?_ ?_
    · show 0 ≤ (s.thread t).j + 1 ∧ (s.thread t).j + 1 ≤ loops
      omega
    · simp [Pc.Holds, hpc]
    · simp [Thread.count, hpc]
  case idle | done => cases hstep

/-- A thread is created. -/
theorem inv_create (h : Inv loops s) (hpos : 0 < loops) (hidle : (s.thread t).pc = .idle)
    {main : MainPc} (hmain : MainInv main (Function.update s.thread t ⟨.test, 0, 0⟩)) :
    Inv loops { s.set t ⟨.test, 0, 0⟩ with main := main } := by
  have ht := h.thread t
  simp only [ThreadInv, hidle] at ht
  have hcount : (s.thread t).count = 0 := by simp [Thread.count, hidle, ht]
  refine ⟨?_, ?_, ?_, h.overflow, hmain⟩
  · refine (Function.forall_update_iff s.thread fun _ th => ThreadInv loops s.glob th).mpr
      ⟨⟨Int.le_refl 0, Int.le_of_lt hpos⟩, fun u _ => h.thread u⟩
  · refine owner_update ((h.owner t).trans ?_) fun u _ => h.owner u
    simp [Pc.Holds, hidle]
  · show s.glob = _
    rw [h.glob, total_eq s t, hcount, total_eq _ t]
    simp [State.set, Function.update_of_ne t.other_ne, Thread.count]

theorem inv_stepMain (h : Inv loops s) (hpos : 0 < loops) (hstep : stepMain s = some s') :
    Inv loops s' := by
  cases hm : s.main <;> simp only [stepMain, hm] at hstep
  case create1 =>
    cases hstep
    refine inv_create h hpos (h.main.create1 hm .t1) ⟨?_, fun _ => ?_, ?_, ?_⟩
    · simp
    · rw [Function.update_of_ne (by decide)]
      exact h.main.create1 hm .t2
    · simp [MainPc.Joined]
    · simp [MainPc.Joined]
  case create2 =>
    cases hstep
    refine inv_create h hpos (h.main.create2 hm) ⟨?_, ?_, ?_, ?_⟩ <;> simp [MainPc.Joined]
  case join1 =>
    split_ifs at hstep with hdone
    cases hstep
    refine ⟨h.thread, h.owner, h.glob, h.overflow, ?_, ?_, fun _ => hdone, ?_⟩ <;>
      simp [MainPc.Joined]
  case join2 =>
    split_ifs at hstep with hdone
    cases hstep
    have hfirst := h.main.join2 (.inl hm)
    refine ⟨h.thread, h.owner, h.glob, h.overflow, ?_, ?_, fun _ => hfirst, fun _ => hdone⟩ <;> simp
  case print =>
    cases hstep
    have hfirst := h.main.join2 (.inr (.inl hm))
    have hdone := h.main.joined (.inl hm)
    refine ⟨h.thread, h.owner, h.glob, h.overflow, ?_, ?_, fun _ => hfirst, fun _ => hdone⟩ <;> simp
  case exited | failed => cases hstep

theorem inv_step {e : Event} (h : Inv loops s) (hpos : 0 < loops) (hstep : step loops s e = some s') :
    Inv loops s' := by
  cases e with
  | main => exact inv_stepMain h hpos hstep
  | fail =>
    rw [step] at hstep
    split_ifs at hstep
    cases hstep
    refine ⟨h.thread, h.owner, h.glob, h.overflow, ?_, ?_, ?_, ?_⟩ <;> simp [MainPc.Joined]
  | thread t =>
    rw [step] at hstep
    split_ifs at hstep
    exact inv_stepThread h hpos hstep

/-- Where both have ended, the sum is what the argument asks for. -/
theorem Inv.exact (h : Inv loops s) (hpos : 0 < loops) (hfits : 2 * loops ≤ INT_MAX) :
    Exact loops s := by
  refine ⟨fun hjoined => ?_, h.overflow hfits⟩
  have hdone : ∀ t, (s.thread t).count = loops := by
    have hpc : ∀ t, (s.thread t).pc = .done := by
      intro t
      cases t
      · exact h.main.join2 (.inr hjoined)
      · exact h.main.joined hjoined
    intro t
    have ht := h.thread t
    simp only [ThreadInv, hpc t] at ht
    simp [Thread.count, hpc t, ht]
  have htotal : s.total = 2 * loops := by
    rw [State.total, hdone, hdone]
    omega
  rw [h.glob, htotal, toInt_ofInt]
  · rw [INT_MIN]
    omega
  · exact hfits

end Steps

/-! ### A run to the end -/

section Runs

variable {loops : Int} {s : State} {t : Tid}

/-- One turn of the loop of a thread that nobody gets in the way of. -/
theorem reach_turn (h : (system loops).Reach s) (hmain : s.main.Running) (howner : s.owner = none)
    (hpc : (s.thread t).pc = .test) (hj : (s.thread t).j < loops) :
    ∃ s', (system loops).Reach s' ∧ s'.main = s.main ∧ s'.thread t.other = s.thread t.other ∧
      s'.owner = none ∧ (s'.thread t).pc = .test ∧ (s'.thread t).j = (s.thread t).j + 1 := by
  have hgo : ∀ {u u' : State}, (system loops).Reach u → u.main = s.main →
      stepThread loops u t = some u' → (system loops).Reach u' := by
    intro u u' hu hm hstep
    refine hu.step (.thread t) trivial ?_
    show (if u.main.Running then _ else none) = some u'
    rw [if_pos (hm ▸ hmain)]
    exact hstep
  have h1 := hgo h rfl (by simp only [stepThread, hpc]; rfl)
  have h2 := hgo h1 rfl (by
    simp only [stepThread, State.set, Function.update_self, if_pos hj, if_pos howner]
    rfl)
  have h3 := hgo h2 rfl (by simp only [stepThread, State.set, Function.update_self]; rfl)
  have h4 := hgo h3 rfl (by simp only [stepThread, State.set, Function.update_self]; rfl)
  have h5 := hgo h4 rfl (by simp only [stepThread, State.set, Function.update_self]; rfl)
  have h6 := hgo h5 rfl (by simp only [stepThread, State.set, Function.update_self]; rfl)
  have h7 := hgo h6 rfl (by simp only [stepThread, State.set, Function.update_self]; rfl)
  refine ⟨_, h7, rfl, ?_, rfl, ?_, ?_⟩
  · simp [Function.update_of_ne t.other_ne]
  · simp
  · simp

/-- All the turns that are left. -/
theorem reach_done (h : (system loops).Reach s) (hmain : s.main.Running) (howner : s.owner = none)
    (hpc : (s.thread t).pc = .test) :
    ∃ s', (system loops).Reach s' ∧ s'.main = s.main ∧ s'.thread t.other = s.thread t.other ∧
      s'.owner = none ∧ (s'.thread t).pc = .done := by
  generalize hn : (loops - (s.thread t).j).toNat = n
  induction n generalizing s with
  | zero =>
    have hj : ¬ (s.thread t).j < loops := by omega
    have hstep : step loops s (.thread t) = some (s.set t { s.thread t with pc := .done }) := by
      simp only [step, if_pos hmain, stepThread, hpc, if_neg hj]
    refine ⟨_, h.step (.thread t) trivial hstep, rfl, ?_, howner, ?_⟩
    · simp [State.set, Function.update_of_ne t.other_ne]
    · simp [State.set]
  | succ n ih =>
    obtain ⟨s', hs', hmain', hother', howner', hpc', hj'⟩ := reach_turn h hmain howner hpc (by omega)
    obtain ⟨s'', hs'', hmain'', hother'', howner'', hpc''⟩ :=
      ih hs' (hmain' ▸ hmain) howner' hpc' (by omega)
    exact ⟨s'', hs'', hmain''.trans hmain', hother''.trans hother', howner'', hpc''⟩

/-- **A run to the end**: one thread after the other. -/
theorem exists_joined (loops : Int) : ∃ s, (system loops).Reach s ∧ s.main = .print := by
  have h0 : (system loops).Reach init := .init
  have h2 := (h0.step .main trivial rfl).step .main trivial rfl
  obtain ⟨s₁, hs₁, hmain₁, hother₁, howner₁, hdone₁⟩ :=
    reach_done (t := .t1) h2 (by decide) rfl rfl
  have htest : s₁.thread .t2 = ⟨.test, 0, 0⟩ := hother₁
  obtain ⟨s₂, hs₂, hmain₂, hother₂, howner₂, hdone₂⟩ :=
    reach_done (t := .t2) hs₁ (by rw [hmain₁]; decide) howner₁ (by rw [htest])
  have hmain : s₂.main = .join1 := hmain₂.trans hmain₁
  have hdone : (s₂.thread .t1).pc = .done := by
    have hsame : s₂.thread .t1 = s₁.thread .t1 := hother₂
    rw [hsame, hdone₁]
  have h3 : (system loops).Reach { s₂ with main := .join2 } := by
    refine hs₂.step .main trivial ?_
    show stepMain s₂ = _
    simp only [stepMain, hmain, if_pos hdone]
  refine ⟨{ s₂ with main := .print }, h3.step .main trivial ?_, rfl⟩
  show stepMain { s₂ with main := .join2 } = _
  simp only [stepMain, if_pos hdone₂]

/-- A count that is no `int` is not the one that is printed. -/
theorem not_exact (h : INT_MAX < 2 * loops) :
    ∃ s, (system loops).Reach s ∧ s.main.Joined ∧ s.glob.toInt ≠ 2 * loops := by
  obtain ⟨s, hs, hmain⟩ := exists_joined loops
  refine ⟨s, hs, .inl hmain, fun hsum => ?_⟩
  have hlt := @BitVec.toInt_lt 32 s.glob
  rw [hsum] at hlt
  rw [INT_MAX] at h
  omega

theorem loops_pos {arg : Option Bytes} (h : loopsOf arg = .ok loops) : 0 < loops := by
  cases arg with
  | none =>
    cases h
    decide
  | some arg =>
    obtain ⟨⟨s, -, hacc⟩, -⟩ := getInt_eq_ok_iff.mp h
    exact hacc.pos (by decide)

end Runs

/-- For every argument that `main` accepts, and for its default: whatever the order of the
steps, no increment overflows, and when both threads have been joined `glob` is twice the
argument, exactly if that is an `int`. -/
theorem counts_exactly_iff (arg : Option Bytes) (loops : Int) (h : loopsOf arg = .ok loops) :
    (∀ s, (system loops).Reach s → Exact loops s) ↔ 2 * loops ≤ INT_MAX := by
  have hpos := loops_pos h
  constructor
  · intro hall
    by_contra hover
    obtain ⟨s, hs, hjoined, hne⟩ := not_exact (not_le.mp hover)
    exact hne ((hall s hs).sum hjoined)
  · intro hfits s hs
    have hinv : Inv loops s := System.Reach.invariant (I := Inv loops) (inv_init loops)
      (fun _ _ _ hi hst => inv_step hi hpos hst) hs
    exact hinv.exact hpos hfits

theorem counts_exactly_three :
    loopsOf (some (ascii "3")) = .ok 3 ∧ ∀ s, (system 3).Reach s → Exact 3 s :=
  ⟨by decide, (counts_exactly_iff (some (ascii "3")) 3 (by decide)).mpr (by decide)⟩

/-- The least argument whose double is no `int`. -/
theorem count_overflows :
    loopsOf (some (ascii "1073741824")) = .ok 1073741824 ∧
      ∃ s, (system 1073741824).Reach s ∧ s.main.Joined ∧ s.glob.toInt ≠ 2 * 1073741824 :=
  ⟨by decide, not_exact (by decide)⟩

end Tlpi.IncrMutex
