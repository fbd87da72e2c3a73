import Tlpi.PipeAffinity.Progress

/-!
# When the peer is gone

A side may be killed at any time; the kernel then closes all its ends.  What the other side has
not read yet stays in the pipe, and once that is drained `read` returns 0.

* `ends_step`: who has closed a write end, phase by phase; so a side that reads when its peer is
  gone comes to the end of file (`readReturn_eq_zero`).
* `readSome_spec`: a turn of the loop moves bytes from the pipe to the buffer; their number
  together does not change.
* `reading_ends_iff`: the loop ends exactly if there are enough bytes for the whole buffer.
-/

namespace Tlpi.PipeAffinity

open Tlpi.Lib

/-- `w` is killed, or its `errExit` comes to an end. -/
def State.die (s : State) (w : Who) : State where
  proc := Function.update s.proc w { s.proc w with pc := .exited }
  pipe v :=
    { s.pipe v with
      rd := Function.update (s.pipe v).rd w false
      wr := Function.update (s.pipe v).wr w false }

inductive Label
  | run (e : Event)
  | die (w : Who)
  deriving DecidableEq, Repr

def mortalStep (c : Config) (s : State) : Label → Option State
  | .run e => step c s e
  | .die w => if (s.proc w).pc = .exited then none else some (s.die w)

/-- The two sides, each of which may end at any time. -/
def mortal (c : Config) : System State Label := ⟨init, mortalStep c⟩

def Pipe.hasWriter (p : Pipe) : Bool := p.wr .parent || p.wr .child

/-- What the `read` of a side returns; `none` is -1 with `EAGAIN`. -/
def readReturn (c : Config) (s : State) (w : Who) (k : Nat) : Option Nat :=
  let q := s.pipe w.peer
  if q.data = [] then if q.hasWriter then none else some 0
  else some (max 1 (min k (min (c.bufferSize - (s.proc w).total) q.data.length)))

/-- How many of its four ends a side has closed. -/
def Pc.closed : Pc → Nat
  | .closeFirst => 0
  | .closeSecond => 1
  | .setup | .loop | .write | .read | .wait | .closeThird | .failed => 2
  | .closeFourth => 3
  | .exited => 4

/-- Which of the four the two write ends are: the one of the input pipe, and the one of the output
pipe. -/
def Who.unusedWr : Who → Nat
  | .parent => 1
  | .child => 0

def Who.usedWr : Who → Nat
  | .parent => 2
  | .child => 3

/-- The write ends that are closed. -/
structure Ends (s : State) : Prop where
  unused : ∀ w, w.unusedWr < (s.proc w).pc.closed → (s.pipe w.peer).wr w = false
  used : ∀ w, w.usedWr < (s.proc w).pc.closed → (s.pipe w).wr w = false

section Closing

variable {c : Config} {s s' : State} {w : Who}

theorem ends_init : Ends init :=
  ⟨fun _ h => absurd h (Nat.not_lt_zero _), fun _ h => absurd h (Nat.not_lt_zero _)⟩

theorem ends_setData (h : Ends s) (v : Who) (b : Bytes) : Ends (s.setData v b) := by
  have hwr : ∀ u x, ((s.setData v b).pipe u).wr x = (s.pipe u).wr x := by
    intro u x
    by_cases hu : u = v
    · subst hu
      simp [State.setData]
    · simp [State.setData, hu]
  exact ⟨fun w hw => (hwr _ _).trans (h.unused w hw), fun w hw => (hwr _ _).trans (h.used w hw)⟩

theorem ends_setProc (h : Ends s) {p : Proc} (hp : p.pc.closed = (s.proc w).pc.closed) :
    Ends (s.setProc w p) := by
  have hclosed : ∀ v, ((s.setProc w p).proc v).pc.closed = (s.proc v).pc.closed := by
    intro v
    by_cases hv : v = w
    · subst hv
      simp [State.setProc, hp]
    · simp [State.setProc, hv]
  exact ⟨fun v hv => h.unused v (hclosed v ▸ hv), fun v hv => h.used v (hclosed v ▸ hv)⟩

theorem ends_die (h : Ends s) (w : Who) : Ends (s.die w) := by
  constructor
  · intro v hv
    by_cases hvw : v = w
    · subst hvw
      simp [State.die]
    · simpa [State.die, hvw] using h.unused v (by simpa [State.die, hvw] using hv)
  · intro v hv
    by_cases hvw : v = w
    · subst hvw
      simp [State.die]
    · simpa [State.die, hvw] using h.used v (by simpa [State.die, hvw] using hv)

theorem wr_closeRd (s : State) (u v x : Who) : ((s.closeRd u v).pipe x).wr = (s.pipe x).wr := by
  by_cases hx : x = v
  · subst hx
    simp [State.closeRd]
  · simp [State.closeRd, hx]

theorem wr_closeWr (s : State) (u v x y : Who) :
    ((s.closeWr u v).pipe x).wr y = if x = v ∧ y = u then false else (s.pipe x).wr y := by
  by_cases hx : x = v
  · subst hx
    by_cases hy : y = u
    · subst hy
      simp [State.closeWr]
    · simp [State.closeWr, hy]
  · simp [State.closeWr, hx]

/-- Closing one more end. -/
theorem ends_close (h : Ends s) {t : State} {p : Proc} (hproc : t.proc = s.proc)
    (hwr : ∀ v u, (t.pipe v).wr u = true → (s.pipe v).wr u = true)
    (hunused : w.unusedWr < p.pc.closed → (t.pipe w.peer).wr w = false)
    (hused : w.usedWr < p.pc.closed → (t.pipe w).wr w = false) : Ends (t.setProc w p) := by
  have hkeep : ∀ v u, (s.pipe v).wr u = false → (t.pipe v).wr u = false := by
    intro v u hclosed
    rw [Bool.eq_false_iff] at hclosed ⊢
    exact fun hopen => hclosed (hwr v u hopen)
  constructor
  · intro v hv
    by_cases hvw : v = w
    · subst hvw
      exact hunused (by simpa [State.setProc] using hv)
    · refine hkeep _ _ (h.unused v ?_)
      simpa [State.setProc, hvw, hproc] using hv
  · intro v hv
    by_cases hvw : v = w
    · subst hvw
      exact hused (by simpa [State.setProc] using hv)
    · refine hkeep _ _ (h.used v ?_)
      simpa [State.setProc, hvw, hproc] using hv

theorem ends_closeUnused (h : Ends s) (b : Bool) {p : Proc}
    (hpc : (s.proc w).pc.closed = if b then 0 else 1) (hp : p.pc.closed = if b then 1 else 2) :
    Ends ((closeUnused s w b).setProc w p) := by
  have hunused := h.unused w
  refine ends_close h ?_ ?_ ?_ ?_
  · cases w <;> cases b <;> rfl
  · intro v u
    cases w <;> cases b <;> simp only [closeUnused, wr_closeRd, wr_closeWr] <;>
      first | exact id | (split_ifs <;> simp)
  · rw [hp]
    rw [hpc] at hunused
    cases w <;> cases b <;> simp_all [closeUnused, wr_closeRd, wr_closeWr, Who.unusedWr, Who.peer]
  · rw [hp]
    cases w <;> cases b <;> simp [Who.usedWr]

theorem ends_closeUsed (h : Ends s) (b : Bool) {p : Proc}
    (hpc : (s.proc w).pc.closed = if b then 2 else 3) (hp : p.pc.closed = if b then 3 else 4) :
    Ends ((closeUsed s w b).setProc w p) := by
  have hunused := h.unused w
  have hused := h.used w
  refine ends_close h ?_ ?_ ?_ ?_
  · cases w <;> cases b <;> rfl
  · intro v u
    cases w <;> cases b <;> simp only [closeUsed, wr_closeRd, wr_closeWr] <;>
      first | exact id | (split_ifs <;> simp)
  · rw [hp]
    rw [hpc] at hunused
    cases w <;> cases b <;> simp_all [closeUsed, wr_closeRd, wr_closeWr, Who.unusedWr, Who.peer]
  · rw [hp]
    rw [hpc] at hused
    cases w <;> cases b <;> simp_all [closeUsed, wr_closeRd, wr_closeWr, Who.usedWr]

theorem ends_step {e : Event} (h : Ends s) (hstep : step c s e = some s') : Ends s' := by
  obtain ⟨w, k⟩ := e
  cases hpc : (s.proc w).pc <;> simp only [step, hpc] at hstep
  case closeFirst =>
    cases hstep
    exact ends_closeUnused h true (by rw [hpc]; rfl) rfl
  case closeSecond =>
    cases hstep
    exact ends_closeUnused h false (by rw [hpc]; rfl) rfl
  case setup =>
    cases hstep
    exact ends_setProc h (by rw [hpc]; rfl)
  case loop =>
    split at hstep
    · cases hstep
      exact ends_setProc h (by rw [hpc]; rfl)
    · cases w <;> cases hstep <;> exact ends_setProc h (by rw [hpc]; rfl)
  case write =>
    split at hstep
    · cases hstep
      rw [writeSome]
      split_ifs
      · cases hamount : writeAmount c.pipeBuf (c.capacity - (s.pipe w).data.length)
            (c.bufferSize - (s.proc w).total) k with
        | none => exact h
        | some m => exact ends_setProc (ends_setData h _ _) rfl
      · exact ends_setProc h (by rw [hpc]; rfl)
    · cases hstep
      exact ends_setProc h (by rw [hpc]; rfl)
  case read =>
    split at hstep
    · cases hstep
      rw [readSome]
      split_ifs
      · exact h
      · exact ends_setProc (ends_setData h _ _) rfl
    · cases hstep
      exact ends_setProc h (by rw [hpc]; rfl)
  case wait =>
    split at hstep
    · cases hstep
      exact ends_setProc h (by rw [hpc]; rfl)
    · cases hstep
  case closeThird =>
    cases hstep
    exact ends_closeUsed h true (by rw [hpc]; rfl) rfl
  case closeFourth =>
    cases hstep
    exact ends_closeUsed h false (by rw [hpc]; rfl) rfl
  case exited => cases hstep
  case failed => cases hstep

theorem ends_of_reach (h : (mortal c).Reach s) : Ends s := by
  refine System.Reach.invariant ends_init ?_ h
  intro s l s' hs hstep
  cases l with
  | run e => exact ends_step hs hstep
  | die w =>
    simp only [mortal, mortalStep] at hstep
    split_ifs at hstep
    cases hstep
    exact ends_die hs w

/-- A reader whose peer is gone has no writer. -/
theorem hasWriter_eq_false (h : Ends s) (hpc : (s.proc w).pc = .read)
    (hgone : (s.proc w.peer).pc = .exited) : (s.pipe w.peer).hasWriter = false := by
  have hown := h.unused w (by rw [hpc]; cases w <;> decide)
  have hpeer := h.used w.peer (by rw [hgone]; cases w <;> decide)
  rw [Pipe.hasWriter, Bool.or_eq_false_iff]
  cases w
  · exact ⟨hown, hpeer⟩
  · exact ⟨hpeer, hown⟩

end Closing

section Reading

variable {c : Config} {s s' : State} {w : Who}

/-- At the end of file `read` returns 0, not `EAGAIN`. -/
theorem readReturn_eq_zero (h : Ends s) (hpc : (s.proc w).pc = .read)
    (hgone : (s.proc w.peer).pc = .exited) (hdata : (s.pipe w.peer).data = []) (k : Nat) :
    readReturn c s w k = some 0 := by
  rw [readReturn]
  simp only [hdata, if_true, hasWriter_eq_false h hpc hgone, Bool.false_eq_true, if_false]

/-- **A turn of the loop** adds what `read` returns, and bytes that leave the pipe are in the
buffer. -/
theorem readSome_spec (c : Config) (s : State) (w : Who) (k : Nat) :
    ((readSome c s w k).proc w).pc = (s.proc w).pc ∧
      (readSome c s w k).proc w.peer = s.proc w.peer ∧
      ((readSome c s w k).proc w).total = (s.proc w).total + (readReturn c s w k).getD 0 ∧
      ((readSome c s w k).pipe w.peer).data.length + (readReturn c s w k).getD 0 =
        (s.pipe w.peer).data.length := by
  rw [readSome, readReturn]
  by_cases hdata : (s.pipe w.peer).data = []
  · simp only [hdata, if_true]
    split_ifs <;> simp
  · have hpos := List.length_pos_iff.mpr hdata
    simp only [if_neg hdata, Option.getD_some]
    refine ⟨by simp [State.setProc], by simp [State.setProc, State.setData],
      by simp [State.setProc], ?_⟩
    simp only [State.setProc, State.setData, Function.update_self, List.length_drop]
    omega

theorem mortalStep_peer (hgone : (s.proc w.peer).pc = .exited) (k : Nat) :
    mortalStep c s (.run ⟨w.peer, k⟩) = none := by
  simp only [mortalStep, step, hgone]

/-- With enough bytes, each turn of the loop moves some of them. -/
theorem not_forever_reading (hgone : (s.proc w.peer).pc = .exited)
    (henough : c.bufferSize ≤ (s.proc w).total + (s.pipe w.peer).data.length) :
    ¬ (mortal c).Forever (fun t => (t.proc w).pc = .read) s := by
  refine System.not_forever_of_measure (I := fun t => (t.proc w.peer).pc = .exited ∧
    c.bufferSize ≤ (t.proc w).total + (t.pipe w.peer).data.length)
    (fun t => c.bufferSize - (t.proc w).total) ?_ ⟨hgone, henough⟩
  rintro t l t' ⟨hgone, henough⟩ hpc hstep hpc'
  cases l with
  | die v =>
    -- the reader itself would be gone, and the peer cannot die twice
    exfalso
    simp only [mortal, mortalStep] at hstep
    split_ifs at hstep with hlive
    cases hstep
    by_cases hv : v = w
    · subst hv
      simp [State.die] at hpc'
    · rw [Who.eq_peer_of_ne hv] at hlive
      exact hlive hgone
  | run e =>
    obtain ⟨v, k⟩ := e
    by_cases hv : v = w
    · subst hv
      simp only [mortal, mortalStep, step, hpc] at hstep
      split_ifs at hstep with hlt
      · cases hstep
        obtain ⟨-, hpeer, htotal, hlen⟩ := readSome_spec c t v k
        have hmoved : 0 < (readReturn c t v k).getD 0 := by
          have hdata : (t.pipe v.peer).data ≠ [] := by
            rw [← List.length_pos_iff]
            omega
          rw [readReturn]
          simp only [if_neg hdata, Option.getD_some]
          omega
        exact ⟨⟨by rw [hpeer]; exact hgone, by omega⟩, by omega⟩
      · cases hstep
        simp [State.setProc] at hpc'
    · rw [Who.eq_peer_of_ne hv] at hstep
      cases hstep.symm.trans (mortalStep_peer hgone k)

/-- Without enough of them, the loop drains the pipe, and then `read` returns 0 again and
again. -/
theorem forever_reading (hpc : (s.proc w).pc = .read)
    (hmissing : (s.proc w).total + (s.pipe w.peer).data.length < c.bufferSize) :
    (mortal c).Forever (fun t => (t.proc w).pc = .read) s := by
  refine System.Forever.of_stay (A := fun t : State => (t.proc w).pc = .read ∧
    (t.proc w).total + (t.pipe w.peer).data.length < c.bufferSize) (fun _ h => h.1) ?_
    ⟨hpc, hmissing⟩
  rintro t ⟨hpc, hmissing⟩
  have hlt : (t.proc w).total < c.bufferSize := by omega
  obtain ⟨hpc', -, htotal, hlen⟩ := readSome_spec c t w 0
  refine ⟨.run ⟨w, 0⟩, readSome c t w 0, ?_, hpc'.trans hpc, by omega⟩
  simp only [mortal, mortalStep, step, hpc, if_pos hlt]

end Reading

/-- A side is in its read loop, and its peer is gone.  When the pipe has been drained, `read`
returns 0; and there is no infinite run of the loop exactly if the pipe still holds all the bytes
that are missing in the buffer. -/
theorem reading_ends_iff (c : Config) {s : State} {w : Who} (h : (mortal c).Reach s)
    (hpc : (s.proc w).pc = .read) (hgone : (s.proc w.peer).pc = .exited) :
    ((s.pipe w.peer).data = [] → ∀ k, readReturn c s w k = some 0) ∧
      (¬ (mortal c).Forever (fun t => (t.proc w).pc = .read) s ↔
        c.bufferSize ≤ (s.proc w).total + (s.pipe w.peer).data.length) := by
  refine ⟨readReturn_eq_zero (ends_of_reach h) hpc hgone, fun hends => ?_,
    not_forever_reading hgone⟩
  by_contra hmissing
  exact hends (forever_reading hpc (Nat.not_le.mp hmissing))

/-- One byte: the parent writes it and is killed, and the child still reads it. -/
theorem reading_ends_one_byte :
    ∃ s, (mortal ⟨1, 1, 1, 4096, by decide, by decide⟩).exec init
        (List.replicate 5 (.run ⟨.parent, 1⟩) ++ List.replicate 6 (.run ⟨.child, 1⟩) ++
          [.die .parent]) = some s ∧
      (s.proc .child).pc = .read ∧ (s.proc .child).total = 0 ∧
      ¬ (mortal ⟨1, 1, 1, 4096, by decide, by decide⟩).Forever
        (fun t => (t.proc .child).pc = .read) s :=
  ⟨_, rfl, rfl, rfl, (reading_ends_iff ⟨1, 1, 1, 4096, by decide, by decide⟩ (w := .child)
    (@System.reach_of_exec _ _ (mortal ⟨1, 1, 1, 4096, by decide, by decide⟩)
      (List.replicate 5 (.run ⟨.parent, 1⟩) ++ List.replicate 6 (.run ⟨.child, 1⟩) ++
        [.die .parent]) _ rfl) rfl rfl).2.mpr (by decide)⟩

/-- The buffer, the rounds and the pipes of the program. -/
def real : Config := ⟨1024 * 1024, 100, 1024 * 1024, 4096, by decide, by decide⟩

/-- The child has written its first buffer; the parent is killed before it has written anything,
and the child reads for ever. -/
theorem reads_forever :
    ∃ s, (mortal real).Reach s ∧ (s.proc .child).pc = .read ∧ (s.proc .parent).pc = .exited ∧
      (s.pipe .parent).data = [] ∧ (mortal real).Forever (fun t => (t.proc .child).pc = .read) s := by
  obtain ⟨s, hexec, hpc, hgone, hdata, htotal⟩ : ∃ s, (mortal real).exec init
      (List.replicate 4 (.run ⟨.child, 0⟩) ++
        [.run ⟨.child, 1024 * 1024⟩, .run ⟨.child, 0⟩, .die .parent]) = some s ∧
      (s.proc .child).pc = .read ∧ (s.proc .parent).pc = .exited ∧ (s.pipe .parent).data = [] ∧
      (s.proc .child).total = 0 := ⟨_, rfl, rfl, rfl, rfl, rfl⟩
  refine ⟨s, System.reach_of_exec hexec, hpc, hgone, hdata, forever_reading hpc ?_⟩
  rw [htotal, Who.peer, hdata]
  exact real.pos

end Tlpi.PipeAffinity
