import Tlpi.SvshmXfr.Model

/-!
# Whose turn it is

A transfer goes through phases (`Turns`): there is one turn to be had, and it lies in a
semaphore or a process has it.  While it is the reader's, the block that the writer has read
last stays in the segment.  The end of the input goes from the writer to the reader and back
before anything is removed.

* `turns_step`: every step leads from a phase to a phase.
* `Turns.writer_of_fresh`, `Turns.reader_of_done`: where the other process is meanwhile.
-/

namespace Tlpi.SvshmXfr

open Tlpi.Lib

/-- The reader has not looked for the segment yet. -/
def RPc.Early (pc : RPc) : Prop := pc = .semget ∨ pc = .shmget

/-- The reader comes to wait for its turn. -/
def RPc.Waiting (pc : RPc) : Prop :=
  pc.Early ∨ pc = .shmat ∨ pc = .reserve ∨ pc = .next

/-- The reader has the turn, with `cnt` in the segment. -/
def RPc.Taken (cnt : Int) (pc : RPc) : Prop :=
  pc = .test ∨ ((pc = .write ∨ pc = .release ∨ pc = .fatal) ∧ cnt ≠ 0) ∨
    ((pc = .shmdt ∨ pc = .lastRelease) ∧ cnt = 0)

/-- The reader has given the writer its last turn. -/
def RPc.Done (pc : RPc) : Prop := pc = .print ∨ pc = .exited

/-- The writer has left a block of `cnt` bytes to the reader. -/
def WPc.Left (cnt : Int) (pc : WPc) : Prop :=
  pc = .test ∨ ((pc = .next ∨ pc = .reserve) ∧ cnt ≠ 0) ∨ (pc = .lastReserve ∧ cnt = 0)

/-- The writer has nothing to remove any more but the segment. -/
def WPc.Removing (pc : WPc) : Prop := pc = .shmdt ∨ pc = .rmShm ∨ pc = .print ∨ pc = .exited

/-- What is in the segment: the block that the writer has read last. -/
structure Block (m : Shmseg) (stdin : Bytes) : Prop where
  nonneg : 0 ≤ m.cnt
  length : m.cnt.toNat ≤ m.buf.length
  eof : m.cnt = 0 → stdin = []

/-- The phases of a transfer, with the semaphores, `SHM_KEY`, the segment, the rest of the input
and where the processes are. -/
inductive Phase (sems : Option Sems) (key : Bool) (m : Shmseg) (stdin : Bytes) (w : WPc)
    (r : RPc) : Prop
  | start (hv : sems = none) (hw : w = .semget) (hr : r = .semget) (hkey : key = false)
  | made (hv : sems = some ⟨0, 0⟩) (hw : w = .initAvailable) (hr : r.Early) (hkey : key = false)
  | setup (hv : sems = some ⟨1, 0⟩) (hw : w = .initInUse ∨ w = .shmget) (hr : r.Early)
      (hkey : key = false)
  /-- It is the writer's turn. -/
  | toWriter (hv : sems = some ⟨1, 0⟩)
      (hw : w = .shmat ∨ w = .reserve ∨ ((w = .test ∨ w = .next) ∧ m.cnt ≠ 0)) (hr : r.Waiting)
  | reading (hv : sems = some ⟨0, 0⟩) (hw : w = .read) (hr : r.Waiting)
  | filled (hv : sems = some ⟨0, 0⟩) (hw : w = .release) (hm : Block m stdin) (hr : r.Waiting)
  /-- It is the reader's turn. -/
  | toReader (hv : sems = some ⟨0, 1⟩) (hw : w.Left m.cnt) (hm : Block m stdin) (hr : r.Waiting)
  | taken (hv : sems = some ⟨0, 0⟩) (hw : w.Left m.cnt) (hm : Block m stdin) (hr : r.Taken m.cnt)
  /-- The reader has seen the end of the input. -/
  | last (hv : sems = some ⟨1, 0⟩) (hw : w = .test ∨ w = .lastReserve) (hcnt : m.cnt = 0)
      (hm : Block m stdin) (hr : r.Done)
  | remove (hv : sems = some ⟨0, 0⟩) (hw : w = .rmSem) (hcnt : m.cnt = 0) (hm : Block m stdin)
      (hr : r.Done)
  | removed (hv : sems = none) (hw : w.Removing) (hcnt : m.cnt = 0) (hm : Block m stdin)
      (hr : r.Done)

/-- Every state is in a phase. -/
def Turns (s : State) : Prop :=
  Phase s.sems s.shmKey s.shm s.stdin s.writer.pc s.reader.pc

theorem RPc.Early.waiting {pc : RPc} (h : pc.Early) : pc.Waiting := .inl h

section Steps

variable {BUF_SIZE : Nat} {input : Bytes} {s s' : State}

theorem turns_init (BUF_SIZE : Nat) (input : Bytes) : Turns (init BUF_SIZE input) :=
  .start rfl rfl rfl rfl

/-- The writer, having left a block to the reader, comes to wait for its turn. -/
theorem left_stepWriter {x : Nat} (hv : s.sems = some ⟨0, x⟩) (hw : s.writer.pc.Left s.shm.cnt)
    (hstep : stepWriter s = some s') :
    s'.writer.pc.Left s.shm.cnt ∧ s'.sems = s.sems ∧ s'.shmKey = s.shmKey ∧ s'.shm = s.shm ∧
      s'.stdin = s.stdin ∧ s'.reader = s.reader := by
  rcases hw with hw | ⟨hw | hw, hcnt⟩ | ⟨hw, hcnt⟩
  · simp only [stepWriter, hw, Option.some.injEq] at hstep
    subst hstep
    refine ⟨?_, rfl, rfl, rfl, rfl, rfl⟩
    by_cases hcnt : s.shm.cnt = 0
    · rw [if_pos hcnt]
      exact .inr (.inr ⟨rfl, hcnt⟩)
    · rw [if_neg hcnt]
      exact .inr (.inl ⟨.inl rfl, hcnt⟩)
  · simp only [stepWriter, hw, Option.some.injEq] at hstep
    subst hstep
    exact ⟨.inr (.inl ⟨.inr rfl, hcnt⟩), rfl, rfl, rfl, rfl, rfl⟩
  · simp [stepWriter, hw, State.onWriteSem, hv, reserveSem] at hstep
  · simp [stepWriter, hw, State.onWriteSem, hv, reserveSem] at hstep

theorem turns_stepWriter (h : Turns s) (hstep : stepWriter s = some s') : Turns s' := by
  cases h with
  | start hv hw hr hkey =>
    simp only [stepWriter, hw, Option.some.injEq] at hstep
    subst hstep
    exact .made rfl rfl (.inl hr) hkey
  | made hv hw hr hkey =>
    simp only [stepWriter, hw, State.onWriteSem, hv, Option.some.injEq] at hstep
    subst hstep
    exact .setup rfl (.inl rfl) hr hkey
  | setup hv hw hr hkey =>
    rcases hw with hw | hw
    · simp only [stepWriter, hw, State.onReadSem, hv, Option.some.injEq] at hstep
      subst hstep
      exact .setup rfl (.inr rfl) hr hkey
    · simp only [stepWriter, hw, Option.some.injEq] at hstep
      subst hstep
      exact .toWriter hv (.inl rfl) hr.waiting
  | toWriter hv hw hr =>
    rcases hw with hw | hw | ⟨hw | hw, hcnt⟩
    · simp only [stepWriter, hw, Option.some.injEq] at hstep
      subst hstep
      exact .toWriter hv (.inr (.inl rfl)) hr
    · simp [stepWriter, hw, State.onWriteSem, hv, reserveSem] at hstep
      subst hstep
      exact .reading rfl rfl hr
    · simp only [stepWriter, hw, if_neg hcnt, Option.some.injEq] at hstep
      subst hstep
      exact .toWriter hv (.inr (.inr ⟨.inr rfl, hcnt⟩)) hr
    · simp only [stepWriter, hw, Option.some.injEq] at hstep
      subst hstep
      exact .toWriter hv (.inr (.inl rfl)) hr
  | reading hv hw hr =>
    simp only [stepWriter, hw] at hstep
    cases hstep
  | filled hv hw hm hr =>
    simp [stepWriter, hw, State.onReadSem, hv, releaseSem, SEMVMX] at hstep
    subst hstep
    exact .toReader rfl (.inl rfl) hm hr
  | toReader hv hw hm hr =>
    obtain ⟨hw', hsems, hkey, hshm, hstdin, hreader⟩ := left_stepWriter hv hw hstep
    rw [Turns, hsems, hshm, hstdin, hreader]
    exact .toReader hv hw' hm hr
  | taken hv hw hm hr =>
    obtain ⟨hw', hsems, hkey, hshm, hstdin, hreader⟩ := left_stepWriter hv hw hstep
    rw [Turns, hsems, hshm, hstdin, hreader]
    exact .taken hv hw' hm hr
  | last hv hw hcnt hm hr =>
    rcases hw with hw | hw
    · simp only [stepWriter, hw, if_pos hcnt, Option.some.injEq] at hstep
      subst hstep
      exact .last hv (.inr rfl) hcnt hm hr
    · simp [stepWriter, hw, State.onWriteSem, hv, reserveSem] at hstep
      subst hstep
      exact .remove rfl rfl hcnt hm hr
  | remove hv hw hcnt hm hr =>
    simp only [stepWriter, hw, hv, Option.some.injEq] at hstep
    subst hstep
    exact .removed rfl (.inl rfl) hcnt hm hr
  | removed hv hw hcnt hm hr =>
    rcases hw with hw | hw | hw | hw <;> simp only [stepWriter, hw] at hstep <;> cases hstep
    · exact .removed hv (.inr (.inl rfl)) hcnt hm hr
    · exact .removed hv (.inr (.inr (.inl rfl))) hcnt hm hr
    · exact .removed hv (.inr (.inr (.inr rfl))) hcnt hm hr

/-- The reader, coming to wait for its turn, leaves everything else as it is. -/
theorem waiting_stepReader {v : Sems} (hv : s.sems = some v) (hr : s.reader.pc.Waiting)
    (hno : s.reader.pc = .reserve → v.read = 0) (hstep : stepReader s = some s') :
    s'.reader.pc.Waiting ∧ s'.sems = s.sems ∧ s'.shmKey = s.shmKey ∧ s'.shm = s.shm ∧
      s'.stdin = s.stdin ∧ s'.writer = s.writer := by
  rcases hr with (hr | hr) | hr | hr | hr
  · simp only [stepReader, hr, hv, Option.some.injEq] at hstep
    subst hstep
    exact ⟨.inl (.inr rfl), rfl, rfl, rfl, rfl, rfl⟩
  · simp only [stepReader, hr] at hstep
    split at hstep <;> cases hstep
    · exact ⟨.inr (.inl rfl), rfl, rfl, rfl, rfl, rfl⟩
    · exact ⟨.inl (.inr hr), rfl, rfl, rfl, rfl, rfl⟩
  · simp only [stepReader, hr, Option.some.injEq] at hstep
    subst hstep
    exact ⟨.inr (.inr (.inl rfl)), rfl, rfl, rfl, rfl, rfl⟩
  · simp [stepReader, hr, State.onReadSem, hv, hno hr, reserveSem] at hstep
  · simp only [stepReader, hr, Option.some.injEq] at hstep
    subst hstep
    exact ⟨.inr (.inr (.inl rfl)), rfl, rfl, rfl, rfl, rfl⟩

/-- The reader, when there is no segment to be found, dies looking for it. -/
theorem early_stepReader {v : Sems} (hv : s.sems = some v) (hkey : s.shmKey = false)
    (hr : s.reader.pc.Early) (hstep : stepReader s = some s') :
    s'.reader.pc.Early ∧ s'.sems = s.sems ∧ s'.shmKey = s.shmKey ∧ s'.shm = s.shm ∧
      s'.stdin = s.stdin ∧ s'.writer = s.writer := by
  rcases hr with hr | hr
  · simp only [stepReader, hr, hv, Option.some.injEq] at hstep
    subst hstep
    exact ⟨.inr rfl, rfl, rfl, rfl, rfl, rfl⟩
  · simp [stepReader, hr, hkey] at hstep
    subst hstep
    exact ⟨.inr hr, rfl, rfl, rfl, rfl, rfl⟩

theorem done_stepReader (hr : s.reader.pc.Done) (hstep : stepReader s = some s') :
    s' = s.toReader .exited := by
  rcases hr with hr | hr <;> simp only [stepReader, hr] at hstep <;> cases hstep
  rfl

theorem turns_stepReader (h : Turns s) (hstep : stepReader s = some s') : Turns s' := by
  cases h with
  | start hv hw hr hkey =>
    simp only [stepReader, hr, hv, Option.some.injEq] at hstep
    subst hstep
    exact .start hv hw hr hkey
  | made hv hw hr hkey =>
    obtain ⟨hr', hsems, hkey', hshm, hstdin, hwriter⟩ := early_stepReader hv hkey hr hstep
    rw [Turns, hsems, hkey', hwriter]
    exact .made hv hw hr' hkey
  | setup hv hw hr hkey =>
    obtain ⟨hr', hsems, hkey', hshm, hstdin, hwriter⟩ := early_stepReader hv hkey hr hstep
    rw [Turns, hsems, hkey', hwriter]
    exact .setup hv hw hr' hkey
  | toWriter hv hw hr =>
    obtain ⟨hr', hsems, hkey, hshm, hstdin, hwriter⟩ := 
      waiting_stepReader hv hr (fun _ => rfl) hstep
    rw [Turns, hsems, hshm, hwriter]
    exact .toWriter hv hw hr'
  | reading hv hw hr =>
    obtain ⟨hr', hsems, hkey, hshm, hstdin, hwriter⟩ := 
      waiting_stepReader hv hr (fun _ => rfl) hstep
    rw [Turns, hsems, hwriter]
    exact .reading hv hw hr'
  | filled hv hw hm hr =>
    obtain ⟨hr', hsems, hkey, hshm, hstdin, hwriter⟩ := 
      waiting_stepReader hv hr (fun _ => rfl) hstep
    rw [Turns, hsems, hshm, hstdin, hwriter]
    exact .filled hv hw hm hr'
  | toReader hv hw hm hr =>
    by_cases hreserve : s.reader.pc = .reserve
    · simp [stepReader, hreserve, State.onReadSem, hv, reserveSem] at hstep
      subst hstep
      exact .taken rfl hw hm (.inl rfl)
    · obtain ⟨hr', hsems, hkey, hshm, hstdin, hwriter⟩ :=
        waiting_stepReader hv hr (fun h => absurd h hreserve) hstep
      rw [Turns, hsems, hshm, hstdin, hwriter]
      exact .toReader hv hw hm hr'
  | taken hv hw hm hr =>
    rcases hr with hr | ⟨hr | hr | hr, hcnt⟩ | ⟨hr | hr, hcnt⟩
    · simp only [stepReader, hr] at hstep
      split at hstep
      · next hcnt =>
        cases hstep
        exact .taken hv hw hm (.inr (.inr ⟨.inl rfl, hcnt⟩))
      · next hcnt =>
        cases hstep
        exact .taken hv hw hm (.inr (.inl ⟨.inl rfl, hcnt⟩))
    · simp only [stepReader, hr] at hstep
      cases hstep
    · simp [stepReader, hr, State.onWriteSem, hv, releaseSem, SEMVMX] at hstep
      subst hstep
      refine .toWriter rfl ?_ (.inr (.inr (.inr rfl)))
      rcases hw with hw | ⟨hw | hw, -⟩ | ⟨hw, h0⟩
      · exact .inr (.inr ⟨.inl hw, hcnt⟩)
      · exact .inr (.inr ⟨.inr hw, hcnt⟩)
      · exact .inr (.inl hw)
      · exact absurd h0 hcnt
    · simp only [stepReader, hr] at hstep
      cases hstep
    · simp only [stepReader, hr, Option.some.injEq] at hstep
      subst hstep
      exact .taken hv hw hm (.inr (.inr ⟨.inr rfl, hcnt⟩))
    · simp [stepReader, hr, State.onWriteSem, hv, releaseSem, SEMVMX] at hstep
      subst hstep
      refine .last rfl ?_ hcnt hm (.inl rfl)
      rcases hw with hw | ⟨hw, hne⟩ | ⟨hw, -⟩
      · exact .inl hw
      · exact absurd hcnt hne
      · exact .inr hw
  | last hv hw hcnt hm hr =>
    rw [done_stepReader hr hstep]
    exact .last hv hw hcnt hm (.inr rfl)
  | remove hv hw hcnt hm hr =>
    rw [done_stepReader hr hstep]
    exact .remove hv hw hcnt hm (.inr rfl)
  | removed hv hw hcnt hm hr =>
    rw [done_stepReader hr hstep]
    exact .removed hv hw hcnt hm (.inr rfl)

theorem Turns.reading_of_read (h : Turns s) (hw : s.writer.pc = .read) :
    s.sems = some ⟨0, 0⟩ ∧ s.reader.pc.Waiting := by
  rw [Turns, hw] at h
  cases h with
  | reading hv _ hr => exact ⟨hv, hr⟩
  | toWriter _ hw' => simp at hw'
  | setup _ hw' | last _ hw' => simp at hw'
  | toReader _ hw' | taken _ hw' => simp [WPc.Left] at hw'
  | removed _ hw' => simp [WPc.Removing] at hw'
  | start _ hw' | made _ hw' | filled _ hw' | remove _ hw' => cases hw'

theorem Turns.taken_of_write (h : Turns s) (hr : s.reader.pc = .write) :
    s.sems = some ⟨0, 0⟩ ∧ s.writer.pc.Left s.shm.cnt ∧ Block s.shm s.stdin ∧ s.shm.cnt ≠ 0 := by
  rw [Turns, hr] at h
  cases h with
  | taken hv hw hm hr' =>
    refine ⟨hv, hw, hm, ?_⟩
    simpa [RPc.Taken] using hr'
  | start _ _ hr' => cases hr'
  | made _ _ hr' | setup _ _ hr' => simp [RPc.Early] at hr'
  | toWriter _ _ hr' | reading _ _ hr' => simp [RPc.Waiting, RPc.Early] at hr'
  | filled _ _ _ hr' | toReader _ _ _ hr' => simp [RPc.Waiting, RPc.Early] at hr'
  | last _ _ _ _ hr' | remove _ _ _ _ hr' | removed _ _ _ _ hr' => simp [RPc.Done] at hr'

theorem Turns.cnt_of_next (h : Turns s) (hw : s.writer.pc = .next) : s.shm.cnt ≠ 0 := by
  rw [Turns, hw] at h
  cases h <;> simp_all [WPc.Left, WPc.Removing]

theorem Turns.readVal_of_sems (h : Turns s)
    (hw : s.writer.pc = .semget ∨ s.writer.pc = .initInUse ∨ s.writer.pc = .rmSem) :
    s.sems.elim 0 Sems.read = 0 := by
  rcases hw with hw | hw | hw <;> rw [Turns, hw] at h <;>
    cases h <;> simp_all [WPc.Left, WPc.Removing]

/-- Where the writer is when the reader is done. -/
theorem Turns.writer_of_done (h : Turns s) (hr : s.reader.pc.Done) :
    s.shm.cnt = 0 ∧ s.stdin = [] ∧ s.writer.pc ≠ .release := by
  rw [Turns] at h
  have hno : ¬ s.reader.pc.Waiting ∧ ¬ s.reader.pc.Taken s.shm.cnt := by
    rcases hr with hr | hr <;> simp [hr, RPc.Waiting, RPc.Early, RPc.Taken]
  cases h with
  | start _ _ hr' => exact absurd (.inl (.inl hr')) hno.1
  | made _ _ hr' | setup _ _ hr' => exact absurd hr'.waiting hno.1
  | toWriter _ _ hr' | reading _ _ hr' => exact absurd hr' hno.1
  | filled _ _ _ hr' | toReader _ _ _ hr' => exact absurd hr' hno.1
  | taken _ _ _ hr' => exact absurd hr' hno.2
  | last _ hw hcnt hm => exact ⟨hcnt, hm.eof hcnt, by rcases hw with hw | hw <;> simp [hw]⟩
  | remove _ hw hcnt hm => exact ⟨hcnt, hm.eof hcnt, by simp [hw]⟩
  | removed _ hw hcnt hm =>
    exact ⟨hcnt, hm.eof hcnt, by rcases hw with hw | hw | hw | hw <;> simp [hw]⟩

/-- The writer removes what is not used any more. -/
theorem Turns.done_of_removing (h : Turns s) (hw : s.writer.pc = .rmSem ∨ s.writer.pc.Removing) :
    s.reader.pc.Done := by
  rw [Turns] at h
  cases h with
  | last _ _ _ _ hr | remove _ _ _ _ hr | removed _ _ _ _ hr => exact hr
  | start _ hw' | made _ hw' | filled _ hw' | reading _ hw' => simp [hw', WPc.Removing] at hw
  | setup _ hw' | toWriter _ hw' =>
    rcases hw with hw | hw | hw | hw | hw <;> simp [hw] at hw'
  | toReader _ hw' | taken _ hw' =>
    rcases hw with hw | hw | hw | hw | hw <;> simp [hw, WPc.Left] at hw'

/-- The processes are never at the segment together. -/
theorem Turns.exclusive (h : Turns s) (hw : s.writer.pc = .read ∨ s.writer.pc = .release) :
    s.reader.pc.Waiting := by
  rcases hw with hw | hw
  · exact (h.reading_of_read hw).2
  · rw [Turns, hw] at h
    cases h <;> simp_all [WPc.Left, WPc.Removing]

theorem block_fill (m : Shmseg) {stdin : Bytes} {n : Nat} (hlen : n ≤ stdin.length)
    (heof : n = 0 → stdin = []) : Block (m.fill (stdin.take n)) (stdin.drop n) := by
  refine ⟨Int.natCast_nonneg _, ?_, fun hcnt => ?_⟩
  · simp [Shmseg.fill]
  · have hzero : (stdin.take n).length = 0 := Int.ofNat_eq_zero.mp hcnt
    rw [List.length_take, Nat.min_eq_left hlen] at hzero
    simp [heof hzero]

theorem turns_stepRead {n : Nat} (h : Turns s) (hstep : stepRead BUF_SIZE s n = some s') :
    Turns s' := by
  rw [stepRead] at hstep
  split_ifs at hstep with hread
  obtain ⟨hpc, -, hlen, heof⟩ := hread
  cases hstep
  obtain ⟨hv, hr⟩ := h.reading_of_read hpc
  exact .filled hv rfl (block_fill s.shm hlen heof) hr

theorem turns_readFails (h : Turns s) (hpc : s.writer.pc = .read) :
    Turns { s with shm := { s.shm with cnt := -1 } } := by
  obtain ⟨hv, hr⟩ := h.reading_of_read hpc
  exact .reading hv hpc hr

theorem turns_stepWrite {n : Nat} (h : Turns s) (hstep : stepWrite s n = some s') : Turns s' := by
  rw [stepWrite] at hstep
  split at hstep
  · next hwrite =>
    cases hstep
    obtain ⟨hv, hw, hm, hcnt⟩ := h.taken_of_write hwrite.1
    refine .taken hv hw hm (.inr (.inl ⟨?_, hcnt⟩))
    show (if _ then RPc.release else RPc.fatal) = _ ∨ _
    split
    · exact .inr (.inl rfl)
    · exact .inr (.inr rfl)
  · cases hstep

theorem turns_step {e : Event} (h : Turns s) (hstep : step BUF_SIZE s e = some s') : Turns s' := by
  cases e with
  | writer =>
    rw [step] at hstep
    split_ifs at hstep
    exact turns_stepWriter h hstep
  | read n =>
    rw [step] at hstep
    split_ifs at hstep
    exact turns_stepRead h hstep
  | readFails =>
    rw [step] at hstep
    split_ifs at hstep with hread
    cases hstep
    have hfails := turns_readFails h (not_not.mp (not_or.mp hread).2)
    exact hfails
  | reader =>
    rw [step] at hstep
    split_ifs at hstep
    exact turns_stepReader h hstep
  | write n =>
    rw [step] at hstep
    split_ifs at hstep
    exact turns_stepWrite h hstep
  | eintr p =>
    rw [step] at hstep
    split_ifs at hstep with hwaits hretry
    · cases hstep
      exact h
    · exact absurd rfl hretry
  | die p =>
    rw [step] at hstep
    split_ifs at hstep
    cases hstep
    cases p
    · exact h
    · exact h

end Steps

theorem turns_reach {BUF_SIZE : Nat} {input : Bytes} {s : State}
    (h : (system BUF_SIZE input).Reach s) : Turns s :=
  System.Reach.invariant (I := Turns) (turns_init BUF_SIZE input)
    (fun s e s' ht hst => @turns_step BUF_SIZE s s' e ht hst) h

end Tlpi.SvshmXfr
