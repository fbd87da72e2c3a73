import Tlpi.SvshmXfr.Transfer

/-!
# The transfer comes to its end

Every step but the retry after an interruption brings the transfer closer to its end
(`State.todo`), so there are only so many of them.  Where nothing can go on, and neither process
has failed, both have exited.

* `todo_step`: what a step takes.
* `stuck_exited`: no deadlock.
* `transfer_completes`: both together, and what has come of the input.
-/

namespace Tlpi.SvshmXfr

open Tlpi.Lib

/-- The event is more than a retry. -/
def Event.Counts : Event → Bool
  | .eintr _ => false
  | _ => true

/-- An event that needs nobody to fail. -/
def Event.Goes : Event → Prop
  | .writer | .reader | .read _ | .write _ => True
  | _ => False

/-- Neither process has failed. -/
def State.Sound (s : State) : Prop :=
  s.writer.dead = false ∧ s.reader.dead = false ∧ s.reader.pc ≠ .fatal

/-- The steps that the writer has still to take on its way, where `cnt` is in the segment. -/
def WPc.todo (cnt : Int) : WPc → Nat
  | .semget => 35
  | .initAvailable => 34
  | .initInUse => 33
  | .shmget => 32
  | .shmat => 31
  | .reserve => 30
  | .read => 29
  | .release => if cnt = 0 then 20 else 40
  | .test => if cnt = 0 then 12 else 32
  | .next => 31
  | .lastReserve => 11
  | .rmSem => 10
  | .shmdt => 9
  | .rmShm => 8
  | .print => 7
  | .exited => 0

def RPc.todo : RPc → Nat
  | .semget => 30
  | .shmget => 29
  | .shmat => 28
  | .reserve => 20
  | .test => 26
  | .write => 25
  | .release => 24
  | .next => 23
  | .shmdt => 25
  | .lastRelease => 24
  | .print => 23
  | .exited | .fatal => 0

/-- A measure of what is left to be done.  A turn that waits for the reader is worth the steps
of a round of the reader, and a byte those of a round of both. -/
def State.todo (s : State) : Nat :=
  12 * s.stdin.length + 7 * s.readVal + s.writer.pc.todo s.shm.cnt + s.reader.pc.todo +
    (!s.writer.dead).toNat + (!s.reader.dead).toNat

section Steps

variable {BUF_SIZE : Nat} {s s' : State}

theorem todo_dieWriter (h : s.writer.dead = false) : s.dieWriter.todo + 1 ≤ s.todo := by
  simp only [State.todo, State.dieWriter, State.readVal, h, Bool.not_true, Bool.not_false,
    Bool.toNat_true, Bool.toNat_false]
  omega

theorem todo_dieReader (h : s.reader.dead = false) : s.dieReader.todo + 1 ≤ s.todo := by
  simp only [State.todo, State.dieReader, State.readVal, h, Bool.not_true, Bool.not_false,
    Bool.toNat_true, Bool.toNat_false]
  omega

theorem todo_stepWriter (hdead : s.writer.dead = false) (hstep : stepWriter s = some s') :
    s'.todo + 1 ≤ s.todo := by
  cases hpc : s.writer.pc <;> simp only [stepWriter, hpc] at hstep
  case initAvailable | reserve | lastReserve =>
    rcases State.onWriteSem_cases hstep with rfl | ⟨v, x, hv, hx, rfl⟩
    · exact todo_dieWriter hdead
    · simp only [State.todo, State.toWriter, State.readVal, hpc, hv, WPc.todo, Option.elim]
      omega
  case initInUse =>
    rcases State.onReadSem_cases hstep with rfl | ⟨v, x, hv, hx, rfl⟩
    · exact todo_dieWriter hdead
    · cases hx
      simp only [State.todo, State.toWriter, State.readVal, hpc, hv, WPc.todo, Option.elim,
        initSemInUse]
      omega
  case release =>
    rcases State.onReadSem_cases hstep with rfl | ⟨v, x, hv, hx, rfl⟩
    · exact todo_dieWriter hdead
    · have hx' := (releaseSem_eq_done.mp hx).2
      simp only [State.todo, State.toWriter, State.readVal, hpc, hv, hx', WPc.todo, Option.elim]
      split <;> omega
  case test =>
    cases hstep
    by_cases hcnt : s.shm.cnt = 0
    · simp only [State.todo, State.toWriter, State.readVal, hpc, WPc.todo, if_pos hcnt]
      omega
    · simp only [State.todo, State.toWriter, State.readVal, hpc, WPc.todo, if_neg hcnt]
      omega
  case rmSem =>
    split at hstep
    · cases hstep
      exact todo_dieWriter hdead
    · cases hstep
      simp only [State.todo, State.toWriter, State.readVal, hpc, WPc.todo, Option.elim]
      omega
  case semget =>
    cases hstep
    simp only [State.todo, State.toWriter, State.readVal, hpc, WPc.todo, Option.elim]
    omega
  case shmget | shmat | next | shmdt | rmShm | print =>
    cases hstep
    simp only [State.todo, State.toWriter, State.readVal, hpc, WPc.todo]
    omega
  case read | exited => cases hstep

theorem todo_stepReader (hdead : s.reader.dead = false) (hstep : stepReader s = some s') :
    s'.todo + 1 ≤ s.todo := by
  cases hpc : s.reader.pc <;> simp only [stepReader, hpc] at hstep
  case semget =>
    split at hstep <;> cases hstep
    · exact todo_dieReader hdead
    · simp only [State.todo, State.toReader, State.readVal, hpc, RPc.todo]
      omega
  case shmget =>
    split at hstep <;> cases hstep
    · simp only [State.todo, State.toReader, State.readVal, hpc, RPc.todo]
      omega
    · exact todo_dieReader hdead
  case reserve =>
    rcases State.onReadSem_cases hstep with rfl | ⟨v, x, hv, hx, rfl⟩
    · exact todo_dieReader hdead
    · have hx' := reserveSem_eq_done.mp hx
      simp only [State.todo, State.toReader, State.readVal, hpc, hv, hx', RPc.todo, Option.elim]
      omega
  case test =>
    split at hstep <;> cases hstep <;>
      simp only [State.todo, State.toReader, State.readVal, hpc, RPc.todo] <;> omega
  case release | lastRelease =>
    rcases State.onWriteSem_cases hstep with rfl | ⟨v, x, hv, hx, rfl⟩
    · exact todo_dieReader hdead
    · simp only [State.todo, State.toReader, State.readVal, hpc, hv, RPc.todo, Option.elim]
      omega
  case shmat | next | shmdt | print =>
    cases hstep
    simp only [State.todo, State.toReader, State.readVal, hpc, RPc.todo]
    omega
  case write | exited | fatal => cases hstep

theorem todo_stepRead {n : Nat} (hstep : stepRead BUF_SIZE s n = some s') :
    s'.todo + 1 ≤ s.todo := by
  rw [stepRead] at hstep
  split_ifs at hstep with hread
  obtain ⟨hpc, -, hlen, -⟩ := hread
  cases hstep
  simp only [State.todo, State.toWriter, State.readVal, hpc, WPc.todo, cnt_fill,
    List.length_take, List.length_drop, Nat.min_eq_left hlen]
  split <;> omega

theorem todo_stepWrite {n : Nat} (hstep : stepWrite s n = some s') : s'.todo + 1 ≤ s.todo := by
  rw [stepWrite] at hstep
  split at hstep
  · next hwrite =>
    cases hstep
    simp only [State.todo, State.toReader, State.readVal, hwrite.1]
    split <;> simp only [RPc.todo] <;> omega
  · cases hstep

theorem todo_step {e : Event} (hstep : step BUF_SIZE s e = some s') :
    s'.todo + (if e.Counts then 1 else 0) ≤ s.todo := by
  cases e with
  | writer =>
    rw [step] at hstep
    split_ifs at hstep with hdead
    exact todo_stepWriter (Bool.eq_false_iff.mpr hdead) hstep
  | read n =>
    rw [step] at hstep
    split_ifs at hstep
    exact todo_stepRead hstep
  | readFails =>
    rw [step] at hstep
    split_ifs at hstep with hread
    obtain ⟨hdead, hpc⟩ := not_or.mp hread
    cases hstep
    simp only [State.todo, State.dieWriter, State.readVal, not_not.mp hpc, WPc.todo,
      Bool.eq_false_iff.mpr hdead, Event.Counts, Bool.not_true, Bool.not_false, Bool.toNat_true,
      Bool.toNat_false, if_true]
    omega
  | reader =>
    rw [step] at hstep
    split_ifs at hstep with hdead
    exact todo_stepReader (Bool.eq_false_iff.mpr hdead) hstep
  | write n =>
    rw [step] at hstep
    split_ifs at hstep
    exact todo_stepWrite hstep
  | eintr p =>
    rw [step] at hstep
    split_ifs at hstep with hwaits hretry
    · cases hstep
      exact Nat.le_refl _
    · exact absurd rfl hretry
  | die p =>
    rw [step] at hstep
    split_ifs at hstep with hdead
    cases hstep
    cases p
    · exact todo_dieWriter (Bool.eq_false_iff.mpr hdead)
    · exact todo_dieReader (Bool.eq_false_iff.mpr hdead)

end Steps

section Progress

variable {BUF_SIZE : Nat} {input : Bytes} {s : State}

/-- In every phase but the last somebody can go on. -/
theorem exited_of_stuck (hsize : 0 < BUF_SIZE) (ht : Turns s) (hfatal : s.reader.pc ≠ .fatal)
    (hwriter : stepWriter s = none) (hreader : stepReader s = none)
    (hread : ∀ n, stepRead BUF_SIZE s n = none) (hwrite : ∀ n, stepWrite s n = none) :
    s.writer.pc = .exited ∧ s.reader.pc = .exited := by
  cases ht with
  | start _ hw => simp [stepWriter, hw] at hwriter
  | made hv hw => simp [stepWriter, hw, State.onWriteSem, hv] at hwriter
  | setup hv hw => rcases hw with hw | hw <;> simp [stepWriter, hw, State.onReadSem, hv] at hwriter
  | toWriter hv hw =>
    rcases hw with hw | hw | ⟨hw | hw, -⟩ <;>
      simp [stepWriter, hw, State.onWriteSem, hv, reserveSem] at hwriter
  | reading _ hw =>
    have hall := hread (min BUF_SIZE s.stdin.length)
    rw [stepRead, if_pos] at hall
    · cases hall
    · refine ⟨hw, Nat.min_le_left _ _, Nat.min_le_right _ _, fun hzero => ?_⟩
      exact List.eq_nil_of_length_eq_zero (by omega)
  | filled hv hw => simp [stepWriter, hw, State.onReadSem, hv, releaseSem, SEMVMX] at hwriter
  | toReader hv _ _ hr =>
    rcases hr with (hr | hr) | hr | hr | hr
    case inl.inr =>
      simp only [stepReader, hr] at hreader
      split at hreader <;> cases hreader
    all_goals simp [stepReader, hr, State.onReadSem, hv, reserveSem] at hreader
  | taken hv _ _ hr =>
    rcases hr with hr | ⟨hr | hr | hr, hcnt⟩ | ⟨hr | hr, -⟩
    · simp only [stepReader, hr] at hreader
      split at hreader <;> cases hreader
    · have hall := hwrite s.shm.cnt.toNat
      rw [stepWrite, if_pos ⟨hr, Nat.le_refl _⟩] at hall
      cases hall
    · simp [stepReader, hr, State.onWriteSem, hv, releaseSem, SEMVMX] at hreader
    · exact absurd hr hfatal
    · simp [stepReader, hr] at hreader
    · simp [stepReader, hr, State.onWriteSem, hv, releaseSem, SEMVMX] at hreader
  | last hv hw =>
    rcases hw with hw | hw <;>
      simp [stepWriter, hw, State.onWriteSem, hv, reserveSem] at hwriter
  | remove hv hw => simp [stepWriter, hw, hv] at hwriter
  | removed _ hw _ _ hr =>
    rcases hw with hw | hw | hw | hw
    case inr.inr.inr =>
      refine ⟨hw, ?_⟩
      rcases hr with hr | hr
      · simp [stepReader, hr] at hreader
      · exact hr
    all_goals simp [stepWriter, hw] at hwriter

/-- **Nobody waits for ever.**  Where no process can go on, and none has failed, both have
exited. -/
theorem stuck_exited (hsize : 0 < BUF_SIZE) (h : (system BUF_SIZE input).Reach s)
    (hsound : s.Sound) (hstuck : ∀ e : Event, e.Goes → step BUF_SIZE s e = none) :
    s.writer.pc = .exited ∧ s.reader.pc = .exited := by
  obtain ⟨hw, hr, hfatal⟩ := hsound
  refine exited_of_stuck hsize (turns_reach h) hfatal ?_ ?_ (fun n => ?_) fun n => ?_
  · have hnone := hstuck .writer trivial
    rwa [step, hw, if_neg Bool.false_ne_true] at hnone
  · have hnone := hstuck .reader trivial
    rwa [step, hr, if_neg Bool.false_ne_true] at hnone
  · have hnone := hstuck (.read n) trivial
    rwa [step, hw, if_neg Bool.false_ne_true] at hnone
  · have hnone := hstuck (.write n) trivial
    rwa [step, hr, if_neg Bool.false_ne_true] at hnone

end Progress

/-- **The transfer completes.**  A run has at most so many steps that are not the retry of an
interrupted `semop`, whatever the scheduling and however `read` cuts the input.  Where it cannot
go on although neither process has failed, both have exited, the output is the input, and both
have counted the same blocks and bytes. -/
theorem transfer_completes (BUF_SIZE : Nat) (input : Bytes) (hsize : 0 < BUF_SIZE)
    (es : List Event) (s : State)
    (h : (system BUF_SIZE input).exec (init BUF_SIZE input) es = some s) :
    es.countP Event.Counts ≤ 12 * input.length + 67 ∧
      (s.Sound → (∀ e : Event, e.Goes → step BUF_SIZE s e = none) →
        s.writer.pc = .exited ∧ s.reader.pc = .exited ∧ s.stdout = input ∧
          s.writer.xfrs = s.reader.xfrs ∧ s.writer.bytes = s.reader.bytes ∧
          s.reader.bytes = BitVec.ofNat 32 input.length) := by
  have hreach : (system BUF_SIZE input).Reach s := System.reach_of_exec h
  refine ⟨?_, fun hsound hstuck => ?_⟩
  · have hbound := System.countP_le_of_measure State.todo Event.Counts
      (fun t e t' hst => @todo_step BUF_SIZE t t' e hst) es h
    have hinit : (init BUF_SIZE input).todo = 12 * input.length + 67 := rfl
    omega
  · obtain ⟨hw, hr⟩ := stuck_exited hsize hreach hsound hstuck
    have hsafe := transfer_safe BUF_SIZE input s hreach
    obtain ⟨hout, -, -, -, hbytes⟩ := hsafe.received (.inr hr)
    obtain ⟨-, hxfrs, hsame⟩ := hsafe.removed (.inr (.inr (.inr (.inr hw))))
    exact ⟨hw, hr, hout, hxfrs, hsame, hbytes⟩

theorem transfer_completes_three :
    threeBytes.countP Event.Counts ≤ 103 ∧ threeBytesEnd.stdout = [1, 2, 3] := by
  have h := transfer_completes 2 [1, 2, 3] (by decide) threeBytes threeBytesEnd (by decide +kernel)
  refine ⟨h.1, (h.2 ⟨rfl, rfl, nofun⟩ fun e he => ?_).2.2.1⟩
  cases e with
  | eintr | die | readFails => exact he.elim
  | _ => simp [step, stepWriter, stepReader, stepRead, stepWrite, threeBytesEnd]

end Tlpi.SvshmXfr
