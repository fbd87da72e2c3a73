import Mathlib.Data.List.Nodup
import Tlpi.MkFifo.Model

/-!
# When every message is read

The reader takes the first moment at which no writer has the FIFO open for the end of
all writing.  `reader_too_early` is a run in which that moment comes between the two
writers: the second one then sleeps in `open` for ever, and the parent waits for it.

`InTime` is the condition that rules this out: when the reader finds the FIFO at end of
file, both writers have opened it before.  `all_read` says that in runs that meet it
nothing is lost and nobody is stuck.
-/

namespace Tlpi.MkFifo

open Tlpi.Lib

/-- The writer has called `open`. -/
def WriterPc.Opened (pc : WriterPc) : Prop := pc ≠ .unborn ∧ pc ≠ .start

instance (pc : WriterPc) : Decidable pc.Opened := inferInstanceAs (Decidable (_ ∧ _))

/-- A `read` at end of file comes after both writers have opened the FIFO. -/
def InTime (s : State) : Event → Prop
  | .reader _ =>
      s.reader = .loop → s.fifo.AtEof → (s.writer .one).Opened ∧ (s.writer .two).Opened
  | _ => True

instance (s : State) (e : Event) : Decidable (InTime s e) :=
  match e with
  | .parent => isTrue trivial
  | .reader _ => inferInstanceAs (Decidable (_ → _ → _ ∧ _))
  | .writer _ => isTrue trivial

/-! ### The invariant -/

/-- Descriptors that a reader holds. -/
def ReaderPc.held : ReaderPc → Nat
  | .opening _ | .loop | .closing => 1
  | _ => 0

/-- Opens that a reader has counted in. -/
def ReaderPc.opens : ReaderPc → Nat
  | .unborn | .start => 0
  | _ => 1

def WriterPc.held : WriterPc → Nat
  | .opening _ | .writing | .closing => 1
  | _ => 0

def WriterPc.opens : WriterPc → Nat
  | .unborn | .start => 0
  | _ => 1

/-- The message has been written. -/
def WriterPc.Wrote (pc : WriterPc) : Prop := pc = .closing ∨ pc = .exiting ∨ pc = .exited

/-- The writer has closed the FIFO after its message. -/
def WriterPc.Left (pc : WriterPc) : Prop := pc = .exiting ∨ pc = .exited

/-- What holds of the reader: it sleeps only before the first writer, and it leaves the
loop only after the last. -/
def ReaderInv (s : State) : Prop :=
  match s.reader with
  | .opening n => n = 0
  | .closing | .exiting | .exited => s.fifo.data = [] ∧ ∀ w, (s.writer w).Left
  | _ => True

/-- What holds of a writer: it sleeps only before the reader, and writes only after the
reader has opened the FIFO. -/
def WriterInv (s : State) (w : Writer) : Prop :=
  match s.writer w with
  | .unborn | .start => True
  | .opening n => n = 0
  | .killed => False
  | _ => s.reader.opens = 1

/-- What holds of the children while the parent forks them and waits for them. -/
def ParentInv (s : State) : Prop :=
  match s.parent with
  | .forkReader => s.reader = .unborn ∧ ∀ w, s.writer w = .unborn
  | .forkWriter .one => s.reader ≠ .unborn ∧ ∀ w, s.writer w = .unborn
  | .forkWriter .two => s.reader ≠ .unborn ∧ s.writer .one ≠ .unborn ∧ s.writer .two = .unborn
  | .waitWriter _ | .waitReader => s.reader ≠ .unborn ∧ ∀ w, s.writer w ≠ .unborn
  | .done => s.reader = .exited

structure Inv (message : Writer → Bytes) (s : State) : Prop where
  readers : s.fifo.readers = s.reader.held
  writers : s.fifo.writers = (s.writer .one).held + (s.writer .two).held
  rOpens : s.fifo.rOpens = s.reader.opens
  wOpens : s.fifo.wOpens = (s.writer .one).opens + (s.writer .two).opens
  reader : ReaderInv s
  writer : ∀ w, WriterInv s w
  parent : ParentInv s
  bytes : s.got ++ s.fifo.data = s.sent.flatMap message
  sent : ∀ w, w ∈ s.sent ↔ (s.writer w).Wrote
  nodup : s.sent.Nodup

variable {message : Writer → Bytes} {s s' : State}

theorem inv_init : Inv message init := by
  constructor <;> simp [init, Fifo.empty, ReaderPc.held, WriterPc.held, ReaderPc.opens,
    WriterPc.opens, ReaderInv, WriterInv, ParentInv, WriterPc.Wrote]

/-! ### Frames -/

/-- While a writer has not left, the reader is still in its loop or before it. -/
theorem readerInv_of_not_left {w : Writer} (h : ReaderInv s) (hw : ¬ (s.writer w).Left)
    (hr : s'.reader = s.reader) : ReaderInv s' := by
  rw [ReaderInv, hr]
  rw [ReaderInv] at h
  split at h
  · exact h
  · exact absurd (h.2 w) hw
  · exact absurd (h.2 w) hw
  · exact absurd (h.2 w) hw
  · trivial

/-- A step that changes writer `w` and the writing side of the FIFO. -/
theorem inv_of_writer {w : Writer} {pc : WriterPc} (h : Inv message s)
    (hw : s'.writer = Function.update s.writer w pc) (hr : s'.reader = s.reader)
    (hreaders : s'.fifo.readers = s.fifo.readers) (hrOpens : s'.fifo.rOpens = s.fifo.rOpens)
    (hwriters : s'.fifo.writers + (s.writer w).held = s.fifo.writers + pc.held)
    (hwOpens : s'.fifo.wOpens + (s.writer w).opens = s.fifo.wOpens + pc.opens)
    (hreader : ReaderInv s') (hwriter : WriterInv s' w) (hparent : ParentInv s')
    (hbytes : s'.got ++ s'.fifo.data = s'.sent.flatMap message)
    (hsent : ∀ v, v ∈ s'.sent ↔ if v = w then pc.Wrote else v ∈ s.sent) (hnodup : s'.sent.Nodup) :
    Inv message s' := by
  have hheld := h.writers
  have hopens := h.wOpens
  refine ⟨?_, ?_, ?_, ?_, hreader, ?_, hparent, hbytes, ?_, hnodup⟩
  · rw [hreaders, hr]
    exact h.readers
  · rw [hw]
    cases w <;> simp <;> omega
  · rw [hrOpens, hr]
    exact h.rOpens
  · rw [hw]
    cases w <;> simp <;> omega
  · intro v
    by_cases hv : v = w
    · rw [hv]
      exact hwriter
    · have := h.writer v
      rw [WriterInv, hw, Function.update_of_ne hv, hr]
      exact this
  · intro v
    rw [hsent v, hw]
    by_cases hv : v = w
    · rw [if_pos hv, hv, Function.update_self]
    · rw [if_neg hv, Function.update_of_ne hv]
      exact h.sent v

/-- A step of a writer that moves no bytes. -/
theorem inv_of_quietWriter (w : Writer) (pc : WriterPc) (h : Inv message s)
    (hw : s'.writer = Function.update s.writer w pc) (hr : s'.reader = s.reader)
    (hreaders : s'.fifo.readers = s.fifo.readers) (hrOpens : s'.fifo.rOpens = s.fifo.rOpens)
    (hwriters : s'.fifo.writers + (s.writer w).held = s.fifo.writers + pc.held)
    (hwOpens : s'.fifo.wOpens + (s.writer w).opens = s.fifo.wOpens + pc.opens)
    (hreader : ReaderInv s') (hwriter : WriterInv s' w) (hparent : ParentInv s')
    (hgot : s'.got = s.got) (hdata : s'.fifo.data = s.fifo.data) (hsent : s'.sent = s.sent)
    (hwrote : pc.Wrote ↔ (s.writer w).Wrote) : Inv message s' := by
  refine inv_of_writer h hw hr hreaders hrOpens hwriters hwOpens hreader hwriter hparent ?_ ?_ ?_
  · rw [hgot, hdata, hsent]
    exact h.bytes
  · intro v
    by_cases hv : v = w
    · rw [if_pos hv, hv, hsent, hwrote]
      exact h.sent w
    · rw [if_neg hv, hsent]
  · rw [hsent]
    exact h.nodup

/-- A step that changes the reader and the reading side of the FIFO. -/
theorem inv_of_reader (h : Inv message s) (hborn : s.reader ≠ .unborn) (hend : s.reader ≠ .exited)
    (hborn' : s'.reader ≠ .unborn) (hw : s'.writer = s.writer) (hp : s'.parent = s.parent)
    (hsent : s'.sent = s.sent) (hwriters : s'.fifo.writers = s.fifo.writers)
    (hwOpens : s'.fifo.wOpens = s.fifo.wOpens) (hreaders : s'.fifo.readers = s'.reader.held)
    (hrOpens : s'.fifo.rOpens = s'.reader.opens) (hopens : s'.reader.opens = 1)
    (hreader : ReaderInv s') (hbytes : s'.got ++ s'.fifo.data = s.got ++ s.fifo.data) :
    Inv message s' := by
  refine ⟨hreaders, ?_, hrOpens, ?_, hreader, ?_, ?_, ?_, ?_, ?_⟩
  · rw [hwriters, hw]
    exact h.writers
  · rw [hwOpens, hw]
    exact h.wOpens
  · intro w
    have hwriter := h.writer w
    rw [WriterInv] at hwriter ⊢
    rw [hw]
    split <;> simp_all
  · have hparent := h.parent
    rw [ParentInv, hp, hw]
    rw [ParentInv] at hparent
    split at hparent <;> simp_all
  · rw [hbytes, hsent]
    exact h.bytes
  · intro w
    rw [hsent, hw]
    exact h.sent w
  · rw [hsent]
    exact h.nodup

/-- A writer that has been born moves on. -/
theorem parentInv_of_writer (w : Writer) (pc : WriterPc) (h : ParentInv s)
    (hborn : s.writer w ≠ .unborn) (hborn' : pc ≠ .unborn) (hr : s'.reader = s.reader)
    (hp : s'.parent = s.parent) (hw : s'.writer = Function.update s.writer w pc) :
    ParentInv s' := by
  have hall : (∀ v, s.writer v ≠ .unborn) → ∀ v, s'.writer v ≠ .unborn := by
    intro hs v
    by_cases hv : v = w
    · rw [hw, hv, Function.update_self]
      exact hborn'
    · rw [hw, Function.update_of_ne hv]
      exact hs v
  rw [ParentInv] at h ⊢
  rw [hp, hr]
  split at h
  · exact absurd (h.2 w) hborn
  · exact absurd (h.2 w) hborn
  · cases w with
    | one => exact ⟨h.1, by rw [hw, Function.update_self]; exact hborn', by simpa [hw] using h.2.2⟩
    | two => exact absurd h.2.2 hborn
  · exact ⟨h.1, hall h.2⟩
  · exact ⟨h.1, hall h.2⟩
  · exact h

/-! ### The steps -/

/-- The parent forks writer `w`. -/
theorem inv_forkWriter {w : Writer} {pc : ParentPc} (h : Inv message s) (hw : s.writer w = .unborn)
    (hparent : ParentInv { s.setWriter w .start with parent := pc }) :
    Inv message { s.setWriter w .start with parent := pc } := by
  refine inv_of_quietWriter w .start h rfl rfl rfl rfl ?_ ?_ ?_ ?_ hparent rfl rfl rfl ?_
  · rw [hw]
    rfl
  · rw [hw]
    rfl
  · exact readerInv_of_not_left (w := w) h.reader (by simp [hw, WriterPc.Left]) rfl
  · simp [WriterInv, State.setWriter]
  · simp [hw, WriterPc.Wrote]

/-- The parent only forks and waits. -/
theorem inv_stepParent (h : Inv message s) (hstep : stepParent s = some s') : Inv message s' := by
  have hp := h.parent
  match hpc : s.parent with
  | .forkReader =>
    simp only [stepParent, hpc, Option.some.injEq] at hstep
    simp only [ParentInv, hpc] at hp
    subst hstep
    refine ⟨?_, h.writers, ?_, h.wOpens, trivial, ?_, ⟨nofun, hp.2⟩, h.bytes, h.sent, h.nodup⟩
    · rw [h.readers, hp.1]
      rfl
    · rw [h.rOpens, hp.1]
      rfl
    · intro w
      simp only [WriterInv, hp.2]
  | .forkWriter .one =>
    simp only [stepParent, hpc, Option.some.injEq] at hstep
    simp only [ParentInv, hpc] at hp
    subst hstep
    exact inv_forkWriter h (hp.2 .one) (by simp [ParentInv, State.setWriter, hp.1, hp.2])
  | .forkWriter .two =>
    simp only [stepParent, hpc, Option.some.injEq] at hstep
    simp only [ParentInv, hpc] at hp
    subst hstep
    refine inv_forkWriter h hp.2.2 ⟨hp.1, fun w => ?_⟩
    cases w <;> simp [State.setWriter, hp.2.1]
  | .waitWriter .one =>
    simp only [stepParent, hpc] at hstep
    split at hstep
    · cases hstep
      simp only [ParentInv, hpc] at hp
      exact { h with parent := hp }
    · cases hstep
  | .waitWriter .two =>
    simp only [stepParent, hpc] at hstep
    split at hstep
    · cases hstep
      simp only [ParentInv, hpc] at hp
      exact { h with parent := hp }
    · cases hstep
  | .waitReader =>
    simp only [stepParent, hpc] at hstep
    split at hstep
    · next hr =>
      cases hstep
      exact { h with parent := hr }
    · cases hstep
  | .done => simp [stepParent, hpc] at hstep

/-- Before the reader has opened the FIFO, a writer that has opened it is asleep. -/
theorem opens_eq_held {w : Writer} (h : WriterInv s w) (hr : s.reader.opens = 0) :
    (s.writer w).opens = (s.writer w).held := by
  rw [WriterInv] at h
  split at h <;> simp_all [WriterPc.opens, WriterPc.held]

/-- A writer that has opened the FIFO and holds no descriptor has left. -/
theorem left_of_held {w : Writer} (h : WriterInv s w) (ho : (s.writer w).Opened)
    (hheld : (s.writer w).held = 0) : (s.writer w).Left := by
  rw [WriterInv] at h
  cases hpc : s.writer w <;> simp_all [WriterPc.Opened, WriterPc.held, WriterPc.Left]

theorem inv_stepReader {k : Nat} (h : Inv message s) (hok : InTime s (.reader k))
    (hstep : stepReader s k = some s') : Inv message s' := by
  have hr := h.reader
  have hreaders := h.readers
  have hrOpens := h.rOpens
  cases hpc : s.reader with
  | unborn => simp [stepReader, hpc] at hstep
  | start =>
    simp only [stepReader, hpc, Option.some.injEq] at hstep
    subst hstep
    rw [hpc] at hreaders hrOpens
    have hone := opens_eq_held (h.writer .one) (by rw [hpc]; rfl)
    have htwo := opens_eq_held (h.writer .two) (by rw [hpc]; rfl)
    have hwriters := h.writers
    have hwOpens := h.wOpens
    by_cases hzero : s.fifo.writers = 0
    · refine inv_of_reader h (by simp [hpc]) (by simp [hpc]) ?_ rfl rfl rfl rfl rfl ?_ ?_ ?_ ?_ rfl <;>
        simp [Fifo.openRd, hreaders, hrOpens, hzero, ReaderPc.held, ReaderPc.opens, ReaderInv]
      omega
    · refine inv_of_reader h (by simp [hpc]) (by simp [hpc]) ?_ rfl rfl rfl rfl rfl ?_ ?_ ?_ ?_ rfl <;>
        simp [Fifo.openRd, hreaders, hrOpens, hzero, ReaderPc.held, ReaderPc.opens, ReaderInv]
  | opening n =>
    simp only [stepReader, hpc] at hstep
    split at hstep
    · cases hstep
      rw [hpc] at hreaders hrOpens
      exact inv_of_reader h (by simp [hpc]) (by simp [hpc]) nofun rfl rfl rfl rfl rfl hreaders hrOpens
        rfl trivial rfl
    · cases hstep
  | loop =>
    rw [hpc] at hreaders hrOpens
    simp only [stepReader, hpc] at hstep
    split at hstep
    · cases hstep
      refine inv_of_reader h (by simp [hpc]) (by simp [hpc]) nofun rfl rfl rfl rfl rfl hreaders
        hrOpens rfl trivial ?_
      simp only [Fifo.drop]
      rw [List.append_assoc, List.take_append_drop]
    · split at hstep
      · next hdata hzero =>
        cases hstep
        have hdata : s.fifo.data = [] := by simpa using hdata
        have hopened := hok hpc ⟨hdata, hzero⟩
        have hwriters := h.writers
        have hleft : ∀ w, (s.writer w).Left := by
          intro w
          cases w with
          | one => exact left_of_held (h.writer .one) hopened.1 (by omega)
          | two => exact left_of_held (h.writer .two) hopened.2 (by omega)
        exact inv_of_reader h (by simp [hpc]) (by simp [hpc]) nofun rfl rfl rfl rfl rfl hreaders
          hrOpens rfl ⟨hdata, hleft⟩ rfl
      · cases hstep
  | closing =>
    simp only [stepReader, hpc, Option.some.injEq] at hstep
    subst hstep
    simp only [ReaderInv, hpc] at hr
    rw [hpc] at hreaders hrOpens
    have hdata : s.fifo.closeRd.data = [] := Fifo.discard_data_of_nil hr.1
    refine inv_of_reader h (by simp [hpc]) (by simp [hpc]) nofun rfl rfl rfl ?_ ?_ ?_ ?_ rfl
      ⟨hdata, hr.2⟩ ?_
    · simp [Fifo.closeRd]
    · simp [Fifo.closeRd]
    · simp [Fifo.closeRd, hreaders, ReaderPc.held]
    · simp [Fifo.closeRd, hrOpens, ReaderPc.opens]
    · show s.got ++ s.fifo.closeRd.data = s.got ++ s.fifo.data
      rw [hdata, hr.1]
  | exiting =>
    simp only [stepReader, hpc, Option.some.injEq] at hstep
    subst hstep
    simp only [ReaderInv, hpc] at hr
    rw [hpc] at hreaders hrOpens
    exact inv_of_reader h (by simp [hpc]) (by simp [hpc]) nofun rfl rfl rfl rfl rfl hreaders hrOpens
      rfl hr rfl
  | exited => simp [stepReader, hpc] at hstep

/-- The reader holds its descriptor as long as it has opened the FIFO and some writer has
not left. -/
theorem reader_held {w : Writer} (h : Inv message s) (hw : ¬ (s.writer w).Left) :
    s.reader.held = s.reader.opens := by
  have hr := h.reader
  rw [ReaderInv] at hr
  split at hr
  · simp_all [ReaderPc.held, ReaderPc.opens]
  · exact absurd (hr.2 w) hw
  · exact absurd (hr.2 w) hw
  · exact absurd (hr.2 w) hw
  · cases hpc : s.reader <;> simp_all [ReaderPc.held, ReaderPc.opens]

theorem ReaderPc.opens_le (pc : ReaderPc) : pc.opens ≤ 1 := by
  cases pc <;> simp [ReaderPc.opens]

/-- A step that moves no bytes, of a writer that has not left. -/
theorem inv_of_presentWriter (w : Writer) (pc : WriterPc) (h : Inv message s)
    (hborn : s.writer w ≠ .unborn) (hborn' : pc ≠ .unborn) (hleft : ¬ (s.writer w).Left)
    (hw : s'.writer = Function.update s.writer w pc) (hr : s'.reader = s.reader)
    (hp : s'.parent = s.parent) (hreaders : s'.fifo.readers = s.fifo.readers)
    (hrOpens : s'.fifo.rOpens = s.fifo.rOpens)
    (hwriters : s'.fifo.writers + (s.writer w).held = s.fifo.writers + pc.held)
    (hwOpens : s'.fifo.wOpens + (s.writer w).opens = s.fifo.wOpens + pc.opens)
    (hwriter : WriterInv s' w) (hgot : s'.got = s.got) (hdata : s'.fifo.data = s.fifo.data)
    (hsent : s'.sent = s.sent) (hwrote : pc.Wrote ↔ (s.writer w).Wrote) : Inv message s' := by
  have hreader : ReaderInv s' := readerInv_of_not_left h.reader hleft hr
  have hparent : ParentInv s' := parentInv_of_writer w pc h.parent hborn hborn' hr hp hw
  exact inv_of_quietWriter w pc h hw hr hreaders hrOpens hwriters hwOpens hreader hwriter hparent hgot
    hdata hsent hwrote

/-- The writer calls `open`. -/
theorem inv_writerOpen {w : Writer} (h : Inv message s) (hpc : s.writer w = .start)
    (hstep : stepWriter message s w = some s') : Inv message s' := by
  have hreaders := h.readers
  have hrOpens := h.rOpens
  have hle := s.reader.opens_le
  have hheld := reader_held (w := w) h (by simp [hpc, WriterPc.Left])
  have hnext : ∀ pc : WriterPc, pc = .opening 0 ∨ pc = .writing ∧ s.reader.opens = 1 →
      Inv message { s.setWriter w pc with fifo := s.fifo.openWr } := by
    intro pc hpc'
    refine inv_of_presentWriter w pc h (by simp [hpc]) ?_ (by simp [hpc, WriterPc.Left]) rfl rfl rfl
      rfl rfl ?_ ?_ ?_ rfl rfl rfl ?_
    · rcases hpc' with rfl | ⟨rfl, -⟩ <;> exact nofun
    · rcases hpc' with rfl | ⟨rfl, -⟩ <;> simp [hpc, Fifo.openWr, WriterPc.held]
    · rcases hpc' with rfl | ⟨rfl, -⟩ <;> simp [hpc, Fifo.openWr, WriterPc.opens]
    · rcases hpc' with rfl | ⟨rfl, hopens⟩
      · simp [WriterInv, State.setWriter]
      · simpa [WriterInv, State.setWriter] using hopens
    · rcases hpc' with rfl | ⟨rfl, -⟩ <;> simp [hpc, WriterPc.Wrote]
  simp only [stepWriter, hpc, Option.some.injEq] at hstep
  subst hstep
  apply hnext
  by_cases hzero : s.fifo.readers = 0
  · rw [if_pos hzero]
    exact .inl (congrArg _ (by omega))
  · rw [if_neg hzero]
    exact .inr ⟨rfl, by omega⟩

/-- The reader has opened the FIFO, and so the writer wakes up. -/
theorem inv_writerOpening {w : Writer} {n : Nat} (h : Inv message s)
    (hpc : s.writer w = .opening n) (hstep : stepWriter message s w = some s') :
    Inv message s' := by
  have hw := h.writer w
  have hrOpens := h.rOpens
  have hle := s.reader.opens_le
  simp only [WriterInv, hpc] at hw
  simp only [stepWriter, hpc] at hstep
  split at hstep
  · cases hstep
    refine inv_of_presentWriter w .writing h (by simp [hpc]) nofun (by simp [hpc, WriterPc.Left]) rfl
      rfl rfl rfl rfl ?_ ?_ ?_ rfl rfl rfl ?_
    · simp [hpc, State.setWriter, WriterPc.held]
    · simp [hpc, State.setWriter, WriterPc.opens]
    · simp only [WriterInv, State.setWriter, Function.update_self]
      omega
    · simp [hpc, WriterPc.Wrote]
  · cases hstep

/-- The writer writes its message: the reader is there. -/
theorem inv_writerWrite {w : Writer} (h : Inv message s) (hpc : s.writer w = .writing)
    (hstep : stepWriter message s w = some s') : Inv message s' := by
  have hw := h.writer w
  have hreaders := h.readers
  have hheld := reader_held (w := w) h (by simp [hpc, WriterPc.Left])
  have hsent : w ∉ s.sent := by simp [h.sent w, hpc, WriterPc.Wrote]
  simp only [WriterInv, hpc] at hw
  simp only [stepWriter, hpc] at hstep
  split at hstep
  · omega
  · cases hstep
    refine inv_of_writer (w := w) h rfl rfl rfl rfl ?_ ?_ ?_ ?_ ?_ ?_ ?_ ?_
    · simp [hpc, Fifo.write, WriterPc.held]
    · simp [hpc, Fifo.write, WriterPc.opens]
    · exact readerInv_of_not_left (w := w) h.reader (by simp [hpc, WriterPc.Left]) rfl
    · simpa only [WriterInv, State.setWriter, Function.update_self] using hw
    · exact parentInv_of_writer w .closing h.parent (by simp [hpc]) nofun rfl rfl rfl
    · simp only [Fifo.write, State.setWriter]
      rw [← List.append_assoc, h.bytes, List.flatMap_append, List.flatMap_singleton]
    · intro v
      by_cases hv : v = w
      · simp [hv, WriterPc.Wrote]
      · simp [hv]
    · have := List.Nodup.concat hsent h.nodup
      rwa [List.concat_eq_append] at this

/-- The writer closes the FIFO, with its message in it or read. -/
theorem inv_writerClose {w : Writer} (h : Inv message s) (hpc : s.writer w = .closing)
    (hstep : stepWriter message s w = some s') : Inv message s' := by
  have hw := h.writer w
  have hreaders := h.readers
  have hheld := reader_held (w := w) h (by simp [hpc, WriterPc.Left])
  have hpos : 0 < s.fifo.writers := by
    have := h.writers
    cases w <;> simp [hpc, WriterPc.held] at this <;> omega
  simp only [WriterInv, hpc] at hw
  simp only [stepWriter, hpc, Option.some.injEq] at hstep
  subst hstep
  have hdata : s.fifo.closeWr.data = s.fifo.data :=
    Fifo.discard_data_of_readers (by simp only; omega)
  refine inv_of_presentWriter w .exiting h (by simp [hpc]) nofun (by simp [hpc, WriterPc.Left]) rfl rfl
    rfl ?_ ?_ ?_ ?_ ?_ rfl hdata rfl ?_
  · simp [Fifo.closeWr]
  · simp [Fifo.closeWr]
  · simp only [Fifo.closeWr, Fifo.discard_writers, hpc, WriterPc.held]
    omega
  · simp [Fifo.closeWr, hpc, WriterPc.opens]
  · simpa only [WriterInv, State.setWriter, Function.update_self] using hw
  · simp [hpc, WriterPc.Wrote]

/-- The writer ends; if the reader has left its loop, it may know. -/
theorem inv_writerExit {w : Writer} (h : Inv message s) (hpc : s.writer w = .exiting)
    (hstep : stepWriter message s w = some s') : Inv message s' := by
  have hw := h.writer w
  have hr := h.reader
  simp only [WriterInv, hpc] at hw
  simp only [stepWriter, hpc, Option.some.injEq] at hstep
  subst hstep
  have hleft : (∀ v, (s.writer v).Left) → ∀ v, ((s.setWriter w .exited).writer v).Left := by
    intro hs v
    by_cases hv : v = w
    · simp [hv, State.setWriter, WriterPc.Left]
    · simp only [State.setWriter, Function.update_of_ne hv]
      exact hs v
  refine inv_of_quietWriter w .exited h rfl rfl rfl rfl ?_ ?_ ?_ ?_ ?_ rfl rfl rfl ?_
  · simp [hpc, State.setWriter, WriterPc.held]
  · simp [hpc, State.setWriter, WriterPc.opens]
  · have hsame : (s.setWriter w .exited).reader = s.reader := rfl
    rw [ReaderInv] at hr ⊢
    rw [hsame]
    split at hr
    · exact hr
    · exact ⟨hr.1, hleft hr.2⟩
    · exact ⟨hr.1, hleft hr.2⟩
    · exact ⟨hr.1, hleft hr.2⟩
    · trivial
  · simpa only [WriterInv, State.setWriter, Function.update_self] using hw
  · exact parentInv_of_writer w .exited h.parent (by simp [hpc]) nofun rfl rfl rfl
  · simp [hpc, WriterPc.Wrote]

theorem inv_stepWriter {w : Writer} (h : Inv message s) (hstep : stepWriter message s w = some s') :
    Inv message s' := by
  cases hpc : s.writer w with
  | unborn => simp [stepWriter, hpc] at hstep
  | start => exact inv_writerOpen h hpc hstep
  | opening n => exact inv_writerOpening h hpc hstep
  | writing => exact inv_writerWrite h hpc hstep
  | closing => exact inv_writerClose h hpc hstep
  | exiting => exact inv_writerExit h hpc hstep
  | exited => simp [stepWriter, hpc] at hstep
  | killed => simp [stepWriter, hpc] at hstep

theorem inv_step {e : Event} (h : Inv message s) (hok : InTime s e)
    (hstep : step message s e = some s') : Inv message s' := by
  cases e with
  | parent => exact inv_stepParent h hstep
  | reader k => exact inv_stepReader h hok hstep
  | writer w => exact inv_stepWriter h hstep

/-! ### Progress -/

/-- A writer that has been born and cannot step has ended, or the reader has not opened
the FIFO. -/
theorem stepWriter_eq_none {w : Writer} (h : Inv message s) (hborn : s.writer w ≠ .unborn)
    (hstep : stepWriter message s w = none) : s.writer w = .exited ∨ s.reader.opens = 0 := by
  have hw := h.writer w
  have hrOpens := h.rOpens
  cases hpc : s.writer w <;> simp only [WriterInv, hpc] at hw <;> simp [stepWriter, hpc] at hstep
  case unborn => exact absurd hpc hborn
  case opening n => exact .inr (by omega)
  case writing => split at hstep <;> cases hstep
  case exited => exact .inl rfl

/-- With both writers gone, the reader goes on to its end. -/
theorem stepReader_of_exited (h : Inv message s) (hborn : s.reader ≠ .unborn)
    (hw : ∀ w, s.writer w = .exited) (hr : s.reader ≠ .exited) :
    InTime s (.reader 0) ∧ (stepReader s 0).isSome := by
  have hwriters := h.writers
  have hwOpens := h.wOpens
  have hreader := h.reader
  rw [hw, hw] at hwriters hwOpens
  refine ⟨fun _ _ => by simp [hw, WriterPc.Opened], ?_⟩
  cases hpc : s.reader <;> simp only [ReaderInv, hpc] at hreader <;> simp only [stepReader, hpc]
  case unborn => exact absurd hpc hborn
  case opening n =>
    rw [if_pos (by rw [hwOpens, hreader]; decide)]
    rfl
  case loop =>
    split
    · rfl
    · rw [if_pos (show s.fifo.writers = 0 from hwriters)]
      rfl
  case exited => exact absurd hpc hr
  all_goals rfl

/-- Somebody can go on until the parent is back from its last `waitpid`. -/
theorem can_step (h : Inv message s) (hdone : s.parent ≠ .done) :
    ∃ e, InTime s e ∧ (step message s e).isSome := by
  have hp := h.parent
  by_cases hparent : (stepParent s).isSome
  · exact ⟨.parent, trivial, hparent⟩
  by_cases hwriter : ∃ w, (stepWriter message s w).isSome
  · obtain ⟨w, hw⟩ := hwriter
    exact ⟨.writer w, trivial, hw⟩
  have hborn : s.reader ≠ .unborn ∧ ∀ w, s.writer w ≠ .unborn := by
    match hpc : s.parent with
    | .forkReader => simp [stepParent, hpc] at hparent
    | .forkWriter .one => simp [stepParent, hpc] at hparent
    | .forkWriter .two => simp [stepParent, hpc] at hparent
    | .waitWriter _ => simpa only [ParentInv, hpc] using hp
    | .waitReader => simpa only [ParentInv, hpc] using hp
    | .done => exact absurd hpc hdone
  by_cases hstart : s.reader = .start
  · exact ⟨.reader 0, fun hloop => by simp [hstart] at hloop, by simp [step, stepReader, hstart]⟩
  have hopens : s.reader.opens ≠ 0 := by
    cases hpc : s.reader <;> simp_all [ReaderPc.opens]
  have hw : ∀ w, s.writer w = .exited := by
    intro w
    have hnone : stepWriter message s w = none := by
      rw [← Option.not_isSome_iff_eq_none]
      exact fun hsome => hwriter ⟨w, hsome⟩
    exact (stepWriter_eq_none h (hborn.2 w) hnone).resolve_right hopens
  have hr : s.reader ≠ .exited := by
    intro hr
    match hpc : s.parent with
    | .forkReader => simp [stepParent, hpc] at hparent
    | .forkWriter .one => simp [stepParent, hpc] at hparent
    | .forkWriter .two => simp [stepParent, hpc] at hparent
    | .waitWriter .one => simp [stepParent, hpc, hw, WriterPc.Ended] at hparent
    | .waitWriter .two => simp [stepParent, hpc, hw, WriterPc.Ended] at hparent
    | .waitReader => simp [stepParent, hpc, hr] at hparent
    | .done => exact absurd hpc hdone
  exact ⟨.reader 0, stepReader_of_exited h hborn.1 hw hr⟩

/-- **Every message is read, and nobody is stuck**, in every run in which the reader finds
the end of file only after both writers have opened the FIFO.  At any time the reader has
got what has been sent, but for what is still in the FIFO; no writer is killed; when the
reader has left its loop, and so when the parent is back from its last `waitpid`, both
messages have been sent and all has been read; and until then some process can step. -/
theorem all_read (h : (system message).ReachBy InTime s) :
    s.got ++ s.fifo.data = s.sent.flatMap message ∧ s.sent.Nodup ∧
    (∀ w, s.writer w ≠ .killed) ∧
    (s.reader = .closing ∨ s.reader = .exiting ∨ s.reader = .exited ∨ s.parent = .done →
      s.got = s.sent.flatMap message ∧ ∀ w, w ∈ s.sent) ∧
    (s.parent ≠ .done → ∃ e, InTime s e ∧ (step message s e).isSome) := by
  have hinv : Inv message s := System.ReachBy.invariant inv_init (fun _ _ _ => inv_step) h
  refine ⟨hinv.bytes, hinv.nodup, ?_, ?_, can_step hinv⟩
  · intro w hw
    have := hinv.writer w
    simp only [WriterInv, hw] at this
  · intro hend
    have hleft : s.fifo.data = [] ∧ ∀ w, (s.writer w).Left := by
      have hr := hinv.reader
      have hp := hinv.parent
      rcases hend with hpc | hpc | hpc | hpc
      · simpa only [ReaderInv, hpc] using hr
      · simpa only [ReaderInv, hpc] using hr
      · simpa only [ReaderInv, hpc] using hr
      · simp only [ParentInv, hpc] at hp
        simpa only [ReaderInv, hp] using hr
    have hbytes := hinv.bytes
    rw [hleft.1, List.append_nil] at hbytes
    exact ⟨hbytes, fun w => (hinv.sent w).mpr (.inr (hleft.2 w))⟩

/-- Two messages of one byte. -/
def digits : Writer → Bytes
  | .one => [49]
  | .two => [50]

/-- With a second writer that comes while the first is still there, both messages arrive. -/
theorem all_read_overlapping :
    ∃ s, (system digits).execBy InTime init
        [.parent, .parent, .parent, .reader 0, .writer .one, .writer .two, .writer .one, .writer .one,
          .reader 0, .writer .two, .writer .two, .writer .one, .reader 9, .reader 9, .reader 0,
          .reader 0, .writer .two, .parent, .parent, .parent] = some s ∧
      s.parent = .done ∧ s.got = [49, 50] := by
  obtain ⟨s, hs, hdone, hsent⟩ : ∃ s, (system digits).execBy InTime init
      [.parent, .parent, .parent, .reader 0, .writer .one, .writer .two, .writer .one, .writer .one,
        .reader 0, .writer .two, .writer .two, .writer .one, .reader 9, .reader 9, .reader 0,
        .reader 0, .writer .two, .parent, .parent, .parent] = some s ∧
      s.parent = .done ∧ s.sent = [.one, .two] := ⟨_, rfl, rfl, rfl⟩
  have hread := (all_read (System.reachBy_of_execBy hs)).2.2.2.1 (.inr (.inr (.inr hdone)))
  refine ⟨s, hs, hdone, ?_⟩
  rw [hread.1, hsent]
  rfl

/-- **The reader stops too early.**  The first writer comes and goes, the reader finds the
end of file and leaves, and the second writer is asleep in `open`: its message is never
sent, the parent waits for it, and no process can step. -/
theorem reader_too_early :
    ∃ s, (system digits).exec init
        [.parent, .parent, .parent, .reader 0, .writer .one, .reader 0, .writer .one, .writer .one,
          .writer .one, .reader 9, .reader 0, .reader 0, .reader 0, .writer .two, .parent] = some s ∧
      s.parent = .waitWriter .two ∧ s.writer .two = .opening 1 ∧ s.got = [49] ∧
      ∀ e, (system digits).step s e = none := by
  refine ⟨_, rfl, rfl, rfl, rfl, ?_⟩
  intro e
  cases e with
  | parent => rfl
  | reader k => rfl
  | writer w => cases w <;> rfl

end Tlpi.MkFifo
