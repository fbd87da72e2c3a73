import Mathlib.Data.List.Infix
import Tlpi.SvshmXfr.Turns

/-!
# What is transferred

The blocks that the writer has read are its input as far as it has come (`Flow.input`), and what
the reader has written is these blocks without the one that is still to be written
(`Flow.blocks`).  Both processes count blocks and bytes on the way.

* `flow_step`: every step keeps this.
-/

namespace Tlpi.SvshmXfr

open Tlpi.Lib

/-- The writer has a block in the segment that it has not counted. -/
def WPc.Filled (pc : WPc) : Prop := pc = .release ∨ pc = .test ∨ pc = .next

instance (pc : WPc) : Decidable pc.Filled := inferInstanceAs (Decidable (_ ∨ _))

/-- The value of `READ_SEM`. -/
def State.readVal (s : State) : Nat := s.sems.elim 0 Sems.read

/-- The reader has still to write the block in the segment. -/
def State.Unread (s : State) : Prop :=
  s.writer.pc = .release ∨ s.readVal ≠ 0 ∨ s.reader.pc = .test ∨ s.reader.pc = .write

instance (s : State) : Decidable s.Unread := inferInstanceAs (Decidable (_ ∨ _))

/-- The block that is still to be written. -/
def State.pending (s : State) : Bytes := if s.Unread then s.shm.data else []

/-- The blocks that the writer has read, as it will have counted them. -/
def State.writerXfrs (s : State) : BitVec 32 :=
  s.writer.xfrs + if s.writer.pc.Filled ∧ s.shm.cnt ≠ 0 then 1 else 0

/-- The bytes that the writer has read, as it will have counted them. -/
def State.writerBytes (s : State) : BitVec 32 :=
  s.writer.bytes + if s.writer.pc.Filled then BitVec.ofInt 32 s.shm.cnt else 0

/-- The blocks that the writer has read, as the reader will have counted them. -/
def State.readerXfrs (s : State) : BitVec 32 :=
  s.reader.xfrs + (if s.reader.pc = .release ∨ s.reader.pc = .next then 1 else 0) +
    if s.Unread ∧ s.shm.cnt ≠ 0 then 1 else 0

/-- The bytes that the reader has written, as it has counted them. -/
def State.readerBytes (s : State) : BitVec 32 :=
  s.reader.bytes - if s.reader.pc = .write then BitVec.ofInt 32 s.shm.cnt else 0

structure Flow (BUF_SIZE : Nat) (input : Bytes) (blocks : List Bytes) (s : State) : Prop where
  input : input = blocks.flatten ++ s.stdin
  sizes : ∀ b ∈ blocks, b ≠ [] ∧ b.length ≤ BUF_SIZE
  stdout : s.reader.pc ≠ .fatal → blocks.flatten = s.stdout ++ s.pending
  part : s.stdout <+: blocks.flatten
  writerXfrs : s.writerXfrs = BitVec.ofNat 32 blocks.length
  writerBytes : s.writerBytes = BitVec.ofNat 32 blocks.flatten.length
  readerXfrs : s.reader.pc ≠ .fatal → s.readerXfrs = BitVec.ofNat 32 blocks.length
  readerBytes : s.reader.pc ≠ .fatal → s.readerBytes = BitVec.ofNat 32 s.stdout.length

section Steps

variable {BUF_SIZE : Nat} {input : Bytes} {blocks : List Bytes} {s s' : State}

theorem flow_init (BUF_SIZE : Nat) (input : Bytes) : 
    Flow BUF_SIZE input [] (init BUF_SIZE input) := by
  constructor <;> simp [init, State.writerXfrs, State.writerBytes, State.readerXfrs,
    State.readerBytes, State.pending, State.Unread, WPc.Filled, State.readVal]

/-- A step of the writer that leaves its input and the segment as they are. -/
theorem flow_of_writer (h : Flow BUF_SIZE input blocks s) (hstdin : s'.stdin = s.stdin)
    (hstdout : s'.stdout = s.stdout) (hshm : s'.shm = s.shm) (hreader : s'.reader = s.reader)
    (hunread : s'.Unread ↔ s.Unread) (hxfrs : s'.writerXfrs = s.writerXfrs)
    (hbytes : s'.writerBytes = s.writerBytes) : Flow BUF_SIZE input blocks s' := by
  have hpending : s'.pending = s.pending := by simp only [State.pending, hunread, hshm]
  have hrx : s'.readerXfrs = s.readerXfrs := by
    simp only [State.readerXfrs, hreader, hunread, hshm]
  have hrb : s'.readerBytes = s.readerBytes := by simp only [State.readerBytes, hreader, hshm]
  refine ⟨?_, h.sizes, ?_, ?_, ?_, ?_, ?_, ?_⟩
  · rw [hstdin, h.input]
  · rw [hreader, hstdout, hpending]
    exact h.stdout
  · rw [hstdout]
    exact h.part
  · rw [hxfrs, h.writerXfrs]
  · rw [hbytes, h.writerBytes]
  · rw [hreader, hrx]
    exact h.readerXfrs
  · rw [hreader, hrb, hstdout]
    exact h.readerBytes

/-- A step of the reader that leaves its output as it is. -/
theorem flow_of_reader (h : Flow BUF_SIZE input blocks s) (hstdin : s'.stdin = s.stdin)
    (hstdout : s'.stdout = s.stdout) (hshm : s'.shm = s.shm) (hwriter : s'.writer = s.writer)
    (hpc : s.reader.pc ≠ .fatal) (hpending : s'.pending = s.pending)
    (hxfrs : s'.readerXfrs = s.readerXfrs) (hbytes : s'.readerBytes = s.readerBytes) :
    Flow BUF_SIZE input blocks s' := by
  have hwx : s'.writerXfrs = s.writerXfrs := by simp only [State.writerXfrs, hwriter, hshm]
  have hwb : s'.writerBytes = s.writerBytes := by simp only [State.writerBytes, hwriter, hshm]
  refine ⟨?_, h.sizes, fun _ => ?_, ?_, ?_, ?_, fun _ => ?_, fun _ => ?_⟩
  · rw [hstdin, h.input]
  · rw [hstdout, hpending]
    exact h.stdout hpc
  · rw [hstdout]
    exact h.part
  · rw [hwx, h.writerXfrs]
  · rw [hwb, h.writerBytes]
  · rw [hxfrs]
    exact h.readerXfrs hpc
  · rw [hbytes, hstdout]
    exact h.readerBytes hpc

theorem flow_dieWriter (h : Flow BUF_SIZE input blocks s) : Flow BUF_SIZE input blocks s.dieWriter :=
  flow_of_writer h rfl rfl rfl rfl Iff.rfl rfl rfl

theorem flow_dieReader (h : Flow BUF_SIZE input blocks s) : Flow BUF_SIZE input blocks s.dieReader :=
  ⟨h.input, h.sizes, h.stdout, h.part, h.writerXfrs, h.writerBytes, h.readerXfrs, h.readerBytes⟩

theorem flow_die {p : Proc} (h : Flow BUF_SIZE input blocks s) :
    Flow BUF_SIZE input blocks (s.die p) := by
  cases p
  · exact flow_dieWriter h
  · exact flow_dieReader h

/-- The writer goes on without counting anything. -/
theorem flow_toWriter {sems : Option Sems} {pc : WPc} (h : Flow BUF_SIZE input blocks s)
    (hunread : s.writer.pc = .release ∨ s.readVal ≠ 0 ↔ pc = .release ∨ sems.elim 0 Sems.read ≠ 0)
    (hfilled : (pc.Filled ↔ s.writer.pc.Filled) ∨ s.shm.cnt = 0) :
    Flow BUF_SIZE input blocks ({ s with sems := sems }.toWriter pc) := by
  refine flow_of_writer h rfl rfl rfl rfl ?_ ?_ ?_
  · simp only [State.Unread, State.toWriter, State.readVal, ← or_assoc] at hunread ⊢
    rw [hunread]
  · rcases hfilled with hfilled | hcnt
    · simp only [State.writerXfrs, State.toWriter, hfilled]
    · simp [State.writerXfrs, State.toWriter, hcnt]
  · rcases hfilled with hfilled | hcnt
    · simp only [State.writerBytes, State.toWriter, hfilled]
    · simp [State.writerBytes, State.toWriter, hcnt]

/-- The reader goes on without counting anything. -/
theorem flow_toReader {sems : Option Sems} {pc : RPc} (h : Flow BUF_SIZE input blocks s)
    (hpc : s.reader.pc ≠ .fatal)
    (hunread : (s.readVal ≠ 0 ∨ s.reader.pc = .test ∨ s.reader.pc = .write ↔
      sems.elim 0 Sems.read ≠ 0 ∨ pc = .test ∨ pc = .write) ∨ s.shm.cnt = 0)
    (hcounted : s.reader.pc = .release ∨ s.reader.pc = .next ↔ pc = .release ∨ pc = .next)
    (hwrite : s.reader.pc ≠ .write ∧ pc ≠ .write) :
    Flow BUF_SIZE input blocks ({ s with sems := sems }.toReader pc) := by
  have hsame : ({ s with sems := sems }.toReader pc).Unread ∧ s.shm.cnt ≠ 0 ↔
      s.Unread ∧ s.shm.cnt ≠ 0 := by
    rcases hunread with hunread | hcnt
    · simp only [State.Unread, State.toReader]
      rw [hunread]
      rfl
    · simp [hcnt]
  refine flow_of_reader h rfl rfl rfl rfl hpc ?_ ?_ ?_
  · by_cases hcnt : s.shm.cnt = 0
    · simp [State.pending, State.toReader, Shmseg.data, hcnt]
    · simp only [and_iff_left (show s.shm.cnt ≠ 0 from hcnt)] at hsame
      simp only [State.pending, hsame]
      rfl
  · have hrx : ({ s with sems := sems }.toReader pc).readerXfrs =
        s.reader.xfrs + (if pc = .release ∨ pc = .next then 1 else 0) +
          if ({ s with sems := sems }.toReader pc).Unread ∧ s.shm.cnt ≠ 0 then 1 else 0 := rfl
    rw [hrx]
    simp only [hsame, ← hcounted, State.readerXfrs]
  · simp [State.readerBytes, State.toReader, hwrite.1, hwrite.2]

theorem flow_stepWriter (h : Flow BUF_SIZE input blocks s) (ht : Turns s)
    (hstep : stepWriter s = some s') : Flow BUF_SIZE input blocks s' := by
  cases hpc : s.writer.pc <;> simp only [stepWriter, hpc] at hstep
  case initAvailable | reserve | lastReserve =>
    rcases State.onWriteSem_cases hstep with rfl | ⟨v, x, hv, hx, rfl⟩
    · exact flow_dieWriter h
    · exact flow_toWriter h (by simp [hpc, State.readVal, hv]) (by simp [hpc, WPc.Filled])
  case initInUse =>
    have hzero : s.readVal = 0 := ht.readVal_of_sems (by simp [hpc])
    rcases State.onReadSem_cases hstep with rfl | ⟨v, x, hv, hx, rfl⟩
    · exact flow_dieWriter h
    · cases hx
      exact flow_toWriter h (by simp [hpc, hzero, initSemInUse]) (by simp [hpc, WPc.Filled])
  case release =>
    rcases State.onReadSem_cases hstep with rfl | ⟨v, x, hv, hx, rfl⟩
    · exact flow_dieWriter h
    · have hx' := (releaseSem_eq_done.mp hx).2
      exact flow_toWriter h (by simp [hpc, hx']) (by simp [hpc, WPc.Filled])
  case test =>
    cases hstep
    refine flow_toWriter h ?_ ?_
    · split <;> simp [hpc, State.readVal]
    · by_cases hcnt : s.shm.cnt = 0
      · exact .inr hcnt
      · simp [hpc, hcnt, WPc.Filled]
  case next =>
    have hcnt := ht.cnt_of_next hpc
    cases hstep
    refine flow_of_writer h rfl rfl rfl rfl ?_ ?_ ?_
    · simp [State.Unread, State.readVal, hpc]
    · simp [State.writerXfrs, WPc.Filled, hpc, hcnt]
    · simp [State.writerBytes, WPc.Filled, hpc]
  case rmSem =>
    have hzero : s.readVal = 0 := ht.readVal_of_sems (by simp [hpc])
    split at hstep
    · cases hstep
      exact flow_dieWriter h
    · cases hstep
      exact flow_toWriter h (by simp [hpc, hzero]) (by simp [hpc, WPc.Filled])
  case semget =>
    have hzero : s.readVal = 0 := ht.readVal_of_sems (by simp [hpc])
    cases hstep
    exact flow_toWriter h (by simp [hpc, hzero]) (by simp [hpc, WPc.Filled])
  case shmat | shmdt | print =>
    cases hstep
    exact flow_toWriter h (by simp [hpc, State.readVal]) (by simp [hpc, WPc.Filled])
  case shmget | rmShm =>
    cases hstep
    refine flow_of_writer h rfl rfl rfl rfl ?_ ?_ ?_
    · simp [State.Unread, State.readVal, State.toWriter, hpc]
    · simp [State.writerXfrs, WPc.Filled, State.toWriter, hpc]
    · simp [State.writerBytes, WPc.Filled, State.toWriter, hpc]
  case read | exited => cases hstep

theorem flow_stepReader (h : Flow BUF_SIZE input blocks s)
    (hstep : stepReader s = some s') : Flow BUF_SIZE input blocks s' := by
  cases hpc : s.reader.pc <;> simp only [stepReader, hpc] at hstep
  case semget =>
    split at hstep <;> cases hstep
    · exact flow_dieReader h
    · exact flow_toReader h (by simp [hpc]) (by simp [hpc, State.readVal]) (by simp [hpc])
        (by simp [hpc])
  case shmget =>
    split at hstep <;> cases hstep
    · exact flow_toReader h (by simp [hpc]) (by simp [hpc, State.readVal]) (by simp [hpc])
        (by simp [hpc])
    · exact flow_dieReader h
  case reserve =>
    rcases State.onReadSem_cases hstep with rfl | ⟨v, x, hv, hx, rfl⟩
    · exact flow_dieReader h
    · have hx' := reserveSem_eq_done.mp hx
      exact flow_toReader h (by simp [hpc]) (by simp [State.readVal, hv, hx']) (by simp [hpc])
        (by simp [hpc])
  case test =>
    split at hstep
    · next hcnt =>
      cases hstep
      exact flow_toReader h (by simp [hpc]) (.inr hcnt) (by simp [hpc]) (by simp [hpc])
    · next hcnt =>
      cases hstep
      refine flow_of_reader h rfl rfl rfl rfl (by simp [hpc]) ?_ ?_ ?_
      · simp [State.pending, State.Unread, hpc]
      · simp [State.readerXfrs, State.Unread, hpc]
      · simp [State.readerBytes, hpc, BitVec.add_sub_cancel]
  case release | lastRelease =>
    rcases State.onWriteSem_cases hstep with rfl | ⟨v, x, hv, hx, rfl⟩
    · exact flow_dieReader h
    · exact flow_toReader h (by simp [hpc]) (by simp [hpc, State.readVal, hv]) (by simp [hpc])
        (by simp [hpc])
  case next =>
    cases hstep
    refine flow_of_reader h rfl rfl rfl rfl (by simp [hpc]) ?_ ?_ ?_
    · simp [State.pending, State.Unread, State.readVal, hpc]
    · simp [State.readerXfrs, State.Unread, State.readVal, hpc]
    · simp [State.readerBytes, hpc]
  case shmat | shmdt | print =>
    cases hstep
    exact flow_toReader h (by simp [hpc]) (by simp [hpc, State.readVal]) (by simp [hpc])
      (by simp [hpc])
  case write | exited | fatal => cases hstep

/-- The blocks when `block` has been read as well; an empty one is the end of the input. -/
def withBlock (blocks : List Bytes) (block : Bytes) : List Bytes :=
  if block = [] then blocks else blocks ++ [block]

theorem flatten_withBlock (blocks : List Bytes) (block : Bytes) :
    (withBlock blocks block).flatten = blocks.flatten ++ block := by
  rw [withBlock]
  split
  · next hb => simp [hb]
  · simp

theorem length_withBlock (blocks : List Bytes) (block : Bytes) :
    (withBlock blocks block).length = blocks.length + if block = [] then 0 else 1 := by
  rw [withBlock]
  split <;> simp

@[simp] theorem data_fill (m : Shmseg) (block : Bytes) : (m.fill block).data = block := by
  simp [Shmseg.data, Shmseg.fill]

@[simp] theorem cnt_fill (m : Shmseg) (block : Bytes) : (m.fill block).cnt = block.length := rfl

/-- When the writer reads, all that it has read before has been written. -/
theorem not_unread (ht : Turns s) (hpc : s.writer.pc = .read) : ¬ s.Unread := by
  obtain ⟨hv, hr⟩ := ht.reading_of_read hpc
  rintro (hw | hread | hr' | hr')
  · simp [hpc] at hw
  · exact hread (by simp [State.readVal, hv])
  · simp [hr', RPc.Waiting, RPc.Early] at hr
  · simp [hr', RPc.Waiting, RPc.Early] at hr

theorem flow_readFails (h : Flow BUF_SIZE input blocks s) (ht : Turns s)
    (hpc : s.writer.pc = .read) :
    Flow BUF_SIZE input blocks { s with shm := { s.shm with cnt := -1 } } := by
  have hunread := not_unread ht hpc
  have hunread' : ¬ ({ s with shm := { s.shm with cnt := -1 } } : State).Unread := hunread
  have hwrite : s.reader.pc ≠ .write := fun hr => hunread (.inr (.inr (.inr hr)))
  have hfilled : ¬ s.writer.pc.Filled := by simp [hpc, WPc.Filled]
  refine ⟨h.input, h.sizes, fun hf => ?_, h.part, ?_, ?_, fun hf => ?_, fun hf => ?_⟩
  · rw [h.stdout hf]
    simp [State.pending, hunread, hunread']
  · rw [← h.writerXfrs]
    simp [State.writerXfrs, hfilled]
  · rw [← h.writerBytes]
    simp [State.writerBytes, hfilled]
  · rw [← h.readerXfrs hf]
    simp [State.readerXfrs, hunread, hunread']
  · rw [← h.readerBytes hf]
    simp [State.readerBytes, hwrite]

theorem flow_stepRead {n : Nat} (h : Flow BUF_SIZE input blocks s) (ht : Turns s)
    (hstep : stepRead BUF_SIZE s n = some s') :
    Flow BUF_SIZE input (withBlock blocks (s.stdin.take n)) s' := by
  rw [stepRead] at hstep
  split_ifs at hstep with hread
  obtain ⟨hpc, hsize, hlen, -⟩ := hread
  cases hstep
  have hunread := not_unread ht hpc
  have hwrite : s.reader.pc ≠ .write := fun hr => hunread (.inr (.inr (.inr hr)))
  have hxfrs := h.writerXfrs
  have hbytes := h.writerBytes
  have hrx := h.readerXfrs
  have hrb := h.readerBytes
  have hout := h.stdout
  simp only [State.writerXfrs, State.writerBytes, State.readerXfrs, State.readerBytes,
    State.pending, hunread, hpc, hwrite, WPc.Filled] at hxfrs hbytes hrx hrb hout
  generalize hblock : s.stdin.take n = block
  refine ⟨?_, ?_, fun hf => ?_, ?_, ?_, ?_, fun hf => ?_, fun hf => ?_⟩
  · rw [flatten_withBlock, List.append_assoc, ← hblock]
    simp only [State.toWriter, List.take_append_drop]
    exact h.input
  · intro b hb
    rw [withBlock] at hb
    split at hb
    · exact h.sizes b hb
    · next hne =>
      rcases List.mem_append.mp hb with hb | hb
      · exact h.sizes b hb
      · rw [List.mem_singleton.mp hb]
        refine ⟨hne, ?_⟩
        rw [← hblock, List.length_take]
        omega
  · rw [flatten_withBlock, hout hf]
    simp [State.pending, State.Unread, State.toWriter]
  · rw [flatten_withBlock]
    exact h.part.trans (List.prefix_append _ _)
  · rw [length_withBlock, BitVec.ofNat_add, ← hxfrs]
    simp [State.writerXfrs, State.toWriter, WPc.Filled, apply_ite (BitVec.ofNat 32)]
  · rw [flatten_withBlock, List.length_append, BitVec.ofNat_add, ← hbytes]
    simp [State.writerBytes, State.toWriter, WPc.Filled]
  · rw [length_withBlock, BitVec.ofNat_add, ← hrx hf]
    by_cases hempty : block = []
    · simp [State.readerXfrs, State.toWriter, State.Unread, hempty]
    · simp [State.readerXfrs, State.toWriter, State.Unread, hempty]
      rfl
  · have hb := hrb hf
    simpa [State.readerBytes, State.toWriter, hwrite] using hb

theorem flow_stepWrite {n : Nat} (h : Flow BUF_SIZE input blocks s) (ht : Turns s)
    (hstep : stepWrite s n = some s') : Flow BUF_SIZE input blocks s' := by
  rw [stepWrite] at hstep
  have hwrite : s.reader.pc = .write ∧ n ≤ s.shm.cnt.toNat := by
    by_contra hno
    rw [if_neg hno] at hstep
    cases hstep
  rw [if_pos hwrite] at hstep
  obtain ⟨hpc, hn⟩ := hwrite
  obtain ⟨hv, hw, hblock, hcnt⟩ := ht.taken_of_write hpc
  have hread : s.readVal = 0 := by simp [State.readVal, hv]
  have hwriter : s.writer.pc ≠ .release := fun hpc => by simp [hpc, WPc.Left] at hw
  have hrx := h.readerXfrs (by simp [hpc])
  have hrb := h.readerBytes (by simp [hpc])
  have hout : blocks.flatten = s.stdout ++ s.shm.data := by
    rw [h.stdout (by simp [hpc])]
    simp [State.pending, State.Unread, hpc]
  by_cases hall : (n : Int) = s.shm.cnt
  · have hdata : s.shm.buf.take n = s.shm.data := by rw [Shmseg.data, ← hall, Int.toNat_natCast]
    have hlength : s.shm.data.length = n := by
      have hlen := hblock.length
      rw [← hdata, List.length_take]
      omega
    rw [if_pos hall, hdata] at hstep
    cases hstep
    refine ⟨h.input, h.sizes, fun _ => ?_, ?_, h.writerXfrs, h.writerBytes, fun _ => ?_, fun _ => ?_⟩
    · rw [hout]
      simp only [State.readVal] at hread
      simp [State.pending, State.Unread, State.readVal, State.toReader, hwriter, hread]
    · rw [hout]
      exact List.prefix_refl _
    · rw [← hrx]
      simp only [State.readVal] at hread
      simp [State.readerXfrs, State.Unread, State.readVal, State.toReader, hpc, hwriter, hread, hcnt]
    · simp only [State.readerBytes, hpc, State.toReader, if_true] at hrb ⊢
      rw [List.length_append, hlength, BitVec.ofNat_add, ← hrb, ← hall]
      simp [BitVec.sub_add_cancel]
  · rw [if_neg hall] at hstep
    cases hstep
    refine ⟨h.input, h.sizes, fun hf => absurd rfl hf, ?_, h.writerXfrs, h.writerBytes,
      fun hf => absurd rfl hf, fun hf => absurd rfl hf⟩
    rw [hout]
    refine (List.prefix_append_right_inj _).mpr ?_
    rw [Shmseg.data]
    exact List.take_prefix_take_left hn

theorem flow_step {e : Event} (h : Flow BUF_SIZE input blocks s) (ht : Turns s)
    (hstep : step BUF_SIZE s e = some s') : ∃ blocks', Flow BUF_SIZE input blocks' s' := by
  cases e with
  | writer =>
    rw [step] at hstep
    split_ifs at hstep
    exact ⟨_, flow_stepWriter h ht hstep⟩
  | read n =>
    rw [step] at hstep
    split_ifs at hstep
    exact ⟨_, flow_stepRead h ht hstep⟩
  | readFails =>
    rw [step] at hstep
    split_ifs at hstep with hread
    cases hstep
    have hpc : s.writer.pc = .read := not_not.mp (not_or.mp hread).2
    exact ⟨_, flow_dieWriter (flow_readFails h ht hpc)⟩
  | reader =>
    rw [step] at hstep
    split_ifs at hstep
    exact ⟨_, flow_stepReader h hstep⟩
  | write n =>
    rw [step] at hstep
    split_ifs at hstep
    exact ⟨_, flow_stepWrite h ht hstep⟩
  | eintr p =>
    rw [step] at hstep
    split_ifs at hstep with hwaits hretry
    · cases hstep
      exact ⟨_, h⟩
    · cases hstep
      exact ⟨_, flow_die h⟩
  | die p =>
    rw [step] at hstep
    split_ifs at hstep
    cases hstep
    exact ⟨_, flow_die h⟩

theorem flow_reach (h : (system BUF_SIZE input).Reach s) :
    Turns s ∧ ∃ blocks, Flow BUF_SIZE input blocks s := by
  refine System.Reach.invariant (I := fun s => Turns s ∧ ∃ blocks, Flow BUF_SIZE input blocks s)
    ⟨turns_init BUF_SIZE input, [], flow_init BUF_SIZE input⟩ ?_ h
  rintro s e s' ⟨ht, blocks, hf⟩ hstep
  exact ⟨@turns_step BUF_SIZE s s' e ht hstep, flow_step hf ht hstep⟩

end Steps

/-- The blocks of a transfer of `input`. -/
def IsBlocks (BUF_SIZE : Nat) (input : Bytes) (blocks : List Bytes) : Prop :=
  blocks.flatten = input ∧ ∀ b ∈ blocks, b ≠ [] ∧ b.length ≤ BUF_SIZE

/-- What the transfer of `input` never breaks. -/
structure Safe (BUF_SIZE : Nat) (input : Bytes) (s : State) : Prop where
  output : s.stdout <+: input
  /-- The segment belongs to one of them at a time. -/
  exclusive : s.writer.pc = .read ∨ s.writer.pc = .release →
    s.reader.pc ≠ .test ∧ s.reader.pc ≠ .write
  /-- The reader goes on to its end only with the whole input. -/
  received : s.reader.pc.Done → s.stdout = input ∧ ∃ blocks, IsBlocks BUF_SIZE input blocks ∧
    s.reader.xfrs = BitVec.ofNat 32 blocks.length ∧
    s.reader.bytes = BitVec.ofNat 32 input.length
  /-- The writer removes nothing that the reader has still to use, and has counted the same. -/
  removed : s.writer.pc = .rmSem ∨ s.writer.pc.Removing →
    s.reader.pc.Done ∧ s.writer.xfrs = s.reader.xfrs ∧ s.writer.bytes = s.reader.bytes

/-- Where the reader is done, all has been read and written. -/
theorem Flow.of_done {BUF_SIZE : Nat} {input : Bytes} {blocks : List Bytes} {s : State}
    (h : Flow BUF_SIZE input blocks s) (ht : Turns s) (hdone : s.reader.pc.Done) :
    s.stdout = input ∧ blocks.flatten = input ∧
      s.reader.xfrs = BitVec.ofNat 32 blocks.length ∧
      s.reader.bytes = BitVec.ofNat 32 input.length := by
  obtain ⟨hcnt, heof, -⟩ := ht.writer_of_done hdone
  have hpc : s.reader.pc ≠ .fatal ∧ s.reader.pc ≠ .write ∧ s.reader.pc ≠ .release ∧
      s.reader.pc ≠ .next := by
    rcases hdone with hd | hd <;> simp [hd]
  have hinput : blocks.flatten = input := by rw [h.input, heof, List.append_nil]
  have hout : blocks.flatten = s.stdout := by
    rw [h.stdout hpc.1]
    simp [State.pending, Shmseg.data, hcnt]
  refine ⟨by rw [← hout, hinput], hinput, ?_, ?_⟩
  · rw [← h.readerXfrs hpc.1]
    simp [State.readerXfrs, hpc, hcnt]
  · rw [← hinput, hout, ← h.readerBytes hpc.1]
    simp [State.readerBytes, hpc]

/-- **The transfer is safe.**  Whatever the order of the steps, wherever the input is cut into
blocks, whichever calls are interrupted, fail or write only a part, and whenever one of the two
processes dies: what the reader has written is the beginning of the input, the segment belongs to
one process at a time, the reader ends only with all of the input and the writer removes the
semaphores and the segment only after that, and both have counted the same blocks and bytes. -/
theorem transfer_safe (BUF_SIZE : Nat) (input : Bytes) (s : State)
    (h : (system BUF_SIZE input).Reach s) : Safe BUF_SIZE input s := by
  obtain ⟨ht, blocks, hf⟩ := flow_reach h
  refine ⟨?_, fun hw => ?_, fun hd => ?_, fun hw => ?_⟩
  · rw [hf.input]
    exact hf.part.trans (List.prefix_append _ _)
  · have hr := ht.exclusive hw
    refine ⟨fun hpc => ?_, fun hpc => ?_⟩ <;> simp [hpc, RPc.Waiting, RPc.Early] at hr
  · obtain ⟨hout, hinput, hxfrs, hbytes⟩ := hf.of_done ht hd
    exact ⟨hout, blocks, ⟨hinput, hf.sizes⟩, hxfrs, hbytes⟩
  · have hd := ht.done_of_removing hw
    obtain ⟨-, hinput, hxfrs, hbytes⟩ := hf.of_done ht hd
    have hfilled : ¬ s.writer.pc.Filled := by
      rcases hw with hw | hw | hw | hw | hw <;> simp [hw, WPc.Filled]
    refine ⟨hd, ?_, ?_⟩
    · rw [hxfrs, ← hf.writerXfrs]
      simp [State.writerXfrs, hfilled]
    · rw [hbytes, ← hinput, ← hf.writerBytes]
      simp [State.writerBytes, hfilled]

/-- Three bytes in two blocks; the reader is started before the segment is there, is interrupted
once, and counts late. -/
def threeBytes : List Event :=
  [.writer, .reader, .writer, .writer, .writer, .reader, .reader, .eintr .reader, .writer, .writer,
    .read 2, .writer, .reader, .reader, .writer, .write 2, .reader, .writer, .writer, .read 1,
    .writer, .reader, .reader, .reader, .writer, .writer, .write 1, .reader, .reader, .writer,
    .read 0, .writer, .reader, .reader, .writer, .reader, .reader, .reader, .writer, .writer,
    .writer, .writer, .writer]

/-- What three bytes come to. -/
def threeBytesEnd : State where
  stdin := []
  stdout := [1, 2, 3]
  sems := none
  shmKey := false
  shm := ⟨0, [3, 2]⟩
  writer := ⟨.exited, 2, 3, false⟩
  reader := ⟨.exited, 2, 3, false⟩

theorem transfer_safe_three : Safe 2 [1, 2, 3] threeBytesEnd :=
  transfer_safe 2 [1, 2, 3] threeBytesEnd
    (System.reach_of_exec (show _ = some threeBytesEnd from
      (by decide +kernel : (system 2 [1, 2, 3]).exec (init 2 [1, 2, 3]) threeBytes = _)))

end Tlpi.SvshmXfr
