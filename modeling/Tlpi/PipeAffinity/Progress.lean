import Tlpi.PipeAffinity.Model

/-!
# No deadlock, no corruption

Two counters tell how far a side is: `Proc.sent`, all the bytes it has written since the
start, and `Proc.recvd`, all that it has read.  Between them, the bytes in the pipe that
`w` writes to are those from `recvd` of the peer up to `sent` of `w` of one endless
stream, the pattern repeated (`Inv`).  What a side reads is therefore what its buffer
already holds at that place.

* `inv_step`: every step keeps the invariant; a step moves bytes in one pipe, or none.
* `advances`: not both sides can be stuck.  A side that cannot write has a peer that is
  still in the previous round and has bytes to read; two sides that read cannot both have
  empty pipes.
* `never_stuck` collects these with the absence of a broken pipe and of an early end of
  file.
-/

namespace Tlpi.PipeAffinity

open Tlpi.Lib

/-! ### The stream -/

/-- `m` bytes of the repeated pattern of length `n`, from position `a` on. -/
def chunk (n a m : Nat) : Bytes := (List.range' a m).map fun j => UInt8.ofNat (j % n % 256)

@[simp] theorem length_chunk (n a m : Nat) : (chunk n a m).length = m := by
  rw [chunk, List.length_map, List.length_range']

theorem chunk_append (n a m l : Nat) : chunk n a m ++ chunk n (a + m) l = chunk n a (m + l) := by
  rw [chunk, chunk, chunk, ← List.map_append, List.range'_append_1]

theorem take_chunk {n a m l : Nat} (h : m ≤ l) : (chunk n a l).take m = chunk n a m := by
  obtain ⟨d, rfl⟩ := Nat.exists_eq_add_of_le h
  rw [← chunk_append, List.take_left' (length_chunk n a m)]

theorem drop_chunk {n a m l : Nat} (h : m ≤ l) : (chunk n a l).drop m = chunk n (a + m) (l - m) := by
  obtain ⟨d, rfl⟩ := Nat.exists_eq_add_of_le h
  rw [← chunk_append, List.drop_left' (length_chunk n a m), Nat.add_sub_cancel_left]

theorem pattern_eq_chunk (n : Nat) : pattern n = chunk n 0 n := by
  rw [pattern, chunk, List.range_eq_range']
  apply List.map_congr_left
  intro i hi
  have hlt : i < n := by simpa using hi
  rw [Nat.mod_eq_of_lt hlt]

/-- The stream repeats after `n` bytes. -/
theorem chunk_mul_add {n r a m : Nat} : chunk n (r * n + a) m = chunk n a m := by
  induction m generalizing a with
  | zero => rfl
  | succ m ih =>
    rw [Nat.add_comm m 1, ← chunk_append, ← chunk_append, Nat.add_assoc, ih]
    congr 1
    simp [chunk, Nat.add_comm (r * n)]

/-- What a side writes. -/
theorem take_drop_pattern {n a m : Nat} (h : a + m ≤ n) (r : Nat) :
    ((pattern n).drop a).take m = chunk n (r * n + a) m := by
  rw [chunk_mul_add, pattern_eq_chunk, drop_chunk (by omega), take_chunk (by omega), Nat.zero_add]

/-- What a side reads is what the buffer holds there. -/
theorem pattern_overwrite {n a m : Nat} (h : a + m ≤ n) (r : Nat) :
    (pattern n).take a ++ chunk n (r * n + a) m ++ (pattern n).drop (a + m) = pattern n := by
  rw [← take_drop_pattern h r, List.append_assoc, ← List.drop_drop, List.take_append_drop,
    List.take_append_drop]

/-! ### Both sides -/

@[simp] theorem Who.peer_peer (w : Who) : w.peer.peer = w := by cases w <;> rfl

@[simp] theorem Who.peer_ne (w : Who) : w.peer ≠ w := by cases w <;> exact nofun

@[simp] theorem Who.ne_peer (w : Who) : w ≠ w.peer := by cases w <;> exact nofun

theorem Who.eq_peer_of_ne {v w : Who} (h : v ≠ w) : v = w.peer := by
  cases v <;> cases w <;> first | rfl | exact absurd rfl h

/-- All bytes written since the start. -/
def Proc.sent (n : Nat) (p : Proc) : Nat :=
  p.round * n + match p.pc with
    | .write => p.total
    | .read => n
    | _ => 0

/-- All bytes read since the start. -/
def Proc.recvd (n : Nat) (p : Proc) : Nat :=
  p.round * n + match p.pc with
    | .read => p.total
    | _ => 0

/-- The side has done all its rounds. -/
def Proc.Finished (p : Proc) : Prop :=
  p.pc = .wait ∨ p.pc = .closeThird ∨ p.pc = .closeFourth ∨ p.pc = .exited

instance (p : Proc) : Decidable p.Finished := inferInstanceAs (Decidable (_ ∨ _))

/-- What holds of a side by itself, phase by phase; `rd` and `wr` tell whether the ends
that it uses are open. -/
def ProcInv (c : Config) (p : Proc) (rd wr : Bool) : Prop :=
  match p.pc with
  | .closeFirst | .closeSecond | .setup => p.round = 0 ∧ rd ∧ wr
  | .loop => p.round ≤ c.count ∧ p.buffer = pattern c.bufferSize ∧ rd ∧ wr
  | .write | .read =>
      p.round < c.count ∧ p.total ≤ c.bufferSize ∧ p.buffer = pattern c.bufferSize ∧ rd ∧ wr
  | .wait | .closeThird => p.round = c.count ∧ p.buffer = pattern c.bufferSize ∧ rd ∧ wr
  | .closeFourth | .exited => p.round = c.count ∧ p.buffer = pattern c.bufferSize
  | .failed => False

/-- A pipe holds the stream from position `a` up to position `b`. -/
def PipeInv (n a b : Nat) (d : Bytes) : Prop := a ≤ b ∧ d = chunk n a (b - a)

theorem PipeInv.length {n a b : Nat} {d : Bytes} (h : PipeInv n a b d) : d.length = b - a := by
  rw [h.2, length_chunk]

theorem PipeInv.append {n a b : Nat} {d : Bytes} (h : PipeInv n a b d) (m : Nat) :
    PipeInv n a (b + m) (d ++ chunk n b m) := by
  obtain ⟨hle, rfl⟩ := h
  obtain ⟨l, rfl⟩ := Nat.exists_eq_add_of_le hle
  refine ⟨by omega, ?_⟩
  rw [Nat.add_sub_cancel_left, chunk_append]
  congr 1
  omega

theorem PipeInv.take {n a b m : Nat} {d : Bytes} (h : PipeInv n a b d) (hm : m ≤ d.length) :
    d.take m = chunk n a m := by
  have hlen := h.length
  rw [h.2, take_chunk (by omega)]

theorem PipeInv.drop {n a b m : Nat} {d : Bytes} (h : PipeInv n a b d) (hm : m ≤ d.length) :
    PipeInv n (a + m) b (d.drop m) := by
  have hlen := h.length
  have hle := h.1
  refine ⟨by omega, ?_⟩
  rw [h.2, drop_chunk (by omega)]
  congr 1
  omega

/-- The invariant: both sides, and both pipes. -/
structure Inv (c : Config) (s : State) : Prop where
  proc : ∀ w, ProcInv c (s.proc w) ((s.pipe w.peer).rd w) ((s.pipe w).wr w)
  pipe : ∀ w, PipeInv c.bufferSize ((s.proc w.peer).recvd c.bufferSize)
    ((s.proc w).sent c.bufferSize) (s.pipe w).data

theorem inv_init (c : Config) : Inv c init :=
  ⟨fun _ => ⟨rfl, rfl, rfl⟩, fun _ => ⟨Nat.le_refl _, by simp [init, Proc.recvd, Proc.sent, chunk]⟩⟩

section Steps

variable {c : Config} {s s' : State} {w : Who}

/-- A step of `w` leaves its peer alone.  What is at stake is what holds of `w` by itself
and the two pipes. -/
theorem inv_of_peer (h : Inv c s) (hproc : s'.proc w.peer = s.proc w.peer)
    (hrd : (s'.pipe w).rd w.peer = (s.pipe w).rd w.peer)
    (hwr : (s'.pipe w.peer).wr w.peer = (s.pipe w.peer).wr w.peer)
    (hw : ProcInv c (s'.proc w) ((s'.pipe w.peer).rd w) ((s'.pipe w).wr w))
    (hout : PipeInv c.bufferSize ((s.proc w.peer).recvd c.bufferSize)
      ((s'.proc w).sent c.bufferSize) (s'.pipe w).data)
    (hin : PipeInv c.bufferSize ((s'.proc w).recvd c.bufferSize)
      ((s.proc w.peer).sent c.bufferSize) (s'.pipe w.peer).data) : Inv c s' := by
  constructor
  · intro v
    by_cases hv : v = w
    · rw [hv]
      exact hw
    · have hp := h.proc w.peer
      rw [Who.peer_peer] at hp
      rw [Who.eq_peer_of_ne hv, Who.peer_peer, hproc, hrd, hwr]
      exact hp
  · intro v
    by_cases hv : v = w
    · rw [hv, hproc]
      exact hout
    · rw [Who.eq_peer_of_ne hv, Who.peer_peer, hproc]
      exact hin

/-- A step of `w` that moves no bytes. -/
theorem inv_of_quiet (h : Inv c s) (hproc : s'.proc w.peer = s.proc w.peer)
    (hrd : (s'.pipe w).rd w.peer = (s.pipe w).rd w.peer)
    (hwr : (s'.pipe w.peer).wr w.peer = (s.pipe w.peer).wr w.peer)
    (hdata : ∀ v, (s'.pipe v).data = (s.pipe v).data)
    (hsent : (s'.proc w).sent c.bufferSize = (s.proc w).sent c.bufferSize)
    (hrecvd : (s'.proc w).recvd c.bufferSize = (s.proc w).recvd c.bufferSize)
    (hw : ProcInv c (s'.proc w) ((s'.pipe w.peer).rd w) ((s'.pipe w).wr w)) : Inv c s' := by
  refine inv_of_peer h hproc hrd hwr hw ?_ ?_
  · rw [hsent, hdata]
    exact h.pipe w
  · have hin := h.pipe w.peer
    rw [Who.peer_peer] at hin
    rw [hrecvd, hdata]
    exact hin

/-- A step of `w` that changes nothing but `w`. -/
theorem inv_setProc (h : Inv c s) {p : Proc}
    (hsent : p.sent c.bufferSize = (s.proc w).sent c.bufferSize)
    (hrecvd : p.recvd c.bufferSize = (s.proc w).recvd c.bufferSize)
    (hp : ProcInv c p ((s.pipe w.peer).rd w) ((s.pipe w).wr w)) : Inv c (s.setProc w p) := by
  have hself : (s.setProc w p).proc w = p := Function.update_self ..
  refine inv_of_quiet (w := w) h (Function.update_of_ne (Who.peer_ne w) ..) rfl rfl (fun _ => rfl)
    ?_ ?_ ?_
  · rw [hself, hsent]
  · rw [hself, hrecvd]
  · rw [hself]
    exact hp

/-- Closing an end that it does not use, before the first round. -/
theorem inv_closeUnused (h : Inv c s) (b : Bool) {p : Proc}
    (hsent : p.sent c.bufferSize = (s.proc w).sent c.bufferSize)
    (hrecvd : p.recvd c.bufferSize = (s.proc w).recvd c.bufferSize)
    (hp : ProcInv c p ((s.pipe w.peer).rd w) ((s.pipe w).wr w)) :
    Inv c ((closeUnused s w b).setProc w p) := by
  have hself : ((closeUnused s w b).setProc w p).proc w = p := Function.update_self ..
  refine inv_of_quiet (w := w) h ?_ ?_ ?_ ?_ ?_ ?_ ?_
  · cases w <;> cases b <;> rfl
  · cases w <;> cases b <;> rfl
  · cases w <;> cases b <;> rfl
  · intro v
    cases v <;> cases w <;> cases b <;> rfl
  · rw [hself, hsent]
  · rw [hself, hrecvd]
  · rw [hself]
    cases w <;> cases b <;> exact hp

/-- Closing an end of its own, after the last round. -/
theorem inv_closeUsed (h : Inv c s) (b : Bool) {p : Proc}
    (hsent : p.sent c.bufferSize = (s.proc w).sent c.bufferSize)
    (hrecvd : p.recvd c.bufferSize = (s.proc w).recvd c.bufferSize)
    (hp : ∀ rd wr, ProcInv c p rd wr) : Inv c ((closeUsed s w b).setProc w p) := by
  have hself : ((closeUsed s w b).setProc w p).proc w = p := Function.update_self ..
  refine inv_of_quiet (w := w) h ?_ ?_ ?_ ?_ ?_ ?_ ?_
  · cases w <;> cases b <;> rfl
  · cases w <;> cases b <;> rfl
  · cases w <;> cases b <;> rfl
  · intro v
    cases v <;> cases w <;> cases b <;> rfl
  · rw [hself, hsent]
  · rw [hself, hrecvd]
  · rw [hself]
    exact hp _ _

/-- `w` writes `m` bytes. -/
theorem inv_write (h : Inv c s) (hpc : (s.proc w).pc = .write) {m : Nat}
    (hm : (s.proc w).total + m ≤ c.bufferSize) :
    Inv c ((s.setData w ((s.pipe w).data ++ ((s.proc w).buffer.drop (s.proc w).total).take m)).setProc
      w { s.proc w with total := (s.proc w).total + m }) := by
  have hw := h.proc w
  simp only [ProcInv, hpc] at hw
  obtain ⟨hround, htotal, hbuffer, hrd, hwr⟩ := hw
  have hsent : (s.proc w).sent c.bufferSize = (s.proc w).round * c.bufferSize + (s.proc w).total := by
    simp only [Proc.sent, hpc]
  refine inv_of_peer h (w := w) (by simp [State.setProc, State.setData])
    (by simp [State.setProc, State.setData]) (by simp [State.setProc, State.setData]) ?_ ?_ ?_
  · simp only [State.setProc, State.setData, Function.update_self, ProcInv, hpc]
    rw [Function.update_of_ne (Who.peer_ne w)]
    exact ⟨hround, hm, hbuffer, hrd, hwr⟩
  · have hout := (h.pipe w).append m
    simp only [State.setProc, State.setData, Function.update_self, hbuffer]
    rw [take_drop_pattern hm (s.proc w).round, ← hsent]
    simp only [Proc.sent, hpc, ← Nat.add_assoc] at hout ⊢
    exact hout
  · have hin := h.pipe w.peer
    simp only [State.setProc, State.setData, Function.update_self, Proc.recvd, hpc]
    rw [Function.update_of_ne (Who.peer_ne w)]
    simpa only [Who.peer_peer, Proc.recvd, hpc] using hin

/-- `w` reads `m` bytes. -/
theorem inv_read (h : Inv c s) (hpc : (s.proc w).pc = .read) {m : Nat}
    (hm : (s.proc w).total + m ≤ c.bufferSize) (hlen : m ≤ (s.pipe w.peer).data.length) :
    Inv c ((s.setData w.peer ((s.pipe w.peer).data.drop m)).setProc w
      { s.proc w with
        total := (s.proc w).total + m
        buffer := (s.proc w).buffer.take (s.proc w).total ++ (s.pipe w.peer).data.take m ++
          (s.proc w).buffer.drop ((s.proc w).total + m) }) := by
  have hw := h.proc w
  simp only [ProcInv, hpc] at hw
  obtain ⟨hround, htotal, hbuffer, hrd, hwr⟩ := hw
  have hin := h.pipe w.peer
  rw [Who.peer_peer] at hin
  have hrecvd : (s.proc w).recvd c.bufferSize =
      (s.proc w).round * c.bufferSize + (s.proc w).total := by
    simp only [Proc.recvd, hpc]
  refine inv_of_peer h (w := w) (by simp [State.setProc, State.setData])
    (by simp [State.setProc, State.setData]) (by simp [State.setProc, State.setData]) ?_ ?_ ?_
  · simp only [State.setProc, State.setData, Function.update_self, ProcInv, hpc]
    rw [Function.update_of_ne (Who.ne_peer w), hin.take hlen, hrecvd, hbuffer]
    exact ⟨hround, hm, pattern_overwrite hm _, hrd, hwr⟩
  · have hout := h.pipe w
    simp only [State.setProc, State.setData, Function.update_self, Proc.sent, hpc]
    rw [Function.update_of_ne (Who.ne_peer w)]
    simpa only [Proc.sent, hpc] using hout
  · have hdrop := hin.drop hlen
    simp only [State.setProc, State.setData, Function.update_self]
    simp only [Proc.recvd, hpc, ← Nat.add_assoc] at hdrop ⊢
    exact hdrop

/-- What a side that has done all its rounds has sent and received. -/
theorem counts_of_finished (h : Inv c s) (hf : (s.proc w).Finished) :
    (s.proc w).sent c.bufferSize = c.count * c.bufferSize ∧
      (s.proc w).recvd c.bufferSize = c.count * c.bufferSize := by
  have hw := h.proc w
  rcases hf with hpc | hpc | hpc | hpc <;> simp only [ProcInv, hpc] at hw <;>
    simp [Proc.sent, Proc.recvd, hpc, hw.1]

/-- A round that has not ended is not the whole. -/
theorem round_lt {r t : Nat} (hr : r < c.count) (ht : t < c.bufferSize) :
    r * c.bufferSize + t < c.count * c.bufferSize := by
  have := Nat.mul_le_mul_right c.bufferSize (Nat.succ_le_of_lt hr)
  rw [Nat.succ_mul] at this
  omega

/-- Nobody writes to a reader that has finished. -/
theorem peer_not_finished (h : Inv c s) (hpc : (s.proc w).pc = .write)
    (htotal : (s.proc w).total < c.bufferSize) : ¬ (s.proc w.peer).Finished := by
  intro hf
  have hw := h.proc w
  simp only [ProcInv, hpc] at hw
  have hle := (h.pipe w).1
  rw [(counts_of_finished h hf).2] at hle
  simp only [Proc.sent, hpc] at hle
  exact absurd (round_lt hw.1 htotal) (Nat.not_lt.mpr hle)

/-- The ends that a side uses are open until it has finished. -/
theorem open_of_not_finished (h : Inv c s) (hf : ¬ (s.proc w).Finished) :
    (s.pipe w.peer).rd w = true ∧ (s.pipe w).wr w = true := by
  have hw := h.proc w
  cases hpc : (s.proc w).pc <;> simp only [ProcInv, hpc] at hw <;>
    first
      | exact ⟨hw.2.1, hw.2.2⟩
      | exact ⟨hw.2.2.1, hw.2.2.2⟩
      | exact ⟨hw.2.2.2.1, hw.2.2.2.2⟩
      | exact absurd (by simp [Proc.Finished, hpc]) hf

theorem hasReader_of_rd {p : Pipe} {v : Who} (h : p.rd v = true) : p.hasReader = true := by
  cases v <;> simp [Pipe.hasReader, h]

/-- A peer that has finished has sent all that there is to read. -/
theorem data_ne_nil_of_finished (h : Inv c s) (hpc : (s.proc w).pc = .read)
    (htotal : (s.proc w).total < c.bufferSize) (hf : (s.proc w.peer).Finished) :
    (s.pipe w.peer).data ≠ [] := by
  have hw := h.proc w
  simp only [ProcInv, hpc] at hw
  have hin := (h.pipe w.peer).length
  rw [Who.peer_peer, (counts_of_finished h hf).1] at hin
  simp only [Proc.recvd, hpc] at hin
  have hlt := round_lt hw.1 htotal
  rw [← List.length_pos_iff]
  omega

/-- A side that reads finds bytes or a writer. -/
theorem data_ne_nil_or_open (h : Inv c s) (hpc : (s.proc w).pc = .read)
    (htotal : (s.proc w).total < c.bufferSize) :
    (s.pipe w.peer).data ≠ [] ∨ (s.pipe w.peer).wr w.peer = true := by
  by_cases hf : (s.proc w.peer).Finished
  · exact .inl (data_ne_nil_of_finished h hpc htotal hf)
  · exact .inr (open_of_not_finished h hf).2

theorem writeAmount_eq_some {pipeBuf free n k m : Nat} (hn : 0 < n)
    (h : writeAmount pipeBuf free n k = some m) : 0 < m ∧ m ≤ n := by
  rw [writeAmount] at h
  split at h
  · split at h
    · cases h
      exact ⟨hn, Nat.le_refl _⟩
    · cases h
  · split at h
    · cases h
    · cases h
      omega

theorem inv_writeSome (h : Inv c s) (hpc : (s.proc w).pc = .write)
    (htotal : (s.proc w).total < c.bufferSize) (k : Nat) : Inv c (writeSome c s w k) := by
  have hopen := open_of_not_finished h (peer_not_finished h hpc htotal)
  rw [Who.peer_peer] at hopen
  rw [writeSome, if_neg (by simp [hasReader_of_rd hopen.1])]
  split
  · exact h
  · next m hm =>
    have := (writeAmount_eq_some (by omega) hm).2
    exact inv_write h hpc (by omega)

theorem inv_readSome (h : Inv c s) (hpc : (s.proc w).pc = .read)
    (htotal : (s.proc w).total < c.bufferSize) (k : Nat) : Inv c (readSome c s w k) := by
  rw [readSome]
  split
  · exact h
  · next hne =>
    have := List.length_pos_iff.mpr hne
    exact inv_read h hpc (by omega) (by omega)

/-- **Every step keeps the invariant.** -/
theorem inv_step {e : Event} (h : Inv c s) (hstep : step c s e = some s') : Inv c s' := by
  obtain ⟨w, k⟩ := e
  have hw := h.proc w
  cases hpc : (s.proc w).pc <;> simp only [step, hpc] at hstep <;> simp only [ProcInv, hpc] at hw
  case closeFirst =>
    cases hstep
    apply inv_closeUnused h
    · simp [Proc.sent, hpc]
    · simp [Proc.recvd, hpc]
    · exact hw
  case closeSecond =>
    cases hstep
    apply inv_closeUnused h
    · simp [Proc.sent, hpc]
    · simp [Proc.recvd, hpc]
    · exact hw
  case setup =>
    cases hstep
    apply inv_setProc h
    · simp [Proc.sent, hpc, hw.1]
    · simp [Proc.recvd, hpc, hw.1]
    · exact ⟨Nat.zero_le _, rfl, hw.2⟩
  case loop =>
    obtain ⟨hround, hbuffer, hends⟩ := hw
    split at hstep
    · next hlt =>
      cases hstep
      apply inv_setProc h
      · simp [Proc.sent, hpc]
      · simp [Proc.recvd, hpc]
      · exact ⟨hlt, Nat.zero_le _, hbuffer, hends⟩
    · have heq : (s.proc w).round = c.count := by omega
      have hleave : ∀ pc, pc = .wait ∨ pc = .closeThird →
          Inv c (s.setProc w { s.proc w with pc := pc }) := by
        intro pc hpc'
        apply inv_setProc h
        · rcases hpc' with rfl | rfl <;> simp [Proc.sent, hpc]
        · rcases hpc' with rfl | rfl <;> simp [Proc.recvd, hpc]
        · rcases hpc' with rfl | rfl <;> exact ⟨heq, hbuffer, hends⟩
      cases w with
      | parent =>
        cases hstep
        exact hleave .wait (.inl rfl)
      | child =>
        cases hstep
        exact hleave .closeThird (.inr rfl)
  case write =>
    obtain ⟨hround, htotal, hbuffer, hends⟩ := hw
    split at hstep
    · next hlt =>
      cases hstep
      exact inv_writeSome h hpc hlt k
    · have heq : (s.proc w).total = c.bufferSize := by omega
      cases hstep
      apply inv_setProc h
      · simp [Proc.sent, hpc, heq]
      · simp [Proc.recvd, hpc]
      · exact ⟨hround, Nat.zero_le _, hbuffer, hends⟩
  case read =>
    obtain ⟨hround, htotal, hbuffer, hends⟩ := hw
    split at hstep
    · next hlt =>
      cases hstep
      exact inv_readSome h hpc hlt k
    · have heq : (s.proc w).total = c.bufferSize := by omega
      cases hstep
      apply inv_setProc h
      · simp [Proc.sent, hpc, Nat.succ_mul]
      · simp [Proc.recvd, hpc, heq, Nat.succ_mul]
      · exact ⟨hround, hbuffer, hends⟩
  case wait =>
    split at hstep
    · cases hstep
      apply inv_setProc h
      · simp [Proc.sent, hpc]
      · simp [Proc.recvd, hpc]
      · exact hw
    · cases hstep
  case closeThird =>
    cases hstep
    apply inv_closeUsed h
    · simp [Proc.sent, hpc]
    · simp [Proc.recvd, hpc]
    · exact fun _ _ => ⟨hw.1, hw.2.1⟩
  case closeFourth =>
    cases hstep
    apply inv_closeUsed h
    · simp [Proc.sent, hpc]
    · simp [Proc.recvd, hpc]
    · exact fun _ _ => hw
  case exited => cases hstep

end Steps

/-! ### Progress -/

/-- `w` can take a step that completes a phase or moves a byte. -/
def Advances (c : Config) (s : State) (w : Who) : Prop :=
  ∃ k s', step c s ⟨w, k⟩ = some s' ∧
    ((s'.proc w).pc ≠ (s.proc w).pc ∨ (s.proc w).total < (s'.proc w).total)

section Advances

variable {c : Config} {s : State} {w : Who}

theorem advances_write (h : Inv c s) (hpc : (s.proc w).pc = .write)
    (htotal : (s.proc w).total < c.bufferSize)
    (hfree : c.bufferSize - (s.proc w).total ≤ c.capacity - (s.pipe w).data.length) :
    Advances c s w := by
  have hopen := open_of_not_finished h (peer_not_finished h hpc htotal)
  rw [Who.peer_peer] at hopen
  have hamount : ∃ m, 0 < m ∧ writeAmount c.pipeBuf (c.capacity - (s.pipe w).data.length)
      (c.bufferSize - (s.proc w).total) 1 = some m := by
    rw [writeAmount]
    by_cases hsmall : c.bufferSize - (s.proc w).total ≤ c.pipeBuf
    · rw [if_pos hsmall, if_pos hfree]
      exact ⟨_, by omega, rfl⟩
    · rw [if_neg hsmall, if_neg (by omega)]
      exact ⟨_, by omega, rfl⟩
  obtain ⟨m, hm, hamount⟩ := hamount
  refine ⟨1, _, by simp only [step, hpc]; rw [if_pos htotal], .inr ?_⟩
  rw [writeSome, if_neg (by simp [hasReader_of_rd hopen.1]), hamount]
  simp only [State.setProc, Function.update_self]
  omega

theorem advances_read (hpc : (s.proc w).pc = .read) (htotal : (s.proc w).total < c.bufferSize)
    (hdata : (s.pipe w.peer).data ≠ []) : Advances c s w := by
  refine ⟨1, _, by simp only [step, hpc]; rw [if_pos htotal], .inr ?_⟩
  rw [readSome, if_neg hdata]
  simp only [State.setProc, Function.update_self]
  omega

/-- A side that has not finished is inside one of the two `while` loops, or advances by
itself. -/
theorem advances_or_busy (h : Inv c s) (hf : ¬ (s.proc w).Finished) :
    Advances c s w ∨ (s.proc w).total < c.bufferSize ∧
      ((s.proc w).pc = .write ∨ (s.proc w).pc = .read) := by
  have hw := h.proc w
  by_cases htotal : (s.proc w).total < c.bufferSize ∧
      ((s.proc w).pc = .write ∨ (s.proc w).pc = .read)
  · exact .inr htotal
  · refine .inl ⟨0, ?_⟩
    cases hpc : (s.proc w).pc <;> simp only [ProcInv, hpc] at hw <;>
      simp [hpc, Proc.Finished] at hf htotal <;> simp only [step, hpc]
    case loop =>
      split
      · exact ⟨_, rfl, .inl (by simp [State.setProc])⟩
      · cases w <;> exact ⟨_, rfl, .inl (by simp [State.setProc])⟩
    case write =>
      rw [if_neg (by omega)]
      exact ⟨_, rfl, .inl (by simp [State.setProc])⟩
    case read =>
      rw [if_neg (by omega)]
      exact ⟨_, rfl, .inl (by simp [State.setProc])⟩
    all_goals exact ⟨_, rfl, .inl (by simp [State.setProc])⟩

/-- A side that writes advances, or its peer still has bytes of the previous round to
read. -/
theorem advances_of_writing (h : Inv c s) (hpc : (s.proc w).pc = .write)
    (htotal : (s.proc w).total < c.bufferSize) : ∃ v, Advances c s v := by
  have hlen := (h.pipe w).length
  have hin := (h.pipe w.peer).1
  have hcap := c.le_capacity
  rw [Who.peer_peer] at hin
  simp only [Proc.sent, hpc] at hlen
  simp only [Proc.recvd, hpc, Nat.add_zero] at hin
  by_cases hprev : (s.proc w).round * c.bufferSize ≤ (s.proc w.peer).recvd c.bufferSize
  · exact ⟨w, advances_write h hpc htotal (by omega)⟩
  · refine ⟨w.peer, ?_⟩
    have hnf := peer_not_finished h hpc htotal
    rcases advances_or_busy h hnf with hadv | ⟨hlt, hpeer | hpeer⟩
    · exact hadv
    · simp only [Proc.recvd, hpeer, Nat.add_zero] at hprev
      simp only [Proc.sent, hpeer] at hin
      have hround : (s.proc w.peer).round < (s.proc w).round := by
        by_contra hge
        exact hprev (Nat.mul_le_mul_right _ (Nat.not_lt.mp hge))
      have := Nat.mul_le_mul_right c.bufferSize (Nat.succ_le_of_lt hround)
      rw [Nat.succ_mul] at this
      omega
    · apply advances_read hpeer hlt
      rw [Who.peer_peer, ← List.length_pos_iff]
      omega

/-- **Somebody advances.** -/
theorem advances (h : Inv c s) (hf : ¬ ∀ w, (s.proc w).Finished) : ∃ v, Advances c s v := by
  have hw : ∃ w, ¬ (s.proc w).Finished := not_forall.mp hf
  obtain ⟨w, hw⟩ := hw
  rcases advances_or_busy h hw with hadv | ⟨htotal, hpc | hpc⟩
  · exact ⟨w, hadv⟩
  · exact advances_of_writing h hpc htotal
  · by_cases hdata : (s.pipe w.peer).data = []
    · have hpeer : ¬ (s.proc w.peer).Finished := by
        intro hfin
        have hpos := data_ne_nil_of_finished h hpc htotal hfin
        exact hpos hdata
      rcases advances_or_busy h hpeer with hadv | ⟨htotal', hpc' | hpc'⟩
      · exact ⟨w.peer, hadv⟩
      · exact advances_of_writing h hpc' htotal'
      · refine ⟨w.peer, advances_read hpc' htotal' ?_⟩
        have hin := (h.pipe w.peer).length
        have hle := (h.pipe w.peer).1
        have hlen := (h.pipe w).length
        rw [hdata, List.length_nil] at hin
        rw [Who.peer_peer] at hin hle ⊢
        rw [← List.length_pos_iff]
        simp only [Proc.sent, Proc.recvd, hpc, hpc'] at hin hle hlen
        omega
    · exact ⟨w, advances_read hpc htotal hdata⟩

end Advances

/-- **Two sides over two pipes.**  In every state that can be reached: unless both sides
have done all rounds, one of them can complete a phase or move a byte; a side that is
about to write has a peer that has not finished and holds the read end; a side that is
about to read finds bytes, or its peer holds the write end, so it does not meet the end
of file; and a side that is in a round, or at the start of one, has the pattern in its
buffer. -/
theorem never_stuck (c : Config) {s : State} (h : (system c).Reach s) :
    ((¬ ∀ w, (s.proc w).Finished) → ∃ w, Advances c s w) ∧
    ∀ w, ((s.proc w).pc = .write → (s.proc w).total < c.bufferSize →
        ¬ (s.proc w.peer).Finished ∧ (s.pipe w).rd w.peer = true) ∧
      ((s.proc w).pc = .read → (s.proc w).total < c.bufferSize →
        (s.pipe w.peer).data ≠ [] ∨ (s.pipe w.peer).wr w.peer = true) ∧
      ((s.proc w).pc = .loop ∨ (s.proc w).pc = .write ∨ (s.proc w).pc = .read →
        (s.proc w).buffer = pattern c.bufferSize) := by
  have hinv : Inv c s := h.invariant (inv_init c) fun _ _ _ => inv_step
  refine ⟨advances hinv, fun w => ⟨?_, data_ne_nil_or_open hinv, ?_⟩⟩
  · intro hpc htotal
    have hpeer := peer_not_finished hinv hpc htotal
    have hopen := (open_of_not_finished hinv hpeer).1
    rw [Who.peer_peer] at hopen
    exact ⟨hpeer, hopen⟩
  · have hw := hinv.proc w
    rintro (hpc | hpc | hpc) <;> simp only [ProcInv, hpc] at hw
    · exact hw.2.1
    · exact hw.2.2.1
    · exact hw.2.2.1

/-- One byte, one round: the parent has written and waits to read, while the child has
not even closed its unused ends. -/
theorem never_stuck_one_byte :
    ∃ s, (system ⟨1, 1, 1, 4096, by decide, by decide⟩).exec init (List.replicate 6 ⟨.parent, 1⟩) =
        some s ∧
      (s.proc .parent).pc = .read ∧ (s.pipe .child).data = [] ∧
      (∃ w, Advances ⟨1, 1, 1, 4096, by decide, by decide⟩ s w) ∧ (s.pipe .child).wr .child = true :=
  have h := never_stuck ⟨1, 1, 1, 4096, by decide, by decide⟩
    (@System.reach_of_exec _ _ (system ⟨1, 1, 1, 4096, by decide, by decide⟩)
      (List.replicate 6 ⟨.parent, 1⟩) _ rfl)
  ⟨_, rfl, rfl, rfl, h.1 (fun hf => absurd (hf .child) (by decide)),
    ((h.2 .parent).2.1 rfl (by decide)).resolve_left (fun hne => hne rfl)⟩

end Tlpi.PipeAffinity
