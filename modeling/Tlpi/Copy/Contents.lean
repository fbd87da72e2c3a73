import Tlpi.Copy.Model

/-!
# What the destination holds

Both programs read the source in chunks (`chunksFrom`), of any sizes the kernel
chooses.  The invariant of both loops is `Inv`: input and output offset agree, and
the destination with zero bytes up to that offset is what has been read so far.  The
copy is `Whole` when no zero bytes are missing.

* `Plain.main_copies`: `copy` writes every chunk, so its destination is the source.
* `Holes.main_copies_iff`: `cp` skips a chunk of zero bytes by moving its output
  offset, and nothing after the loop sets the length of the file.  So its destination
  is the source exactly when the last chunk is not one of those.
-/

namespace Tlpi.Copy

open Tlpi.Lib

/-- The chunks that reads of at most `size` bytes return from offset `off` on, when
`k` bytes are ready for the first, and so on. -/
def chunksFrom (size : Nat) (f : Bytes) : Nat → List Nat → List Bytes
  | _, [] => []
  | off, k :: ks =>
      if readAt f off size k = [] then []
      else readAt f off size k :: chunksFrom size f (off + (readAt f off size k).length) ks

/-- A complete write of a chunk that was read with a buffer of `size` bytes. -/
theorem take_readAt {f : Bytes} {off size k : Nat} :
    (readAt f off size k).take size = readAt f off size k :=
  List.take_of_length_le length_readAt_le

/-! ### The invariant of the loops -/

/-- The destination `path`, filled up with zero bytes, is what has been read of `f`. -/
structure Inv (f : Bytes) (path : String) (s : State) : Prop where
  ne : s.inIno ≠ s.outIno
  source : s.fs.data s.inIno = f
  named : s.fs.names path = some s.outIno
  offset : s.outOff = s.inOff
  le : s.inOff ≤ f.length
  short : (s.fs.data s.outIno).length ≤ s.inOff
  dest : s.fs.data s.outIno ++ List.replicate (s.inOff - (s.fs.data s.outIno).length) 0 =
    f.take s.inOff

/-- The destination is what has been read of `f`. -/
def Whole (f : Bytes) (s : State) : Prop := s.fs.data s.outIno = f.take s.inOff

section Steps

variable {f : Bytes} {path : String} {s : State}

/-- The state after a chunk has been read. -/
def afterRead (f : Bytes) (size k : Nat) (s : State) : State :=
  { s with inOff := s.inOff + (readAt f s.inOff size k).length }

/-- The state after the chunk has been written. -/
def afterWrite (f : Bytes) (size k : Nat) (s : State) : State :=
  (afterRead f size k s).writeOut (readAt f s.inOff size k) size

/-- The state after the output offset has been moved past the chunk. -/
def afterSeek (f : Bytes) (size k : Nat) (s : State) : State :=
  { afterRead f size k s with outOff := (afterRead f size k s).inOff }

theorem whole_afterWrite (h : Inv f path s) {size k : Nat} (hbuf : readAt f s.inOff size k ≠ []) :
    Whole f (afterWrite f size k s) := by
  simp only [Whole, afterWrite, afterRead, State.writeOut, take_readAt, Fs.setData_data_self]
  rw [h.offset, pwrite_of_length_le h.short hbuf, h.dest, take_add_readAt]

theorem inv_afterWrite (h : Inv f path s) {size k : Nat} (hbuf : readAt f s.inOff size k ≠ []) :
    Inv f path (afterWrite f size k s) := by
  have hle : s.inOff + (readAt f s.inOff size k).length ≤ f.length := add_length_readAt_le h.le
  have hwhole : (afterWrite f size k s).fs.data (afterWrite f size k s).outIno =
      f.take (s.inOff + (readAt f s.inOff size k).length) := whole_afterWrite h hbuf
  have hlength := congrArg List.length hwhole
  rw [List.length_take_of_le hle] at hlength
  refine ⟨h.ne, ?_, h.named, ?_, hle, Nat.le_of_eq hlength, ?_⟩
  · simp only [afterWrite, afterRead, State.writeOut]
    rw [Fs.setData_data_of_ne _ h.ne]
    exact h.source
  · simp only [afterWrite, afterRead, State.writeOut, take_readAt, h.offset]
  · have hin : (afterWrite f size k s).inOff = s.inOff + (readAt f s.inOff size k).length := rfl
    rw [hin, hlength, Nat.sub_self, hwhole]
    exact List.append_nil _

theorem inv_afterSeek (h : Inv f path s) {size k : Nat}
    (hz : readAt f s.inOff size k = List.replicate (readAt f s.inOff size k).length 0) :
    Inv f path (afterSeek f size k s) := by
  have hshort := h.short
  refine ⟨h.ne, h.source, h.named, rfl, add_length_readAt_le h.le,
    Nat.le_trans hshort (Nat.le_add_right _ _), ?_⟩
  simp only [afterSeek, afterRead]
  rw [take_add_readAt, ← h.dest, hz, List.append_assoc, List.replicate_append_replicate,
    List.length_replicate]
  congr 2
  omega

/-- Nothing has been written for the chunk. -/
theorem not_whole_afterSeek (h : Inv f path s) {size k : Nat}
    (hbuf : readAt f s.inOff size k ≠ []) : ¬ Whole f (afterSeek f size k s) := by
  intro hw
  have hlength := congrArg List.length hw
  simp only [afterSeek, afterRead] at hlength
  rw [List.length_take_of_le (add_length_readAt_le h.le)] at hlength
  have hshort := h.short
  have hpos := List.length_pos_iff.mpr hbuf
  omega

end Steps

/-- Source and destination are open at offset 0, the destination empty. -/
theorem inv_start {fs : Fs} {source path : String} {i : Nat} (hsource : fs.names source = some i)
    (hpath : fs.names path ≠ some i) :
    Inv (fs.data i) path ⟨(fs.creat path).1, i, 0, (fs.creat path).2, 0⟩ := by
  have hne := fs.ne_creat hsource hpath
  refine ⟨hne, fs.creat_data_of_ne path hne, fs.creat_names_self path, rfl, Nat.zero_le _, ?_, ?_⟩
  · simp only [Fs.creat_data_self, List.length_nil, Nat.le_refl]
  · simp [Fs.creat_data_self]

theorem whole_start {fs : Fs} {path : String} {i : Nat} :
    Whole (fs.data i) ⟨(fs.creat path).1, i, 0, (fs.creat path).2, 0⟩ := by
  simp [Whole, Fs.creat_data_self]

/-- At the end of the source, whole means equal. -/
theorem whole_iff_contents {f : Bytes} {path : String} {s : State} (h : Inv f path s)
    (hend : s.inOff = f.length) : Whole f s ↔ s.fs.contents path = some f := by
  rw [Whole, Fs.contents, h.named, hend, List.take_length, Option.map_some, Option.some.injEq]

/-! ### `copy.c` -/

namespace Plain

theorem loop_spec {f : Bytes} {path : String} (ks : List Nat) (s : State) (h : Inv f path s)
    (hw : Whole f s) (hks : f.length < s.inOff + ks.length) :
    ∃ s', loop s (ks.map (Pass.ok BUF_SIZE)) = (s', .success) ∧ Inv f path s' ∧ Whole f s' ∧
      s'.inOff = f.length := by
  induction ks generalizing s with
  | nil => exact absurd h.le (by simpa using hks)
  | cons k ks ih =>
    have hlength : (k :: ks).length = ks.length + 1 := rfl
    rw [List.map_cons, loop]
    simp only [pass, Pass.ok, h.source]
    by_cases hbuf : readAt f s.inOff BUF_SIZE k = []
    · rw [if_pos hbuf]
      have hend := (readAt_eq_nil (by decide)).mp hbuf
      exact ⟨s, rfl, h, hw, Nat.le_antisymm h.le hend⟩
    · rw [if_neg hbuf]
      have hpos := List.length_pos_iff.mpr hbuf
      simp only [take_readAt, ne_eq, not_true, if_false]
      apply ih (afterWrite f BUF_SIZE k s) (inv_afterWrite h hbuf) (whole_afterWrite h hbuf)
      show f.length < s.inOff + (readAt f s.inOff BUF_SIZE k).length + ks.length
      omega

/-- **`copy` copies.**  Whatever the chunks, the destination is the source. -/
theorem main_copies {fs : Fs} {old new : String} {i : Nat} (hold : fs.names old = some i)
    (hnew : fs.names new ≠ some i) {ks : List Nat} (hks : (fs.data i).length < ks.length) :
    (main fs old new (ks.map (Pass.ok BUF_SIZE)) true).2 = .success ∧
      (main fs old new (ks.map (Pass.ok BUF_SIZE)) true).1.contents new = fs.contents old := by
  obtain ⟨s', hloop, hinv, hw, hend⟩ :=
    loop_spec ks _ (inv_start hold hnew) whole_start (by simpa using hks)
  simp only [main, hold, hloop, if_true, true_and]
  rw [(whole_iff_contents hinv hend).mp hw, Fs.contents, hold]
  rfl

end Plain

/-! ### `cp.c` -/

namespace Holes

theorem allZeros_eq_false_iff (buf : Bytes) : allZeros buf = false ↔ ∃ b ∈ buf, b ≠ 0 := by
  induction buf with
  | nil => simp [allZeros]
  | cons b buf ih =>
    by_cases hb : b = 0
    · simp [allZeros, hb, ih]
    · simp [allZeros, hb]

theorem eq_replicate_of_allZeros {buf : Bytes} (h : allZeros buf = true) :
    buf = List.replicate buf.length 0 := by
  rw [List.eq_replicate_iff]
  refine ⟨rfl, fun b hb => ?_⟩
  by_contra hne
  have := (allZeros_eq_false_iff buf).mpr ⟨b, hb, hne⟩
  rw [h] at this
  exact absurd this (by decide)

/-- One pass over a chunk: the destination is whole after it exactly when the chunk
was written. -/
theorem pass_spec {f : Bytes} {path : String} {s : State} (h : Inv f path s) {k : Nat}
    (hbuf : readAt f s.inOff BUF_SIZE k ≠ []) :
    ∃ s', pass s (Pass.ok BUF_SIZE k) = (s', .running) ∧ Inv f path s' ∧
      s'.inOff = s.inOff + (readAt f s.inOff BUF_SIZE k).length ∧
      (Whole f s' ↔ ∃ b ∈ readAt f s.inOff BUF_SIZE k, b ≠ 0) := by
  simp only [pass, Pass.ok, h.source]
  rw [if_neg hbuf, if_neg (by simp)]
  cases hz : allZeros (readAt f s.inOff BUF_SIZE k) with
  | true =>
    refine ⟨afterSeek f BUF_SIZE k s, rfl, inv_afterSeek h (eq_replicate_of_allZeros hz), rfl, ?_⟩
    rw [← allZeros_eq_false_iff, hz]
    simp [not_whole_afterSeek h hbuf]
  | false =>
    refine ⟨afterWrite f BUF_SIZE k s, ?_, inv_afterWrite h hbuf, rfl, ?_⟩
    · simp only [take_readAt, ne_eq, not_true, if_false]
      rfl
    · rw [← allZeros_eq_false_iff, hz]
      simp [whole_afterWrite h hbuf]

/-- The whole loop: what counts is the last chunk, or how the destination was before
when there is no chunk. -/
theorem loop_spec {f : Bytes} {path : String} (ks : List Nat) (s : State) (h : Inv f path s)
    (hks : f.length < s.inOff + ks.length) :
    ∃ s', loop s (ks.map (Pass.ok BUF_SIZE)) = (s', .success) ∧ Inv f path s' ∧
      s'.inOff = f.length ∧
      (Whole f s' ↔ (∀ c ∈ (chunksFrom BUF_SIZE f s.inOff ks).getLast?, ∃ b ∈ c, b ≠ 0) ∧
        (chunksFrom BUF_SIZE f s.inOff ks = [] → Whole f s)) := by
  induction ks generalizing s with
  | nil => exact absurd h.le (by simpa using hks)
  | cons k ks ih =>
    have hlength : (k :: ks).length = ks.length + 1 := rfl
    rw [List.map_cons, loop, chunksFrom]
    by_cases hbuf : readAt f s.inOff BUF_SIZE k = []
    · have hend := (readAt_eq_nil (by decide)).mp hbuf
      refine ⟨s, ?_, h, Nat.le_antisymm h.le hend, by simp [hbuf]⟩
      simp [pass, Pass.ok, h.source, hbuf]
    · have hpos := List.length_pos_iff.mpr hbuf
      obtain ⟨s₁, hpass, hinv, hoff, hwhole⟩ := pass_spec h hbuf
      obtain ⟨s', hloop, hinv', hend, hiff⟩ := ih s₁ hinv (by omega)
      refine ⟨s', by rw [hpass]; exact hloop, hinv', hend, ?_⟩
      rw [if_neg hbuf, hiff, ← hoff]
      cases hrest : chunksFrom BUF_SIZE f s₁.inOff ks with
      | nil => simp [hwhole]
      | cons c cs => simp [List.getLast?_cons_cons]

/-- **When `cp` copies.**  It always ends well; its destination is the source, and
what `copy` makes of the same source, exactly when the source is empty or the last
chunk that `read` returned has a byte other than zero. -/
theorem main_copies_iff {fs : Fs} {source dest : String} {i : Nat}
    (hsource : fs.names source = some i) (hdest : fs.names dest ≠ some i) {ks : List Nat}
    (hks : (fs.data i).length < ks.length) :
    (main fs source dest (ks.map (Pass.ok BUF_SIZE)) true).2 = .success ∧
      (((main fs source dest (ks.map (Pass.ok BUF_SIZE)) true).1.contents dest =
            fs.contents source ∧
          ∀ ls : List Nat, (fs.data i).length < ls.length →
            (main fs source dest (ks.map (Pass.ok BUF_SIZE)) true).1.contents dest =
              (Plain.main fs source dest (ls.map (Pass.ok Plain.BUF_SIZE)) true).1.contents dest) ↔
        ∀ c ∈ (chunksFrom BUF_SIZE (fs.data i) 0 ks).getLast?, ∃ b ∈ c, b ≠ 0) := by
  obtain ⟨s', hloop, hinv, hend, hiff⟩ :=
    loop_spec ks _ (inv_start hsource hdest) (by simpa using hks)
  have hcontents : fs.contents source = some (fs.data i) := by rw [Fs.contents, hsource]; rfl
  have hplain : ∀ ls : List Nat, (fs.data i).length < ls.length →
      (Plain.main fs source dest (ls.map (Pass.ok Plain.BUF_SIZE)) true).1.contents dest =
        fs.contents source := fun ls hls => (Plain.main_copies hsource hdest hls).2
  have hlast := hiff.trans (and_iff_left fun _ => whole_start)
  rw [whole_iff_contents hinv hend, ← hcontents] at hlast
  simp only [main, hsource, hloop, if_true, true_and]
  rw [← hlast]
  constructor
  · exact fun h => h.1
  · intro h
    refine ⟨h, fun ls hls => ?_⟩
    rw [hplain ls hls, h]

/-- A file system with one file `"a"`. -/
def oneFile (f : Bytes) : Fs where
  names p := if p = "a" then some 0 else none
  data _ := f
  next := 1
  names_lt := Fs.names_lt_single "a"

/-- A zero byte and a one byte, read one by one: `cp` skips the first and writes the
second behind the gap. -/
theorem main_copies_zero_one :
    (main (oneFile [0, 1]) "a" "b" ([1, 1, 1].map (Pass.ok BUF_SIZE)) true).1.contents "b" =
      some [0, 1] :=
  ((@main_copies_iff (oneFile [0, 1]) "a" "b" 0 rfl (by decide) [1, 1, 1] (by decide)).2.mpr
    (by decide)).1

/-- **The last zeros are lost.**  The file of a single zero byte: `cp` ends well, and
its destination is empty, where that of `copy` has the byte. -/
theorem main_loses_last_zeros :
    (main (oneFile [0]) "a" "b" ([1, 1].map (Pass.ok BUF_SIZE)) true).2 = .success ∧
      (oneFile [0]).contents "a" = some [0] ∧
      (main (oneFile [0]) "a" "b" ([1, 1].map (Pass.ok BUF_SIZE)) true).1.contents "b" = some [] ∧
      (Plain.main (oneFile [0]) "a" "b" ([1, 1].map (Pass.ok Plain.BUF_SIZE)) true).1.contents "b" =
        some [0] := by
  decide

end Holes

end Tlpi.Copy
