import Tlpi.Copy.Contents

/-!
# However a run ends

`Copy/Contents.lean` follows the runs in which all calls succeed.  Here the kernel answers
as it likes: a `read` or an `lseek` may fail, a `write` may fail or be short, and the run
ends there.

* `Holes.main_aligned`: at every loop head of `cp` the two offsets agree, and however the
  run ends the destination is a prefix of the source; after a normal exit what is missing
  is zero bytes.
* `Plain.main_preserves_iff`: a run of `copy` that ends with `EXIT_SUCCESS` has copied the
  source, unless both arguments name one file that is not empty.  That file is truncated
  before the first `read`, which then finds nothing (`Plain.main_truncates`).
-/

namespace Tlpi.Copy

open Tlpi.Lib

/-- `path` leads to the destination, which holds a prefix of `f`. -/
def Partial (f : Bytes) (path : String) (s : State) : Prop :=
  s.fs.names path = some s.outIno ∧ s.fs.data s.outIno <+: f

section Partial

variable {f : Bytes} {path : String} {s : State}

theorem Inv.toPartial (h : Inv f path s) : Partial f path s := by
  refine ⟨h.named, List.IsPrefix.trans ?_ (List.take_prefix s.inOff f)⟩
  rw [← h.dest]
  exact List.prefix_append ..

/-- A write that takes the first `w` bytes of the chunk. -/
theorem partial_writeOut (h : Inv f path s) {size k w : Nat} :
    Partial f path ((afterRead f size k s).writeOut (readAt f s.inOff size k) w) := by
  refine ⟨h.named, ?_⟩
  simp only [State.writeOut, afterRead, Fs.setData_data_self]
  by_cases hw : (readAt f s.inOff size k).take w = []
  · rw [hw, pwrite, if_pos rfl]
    exact h.toPartial.2
  · rw [h.offset, pwrite_of_length_le h.short hw, h.dest]
    have hchunk : f.take s.inOff ++ (readAt f s.inOff size k).take w <+:
        f.take (s.inOff + (readAt f s.inOff size k).length) := by
      rw [take_add_readAt, List.prefix_append_right_inj]
      exact List.take_prefix ..
    exact hchunk.trans (List.take_prefix ..)

/-- A complete write is one that takes as many bytes as the chunk has. -/
theorem writeOut_eq_afterWrite {size k w : Nat}
    (hw : ((readAt f s.inOff size k).take w).length = (readAt f s.inOff size k).length) :
    (afterRead f size k s).writeOut (readAt f s.inOff size k) w = afterWrite f size k s := by
  have htake : (readAt f s.inOff size k).take w = readAt f s.inOff size k := by
    apply List.take_of_length_le
    rw [List.length_take] at hw
    omega
  rw [afterWrite, State.writeOut, State.writeOut, htake, take_readAt]

end Partial

/-! ### `cp.c` -/

namespace Holes

variable {f : Bytes} {path : String} {s s' : State} {st : Status}

/-- What a pass, or the whole loop, leaves behind. -/
structure Ending (f : Bytes) (path : String) (s : State) (st : Status) : Prop where
  part : Partial f path s
  running : st = .running → Inv f path s
  success : st = .success → Inv f path s ∧ s.inOff = f.length

theorem ending_of_failure (h : Partial f path s) : Ending f path s .failure := ⟨h, nofun, nofun⟩

theorem ending_of_running (h : Inv f path s) : Ending f path s .running :=
  ⟨h.toPartial, fun _ => h, nofun⟩

theorem ending_of_success (h : Inv f path s) (hend : s.inOff = f.length) :
    Ending f path s .success :=
  ⟨h.toPartial, nofun, fun _ => ⟨h, hend⟩⟩

/-- One pass, whatever the kernel answers. -/
theorem pass_ending (h : Inv f path s) {a : Pass} (hpass : pass s a = (s', st)) :
    Ending f path s' st := by
  simp only [pass, h.source] at hpass
  cases hread : a.read with
  | none =>
    rw [hread] at hpass
    cases hpass
    exact ending_of_failure h.toPartial
  | some k =>
    have hafter : Partial f path (afterRead f BUF_SIZE k s) := h.toPartial
    simp only [hread] at hpass
    by_cases hbuf : readAt f s.inOff BUF_SIZE k = []
    · rw [if_pos hbuf] at hpass
      cases hpass
      have hend := (readAt_eq_nil (by decide)).mp hbuf
      exact ending_of_success h (Nat.le_antisymm h.le hend)
    · rw [if_neg hbuf] at hpass
      split at hpass
      · cases hpass
        exact ending_of_failure hafter
      · split at hpass
        · next hz =>
          split at hpass
          · cases hpass
            exact ending_of_failure hafter
          · cases hpass
            exact ending_of_running (inv_afterSeek h (eq_replicate_of_allZeros hz))
        · split at hpass
          · cases hpass
            exact ending_of_failure hafter
          · next w _ =>
            by_cases hall : ((readAt f s.inOff BUF_SIZE k).take w).length =
                (readAt f s.inOff BUF_SIZE k).length
            · rw [if_neg (not_not.mpr hall)] at hpass
              cases hpass
              have hinv := inv_afterWrite h hbuf
              rw [← writeOut_eq_afterWrite hall] at hinv
              exact ending_of_running hinv
            · rw [if_pos hall] at hpass
              cases hpass
              exact ending_of_failure (partial_writeOut h)

/-- The loop, whatever the kernel answers. -/
theorem loop_ending (as : List Pass) (h : Inv f path s) (hloop : loop s as = (s', st)) :
    Ending f path s' st := by
  induction as generalizing s with
  | nil =>
    cases hloop
    exact ending_of_running h
  | cons a as ih =>
    rw [loop] at hloop
    cases hpass : pass s a with
    | mk t u =>
      have hspec := pass_ending h hpass
      rw [hpass] at hloop
      cases u with
      | running => exact ih (hspec.running rfl) hloop
      | success | failure =>
        cases hloop
        exact hspec

/-- **Input and output stay aligned.**  At every loop head, that is after any number of
passes that go on, the output offset is the input offset.  However the run ends, the
destination is a prefix of the source, and after a normal exit only zero bytes are
missing. -/
theorem main_aligned {fs : Fs} {source dest : String} {i : Nat} (hsource : fs.names source = some i)
    (hdest : fs.names dest ≠ some i) (as : List Pass) (closes : Bool) :
    (∀ s, loop ⟨(fs.creat dest).1, i, 0, (fs.creat dest).2, 0⟩ as = (s, .running) →
      s.outOff = s.inOff) ∧
    ∃ d, (main fs source dest as closes).1.contents dest = some d ∧ d <+: fs.data i ∧
      ((main fs source dest as closes).2 = .success →
        ∃ n, fs.data i = d ++ List.replicate n 0) := by
  have hstart := inv_start hsource hdest
  refine ⟨fun s hloop => ((loop_ending as hstart hloop).running rfl).offset, ?_⟩
  cases hloop : loop ⟨(fs.creat dest).1, i, 0, (fs.creat dest).2, 0⟩ as with
  | mk s st =>
    obtain ⟨hpart, -, hend⟩ := loop_ending as hstart hloop
    have hfs : (main fs source dest as closes).1 = s.fs := by
      simp only [main, hsource, hloop]
      cases st <;> rfl
    have hst : (main fs source dest as closes).2 = .success → st = .success := by
      simp only [main, hsource, hloop]
      cases st <;> simp
    rw [hfs]
    refine ⟨_, by rw [Fs.contents, hpart.1]; rfl, hpart.2, fun hsuccess => ?_⟩
    obtain ⟨hinv, hoff⟩ := hend (hst hsuccess)
    refine ⟨s.inOff - (s.fs.data s.outIno).length, ?_⟩
    rw [hinv.dest, hoff, List.take_length]

/-- A file of a one, a zero and a two, read one by one, and the last write fails: the
destination has the one, and the next pass would have started at offset 2 in both. -/
theorem main_aligned_one_zero :
    (main (oneFile [1, 0, 2]) "a" "b"
        [Pass.ok BUF_SIZE 1, Pass.ok BUF_SIZE 1, ⟨some 1, true, true, none⟩] true).2 = .failure ∧
      ∃ d, (main (oneFile [1, 0, 2]) "a" "b"
          [Pass.ok BUF_SIZE 1, Pass.ok BUF_SIZE 1, ⟨some 1, true, true, none⟩] true).1.contents "b" =
        some d ∧ d <+: [1, 0, 2] := by
  obtain ⟨d, hd, hpre, -⟩ := (@main_aligned (oneFile [1, 0, 2]) "a" "b" 0 rfl (by decide)
    [Pass.ok BUF_SIZE 1, Pass.ok BUF_SIZE 1, ⟨some 1, true, true, none⟩] true).2
  exact ⟨by decide, d, hd, hpre⟩

end Holes

/-! ### `copy.c` -/

namespace Plain

variable {f : Bytes} {path : String} {s s' : State} {st : Status}

/-- One pass, whatever the kernel answers: a pass that goes on has written its chunk. -/
theorem pass_whole (h : Inv f path s) (hw : Whole f s) {a : Pass} (hpass : pass s a = (s', st)) :
    (st = .running → Inv f path s' ∧ Whole f s') ∧
      (st = .success → Inv f path s' ∧ Whole f s' ∧ s'.inOff = f.length) := by
  simp only [pass, h.source] at hpass
  cases hread : a.read with
  | none =>
    rw [hread] at hpass
    cases hpass
    simp
  | some k =>
    simp only [hread] at hpass
    by_cases hbuf : readAt f s.inOff BUF_SIZE k = []
    · rw [if_pos hbuf] at hpass
      cases hpass
      have hend := (readAt_eq_nil (by decide)).mp hbuf
      exact ⟨by simp, fun _ => ⟨h, hw, Nat.le_antisymm h.le hend⟩⟩
    · rw [if_neg hbuf] at hpass
      split at hpass
      · cases hpass
        simp
      · next w _ =>
        by_cases hall : ((readAt f s.inOff BUF_SIZE k).take w).length =
            (readAt f s.inOff BUF_SIZE k).length
        · rw [if_neg (not_not.mpr hall)] at hpass
          cases hpass
          have hinv := inv_afterWrite h hbuf
          have hwhole := whole_afterWrite h hbuf
          rw [← writeOut_eq_afterWrite hall] at hinv hwhole
          exact ⟨fun _ => ⟨hinv, hwhole⟩, by simp⟩
        · rw [if_pos hall] at hpass
          cases hpass
          simp

theorem loop_whole (as : List Pass) (h : Inv f path s) (hw : Whole f s)
    (hloop : loop s as = (s', .success)) : Inv f path s' ∧ Whole f s' ∧ s'.inOff = f.length := by
  induction as generalizing s with
  | nil => cases hloop
  | cons a as ih =>
    rw [loop] at hloop
    cases hpass : pass s a with
    | mk t u =>
      have hspec := pass_whole h hw hpass
      rw [hpass] at hloop
      cases u with
      | running => exact ih (hspec.1 rfl).1 (hspec.1 rfl).2 hloop
      | success =>
        cases hloop
        exact hspec.2 rfl
      | failure => cases hloop

/-- A run that ends well has come through the loop. -/
theorem main_success {fs : Fs} {old new : String} {as : List Pass} {closes : Bool} {i : Nat}
    (hold : fs.names old = some i) (hmain : (main fs old new as closes).2 = .success) :
    ∃ s, loop ⟨(fs.creat new).1, i, 0, (fs.creat new).2, 0⟩ as = (s, .success) ∧
      (main fs old new as closes).1 = s.fs := by
  simp only [main, hold] at hmain ⊢
  cases hloop : loop ⟨(fs.creat new).1, i, 0, (fs.creat new).2, 0⟩ as with
  | mk s st =>
    rw [hloop] at hmain
    cases st with
    | success => exact ⟨s, rfl, rfl⟩
    | running | failure => cases hmain

/-- The file is empty, and so the first `read` is the last. -/
theorem loop_of_empty (as : List Pass) (hnil : s.fs.data s.inIno = [])
    (hloop : loop s as = (s', .success)) : s' = s := by
  cases as with
  | nil => cases hloop
  | cons a as =>
    rw [loop] at hloop
    cases hread : a.read with
    | none =>
      simp only [pass, hread] at hloop
      cases hloop
    | some k =>
      have hbuf : readAt (s.fs.data s.inIno) s.inOff BUF_SIZE k = [] := by
        rw [hnil, readAt, List.drop_nil, List.take_nil]
      simp only [pass, hread, hbuf, if_true] at hloop
      cases hloop
      rfl

/-- **When `copy` preserves the data.**  Every run that ends with `EXIT_SUCCESS` leaves in
the second file what was in the first, for all answers of the kernel, exactly when the two
names do not lead to one file that is not empty. -/
theorem main_preserves_iff (fs : Fs) (old new : String) :
    (∀ as closes, (main fs old new as closes).2 = .success →
        (main fs old new as closes).1.contents new = fs.contents old) ↔
      ∀ i, fs.names old = some i → fs.names new = some i → fs.data i = [] := by
  constructor
  · intro h i hold hnew
    have hcreat : fs.creat new = (fs.setData i [], i) := by rw [Fs.creat, hnew]
    have hmain : main fs old new [Pass.ok BUF_SIZE 0] true = (fs.setData i [], .success) := by
      simp [main, hold, hcreat, loop, pass, Pass.ok, readAt]
    have hcontents := h [Pass.ok BUF_SIZE 0] true (by rw [hmain])
    simp only [hmain, Fs.contents, Fs.setData_names, hnew, hold, Option.map_some,
      Fs.setData_data_self, Option.some.injEq] at hcontents
    exact hcontents.symm
  · intro h as closes hsuccess
    cases hold : fs.names old with
    | none =>
      simp only [main, hold] at hsuccess
      cases hsuccess
    | some i =>
      obtain ⟨s, hloop, hfs⟩ := main_success hold hsuccess
      have hcontents : fs.contents old = some (fs.data i) := by rw [Fs.contents, hold]; rfl
      rw [hfs, hcontents]
      by_cases hnew : fs.names new = some i
      · have hnil := h i hold hnew
        have hcreat : fs.creat new = (fs.setData i [], i) := by rw [Fs.creat, hnew]
        rw [hcreat] at hloop
        rw [loop_of_empty as (Fs.setData_data_self ..) hloop, hnil]
        simp [Fs.contents, hnew]
      · obtain ⟨hinv, hwhole, hend⟩ := loop_whole as (inv_start hold hnew) whole_start hloop
        exact (whole_iff_contents hinv hend).mp hwhole

/-- **The source is gone.**  `copy a a`, with one byte in the file: the program ends with
`EXIT_SUCCESS`, and the file is empty. -/
theorem main_truncates :
    (main (Holes.oneFile [1]) "a" "a" [Pass.ok BUF_SIZE 1] true).2 = .success ∧
      (Holes.oneFile [1]).contents "a" = some [1] ∧
      (main (Holes.oneFile [1]) "a" "a" [Pass.ok BUF_SIZE 1] true).1.contents "a" = some [] := by
  decide

end Plain

end Tlpi.Copy
