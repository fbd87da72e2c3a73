import Mathlib.Logic.Function.Basic
import Mathlib.Tactic.Common

/-!
# Regular files

A regular file is the list of its bytes.  `readAt` and `pwrite` are what `read` and
`write` do to it at a file offset: a read gives at most the bytes there are, and a
write past the end fills the gap with zero bytes.  Moving the offset alone changes
no file.

`Fs` is a file system as far as the contents of regular files go: names lead to
inodes, and every inode that has a name was handed out before `next`, so a file
that is created gets an inode of its own.
-/

namespace Tlpi.Lib

abbrev Bytes := List UInt8

/-- What `read(fd, buf, count)` returns at offset `off` when `k` bytes are ready:
before the end of the file always at least one. -/
def readAt (f : Bytes) (off count k : Nat) : Bytes :=
  (f.drop off).take (min count (max 1 k))

/-- The file after `write` has put `b` at offset `off`. -/
def pwrite (f : Bytes) (off : Nat) (b : Bytes) : Bytes :=
  if b = [] then f
  else f.take off ++ List.replicate (off - f.length) 0 ++ b ++ f.drop (off + b.length)

/-- Writing at or past the end. -/
theorem pwrite_of_length_le {f : Bytes} {off : Nat} (h : f.length ≤ off) {b : Bytes} (hb : b ≠ []) :
    pwrite f off b = f ++ List.replicate (off - f.length) 0 ++ b := by
  rw [pwrite, if_neg hb, List.take_of_length_le h,
    List.drop_of_length_le (Nat.le_trans h (Nat.le_add_right _ _)), List.append_nil]

theorem readAt_eq_nil {f : Bytes} {off count k : Nat} (hc : 0 < count) :
    readAt f off count k = [] ↔ f.length ≤ off := by
  rw [readAt, ← List.length_eq_zero_iff, List.length_take, List.length_drop]
  omega

theorem length_readAt_le {f : Bytes} {off count k : Nat} :
    (readAt f off count k).length ≤ count := by
  rw [readAt, List.length_take]
  omega

theorem add_length_readAt_le {f : Bytes} {off count k : Nat} (h : off ≤ f.length) :
    off + (readAt f off count k).length ≤ f.length := by
  rw [readAt, List.length_take, List.length_drop]
  omega

/-- What has been read so far, and the next chunk. -/
theorem take_add_readAt (f : Bytes) (off count k : Nat) :
    f.take (off + (readAt f off count k).length) = f.take off ++ readAt f off count k := by
  rw [List.take_add, readAt]
  congr 1
  rw [List.length_take, List.take_eq_take_iff]
  omega

/-- Names, contents, and the next free inode. -/
structure Fs where
  names : String → Option Nat
  data : Nat → Bytes
  next : Nat
  names_lt : ∀ p i, names p = some i → i < next

namespace Fs

/-- With one name `q`, the inode 0 is the only one. -/
theorem names_lt_single (q p : String) (i : Nat) (h : (if p = q then some 0 else none) = some i) :
    i < 1 := by
  split at h
  · cases h
    exact Nat.one_pos
  · cases h

def setData (fs : Fs) (i : Nat) (b : Bytes) : Fs := { fs with data := Function.update fs.data i b }

/-- `open(path, O_CREAT | O_WRONLY | O_TRUNC)`: the file system after it, and the
inode of the file. -/
def creat (fs : Fs) (path : String) : Fs × Nat :=
  match fs.names path with
  | some i => (fs.setData i [], i)
  | none =>
      ({ names := Function.update fs.names path (some fs.next)
         data := Function.update fs.data fs.next []
         next := fs.next + 1
         names_lt := by
           intro p i h
           rcases eq_or_ne p path with rfl | hne
           · rw [Function.update_self, Option.some.injEq] at h
             omega
           · rw [Function.update_of_ne hne] at h
             exact Nat.lt_succ_of_lt (fs.names_lt p i h) }, fs.next)

/-- `open(path, O_CREAT | O_WRONLY | O_APPEND)`, likewise: nothing is truncated. -/
def touch (fs : Fs) (path : String) : Fs × Nat :=
  match fs.names path with
  | some i => (fs, i)
  | none => fs.creat path

/-- What a reader of `path` finds. -/
def contents (fs : Fs) (path : String) : Option Bytes := (fs.names path).map fs.data

@[simp] theorem setData_names (fs : Fs) (i : Nat) (b : Bytes) : (fs.setData i b).names = fs.names :=
  rfl

@[simp] theorem setData_data_self (fs : Fs) (i : Nat) (b : Bytes) : (fs.setData i b).data i = b := by
  simp [setData]

theorem setData_data_of_ne (fs : Fs) {i j : Nat} (h : j ≠ i) (b : Bytes) :
    (fs.setData i b).data j = fs.data j := by
  simp [setData, h]

/-- Writing back what is there. -/
theorem setData_data (fs : Fs) (i : Nat) : fs.setData i (fs.data i) = fs := by
  rw [setData, Function.update_eq_self]

theorem creat_data_self (fs : Fs) (path : String) : (fs.creat path).1.data (fs.creat path).2 = [] := by
  unfold creat
  split <;> simp

theorem creat_names_self (fs : Fs) (path : String) :
    (fs.creat path).1.names path = some (fs.creat path).2 := by
  unfold creat
  split <;> simp_all

/-- A file that another name leads to is not the one that `creat` opens. -/
theorem ne_creat (fs : Fs) {p path : String} {i : Nat} (hp : fs.names p = some i)
    (hpath : fs.names path ≠ some i) : i ≠ (fs.creat path).2 := by
  have hlt := fs.names_lt p i hp
  unfold creat
  split
  · rename_i j hj
    rintro rfl
    exact hpath hj
  · exact Nat.ne_of_lt hlt

theorem creat_data_of_ne (fs : Fs) (path : String) {j : Nat} (h : j ≠ (fs.creat path).2) :
    (fs.creat path).1.data j = fs.data j := by
  unfold creat at h ⊢
  split at h <;> simp_all [setData]

theorem creat_names_of_ne (fs : Fs) {p path : String} (h : p ≠ path) :
    (fs.creat path).1.names p = fs.names p := by
  unfold creat
  split
  · rfl
  · exact Function.update_of_ne h ..

theorem touch_names_self (fs : Fs) (path : String) :
    (fs.touch path).1.names path = some (fs.touch path).2 := by
  unfold touch
  split
  · assumption
  · exact fs.creat_names_self path

theorem touch_data_self (fs : Fs) (path : String) :
    (fs.touch path).1.data (fs.touch path).2 = (fs.contents path).getD [] := by
  unfold touch contents
  split
  · next h => rw [h]; rfl
  · next h =>
    rw [h]
    exact fs.creat_data_self path

theorem ne_touch (fs : Fs) {p path : String} {i : Nat} (hp : fs.names p = some i)
    (hpath : fs.names path ≠ some i) : i ≠ (fs.touch path).2 := by
  unfold touch
  split
  · next j hj =>
    rintro rfl
    exact hpath hj
  · exact fs.ne_creat hp hpath

theorem touch_data_of_ne (fs : Fs) (path : String) {j : Nat} (h : j ≠ (fs.touch path).2) :
    (fs.touch path).1.data j = fs.data j := by
  unfold touch at h ⊢
  split at h
  · rfl
  · exact fs.creat_data_of_ne path h

theorem touch_names_of_ne (fs : Fs) {p path : String} (h : p ≠ path) :
    (fs.touch path).1.names p = fs.names p := by
  unfold touch
  split
  · rfl
  · exact fs.creat_names_of_ne h

end Fs

end Tlpi.Lib
