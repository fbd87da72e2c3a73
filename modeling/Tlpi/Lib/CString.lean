import Mathlib.Data.List.TakeWhile
import Tlpi.Lib.FileSys

/-!
# C strings

A C string is the list of its bytes, without the terminating NUL and with no NUL
among them.  The functions of `string.h` that the programs call are defined byte by
byte, as their documentation has them; the lemmas say what they mean on lists.
-/

namespace Tlpi.Lib

/-- A string: no byte of it is the terminator. -/
structure CStr where
  bytes : Bytes
  noNul : 0 ∉ bytes
  deriving DecidableEq

namespace CStr

theorem ext {s t : CStr} (h : s.bytes = t.bytes) : s = t := by
  cases s
  cases t
  cases h
  rfl

/-- `s[i]`, which for `i = strlen(s)` is the terminator. -/
def byteAt (s : CStr) (i : Nat) : UInt8 := s.bytes.getD i 0

def strlen (s : CStr) : Nat := s.bytes.length

/-- `strchr(s, c)` for a character other than NUL, as an index. -/
def strchr (s : CStr) (c : UInt8) : Option Nat := s.bytes.idxOf? c

theorem strchr_ne_none {s : CStr} {c : UInt8} : s.strchr c ≠ none ↔ c ∈ s.bytes := by
  rw [strchr, ne_eq, List.idxOf?_eq_none_iff, not_not]

theorem byteAt_zero_eq_zero {s : CStr} : s.byteAt 0 = 0 ↔ s.bytes = [] := by
  cases h : s.bytes with
  | nil => simp [CStr.byteAt, h]
  | cons b bs =>
    have hb : b ≠ 0 := fun hb => s.noNul (by rw [h, hb]; exact List.mem_cons_self ..)
    simp [CStr.byteAt, h, hb]

end CStr

/-- The string in a buffer: the bytes before the first NUL. -/
def cstring (buf : Bytes) : Bytes := buf.takeWhile (· ≠ 0)

theorem cstring_eq_self {buf : Bytes} (h : 0 ∉ buf) : cstring buf = buf := by
  refine List.takeWhile_eq_self_iff.mpr fun c hc => decide_eq_true ?_
  rintro rfl
  exact h hc

theorem cstring_append_zero {s : Bytes} (h : 0 ∉ s) (rest : Bytes) :
    cstring (s ++ 0 :: rest) = s := by
  induction s with
  | nil => rfl
  | cons c s ih =>
    rw [List.mem_cons, not_or] at h
    rw [List.cons_append, cstring, List.takeWhile_cons_of_pos (by simpa using Ne.symm h.1)]
    exact congrArg (c :: ·) (ih h.2)

/-- The bytes of a text of the program. -/
def ascii (s : String) : Bytes := s.toList.map Char.toUInt8

/-- `strncmp` on the bytes before the terminators. -/
def strncmp : Bytes → Bytes → Nat → Int
  | _, _, 0 => 0
  | s, t, n + 1 =>
      if s.headD 0 = t.headD 0 then
        if s.headD 0 = 0 then 0 else strncmp s.tail t.tail n
      else (s.headD 0).toNat - (t.headD 0).toNat

/-- `strncmp(s, t, strlen(t)) == 0`: `s` begins with `t`. -/
theorem strncmp_length_eq_zero {s t : Bytes} (ht : 0 ∉ t) :
    strncmp s t t.length = 0 ↔ t <+: s := by
  induction t generalizing s with
  | nil => simp [strncmp]
  | cons b t ih =>
    have hb : b ≠ 0 := fun hb => ht (by rw [hb]; exact List.mem_cons_self ..)
    have ht' : 0 ∉ t := fun h => ht (List.mem_cons_of_mem _ h)
    cases s with
    | nil =>
      have hne : (0 : UInt8).toNat ≠ b.toNat := fun h => hb (UInt8.toNat_inj.mp h).symm
      rw [List.length_cons, strncmp, List.headD_nil, List.headD_cons, if_neg hb.symm]
      simp only [List.prefix_nil, reduceCtorEq, iff_false]
      omega
    | cons a s =>
      rw [List.length_cons, strncmp, List.headD_cons, List.headD_cons, List.cons_prefix_cons]
      by_cases hab : a = b
      · rw [if_pos hab, if_neg (by rw [hab]; exact hb), List.tail_cons, List.tail_cons, ih ht']
        exact (and_iff_right hab.symm).symm
      · have hne : a.toNat ≠ b.toNat := fun h => hab (UInt8.toNat_inj.mp h)
        rw [if_neg hab]
        constructor
        · intro h
          omega
        · exact fun h => absurd h.1.symm hab

end Tlpi.Lib
