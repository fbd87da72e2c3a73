import Mathlib.Data.List.TakeWhile
import Tlpi.Lib.CString

/-!
# Fields of a fixed width

A record has fields of a fixed width that hold strings.  `strncpy` fills a field up with NUL
bytes, and puts none there if the string takes the whole field.  A function that is given the
field for a string does not know its width: it goes on into what lies behind the field until
it comes to a NUL.

* `cstrOf_append`: the string that begins in a field is the one in the field, unless the field
  is full.
* `cstrOf_strncpyField`: a string that the field can hold is the one in the field.
* `strrchr_append_cons`: the last occurrence of a character.
-/

namespace Tlpi.Lib

/-- The string that is at the beginning of some bytes. -/
def cstrOf (b : Bytes) : Bytes := b.takeWhile (· ≠ 0)

/-- What `strncpy(field, s, n)` leaves in a field of `n` bytes. -/
def strncpyField (n : Nat) (s : Bytes) : Bytes := s.take n ++ List.replicate (n - s.length) 0

/-- `strrchr(s, x)`: the string from the last `x` on. -/
def strrchr (x : UInt8) : Bytes → Option Bytes
  | [] => none
  | c :: s => (strrchr x s).or (if c = x then some (c :: s) else none)

section Field

variable {a b s : Bytes} {n : Nat}

theorem cstrOf_eq_self : cstrOf s = s ↔ 0 ∉ s := by
  rw [cstrOf, List.takeWhile_eq_self_iff]
  simp only [decide_eq_true_iff]
  exact ⟨fun h h0 => h 0 h0 rfl, fun h c hc h0 => h (h0 ▸ hc)⟩

theorem zero_not_mem_cstrOf (b : Bytes) : 0 ∉ cstrOf b :=
  fun h => by simpa using List.mem_takeWhile_imp h

theorem length_cstrOf_le (b : Bytes) : (cstrOf b).length ≤ b.length :=
  (List.takeWhile_prefix _).length_le

theorem cstrOf_cons {c : UInt8} (hc : c ≠ 0) (b : Bytes) : cstrOf (c :: b) = c :: cstrOf b := by
  rw [cstrOf, List.takeWhile_cons, if_pos (decide_eq_true hc)]
  rfl

/-- The string that begins in a field, with `b` behind the field. -/
theorem cstrOf_append (a b : Bytes) :
    cstrOf (a ++ b) = if 0 ∈ a then cstrOf a else a ++ cstrOf b := by
  induction a with
  | nil => rfl
  | cons c a ih =>
    by_cases hc : c = 0
    · subst hc
      simp [cstrOf]
    · have hmem : 0 ∈ c :: a ↔ 0 ∈ a := by simp [Ne.symm hc]
      rw [List.cons_append, cstrOf_cons hc, cstrOf_cons hc, ih]
      by_cases h0 : 0 ∈ a
      · rw [if_pos h0, if_pos (hmem.mpr h0)]
      · rw [if_neg h0, if_neg fun h => h0 (hmem.mp h), List.cons_append]

/-- With a NUL behind them, bytes are the string in them, a NUL and a rest. -/
theorem exists_append_zero (a b : Bytes) : ∃ rest, a ++ 0 :: b = cstrOf a ++ 0 :: rest := by
  induction a with
  | nil => exact ⟨b, rfl⟩
  | cons c a ih =>
    by_cases hc : c = 0
    · subst hc
      exact ⟨a ++ 0 :: b, rfl⟩
    · obtain ⟨rest, hrest⟩ := ih
      exact ⟨rest, by rw [cstrOf_cons hc, List.cons_append, hrest, List.cons_append]⟩

theorem cstrOf_append_zero (a b : Bytes) : cstrOf (a ++ 0 :: b) = cstrOf a := by
  obtain ⟨rest, hrest⟩ := exists_append_zero a b
  rw [hrest, cstrOf_append, if_neg (zero_not_mem_cstrOf a)]
  exact List.append_nil _

theorem length_strncpyField (n : Nat) (s : Bytes) : (strncpyField n s).length = n := by
  rw [strncpyField, List.length_append, List.length_take, List.length_replicate]
  omega

/-- A field is full exactly if the string takes all of it. -/
theorem zero_mem_strncpyField (hs : 0 ∉ s) : 0 ∈ strncpyField n s ↔ s.length < n := by
  have htake : 0 ∉ s.take n := fun h => hs (List.mem_of_mem_take h)
  rw [strncpyField, List.mem_append, or_iff_right htake, List.mem_replicate, and_iff_left rfl]
  omega

/-- With a NUL behind the field, what can be seen of a string is what the field holds of it. -/
theorem cstrOf_strncpyField_append (hs : 0 ∉ s) (n : Nat) (t : Bytes) :
    cstrOf (strncpyField n s ++ 0 :: t) = s.take n := by
  have htake : 0 ∉ s.take n := fun h => hs (List.mem_of_mem_take h)
  rw [cstrOf_append_zero, strncpyField, cstrOf_append, if_neg htake]
  cases n - s.length with
  | zero => exact List.append_nil _
  | succ k => exact List.append_nil _

theorem cstrOf_strncpyField (hs : 0 ∉ s) (hlen : s.length ≤ n) : cstrOf (strncpyField n s) = s := by
  rw [← cstrOf_append_zero _ [], cstrOf_strncpyField_append hs, List.take_of_length_le hlen]

end Field

theorem strrchr_eq_none {x : UInt8} {s : Bytes} (h : x ∉ s) : strrchr x s = none := by
  induction s with
  | nil => rfl
  | cons c s ih =>
    rw [List.mem_cons, not_or] at h
    rw [strrchr, ih h.2, if_neg (Ne.symm h.1)]
    rfl

/-- The last occurrence is the one that has no other behind it. -/
theorem strrchr_append_cons {x : UInt8} {s : Bytes} (h : x ∉ s) (t : Bytes) :
    strrchr x (t ++ x :: s) = some (x :: s) := by
  induction t with
  | nil =>
    rw [List.nil_append, strrchr, strrchr_eq_none h, if_pos rfl]
    rfl
  | cons c t ih =>
    rw [List.cons_append, strrchr, ih]
    rfl

end Tlpi.Lib
