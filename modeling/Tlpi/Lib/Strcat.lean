import Tlpi.Lib.CString

/-!
# `strcat`

An array of `char` is the list of its bytes, and a store outside it has no result.  `strcat`
stores the bytes of the second string, and a NUL, from the terminator of the first one on.

* `strcat_eq_some`, `strcat_eq_none`: what is in the array afterwards, if there is room.
* `strcat_append`: two calls are one call with both strings, out of bounds or not.
-/

namespace Tlpi.Lib

/-- `mem[i] = b`, `none` if this is outside the array. -/
def store (mem : Bytes) (i : Nat) (b : UInt8) : Option Bytes :=
  if i < mem.length then some (mem.set i b) else none

def storeAll : Bytes → Nat → Bytes → Option Bytes
  | mem, _, [] => some mem
  | mem, i, b :: bs => (store mem i b).bind fun mem => storeAll mem (i + 1) bs

/-- `strcat(mem, src)` -/
def strcat (mem src : Bytes) : Option Bytes := storeAll mem (cstring mem).length (src ++ [0])

section Strcat

variable {mem s t rest bs : Bytes} {i : Nat}

theorem storeAll_append {mid : Bytes} (h : mid.length = bs.length) (pre post : Bytes) :
    storeAll (pre ++ mid ++ post) pre.length bs = some (pre ++ bs ++ post) := by
  induction bs generalizing pre mid with
  | nil =>
    rw [List.length_nil, List.length_eq_zero_iff] at h
    rw [h, storeAll]
  | cons b bs ih =>
    obtain ⟨c, mid, rfl⟩ : ∃ c mid', mid = c :: mid' := by
      cases mid with
      | nil => cases h
      | cons c mid => exact ⟨c, mid, rfl⟩
    rw [List.length_cons, List.length_cons, Nat.add_right_cancel_iff] at h
    have hstore : store (pre ++ c :: mid ++ post) pre.length b = some (pre ++ [b] ++ mid ++ post) := by
      rw [store, if_pos (by simp)]
      simp
    have hnext := ih h (pre ++ [b])
    rw [List.length_append, List.length_singleton] at hnext
    rw [storeAll, hstore, Option.bind_some, hnext]
    simp

theorem storeAll_eq_none (hi : i ≤ mem.length) (h : mem.length < i + bs.length) :
    storeAll mem i bs = none := by
  induction bs generalizing mem i with
  | nil =>
    rw [List.length_nil] at h
    omega
  | cons b bs ih =>
    rw [List.length_cons] at h
    rw [storeAll, store]
    split_ifs with hlt
    · exact ih (by rw [List.length_set]; omega) (by rw [List.length_set]; omega)
    · rfl

/-- There is room for `t`. -/
theorem strcat_eq_some (hs : 0 ∉ s) (h : t.length ≤ rest.length) :
    strcat (s ++ 0 :: rest) t = some (s ++ t ++ 0 :: rest.drop t.length) := by
  have hsplit : s ++ 0 :: rest = s ++ (0 :: rest).take (t.length + 1) ++ rest.drop t.length := by
    rw [List.append_assoc, List.take_succ_cons, List.cons_append, List.take_append_drop]
  have hlen : ((0 :: rest).take (t.length + 1)).length = (t ++ [0]).length := by
    simp [Nat.min_eq_left h]
  rw [strcat, cstring_append_zero hs, hsplit, storeAll_append hlen]
  simp

theorem strcat_eq_none (hs : 0 ∉ s) (h : rest.length < t.length) :
    strcat (s ++ 0 :: rest) t = none := by
  rw [strcat, cstring_append_zero hs]
  refine storeAll_eq_none ?_ ?_
  · simp
  · simpa using by omega

/-- **One after the other.** -/
theorem strcat_append (hs : 0 ∉ s) (ht : 0 ∉ t) (u : Bytes) :
    ((strcat (s ++ 0 :: rest) t).bind fun mem => strcat mem u) =
      strcat (s ++ 0 :: rest) (t ++ u) := by
  have hst : 0 ∉ s ++ t := List.not_mem_append hs ht
  by_cases hfits : t.length ≤ rest.length
  · rw [strcat_eq_some hs hfits, Option.bind_some]
    by_cases hboth : (t ++ u).length ≤ rest.length
    · rw [List.length_append] at hboth
      rw [strcat_eq_some hst (by rw [List.length_drop]; omega),
        strcat_eq_some hs (by rw [List.length_append]; omega)]
      simp [List.drop_drop]
    · rw [List.length_append] at hboth
      rw [strcat_eq_none hst (by rw [List.length_drop]; omega),
        strcat_eq_none hs (by rw [List.length_append]; omega)]
  · rw [strcat_eq_none hs (by omega), strcat_eq_none hs (by rw [List.length_append]; omega)]
    rfl

theorem strcat_nil (hs : 0 ∉ s) : strcat (s ++ 0 :: rest) [] = some (s ++ 0 :: rest) := by
  rw [strcat_eq_some hs (Nat.zero_le _)]
  simp

end Strcat

end Tlpi.Lib
