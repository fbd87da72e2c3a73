import Tlpi.Lib.FdTable
import Mathlib.Data.Finset.Card
import Mathlib.Data.Finset.Range

/-!
# The experiment with `RLIMIT_NOFILE`

The part of `main` in `chapter36/rlimit.c` that sets the soft limit to half the hard one,
opens `/dev/null` until `open` fails, and closes what is in the array `fds`.  A kernel
keeps the hard limit below `2^31`, so the `int` that counts through the array does not
overflow, and the array is the `calloc` that succeeded.

The array starts with zeros and is ten entries longer than the limit.  The opening loop
ends with its first failure, which it records as `-1`, and by then the array is not full:
each success took a number of its own below the limit, and 0 was taken already.  So the
closing loop, which leaves out `-1` only, comes to entries that are still 0 and closes
standard input (`run_closes_stdin`).
-/

namespace Tlpi.Rlimit

open Tlpi.Lib

variable {α : Type}

/-- The opening loop from `j` on, with `n` entries to go; `ok j` is whether the kernel
lets the `open` of pass `j` succeed if there is a free descriptor. -/
def openLoop (limit : Nat) (null : α) (ok : Nat → Bool) :
    Nat → Nat → FdTable α → List Int → FdTable α × List Int
  | 0, _, t, fds => (t, fds)
  | n + 1, j, t, fds =>
      match if ok j then t.openFd limit null else none with
      | none => (t, fds.set j (-1))
      | some (fd, t) => openLoop limit null ok n (j + 1) t (fds.set j fd)

/-- The closing loop: `if (fds[j] != -1) close(fds[j]);` -/
def closeLoop (t : FdTable α) : List Int → FdTable α
  | [] => t
  | fd :: fds => closeLoop (if fd ≠ -1 then t.close fd.toNat else t) fds

/-- The descriptors after the experiment, for a hard limit of `hard`. -/
def run (hard : Nat) (null : α) (ok : Nat → Bool) (t : FdTable α) : FdTable α :=
  let limit := hard / 2
  let fds := List.replicate (limit + 10) 0
  let (t, fds) := openLoop limit null ok (limit + 10) 0 t fds
  closeLoop t fds

/-! ### The closing loop -/

theorem closeLoop_eq (t : FdTable α) (fds : List Int) :
    closeLoop t fds = t.closeAll ((fds.filter (· ≠ -1)).map Int.toNat) := by
  induction fds generalizing t with
  | nil => rfl
  | cons fd fds ih =>
    rw [closeLoop, ih]
    by_cases h : fd = -1
    · rw [if_neg (not_not.mpr h), List.filter_cons_of_neg (by simp [h])]
    · rw [if_pos h, List.filter_cons_of_pos (by simp [h])]
      rfl

/-! ### The opening loop -/

/-- The loop has put the descriptors `opened` into the array and has `n` entries to go. -/
structure Opening (limit : Nat) (start : FdTable α) (opened : List Nat) (n : Nat) (t : FdTable α)
    (fds : List Int) : Prop where
  array : fds = opened.map Int.ofNat ++ List.replicate n 0
  room : opened.length + n = limit + 10
  nodup : opened.Nodup
  lt : ∀ fd ∈ opened, fd < limit
  free : ∀ fd ∈ opened, start fd = none
  taken : ∀ fd ∈ opened, t fd ≠ none
  same : ∀ fd, fd ∉ opened → t fd = start fd

section Open

variable {limit : Nat} {start t t' : FdTable α} {opened : List Nat} {n fd : Nat}
  {fds : List Int}

/-- There are not more descriptors than the limit allows. -/
theorem Opening.length_le (h : Opening limit start opened n t fds) : opened.length ≤ limit := by
  have hsub : opened.toFinset ⊆ Finset.range limit := by
    intro fd hfd
    rw [Finset.mem_range]
    exact h.lt fd (List.mem_toFinset.mp hfd)
  have hcard := Finset.card_le_card hsub
  rwa [List.toFinset_card_of_nodup h.nodup, Finset.card_range] at hcard

theorem set_length_map_append (x : Int) :
    (opened.map Int.ofNat ++ List.replicate (n + 1) 0).set opened.length x =
      opened.map Int.ofNat ++ x :: List.replicate n 0 := by
  rw [List.set_append_right _ _ (by rw [List.length_map]), List.length_map, Nat.sub_self,
    List.replicate_succ, List.set_cons_zero]

/-- One more `open` that succeeds. -/
theorem Opening.succ {null : α} (h : Opening limit start opened (n + 1) t fds)
    (hopen : t.openFd limit null = some (fd, t')) :
    Opening limit start (opened ++ [fd]) n t' (fds.set opened.length fd) := by
  obtain ⟨hlt, hnone, -, rfl⟩ := FdTable.openFd_eq_some hopen
  have hnew : fd ∉ opened := fun hmem => h.taken fd hmem hnone
  refine ⟨?_, ?_, ?_, ?_, ?_, ?_, ?_⟩
  · rw [h.array, set_length_map_append, List.map_append, List.append_assoc]
    rfl
  · have := h.room
    rw [List.length_append, List.length_singleton]
    omega
  · exact List.nodup_append'.mpr ⟨h.nodup, List.nodup_singleton fd, by simpa using hnew⟩
  · intro i hi
    rcases List.mem_append.mp hi with hi | hi
    · exact h.lt i hi
    · rw [List.mem_singleton.mp hi]
      exact hlt
  · intro i hi
    rcases List.mem_append.mp hi with hi | hi
    · exact h.free i hi
    · rw [List.mem_singleton.mp hi, ← h.same fd hnew, hnone]
  · intro i hi
    by_cases hifd : i = fd
    · rw [hifd, Function.update_self]
      exact Option.some_ne_none null
    · rw [Function.update_of_ne hifd]
      refine h.taken i ?_
      exact (List.mem_append.mp hi).resolve_right fun hi => hifd (List.mem_singleton.mp hi)
  · intro i hi
    rw [List.mem_append, not_or, List.mem_singleton] at hi
    rw [Function.update_of_ne hi.2, h.same i hi.1]

/-- The loop ends with a failure, and there are entries left. -/
theorem openLoop_spec (null : α) (ok : Nat → Bool) (h : Opening limit start opened n t fds) :
    ∃ (opened' : List Nat) (m : Nat) (t' : FdTable α),
      openLoop limit null ok n opened.length t fds =
        (t', opened'.map Int.ofNat ++ -1 :: List.replicate (m + 1) 0) ∧
      (∀ fd ∈ opened', start fd = none) ∧ ∀ fd, fd ∉ opened' → t' fd = start fd := by
  induction n generalizing opened t fds with
  | zero =>
    have hroom := h.room
    have hle := h.length_le
    omega
  | succ n ih =>
    rw [openLoop]
    cases hopen : if ok opened.length then t.openFd limit null else none with
    | none =>
      have hroom := h.room
      have hle := h.length_le
      obtain ⟨m, rfl⟩ : ∃ m, n = m + 1 := ⟨n - 1, by omega⟩
      refine ⟨opened, m, t, ?_, h.free, h.same⟩
      rw [h.array, set_length_map_append]
    | some r =>
      obtain ⟨fd, t'⟩ := r
      obtain ⟨-, hopen⟩ := Option.ite_none_right_eq_some.mp hopen
      have hnext := ih (h.succ hopen)
      rwa [List.length_append, List.length_singleton] at hnext

end Open

/-- What is left out are the failures. -/
theorem mem_filter_ne (opened : List Nat) (m fd : Nat) :
    fd ∈ ((opened.map Int.ofNat ++ -1 :: List.replicate (m + 1) 0).filter (· ≠ -1)).map Int.toNat ↔
      fd ∈ opened ∨ fd = 0 := by
  have hopened : (opened.map Int.ofNat).filter (· ≠ -1) = opened.map Int.ofNat := by
    rw [List.filter_eq_self]
    intro x hx
    obtain ⟨i, -, rfl⟩ := List.mem_map.mp hx
    have hne : (i : Int) ≠ -1 := by omega
    exact decide_eq_true hne
  have hzeros : (List.replicate (m + 1) (0 : Int)).filter (· ≠ -1) = List.replicate (m + 1) 0 := by
    rw [List.filter_replicate_of_pos (by decide)]
  rw [List.filter_append, hopened, List.filter_cons_of_neg (by decide), hzeros, List.map_append,
    List.map_map, List.mem_append, List.map_replicate, List.mem_replicate]
  have hid : Int.toNat ∘ Int.ofNat = id := rfl
  rw [hid, List.map_id]
  simp

/-- **What the experiment leaves.**  The descriptors are those from before, without 0. -/
theorem run_eq (hard : Nat) (null : α) (ok : Nat → Bool) (t : FdTable α) :
    run hard null ok t = t.close 0 := by
  have hstart : Opening (hard / 2) t [] (hard / 2 + 10) t (List.replicate (hard / 2 + 10) 0) :=
    ⟨rfl, Nat.zero_add _, List.nodup_nil, nofun, nofun, nofun, fun _ _ => rfl⟩
  obtain ⟨opened, m, t', hloop, hfree, hsame⟩ := openLoop_spec null ok hstart
  funext fd
  have hloop' : run hard null ok t =
      closeLoop t' (opened.map Int.ofNat ++ -1 :: List.replicate (m + 1) 0) := by
    rw [run]
    exact congrArg (fun r => closeLoop r.1 r.2) hloop
  rw [hloop', closeLoop_eq, FdTable.closeAll_apply]
  by_cases hzero : fd = 0
  · rw [if_pos ((mem_filter_ne ..).mpr (Or.inr hzero)), hzero, FdTable.close_self]
  · rw [FdTable.close_of_ne t hzero]
    by_cases hmem : fd ∈ opened
    · rw [if_pos ((mem_filter_ne ..).mpr (Or.inl hmem)), hfree fd hmem]
    · rw [if_neg fun h => ((mem_filter_ne ..).mp h).elim hmem hzero, hsame fd hmem]

/-- **The experiment always closes standard input.**  If it was open, it is closed at the
end although the loop did not open it, and the descriptors are not those from before. -/
theorem run_closes_stdin (hard : Nat) (null : α) (ok : Nat → Bool) (t : FdTable α)
    (hstdin : t 0 ≠ none) :
    run hard null ok t 0 = none ∧ (∀ fd, fd ≠ 0 → run hard null ok t fd = t fd) ∧
      ¬ ∀ fd, (run hard null ok t fd).isSome = (t fd).isSome := by
  rw [run_eq]
  refine ⟨FdTable.close_self t 0, fun fd hfd => FdTable.close_of_ne t hfd, fun hsame => ?_⟩
  have hzero := hsame 0
  rw [FdTable.close_self, Option.isSome_none] at hzero
  exact hstdin (Option.not_isSome_iff_eq_none.mp (by rw [← hzero]; exact Bool.false_ne_true))

/-- The three standard descriptors, and a hard limit of 16. -/
theorem run_closes_stdin_sixteen :
    run 16 () (fun _ => true) (fun fd => if fd < 3 then some () else none) 0 = none :=
  (run_closes_stdin 16 () (fun _ => true) (fun fd => if fd < 3 then some () else none)
    (by decide)).1

/-- The loop opens 3 to 7; after the closing loop 1 and 2 are open, and 0 is not. -/
theorem run_loses_stdin :
    ¬ ∀ fd, (run 16 () (fun _ => true) (fun fd => if fd < 3 then some () else none) fd).isSome =
      (if fd < 3 then some () else none : Option Unit).isSome := by
  intro hsame
  have hzero := hsame 0
  revert hzero
  decide

end Tlpi.Rlimit
