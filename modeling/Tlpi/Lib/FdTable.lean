import Mathlib.Logic.Function.Basic
import Mathlib.Data.List.Nodup
import Mathlib.Tactic.Common

/-!
# Descriptor tables

The descriptors of a process: a number is open on something, or it is not.  Numbers that
the kernel hands out stay below the soft limit of `RLIMIT_NOFILE`; the table may hold
larger ones from before the limit was lowered.

`openFd` takes the lowest number that is free, `dup2` the one it is told to, and `close`
of a number that is not open does nothing.
-/

namespace Tlpi.Lib

/-- What each descriptor is open on. -/
abbrev FdTable (α : Type) := Nat → Option α

namespace FdTable

variable {α : Type}

def close (t : FdTable α) (fd : Nat) : FdTable α := Function.update t fd none

/-- The descriptors of the list, closed one after another. -/
def closeAll (t : FdTable α) (fds : List Nat) : FdTable α := fds.foldl close t

/-- The lowest free descriptor below `limit`. -/
def lowestFree (t : FdTable α) (limit : Nat) : Option Nat :=
  (List.range limit).find? fun fd => (t fd).isNone

/-- `open`: the descriptor that is returned, and the table after it.  Without a free
descriptor it fails. -/
def openFd (t : FdTable α) (limit : Nat) (a : α) : Option (Nat × FdTable α) :=
  (t.lowestFree limit).map fun fd => (fd, Function.update t fd (some a))

/-- `dup2(old, new)`: the table after it.  It fails when `old` is not open or `new` is
beyond the limit. -/
def dup2 (t : FdTable α) (limit old new : Nat) : Option (FdTable α) :=
  match t old with
  | none => none
  | some a => if limit ≤ new then none else some (Function.update t new (some a))

@[simp] theorem close_self (t : FdTable α) (fd : Nat) : t.close fd fd = none :=
  Function.update_self ..

theorem close_of_ne (t : FdTable α) {fd i : Nat} (h : i ≠ fd) : t.close fd i = t i :=
  Function.update_of_ne h ..

theorem closeAll_apply (t : FdTable α) (fds : List Nat) (i : Nat) :
    t.closeAll fds i = if i ∈ fds then none else t i := by
  induction fds generalizing t with
  | nil => rfl
  | cons fd fds ih =>
    show (t.close fd).closeAll fds i = _
    rw [ih]
    by_cases hi : i = fd
    · rw [hi, close_self, ite_self, if_pos List.mem_cons_self]
    · rw [close_of_ne t hi]
      exact if_congr ⟨List.mem_cons_of_mem fd, fun h => (List.mem_cons.mp h).resolve_left hi⟩ rfl rfl

theorem lowestFree_eq_some {t : FdTable α} {limit fd : Nat} :
    t.lowestFree limit = some fd ↔ fd < limit ∧ t fd = none ∧ ∀ i < fd, t i ≠ none := by
  rw [lowestFree, List.find?_range_eq_some]
  simp only [Option.isNone_iff_eq_none, List.mem_range, Bool.not_eq_eq_eq_not, Bool.not_true,
    Option.isNone_eq_false_iff, Option.isSome_iff_ne_none]
  tauto

/-- A descriptor that `open` returns was free, and is not free any more. -/
theorem openFd_eq_some {t t' : FdTable α} {limit fd : Nat} {a : α}
    (h : t.openFd limit a = some (fd, t')) :
    fd < limit ∧ t fd = none ∧ (∀ i < fd, t i ≠ none) ∧ t' = Function.update t fd (some a) := by
  obtain ⟨i, hi, heq⟩ := Option.map_eq_some_iff.mp h
  cases heq
  obtain ⟨hlt, hnone, hleast⟩ := lowestFree_eq_some.mp hi
  exact ⟨hlt, hnone, hleast, rfl⟩

theorem dup2_eq_some {t t' : FdTable α} {limit old new : Nat} (h : t.dup2 limit old new = some t') :
    t' = Function.update t new (t old) := by
  rw [dup2] at h
  split at h
  · cases h
  · next a ha =>
    split at h
    · cases h
    · cases h
      rw [ha]

end FdTable

end Tlpi.Lib
