import Tlpi.Lib.CString
import Tlpi.Lib.Assoc

/-!
# The environment

`environ` of `chapter6/exercise_3.c`: an array of string pointers that ends with a
`NULL`.  What lies behind the first `NULL` is memory that the array still owns; nobody
reads it, but `myUnsetenv` leaves old entries there.

`getenv` and `putenv` are the library's: the first entry of the form `name=...` counts,
and `putenv` replaces that entry or appends one, in an array that is as long as it needs
to be.  `mySetenv` and `myUnsetenv` are the program's; the second works on the array
in place, with one pointer that reads and one that writes.
-/

namespace Tlpi.Env

open Tlpi.Lib

/-- The character `'='`. -/
def EQ : UInt8 := 61

/-- An array of string pointers, `none` being `NULL`, that has a terminator. -/
structure Environ where
  cells : List (Option CStr)
  terminated : none ∈ cells
  deriving DecidableEq

/-- The strings before the first `NULL`. -/
def entriesOf : List (Option CStr) → List CStr
  | some e :: cells => e :: entriesOf cells
  | _ => []

def Environ.entries (env : Environ) : List CStr := entriesOf env.cells

/-- An array that holds these entries and nothing else. -/
def Environ.ofEntries (es : List CStr) : Environ :=
  ⟨es.map some ++ [none], by simp⟩

/-! ### The library's functions -/

theorem noNul_drop {e : CStr} (n : Nat) : 0 ∉ e.bytes.drop n :=
  fun h => e.noNul (List.mem_of_mem_drop h)

/-- The value that an entry gives to a name. -/
def valueOf (name e : CStr) : Option CStr :=
  if (name.bytes ++ [EQ]) <+: e.bytes then some ⟨e.bytes.drop (name.strlen + 1), noNul_drop _⟩
  else none

def getenv (env : Environ) (name : CStr) : Option CStr := lookup valueOf env.entries name

/-- The name that an entry defines: what stands before its first `'='`. -/
def nameOf (e : CStr) : CStr :=
  ⟨e.bytes.takeWhile (· ≠ EQ), fun h => e.noNul ((List.takeWhile_sublist _).mem h)⟩

/-- `putenv(string)`, for a string that contains `'='`. -/
def putenv (env : Environ) (string : CStr) : Environ :=
  .ofEntries (putFirst valueOf (nameOf string) string env.entries)

/-! ### `mySetenv` -/

/-- `snprintf(string, len, "%s=%s", name, value)`. -/
def joinEq (name value : CStr) : CStr where
  bytes := name.bytes ++ EQ :: value.bytes
  noNul := by
    intro h
    rcases List.mem_append.mp h with h | h
    · exact name.noNul h
    · rcases List.mem_cons.mp h with h | h
      · exact absurd h (by decide)
      · exact value.noNul h

/-- `name == NULL || name[0] == '\0' || strchr(name, '=') != NULL`, the other way
round: the name that is left. -/
def validName : Option CStr → Option CStr
  | none => none
  | some name => if name.byteAt 0 = 0 ∨ name.strchr EQ ≠ none then none else some name

/-- The environment and the result; `malloc` succeeds. -/
def mySetenv (env : Environ) (name : Option CStr) (value : CStr) (overwrite : Int) :
    Environ × Int :=
  match validName name with
  | none => (env, -1)
  | some name =>
      if getenv env name ≠ none ∧ overwrite = 0 then (env, 0)
      else (putenv env (joinEq name value), 0)

/-! ### `myUnsetenv` -/

/-- `strncmp(*env_ptr, name, name_len) == 0 && (*env_ptr)[name_len] == '='`. -/
def isEntryOf (name e : CStr) : Bool :=
  strncmp e.bytes name.bytes name.strlen == 0 && e.byteAt name.strlen == EQ

/-- The `while` loop and the store behind it, `r` and `w` being the places that
`env_ptr` and `write_ptr` point to. -/
def compact (name : CStr) (cells : List (Option CStr)) (r w : Nat) : List (Option CStr) :=
  match h : cells[r]? with
  | some (some e) =>
      if isEntryOf name e then compact name cells (r + 1) w
      else compact name (cells.set w (some e)) (r + 1) (w + 1)
  | _ => cells.set w none
termination_by cells.length - r
decreasing_by
  all_goals
    have hr : r < cells.length := (List.getElem?_eq_some_iff.mp h).1
    first
      | omega
      | rw [List.length_set]; omega

theorem compact_of_entry {name e : CStr} {cells : List (Option CStr)} {r w : Nat}
    (h : cells[r]? = some (some e)) : compact name cells r w =
      if isEntryOf name e then compact name cells (r + 1) w
      else compact name (cells.set w (some e)) (r + 1) (w + 1) := by
  rw [compact]
  split
  · rename_i e' he'
    rw [he'] at h
    cases h
    rfl
  · rename_i hne
    exact absurd h (hne e)

theorem compact_of_null {name : CStr} {cells : List (Option CStr)} {r w : Nat}
    (h : cells[r]? = some none) : compact name cells r w = cells.set w none := by
  rw [compact]
  split
  · rename_i e he
    rw [he] at h
    cases h
  · rfl

theorem exists_cells_eq {cells : List (Option CStr)} (h : none ∈ cells) :
    ∃ tail, cells = (entriesOf cells).map some ++ none :: tail := by
  induction cells with
  | nil => exact absurd h List.not_mem_nil
  | cons c cells ih =>
    cases c with
    | none => exact ⟨cells, rfl⟩
    | some e =>
      obtain ⟨tail, htail⟩ := ih ((List.mem_cons.mp h).resolve_left (by simp))
      exact ⟨tail, by rw [entriesOf, List.map_cons, List.cons_append, ← htail]⟩

@[simp] theorem entriesOf_map_some_append (es : List CStr) (tail : List (Option CStr)) :
    entriesOf (es.map some ++ none :: tail) = es := by
  induction es with
  | nil => rfl
  | cons e es ih => rw [List.map_cons, List.cons_append, entriesOf, ih]

/-- The loop from the middle: `kept` has been written, `junk` has been read and not yet
overwritten, `todo` has not been read.  It never reads what it has written. -/
theorem compact_middle (name : CStr) (todo : List CStr) (tail : List (Option CStr)) :
    ∀ (kept : List CStr) (junk : List (Option CStr)),
      ∃ rest, compact name (kept.map some ++ (junk ++ (todo.map some ++ none :: tail)))
          (kept.length + junk.length) kept.length =
        (kept ++ todo.filter fun e => !isEntryOf name e).map some ++ none :: rest := by
  induction todo with
  | nil =>
    intro kept junk
    rw [compact_of_null (by simp)]
    cases junk with
    | nil => exact ⟨tail, by simp⟩
    | cons j junk => exact ⟨junk ++ none :: tail, by simp⟩
  | cons e todo ih =>
    intro kept junk
    rw [compact_of_entry (e := e) (by simp)]
    by_cases he : isEntryOf name e
    · obtain ⟨rest, hrest⟩ := ih kept (junk ++ [some e])
      refine ⟨rest, ?_⟩
      rw [if_pos he, List.filter_cons_of_neg (by simp [he]), ← hrest]
      simp [Nat.add_assoc]
    · rw [if_neg he, List.filter_cons_of_pos (by simp [he])]
      cases junk with
      | nil =>
        obtain ⟨rest, hrest⟩ := ih (kept ++ [e]) []
        refine ⟨rest, ?_⟩
        simpa using hrest
      | cons j junk =>
        obtain ⟨rest, hrest⟩ := ih (kept ++ [e]) (junk ++ [some e])
        refine ⟨rest, ?_⟩
        have harith : kept.length + (junk.length + 1) + 1 = kept.length + 1 + (junk.length + 1) := by
          omega
        simpa [harith] using hrest

/-- What the whole loop leaves: the entries of other names, in their order. -/
theorem compact_spec (name : CStr) {cells : List (Option CStr)} (h : none ∈ cells) :
    ∃ rest, compact name cells 0 0 =
      ((entriesOf cells).filter fun e => !isEntryOf name e).map some ++ none :: rest := by
  obtain ⟨tail, htail⟩ := exists_cells_eq h
  obtain ⟨rest, hrest⟩ := compact_middle name (entriesOf cells) tail [] []
  refine ⟨rest, ?_⟩
  rw [List.map_nil, List.nil_append, List.nil_append, ← htail] at hrest
  exact hrest

/-- The environment and the result. -/
def myUnsetenv (env : Environ) (name : Option CStr) : Environ × Int :=
  match validName name with
  | none => (env, -1)
  | some name =>
      (⟨compact name env.cells 0 0, by
        obtain ⟨rest, hrest⟩ := compact_spec name env.terminated
        rw [hrest]
        simp⟩, 0)

end Tlpi.Env
