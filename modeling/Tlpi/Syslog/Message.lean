import Tlpi.Lib.Scan
import Tlpi.Lib.Strcat

/-!
# The message for the log

`main` of `chapter37/syslog.c` takes its options from `getopt` and puts the other arguments, with
blanks between them, into an array of 1024 bytes.  What `getopt` returns is known; that it moves
the options before the other arguments is its own business.

* `buildMessage_eq`: the calls of `strcat` are one call with the joined arguments.
* `message_of_logged`: what is logged is the joined arguments.
* `joins_iff`: nothing is stored outside the array, and the string there is what it should be,
  exactly if the joined arguments have less than 1024 bytes.
-/

namespace Tlpi.Syslog

open Tlpi.Lib

def LOG_INFO : Int := 6

def LOG_DEBUG : Int := 7

/-- `LOG_UPTO(LOG_DEBUG)` -/
def LOG_UPTO_DEBUG : Int := 255

def LOG_USER : Int := 8

def LOG_PID : BitVec 32 := 0x01

def LOG_PERROR : BitVec 32 := 0x20

/-- `sizeof(message)` -/
def MESSAGE_SIZE : Nat := 1024

/-- What `getopt` returns, with `optarg`. -/
inductive Opt
  | p
  | e
  | l (optarg : CStr)
  | m (optarg : CStr)
  | i (optarg : CStr)
  | f (optarg : CStr)
  | other
  deriving DecidableEq

structure Settings where
  options : BitVec 32 := 0
  level : Int := LOG_INFO
  mask : Int := LOG_UPTO_DEBUG
  facility : Int := LOG_USER
  ident : Option CStr := none
  deriving DecidableEq

/-- The `switch`, `none` for `usageError`. -/
def Settings.set (st : Settings) : Opt → Option Settings
  | .p => some { st with options := st.options ||| LOG_PID }
  | .e => some { st with options := st.options ||| LOG_PERROR }
  | .l optarg =>
      let level := atoi optarg.bytes
      if level < 0 ∨ level > LOG_DEBUG then none else some { st with level := level }
  | .m optarg => some { st with mask := atoi optarg.bytes }
  | .i optarg => some { st with ident := some optarg }
  | .f optarg => some { st with facility := atoi optarg.bytes }
  | .other => none

/-- The loop that builds the message, from `argv[j]` on; `none` is a store outside `message`. -/
def buildLoop (optind : Nat) : Nat → List CStr → Bytes → Option Bytes
  | _, [], message => some message
  | j, arg :: args, message =>
      (if j > optind then strcat message (ascii " ") else some message).bind fun message =>
        (strcat message arg.bytes).bind fun message => buildLoop optind (j + 1) args message

/-- `message` after the loop over `args`, which are `argv[optind]` and what follows. -/
def buildMessage (optind : Nat) (args : List CStr) : Option Bytes :=
  buildLoop optind optind args (List.replicate MESSAGE_SIZE 0)

/-- How the program gets to the first call of `syslog`, and what it logs there. -/
inductive Outcome
  | usageError
  | outOfBounds
  | logged (st : Settings) (message : Bytes)
  deriving DecidableEq

def main (opts : List Opt) (optind : Nat) (args : List CStr) : Outcome :=
  match opts.foldlM Settings.set {} with
  | none => .usageError
  | some st =>
      if args = [] then .usageError
      else
        match buildMessage optind args with
        | none => .outOfBounds
        | some message => .logged st (cstring message)

/-- The arguments with single blanks between them. -/
def joined (args : List CStr) : Bytes := (ascii " ").intercalate (args.map CStr.bytes)

/-- The message is as it is meant. -/
def Joins (args : List CStr) (message : Option Bytes) : Prop :=
  ∃ mem, message = some mem ∧ cstring mem <+: joined args

section Building

variable {args : List CStr} {optind j : Nat} {s rest : Bytes}

/-- The arguments with a blank before each. -/
def blanked (args : List CStr) : Bytes := args.flatMap fun arg => ascii " " ++ arg.bytes

theorem joined_cons (arg : CStr) (args : List CStr) :
    joined (arg :: args) = arg.bytes ++ blanked args := by
  induction args generalizing arg with
  | nil => simp [joined, blanked]
  | cons b args ih =>
    have hb := ih b
    rw [joined] at hb ⊢
    rw [List.map_cons, List.map_cons, List.intercalate_cons_cons, ← List.map_cons, hb, blanked,
      blanked, List.flatMap_cons, List.append_assoc, List.append_assoc]

theorem zero_not_mem_blanked (args : List CStr) : 0 ∉ blanked args := by
  rw [blanked, List.mem_flatMap]
  rintro ⟨arg, -, h⟩
  rcases List.mem_append.mp h with h | h
  · exact absurd h (by decide)
  · exact arg.noNul h

theorem zero_not_mem_joined (args : List CStr) : 0 ∉ joined args := by
  cases args with
  | nil => simp [joined]
  | cons arg args =>
    rw [joined_cons]
    exact List.not_mem_append arg.noNul (zero_not_mem_blanked args)

/-- The passes of the loop after the first one. -/
theorem buildLoop_eq (hs : 0 ∉ s) (hj : optind < j) :
    buildLoop optind j args (s ++ 0 :: rest) = strcat (s ++ 0 :: rest) (blanked args) := by
  induction args generalizing j s rest with
  | nil => rw [buildLoop, blanked, List.flatMap_nil, strcat_nil hs]
  | cons arg args ih =>
    have hblank : 0 ∉ ascii " " := by decide
    have hboth : 0 ∉ ascii " " ++ arg.bytes := List.not_mem_append hblank arg.noNul
    have hcons : blanked (arg :: args) = ascii " " ++ arg.bytes ++ blanked args := List.flatMap_cons
    have hnext : ∀ mem, strcat (s ++ 0 :: rest) (ascii " " ++ arg.bytes) = some mem →
        buildLoop optind (j + 1) args mem = strcat mem (blanked args) := by
      intro mem hmem
      by_cases hfits : (ascii " " ++ arg.bytes).length ≤ rest.length
      · rw [strcat_eq_some hs hfits, Option.some.injEq] at hmem
        rw [← hmem]
        exact ih (List.not_mem_append hs hboth) (by omega)
      · rw [strcat_eq_none hs (by omega)] at hmem
        cases hmem
    rw [buildLoop, if_pos hj, ← Option.bind_assoc, strcat_append hs hblank, hcons,
      ← strcat_append hs hboth]
    cases hmem : strcat (s ++ 0 :: rest) (ascii " " ++ arg.bytes) with
    | none => rfl
    | some mem => exact hnext mem hmem

/-- **The loop is one `strcat`** of the joined arguments. -/
theorem buildMessage_eq (optind : Nat) (args : List CStr) :
    buildMessage optind args = strcat (List.replicate MESSAGE_SIZE 0) (joined args) := by
  have hnil : (0 : UInt8) ∉ [] := List.not_mem_nil
  have hempty : List.replicate MESSAGE_SIZE (0 : UInt8) =
      [] ++ 0 :: List.replicate (MESSAGE_SIZE - 1) 0 := rfl
  rw [buildMessage, hempty]
  cases args with
  | nil => rw [buildLoop, joined, List.map_nil, List.intercalate_nil, strcat_nil hnil]
  | cons arg args =>
    rw [joined_cons, ← strcat_append hnil arg.noNul, buildLoop, if_neg (Nat.lt_irrefl optind),
      Option.bind_some]
    by_cases hfits : arg.bytes.length ≤ (List.replicate (MESSAGE_SIZE - 1) (0 : UInt8)).length
    · rw [strcat_eq_some hnil hfits, Option.bind_some, Option.bind_some, List.nil_append]
      exact buildLoop_eq arg.noNul (Nat.lt_succ_self optind)
    · rw [strcat_eq_none hnil (by omega)]
      rfl

theorem cstring_of_buildMessage (optind : Nat) (h : (joined args).length < MESSAGE_SIZE) :
    ∃ mem, buildMessage optind args = some mem ∧ cstring mem = joined args := by
  have hnil : (0 : UInt8) ∉ [] := List.not_mem_nil
  have hroom : (joined args).length ≤ (List.replicate (MESSAGE_SIZE - 1) (0 : UInt8)).length := by
    rw [List.length_replicate]
    omega
  refine ⟨_, (buildMessage_eq optind args).trans (strcat_eq_some hnil hroom), ?_⟩
  exact cstring_append_zero (zero_not_mem_joined args) _

theorem buildMessage_eq_none (optind : Nat) (h : MESSAGE_SIZE ≤ (joined args).length) :
    buildMessage optind args = none := by
  rw [buildMessage_eq]
  refine strcat_eq_none (s := []) List.not_mem_nil ?_
  rw [List.length_replicate]
  exact h

/-- What is logged. -/
theorem message_of_logged {opts : List Opt} {st : Settings} {message : Bytes}
    (h : main opts optind args = .logged st message) : message = joined args := by
  rw [main] at h
  cases hst : opts.foldlM Settings.set {} with
  | none =>
    rw [hst] at h
    cases h
  | some st' =>
    rw [hst] at h
    simp only at h
    split_ifs at h
    by_cases hfits : (joined args).length < MESSAGE_SIZE
    · obtain ⟨mem, hmem, hstr⟩ := cstring_of_buildMessage optind hfits
      rw [hmem] at h
      cases h
      exact hstr
    · rw [buildMessage_eq_none optind (by omega)] at h
      cases h

end Building

/-- For every list of arguments, the loop stores nothing outside `message` and leaves there the
arguments joined by single blanks, or a beginning of that, exactly if the joined arguments have
less than 1024 bytes; and then all of it is there. -/
theorem joins_iff (optind : Nat) (args : List CStr) :
    (Joins args (buildMessage optind args) ↔ (joined args).length < MESSAGE_SIZE) ∧
      ((joined args).length < MESSAGE_SIZE →
        ∃ mem, buildMessage optind args = some mem ∧ cstring mem = joined args) := by
  refine ⟨⟨?_, fun hfits => ?_⟩, cstring_of_buildMessage optind⟩
  · rintro ⟨mem, hmem, -⟩
    by_contra hlong
    rw [buildMessage_eq_none optind (by omega)] at hmem
    cases hmem
  · obtain ⟨mem, hmem, hstr⟩ := cstring_of_buildMessage optind hfits
    exact ⟨mem, hmem, hstr ▸ List.prefix_refl _⟩

/-- One argument of 1024 bytes: its terminator is stored behind the array. -/
theorem long_argument_overflows :
    ∃ arg : CStr, arg.bytes = List.replicate 1024 97 ∧ main [] 1 [arg] = .outOfBounds ∧
      ¬ Joins [arg] (buildMessage 1 [arg]) := by
  have hnul : (0 : UInt8) ∉ List.replicate 1024 97 := by
    intro h
    cases List.eq_of_mem_replicate h
  have hlong : MESSAGE_SIZE ≤ (joined [⟨List.replicate 1024 97, hnul⟩]).length := by
    rw [joined_cons, List.length_append, List.length_replicate]
    exact Nat.le_add_right 1024 _
  have hnone := buildMessage_eq_none 1 hlong
  refine ⟨⟨List.replicate 1024 97, hnul⟩, rfl, ?_, ?_⟩
  · rw [main, hnone]
    rfl
  · rintro ⟨mem, hmem, -⟩
    rw [hnone] at hmem
    cases hmem

end Tlpi.Syslog
