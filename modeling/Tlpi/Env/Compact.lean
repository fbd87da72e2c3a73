import Tlpi.Env.Map

/-!
# `myUnsetenv` in place

The loop of `myUnsetenv` reads and overwrites one array through two pointers.  `accesses`
is what it does to the array, one entry for each pass: where it reads, what it finds there,
and where it puts that.

* `compact_eq_replay`: these stores are all that happens to the array.
* `accesses_spec`: no store is above the place that was just read, so what is read is always
  what was there at the beginning.
* `compact_of_no_entry`: where there is nothing to delete, every string is stored where it
  was.
* `myUnsetenv_filters`: the array is filtered up to its `NULL`; doing it again changes
  nothing, and the order of two names does not matter.
-/

namespace Tlpi.Env

open Tlpi.Lib

/-- One pass: `*env_ptr` at the index `read`, and the index that it is stored at.  The last
pass finds the `NULL`, which is what is stored behind the loop. -/
structure Access where
  read : Nat
  value : Option CStr
  write : Option Nat
  deriving DecidableEq

/-- The passes of the loop that `compact` is. -/
def accesses (name : CStr) (cells : List (Option CStr)) (r w : Nat) : List Access :=
  match h : cells[r]? with
  | some (some e) =>
      if isEntryOf name e then ⟨r, some e, none⟩ :: accesses name cells (r + 1) w
      else ⟨r, some e, some w⟩ :: accesses name (cells.set w (some e)) (r + 1) (w + 1)
  | _ => [⟨r, none, some w⟩]
termination_by cells.length - r
decreasing_by
  all_goals
    have hr : r < cells.length := (List.getElem?_eq_some_iff.mp h).1
    first
      | omega
      | rw [List.length_set]; omega

/-- The store of a pass. -/
def Access.store (cells : List (Option CStr)) (a : Access) : List (Option CStr) :=
  match a.write with
  | none => cells
  | some w => cells.set w a.value

def replay (as : List Access) (cells : List (Option CStr)) : List (Option CStr) :=
  as.foldl Access.store cells

section Loop

variable {name : CStr} {cells cells₀ : List (Option CStr)} {r w : Nat}

/-- The passes are what the loop does. -/
theorem compact_eq_replay (name : CStr) (cells : List (Option CStr)) (r w : Nat) :
    compact name cells r w = replay (accesses name cells r w) cells := by
  fun_induction accesses name cells r w with
  | case1 cells r w e h he ih => rw [compact_of_entry h, if_pos he, ih]; rfl
  | case2 cells r w e h he ih => rw [compact_of_entry h, if_neg he, ih]; rfl
  | case3 cells r w h =>
    rw [compact]
    split
    · next e he => exact absurd he (h e)
    · rfl

theorem length_replay (as : List Access) (cells : List (Option CStr)) :
    (replay as cells).length = cells.length := by
  induction as generalizing cells with
  | nil => rfl
  | cons a as ih =>
    rw [replay, List.foldl_cons]
    refine (ih _).trans ?_
    unfold Access.store
    split
    · rfl
    · exact List.length_set

/-- A pass reads what was there before the loop, and stores it at or below where it was. -/
def Access.Sound (cells₀ : List (Option CStr)) (a : Access) : Prop :=
  cells₀[a.read]? = some a.value ∧ ∀ w ∈ a.write, w ≤ a.read

theorem lt_length_of_mem_drop (hnull : none ∈ cells₀.drop r) : r < cells₀.length := by
  by_contra hge
  rw [List.drop_eq_nil_of_le (by omega)] at hnull
  cases hnull

/-- Behind a string the terminator is still to come. -/
theorem none_mem_drop_succ {e : CStr} (hnull : none ∈ cells₀.drop r)
    (h : cells₀[r]? = some (some e)) : none ∈ cells₀.drop (r + 1) := by
  have hr := lt_length_of_mem_drop hnull
  rw [List.getElem?_eq_getElem hr] at h
  rw [List.drop_eq_getElem_cons hr, Option.some.inj h] at hnull
  exact (List.mem_cons.mp hnull).resolve_left nofun

/-- From `r` on the array is as it was, as all stores are below `r`. -/
theorem accesses_sound (name : CStr) (cells : List (Option CStr)) (r w : Nat) (hw : w ≤ r)
    (hkeep : ∀ i, r ≤ i → cells[i]? = cells₀[i]?) (hnull : none ∈ cells₀.drop r) :
    ∀ a ∈ accesses name cells r w, a.Sound cells₀ := by
  fun_induction accesses name cells r w with
  | case1 cells r w e h he ih =>
    have hread : cells₀[r]? = some (some e) := (hkeep r (Nat.le_refl r)).symm.trans h
    have hnext := none_mem_drop_succ hnull hread
    intro a ha
    rcases List.mem_cons.mp ha with rfl | ha
    · exact ⟨hread, nofun⟩
    · exact ih (by omega) (fun i hi => hkeep i (by omega)) hnext a ha
  | case2 cells r w e h he ih =>
    have hread : cells₀[r]? = some (some e) := (hkeep r (Nat.le_refl r)).symm.trans h
    have hnext := none_mem_drop_succ hnull hread
    intro a ha
    rcases List.mem_cons.mp ha with rfl | ha
    · exact ⟨hread, fun k hk => by cases hk; exact hw⟩
    · refine ih (by omega) (fun i hi => ?_) hnext a ha
      rw [List.getElem?_set_ne (by omega)]
      exact hkeep i (by omega)
  | case3 cells r w h =>
    have hread : cells₀[r]? = some none := by
      obtain ⟨c, hc⟩ : ∃ c, cells₀[r]? = some c :=
        ⟨_, List.getElem?_eq_getElem (lt_length_of_mem_drop hnull)⟩
      cases c with
      | none => exact hc
      | some e => exact absurd ((hkeep r (Nat.le_refl r)).trans hc) (h e)
    intro a ha
    rw [List.mem_singleton.mp ha]
    exact ⟨hread, fun k hk => by cases hk; exact hw⟩

/-- Where no string is to be deleted, the loop stores every string where it was. -/
theorem compact_of_no_entry {es : List CStr} (hes : ∀ e ∈ es, isEntryOf name e = false)
    (tail done : List (Option CStr)) :
    compact name (done ++ (es.map some ++ none :: tail)) done.length done.length =
      done ++ (es.map some ++ none :: tail) := by
  induction es generalizing done with
  | nil =>
    rw [compact_of_null (by simp)]
    simp
  | cons e es ih =>
    have he : ¬ isEntryOf name e = true := by
      rw [hes e List.mem_cons_self]
      exact Bool.false_ne_true
    have hrest := ih (fun e' he' => hes e' (List.mem_cons_of_mem _ he')) (done ++ [some e])
    rw [compact_of_entry (e := e) (by simp), if_neg he]
    simpa using hrest

end Loop

/-! ### The function -/

section Unset

variable {env : Environ} {name : CStr}

theorem myUnsetenv_of_isName (h : IsName name) :
    (myUnsetenv env (some name)).1.cells = compact name env.cells 0 0 ∧
      (myUnsetenv env (some name)).2 = 0 := by
  simp only [myUnsetenv, validName_of_isName h, and_self]

theorem isEntryOf_iff {e : CStr} : isEntryOf name e = true ↔ name.bytes ++ [EQ] <+: e.bytes := by
  rw [isEntryOf_eq, valueOf_isSome]

/-- The entries that are left, whatever the name. -/
theorem entries_myUnsetenv_eq (env : Environ) (name : Option CStr) :
    (myUnsetenv env name).1.entries =
      env.entries.filter fun e => !(validName name).any fun name => isEntryOf name e := by
  unfold myUnsetenv
  cases validName name with
  | none => simp
  | some name =>
    obtain ⟨rest, hrest⟩ := compact_spec name env.terminated
    simp only [Environ.entries, hrest, entriesOf_map_some_append, Option.any_some]

/-- Unsetting two names, in either order. -/
theorem entries_myUnsetenv_comm (env : Environ) (name name' : Option CStr) :
    (myUnsetenv (myUnsetenv env name).1 name').1.entries =
      (myUnsetenv (myUnsetenv env name').1 name).1.entries := by
  simp only [entries_myUnsetenv_eq, List.filter_filter, Bool.and_comm]

theorem Environ.ext {env' : Environ} (h : env.cells = env'.cells) : env = env' := by
  cases env
  cases env'
  cases h
  rfl

/-- The second time there is nothing to delete, and the array stays as it is. -/
theorem myUnsetenv_myUnsetenv (h : IsName name) :
    myUnsetenv (myUnsetenv env (some name)).1 (some name) = myUnsetenv env (some name) := by
  obtain ⟨hcells, hres⟩ := @myUnsetenv_of_isName env name h
  obtain ⟨hcells', hres'⟩ := @myUnsetenv_of_isName (myUnsetenv env (some name)).1 name h
  refine Prod.ext (Environ.ext ?_) (hres'.trans hres.symm)
  obtain ⟨rest, hrest⟩ := compact_spec name env.terminated
  have hnone : ∀ e ∈ env.entries.filter fun e => !isEntryOf name e, isEntryOf name e = false := by
    intro e he
    simpa using (List.mem_filter.mp he).2
  have hsame := compact_of_no_entry hnone rest []
  rw [hcells', hcells, hrest]
  exact hsame

end Unset

/-- `myUnsetenv` of a valid name leaves the strings that do not begin with the name and `'='`,
in their order.  It does so by stores that are never above the place just read, so it reads
the array as it was.  Unsetting the name again changes nothing, and another name can as well
be unset before it. -/
theorem myUnsetenv_filters (env : Environ) {name : CStr} (h : IsName name) :
    (myUnsetenv env (some name)).1.entries =
        (env.entries.filter fun e => ¬ name.bytes ++ [EQ] <+: e.bytes) ∧
      (myUnsetenv env (some name)).1.cells = replay (accesses name env.cells 0 0) env.cells ∧
      (myUnsetenv env (some name)).1.cells.length = env.cells.length ∧
      (∀ a ∈ accesses name env.cells 0 0, a.Sound env.cells) ∧
      myUnsetenv (myUnsetenv env (some name)).1 (some name) = myUnsetenv env (some name) ∧
      ∀ name', (myUnsetenv (myUnsetenv env (some name)).1 name').1.entries =
        (myUnsetenv (myUnsetenv env name').1 (some name)).1.entries := by
  have hcells := (@myUnsetenv_of_isName env name h).1
  refine ⟨?_, ?_, ?_, ?_, myUnsetenv_myUnsetenv h, entries_myUnsetenv_comm env (some name)⟩
  · rw [entries_myUnsetenv_eq, validName_of_isName h]
    refine List.filter_congr fun e _ => ?_
    simp only [Option.any_some, ← isEntryOf_iff]
    cases isEntryOf name e <;> rfl
  · rw [hcells, compact_eq_replay]
  · rw [hcells, compact_eq_replay, length_replay]
  · exact accesses_sound name env.cells 0 0 (Nat.le_refl 0) (fun _ _ => rfl) env.terminated

/-- `X` is set twice among other strings, one of them without a `'='`; both are deleted. -/
theorem myUnsetenv_filters_twice_defined :
    IsName ⟨[88], by decide⟩ ∧
      (myUnsetenv (.ofEntries [⟨[88, 61, 49], by decide⟩, ⟨[88, 89, 61], by decide⟩,
        ⟨[88, 61], by decide⟩, ⟨[88], by decide⟩]) (some ⟨[88], by decide⟩)).1.entries =
        [⟨[88, 89, 61], by decide⟩, ⟨[88], by decide⟩] := by
  refine ⟨by decide, ?_⟩
  rw [(myUnsetenv_filters _ (by decide)).1, Environ.entries_ofEntries]
  decide

end Tlpi.Env
