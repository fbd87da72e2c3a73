import Tlpi.Env.Model

/-!
# The environment as a map

A program that calls `mySetenv`, `myUnsetenv` and `getenv` sees a map from names to
values.  `Call.spec` says what a call does to that map; the array behind it may hold
several entries of one name and entries that define no name at all.

* `Agrees` relates an array to a map: `getenv` is the lookup, at every name without
  `'='`.
* `agrees_run` and `agrees_runAll`: a call keeps them related, and so does every
  sequence of calls.
* `environ_refines_map` collects this with the results of the calls and with what they
  leave alone.

The restriction on names is needed.  An entry `A=B=C` defines `A`, but it also has the
form that `getenv` looks for when it is asked for the name `A=B`
(`getenv_of_name_with_eq`).
-/

namespace Tlpi.Env

open Tlpi.Lib

/-! ### Entries and names -/

section Entries

variable {name e : CStr}

/-- An entry defines one name: what stands before its first `'='`. -/
theorem nameOf_eq (hname : EQ ∉ name.bytes) (h : name.bytes ++ [EQ] <+: e.bytes) :
    nameOf e = name := by
  apply CStr.ext
  obtain ⟨t, ht⟩ := h
  have hne : ∀ b ∈ name.bytes, (decide (b ≠ EQ)) = true := by
    intro b hb
    simp only [decide_eq_true_eq]
    rintro rfl
    exact hname hb
  show e.bytes.takeWhile (fun b => decide (b ≠ EQ)) = name.bytes
  rw [← ht, List.append_assoc, List.takeWhile_append_of_pos hne, List.singleton_append,
    List.takeWhile_cons_of_neg (by simp), List.append_nil]

theorem valueOf_isSome : (valueOf name e).isSome ↔ name.bytes ++ [EQ] <+: e.bytes := by
  rw [valueOf]
  split <;> simp_all

/-- No entry defines two names. -/
theorem valueOf_eq_none {name' : CStr} (hname : EQ ∉ name.bytes) (hname' : EQ ∉ name'.bytes)
    (hne : name ≠ name') (h : (valueOf name e).isSome) : valueOf name' e = none := by
  rw [← Option.not_isSome_iff_eq_none]
  intro h'
  rw [valueOf_isSome] at h h'
  exact hne ((nameOf_eq hname h).symm.trans (nameOf_eq hname' h'))

theorem valueOf_joinEq (name value : CStr) : valueOf name (joinEq name value) = some value := by
  have hjoin : (joinEq name value).bytes = name.bytes ++ [EQ] ++ value.bytes := by simp [joinEq]
  have hdrop : (joinEq name value).bytes.drop (name.strlen + 1) = value.bytes := by
    rw [hjoin, List.drop_left' (by simp [CStr.strlen])]
  rw [valueOf, if_pos (by rw [hjoin]; exact List.prefix_append ..)]
  exact congrArg some (CStr.ext hdrop)

theorem nameOf_joinEq (hname : EQ ∉ name.bytes) (value : CStr) :
    nameOf (joinEq name value) = name := by
  apply nameOf_eq hname
  rw [← valueOf_isSome, valueOf_joinEq]
  rfl

/-- The test in `myUnsetenv` is the one that `getenv` makes. -/
theorem isEntryOf_eq : isEntryOf name e = (valueOf name e).isSome := by
  rw [Bool.eq_iff_iff, valueOf_isSome, isEntryOf, Bool.and_eq_true, beq_iff_eq, beq_iff_eq,
    CStr.strlen, strncmp_length_eq_zero name.noNul]
  constructor
  · rintro ⟨⟨t, ht⟩, hat⟩
    rw [CStr.byteAt, ← ht] at hat
    cases t with
    | nil => exact absurd hat (by simp [EQ])
    | cons b t =>
      have hb : b = EQ := by simpa using hat
      exact ⟨t, by rw [← ht, hb]; simp⟩
  · rintro ⟨t, ht⟩
    refine ⟨⟨EQ :: t, by rw [← ht]; simp⟩, ?_⟩
    rw [CStr.byteAt, ← ht]
    simp

end Entries

/-! ### The names that the two functions accept -/

/-- A name that can be set: not empty and without `'='`. -/
def IsName (name : CStr) : Prop := name.bytes ≠ [] ∧ EQ ∉ name.bytes

instance (name : CStr) : Decidable (IsName name) := inferInstanceAs (Decidable (_ ∧ _))

theorem validName_of_isName {name : CStr} (h : IsName name) : validName (some name) = some name := by
  rw [validName, if_neg]
  rintro (h0 | heq)
  · exact h.1 (CStr.byteAt_zero_eq_zero.mp h0)
  · exact h.2 (CStr.strchr_ne_none.mp heq)

theorem validName_of_not_isName {name : CStr} (h : ¬ IsName name) : validName (some name) = none := by
  rw [validName, if_pos]
  by_contra hv
  rw [not_or] at hv
  exact h ⟨fun h0 => hv.1 (CStr.byteAt_zero_eq_zero.mpr h0),
    fun heq => hv.2 (CStr.strchr_ne_none.mpr heq)⟩

/-! ### Calls -/

/-- A call with the arguments it can get; a `NULL` name is `none`. -/
inductive Call
  | setenv (name : Option CStr) (value : CStr) (overwrite : Int)
  | unsetenv (name : Option CStr)
  deriving DecidableEq

def Call.name : Call → Option CStr
  | .setenv name _ _ => name
  | .unsetenv name => name

def Call.run (env : Environ) : Call → Environ × Int
  | .setenv name value overwrite => mySetenv env name value overwrite
  | .unsetenv name => myUnsetenv env name

def runAll (env : Environ) (calls : List Call) : Environ :=
  calls.foldl (fun env c => (c.run env).1) env

/-- What a program thinks the environment is. -/
abbrev EnvMap := CStr → Option CStr

/-- What a call is meant to do. -/
def Call.spec (m : EnvMap) : Call → EnvMap
  | .setenv none _ _ => m
  | .setenv (some name) value overwrite =>
      if IsName name ∧ ¬ (m name ≠ none ∧ overwrite = 0) then Function.update m name (some value)
      else m
  | .unsetenv none => m
  | .unsetenv (some name) => if IsName name then Function.update m name none else m

def specAll (m : EnvMap) (calls : List Call) : EnvMap := calls.foldl Call.spec m

/-! ### Both agree -/

/-- `getenv` is the lookup in `m`. -/
def Agrees (env : Environ) (m : EnvMap) : Prop :=
  ∀ name : CStr, EQ ∉ name.bytes → getenv env name = m name

theorem Environ.entries_ofEntries (es : List CStr) : (Environ.ofEntries es).entries = es :=
  entriesOf_map_some_append es []

section Calls

variable {env : Environ} {m : EnvMap} {name : CStr}

theorem agrees_putenv (h : Agrees env m) (hname : EQ ∉ name.bytes) (value : CStr) :
    Agrees (putenv env (joinEq name value)) (Function.update m name (some value)) := by
  intro name' hname'
  rw [getenv, putenv, Environ.entries_ofEntries, nameOf_joinEq hname]
  by_cases hne : name' = name
  · subst hne
    rw [Function.update_self, lookup_putFirst_self (valueOf_joinEq name' value)]
  · have hdisj : ∀ e, (valueOf name e).isSome → valueOf name' e = none :=
      fun e => valueOf_eq_none hname hname' (Ne.symm hne)
    rw [Function.update_of_ne hne, lookup_putFirst_of_ne hdisj (hdisj _ (by simp [valueOf_joinEq]))]
    exact h name' hname'

/-- The entries after `myUnsetenv`. -/
theorem entries_myUnsetenv (h : IsName name) :
    (myUnsetenv env (some name)).1.entries = eraseAll valueOf name env.entries := by
  obtain ⟨rest, hrest⟩ := compact_spec name env.terminated
  simp only [myUnsetenv, validName_of_isName h, Environ.entries, hrest, entriesOf_map_some_append]
  rw [eraseAll]
  congr 1
  funext e
  rw [isEntryOf_eq, Option.not_isSome]

theorem agrees_myUnsetenv (h : Agrees env m) (hname : IsName name) :
    Agrees (myUnsetenv env (some name)).1 (Function.update m name none) := by
  intro name' hname'
  rw [getenv, entries_myUnsetenv hname]
  by_cases hne : name' = name
  · subst hne
    rw [Function.update_self, lookup_eraseAll_self]
  · have hdisj : ∀ e, (valueOf name e).isSome → valueOf name' e = none :=
      fun e => valueOf_eq_none hname.2 hname' (Ne.symm hne)
    rw [Function.update_of_ne hne, lookup_eraseAll_of_ne hdisj]
    exact h name' hname'

/-- A call whose name is `NULL`, empty or contains `'='`. -/
theorem run_of_not_isName {c : Call} (h : ∀ name, c.name = some name → ¬ IsName name) :
    c.run env = (env, -1) := by
  have hvalid : validName c.name = none := by
    cases hn : c.name with
    | none => rfl
    | some name => exact validName_of_not_isName (h name hn)
  cases c with
  | setenv n value overwrite =>
    have hn : validName n = none := hvalid
    simp only [Call.run, mySetenv, hn]
  | unsetenv n =>
    have hn : validName n = none := hvalid
    simp only [Call.run, myUnsetenv, hn]

theorem run_result {c : Call} (hc : c.name = some name) (h : IsName name) : (c.run env).2 = 0 := by
  cases c with
  | setenv n value overwrite =>
    have hn : n = some name := hc
    simp only [Call.run, mySetenv, hn, validName_of_isName h]
    split <;> rfl
  | unsetenv n =>
    have hn : n = some name := hc
    simp only [Call.run, myUnsetenv, hn, validName_of_isName h]

theorem run_setenv_bound (h : IsName name) (hbound : getenv env name ≠ none) (value : CStr) :
    (Call.setenv (some name) value 0).run env = (env, 0) := by
  simp only [Call.run, mySetenv, validName_of_isName h]
  rw [if_pos ⟨hbound, trivial⟩]

/-- One call. -/
theorem agrees_run (h : Agrees env m) (c : Call) : Agrees (c.run env).1 (c.spec m) := by
  cases c with
  | setenv name value overwrite =>
    cases name with
    | none => exact h
    | some name =>
      by_cases hname : IsName name
      · simp only [Call.run, Call.spec, mySetenv, validName_of_isName hname, ← h name hname.2]
        by_cases hkeep : getenv env name ≠ none ∧ overwrite = 0
        · rw [if_pos hkeep, if_neg (fun hc => hc.2 hkeep)]
          exact h
        · rw [if_neg hkeep, if_pos ⟨hname, hkeep⟩]
          exact agrees_putenv h hname.2 value
      · rw [run_of_not_isName (fun n hn => by cases hn; exact hname), Call.spec,
          if_neg (fun hc => hname hc.1)]
        exact h
  | unsetenv name =>
    cases name with
    | none => exact h
    | some name =>
      by_cases hname : IsName name
      · rw [Call.run, Call.spec, if_pos hname]
        exact agrees_myUnsetenv h hname
      · rw [run_of_not_isName (fun n hn => by cases hn; exact hname), Call.spec, if_neg hname]
        exact h

theorem agrees_runAll (h : Agrees env m) (calls : List Call) :
    Agrees (runAll env calls) (specAll m calls) := by
  induction calls generalizing env m with
  | nil => exact h
  | cons c calls ih => exact ih (agrees_run h c)

theorem spec_of_ne {c : Call} (h : c.name ≠ some name) : c.spec m name = m name := by
  cases c with
  | setenv n value overwrite =>
    cases n with
    | none => rfl
    | some n =>
      have hne : name ≠ n := fun heq => h (by rw [heq]; rfl)
      rw [Call.spec]
      split
      · exact Function.update_of_ne hne _ _
      · rfl
  | unsetenv n =>
    cases n with
    | none => rfl
    | some n =>
      have hne : name ≠ n := fun heq => h (by rw [heq]; rfl)
      rw [Call.spec]
      split
      · exact Function.update_of_ne hne _ _
      · rfl

end Calls

/-- **The environment is a map.**  After every sequence of calls `getenv` gives, for
every name without `'='`, what the map has that the same calls make of the initial one.
A further call with a name that cannot be set returns `-1` and leaves the array as it
is, every other call returns 0; setting a bound name without overwriting leaves the
array as it is; and no call changes what `getenv` gives for another name. -/
theorem environ_refines_map (env : Environ) (calls : List Call) :
    (∀ name : CStr, EQ ∉ name.bytes →
      getenv (runAll env calls) name = specAll (getenv env) calls name) ∧
    ∀ c : Call,
      ((∀ name, c.name = some name → ¬ IsName name) →
        c.run (runAll env calls) = (runAll env calls, -1)) ∧
      (∀ name, c.name = some name → IsName name → (c.run (runAll env calls)).2 = 0) ∧
      (∀ name value, c = .setenv (some name) value 0 → IsName name →
        getenv (runAll env calls) name ≠ none → c.run (runAll env calls) = (runAll env calls, 0)) ∧
      ∀ name : CStr, EQ ∉ name.bytes → c.name ≠ some name →
        getenv (c.run (runAll env calls)).1 name = getenv (runAll env calls) name := by
  have hstart : Agrees env (getenv env) := fun name _ => rfl
  refine ⟨agrees_runAll hstart calls, fun c => ⟨run_of_not_isName, fun name => run_result, ?_, ?_⟩⟩
  · rintro name value rfl hname hbound
    exact run_setenv_bound hname hbound value
  · intro name hname hne
    have hself : Agrees (runAll env calls) (getenv (runAll env calls)) := fun name _ => rfl
    rw [agrees_run hself c name hname, spec_of_ne hne]

/-- `A=1`, `A=2` and `AB=3`: `A` is unset and set to `x=y`, `AB` is left alone. -/
theorem environ_refines_map_twice_defined :
    getenv (runAll (.ofEntries [⟨[65, 61, 49], by decide⟩, ⟨[65, 61, 50], by decide⟩,
        ⟨[65, 66, 61, 51], by decide⟩])
      [.unsetenv (some ⟨[65], by decide⟩),
        .setenv (some ⟨[65], by decide⟩) ⟨[120, 61, 121], by decide⟩ 0]) ⟨[65], by decide⟩ =
        some ⟨[120, 61, 121], by decide⟩ ∧
      getenv (runAll (.ofEntries [⟨[65, 61, 49], by decide⟩, ⟨[65, 61, 50], by decide⟩,
        ⟨[65, 66, 61, 51], by decide⟩])
      [.unsetenv (some ⟨[65], by decide⟩),
        .setenv (some ⟨[65], by decide⟩) ⟨[120, 61, 121], by decide⟩ 0]) ⟨[65, 66], by decide⟩ =
        some ⟨[51], by decide⟩ :=
  ⟨((environ_refines_map _ _).1 _ (by decide)).trans (by decide),
    ((environ_refines_map _ _).1 _ (by decide)).trans (by decide)⟩

/-- **A name with `'='` has no place in the map.**  In an empty environment, setting `A`
to `B=C` gives `getenv` an entry for `A=B`, a name that nobody has set. -/
theorem getenv_of_name_with_eq :
    getenv (runAll (.ofEntries [])
        [.setenv (some ⟨[65], by decide⟩) ⟨[66, 61, 67], by decide⟩ 1]) ⟨[65, 61, 66], by decide⟩ =
        some ⟨[67], by decide⟩ ∧
      getenv (.ofEntries []) ⟨[65, 61, 66], by decide⟩ = none ∧
      specAll (getenv (.ofEntries []))
        [.setenv (some ⟨[65], by decide⟩) ⟨[66, 61, 67], by decide⟩ 1] ⟨[65, 61, 66], by decide⟩ =
        none := by
  decide

end Tlpi.Env
