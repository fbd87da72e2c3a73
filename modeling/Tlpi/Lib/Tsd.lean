import Mathlib.Logic.Function.Basic
import Mathlib.Tactic.Common

/-!
# Thread-specific data

Under each key every thread has a value of its own.  A key is new when it is created, and then no
thread has a value for it; with a key that has not been created, a call has no result.
-/

namespace Tlpi.Lib

/-- A `pthread_once_t`; in `running t` thread `t` is in the initialisation routine. -/
inductive Once (τ : Type)
  | init
  | running (t : τ)
  | done
  deriving DecidableEq, Repr

/-- The keys that have been created, and the values, `none` for `NULL`. -/
structure Tsd (τ κ ν : Type) where
  created : κ → Bool
  value : τ → κ → Option ν

namespace Tsd

section

variable {τ κ ν : Type}

def empty : Tsd τ κ ν := ⟨fun _ => false, fun _ _ => none⟩

/-- `pthread_getspecific(k)` in thread `t` -/
def getspecific (d : Tsd τ κ ν) (t : τ) (k : κ) : Option (Option ν) :=
  if d.created k then some (d.value t k) else none

variable [DecidableEq κ] {d d' : Tsd τ κ ν} {t u : τ} {k : κ} {v : Option ν}

/-- `pthread_key_create`, which returns the key `k` -/
def create (d : Tsd τ κ ν) (k : κ) : Option (Tsd τ κ ν) :=
  if d.created k then none
  else some ⟨Function.update d.created k true, fun t => Function.update (d.value t) k none⟩

theorem create_eq_some (h : d.create k = some d') :
    d'.created k = true ∧ ∀ t, (∀ l, d.value t l = none) → ∀ l, d'.value t l = none := by
  rw [create] at h
  split_ifs at h
  cases h
  refine ⟨Function.update_self .., fun t ht l => ?_⟩
  by_cases hl : l = k
  · rw [hl]
    exact Function.update_self ..
  · exact (Function.update_of_ne hl ..).trans (ht l)

variable [DecidableEq τ]

/-- Thread `t` has the value `v` under the key `k`. -/
def set (d : Tsd τ κ ν) (t : τ) (k : κ) (v : Option ν) : Tsd τ κ ν :=
  { d with value := Function.update d.value t (Function.update (d.value t) k v) }

/-- `pthread_setspecific(k, v)` in thread `t` -/
def setspecific (d : Tsd τ κ ν) (t : τ) (k : κ) (v : Option ν) : Option (Tsd τ κ ν) :=
  if d.created k then some (d.set t k v) else none

@[simp] theorem set_created : (d.set t k v).created = d.created := rfl

@[simp] theorem set_value_self : (d.set t k v).value t k = v := by simp [set]

@[simp] theorem set_value_of_ne (h : u ≠ t) : (d.set t k v).value u = d.value u :=
  Function.update_of_ne h ..

end

end Tsd

end Tlpi.Lib
