import Mathlib.Data.List.Basic

/-!
# Lists of bindings

A list of entries read as a map: `val k e` is the value that the entry `e` gives to the
key `k`, if it is about `k` at all, and the first entry about `k` counts.  Several
entries may be about one key, and entries may be about none.

* `lookup_putFirst_self`, `lookup_putFirst_of_ne`: putting an entry in the place of the
  first one about its key, or at the end, updates the map there and nowhere else.
* `lookup_eraseAll_self`, `lookup_eraseAll_of_ne`: so does removing all of them.

That keys do not share entries is asked for only where it is needed, for the pair of
keys at hand.
-/

namespace Tlpi.Lib

variable {κ ε ν : Type*} (val : κ → ε → Option ν)

/-- The value of the first entry about `k`. -/
def lookup (es : List ε) (k : κ) : Option ν := es.findSome? (val k)

/-- `e` in the place of the first entry about `k`, or at the end. -/
def putFirst (k : κ) (e : ε) : List ε → List ε
  | [] => [e]
  | e₀ :: es => if (val k e₀).isSome then e :: es else e₀ :: putFirst k e es

/-- The entries that are not about `k`. -/
def eraseAll (k : κ) (es : List ε) : List ε := es.filter fun e => (val k e).isNone

variable {val} {k k' : κ} {e : ε} {v : ν}

theorem lookup_putFirst_self (he : val k e = some v) (es : List ε) :
    lookup val (putFirst val k e es) k = some v := by
  induction es with
  | nil => simp [putFirst, lookup, he]
  | cons e₀ es ih =>
    cases h : val k e₀ with
    | some w => simp [putFirst, lookup, h, he]
    | none => simpa [putFirst, lookup, h] using ih

theorem lookup_putFirst_of_ne (hk : ∀ e₀, (val k e₀).isSome → val k' e₀ = none)
    (he : val k' e = none) (es : List ε) :
    lookup val (putFirst val k e es) k' = lookup val es k' := by
  induction es with
  | nil => simp [putFirst, lookup, he]
  | cons e₀ es ih =>
    cases h : val k e₀ with
    | some w => simp [putFirst, lookup, h, he, hk e₀ (by rw [h]; rfl)]
    | none =>
      simp only [lookup] at ih
      simp only [putFirst, lookup, h, Option.isSome_none, Bool.false_eq_true, if_false,
        List.findSome?_cons, ih]

theorem lookup_eraseAll_self (es : List ε) : lookup val (eraseAll val k es) k = none := by
  rw [lookup, List.findSome?_eq_none_iff]
  intro e he
  simpa using (List.mem_filter.mp he).2

theorem lookup_eraseAll_of_ne (hk : ∀ e₀, (val k e₀).isSome → val k' e₀ = none) (es : List ε) :
    lookup val (eraseAll val k es) k' = lookup val es k' := by
  induction es with
  | nil => rfl
  | cons e₀ es ih =>
    simp only [lookup, eraseAll] at ih
    cases h : val k e₀ with
    | some w => simp [eraseAll, lookup, h, hk e₀ (by rw [h]; rfl), ih]
    | none => simp [eraseAll, lookup, h, List.findSome?_cons, ih]

end Tlpi.Lib
