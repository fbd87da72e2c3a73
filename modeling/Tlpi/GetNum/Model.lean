import Tlpi.Lib.CString
import Tlpi.Lib.Strtol

/-!
# Numbers in arguments

`getLong` and `getInt` of `lib/get_num.c`.  A text that is not a number of the kind that the
flags ask for ends the process; `strtol` alone would accept more, as it stops at the first
byte it cannot read and saturates.

* `Accepts flags s v`: `s` is a numeral of the base that `flags` select, and its value `v` is
  a `long` and of the sign that they ask for.
* `getNum_eq_ok_iff`: these are the texts that are accepted, and `v` is what is returned.
* `getLong_getInt_spec`: both functions, and how they fail.
-/

namespace Tlpi.GetNum

open Tlpi.Lib

def GN_NONNEG : BitVec 32 := 0o1#32
def GN_GT_0 : BitVec 32 := 0o2#32
def GN_ANY_BASE : BitVec 32 := 0o100#32
def GN_BASE_8 : BitVec 32 := 0o200#32
def GN_BASE_16 : BitVec 32 := 0o400#32

def INT_MAX : Int := 2 ^ 31 - 1
def INT_MIN : Int := -2 ^ 31

def EXIT_FAILURE : Nat := 1

/-- How the process ends, and what it has written to `stderr`. -/
structure Exit where
  status : Nat
  stderr : Bytes
  deriving DecidableEq

/-- `gnFail(fname, msg, arg, name)`; `none` is `NULL`. -/
def gnFail (fname msg : String) (arg name : Option Bytes) : Exit where
  status := EXIT_FAILURE
  stderr :=
    ascii fname ++ ascii " error" ++
    (match name with
      | some name => ascii " (in " ++ name ++ ascii ")"
      | none => []) ++
    ascii ": " ++ ascii msg ++ ascii "\n" ++
    (match arg with
      | some arg => if arg ≠ [] then ascii "        offending text: " ++ arg ++ ascii "\n" else []
      | none => [])

/-- The base that `flags` select. -/
def base (flags : BitVec 32) : Nat :=
  if flags &&& GN_ANY_BASE ≠ 0 then 0
  else if flags &&& GN_BASE_8 ≠ 0 then 8
  else if flags &&& GN_BASE_16 ≠ 0 then 16
  else 10

/-- `getNum(fname, arg, flags, name)`; an error is a call of `gnFail`. -/
def getNum (fname : String) (arg : Option Bytes) (flags : BitVec 32) (name : Option Bytes) :
    Except Exit Int :=
  match arg with
  | none => .error (gnFail fname "null or empty string" arg name)
  | some s =>
      if s = [] then .error (gnFail fname "null or empty string" arg name)
      else
        let res := strtolIn (base flags) s
        if res.erange then .error (gnFail fname "strtol() failed" arg name)
        else if res.rest ≠ [] then .error (gnFail fname "nonnumeric characters" arg name)
        else if flags &&& GN_NONNEG ≠ 0 ∧ res.value < 0 then
          .error (gnFail fname "negative value not allowed" arg name)
        else if flags &&& GN_GT_0 ≠ 0 ∧ res.value ≤ 0 then
          .error (gnFail fname "value must be > 0" arg name)
        else .ok res.value

def getLong (arg : Option Bytes) (flags : BitVec 32) (name : Option Bytes) : Except Exit Int :=
  getNum "getLong" arg flags name

/-- `getInt(arg, flags, name)`; what is returned has gone through an `int`. -/
def getInt (arg : Option Bytes) (flags : BitVec 32) (name : Option Bytes) : Except Exit Int :=
  match getNum "getInt" arg flags name with
  | .error e => .error e
  | .ok res =>
      if res > INT_MAX ∨ res < INT_MIN then .error (gnFail "getInt" "integer out of range" arg name)
      else .ok (BitVec.ofInt 32 res).toInt

/-! ### What is accepted -/

/-- `s` is the text of a number `v` as the flags want it. -/
structure Accepts (flags : BitVec 32) (s : Bytes) (v : Int) : Prop where
  numeral : Numeral (base flags) s v
  fits : -2 ^ 63 ≤ v ∧ v ≤ 2 ^ 63 - 1
  nonneg : flags &&& GN_NONNEG ≠ 0 → 0 ≤ v
  pos : flags &&& GN_GT_0 ≠ 0 → 0 < v

section Numbers

variable {fname : String} {arg name : Option Bytes} {flags : BitVec 32} {s : Bytes} {v : Int}

theorem isBase_base (flags : BitVec 32) : IsBase (base flags) := by
  unfold base
  split_ifs <;> decide

/-- Every failure is a call of `gnFail` with the caller's name and the text. -/
theorem getNum_error {e : Exit} (h : getNum fname arg flags name = .error e) :
    ∃ msg, e = gnFail fname msg arg name := by
  cases arg with
  | none =>
    cases h
    exact ⟨_, rfl⟩
  | some s =>
    simp only [getNum] at h
    split_ifs at h <;>
    · cases h
      exact ⟨_, rfl⟩

theorem Accepts.getNum_eq (h : Accepts flags s v) :
    getNum fname (some s) flags name = .ok v := by
  have hlong : toLong v = v := toLong_eq_self_iff.mpr h.fits
  have hneg : ¬ (flags &&& GN_NONNEG ≠ 0 ∧ v < 0) := fun hn => absurd (h.nonneg hn.1) (by omega)
  have hpos : ¬ (flags &&& GN_GT_0 ≠ 0 ∧ v ≤ 0) := fun hp => absurd (h.pos hp.1) (by omega)
  simp only [getNum, if_neg (h.numeral.ne_nil (isBase_base flags)),
    strtolIn_of_numeral (isBase_base flags) h.numeral, hlong, if_neg hneg, if_neg hpos]
  simp

theorem accepts_of_getNum (h : getNum fname (some s) flags name = .ok v) : Accepts flags s v := by
  simp only [getNum] at h
  split_ifs at h with hnil hrange hrest hneg hpos
  obtain ⟨w, hw⟩ := numeral_of_rest_nil (isBase_base flags) hnil (not_not.mp hrest)
  rw [strtolIn_of_numeral (isBase_base flags) hw] at h hrange hneg hpos
  have hlong : toLong w = w := by simpa using hrange
  obtain rfl : toLong w = v := Except.ok.inj h
  rw [hlong] at hneg hpos ⊢
  exact ⟨hw, toLong_eq_self_iff.mp hlong, fun hf => not_lt.mp fun hlt => hneg ⟨hf, hlt⟩,
    fun hf => not_le.mp fun hle => hpos ⟨hf, hle⟩⟩

/-- What `getNum` returns. -/
theorem getNum_eq_ok_iff :
    getNum fname arg flags name = .ok v ↔ ∃ s, arg = some s ∧ Accepts flags s v := by
  constructor
  · intro h
    cases arg with
    | none => cases h
    | some s => exact ⟨s, rfl, accepts_of_getNum h⟩
  · rintro ⟨s, rfl, h⟩
    exact h.getNum_eq

/-- An `int` goes through an `int` unchanged. -/
theorem toInt_ofInt (hmin : INT_MIN ≤ v) (hmax : v ≤ INT_MAX) : (BitVec.ofInt 32 v).toInt = v := by
  rw [INT_MIN] at hmin
  rw [INT_MAX] at hmax
  rw [BitVec.toInt_ofInt, Int.bmod_def]
  split <;> omega

theorem getInt_eq_ok_iff :
    getInt arg flags name = .ok v ↔
      (∃ s, arg = some s ∧ Accepts flags s v) ∧ INT_MIN ≤ v ∧ v ≤ INT_MAX := by
  rw [← @getNum_eq_ok_iff "getInt" arg name flags v]
  unfold getInt
  cases getNum "getInt" arg flags name with
  | error e => simp
  | ok res =>
    by_cases hrange : res > INT_MAX ∨ res < INT_MIN
    · simp only [if_pos hrange, reduceCtorEq, Except.ok.injEq, false_iff]
      rintro ⟨rfl, hmin, hmax⟩
      omega
    · have hres : INT_MIN ≤ res ∧ res ≤ INT_MAX := by omega
      simp only [if_neg hrange, toInt_ofInt hres.1 hres.2, Except.ok.injEq]
      constructor
      · rintro rfl
        exact ⟨rfl, hres⟩
      · exact fun h => h.1

theorem getInt_error {e : Exit} (h : getInt arg flags name = .error e) :
    ∃ msg, e = gnFail "getInt" msg arg name := by
  unfold getInt at h
  split at h
  · next e' herr =>
    cases h
    exact getNum_error herr
  · split_ifs at h
    cases h
    exact ⟨_, rfl⟩

end Numbers

/-- A computation that has no value fails. -/
theorem exists_error {r : Except Exit Int} (h : ∀ v, r ≠ .ok v) : ∃ e, r = .error e := by
  cases r with
  | error e => exact ⟨e, rfl⟩
  | ok v => exact absurd rfl (h v)

/-- `getLong` returns the value of the text if that is a numeral of the base that the flags
select, a `long`, and of the sign that the flags ask for; `getInt` returns it if it is an `int`
besides.  In every other case the process exits with failure, after a message that names the
function. -/
theorem getLong_getInt_spec (arg : Option Bytes) (flags : BitVec 32) (name : Option Bytes) :
    (∀ v, getLong arg flags name = .ok v ↔ ∃ s, arg = some s ∧ Accepts flags s v) ∧
      (∀ v, getInt arg flags name = .ok v ↔
        getLong arg flags name = .ok v ∧ INT_MIN ≤ v ∧ v ≤ INT_MAX) ∧
      ((¬ ∃ s v, arg = some s ∧ Accepts flags s v) →
        ∃ msg, getLong arg flags name = .error (gnFail "getLong" msg arg name)) ∧
      ((¬ ∃ s v, arg = some s ∧ Accepts flags s v ∧ INT_MIN ≤ v ∧ v ≤ INT_MAX) →
        ∃ msg, getInt arg flags name = .error (gnFail "getInt" msg arg name)) ∧
      ∀ fname msg, (gnFail fname msg arg name).status = EXIT_FAILURE := by
  refine ⟨fun v => getNum_eq_ok_iff, fun v => ?_, fun hnone => ?_, fun hnone => ?_, fun _ _ => rfl⟩
  · rw [getInt_eq_ok_iff, getLong, getNum_eq_ok_iff]
  · obtain ⟨e, he⟩ := exists_error (r := getLong arg flags name) fun v hv => by
      obtain ⟨s, hs, hacc⟩ := getNum_eq_ok_iff.mp hv
      exact hnone ⟨s, v, hs, hacc⟩
    obtain ⟨msg, rfl⟩ := getNum_error he
    exact ⟨msg, he⟩
  · obtain ⟨e, he⟩ := exists_error (r := getInt arg flags name) fun v hv => by
      obtain ⟨⟨s, hs, hacc⟩, hrange⟩ := getInt_eq_ok_iff.mp hv
      exact hnone ⟨s, v, hs, hacc, hrange⟩
    obtain ⟨msg, rfl⟩ := getInt_error he
    exact ⟨msg, he⟩

end Tlpi.GetNum
