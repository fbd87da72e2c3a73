import Tlpi.Lib.Strtol
import Tlpi.UserProcs.Model

/-!
# Users and groups given by number

`userIdFromName` and `groupIdFromName` of `lib/ugid_functions.c` take a number for the ID it
is.  The number goes through `strtol`, which saturates, and then through a 32-bit ID, which
keeps it modulo 2^32; nobody looks whether it has survived that.

* `idFromName_of_numeral`: what comes back for a number.
* `denotes_ofInt_iff`: when that is the number itself, or the error value for a number that
  is no ID.
* `idFromName_numeral_iff`: both functions, on every string that `strtol` reads to its end.
-/

namespace Tlpi.Ugid

open Tlpi.Lib UserProcs

/-- What both functions do, with the lookup in the database as a parameter. -/
def idFromName (lookup : Bytes → Option (BitVec 32)) (name : Option Bytes) : BitVec 32 :=
  match name with
  | none => -1
  | some name =>
      if name = [] then -1
      else
        let (g, rest) := strtol name
        if rest = [] then BitVec.ofInt 32 g
        else
          match lookup name with
          | none => -1
          | some id => id

/-- `groupIdFromName(name)`; `none` is `NULL`. -/
def groupIdFromName (getgrnam : Bytes → Option (BitVec 32)) : Option Bytes → BitVec 32 :=
  idFromName getgrnam

theorem userIdFromName_eq (getpwnam : Bytes → Option (BitVec 32)) :
    userIdFromName getpwnam = idFromName getpwnam := rfl

/-- A number that is an ID; the last one, `(uid_t) -1`, is the error value. -/
def IsId (n : Int) : Prop := 0 ≤ n ∧ n ≤ 2 ^ 32 - 2

/-- `id` is the number that `name` stands for if that is an ID, and the error value if it
stands for no ID. -/
def Denotes (id : BitVec 32) (name : Bytes) : Prop :=
  (∀ n, Numeral 10 name n → IsId n → (id.toNat : Int) = n) ∧
    ((∀ n, Numeral 10 name n → ¬ IsId n) → id = -1)

/-- The numbers that come out right: the IDs, those above `LONG_MAX`, and the `long`s whose
low 32 bits are all set. -/
def Kept (n : Int) : Prop := IsId n ∨ 2 ^ 63 ≤ n ∨ (-2 ^ 63 ≤ n ∧ n % 2 ^ 32 = 2 ^ 32 - 1)

section Numbers

variable {lookup : Bytes → Option (BitVec 32)} {name : Bytes} {n : Int}

theorem strtol_of_numeral (h : Numeral 10 name n) : strtol name = (toLong n, []) := by
  rw [strtolIn_ten, strtolIn_of_numeral (by decide) h]

/-- A number becomes the nearest `long`, and the low 32 bits of that are the ID. -/
theorem idFromName_of_numeral (h : Numeral 10 name n) :
    idFromName lookup (some name) = BitVec.ofInt 32 (toLong n) := by
  simp only [idFromName, if_neg (h.ne_nil (by decide)), strtol_of_numeral h, if_true]

theorem toNat_ofInt (x : Int) : ((BitVec.ofInt 32 x).toNat : Int) = x % 2 ^ 32 := by
  rw [BitVec.toNat_ofInt]
  omega

theorem ofInt_eq_neg_one (x : Int) : BitVec.ofInt 32 x = -1 ↔ x % 2 ^ 32 = 2 ^ 32 - 1 := by
  rw [← BitVec.toNat_inj, ← Int.natCast_inj, toNat_ofInt]
  rfl

/-- What is left of `n` is `n` itself, or the error value if `n` is no ID. -/
theorem kept_iff :
    ((IsId n → (BitVec.ofInt 32 (toLong n)).toNat = n) ∧
      (¬ IsId n → BitVec.ofInt 32 (toLong n) = -1)) ↔ Kept n := by
  rw [toNat_ofInt, ofInt_eq_neg_one, Kept, IsId, toLong]
  omega

theorem denotes_ofInt_iff (h : Numeral 10 name n) :
    Denotes (BitVec.ofInt 32 (toLong n)) name ↔ Kept n := by
  have honly : ∀ m, Numeral 10 name m ↔ m = n := fun m =>
    ⟨fun hm => hm.unique (by decide) h, fun hm => hm ▸ h⟩
  rw [← kept_iff, Denotes]
  simp only [honly, forall_eq]

/-- The empty string stands for no number, and the error value is what comes back. -/
theorem not_numeral_nil (n : Int) : ¬ Numeral 10 [] n :=
  fun h => h.ne_nil (by decide) rfl

theorem idFromName_denotes_iff (hrest : (strtol name).2 = []) :
    Denotes (idFromName lookup (some name)) name ↔ ∀ n, Numeral 10 name n → Kept n := by
  by_cases hnil : name = []
  · subst hnil
    exact ⟨fun _ n h => absurd h (not_numeral_nil n),
      fun _ => ⟨fun n h => absurd h (not_numeral_nil n), fun _ => rfl⟩⟩
  · rw [strtolIn_ten] at hrest
    obtain ⟨n, hn⟩ := numeral_of_rest_nil (by decide) hnil hrest
    rw [idFromName_of_numeral hn, denotes_ofInt_iff hn]
    exact ⟨fun hk m hm => hm.unique (by decide) hn ▸ hk, fun hk => hk n hn⟩

end Numbers

/-- A string that `strtol` reads to its end comes back as the ID that it denotes, or as the
error value if it denotes none, exactly if its number is one of `Kept`. -/
theorem idFromName_numeral_iff (getpwnam getgrnam : Bytes → Option (BitVec 32)) (name : Bytes)
    (hrest : (strtol name).2 = []) :
    (Denotes (userIdFromName getpwnam (some name)) name ↔ ∀ n, Numeral 10 name n → Kept n) ∧
      (Denotes (groupIdFromName getgrnam (some name)) name ↔ ∀ n, Numeral 10 name n → Kept n) :=
  ⟨idFromName_denotes_iff hrest, idFromName_denotes_iff hrest⟩

/-- `"1000"` is user 1000 and group 1000. -/
theorem idFromName_numeral_thousand :
    (strtol [49, 48, 48, 48]).2 = [] ∧
      Denotes (userIdFromName (fun _ => none) (some [49, 48, 48, 48])) [49, 48, 48, 48] ∧
      Denotes (groupIdFromName (fun _ => none) (some [49, 48, 48, 48])) [49, 48, 48, 48] := by
  have hnum : Numeral 10 [49, 48, 48, 48] 1000 := numeral_of_scan (by decide) (by decide)
  have hkept : ∀ n, Numeral 10 [49, 48, 48, 48] n → Kept n := by
    intro n hn
    rw [hn.unique (by decide) hnum]
    exact .inl ⟨by decide, by decide⟩
  have hboth := idFromName_numeral_iff (fun _ => none) (fun _ => none) [49, 48, 48, 48] (by decide)
  exact ⟨by decide, hboth.1.mpr hkept, hboth.2.mpr hkept⟩

/-- `"4294967296"` is taken for user 0 and for group 0. -/
theorem idFromName_wraps :
    ¬ ∀ (getpwnam getgrnam : Bytes → Option (BitVec 32)) (name : Bytes), (strtol name).2 = [] →
      Denotes (userIdFromName getpwnam (some name)) name ∧
        Denotes (groupIdFromName getgrnam (some name)) name := by
  intro h
  have hnum : Numeral 10 [52, 50, 57, 52, 57, 54, 55, 50, 57, 54] 4294967296 :=
    numeral_of_scan (by decide) (by decide)
  have huser := (h (fun _ => none) (fun _ => none) _ (by rw [strtol_of_numeral hnum])).1
  rw [userIdFromName_eq, idFromName_of_numeral hnum, denotes_ofInt_iff hnum] at huser
  rw [Kept, IsId] at huser
  omega

end Tlpi.Ugid
