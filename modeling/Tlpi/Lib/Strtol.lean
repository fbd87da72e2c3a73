import Mathlib.Data.List.Induction
import Mathlib.Data.List.TakeWhile
import Mathlib.Data.Nat.Digits.Defs
import Tlpi.Lib.Scan

/-!
# `strtol` in any base

`strtolIn base` is `strtol` with a base of 2 to 36, or with base 0, where the number itself
says what its base is.  `Numeral base` is the grammar of what it reads: white space, a sign
and digits, the digits after `0x` where the base allows that.

* `scan_eq_some_nil_iff`: the whole of a string is read exactly if it is a numeral, and the
  number is the one that the numeral stands for.
* `Numeral.unique`: a string stands for one number.
* `strtolIn_ten`: in base 10 this is `strtol`.
-/

namespace Tlpi.Lib

/-- What `c` stands for as a digit, a letter of either case being a digit from 10 on; 36 when
it is no digit in any base. -/
def digitVal (c : UInt8) : Nat :=
  if 48 ≤ c.toNat ∧ c.toNat ≤ 57 then c.toNat - 48
  else if 97 ≤ c.toNat ∧ c.toNat ≤ 122 then c.toNat - 87
  else if 65 ≤ c.toNat ∧ c.toNat ≤ 90 then c.toNat - 55
  else 36

def isDigitIn (base : Nat) (c : UInt8) : Bool := digitVal c < base

/-- The number that digits stand for, from the first digit on. -/
def ofDigitsIn (base : Nat) (ds : Bytes) : Nat := ds.foldl (fun n c => base * n + digitVal c) 0

/-- `0x` or `0X`, and a hexadecimal digit behind it. -/
def hexAhead : Bytes → Bool
  | z :: x :: d :: _ => z = 48 ∧ (x = 120 ∨ x = 88) ∧ isDigitIn 16 d
  | _ => false

/-- The base that the digits are in, and where they begin. -/
def openDigits (base : Nat) (t : Bytes) : Nat × Bytes :=
  -- without a digit behind it, `0x` is the number 0 and then an `x`
  if (base = 0 ∨ base = 16) ∧ hexAhead t then (16, t.drop 2)
  else if base = 0 then (if t.head? = some 48 then 8 else 10, t)
  else (base, t)

/-- The number at the beginning of `s`, before it is made a `long`, and what comes after it. -/
def scan (base : Nat) (s : Bytes) : Option (Int × Bytes) :=
  let (neg, t) := takeSign (s.dropWhile isspace)
  let (b, u) := openDigits base t
  if u.takeWhile (isDigitIn b) = [] then none
  else
    let n : Int := ofDigitsIn b (u.takeWhile (isDigitIn b))
    some (if neg then -n else n, u.dropWhile (isDigitIn b))

/-- What `strtol` returns, the string at `end`, and whether `errno` is `ERANGE`. -/
structure Conversion where
  value : Int
  rest : Bytes
  erange : Bool
  deriving DecidableEq

/-- `strtol(s, &end, base)`.  Where no conversion is performed `errno` stays as it is. -/
def strtolIn (base : Nat) (s : Bytes) : Conversion :=
  match scan base s with
  | none => ⟨0, s, false⟩
  | some (n, rest) => ⟨toLong n, rest, toLong n ≠ n⟩

/-! ### The grammar -/

/-- The number that `ds` is in positional notation. -/
def positional (base : Nat) (ds : Bytes) : Nat := Nat.ofDigits base (ds.reverse.map digitVal)

/-- At least one digit of `base`, and no other byte. -/
def Digits (base : Nat) (ds : Bytes) : Prop := ds ≠ [] ∧ ∀ c ∈ ds, isDigitIn base c = true

/-- A number without its sign. -/
inductive Magnitude : Nat → Bytes → Nat → Prop
  | digits {base : Nat} {ds : Bytes} : 2 ≤ base → Digits base ds →
      Magnitude base ds (positional base ds)
  | hex {base : Nat} {x : UInt8} {ds : Bytes} : base = 0 ∨ base = 16 → x = 120 ∨ x = 88 →
      Digits 16 ds → Magnitude base (48 :: x :: ds) (positional 16 ds)
  | octal {ds : Bytes} : Digits 8 (48 :: ds) → Magnitude 0 (48 :: ds) (positional 8 (48 :: ds))
  | decimal {d : UInt8} {ds : Bytes} : d ≠ 48 → Digits 10 (d :: ds) →
      Magnitude 0 (d :: ds) (positional 10 (d :: ds))

/-- White space, a sign and digits: a string that stands for the number `v`. -/
inductive Numeral (base : Nat) : Bytes → Int → Prop
  | plain {sp m : Bytes} {n : Nat} : (∀ c ∈ sp, isspace c = true) → Magnitude base m n →
      Numeral base (sp ++ m) n
  | plus {sp m : Bytes} {n : Nat} : (∀ c ∈ sp, isspace c = true) → Magnitude base m n →
      Numeral base (sp ++ 43 :: m) n
  | minus {sp m : Bytes} {n : Nat} : (∀ c ∈ sp, isspace c = true) → Magnitude base m n →
      Numeral base (sp ++ 45 :: m) (-n)

/-- The bases of `strtol`. -/
def IsBase (base : Nat) : Prop := base = 0 ∨ 2 ≤ base ∧ base ≤ 36

instance (base : Nat) : Decidable (IsBase base) := inferInstanceAs (Decidable (_ ∨ _))

/-! ### Digits -/

section Digits

variable {base : Nat} {c x : UInt8} {ds s t m : Bytes}

theorem isDigitIn_ten : isDigitIn 10 c = isdigit c := by
  rw [isDigitIn, Bool.eq_iff_iff, decide_eq_true_iff, isdigit_iff, digitVal]
  split_ifs <;> omega

theorem digitVal_of_isdigit (h : isdigit c = true) : digitVal c = c.toNat - 48 :=
  if_pos (isdigit_iff.mp h)

/-- A digit is neither white space nor a sign. -/
theorem digitVal_lt (h : digitVal c < 36) : isspace c = false ∧ c ≠ 45 ∧ c ≠ 43 := by
  have hc : (48 ≤ c.toNat ∧ c.toNat ≤ 57) ∨ (97 ≤ c.toNat ∧ c.toNat ≤ 122) ∨
      (65 ≤ c.toNat ∧ c.toNat ≤ 90) := by
    rw [digitVal] at h
    split_ifs at h with h1 h2 h3
    · exact .inl h1
    · exact .inr (.inl h2)
    · exact .inr (.inr h3)
    · omega
  refine ⟨isspace_of_lt (by omega), ?_, ?_⟩
  · rintro rfl
    exact absurd hc (by decide)
  · rintro rfl
    exact absurd hc (by decide)

theorem isDigitIn_mono {b b' : Nat} (hb : b ≤ b') (h : isDigitIn b c = true) :
    isDigitIn b' c = true := by
  rw [isDigitIn, decide_eq_true_iff] at *
  omega

/-- The `x` of `0x` is no hexadecimal digit. -/
theorem not_isDigitIn_x (h : x = 120 ∨ x = 88) : isDigitIn 16 x = false := by
  rcases h with rfl | rfl <;> decide

theorem ofDigitsIn_eq (base : Nat) (ds : Bytes) : ofDigitsIn base ds = positional base ds := by
  induction ds using List.reverseRecOn with
  | nil => rfl
  | append_singleton ds c ih =>
    have hfold : ofDigitsIn base (ds ++ [c]) = base * ofDigitsIn base ds + digitVal c := by
      rw [ofDigitsIn, List.foldl_append]
      rfl
    have hlast : positional base (ds ++ [c]) = digitVal c + base * positional base ds := by
      rw [positional, List.reverse_append, List.reverse_singleton, List.singleton_append,
        List.map_cons, Nat.ofDigits_cons]
      rfl
    rw [hfold, ih, hlast, Nat.add_comm]

theorem takeWhile_digits (h : Digits base ds) :
    ds.takeWhile (isDigitIn base) = ds ∧ ds.dropWhile (isDigitIn base) = [] :=
  ⟨List.takeWhile_eq_self_iff.mpr h.2, List.dropWhile_eq_nil_iff.mpr h.2⟩

/-! ### What is read -/

theorem Digits.head (hle : base ≤ 36) (h : Digits base ds) :
    ∃ c t, ds = c :: t ∧ digitVal c < 36 := by
  obtain ⟨c, t, rfl⟩ := List.exists_cons_of_ne_nil h.1
  exact ⟨c, t, rfl, of_decide_eq_true (isDigitIn_mono hle (h.2 c List.mem_cons_self))⟩

/-- A number without its sign begins with a digit. -/
theorem Magnitude.head {n : Nat} (hb : IsBase base) (h : Magnitude base m n) :
    ∃ c t, m = c :: t ∧ digitVal c < 36 := by
  cases h with
  | digits hge hds =>
    rcases hb with rfl | ⟨-, hle⟩
    · omega
    · exact hds.head hle
  | hex _ _ _ => exact ⟨48, _, rfl, by decide⟩
  | octal _ => exact ⟨48, _, rfl, by decide⟩
  | decimal _ hds => exact hds.head (by decide)

theorem hexAhead_eq_true :
    hexAhead t = true ↔ ∃ x d r, t = 48 :: x :: d :: r ∧ (x = 120 ∨ x = 88) ∧
      isDigitIn 16 d = true := by
  constructor
  · intro h
    unfold hexAhead at h
    split at h
    · obtain ⟨rfl, hx, hd⟩ := of_decide_eq_true h
      exact ⟨_, _, _, rfl, hx, hd⟩
    · cases h
  · rintro ⟨x, d, r, rfl, hx, hd⟩
    exact decide_eq_true ⟨rfl, hx, hd⟩

/-- Digits do not begin with `0x`. -/
theorem hexAhead_eq_false (hb : base ≤ 16) (h : Digits base ds) : hexAhead ds = false := by
  rw [Bool.eq_false_iff]
  intro hhex
  obtain ⟨x, d, r, rfl, hx, -⟩ := hexAhead_eq_true.mp hhex
  have hdigit := isDigitIn_mono hb (h.2 x (by simp))
  rw [not_isDigitIn_x hx] at hdigit
  cases hdigit

/-- The digits of a number without its sign are found, and they are all of it. -/
theorem Magnitude.openDigits_eq {n : Nat} (h : Magnitude base m n) :
    ∃ b u, openDigits base m = (b, u) ∧ Digits b u ∧ positional b u = n := by
  cases h with
  | digits hge hds =>
    refine ⟨base, m, ?_, hds, rfl⟩
    have h0 : base ≠ 0 := by omega
    have hhex : ¬ ((base = 0 ∨ base = 16) ∧ hexAhead m = true) := by
      rintro ⟨hb, hm⟩
      rw [hexAhead_eq_false (by omega) hds] at hm
      cases hm
    rw [openDigits, if_neg hhex, if_neg h0]
  | @hex _ x ds hb hx hds =>
    refine ⟨16, ds, ?_, hds, rfl⟩
    obtain ⟨d, r, rfl⟩ := List.exists_cons_of_ne_nil hds.1
    have hhex : hexAhead (48 :: x :: d :: r) = true :=
      hexAhead_eq_true.mpr ⟨x, d, r, rfl, hx, hds.2 d List.mem_cons_self⟩
    rw [openDigits, if_pos ⟨hb, hhex⟩]
    rfl
  | @octal ds hds =>
    refine ⟨8, 48 :: ds, ?_, hds, rfl⟩
    rw [openDigits, hexAhead_eq_false (by decide) hds]
    rfl
  | @decimal d ds hd hds =>
    refine ⟨10, d :: ds, ?_, hds, rfl⟩
    have hhead : (d :: ds).head? ≠ some 48 := fun h => hd (Option.some.inj h)
    rw [openDigits, hexAhead_eq_false (by decide) hds, if_neg (by simp), if_pos rfl, if_neg hhead]

/-- Where only digits follow, there is a number without its sign. -/
theorem magnitude_of_openDigits {b : Nat} {u : Bytes} (hb : IsBase base)
    (h : openDigits base t = (b, u)) (hu : Digits b u) : Magnitude base t (positional b u) := by
  rw [openDigits] at h
  split_ifs at h with hhex h0 h48
  · obtain ⟨hb16, hhex⟩ := hhex
    obtain ⟨x, d, r, rfl, hx, -⟩ := hexAhead_eq_true.mp hhex
    cases h
    exact .hex hb16 hx hu
  · cases h
    subst h0
    obtain ⟨c, r, rfl⟩ := List.exists_cons_of_ne_nil hu.1
    cases h48
    exact .octal hu
  · cases h
    subst h0
    obtain ⟨c, r, rfl⟩ := List.exists_cons_of_ne_nil hu.1
    exact .decimal (fun hc => h48 (by rw [hc]; rfl)) hu
  · cases h
    exact .digits (by rcases hb with rfl | hb <;> omega) hu

end Digits

/-! ### Numerals -/

section Numerals

variable {base : Nat} {s t : Bytes} {v w : Int}

/-- What `takeSign` makes of a string. -/
theorem takeSign_cases (s : Bytes) :
    (∃ t, s = 45 :: t ∧ takeSign s = (true, t)) ∨ (∃ t, s = 43 :: t ∧ takeSign s = (false, t)) ∨
      takeSign s = (false, s) := by
  cases s with
  | nil => exact .inr (.inr rfl)
  | cons c t =>
    by_cases h45 : c = 45
    · exact .inl ⟨t, by rw [h45], by simp [takeSign, h45]⟩
    · by_cases h43 : c = 43
      · exact .inr (.inl ⟨t, by rw [h43], by simp [takeSign, h43]⟩)
      · exact .inr (.inr (by simp [takeSign, h45, h43]))

/-- A string that begins with a digit has no sign. -/
theorem takeSign_of_digitVal {c : UInt8} (h : digitVal c < 36) (t : Bytes) :
    takeSign (c :: t) = (false, c :: t) := by
  obtain ⟨-, hminus, hplus⟩ := digitVal_lt h
  simp [takeSign, hminus, hplus]

theorem dropWhile_isspace {sp : Bytes} {c : UInt8} (hsp : ∀ c ∈ sp, isspace c = true)
    (hc : isspace c = false) : (sp ++ c :: t).dropWhile isspace = c :: t := by
  rw [List.dropWhile_append_of_pos hsp, List.dropWhile_cons, hc]
  rfl

theorem scan_of_takeSign (neg : Bool) {m : Bytes} {n : Nat}
    (hsign : takeSign (s.dropWhile isspace) = (neg, m)) (hm : Magnitude base m n) :
    scan base s = some (if neg then -(n : Int) else n, []) := by
  obtain ⟨b, u, hopen, hu, hn⟩ := hm.openDigits_eq
  obtain ⟨htake, hdrop⟩ := takeWhile_digits hu
  simp only [scan, hsign, hopen, htake, hdrop, if_neg hu.1, ofDigitsIn_eq, hn]

theorem scan_of_numeral (hb : IsBase base) (h : Numeral base s v) :
    scan base s = some (v, []) := by
  cases h with
  | @plain sp m n hsp hm =>
    obtain ⟨c, t, rfl, hc⟩ := hm.head hb
    refine scan_of_takeSign false ?_ hm
    rw [dropWhile_isspace hsp (digitVal_lt hc).1]
    exact takeSign_of_digitVal hc t
  | @plus sp m n hsp hm =>
    refine scan_of_takeSign false ?_ hm
    rw [dropWhile_isspace hsp (by decide)]
    rfl
  | @minus sp m n hsp hm =>
    refine scan_of_takeSign true ?_ hm
    rw [dropWhile_isspace hsp (by decide)]
    rfl

/-- A string is its white space and what `dropWhile` leaves. -/
theorem exists_space (s : Bytes) :
    ∃ sp, (∀ c ∈ sp, isspace c = true) ∧ s = sp ++ s.dropWhile isspace :=
  ⟨s.takeWhile isspace, fun _ hc => List.mem_takeWhile_imp hc, List.takeWhile_append_dropWhile.symm⟩

theorem numeral_of_scan (hb : IsBase base) (h : scan base s = some (v, [])) :
    Numeral base s v := by
  obtain ⟨neg, t, hsign⟩ : ∃ neg t, takeSign (s.dropWhile isspace) = (neg, t) := ⟨_, _, rfl⟩
  obtain ⟨b, u, hopen⟩ : ∃ b u, openDigits base t = (b, u) := ⟨_, _, rfl⟩
  simp only [scan, hsign, hopen] at h
  by_cases hnil : u.takeWhile (isDigitIn b) = []
  · rw [if_pos hnil] at h
    cases h
  rw [if_neg hnil, Option.some.injEq, Prod.mk.injEq] at h
  obtain ⟨rfl, hdrop⟩ := h
  have hall : ∀ c ∈ u, isDigitIn b c = true := List.dropWhile_eq_nil_iff.mp hdrop
  have htake : u.takeWhile (isDigitIn b) = u := List.takeWhile_eq_self_iff.mpr hall
  rw [htake] at hnil
  have hm := magnitude_of_openDigits hb hopen ⟨hnil, hall⟩
  rw [htake, ofDigitsIn_eq]
  obtain ⟨sp, hsp, hs⟩ := exists_space s
  rw [hs]
  rcases takeSign_cases (s.dropWhile isspace) with ⟨t', ht, hsign'⟩ | ⟨t', ht, hsign'⟩ | hsign'
  · cases hsign.symm.trans hsign'
    rw [ht]
    exact .minus hsp hm
  · cases hsign.symm.trans hsign'
    rw [ht]
    exact .plus hsp hm
  · cases hsign.symm.trans hsign'
    exact .plain hsp hm

/-- A string is read to its end exactly if it is a numeral, as the number it stands for. -/
theorem scan_eq_some_nil_iff (hb : IsBase base) : scan base s = some (v, []) ↔ Numeral base s v :=
  ⟨numeral_of_scan hb, scan_of_numeral hb⟩

theorem Numeral.unique (hb : IsBase base) (hv : Numeral base s v) (hw : Numeral base s w) :
    v = w := by
  rw [← scan_eq_some_nil_iff hb] at hv hw
  have h := hv.symm.trans hw
  exact (Prod.mk.inj (Option.some.inj h)).1

theorem strtolIn_of_numeral (hb : IsBase base) (h : Numeral base s v) :
    strtolIn base s = ⟨toLong v, [], toLong v ≠ v⟩ := by
  rw [strtolIn, (scan_eq_some_nil_iff hb).mpr h]

/-- If `strtol` leaves nothing of a string, the string is empty or a numeral. -/
theorem numeral_of_rest_nil (hb : IsBase base) (hne : s ≠ []) (h : (strtolIn base s).rest = []) :
    ∃ v, Numeral base s v := by
  rw [strtolIn] at h
  split at h
  · exact absurd h hne
  · next v rest hscan =>
    obtain rfl : rest = [] := h
    exact ⟨v, (scan_eq_some_nil_iff hb).mp hscan⟩

theorem Numeral.ne_nil (hb : IsBase base) (h : Numeral base s v) : s ≠ [] := by
  cases h with
  | plain _ hm =>
    obtain ⟨c, t, rfl, -⟩ := hm.head hb
    exact List.append_ne_nil_of_right_ne_nil _ (List.cons_ne_nil _ _)
  | plus _ _ => exact List.append_ne_nil_of_right_ne_nil _ (List.cons_ne_nil _ _)
  | minus _ _ => exact List.append_ne_nil_of_right_ne_nil _ (List.cons_ne_nil _ _)

/-- The nearest `long` is the number itself exactly if it is a `long`. -/
theorem toLong_eq_self_iff : toLong v = v ↔ -2 ^ 63 ≤ v ∧ v ≤ 2 ^ 63 - 1 := by
  rw [toLong]
  omega

theorem ofDigitsIn_ten {ds : Bytes} (h : ∀ c ∈ ds, isdigit c = true) :
    ofDigitsIn 10 ds = ofDigits ds := by
  induction ds using List.reverseRecOn with
  | nil => rfl
  | append_singleton ds c ih =>
    have hc : digitVal c = c.toNat - 48 := digitVal_of_isdigit (h c (by simp))
    rw [ofDigits_append, ← ih fun d hd => h d (List.mem_append_left _ hd), ← hc, ofDigitsIn,
      List.foldl_append]
    rfl

/-- In base 10 this is `strtol`. -/
theorem strtolIn_ten (s : Bytes) : strtol s = ((strtolIn 10 s).value, (strtolIn 10 s).rest) := by
  have hpred : isDigitIn 10 = isdigit := funext fun c => isDigitIn_ten
  obtain ⟨neg, t, hsign⟩ : ∃ neg t, takeSign (s.dropWhile isspace) = (neg, t) := ⟨_, _, rfl⟩
  have hopen : openDigits 10 t = (10, t) := rfl
  have hval : ofDigitsIn 10 (t.takeWhile isdigit) = ofDigits (t.takeWhile isdigit) :=
    ofDigitsIn_ten fun c hc => List.mem_takeWhile_imp hc
  simp only [strtolIn, scan, strtol, hsign, hopen, hpred, hval]
  by_cases hnil : t.takeWhile isdigit = []
  · simp only [if_pos hnil]
  · simp only [if_neg hnil]

end Numerals

end Tlpi.Lib
