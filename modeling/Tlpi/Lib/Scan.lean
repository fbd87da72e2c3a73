import Mathlib.Algebra.Ring.Int.Defs
import Mathlib.Algebra.Ring.Nat
import Tlpi.Lib.FileSys

/-!
# Looking for text and reading numbers

`strstr`, `isspace` and `strtol` on the bytes of a string, in the C locale.

* `strstr_append_cons`: a line break, or any other byte that is not in what is looked for,
  splits the search: what is found is found on one side of it.
* `strtol_decimal`: `strtol` reads back a number that was written in decimal, up to the
  first byte that is not a digit.
* `strtol_append_cons`: a byte that can be no part of a number hides what comes after it.
* `atoi_of_startsWithInt`: `atoi` gives the `int` that a string begins with.
-/

namespace Tlpi.Lib

/-- `strstr(s, pat)`: the string from the first occurrence of `pat` on. -/
def strstr (pat : Bytes) : Bytes → Option Bytes
  | [] => if pat = [] then some [] else none
  | c :: s => if pat <+: c :: s then some (c :: s) else strstr pat s

def isspace (c : UInt8) : Bool := c = 32 ∨ (9 ≤ c ∧ c ≤ 13)

def isdigit (c : UInt8) : Bool := 48 ≤ c ∧ c ≤ 57

/-- A sign, if there is one: whether it is a minus, and what comes after it. -/
def takeSign (s : Bytes) : Bool × Bytes :=
  if s.head? = some 45 then (true, s.tail)
  else if s.head? = some 43 then (false, s.tail)
  else (false, s)

/-- The number that digits stand for. -/
def ofDigits (ds : Bytes) : Nat := ds.foldl (fun n c => 10 * n + (c.toNat - 48)) 0

/-- The nearest `long`. -/
def toLong (x : Int) : Int := max (-2 ^ 63) (min x (2 ^ 63 - 1))

/-- `strtol(s, &end, 10)`: the number, and the string at `end`.  Without a digit nothing is
read. -/
def strtol (s : Bytes) : Int × Bytes :=
  let (neg, t) := takeSign (s.dropWhile isspace)
  let n := ofDigits (t.takeWhile isdigit)
  if t.takeWhile isdigit = [] then (0, s)
  else (toLong (if neg then -n else n), t.dropWhile isdigit)

/-- `atoi(s)`, the conversion to `int` being that of the machine. -/
def atoi (s : Bytes) : Int := (BitVec.ofInt 32 (strtol s).1).toInt

/-- The digits of `n`, where `fuel` is larger than `n`. -/
def decimalAux : Nat → Nat → Bytes
  | 0, _ => []
  | fuel + 1, n =>
      if n < 10 then [UInt8.ofNat (48 + n)]
      else decimalAux fuel (n / 10) ++ [UInt8.ofNat (48 + n % 10)]

/-- A number in decimal. -/
def decimal (n : Nat) : Bytes := decimalAux (n + 1) n

/-- An integer in decimal, as `"%d"` has it. -/
def decimalInt (z : Int) : Bytes := if z < 0 then 45 :: decimal z.natAbs else decimal z.natAbs

/-- A sign or none. -/
def IsSign (sign : Bytes) : Prop := sign = [] ∨ sign = [43] ∨ sign = [45]

/-- A string begins with the integer `z`: after white space there are a sign or none, and digits up
to the first byte that is not a digit. -/
def StartsWithInt (s : Bytes) (z : Int) : Prop :=
  ∃ blanks sign digits rest : Bytes, s = blanks ++ sign ++ digits ++ rest ∧
    (∀ c ∈ blanks, isspace c = true) ∧ IsSign sign ∧ digits ≠ [] ∧
    (∀ c ∈ digits, isdigit c = true) ∧ (∀ c ∈ rest.head?, isdigit c = false) ∧
    z = if sign = [45] then -(ofDigits digits : Int) else ofDigits digits

/-! ### Searching -/

section Search

variable {pat s t b : Bytes} {x : UInt8}

theorem prefix_append_cons_iff (hx : x ∉ pat) : pat <+: b ++ x :: t ↔ pat <+: b := by
  constructor
  · intro h
    rcases List.prefix_or_prefix_of_prefix h (List.prefix_append b (x :: t)) with h' | h'
    · exact h'
    · obtain ⟨c, rfl⟩ := h'
      rw [List.prefix_append_right_inj] at h
      cases c with
      | nil => exact ⟨[], by rw [List.append_nil, List.append_nil]⟩
      | cons y c =>
        obtain ⟨rfl, -⟩ := List.cons_prefix_cons.mp h
        exact absurd (List.mem_append_right b List.mem_cons_self) hx
  · exact fun h => h.trans (List.prefix_append ..)

/-- A byte that is not in `pat` splits the search. -/
theorem strstr_append_cons (hx : x ∉ pat) (hne : pat ≠ []) (b t : Bytes) :
    strstr pat (b ++ x :: t) = ((strstr pat b).map (· ++ x :: t)).or (strstr pat t) := by
  induction b with
  | nil =>
    have hnot : ¬ pat <+: x :: t := by
      intro h
      have := (prefix_append_cons_iff (b := []) hx).mp h
      exact hne (List.prefix_nil.mp this)
    have hcons : strstr pat (x :: t) = strstr pat t := by rw [strstr, if_neg hnot]
    rw [List.nil_append, hcons, strstr, if_neg hne]
    rfl
  | cons c b ih =>
    rw [List.cons_append, strstr, strstr]
    have hiff : pat <+: c :: (b ++ x :: t) ↔ pat <+: c :: b :=
      prefix_append_cons_iff (b := c :: b) hx
    by_cases h : pat <+: c :: b
    · rw [if_pos (hiff.mpr h), if_pos h]
      rfl
    · rw [if_neg fun h' => h (hiff.mp h'), if_neg h, ih]

theorem strstr_self (h : pat <+: s) : strstr pat s = some s := by
  cases s with
  | nil => rw [strstr, if_pos (List.prefix_nil.mp h)]
  | cons c s => rw [strstr, if_pos h]

/-- What is found begins with what was looked for. -/
theorem strstr_eq_some (h : strstr pat s = some t) : pat <+: t ∧ t <:+ s := by
  induction s with
  | nil =>
    rw [strstr] at h
    split at h
    · next hp =>
      cases h
      exact ⟨List.prefix_nil.mpr hp, List.suffix_refl _⟩
    · cases h
  | cons c s ih =>
    rw [strstr] at h
    split at h
    · next hp =>
      cases h
      exact ⟨hp, List.suffix_refl _⟩
    · obtain ⟨h1, h2⟩ := ih h
      exact ⟨h1, h2.trans (List.suffix_cons c s)⟩

theorem strstr_eq_none : strstr pat s = none ↔ ¬ pat <:+: s := by
  induction s with
  | nil =>
    rw [strstr, List.infix_nil]
    by_cases h : pat = [] <;> simp [h]
  | cons c s ih =>
    rw [strstr, List.infix_cons_iff, not_or]
    by_cases h : pat <+: c :: s
    · simp [h]
    · rw [if_neg h, ih]
      exact (and_iff_right h).symm

end Search

/-! ### Numbers -/

section Numbers

variable {n : Nat} {x : UInt8} {w t t' : Bytes}

theorem toNat_digit {d : Nat} (h : d < 10) : (UInt8.ofNat (48 + d)).toNat = 48 + d := by
  rw [UInt8.toNat_ofNat']
  omega

theorem isdigit_iff : isdigit x = true ↔ 48 ≤ x.toNat ∧ x.toNat ≤ 57 := by
  rw [isdigit, decide_eq_true_iff, UInt8.le_iff_toNat_le, UInt8.le_iff_toNat_le]
  rfl

theorem isdigit_digit {d : Nat} (h : d < 10) : isdigit (UInt8.ofNat (48 + d)) = true := by
  rw [isdigit_iff, toNat_digit h]
  omega

/-- White space is in the lower part of the table. -/
theorem isspace_of_lt (h : 32 < x.toNat) : isspace x = false := by
  rw [isspace, decide_eq_false_iff_not, UInt8.le_iff_toNat_le, UInt8.le_iff_toNat_le]
  rintro (rfl | ⟨-, h13⟩)
  · exact absurd h (by decide)
  · have : x.toNat ≤ 13 := h13
    omega

theorem isspace_of_isdigit (h : isdigit x = true) : isspace x = false := by
  rw [isdigit_iff] at h
  exact isspace_of_lt (by omega)

theorem ofDigits_append (ds : Bytes) (c : UInt8) :
    ofDigits (ds ++ [c]) = 10 * ofDigits ds + (c.toNat - 48) := by
  rw [ofDigits, List.foldl_append]
  rfl

theorem decimalAux_spec {fuel : Nat} (h : n < fuel) :
    decimalAux fuel n ≠ [] ∧ (∀ c ∈ decimalAux fuel n, isdigit c = true) ∧
      ofDigits (decimalAux fuel n) = n := by
  induction fuel generalizing n with
  | zero => exact absurd h (Nat.not_lt_zero n)
  | succ fuel ih =>
    rw [decimalAux]
    split
    · next hlt =>
      refine ⟨List.cons_ne_nil _ _, fun c hc => ?_, ?_⟩
      · rw [List.mem_singleton.mp hc]
        exact isdigit_digit hlt
      · show 10 * 0 + ((UInt8.ofNat (48 + n)).toNat - 48) = n
        rw [toNat_digit hlt]
        omega
    · next hge =>
      have hmod : n % 10 < 10 := Nat.mod_lt _ (by decide)
      obtain ⟨-, hdigits, hval⟩ := @ih (n / 10) (by omega)
      refine ⟨List.append_ne_nil_of_right_ne_nil _ (List.cons_ne_nil _ _), fun c hc => ?_, ?_⟩
      · rcases List.mem_append.mp hc with hc | hc
        · exact hdigits c hc
        · rw [List.mem_singleton.mp hc]
          exact isdigit_digit hmod
      · rw [ofDigits_append, hval, toNat_digit hmod]
        omega

theorem length_decimalAux_le {fuel k : Nat} (hn : n < 10 ^ (k + 1)) :
    (decimalAux fuel n).length ≤ k + 1 := by
  induction k generalizing fuel n with
  | zero =>
    cases fuel with
    | zero => exact Nat.zero_le _
    | succ fuel =>
      rw [decimalAux, if_pos (by omega)]
      exact Nat.le_refl _
  | succ k ih =>
    cases fuel with
    | zero => exact Nat.zero_le _
    | succ fuel =>
      rw [decimalAux]
      split_ifs
      · exact Nat.succ_le_succ (Nat.zero_le _)
      · have hdiv : n / 10 < 10 ^ (k + 1) := by
          rw [Nat.pow_succ] at hn
          omega
        have hlen : (decimalAux fuel (n / 10)).length ≤ k + 1 := ih hdiv
        rw [List.length_append, List.length_singleton]
        omega

theorem decimal_ne_nil (n : Nat) : decimal n ≠ [] := (decimalAux_spec (Nat.lt_succ_self n)).1

theorem isdigit_of_mem_decimal {c : UInt8} (h : c ∈ decimal n) : isdigit c = true :=
  (decimalAux_spec (Nat.lt_succ_self n)).2.1 c h

theorem ofDigits_decimal (n : Nat) : ofDigits (decimal n) = n :=
  (decimalAux_spec (Nat.lt_succ_self n)).2.2

theorem zero_not_mem_decimalInt (z : Int) : 0 ∉ decimalInt z := by
  have hdigits : ∀ n, 0 ∉ decimal n := by
    intro n h
    have hdigit := isdigit_of_mem_decimal h
    exact absurd hdigit (by decide)
  rw [decimalInt]
  split_ifs
  · rw [List.mem_cons, not_or]
    exact ⟨by decide, hdigits _⟩
  · exact hdigits _

theorem length_decimalInt_le {z : Int} {k : Nat} (h : z.natAbs < 10 ^ (k + 1)) :
    (decimalInt z).length ≤ k + 2 := by
  have hlen : (decimal z.natAbs).length ≤ k + 1 := length_decimalAux_le h
  rw [decimalInt]
  split_ifs
  · rw [List.length_cons]
    omega
  · omega

/-- Where a predicate stops at `x`, it does not look further. -/
theorem takeWhile_append_cons {p : UInt8 → Bool} (hx : p x = false) (w t : Bytes) :
    (w ++ x :: t).takeWhile p = w.takeWhile p := by
  induction w with
  | nil => rw [List.nil_append, List.takeWhile_cons, hx]; rfl
  | cons c w ih => rw [List.cons_append, List.takeWhile_cons, List.takeWhile_cons, ih]

theorem dropWhile_append_cons {p : UInt8 → Bool} (hx : p x = false) (w t : Bytes) :
    (w ++ x :: t).dropWhile p = w.dropWhile p ++ x :: t := by
  induction w with
  | nil => rw [List.nil_append, List.dropWhile_cons, hx]; rfl
  | cons c w ih =>
    rw [List.cons_append, List.dropWhile_cons, List.dropWhile_cons, ih]
    split <;> rfl

theorem takeSign_of_isdigit (h : isdigit x = true) (t : Bytes) :
    takeSign (x :: t) = (false, x :: t) := by
  have hminus : x ≠ 45 := by
    rintro rfl
    revert h
    decide
  have hplus : x ≠ 43 := by
    rintro rfl
    revert h
    decide
  simp [takeSign, hminus, hplus]

theorem takeWhile_eq_nil {p : UInt8 → Bool} (h : ∀ c ∈ t.head?, p c = false) :
    t.takeWhile p = [] ∧ t.dropWhile p = t := by
  cases t with
  | nil => exact ⟨rfl, rfl⟩
  | cons c t => simp [h c rfl]

/-- `strtol` reads a number in decimal up to the first byte that is not a digit. -/
theorem strtol_decimal (n : Nat) (hrest : ∀ c ∈ t.head?, isdigit c = false) :
    strtol (decimal n ++ t) = (toLong n, t) := by
  have hdigits : ∀ c ∈ decimal n, isdigit c = true := fun c => isdigit_of_mem_decimal
  obtain ⟨htake, hdrop⟩ := takeWhile_eq_nil hrest
  have hsign : takeSign ((decimal n ++ t).dropWhile isspace) = (false, decimal n ++ t) := by
    obtain ⟨c, ds, hc⟩ := List.exists_cons_of_ne_nil (decimal_ne_nil n)
    have hcd : isdigit c = true := hdigits c (by rw [hc]; exact List.mem_cons_self)
    rw [hc, List.cons_append, List.dropWhile_cons, isspace_of_isdigit hcd]
    exact takeSign_of_isdigit hcd _
  rw [strtol, hsign]
  simp only [List.takeWhile_append_of_pos hdigits, List.dropWhile_append_of_pos hdigits, htake, hdrop,
    List.append_nil, if_neg (decimal_ne_nil n), ofDigits_decimal]
  rfl

theorem isspace_of_isSign {sign digits : Bytes} (hsign : IsSign sign) (hne : digits ≠ [])
    (hdigits : ∀ c ∈ digits, isdigit c = true) (c : UInt8)
    (hc : c ∈ (sign ++ digits ++ t).head?) : isspace c = false := by
  rcases hsign with rfl | rfl | rfl
  · obtain ⟨d, ds, rfl⟩ := List.exists_cons_of_ne_nil hne
    cases hc
    exact isspace_of_isdigit (hdigits c List.mem_cons_self)
  · cases hc
    decide
  · cases hc
    decide

theorem takeSign_of_isSign {sign digits : Bytes} (hsign : IsSign sign) (hne : digits ≠ [])
    (hdigits : ∀ c ∈ digits, isdigit c = true) :
    takeSign (sign ++ digits ++ t) = (decide (sign = [45]), digits ++ t) := by
  rcases hsign with rfl | rfl | rfl
  · obtain ⟨d, ds, rfl⟩ := List.exists_cons_of_ne_nil hne
    exact takeSign_of_isdigit (hdigits d List.mem_cons_self) (ds ++ t)
  · rfl
  · rfl

/-- `strtol` reads the integer that a string begins with. -/
theorem strtol_of_startsWithInt {s : Bytes} {z : Int} (h : StartsWithInt s z) :
    (strtol s).1 = toLong z := by
  obtain ⟨blanks, sign, digits, rest, rfl, hblanks, hsign, hne, hdigits, hrest, rfl⟩ := h
  have hdrop : (blanks ++ sign ++ digits ++ rest).dropWhile isspace = sign ++ digits ++ rest := by
    rw [List.append_assoc, List.append_assoc, List.dropWhile_append_of_pos hblanks,
      ← List.append_assoc]
    exact (takeWhile_eq_nil (isspace_of_isSign hsign hne hdigits)).2
  have htake : (digits ++ rest).takeWhile isdigit = digits := by
    rw [List.takeWhile_append_of_pos hdigits, (takeWhile_eq_nil hrest).1, List.append_nil]
  rw [strtol, hdrop, takeSign_of_isSign hsign hne hdigits]
  simp only [htake, if_neg hne, decide_eq_true_eq]

/-- `atoi` gives the `int` that a string begins with. -/
theorem atoi_of_startsWithInt {s : Bytes} {z : Int} (h : StartsWithInt s z) (hmin : -2 ^ 31 ≤ z)
    (hmax : z < 2 ^ 31) : atoi s = z := by
  have hlong : toLong z = z := by
    rw [toLong]
    omega
  rw [atoi, strtol_of_startsWithInt h, hlong, BitVec.toInt_ofInt]
  exact Int.bmod_eq_of_le (by omega) (by omega)

theorem atoi_decimal {n : Nat} (h : n < 2 ^ 31) : atoi (decimal n) = n := by
  refine atoi_of_startsWithInt ⟨[], [], decimal n, [], ?_, ?_, .inl rfl, decimal_ne_nil n,
    fun c => isdigit_of_mem_decimal, ?_, ?_⟩ (by omega) (by omega)
  · rw [List.append_nil, List.append_nil, List.nil_append]
  · simp
  · simp
  · rw [ofDigits_decimal]
    rfl

/-- After a byte that is neither white space nor a sign nor a digit. -/
theorem takeSign_append_cons (hminus : x ≠ 45) (hplus : x ≠ 43) (w t : Bytes) :
    takeSign (w ++ x :: t) = ((takeSign w).1, (takeSign w).2 ++ x :: t) := by
  cases w with
  | nil => simp [takeSign, hminus, hplus]
  | cons c w =>
    by_cases h45 : c = 45
    · simp [takeSign, h45]
    · by_cases h43 : c = 43
      · simp [takeSign, h43]
      · simp [takeSign, h45, h43]

/-- Such a byte hides what comes after it. -/
theorem strtol_append_cons (hspace : isspace x = false) (hdigit : isdigit x = false)
    (hminus : x ≠ 45) (hplus : x ≠ 43) (w t t' : Bytes) :
    (strtol (w ++ x :: t)).1 = (strtol (w ++ x :: t')).1 := by
  simp only [strtol, dropWhile_append_cons hspace, takeSign_append_cons hminus hplus,
    takeWhile_append_cons hdigit]
  split <;> rfl

end Numbers

end Tlpi.Lib
