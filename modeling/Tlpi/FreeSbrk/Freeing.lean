import Mathlib.Data.List.Nodup
import Tlpi.FreeSbrk.Model

/-!
# Which blocks are freed

The counter goes through the numbers `stride a 0`, `stride a 1` and so on, until it comes to one
that is at least `freeMax`.  It gets there if this number is an `int` (`freeLoop_eq_some`); and
if the loop ends without an overflow, it has got there (`stride_of_freeLoop`).

* `checked_of_parseArgs`: what the arguments are known to be.
* `frees_allocated_iff`: both programs free what they have allocated, each block at most once,
  exactly if one of the numbers lies between `freeMax` and `INT_MAX`.
-/

namespace Tlpi.FreeSbrk

open Tlpi.Lib Tlpi.GetNum

/-- The arguments that `main` goes on with. -/
structure Checked (a : Args) : Prop where
  numAllocs : 1 ≤ a.numAllocs ∧ a.numAllocs ≤ MAX_ALLOCS
  freeStep : 1 ≤ a.freeStep ∧ a.freeStep ≤ INT_MAX
  freeMin : 1 ≤ a.freeMin ∧ a.freeMin ≤ INT_MAX
  freeMax : 1 ≤ a.freeMax ∧ a.freeMax ≤ a.numAllocs

/-- The end of the loop as it is meant. -/
structure Loop.Clean (numAllocs : Int) (l : Loop) : Prop where
  no_overflow : l.overflow = false
  allocated : ∀ j ∈ l.freed, 0 ≤ j ∧ j < numAllocs
  once : l.freed.Nodup

/-- The program comes to an end, and has freed as it is meant. -/
def Safe (a : Args) (program : Nat → Option Outcome) : Prop :=
  ∃ fuel breaks l, program fuel = some (.done breaks l) ∧ l.Clean a.numAllocs

/-- The counter after `i` steps. -/
def stride (a : Args) (i : Nat) : Int := a.freeMin - 1 + i * a.freeStep

section Arguments

variable {argv : List Bytes} {i : Nat} {name : String} {missing v : Int} {a : Args}

theorem getInt_pos {arg : Option Bytes} {flags : BitVec 32} {name : Option Bytes}
    (hflags : flags &&& GN_GT_0 ≠ 0) (h : getInt arg flags name = .ok v) : 1 ≤ v ∧ v ≤ INT_MAX := by
  obtain ⟨⟨s, -, hacc⟩, -, hmax⟩ := getInt_eq_ok_iff.mp h
  exact ⟨hacc.pos hflags, hmax⟩

theorem optional_eq_ok (hmissing : 1 ≤ missing ∧ missing ≤ INT_MAX)
    (h : optional argv i name missing = .ok v) : 1 ≤ v ∧ v ≤ INT_MAX := by
  rw [optional] at h
  split_ifs at h
  · exact getInt_pos (by decide) h
  · cases h
    exact hmissing

/-- A computation that goes on. -/
theorem bind_eq_ok {α β : Type} {x : Except Exit α} {f : α → Except Exit β} {b : β}
    (h : (x >>= f) = .ok b) : ∃ y, x = .ok y ∧ f y = .ok b := by
  cases x with
  | error e => cases h
  | ok y => exact ⟨y, rfl, h⟩

theorem checked_of_parseArgs (h : parseArgs argv = .ok a) : Checked a := by
  rw [parseArgs] at h
  split_ifs at h
  obtain ⟨numAllocs, hnum, h⟩ := bind_eq_ok h
  split_ifs at h with hmax
  obtain ⟨blockSize, -, h⟩ := bind_eq_ok h
  obtain ⟨freeStep, hstep, h⟩ := bind_eq_ok h
  obtain ⟨freeMin, hmin, h⟩ := bind_eq_ok h
  obtain ⟨freeMax, hfree, h⟩ := bind_eq_ok h
  split_ifs at h with hle
  cases h
  have hn := getInt_pos (by decide) hnum
  have hone : (1 : Int) ≤ 1 ∧ (1 : Int) ≤ INT_MAX := by decide
  exact ⟨⟨hn.1, not_lt.mp hmax⟩, optional_eq_ok hone hstep, optional_eq_ok hone hmin,
    (optional_eq_ok hn hfree).1, not_lt.mp hle⟩

/-- No allocation fails, so all are made. -/
theorem allocLoop_ok (report : Bool) {k : Kernel} (hk : ∀ j, k.malloc j = true) (n j : Nat) :
    (allocLoop report k n j).2 = true := by
  induction n generalizing j with
  | zero => rfl
  | succ n ih =>
    rw [allocLoop]
    simp only [hk j, if_true]
    exact ih (j + 1)

theorem main_eq (report : Bool) {k : Kernel} (hk : ∀ j, k.malloc j = true)
    (h : parseArgs argv = .ok a) : ∃ breaks, ∀ fuel, main report argv k fuel =
      (freeLoop a fuel ⟨a.freeMin - 1, [], false⟩).map (.done breaks) := by
  have hok := allocLoop_ok report hk a.numAllocs.toNat 0
  cases hloop : allocLoop report k a.numAllocs.toNat 0 with
  | mk breaks ok =>
    rw [hloop] at hok
    obtain rfl : ok = true := hok
    exact ⟨k.brk 0 :: breaks ++ [k.brk a.numAllocs.toNat, k.brkFreed], fun fuel => by
      rw [main, h]
      simp only [hloop]⟩

end Arguments

/-! ### The loop -/

section Loops

variable {a : Args} {l l' : Loop} {fuel i n : Nat}

theorem stride_zero (a : Args) : stride a 0 = a.freeMin - 1 := by simp [stride]

theorem stride_succ (a : Args) (i : Nat) : stride a (i + 1) = stride a i + a.freeStep := by
  rw [stride, stride, Nat.cast_succ, Int.add_mul]
  omega

theorem stride_lt (h : Checked a) {j : Nat} (hij : i < j) : stride a i < stride a j := by
  have hstep := h.freeStep.1
  have hmul : (i + 1 : Int) * a.freeStep ≤ j * a.freeStep :=
    Int.mul_le_mul_of_nonneg_right (by omega) (by omega)
  rw [Int.add_mul] at hmul
  rw [stride, stride]
  omega

theorem stride_injective (h : Checked a) : Function.Injective (stride a) := by
  intro i j hij
  rcases Nat.lt_trichotomy i j with hlt | rfl | hgt
  · exact absurd hij (Int.ne_of_lt (stride_lt h hlt))
  · rfl
  · exact absurd hij (Int.ne_of_gt (stride_lt h hgt))

theorem stride_nonneg (h : Checked a) (i : Nat) : 0 ≤ stride a i := by
  have hmin := h.freeMin.1
  have hstep := h.freeStep.1
  have hmul : 0 ≤ (i : Int) * a.freeStep := Int.mul_nonneg (by omega) (by omega)
  rw [stride]
  omega

theorem wrap_eq {x : Int} (h0 : 0 ≤ x) (hmax : x ≤ INT_MAX) : wrap x = x := by
  refine toInt_ofInt ?_ hmax
  rw [INT_MIN]
  omega

/-- **The loop ends** at the first number that is not below `freeMax`, if this is an `int`. -/
theorem freeLoop_eq_some (h : Checked a) (hbelow : ∀ m < n, stride a (i + m) < a.freeMax)
    (hend : a.freeMax ≤ stride a (i + n)) (hfits : stride a (i + n) ≤ INT_MAX) (freed : List Int) :
    freeLoop a (n + 1) ⟨stride a i, freed, false⟩ =
      some ⟨stride a (i + n), freed ++ (List.range' i n).map (stride a), false⟩ := by
  induction n generalizing i freed with
  | zero =>
    have hge : ¬ stride a i < a.freeMax := not_lt.mpr hend
    rw [freeLoop, if_neg hge]
    simp
  | succ n ih =>
    have hnext : stride a (i + 1) ≤ INT_MAX := by
      rcases Nat.eq_zero_or_pos n with rfl | hn
      · exact hfits
      · exact Int.le_of_lt (Int.lt_of_lt_of_le (stride_lt h (by omega)) hfits)
    have heq : (⟨stride a i, freed, false⟩ : Loop).next a =
        ⟨stride a (i + 1), freed ++ [stride a i], false⟩ := by
      rw [stride_succ] at hnext ⊢
      simp only [Loop.next, wrap_eq (stride_succ a i ▸ stride_nonneg h (i + 1)) hnext,
        Bool.false_or, decide_eq_false (not_lt.mpr hnext)]
    have hlt : stride a i < a.freeMax := hbelow 0 (Nat.succ_pos n)
    have hadd : i + (n + 1) = i + 1 + n := by omega
    rw [hadd] at hend hfits ⊢
    rw [freeLoop, if_pos hlt, heq, ih (fun m hm => ?_) hend hfits, List.range'_succ, List.map_cons,
      List.append_assoc]
    · rfl
    · have hm' := hbelow (m + 1) (by omega)
      rwa [show i + (m + 1) = i + 1 + m by omega] at hm'

/-- An overflow is not forgotten. -/
theorem overflow_of_freeLoop (h : freeLoop a fuel l = some l') (hover : l'.overflow = false) :
    l.overflow = false := by
  induction fuel generalizing l with
  | zero => cases h
  | succ fuel ih =>
    rw [freeLoop] at h
    split_ifs at h
    · have hnext := ih h
      rw [Loop.next, Bool.or_eq_false_iff] at hnext
      exact hnext.1
    · cases h
      exact hover

/-- A loop that ends without an overflow ends at one of the numbers. -/
theorem stride_of_freeLoop (h : Checked a) (hl : l.j = stride a i) (hfits : stride a i ≤ INT_MAX)
    (hloop : freeLoop a fuel l = some l') (hover : l'.overflow = false) :
    ∃ n, a.freeMax ≤ stride a n ∧ stride a n ≤ INT_MAX := by
  induction fuel generalizing l i with
  | zero => cases hloop
  | succ fuel ih =>
    rw [freeLoop] at hloop
    split_ifs at hloop with hlt
    · have hnext := overflow_of_freeLoop hloop hover
      rw [Loop.next, Bool.or_eq_false_iff, hl, ← stride_succ] at hnext
      have hfits' : stride a (i + 1) ≤ INT_MAX := not_lt.mp (of_decide_eq_false hnext.2)
      refine ih ?_ hfits' hloop
      show wrap (l.j + a.freeStep) = _
      rw [hl, ← stride_succ, wrap_eq (stride_nonneg h _) hfits']
    · exact ⟨i, hl ▸ not_lt.mp hlt, hfits⟩

end Loops

section Programs

variable {a : Args} {n : Nat}

/-- The numbers below `freeMax` are indices of blocks. -/
theorem clean_of_stride (h : Checked a) (hbelow : ∀ m < n, stride a m < a.freeMax) (j : Int) :
    (⟨j, (List.range' 0 n).map (stride a), false⟩ : Loop).Clean a.numAllocs := by
  refine ⟨rfl, fun k hk => ?_, (List.nodup_range' 1).map (stride_injective h)⟩
  obtain ⟨m, hm, rfl⟩ := List.mem_map.mp hk
  have hlt := hbelow m (by simpa using hm)
  exact ⟨stride_nonneg h m, Int.lt_of_lt_of_le hlt h.freeMax.2⟩

/-- The loop from its beginning. -/
theorem exists_clean_iff (h : Checked a) :
    (∃ fuel l, freeLoop a fuel ⟨a.freeMin - 1, [], false⟩ = some l ∧ l.Clean a.numAllocs) ↔
      ∃ n, a.freeMax ≤ stride a n ∧ stride a n ≤ INT_MAX := by
  constructor
  · rintro ⟨fuel, l, hloop, hclean⟩
    have hmin := h.freeMin.2
    refine stride_of_freeLoop (i := 0) h (stride_zero a).symm ?_ hloop hclean.no_overflow
    rw [stride_zero]
    omega
  · intro hex
    -- the first of the numbers that is not below the end
    let n := Nat.find hex
    obtain ⟨hend, hfits⟩ := Nat.find_spec hex
    have hbelow : ∀ m < n, stride a m < a.freeMax := by
      intro m hm
      refine not_le.mp fun hle => Nat.find_min hex hm ⟨hle, ?_⟩
      exact Int.le_of_lt (Int.lt_of_lt_of_le (stride_lt h hm) hfits)
    have hloop := freeLoop_eq_some (i := 0) (n := n) h (by simpa using hbelow) (by simpa using hend)
      (by simpa using hfits) []
    rw [stride_zero] at hloop
    exact ⟨_, _, hloop, clean_of_stride h hbelow _⟩

theorem safe_main_iff (report : Bool) {argv : List Bytes} {k : Kernel}
    (hk : ∀ j, k.malloc j = true) (h : parseArgs argv = .ok a) :
    Safe a (main report argv k) ↔ ∃ n, a.freeMax ≤ stride a n ∧ stride a n ≤ INT_MAX := by
  obtain ⟨breaks, hmain⟩ := main_eq report hk h
  rw [← exists_clean_iff (checked_of_parseArgs h), Safe]
  simp only [hmain, Option.map_eq_some_iff]
  constructor
  · rintro ⟨fuel, b, l, ⟨l', hloop, heq⟩, hclean⟩
    cases heq
    exact ⟨fuel, l, hloop, hclean⟩
  · rintro ⟨fuel, l, hloop, hclean⟩
    exact ⟨fuel, breaks, l, ⟨l, hloop, rfl⟩, hclean⟩

end Programs

/-- For all arguments that pass the checks, both programs come to the end of the loop without an
overflow, and have freed blocks that they had allocated, each at most once, exactly if one of the
numbers that the counter goes through lies between `freeMax` and `INT_MAX`. -/
theorem frees_allocated_iff (argv : List Bytes) (k : Kernel) (a : Args)
    (hargs : parseArgs argv = .ok a) (hk : ∀ j, k.malloc j = true) :
    Checked a ∧
      (Safe a (exercise_1 argv k) ↔
        ∃ n : Nat, a.freeMax ≤ a.freeMin - 1 + n * a.freeStep ∧
          a.freeMin - 1 + n * a.freeStep ≤ INT_MAX) ∧
      (Safe a (free_and_sbrk argv k) ↔
        ∃ n : Nat, a.freeMax ≤ a.freeMin - 1 + n * a.freeStep ∧
          a.freeMin - 1 + n * a.freeStep ≤ INT_MAX) :=
  ⟨checked_of_parseArgs hargs, safe_main_iff true hk hargs, safe_main_iff false hk hargs⟩

/-- Every third of ten blocks. -/
theorem frees_allocated_third :
    parseArgs (["p", "10", "8", "3"].map ascii) = .ok ⟨10, 8, 3, 1, 10⟩ ∧
      Safe ⟨10, 8, 3, 1, 10⟩
        (exercise_1 (["p", "10", "8", "3"].map ascii) ⟨fun _ => true, fun _ => 0, 0⟩) :=
  ⟨by decide, (frees_allocated_iff (["p", "10", "8", "3"].map ascii) ⟨fun _ => true, fun _ => 0, 0⟩
    ⟨10, 8, 3, 1, 10⟩ (by decide) fun _ => rfl).2.1.mpr ⟨4, by decide⟩⟩

/-- With a step of `INT_MAX` the counter of the second block becomes negative, and the block of a
negative index is freed. -/
theorem frees_negative_index :
    ∃ (argv : List Bytes) (k : Kernel) (a : Args) (l : Loop), parseArgs argv = .ok a ∧
      ¬ Safe a (exercise_1 argv k) ∧ ¬ Safe a (free_and_sbrk argv k) ∧
      l = (⟨a.freeMin - 1, [], false⟩ : Loop).next a ∧ l.j = INT_MIN ∧ l.j < a.freeMax := by
  have hargs : parseArgs (["p", "2", "8", "2147483647", "2"].map ascii) =
      .ok ⟨2, 8, 2147483647, 2, 2⟩ := by decide
  have hnone : ¬ ∃ n, (2 : Int) ≤ stride ⟨2, 8, 2147483647, 2, 2⟩ n ∧
      stride ⟨2, 8, 2147483647, 2, 2⟩ n ≤ INT_MAX := by
    rintro ⟨n, hle, hmax⟩
    simp only [stride, INT_MAX] at hle hmax
    omega
  refine ⟨_, ⟨fun _ => true, fun _ => 0, 0⟩, _, _, hargs, ?_, ?_, rfl, by decide, by decide⟩
  · exact fun h => hnone ((safe_main_iff true (fun _ => rfl) hargs).mp h)
  · exact fun h => hnone ((safe_main_iff false (fun _ => rfl) hargs).mp h)

end Tlpi.FreeSbrk
