import Mathlib.Data.List.Infix
import Mathlib.Data.List.TakeWhile
import Tlpi.Lib.FileSys

/-!
# Pathnames

A directory is named by the path from the root to it, the list of the names on the way;
`render` is the string.  A name carries that it has no separator in it, so paths can be told from
strings.

* `under_render`: the test on strings whether one names the same as the other, or something below
  it, is the prefix order on paths.
* `render_injective`: different paths have different strings.
* `move P Q`: what becomes of a path when `P` is renamed to `Q`.  It is undone by `move Q P`, where
  nothing has been below `Q` (`move_move`).
-/

namespace Tlpi.Lib

/-- What the name of a directory in another one may be. -/
def IsName (b : Bytes) : Prop := b ≠ [] ∧ 47 ∉ b ∧ 0 ∉ b

structure Name where
  bytes : Bytes
  isName : IsName bytes
  deriving DecidableEq

abbrev Path := List Name

/-- The string of a path. -/
def render : Path → Bytes
  | [] => []
  | n :: P => 47 :: (n.bytes ++ render P)

/-- `strncmp(s, t, strlen(s)) == 0 && (t[strlen(s)] == '/' || t[strlen(s)] == '\0')` -/
def under (s t : Bytes) : Bool :=
  t.take s.length = s ∧ (t[s.length]? = none ∨ t[s.length]? = some 47)

/-- What is left of a string after a name: nothing, or a separator and more. -/
def Boundary (u : Bytes) : Prop := u = [] ∨ u.head? = some 47

section Strings

variable {P Q R : Path}

@[simp] theorem render_append (P Q : Path) : render (P ++ Q) = render P ++ render Q := by
  induction P with
  | nil => rfl
  | cons n P ih => rw [List.cons_append, render, ih, render, List.cons_append, List.append_assoc]

theorem boundary_render (P : Path) : Boundary (render P) := by
  cases P with
  | nil => exact .inl rfl
  | cons n P => exact .inr rfl

theorem Boundary.append {u v : Bytes} (hu : Boundary u) (hv : Boundary v) : Boundary (u ++ v) := by
  rcases hu with rfl | hu
  · exact hv
  · cases u with
    | nil => cases hu
    | cons b u => exact .inr hu

theorem under_iff {s t : Bytes} : under s t = true ↔ ∃ u, t = s ++ u ∧ Boundary u := by
  rw [under, decide_eq_true_eq]
  constructor
  · rintro ⟨htake, hnext⟩
    refine ⟨t.drop s.length, ?_, ?_⟩
    · conv_lhs => rw [← List.take_append_drop s.length t, htake]
    · rw [Boundary, List.drop_eq_nil_iff, List.head?_drop]
      exact hnext.imp_left List.getElem?_eq_none_iff.mp
  · rintro ⟨u, rfl, hu⟩
    refine ⟨List.take_left, ?_⟩
    rw [List.getElem?_append_right (Nat.le_refl _), Nat.sub_self]
    rcases hu with rfl | hu
    · exact .inl rfl
    · rw [← List.head?_eq_getElem?]
      exact .inr hu

/-- The first name of a string. -/
theorem takeWhile_name (n : Name) {u : Bytes} (hu : Boundary u) :
    (n.bytes ++ u).takeWhile (· ≠ 47) = n.bytes := by
  have hname : ∀ b ∈ n.bytes, decide (b ≠ 47) = true := fun b hb =>
    decide_eq_true fun heq => n.isName.2.1 (heq ▸ hb)
  rw [List.takeWhile_append_of_pos hname]
  rcases hu with rfl | hu
  · rw [List.takeWhile_nil, List.append_nil]
  · cases u with
    | nil => cases hu
    | cons b u =>
      cases hu
      rw [List.takeWhile_cons_of_neg (by simp), List.append_nil]

theorem Name.ext {m n : Name} (h : m.bytes = n.bytes) : m = n := by
  cases m
  cases n
  cases h
  rfl

/-- A string that begins with a name, at a boundary, has no other one at its beginning. -/
theorem name_append_inj {m n : Name} {u v : Bytes} (hu : Boundary u) (hv : Boundary v)
    (h : m.bytes ++ u = n.bytes ++ v) : m = n ∧ u = v := by
  have hbytes : m.bytes = n.bytes := by rw [← takeWhile_name m hu, h, takeWhile_name n hv]
  refine ⟨Name.ext hbytes, ?_⟩
  rw [hbytes] at h
  exact List.append_cancel_left h

theorem under_render : under (render P) (render Q) = true ↔ P <+: Q := by
  rw [under_iff]
  constructor
  · rintro ⟨u, heq, hu⟩
    induction P generalizing Q with
    | nil => exact List.nil_prefix
    | cons n P ih =>
      cases Q with
      | nil => cases heq
      | cons m Q =>
        simp only [render, List.cons_append, List.cons.injEq, true_and, List.append_assoc] at heq
        obtain ⟨rfl, hrest⟩ := name_append_inj (boundary_render Q)
          ((boundary_render P).append hu) heq
        exact List.cons_prefix_cons.mpr ⟨rfl, ih hrest⟩
  · rintro ⟨R, rfl⟩
    exact ⟨render R, render_append P R, boundary_render R⟩

theorem render_injective : Function.Injective render := by
  intro P Q h
  refine (under_render.mp ?_).eq_of_length_le (under_render.mp ?_).length_le
  · rw [h]
    exact under_render.mpr (List.prefix_refl Q)
  · rw [h]
    exact under_render.mpr (List.prefix_refl Q)

theorem render_inj : render P = render Q ↔ P = Q := render_injective.eq_iff

/-- `"%s/%s"` -/
theorem render_snoc (P : Path) (n : Name) : render (P ++ [n]) = render P ++ 47 :: n.bytes := by
  rw [render_append, render, render, List.append_nil]

end Strings

/-! ### Renaming -/

/-- The path of a directory after a rename of `P` to `Q`. -/
def move (P Q R : Path) : Path := if P <+: R then Q ++ R.drop P.length else R

section Move

variable {P Q R : Path}

@[simp] theorem move_append (P Q R : Path) : move P Q (P ++ R) = Q ++ R := by
  rw [move, if_pos (List.prefix_append P R), List.drop_left]

@[simp] theorem move_self (P Q : Path) : move P Q P = Q := by
  have h := move_append P Q []
  rwa [List.append_nil, List.append_nil] at h

theorem move_of_not (h : ¬ P <+: R) : move P Q R = R := if_neg h

theorem move_of_below (h : P <+: R) : Q <+: move P Q R := by
  rw [move, if_pos h]
  exact List.prefix_append Q _

theorem move_move (h : ¬ Q <+: R) : move Q P (move P Q R) = R := by
  by_cases hP : P <+: R
  · obtain ⟨T, rfl⟩ := hP
    rw [move_append, move_append]
  · rw [move_of_not hP, move_of_not h]

/-- What is renamed, as a string. -/
theorem render_move (h : P <+: R) :
    render (move P Q R) = render Q ++ (render R).drop (render P).length := by
  obtain ⟨T, rfl⟩ := h
  rw [move_append, render_append, render_append, List.drop_left]

end Move

end Tlpi.Lib
