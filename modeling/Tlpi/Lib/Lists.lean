import Mathlib.Data.List.Perm.Basic
import Mathlib.Tactic.Common

/-!
# Lists

Four groups of facts.  Replacing one element moves a count, or a sum, by what the old and the new
element contribute; the two contributions stand on different sides, so that no
subtraction is needed.  It leaves the others, and what a function makes of them, as they are.
`mapM` in `Option` has a value when every element has one.  And two predicates select the same
from a list if they agree where it matters.
-/

namespace Tlpi.Lib

variable {α : Type}

theorem countP_set_add {l : List α} {j : Nat} {a : α} (h : l[j]? = some a) (b : α)
    (p : α → Bool) :
    (l.set j b).countP p + (if p a then 1 else 0) = l.countP p + (if p b then 1 else 0) := by
  obtain ⟨hj, rfl⟩ := List.getElem?_eq_some_iff.mp h
  have hle : (if p l[j] then 1 else 0) ≤ l.countP p := by
    split
    · next hp => exact List.countP_pos_iff.mpr ⟨_, List.getElem_mem hj, hp⟩
    · exact Nat.zero_le _
  rw [List.countP_set hj]
  omega

theorem modify_eq_set_of_getElem? {l : List α} {j : Nat} {a : α} (h : l[j]? = some a)
    (f : α → α) : l.modify j f = l.set j (f a) := by
  refine List.ext_getElem? fun i => ?_
  rw [List.getElem?_modify, List.getElem?_set]
  obtain ⟨hj, ha⟩ := List.getElem?_eq_some_iff.mp h
  rcases eq_or_ne j i with rfl | hne
  · simp [hj, ha]
  · simp [hne]

theorem countP_modify_add {l : List α} {j : Nat} {a : α} (h : l[j]? = some a) (f : α → α)
    (p : α → Bool) :
    (l.modify j f).countP p + (if p a then 1 else 0) = l.countP p + (if p (f a) then 1 else 0) := by
  rw [modify_eq_set_of_getElem? h]
  exact countP_set_add h (f a) p

/-! ### Sums -/

/-- The sum of `f` over a list. -/
def total (f : α → Nat) : List α → Nat
  | [] => 0
  | a :: l => f a + total f l

section Total

variable {f : α → Nat}

@[simp] theorem total_append (l l' : List α) : total f (l ++ l') = total f l + total f l' := by
  induction l with
  | nil => exact (Nat.zero_add _).symm
  | cons a l ih =>
    rw [List.cons_append, total, total, ih]
    omega

@[simp] theorem total_singleton (a : α) : total f [a] = f a := rfl

@[simp] theorem total_zero (l : List α) : total (fun _ => 0) l = 0 := by
  induction l with
  | nil => rfl
  | cons a l ih => rw [total, ih]

theorem total_set_add {l : List α} {j : Nat} {a : α} (h : l[j]? = some a) (b : α) :
    total f (l.set j b) + f a = total f l + f b := by
  induction l generalizing j with
  | nil => cases h
  | cons c l ih =>
    cases j with
    | zero =>
      cases h
      rw [List.set_cons_zero, total, total]
      omega
    | succ j =>
      rw [List.getElem?_cons_succ] at h
      have := ih h
      rw [List.set_cons_succ, total, total]
      omega

end Total

/-! ### Replacing an element -/

section Set

variable {β : Type} {l : List α} {i k : Nat} {a b : α}

theorem mem_set_cases (h : a ∈ l.set i b) : a = b ∨ ∃ k, k ≠ i ∧ l[k]? = some a := by
  obtain ⟨k, hk⟩ := List.mem_iff_getElem?.mp h
  rw [List.getElem?_set] at hk
  split at hk
  · split at hk
    · exact .inl (Option.some.inj hk).symm
    · cases hk
  · next hne => exact .inr ⟨k, Ne.symm hne, hk⟩

/-- Replacing an element by one with the same value of `f`. -/
theorem map_set_eq {f : α → β} (h : l[i]? = some a) (hf : f b = f a) :
    (l.set i b).map f = l.map f := by
  refine List.ext_getElem? fun k => ?_
  rw [List.getElem?_map, List.getElem?_map, List.getElem?_set]
  split
  · next heq =>
    subst heq
    obtain ⟨hlt, -⟩ := List.getElem?_eq_some_iff.mp h
    rw [if_pos hlt, h, Option.map_some, Option.map_some, hf]
  · rfl

theorem ne_of_nodup_map {f : α → β} (h : (l.map f).Nodup) (hi : l[i]? = some a)
    (hk : l[k]? = some b) (hne : k ≠ i) : f b ≠ f a := by
  intro heq
  have hi' : (l.map f)[i]? = some (f a) := by rw [List.getElem?_map, hi, Option.map_some]
  have hk' : (l.map f)[k]? = some (f a) := by rw [List.getElem?_map, hk, Option.map_some, heq]
  obtain ⟨hklt, -⟩ := List.getElem?_eq_some_iff.mp hk'
  exact hne ((List.getElem?_inj hklt h).mp (hk'.trans hi'.symm))

/-- Replacing an element, as far as a filter sees it. -/
theorem filter_set_perm (h : l[i]? = some a) (b : α) (p : α → Bool) :
    ((if p a then [a] else []) ++ (l.set i b).filter p).Perm
      ((if p b then [b] else []) ++ l.filter p) := by
  induction l generalizing i with
  | nil => cases h
  | cons c l ih =>
    cases i with
    | zero =>
      cases h
      rw [List.set_cons_zero, List.filter_cons, List.filter_cons]
      split <;> split
      · exact List.Perm.swap b a _
      · exact List.Perm.refl _
      · exact List.Perm.refl _
      · exact List.Perm.refl _
    | succ i =>
      rw [List.getElem?_cons_succ] at h
      rw [List.set_cons_succ, List.filter_cons, List.filter_cons]
      by_cases hc : p c = true
      · rw [if_pos hc, if_pos hc]
        exact List.perm_middle.trans (((ih h).cons c).trans List.perm_middle.symm)
      · rw [if_neg hc, if_neg hc]
        exact ih h

theorem mem_of_mem_replace [BEq α] {x : α} (h : x ∈ l.replace a b) : x ∈ l ∨ x = b := by
  induction l with
  | nil => cases h
  | cons c l ih =>
    rw [List.replace_cons] at h
    split at h
    · exact (List.mem_cons.mp h).symm.imp_left (List.mem_cons_of_mem c)
    · rcases List.mem_cons.mp h with rfl | h
      · exact .inl List.mem_cons_self
      · exact (ih h).imp_left (List.mem_cons_of_mem c)

theorem mem_replace_of_ne [BEq α] [LawfulBEq α] {x : α} (h : x ∈ l) (hne : x ≠ a) :
    x ∈ l.replace a b := by
  induction l with
  | nil => cases h
  | cons c l ih =>
    rw [List.replace_cons]
    split
    · next heq =>
      rw [beq_iff_eq] at heq
      exact List.mem_cons_of_mem b ((List.mem_cons.mp h).resolve_left fun hx => hne (hx.trans heq.symm))
    · rcases List.mem_cons.mp h with rfl | h
      · exact List.mem_cons_self
      · exact List.mem_cons_of_mem c (ih h)

/-- An element in front of the others, which have other values of `f`. -/
theorem perm_cons_filter_ne [DecidableEq β] {f : α → β} (h : (l.map f).Nodup) (ha : a ∈ l) :
    l.Perm (a :: l.filter fun b => f b ≠ f a) := by
  induction l with
  | nil => cases ha
  | cons c l ih =>
    rw [List.map_cons, List.nodup_cons] at h
    rcases List.mem_cons.mp ha with rfl | ha
    · have hall : l.filter (fun b => f b ≠ f a) = l := List.filter_eq_self.mpr fun b hb =>
        decide_eq_true fun heq => h.1 (heq ▸ List.mem_map_of_mem hb)
      rw [List.filter_cons, if_neg (by simp), hall]
    · have hne : f c ≠ f a := fun heq => h.1 (heq ▸ List.mem_map_of_mem ha)
      rw [List.filter_cons, if_pos (decide_eq_true hne)]
      exact ((ih h.2 ha).cons c).trans (List.Perm.swap a c _)

end Set

/-! ### `mapM` in `Option` -/

section MapM

variable {α β γ : Type*} {l : List α}

theorem mapM_eq_some_map {f : α → Option β} {g : α → β} (h : ∀ a ∈ l, f a = some (g a)) :
    l.mapM f = some (l.map g) := by
  induction l with
  | nil => rfl
  | cons a l ih =>
    rw [List.mapM_cons, h a List.mem_cons_self, ih fun b hb => h b (List.mem_cons_of_mem a hb)]
    rfl

theorem mapM_eq_map_mapM {f : α → Option β} {f' : α → Option γ} {g : β → γ}
    (h : ∀ a ∈ l, f' a = (f a).map g) : l.mapM f' = (l.mapM f).map (List.map g) := by
  induction l with
  | nil => rfl
  | cons a l ih =>
    rw [List.mapM_cons, List.mapM_cons, h a List.mem_cons_self,
      ih fun b hb => h b (List.mem_cons_of_mem a hb)]
    cases f a with
    | none => rfl
    | some b => cases l.mapM f <;> rfl

theorem mapM_eq_some_mono {f f' : α → Option β} (h : ∀ a b, f a = some b → f' a = some b)
    {bs : List β} (hbs : l.mapM f = some bs) : l.mapM f' = some bs := by
  induction l generalizing bs with
  | nil => exact hbs
  | cons a l ih =>
    rw [List.mapM_cons] at hbs ⊢
    cases hfa : f a with
    | none => exact absurd hbs (by simp [hfa])
    | some b =>
      cases hfl : l.mapM f with
      | none => exact absurd hbs (by simp [hfa, hfl])
      | some cs =>
        rw [h a b hfa, ih hfl]
        rw [hfa, hfl] at hbs
        exact hbs

end MapM

/-- Two filters keep the same elements exactly if they agree on every element. -/
theorem filter_eq_filter_iff {l : List α} {p q : α → Bool} :
    l.filter p = l.filter q ↔ ∀ a ∈ l, p a = q a := by
  refine ⟨fun h a ha => ?_, List.filter_congr⟩
  have hmem : a ∈ l.filter p ↔ a ∈ l.filter q := by rw [h]
  rw [List.mem_filter, List.mem_filter, and_iff_right ha, and_iff_right ha] at hmem
  exact Bool.eq_iff_iff.mpr hmem

/-- Two searches find the same exactly if the first element that either of them accepts is
accepted by both. -/
theorem find?_eq_find?_iff {l : List α} {p q : α → Bool} :
    l.find? p = l.find? q ↔
      ∀ a, l.find? (fun a => p a || q a) = some a → p a = true ∧ q a = true := by
  induction l with
  | nil => simp
  | cons b l ih =>
    rw [List.find?_cons, List.find?_cons, List.find?_cons]
    cases hp : p b with
    | false =>
      cases hq : q b with
      | false => exact ih
      | true =>
        simp only [Bool.false_or, Option.some.injEq, forall_eq', hp, Bool.false_eq_true,
          false_and, iff_false]
        intro h
        have := List.find?_some h
        rw [hp] at this
        cases this
    | true =>
      cases hq : q b with
      | false =>
        simp only [Bool.true_or, Option.some.injEq, forall_eq', hq, Bool.false_eq_true,
          and_false, iff_false]
        intro h
        have := List.find?_some h.symm
        rw [hq] at this
        cases this
      | true => simp [hp, hq]

end Tlpi.Lib
