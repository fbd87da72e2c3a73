import Mathlib.Data.Finset.Card
import Mathlib.Data.List.Flatten
import Tlpi.Lib.Lists

/-!
# Walking a forest that is given by parent links

`parent` sends a node to its parent, if it has one.  Nothing else is asked of it: there
may be cycles.  But a node with no parent is not on one, so what lies below it is a
tree, although `parent` as a whole is not a forest.

* `Below parent r n x`: `n` links lead from `x` up to `r`.
* `Below.depth_unique`: below a root, `n` is determined by `x`; hence a node has one
  depth, is not below itself, and not below two children of one node.
* `Below.lt_card`: the depth is smaller than the number of nodes.
* `preorder`: a node, then what lies below its children, child by child, each node with
  its depth.  The recursion looks at nothing but the lists of children, so it runs on
  fuel.
* `preorder_spec`: with as much fuel as there are nodes it comes to an end, and it lists
  every node below the root, once, at its depth, before its children, these in their
  order.
-/

namespace Tlpi.Lib

variable {ι : Type*}

/-- `n` links lead from a node up to `r`. -/
inductive Below (parent : ι → Option ι) (r : ι) : Nat → ι → Prop
  | self : Below parent r 0 r
  | link {n : Nat} {x y : ι} (h : parent x = some y) (hy : Below parent r n y) :
      Below parent r (n + 1) x

namespace Below

variable {parent : ι → Option ι} {r x y z : ι} {m n : Nat}

theorem trans (hxy : Below parent x n y) (hrx : Below parent r m x) :
    Below parent r (m + n) y := by
  induction hxy with
  | self => exact hrx
  | link h _ ih => exact .link h ih

/-- The link at the upper end of a chain. -/
theorem exists_child (h : Below parent r (n + 1) x) :
    ∃ c, parent c = some r ∧ Below parent c n x := by
  generalize hm : n + 1 = m at h
  induction h generalizing n with
  | self => exact absurd hm (Nat.succ_ne_zero n)
  | link hp hy ih =>
    rename_i k x y
    obtain rfl : n = k := by omega
    cases n with
    | zero =>
      cases hy
      exact ⟨x, hp, .self⟩
    | succ n =>
      obtain ⟨c, hc, hcy⟩ := ih rfl
      exact ⟨c, hc, .link hp hcy⟩

/-- Links of one length lead to one node. -/
theorem top_unique (hy : Below parent y n x) (hz : Below parent z n x) : y = z := by
  induction hy generalizing z with
  | self =>
    cases hz
    rfl
  | link hp _ ih =>
    cases hz with
    | link hp' hz =>
      rw [hp] at hp'
      cases hp'
      exact ih hz

/-- Below a node without parent, a node has one depth. -/
theorem depth_unique (hr : parent r = none) (hn : Below parent r n x) (hm : Below parent r m x) :
    n = m := by
  induction hn generalizing m with
  | self =>
    cases hm with
    | self => rfl
    | link hp _ =>
      rw [hr] at hp
      cases hp
  | link hp _ ih =>
    cases hm with
    | self =>
      rw [hr] at hp
      cases hp
    | link hp' hm =>
      rw [hp] at hp'
      cases hp'
      rw [ih hm]

/-- The nodes of a chain, from the lower end on: no two of them are the same. -/
theorem exists_nodup_chain (hr : parent r = none) (h : Below parent r n x) :
    ∃ l : List ι, l.length = n + 1 ∧ l.Nodup ∧ ∀ y ∈ l, ∃ k ≤ n, Below parent r k y := by
  induction h with
  | self => exact ⟨[r], rfl, List.nodup_singleton r, by simpa using Below.self⟩
  | link hp hy ih =>
    rename_i n x y
    obtain ⟨l, hlen, hnodup, hl⟩ := ih
    refine ⟨x :: l, by rw [List.length_cons, hlen], List.nodup_cons.mpr ⟨?_, hnodup⟩, ?_⟩
    · intro hx
      obtain ⟨k, hk, hkx⟩ := hl x hx
      have := depth_unique hr hkx (.link hp hy)
      omega
    · intro z hz
      rcases List.mem_cons.mp hz with rfl | hz
      · exact ⟨n + 1, le_rfl, .link hp hy⟩
      · obtain ⟨k, hk, hkz⟩ := hl z hz
        exact ⟨k, by omega, hkz⟩

/-- **No chain is longer than the number of nodes.** -/
theorem lt_card {S : Finset ι} (hr : parent r = none) (hS : ∀ k y, Below parent r k y → y ∈ S)
    (h : Below parent r n x) : n < S.card := by
  classical
  obtain ⟨l, hlen, hnodup, hl⟩ := exists_nodup_chain hr h
  have hsub : l.toFinset ⊆ S := by
    intro y hy
    obtain ⟨k, -, hk⟩ := hl y (List.mem_toFinset.mp hy)
    exact hS k y hk
  have hcard := Finset.card_le_card hsub
  rw [List.toFinset_card_of_nodup hnodup] at hcard
  omega

end Below

/-! ### The walk -/

/-- A node and all that lies below it, with depths, by recursion over the children. -/
def preorder (kids : ι → List ι) : Nat → Nat → ι → Option (List (Nat × ι))
  | 0, _, _ => none
  | fuel + 1, level, x =>
      ((kids x).mapM fun c => preorder kids fuel (level + 1) c).map fun ls =>
        (level, x) :: ls.flatten

/-- More fuel changes nothing. -/
theorem preorder_succ {kids : ι → List ι} {fuel level : Nat} {x : ι} {out : List (Nat × ι)}
    (h : preorder kids fuel level x = some out) : preorder kids (fuel + 1) level x = some out := by
  induction fuel generalizing level x out with
  | zero => exact absurd h (by simp [preorder])
  | succ fuel ih =>
    rw [preorder, Option.map_eq_some_iff] at h ⊢
    obtain ⟨ls, hls, hout⟩ := h
    exact ⟨ls, mapM_eq_some_mono (fun c out hc => ih hc) hls, hout⟩

theorem preorder_mono {kids : ι → List ι} {fuel fuel' level : Nat} {x : ι} {out : List (Nat × ι)}
    (hle : fuel ≤ fuel') (h : preorder kids fuel level x = some out) :
    preorder kids fuel' level x = some out := by
  induction hle with
  | refl => exact h
  | step _ ih => exact preorder_succ ih

theorem sublist_flatMap {l : List ι} {f : ι → List ι} (h : ∀ a ∈ l, a ∈ f a) :
    l.Sublist (l.flatMap f) := by
  induction l with
  | nil => exact List.Sublist.slnil
  | cons a l ih =>
    rw [List.flatMap_cons]
    exact (List.singleton_sublist.mpr (h a List.mem_cons_self)).append
      (ih fun b hb => h b (List.mem_cons_of_mem a hb))

/-- A list of nodes with depths is the walk from `x`, which has depth `n`. -/
structure IsWalk (parent : ι → Option ι) (kids : ι → List ι) (n : Nat) (x : ι)
    (out : List (Nat × ι)) : Prop where
  mem_iff : ∀ m y, (m, y) ∈ out ↔ ∃ k, m = n + k ∧ Below parent x k y
  nodup : (out.map Prod.snd).Nodup
  order : ∀ k z, Below parent x k z → (z :: kids z).Sublist (out.map Prod.snd)

section Walk

variable {parent : ι → Option ι} {kids : ι → List ι} {r : ι}

theorem IsWalk.mem_map_snd {n : Nat} {x : ι} {out : List (Nat × ι)}
    (h : IsWalk parent kids n x out) (y : ι) :
    y ∈ out.map Prod.snd ↔ ∃ k, Below parent x k y := by
  rw [List.mem_map]
  constructor
  · rintro ⟨⟨m, y⟩, hmem, rfl⟩
    obtain ⟨k, -, hk⟩ := (h.mem_iff m y).mp hmem
    exact ⟨k, hk⟩
  · rintro ⟨k, hk⟩
    exact ⟨(n + k, y), (h.mem_iff _ y).mpr ⟨k, rfl, hk⟩, rfl⟩

/-- A node and the walks from its children make the walk from it. -/
theorem isWalk_cons (hr : parent r = none) (hkids : ∀ x y, y ∈ kids x ↔ parent y = some x)
    (hnodup : ∀ x, (kids x).Nodup) {n : Nat} {x : ι} (hx : Below parent r n x)
    {g : ι → List (Nat × ι)} (hg : ∀ c ∈ kids x, IsWalk parent kids (n + 1) c (g c)) :
    IsWalk parent kids n x ((n, x) :: ((kids x).map g).flatten) := by
  have hchild : ∀ c ∈ kids x, Below parent r (n + 1) c :=
    fun c hc => .link ((hkids x c).mp hc) hx
  have hmap : (((n, x) :: ((kids x).map g).flatten).map Prod.snd) =
      x :: (kids x).flatMap fun c => (g c).map Prod.snd := by
    simp [List.map_flatten, List.flatMap, Function.comp_def]
  refine ⟨?_, ?_, ?_⟩
  · intro m y
    rw [List.mem_cons, ← List.flatMap_def, List.mem_flatMap]
    constructor
    · rintro (heq | ⟨c, hc, hmem⟩)
      · cases heq
        exact ⟨0, rfl, .self⟩
      · obtain ⟨k, rfl, hk⟩ := ((hg c hc).mem_iff m y).mp hmem
        refine ⟨1 + k, by omega, hk.trans ?_⟩
        exact .link ((hkids x c).mp hc) .self
    · rintro ⟨k, rfl, hk⟩
      cases k with
      | zero =>
        cases hk
        exact .inl rfl
      | succ k =>
        obtain ⟨c, hc, hcy⟩ := hk.exists_child
        have hc := (hkids x c).mpr hc
        exact .inr ⟨c, hc, ((hg c hc).mem_iff _ y).mpr ⟨k, by omega, hcy⟩⟩
  · rw [hmap, List.nodup_cons, List.nodup_flatMap]
    refine ⟨?_, fun c hc => (hg c hc).nodup, ?_⟩
    · rw [List.mem_flatMap]
      rintro ⟨c, hc, hmem⟩
      obtain ⟨k, hk⟩ := ((hg c hc).mem_map_snd x).mp hmem
      have := Below.depth_unique hr hx (hk.trans (hchild c hc))
      omega
    · refine (hnodup x).imp_of_mem ?_
      intro c c' hc hc' hne y hy hy'
      obtain ⟨k, hk⟩ := ((hg c hc).mem_map_snd y).mp hy
      obtain ⟨k', hk'⟩ := ((hg c' hc').mem_map_snd y).mp hy'
      have hdepth := Below.depth_unique hr (hk.trans (hchild c hc)) (hk'.trans (hchild c' hc'))
      obtain rfl : k = k' := by omega
      exact hne (hk.top_unique hk')
  · intro k z hz
    rw [hmap]
    cases k with
    | zero =>
      cases hz
      apply List.Sublist.cons_cons
      exact sublist_flatMap fun c hc => ((hg c hc).mem_map_snd c).mpr ⟨0, .self⟩
    | succ k =>
      obtain ⟨c, hc, hcz⟩ := hz.exists_child
      have hc := (hkids x c).mpr hc
      have hsub : ((g c).map Prod.snd).Sublist ((kids x).flatMap fun c => (g c).map Prod.snd) :=
        List.sublist_flatten_of_mem (List.mem_map_of_mem hc)
      exact (((hg c hc).order k z hcz).trans hsub).trans (List.sublist_cons_self ..)

/-- **The walk ends, and lists the tree.** -/
theorem preorder_spec {S : Finset ι} (hr : parent r = none)
    (hS : ∀ k y, Below parent r k y → y ∈ S) (hkids : ∀ x y, y ∈ kids x ↔ parent y = some x)
    (hnodup : ∀ x, (kids x).Nodup) (fuel n : Nat) (x : ι) (hx : Below parent r n x)
    (hfuel : S.card ≤ n + fuel) :
    ∃ out, preorder kids fuel n x = some out ∧ IsWalk parent kids n x out := by
  induction fuel generalizing n x with
  | zero => exact absurd (hx.lt_card hr hS) (by omega)
  | succ fuel ih =>
    have hchild : ∀ c ∈ kids x, ∃ out, preorder kids fuel (n + 1) c = some out ∧
        IsWalk parent kids (n + 1) c out :=
      fun c hc => ih (n + 1) c (.link ((hkids x c).mp hc) hx) (by omega)
    choose! g hg using hchild
    refine ⟨(n, x) :: ((kids x).map g).flatten, ?_,
      isWalk_cons hr hkids hnodup hx fun c hc => (hg c hc).2⟩
    rw [preorder, mapM_eq_some_map fun c hc => (hg c hc).1]
    rfl

end Walk

end Tlpi.Lib
