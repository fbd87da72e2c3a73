import Mathlib.Data.List.Nodup
import Mathlib.Data.List.ReduceOption
import Tlpi.InotifyDtree.Model
import Tlpi.Lib.Lists

/-!
# What the cache says

A slot with a watch descriptor is in use (`used`).  `View` says what the watches and the cache have
to do with each other while the events of a change are on their way: the watches are those of the
directories in `D`, the slots name them by the paths that they had before (`nm`), and there may be
slots whose watch is gone (`extra`).  The operations of the program are told by what they do to a
view.
-/

namespace Tlpi.InotifyDtree

open Tlpi.Lib

/-- The slots in use. -/
def used (cs : Cache) : Cache := cs.filter fun x => 0 ≤ x.wd

section Slots

variable {cs : Cache} {x : Slot} {j : Nat}

theorem mem_used : x ∈ used cs ↔ x ∈ cs ∧ 0 ≤ x.wd := by
  rw [used, List.mem_filter, decide_eq_true_eq]

theorem findWatch_of_mem (hnodup : ((used cs).map Slot.wd).Nodup) (hx : x ∈ used cs) :
    ∃ j, findWatch cs x.wd = some j ∧ cs[j]? = some x := by
  obtain ⟨hmem, hpos⟩ := mem_used.mp hx
  cases hfind : findWatch cs x.wd with
  | none =>
    rw [findWatch, List.findIdx?_eq_none_iff] at hfind
    exact absurd (hfind x hmem) (by simp)
  | some j =>
    refine ⟨j, rfl, ?_⟩
    rw [findWatch, List.findIdx?_eq_some_iff_getElem] at hfind
    obtain ⟨hj, hwd, -⟩ := hfind
    rw [decide_eq_true_eq] at hwd
    have hused : cs[j] ∈ used cs := mem_used.mpr ⟨List.getElem_mem hj, hwd ▸ hpos⟩
    rw [List.getElem?_eq_getElem hj, List.inj_on_of_nodup_map hnodup hused hx hwd]

theorem findWatch_eq_none {wd : Int} (hpos : 0 ≤ wd) :
    findWatch cs wd = none ↔ ∀ x ∈ used cs, x.wd ≠ wd := by
  rw [findWatch, List.findIdx?_eq_none_iff]
  refine ⟨fun h x hx => of_decide_eq_false (h x (mem_used.mp hx).1), fun h x hx => ?_⟩
  refine decide_eq_false fun heq => h x (mem_used.mpr ⟨hx, heq ▸ hpos⟩) heq

theorem pathnameInCache_iff {pathname : Bytes} :
    pathnameInCache cs pathname = true ↔ ∃ x ∈ used cs, x.path = pathname := by
  rw [pathnameInCache, pathnameToCacheSlot, List.findIdx?_isSome, List.any_eq_true]
  refine exists_congr fun x => ?_
  rw [decide_eq_true_eq, mem_used, and_assoc]

/-- The slot that is found is not in use, and an unused slot more or less makes no difference. -/
theorem findEmptyCacheSlot_spec (cs : Cache) :
    used (findEmptyCacheSlot cs).2 = used cs ∧
      ∃ x, (findEmptyCacheSlot cs).2[(findEmptyCacheSlot cs).1]? = some x ∧ x.wd = -1 := by
  rw [findEmptyCacheSlot]
  split
  · next j hj =>
    obtain ⟨hlt, hwd, -⟩ := List.findIdx?_eq_some_iff_getElem.mp hj
    exact ⟨rfl, cs[j], List.getElem?_eq_getElem hlt, of_decide_eq_true hwd⟩
  · refine ⟨?_, .unused, ?_, rfl⟩
    · simp [used, List.filter_append, Slot.unused]
    · rw [List.getElem?_append_right (Nat.le_refl _), Nat.sub_self]
      rfl

theorem used_addWatchToCache {wd : Nat} {pathname : Bytes} (hlen : pathname.length ≤ PATH_MAX) :
    (used (addWatchToCache cs wd pathname)).Perm (⟨wd, pathname⟩ :: used cs) := by
  obtain ⟨hused, x, hx, hwd⟩ := findEmptyCacheSlot_spec cs
  have hperm := filter_set_perm hx ⟨wd, pathname⟩ fun x => 0 ≤ x.wd
  rw [if_neg (by rw [hwd]; decide), if_pos (by simp), List.nil_append] at hperm
  rw [addWatchToCache, List.take_of_length_le hlen, ← hused]
  exact hperm

theorem used_markCacheSlotEmpty (hx : cs[j]? = some x) (hpos : 0 ≤ x.wd) :
    (x :: used (markCacheSlotEmpty cs j)).Perm (used cs) := by
  have hperm := filter_set_perm hx .unused fun x => 0 ≤ x.wd
  rwa [if_pos (by simpa using hpos), if_neg (by decide)] at hperm

/-- What the zapping leaves of a slot. -/
def zapped (pn : Bytes) (x : Slot) : Slot := if 0 ≤ x.wd ∧ under pn x.path then .unused else x

theorem used_cons (x : Slot) (cs : Cache) :
    used (x :: cs) = if 0 ≤ x.wd then x :: used cs else used cs := by
  rw [used, List.filter_cons]
  simp only [decide_eq_true_eq]
  rfl

theorem used_map_zapped (pn : Bytes) (cs : Cache) :
    used (cs.map (zapped pn)) = (used cs).filter fun x => !under pn x.path := by
  induction cs with
  | nil => rfl
  | cons x cs ih =>
    rw [List.map_cons, used_cons, used_cons, ih]
    by_cases hpos : 0 ≤ x.wd
    · cases hunder : under pn x.path
      · simp [zapped, hpos, hunder]
      · simp [zapped, hpos, hunder, Slot.unused]
    · simp [zapped, hpos]

theorem used_map_path (f : Bytes → Bytes) (cs : Cache) :
    used (cs.map fun x => { x with path := f x.path }) =
      (used cs).map fun x => { x with path := f x.path } := by
  rw [used, List.filter_map]
  rfl

end Slots

/-! ### The watches and the cache -/

/-- The slot of a watch. -/
def entry (nm : Path → Path) (w : Watch) : Slot := ⟨w.wd, render (nm w.dir)⟩

structure View (rootDirPaths : List (Option Bytes)) (k : Kernel) (cs : Cache) (D : Path → Prop)
    (nm : Path → Path) (extra : List Slot) : Prop where
  dirs : (k.watches.map Watch.dir).Nodup
  watched : ∀ P, P ∈ k.watches.map Watch.dir ↔ D P
  flag : ∀ w ∈ k.watches, w.moveSelf = true ↔ some (render (nm w.dir)) ∈ rootDirPaths
  cache : (used cs).Perm (k.watches.map (entry nm) ++ extra)
  wds : ((k.watches.map (entry nm) ++ extra).map Slot.wd).Nodup
  lt : ∀ x ∈ k.watches.map (entry nm) ++ extra, x.wd < k.nextWd

theorem Kernel.lookup_render (k : Kernel) (P : Path) :
    k.lookup (render P) = if P ∈ k.dirs then some P else none := by
  rw [Kernel.lookup]
  cases hfind : k.dirs.find? fun Q => render Q = render P with
  | none =>
    rw [List.find?_eq_none] at hfind
    exact (if_neg fun hP => hfind P hP (decide_eq_true rfl)).symm
  | some Q =>
    have htrue := List.find?_some hfind
    have heq : Q = P := render_injective (of_decide_eq_true htrue)
    rw [← heq, if_pos (List.mem_of_find?_eq_some hfind)]

section View

variable {roots : List (Option Bytes)} {k : Kernel} {cs : Cache} {D : Path → Prop}
  {nm : Path → Path} {extra : List Slot} {P : Path} {w : Watch}

theorem View.nodup (h : View roots k cs D nm extra) : ((used cs).map Slot.wd).Nodup :=
  (h.cache.map Slot.wd).nodup_iff.mpr h.wds

/-- The slot of a watch is found. -/
theorem View.find (h : View roots k cs D nm extra) (hw : w ∈ k.watches) :
    ∃ j, findWatch cs w.wd = some j ∧ cs[j]? = some (entry nm w) :=
  findWatch_of_mem h.nodup (x := entry nm w)
    (h.cache.mem_iff.mpr (List.mem_append_left _ (List.mem_map_of_mem hw)))

theorem View.find_extra (h : View roots k cs D nm extra) {x : Slot} (hx : x ∈ extra) :
    ∃ j, findWatch cs x.wd = some j ∧ cs[j]? = some x :=
  findWatch_of_mem h.nodup (h.cache.mem_iff.mpr (List.mem_append_right _ hx))

/-- A watch gets its flag anew. -/
theorem View.setFlag (h : View roots k cs D nm extra) (hnm : nm P = P) :
    View roots { k with watches := k.watches.map fun v =>
      if v.dir = P then { v with moveSelf := isRootDirPath roots (render P) } else v }
      cs D nm extra := by
  have hmap : ∀ {β : Type} (f : Watch → β), (∀ (v : Watch) b, f { v with moveSelf := b } = f v) →
      (k.watches.map fun v =>
        if v.dir = P then { v with moveSelf := isRootDirPath roots (render P) } else v).map f =
      k.watches.map f := by
    intro β f hf
    rw [List.map_map]
    refine List.map_congr_left fun v _ => ?_
    rw [Function.comp_apply]
    split
    · exact hf v _
    · rfl
  refine ⟨?_, fun Q => ?_, fun w hw => ?_, ?_, ?_, ?_⟩
  · rw [hmap Watch.dir fun _ _ => rfl]
    exact h.dirs
  · rw [hmap Watch.dir fun _ _ => rfl]
    exact h.watched Q
  · obtain ⟨v, hv, rfl⟩ := List.mem_map.mp hw
    split
    · next heq => rw [heq, hnm, isRootDirPath, decide_eq_true_eq]
    · exact h.flag v hv
  · rw [hmap (entry nm) fun _ _ => rfl]
    exact h.cache
  · rw [hmap (entry nm) fun _ _ => rfl]
    exact h.wds
  · rw [hmap (entry nm) fun _ _ => rfl]
    exact h.lt

/-- A new watch. -/
theorem View.add (h : View roots k cs D nm extra) (hP : ¬ D P) (hnm : nm P = P)
    (hlen : (render P).length ≤ PATH_MAX) :
    View roots { k with
      watches := k.watches ++ [Watch.mk k.nextWd P (isRootDirPath roots (render P))]
      nextWd := k.nextWd + 1 } (addWatchToCache cs k.nextWd (render P)) (fun Q => D Q ∨ Q = P) nm
      extra := by
  have hentry : entry nm (Watch.mk k.nextWd P (isRootDirPath roots (render P))) =
      ⟨k.nextWd, render P⟩ := by rw [entry, hnm]
  have hperm : ((k.watches ++ [Watch.mk k.nextWd P (isRootDirPath roots (render P))]).map
      (entry nm) ++ extra).Perm (⟨k.nextWd, render P⟩ :: (k.watches.map (entry nm) ++ extra)) := by
    rw [List.map_append, List.map_singleton, hentry, List.append_assoc]
    exact List.perm_middle
  refine ⟨?_, fun Q => ?_, fun w hw => ?_, ?_, ?_, fun x hx => ?_⟩
  · rw [List.map_append, List.map_singleton, List.nodup_append]
    refine ⟨h.dirs, List.nodup_singleton _, fun Q hQ R hR heq => hP ?_⟩
    have hRP : R = P := List.mem_singleton.mp hR
    rw [← hRP, ← heq]
    exact (h.watched Q).mp hQ
  · rw [List.map_append, List.mem_append, h.watched, List.map_singleton, List.mem_singleton]
  · rcases List.mem_append.mp hw with hw | hw
    · exact h.flag w hw
    · rw [List.mem_singleton.mp hw]
      show isRootDirPath roots (render P) = true ↔ some (render (nm P)) ∈ roots
      rw [hnm, isRootDirPath, decide_eq_true_eq]
  · exact (used_addWatchToCache hlen).trans ((h.cache.cons _).trans hperm.symm)
  · rw [(hperm.map Slot.wd).nodup_iff, List.map_cons, List.nodup_cons]
    refine ⟨fun hmem => ?_, h.wds⟩
    obtain ⟨x, hx, heq⟩ := List.mem_map.mp hmem
    exact Int.ne_of_lt (h.lt x hx) heq
  · rcases List.mem_cons.mp (hperm.mem_iff.mp hx) with rfl | hx
    · exact Int.ofNat_lt.mpr (Nat.lt_succ_self _)
    · exact Int.lt_trans (h.lt x hx) (Int.ofNat_lt.mpr (Nat.lt_succ_self _))

theorem View.congr {D' : Path → Prop} (h : View roots k cs D nm extra) (hD : ∀ Q, D Q ↔ D' Q) :
    View roots k cs D' nm extra :=
  ⟨h.dirs, fun Q => (h.watched Q).trans (hD Q), h.flag, h.cache, h.wds, h.lt⟩

theorem View.congr_nm {nm' : Path → Path} (h : View roots k cs D nm extra)
    (hnm : ∀ Q, D Q → nm' Q = nm Q) : View roots k cs D nm' extra := by
  have hD : ∀ w ∈ k.watches, nm' w.dir = nm w.dir := fun w hw =>
    hnm _ ((h.watched _).mp (List.mem_map_of_mem hw))
  have hmap : k.watches.map (entry nm') = k.watches.map (entry nm) :=
    List.map_congr_left fun w hw => by rw [entry, entry, hD w hw]
  refine ⟨h.dirs, h.watched, fun w hw => ?_, hmap ▸ h.cache, hmap ▸ h.wds, hmap ▸ h.lt⟩
  rw [hD w hw]
  exact h.flag w hw

/-- Only the watches of the kernel matter. -/
theorem View.kernel {k' : Kernel} (h : View roots k cs D nm extra) (hw : k'.watches = k.watches)
    (hn : k'.nextWd = k.nextWd) : View roots k' cs D nm extra :=
  ⟨hw ▸ h.dirs, hw ▸ h.watched, hw ▸ h.flag, hw ▸ h.cache, hw ▸ h.wds, hw ▸ hn ▸ h.lt⟩

/-- A watch has gone, and its slot is still there. -/
theorem View.unwatch (h : View roots k cs D nm []) (hw : w ∈ k.watches) :
    View roots { k with watches := k.watches.filter fun v => v.wd ≠ w.wd } cs
      (fun P => D P ∧ P ≠ w.dir) nm [entry nm w] := by
  have hwds := h.wds
  rw [List.append_nil, List.map_map] at hwds
  have hwd : (k.watches.map Watch.wd).Nodup := by
    refine List.Nodup.of_map Int.ofNat ?_
    rw [List.map_map]
    exact hwds
  have hperm := perm_cons_filter_ne hwd hw
  have hsub := List.filter_sublist (l := k.watches) (p := fun v : Watch => v.wd ≠ w.wd)
  have hentry : (k.watches.map (entry nm) ++ []).Perm
      ((k.watches.filter fun v : Watch => v.wd ≠ w.wd).map (entry nm) ++ [entry nm w]) := by
    rw [List.append_nil]
    exact (hperm.map (entry nm)).trans (List.perm_append_singleton _ _).symm
  have hdirs := h.dirs
  rw [(hperm.map Watch.dir).nodup_iff, List.map_cons, List.nodup_cons] at hdirs
  refine ⟨hdirs.2, fun P => ?_, fun v hv => h.flag v (hsub.subset hv), h.cache.trans hentry,
    (hentry.map Slot.wd).nodup_iff.mp h.wds, fun x hx => h.lt x (hentry.mem_iff.mpr hx)⟩
  rw [← h.watched, (hperm.map Watch.dir).mem_iff, List.map_cons, List.mem_cons]
  constructor
  · intro hP
    exact ⟨.inr hP, fun heq => hdirs.1 (heq ▸ hP)⟩
  · rintro ⟨hP | hP, hne⟩
    · exact absurd hP hne
    · exact hP

/-- What does not change while a tree is traversed. -/
def Kernel.SameDirs (k k' : Kernel) : Prop := k'.dirs = k.dirs ∧ k'.queue = k.queue

theorem sameDirs_addWatch {pathname : Bytes} {moveSelf : Bool} {wd : Nat} {k' : Kernel}
    (h : k.addWatch pathname moveSelf = some (wd, k')) : k.SameDirs k' := by
  rw [Kernel.addWatch] at h
  split at h
  · cases h
  · split at h
    · cases h
      exact ⟨rfl, rfl⟩
    · cases h
      exact ⟨rfl, rfl⟩

theorem sameDirs_traverseTree (roots : List (Option Bytes)) (kc : Kernel × Cache)
    (pathname : Bytes) :
    kc.1.SameDirs (traverseTree roots kc pathname).1 := by
  rw [traverseTree]
  split
  · exact ⟨rfl, rfl⟩
  · next wd k hadd =>
    split
    · exact sameDirs_addWatch hadd
    · exact sameDirs_addWatch hadd

theorem View.watchOne (h : View roots k cs D nm extra) (hP : P ∈ k.dirs) (hnm : nm P = P)
    (hlen : (render P).length ≤ PATH_MAX) :
    View roots (traverseTree roots (k, cs) (render P)).1 (traverseTree roots (k, cs) (render P)).2
      (fun Q => D Q ∨ Q = P) nm extra := by
  rw [traverseTree, Kernel.addWatch, Kernel.lookup_render, if_pos hP]
  dsimp only
  cases hfind : k.watches.find? fun w => w.dir = P with
  | none =>
    have hnot : ¬ D P := by
      rw [← h.watched]
      rintro hmem
      obtain ⟨w, hw, heq⟩ := List.mem_map.mp hmem
      exact List.find?_eq_none.mp hfind w hw (decide_eq_true heq)
    have hnone : findWatch cs k.nextWd = none := by
      refine (findWatch_eq_none (Int.natCast_nonneg _)).mpr fun x hx heq => ?_
      exact Int.ne_of_lt (h.lt x (h.cache.mem_iff.mp hx)) heq
    simp only [hnone]
    exact h.add hnot hnm hlen
  | some w =>
    have hw := List.mem_of_find?_eq_some hfind
    have htrue := List.find?_some hfind
    have hdir : w.dir = P := of_decide_eq_true htrue
    obtain ⟨j, hj, -⟩ := h.find hw
    simp only [hj]
    refine (h.setFlag hnm).congr fun Q => ⟨.inl, ?_⟩
    rintro (hQ | rfl)
    · exact hQ
    · exact (h.watched _).mp (hdir ▸ List.mem_map_of_mem hw)

/-- The directories of a list get watches. -/
theorem View.watchAll {Ps : List Path} (h : View roots k cs D nm extra) (hdirs : ∀ P ∈ Ps, P ∈ k.dirs)
    (hnm : ∀ P ∈ Ps, nm P = P) (hlen : ∀ P ∈ Ps, (render P).length ≤ PATH_MAX) :
    View roots ((Ps.map render).foldl (traverseTree roots) (k, cs)).1
      ((Ps.map render).foldl (traverseTree roots) (k, cs)).2
      (fun Q => D Q ∨ Q ∈ Ps) nm extra := by
  induction Ps generalizing k cs D with
  | nil => exact h.congr fun Q => ⟨.inl, fun hQ => hQ.resolve_right List.not_mem_nil⟩
  | cons P Ps ih =>
    rw [List.map_cons, List.foldl_cons]
    have hP := h.watchOne (hdirs P List.mem_cons_self) (hnm P List.mem_cons_self)
      (hlen P List.mem_cons_self)
    have hsame := sameDirs_traverseTree roots (k, cs) (render P)
    refine (ih hP (fun Q hQ => ?_) (fun Q hQ => hnm Q (List.mem_cons_of_mem P hQ))
      fun Q hQ => hlen Q (List.mem_cons_of_mem P hQ)).congr fun Q => ?_
    · rw [hsame.1]
      exact hdirs Q (List.mem_cons_of_mem P hQ)
    · rw [List.mem_cons, or_assoc]

theorem sameDirs_foldl {α : Type} {f : Kernel × Cache → α → Kernel × Cache}
    (hf : ∀ (kc : Kernel × Cache) (a : α), kc.1.SameDirs (f kc a).1) (l : List α) (kc : Kernel × Cache) :
    kc.1.SameDirs (l.foldl f kc).1 := by
  induction l generalizing kc with
  | nil => exact ⟨rfl, rfl⟩
  | cons a l ih =>
    rw [List.foldl_cons]
    exact ⟨(ih _).1.trans (hf kc a).1, (ih _).2.trans (hf kc a).2⟩

theorem sameDirs_watchSubtree (roots : List (Option Bytes)) (kc : Kernel × Cache) (path : Bytes) :
    kc.1.SameDirs (watchSubtree roots kc path).1 :=
  sameDirs_foldl (sameDirs_traverseTree roots) _ kc

/-- The directories are closed under parents, and their pathnames fit. -/
structure Kernel.Tree (k : Kernel) : Prop where
  closed : ∀ P ∈ k.dirs, ∀ Q, Q <+: P → Q ∈ k.dirs
  short : ∀ P ∈ k.dirs, (render P).length < PATH_MAX

theorem View.watchSubtree (h : View roots k cs D nm extra) (htree : k.Tree)
    (hnm : ∀ Q ∈ k.dirs, P <+: Q → nm Q = Q) :
    View roots (watchSubtree roots (k, cs) (render P)).1 (watchSubtree roots (k, cs) (render P)).2
      (fun Q => D Q ∨ (Q ∈ k.dirs ∧ P <+: Q)) nm extra := by
  rw [InotifyDtree.watchSubtree, Kernel.nftw, Kernel.lookup_render]
  by_cases hP : P ∈ k.dirs
  · simp only [if_pos hP]
    have hmem : ∀ Q, Q ∈ (k.dirs.filter fun Q => P <+: Q) ↔ Q ∈ k.dirs ∧ P <+: Q := by
      intro Q
      rw [List.mem_filter, decide_eq_true_eq]
    refine (h.watchAll (fun Q hQ => ((hmem Q).mp hQ).1)
      (fun Q hQ => hnm Q ((hmem Q).mp hQ).1 ((hmem Q).mp hQ).2)
      fun Q hQ => Nat.le_of_lt (htree.short Q ((hmem Q).mp hQ).1)).congr fun Q => ?_
    rw [hmem]
  · simp only [if_neg hP]
    refine h.congr fun Q => ⟨.inl, ?_⟩
    rintro (hQ | ⟨hQ, hPQ⟩)
    · exact hQ
    · exact absurd (htree.closed Q hQ P hPQ) hP

/-- The entry of a directory in whose place nothing is any more. -/
theorem View.mark {x : Slot} {j : Nat} (h : View roots k cs D nm [x]) (hx : cs[j]? = some x)
    (hpos : 0 ≤ x.wd) : View roots k (markCacheSlotEmpty cs j) D nm [] := by
  refine ⟨h.dirs, h.watched, h.flag, ?_, ?_, fun y hy => ?_⟩
  · rw [List.append_nil]
    refine List.Perm.cons_inv (a := x) ((used_markCacheSlotEmpty hx hpos).trans ?_)
    exact h.cache.trans (List.perm_append_singleton _ _)
  · rw [List.append_nil]
    have hwds := h.wds
    rw [List.map_append] at hwds
    exact hwds.of_append_left
  · rw [List.append_nil] at hy
    exact h.lt y (List.mem_append_left _ hy)

/-- A path that a slot has been given. -/
theorem View.rename {old new : Path} {m n : Name} (h : View roots k cs D nm [])
    (hshort : ∀ P, D P → (render (move (old ++ [m]) (new ++ [n]) (nm P))).length < PATH_MAX)
    (hold : (render (old ++ [m])).length < PATH_MAX) (hnew : (render (new ++ [n])).length < PATH_MAX)
    (hflag : ∀ P, D P → (some (render (move (old ++ [m]) (new ++ [n]) (nm P))) ∈ roots ↔
      some (render (nm P)) ∈ roots)) :
    View roots k (rewriteCachedPaths cs (render old) m.bytes (render new) n.bytes) D
      (fun P => move (old ++ [m]) (new ++ [n]) (nm P)) [] := by
  have hfits : ∀ {s : Bytes}, s.length < PATH_MAX → snprintf PATH_MAX s = s := fun hs =>
    List.take_of_length_le (Nat.le_sub_one_of_lt hs)
  have hD : ∀ w ∈ k.watches, D w.dir := fun w hw => (h.watched _).mp (List.mem_map_of_mem hw)
  let f : Bytes → Bytes := fun s =>
    if under (render (old ++ [m])) s then
      snprintf PATH_MAX (render (new ++ [n]) ++ s.drop (render (old ++ [m])).length)
    else s
  have hrewrite : rewriteCachedPaths cs (render old) m.bytes (render new) n.bytes =
      cs.map fun x => { x with path := f x.path } := by
    rw [rewriteCachedPaths, ← render_snoc, ← render_snoc, hfits hold, hfits hnew]
    refine List.map_congr_left fun x _ => ?_
    dsimp only [f]
    split
    · rfl
    · rfl
  have hf : ∀ P, D P → f (render (nm P)) = render (move (old ++ [m]) (new ++ [n]) (nm P)) := by
    intro P hP
    by_cases hunder : old ++ [m] <+: nm P
    · have := hshort P hP
      rw [render_move hunder] at this ⊢
      rw [← hfits this]
      exact if_pos (under_render.mpr hunder)
    · rw [move_of_not hunder]
      exact if_neg fun hu => hunder (under_render.mp hu)
  have hmap : (k.watches.map (entry nm)).map (fun x => { x with path := f x.path }) =
      k.watches.map (entry fun P => move (old ++ [m]) (new ++ [n]) (nm P)) := by
    rw [List.map_map]
    refine List.map_congr_left fun w hw => ?_
    rw [Function.comp_apply, entry, entry, hf _ (hD w hw)]
  have hwds : (k.watches.map (entry fun P => move (old ++ [m]) (new ++ [n]) (nm P)) ++ []).map
      Slot.wd = (k.watches.map (entry nm) ++ []).map Slot.wd := by
    rw [List.append_nil, List.append_nil, List.map_map, List.map_map]
    rfl
  refine ⟨h.dirs, h.watched, fun w hw => ?_, ?_, ?_, fun x hx => ?_⟩
  · rw [hflag _ (hD w hw)]
    exact h.flag w hw
  · have hcache := h.cache.map fun x : Slot => { x with path := f x.path }
    rw [List.append_nil, hmap] at hcache
    rw [hrewrite, used_map_path, List.append_nil]
    exact hcache
  · rw [hwds]
    exact h.wds
  · have hmem : x.wd ∈ (k.watches.map (entry nm) ++ []).map Slot.wd :=
      hwds ▸ List.mem_map_of_mem hx
    obtain ⟨y, hy, heq⟩ := List.mem_map.mp hmem
    rw [← heq]
    exact h.lt y hy

/-! ### Zapping -/

/-- The events that the program does not care for. -/
def Ev.Idle : Ev → Prop
  | .ignored _ | .create false _ _ | .movedFrom false _ _ _ | .movedTo false _ _ _ => True
  | _ => False

/-- The slot `x` is zapped together with the watch `w`. -/
def Zaps (pn : Bytes) (w : Watch) (x : Slot) : Bool := under pn x.path ∧ x.wd = (w.wd : Int)

theorem zapSlots_spec {pn : Bytes} (hwatched : ∀ x ∈ used cs, under pn x.path = true →
      ∃ w ∈ k.watches, (w.wd : Int) = x.wd) (hnodup : ((used cs).map Slot.wd).Nodup) :
    ∃ idle : List Ev, (∀ ev ∈ idle, ev.Idle) ∧ zapSlots pn k cs =
      ({ k with
        watches := k.watches.filter fun w => !(used cs).any (Zaps pn w)
        queue := k.queue ++ idle }, cs.map (zapped pn), true) := by
  induction cs generalizing k with
  | nil => exact ⟨[], nofun, by simp [zapSlots, used]⟩
  | cons x cs ih =>
    rw [used_cons] at hwatched hnodup ⊢
    by_cases hpos : 0 ≤ x.wd
    · rw [if_pos hpos] at hwatched hnodup
      rw [List.map_cons, List.nodup_cons] at hnodup
      by_cases hunder : under pn x.path = true
      · -- The watch of this slot is removed; the other slots keep theirs.
        obtain ⟨w, hw, hwd⟩ := hwatched x List.mem_cons_self hunder
        have hany : (k.watches.any fun w => w.wd = x.wd.toNat) = true :=
          List.any_eq_true.mpr ⟨w, hw, decide_eq_true (by omega)⟩
        obtain ⟨idle, hidle, heq⟩ := ih (k := { k with
            watches := k.watches.filter fun w => w.wd ≠ x.wd.toNat
            queue := k.queue ++ [.ignored x.wd.toNat] }) (fun y hy hu => by
          obtain ⟨v, hv, hvd⟩ := hwatched y (List.mem_cons_of_mem x hy) hu
          refine ⟨v, List.mem_filter.mpr ⟨hv, decide_eq_true fun heq => hnodup.1 ?_⟩, hvd⟩
          have hyx : y.wd = x.wd := by omega
          exact hyx ▸ List.mem_map_of_mem hy) hnodup.2
        refine ⟨.ignored x.wd.toNat :: idle, fun ev hev => ?_, ?_⟩
        · rcases List.mem_cons.mp hev with rfl | hev
          · trivial
          · exact hidle ev hev
        · rw [zapSlots, if_pos ⟨hpos, hunder⟩, Kernel.rmWatch, if_pos hany]
          simp only [heq, List.map_cons, zapped, if_pos (And.intro hpos hunder), List.append_assoc,
            List.singleton_append, List.filter_filter, if_pos hpos, List.any_cons, Prod.mk.injEq,
            Kernel.mk.injEq, and_true, true_and]
          refine List.filter_congr fun v _ => ?_
          have hzaps : Zaps pn v x = decide (v.wd = x.wd.toNat) := by
            rw [Zaps, decide_eq_decide, and_iff_right hunder]
            omega
          rw [hzaps, Bool.not_or, Bool.and_comm, decide_not]
      · obtain ⟨idle, hidle, heq⟩ := ih (fun y hy => hwatched y (List.mem_cons_of_mem x hy)) hnodup.2
        refine ⟨idle, hidle, ?_⟩
        have hzaps : ∀ v, Zaps pn v x = false := fun v => decide_eq_false fun h => hunder h.1
        have hkeep : zapped pn x = x := if_neg fun h => hunder h.2
        rw [zapSlots, if_neg fun h => hunder h.2, heq, if_pos hpos]
        simp only [List.map_cons, hkeep, List.any_cons, hzaps, Bool.false_or]
    · rw [if_neg hpos] at hwatched hnodup ⊢
      obtain ⟨idle, hidle, heq⟩ := ih hwatched hnodup
      refine ⟨idle, hidle, ?_⟩
      have hkeep : zapped pn x = x := if_neg fun h => hpos h.1
      rw [zapSlots, if_neg fun h => hpos h.1, heq]
      simp only [List.map_cons, hkeep]

/-- The slot of a watch is the only one with its watch descriptor. -/
theorem View.any_zaps (h : View roots k cs D nm []) (X : Path) (hw : w ∈ k.watches) :
    (!(used cs).any (Zaps (render X) w)) = !under (render X) (render (nm w.dir)) := by
  have hcache := h.cache
  rw [List.append_nil] at hcache
  have hwds := h.wds
  rw [List.append_nil] at hwds
  rw [Bool.not_inj_iff, Bool.eq_iff_iff, List.any_eq_true]
  constructor
  · rintro ⟨x, hx, hzaps⟩
    rw [Zaps, decide_eq_true_eq] at hzaps
    obtain ⟨v, hv, rfl⟩ := List.mem_map.mp (hcache.mem_iff.mp hx)
    have hvw := List.inj_on_of_nodup_map hwds (List.mem_map_of_mem hv) (List.mem_map_of_mem hw)
      hzaps.2
    have hpath : render (nm v.dir) = render (nm w.dir) := congrArg Slot.path hvw
    exact hpath ▸ hzaps.1
  · intro hunder
    refine ⟨entry nm w, hcache.mem_iff.mpr (List.mem_map_of_mem hw), ?_⟩
    exact decide_eq_true ⟨hunder, rfl⟩

/-- A tree is no longer watched. -/
theorem View.zap (h : View roots k cs D nm []) (X : Path) :
    ∃ idle : List Ev, (∀ ev ∈ idle, ev.Idle) ∧ ∃ (ws : List Watch) (c' : Cache), ws ⊆ k.watches ∧
      zapSlots (render X) k cs =
        ({ k with watches := ws, queue := k.queue ++ idle }, c', true) ∧
      View roots { k with watches := ws, queue := k.queue ++ idle } c'
        (fun P => D P ∧ ¬ X <+: nm P) nm [] := by
  have hcache := h.cache
  rw [List.append_nil] at hcache
  have hwds := h.wds
  rw [List.append_nil] at hwds
  obtain ⟨idle, hidle, heq⟩ := @zapSlots_spec k cs (render X) (fun x hx _ => by
    obtain ⟨w, hw, rfl⟩ := List.mem_map.mp (hcache.mem_iff.mp hx)
    exact ⟨w, hw, rfl⟩) h.nodup
  have hws : (k.watches.filter fun w => !(used cs).any (Zaps (render X) w)) =
      k.watches.filter fun w => !under (render X) (render (nm w.dir)) :=
    List.filter_congr fun w hw => h.any_zaps X hw
  have hslots : (k.watches.filter fun w => !under (render X) (render (nm w.dir))).map (entry nm) =
      (k.watches.map (entry nm)).filter fun x => !under (render X) x.path := by
    rw [List.filter_map]
    rfl
  have hsub := List.filter_sublist (l := k.watches)
    (p := fun w => !under (render X) (render (nm w.dir)))
  refine ⟨idle, hidle, _, _, hsub.subset, by rw [heq, hws], ?_⟩
  refine ⟨(hsub.map _).nodup h.dirs, fun P => ?_, fun w hw => h.flag w (hsub.subset hw), ?_, ?_,
    fun x hx => ?_⟩
  · rw [← h.watched, List.mem_map, List.mem_map]
    constructor
    · rintro ⟨w, hw, rfl⟩
      obtain ⟨hw, hnot⟩ := List.mem_filter.mp hw
      refine ⟨⟨w, hw, rfl⟩, fun hX => ?_⟩
      rw [under_render.mpr hX] at hnot
      cases hnot
    · rintro ⟨⟨w, hw, rfl⟩, hnot⟩
      refine ⟨w, List.mem_filter.mpr ⟨hw, ?_⟩, rfl⟩
      rw [Bool.not_eq_true', Bool.eq_false_iff, ne_eq, under_render]
      exact hnot
  · rw [List.append_nil, used_map_zapped]
    dsimp only
    rw [hslots]
    exact hcache.filter _
  · rw [List.append_nil]
    exact ((hsub.map _).map _).nodup hwds
  · rw [List.append_nil] at hx
    exact h.lt x (List.mem_append_left _ ((hsub.map _).subset hx))

/-! ### Starting anew -/

/-- The directory is a root that is watched, or it is below one. -/
def Monitored (rootDirPaths : List (Option Bytes)) (P : Path) : Prop :=
  ∃ R, some (render R) ∈ rootDirPaths ∧ R <+: P

theorem View.empty (roots : List (Option Bytes)) (k : Kernel) (nextWd : Nat) :
    View roots { k with watches := [], nextWd, queue := [] } [] (fun _ => False) id [] :=
  ⟨List.nodup_nil, fun _ => by simp, nofun, List.Perm.refl _, List.nodup_nil, nofun⟩

theorem View.watchRoots {bs : List Bytes} (h : View roots k cs D id []) (htree : k.Tree)
    (hbs : ∀ b ∈ bs, ∃ R, b = render R) :
    View roots (bs.foldl (InotifyDtree.watchSubtree roots) (k, cs)).1
      (bs.foldl (InotifyDtree.watchSubtree roots) (k, cs)).2
      (fun Q => D Q ∨ (Q ∈ k.dirs ∧ ∃ R, render R ∈ bs ∧ R <+: Q)) id [] := by
  induction bs generalizing k cs D with
  | nil => exact h.congr fun Q => ⟨.inl, by simp⟩
  | cons b bs ih =>
    obtain ⟨R, rfl⟩ := hbs b List.mem_cons_self
    have hsame := sameDirs_watchSubtree roots (k, cs) (render R)
    have hfirst := h.watchSubtree (P := R) htree fun _ _ _ => rfl
    have hdirs : (InotifyDtree.watchSubtree roots (k, cs) (render R)).1.dirs = k.dirs := hsame.1
    have htree' : (InotifyDtree.watchSubtree roots (k, cs) (render R)).1.Tree :=
      ⟨hdirs ▸ htree.closed, hdirs ▸ htree.short⟩
    rw [List.foldl_cons]
    refine (ih hfirst htree' fun b hb => hbs b (List.mem_cons_of_mem _ hb)).congr fun Q => ?_
    rw [hdirs, or_assoc, ← and_or_left]
    refine or_congr_right (and_congr_right fun _ => ?_)
    constructor
    · rintro (hRQ | ⟨S, hS, hSQ⟩)
      · exact ⟨R, List.mem_cons_self, hRQ⟩
      · exact ⟨S, List.mem_cons_of_mem _ hS, hSQ⟩
    · rintro ⟨S, hS, hSQ⟩
      rcases List.mem_cons.mp hS with hS | hS
      · rw [render_inj.mp hS] at hSQ
        exact .inl hSQ
      · exact .inr ⟨S, hS, hSQ⟩

end View

/-- After a new start every directory below a root is watched. -/
theorem reinitialize_spec {s : State} (htree : s.kernel.Tree)
    (hroots : ∀ b, some b ∈ s.rootDirPaths → ∃ R, b = render R) :
    s.kernel.dirs = ( reinitialize s).kernel.dirs ∧ ( reinitialize s).kernel.queue = [] ∧
      View s.rootDirPaths ( reinitialize s).kernel ( reinitialize s).cache
        (fun P => P ∈ s.kernel.dirs ∧ Monitored s.rootDirPaths P) id [] := by
  have hmem : ∀ b, b ∈ s.rootDirPaths.reduceOption ↔ some b ∈ s.rootDirPaths := fun b =>
    List.reduceOption_mem_iff
  have hempty : ({ s.kernel with watches := [], nextWd := 1, queue := [] } : Kernel).Tree :=
    ⟨htree.closed, htree.short⟩
  have hview := (View.empty s.rootDirPaths s.kernel 1).watchRoots hempty
    fun b hb => hroots b ((hmem b).mp hb)
  have hsame := sameDirs_foldl (sameDirs_watchSubtree s.rootDirPaths)
    s.rootDirPaths.reduceOption ({ s.kernel with watches := [], nextWd := 1, queue := [] }, [])
  refine ⟨hsame.1.symm, hsame.2, hview.congr fun Q => ?_⟩
  rw [false_or]
  refine and_congr_right fun _ => exists_congr fun R => ?_
  rw [hmem]

end Tlpi.InotifyDtree
