import Tlpi.InotifyDtree.Cache

/-!
# What the other processes do

For each change of the directories: what becomes of the directories, the watches and the queue.
The directories remain a tree (`Kernel.Tree`), and a change adds to the queue at its end.
-/

namespace Tlpi.InotifyDtree

open Tlpi.Lib

/-- The directory `P` is watched as `wd`. -/
def Kernel.Watches (k : Kernel) (P : Path) (wd : Nat) : Prop :=
  ∃ w ∈ k.watches, w.dir = P ∧ w.wd = wd

section Specs

variable {k k' : Kernel} {P Q : Path} {m n : Name}

theorem wdOf_some {wd : Nat} (h : k.wdOf P = some wd) : k.Watches P wd := by
  rw [Kernel.wdOf, Option.map_eq_some_iff] at h
  obtain ⟨w, hw, rfl⟩ := h
  have htrue := List.find?_some hw
  exact ⟨w, List.mem_of_find?_eq_some hw, of_decide_eq_true htrue, rfl⟩

theorem wdOf_none (h : k.wdOf P = none) (wd : Nat) : ¬ k.Watches P wd := by
  rw [Kernel.wdOf, Option.map_eq_none_iff, List.find?_eq_none] at h
  rintro ⟨w, hw, hdir, -⟩
  exact h w hw (decide_eq_true hdir)

/-- What the queue is told of `P`. -/
inductive Told (k : Kernel) (P : Path) (ev : Nat → Ev) : List Ev → Prop
  | watched (wd : Nat) (h : k.Watches P wd) : Told k P ev [ev wd]
  | unwatched (h : ∀ wd, ¬ k.Watches P wd) : Told k P ev []

theorem notify_spec (k : Kernel) (P : Path) (ev : Nat → Ev) :
    ∃ evs, Told k P ev evs ∧ k.notify P ev = { k with queue := k.queue ++ evs } := by
  rw [Kernel.notify]
  split
  · next hnone => exact ⟨[], .unwatched (wdOf_none hnone), by rw [List.append_nil]⟩
  · next wd hwd => exact ⟨[ev wd], .watched wd (wdOf_some hwd), rfl⟩

theorem mkdir_spec (h : k.mkdir P n = some k') :
    P ∈ k.dirs ∧ P ++ [n] ∉ k.dirs ∧ (render (P ++ [n])).length < PATH_MAX ∧
      ∃ evs, Told k P (fun wd => .create true wd n) evs ∧
        k' = { k with dirs := k.dirs ++ [P ++ [n]], queue := k.queue ++ evs } := by
  rw [Kernel.mkdir] at h
  split_ifs at h with hcond
  cases h
  obtain ⟨evs, htold, heq⟩ := notify_spec { k with dirs := k.dirs ++ [P ++ [n]] } P
    fun wd => .create true wd n
  refine ⟨hcond.1, hcond.2.1, hcond.2.2, evs, ?_, heq⟩
  cases htold with
  | watched wd h => exact .watched wd h
  | unwatched h => exact .unwatched h

theorem rmdir_spec (h : k.rmdir P = some k') :
    P ∈ k.dirs ∧ P ≠ [] ∧ (∀ Q ∈ k.dirs, P <+: Q → Q = P) ∧
      ((∃ wd, k.Watches P wd ∧ k' = { k with
          dirs := k.dirs.filter (· ≠ P)
          watches := k.watches.filter fun w => w.wd ≠ wd
          queue := k.queue ++ [.deleteSelf wd, .ignored wd] }) ∨
        ((∀ wd, ¬ k.Watches P wd) ∧ k' = { k with dirs := k.dirs.filter (· ≠ P) })) := by
  rw [Kernel.rmdir] at h
  split_ifs at h with hcond
  cases h
  refine ⟨hcond.1, hcond.2.1, hcond.2.2, ?_⟩
  rw [Kernel.remove]
  split
  · next hnone => exact .inr ⟨wdOf_none hnone, rfl⟩
  · next wd hwd => exact .inl ⟨wd, wdOf_some hwd, rfl⟩

/-- The event of the directory itself that has been renamed to `P`. -/
def selfEvents (k : Kernel) (P : Path) : List Ev :=
  match k.watches.find? fun w => w.dir = P with
  | some w => if w.moveSelf then [.moveSelf w.wd] else []
  | none => []

theorem selfEvents_eq_nil (h : ∀ w ∈ k.watches, w.dir = P → w.moveSelf = false) :
    selfEvents k P = [] := by
  rw [selfEvents]
  split
  · next w hw =>
    have htrue := List.find?_some hw
    rw [h w (List.mem_of_find?_eq_some hw) (of_decide_eq_true htrue)]
    rfl
  · rfl

theorem selfEvents_eq (hdirs : (k.watches.map Watch.dir).Nodup) {w : Watch} (hw : w ∈ k.watches)
    (hdir : w.dir = P) (hself : w.moveSelf = true) : selfEvents k P = [.moveSelf w.wd] := by
  rw [selfEvents]
  split
  · next v hv =>
    have htrue := List.find?_some hv
    have hvw := List.inj_on_of_nodup_map hdirs (List.mem_of_find?_eq_some hv) hw
      ((of_decide_eq_true htrue).trans hdir.symm)
    rw [hvw, hself]
    rfl
  · next hnone => exact absurd (decide_eq_true hdir) (List.find?_eq_none.mp hnone w hw)

theorem tellRename_spec (k : Kernel) (P : Path) (m : Name) (Q : Path) (n : Name) (cookie : Nat) :
    ∃ from' to', Told k P (fun wd => .movedFrom true wd m cookie) from' ∧
      Told k Q (fun wd => .movedTo true wd n cookie) to' ∧
      k.tellRename P m Q n cookie =
        { k with queue := k.queue ++ (from' ++ (to' ++ selfEvents k (Q ++ [n]))) } := by
  obtain ⟨from', hfrom, heq⟩ := notify_spec k P fun wd => .movedFrom true wd m cookie
  obtain ⟨to', hto, heq'⟩ := notify_spec { k with queue := k.queue ++ from' } Q
    fun wd => .movedTo true wd n cookie
  refine ⟨from', to', hfrom, ?_, ?_⟩
  · cases hto with
    | watched wd h => exact .watched wd h
    | unwatched h => exact .unwatched h
  · rw [Kernel.tellRename, heq, heq', selfEvents]
    dsimp only
    split
    · next w hw =>
      by_cases hself : w.moveSelf = true
      · simp only [hw, if_pos hself, List.append_assoc]
      · simp only [hw, if_neg hself, List.append_assoc, List.append_nil]
    · next hnone => simp only [hnone, List.append_assoc, List.append_nil]

/-! ### The tree -/

theorem Kernel.Tree.of_dirs (h : k.Tree) (hdirs : k'.dirs = k.dirs) : k'.Tree :=
  ⟨hdirs ▸ h.closed, hdirs ▸ h.short⟩

theorem Kernel.Tree.mkdir (h : k.Tree) (hk : k.mkdir P n = some k') : k'.Tree := by
  obtain ⟨hP, -, hshort, evs, -, rfl⟩ := mkdir_spec hk
  refine ⟨fun R hR S hS => ?_, fun R hR => ?_⟩
  · rcases List.mem_append.mp hR with hR | hR
    · exact List.mem_append_left _ (h.closed R hR S hS)
    · rw [List.mem_singleton.mp hR] at hS
      rcases List.prefix_concat_iff.mp hS with rfl | hS
      · exact List.mem_append_right _ (List.mem_singleton_self _)
      · exact List.mem_append_left _ (h.closed P hP S hS)
  · rcases List.mem_append.mp hR with hR | hR
    · exact h.short R hR
    · rw [List.mem_singleton.mp hR]
      exact hshort

/-- An empty directory is removed. -/
theorem Kernel.Tree.remove (h : k.Tree) (hempty : ∀ Q ∈ k.dirs, P <+: Q → Q = P)
    (hdirs : k'.dirs = k.dirs.filter (· ≠ P)) : k'.Tree := by
  have hmem : ∀ R, R ∈ k'.dirs ↔ R ∈ k.dirs ∧ R ≠ P := by
    intro R
    rw [hdirs, List.mem_filter, decide_eq_true_eq]
  refine ⟨fun R hR S hS => ?_, fun R hR => h.short R ((hmem R).mp hR).1⟩
  obtain ⟨hR, hne⟩ := (hmem R).mp hR
  refine (hmem S).mpr ⟨h.closed R hR S hS, ?_⟩
  rintro rfl
  exact hne (hempty R hR hS)

theorem Kernel.Tree.rmdir (h : k.Tree) (hk : k.rmdir P = some k') : k'.Tree := by
  obtain ⟨-, -, hempty, ⟨wd, -, rfl⟩ | ⟨-, rfl⟩⟩ := rmdir_spec hk
  · exact h.remove hempty rfl
  · exact h.remove hempty rfl

theorem Kernel.Tree.moveTree (h : k.Tree) (hX : P ++ [m] ∈ k.dirs) (hQ : Q ∈ k.dirs)
    (hnot : ¬ P ++ [m] <+: Q)
    (hshort : ∀ R ∈ k.dirs, (render (move (P ++ [m]) (Q ++ [n]) R)).length < PATH_MAX) :
    (k.moveTree P m Q n).Tree := by
  have hkeep : ∀ S ∈ k.dirs, ¬ P ++ [m] <+: S → S ∈ (k.moveTree P m Q n).dirs := fun S hS hn =>
    List.mem_map.mpr ⟨S, hS, move_of_not hn⟩
  refine ⟨fun R hR S hS => ?_, fun R hR => ?_⟩
  · obtain ⟨T, hT, rfl⟩ := List.mem_map.mp hR
    by_cases hunder : P ++ [m] <+: T
    · obtain ⟨U, rfl⟩ := hunder
      rw [move_append] at hS
      rcases List.prefix_or_prefix_of_prefix hS (List.prefix_append (Q ++ [n]) U) with
        hS' | ⟨V, rfl⟩
      · rcases List.prefix_concat_iff.mp hS' with rfl | hS'
        · exact List.mem_map.mpr ⟨P ++ [m], hX, move_self _ _⟩
        · exact hkeep S (h.closed Q hQ S hS') fun hn => hnot (hn.trans hS')
      · have hV := (List.prefix_append_right_inj _).mp hS
        refine List.mem_map.mpr ⟨P ++ [m] ++ V, h.closed _ hT _ ?_, move_append _ _ _⟩
        exact (List.prefix_append_right_inj _).mpr hV
    · rw [move_of_not hunder] at hS
      exact hkeep S (h.closed T hT S hS) fun hn => hunder (hn.trans hS)
  · obtain ⟨T, hT, rfl⟩ := List.mem_map.mp hR
    exact hshort T hT

/-- A rename, whether or not a directory with the new name has been there. -/
theorem Kernel.Tree.rename (h : k.Tree) (hk : k.rename P m Q n = some k') :
    k'.Tree ∧ ∃ evs, k'.queue = k.queue ++ evs := by
  rw [Kernel.rename] at hk
  split_ifs at hk with hcond
  obtain ⟨hX, hQ, hnot, hnot', hempty, hshort⟩ := hcond
  have hfilter : ∀ {R : Path}, R ∈ k.dirs → R ≠ Q ++ [n] → R ∈ k.dirs.filter (· ≠ Q ++ [n]) :=
    fun hR hne => List.mem_filter.mpr ⟨hR, decide_eq_true hne⟩
  have hXne : P ++ [m] ≠ Q ++ [n] := fun heq => hnot' (heq ▸ List.prefix_refl _)
  have hQne : Q ≠ Q ++ [n] := fun heq => by simpa using congrArg List.length heq
  have htree : ∀ {k₁ : Kernel}, k₁.dirs = k.dirs.filter (· ≠ Q ++ [n]) →
      (k₁.moveTree P m Q n).Tree := by
    intro k₁ hk₁
    refine (h.remove hempty hk₁).moveTree ?_ ?_ hnot fun R hR => ?_
    · rw [hk₁]
      exact hfilter hX hXne
    · rw [hk₁]
      exact hfilter hQ hQne
    · rw [hk₁] at hR
      exact hshort R (List.mem_filter.mp hR).1
  split at hk
  · cases hk
    obtain ⟨from', to', -, -, heq⟩ := tellRename_spec
      ({ k with dirs := k.dirs.filter (· ≠ Q ++ [n]) }.moveTree P m Q n) P m Q n k.nextCookie
    rw [heq]
    exact ⟨(htree rfl).of_dirs rfl, _, rfl⟩
  · next wd hwd =>
    cases hk
    obtain ⟨from', to', -, -, heq⟩ := tellRename_spec
      ({ k with
        dirs := k.dirs.filter (· ≠ Q ++ [n])
        watches := k.watches.filter fun w => w.wd ≠ wd }.moveTree P m Q n) P m Q n k.nextCookie
    rw [heq]
    exact ⟨(htree rfl).of_dirs rfl, _, List.append_assoc _ _ _⟩

/-- A rename to a name that nothing has. -/
theorem rename_spec (h : k.rename P m Q n = some k') (hfree : Q ++ [n] ∉ k.dirs)
    (hunwatched : ∀ wd, ¬ k.Watches (Q ++ [n]) wd) :
    P ++ [m] ∈ k.dirs ∧ Q ∈ k.dirs ∧ ¬ P ++ [m] <+: Q ∧ ¬ Q ++ [n] <+: P ++ [m] ∧
      ∃ from' to',
        Told (k.moveTree P m Q n) P (fun wd => .movedFrom true wd m k.nextCookie) from' ∧
        Told (k.moveTree P m Q n) Q (fun wd => .movedTo true wd n k.nextCookie) to' ∧
        k' = { k.moveTree P m Q n with
          queue := k.queue ++ (from' ++ (to' ++ selfEvents (k.moveTree P m Q n) (Q ++ [n]))) } := by
  rw [Kernel.rename] at h
  split_ifs at h with hcond
  obtain ⟨hX, hQ, hnot, hnot', -, -⟩ := hcond
  have hall : k.dirs.filter (· ≠ Q ++ [n]) = k.dirs := by
    rw [List.filter_eq_self]
    exact fun R hR => decide_eq_true fun heq => hfree (heq ▸ hR)
  split at h
  · cases h
    rw [hall]
    obtain ⟨from', to', hfrom, hto, heq⟩ := tellRename_spec (k.moveTree P m Q n) P m Q n k.nextCookie
    exact ⟨hX, hQ, hnot, hnot', from', to', hfrom, hto, heq⟩
  · next wd hwd => exact absurd (wdOf_some hwd) (hunwatched wd)

end Specs

end Tlpi.InotifyDtree
