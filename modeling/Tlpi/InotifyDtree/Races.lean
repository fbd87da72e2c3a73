import Tlpi.InotifyDtree.Settling

/-!
# A change that the program does not see

The program finds the new name of a directory in its cache by the old one.  A directory that is made
and gets another name before the program has processed the first event has no slot, so there is
nothing to rename: when everything has been processed, it is not watched.

* `waits_step`: the second `read` is only for an event that is still in the buffer.
* `early_rename_missed`: this happens whenever the cache is consistent.
-/

namespace Tlpi.InotifyDtree

open Tlpi.Lib

section Waiting

variable {s t : State} {ev : Ev} {rest : List Ev}

/-- The second `read` is for the event that is in the buffer. -/
def Waits (s : State) : Prop := s.hanging = true → s.buf ≠ []

theorem waits_of_not (h : s.hanging = false) : Waits s := fun hyes =>
  absurd (h.symm.trans hyes) Bool.false_ne_true

theorem hanging_zapSubtree (h : s.hanging = false) (path : Bytes) :
    (zapSubtree s path).hanging = false := by
  rw [zapSubtree]
  split
  · exact h
  · rfl

theorem hanging_newDirectory (h : s.hanging = false) (x : Slot) (name : Name) :
    (newDirectory s x name).hanging = false := by
  rw [newDirectory]
  split
  · exact h
  · exact h

theorem waits_movedFromDirectory (h : s.hanging = false) (ev : Ev) (x : Slot) (name : Name)
    (cookie : Nat) (rest : List Ev) : Waits (movedFromDirectory s ev x name cookie rest) := by
  have hzap : Waits (zapSubtree { s with buf := rest, firstTry := true }
      (x.path ++ 47 :: name.bytes)) := waits_of_not (hanging_zapSubtree (by exact h) _)
  unfold movedFromDirectory
  dsimp only
  split
  · split
    · split
      · exact waits_of_not rfl
      · exact waits_of_not h
    · exact hzap
  · exact hzap
  · split
    · exact fun _ => List.cons_ne_nil ev []
    · exact hzap

theorem waits_process (h : s.hanging = false) (ev : Ev) (rest : List Ev) :
    Waits (processNextInotifyEvent s ev rest) := by
  rw [processNextInotifyEvent]
  split
  · split
    · exact waits_of_not rfl
    · unfold processFound
      dsimp only
      split
      · exact waits_of_not (hanging_newDirectory (by exact h) _ _)
      · exact waits_of_not (hanging_newDirectory (by exact h) _ _)
      · split
        · exact waits_of_not h
        · exact waits_of_not h
      · exact waits_movedFromDirectory h _ _ _ _ _
      · exact waits_of_not h
      · split
        · split
          · exact waits_of_not h
          · exact waits_of_not (hanging_zapSubtree (by exact h) _)
        · exact waits_of_not h
      · exact waits_of_not h
  · split
    · exact waits_of_not rfl
    · exact waits_of_not h

theorem waits_step {e : Event} (hwaits : Waits s) (hstep : step s e = some t) : Waits t := by
  cases e with
  | mkdir | rmdir | rename =>
    obtain ⟨k', -, rfl⟩ := Option.map_eq_some_iff.mp hstep
    exact hwaits
  | creat | renameFile =>
    cases hstep
    exact hwaits
  | reorder dirs =>
    rw [step] at hstep
    split_ifs at hstep with hperm
    cases hstep
    exact hwaits
  | overflow n =>
    cases hstep
    exact hwaits
  | read n =>
    rw [step] at hstep
    split_ifs at hstep with hcond
    cases hstep
    intro hhanging
    exact absurd (.inr (.inl (hwaits hhanging))) hcond
  | readMore n =>
    rw [step] at hstep
    split_ifs at hstep with hcond
    cases hstep
    exact waits_of_not rfl
  | process =>
    rw [step] at hstep
    split_ifs at hstep with hcond
    split at hstep
    · cases hstep
    · cases hstep
      exact waits_process (Bool.eq_false_iff.mpr fun h => hcond (.inr h)) _ _
  | rebuild =>
    rw [step] at hstep
    split_ifs at hstep with hcond
    cases hstep
    exact waits_of_not rfl

theorem waits_reach {dirs roots : List Path} {ok : State → Event → Prop}
    (h : (system dirs roots).ReachBy ok s) : Waits s :=
  System.ReachBy.invariant (I := Waits) (waits_of_not rfl)
    (fun _ _ _ hwaits _ hstep => waits_step hwaits hstep) h

/-- Where everything has been processed, the program is at its first `read`. -/
theorem not_hanging {dirs roots : List Path} {ok : State → Event → Prop}
    (h : (system dirs roots).ReachBy ok s) (hdrained : s.Drained) : s.hanging = false :=
  Bool.eq_false_iff.mpr fun hhanging => waits_reach h hhanging hdrained.1

end Waiting

section Race

variable {s : State} {P : Path} {m n : Name}

theorem snoc_below_snoc (h : P ++ [m] <+: P ++ [n]) : m = n := by
  have := h.eq_of_length (by rw [List.length_append, List.length_append]; rfl)
  exact List.singleton_inj.mp (List.append_cancel_left this)

/-- `mkdir` in a watched directory. -/
theorem mkdir_watched (hview : Mirror s (Here s) id []) (hP : Here s P)
    (hold : P ++ [m] ∉ s.kernel.dirs) (hlen : (render (P ++ [m])).length < PATH_MAX) :
    ∃ wd, s.kernel.Watches P wd ∧ s.kernel.mkdir P m = some { s.kernel with
      dirs := s.kernel.dirs ++ [P ++ [m]], queue := s.kernel.queue ++ [.create true wd m] } := by
  have hk : s.kernel.mkdir P m = some _ := if_pos ⟨hP.1, hold, hlen⟩
  obtain ⟨-, -, -, evs, htold, heq⟩ := mkdir_spec hk
  cases htold with
  | watched wd hwd => exact ⟨wd, hwd, by rw [hk, heq]⟩
  | unwatched hno =>
    obtain ⟨wd, hwd⟩ := hview.watches_of.mp hP
    exact absurd hwd (hno wd)

/-- The rename of a directory that is not watched, in one that is. -/
theorem rename_unwatched {k : Kernel} (htree : k.Tree) (hX : P ++ [m] ∈ k.dirs)
    (hfree : P ++ [n] ∉ k.dirs) (hne : m ≠ n)
    (hshort : ∀ R ∈ k.dirs, (render (move (P ++ [m]) (P ++ [n]) R)).length < PATH_MAX)
    (hold : ∀ w ∈ k.watches, ¬ P ++ [m] <+: w.dir) (hnew : ∀ w ∈ k.watches, ¬ P ++ [n] <+: w.dir)
    {wd : Nat} (hwd : k.Watches P wd) :
    ∃ wd₁ wd₂, k.Watches P wd₁ ∧ k.Watches P wd₂ ∧ k.rename P m P n = some { k with
      dirs := k.dirs.map (move (P ++ [m]) (P ++ [n]))
      nextCookie := k.nextCookie + 1
      queue := k.queue ++ [.movedFrom true wd₁ m k.nextCookie, .movedTo true wd₂ n k.nextCookie] } := by
  have hP : P ∈ k.dirs := htree.closed _ hX _ (List.prefix_append P [m])
  have hcond : P ++ [m] ∈ k.dirs ∧ P ∈ k.dirs ∧ ¬ P ++ [m] <+: P ∧ ¬ P ++ [n] <+: P ++ [m] ∧
      (∀ R ∈ k.dirs, P ++ [n] <+: R → R = P ++ [n]) ∧
      ∀ R ∈ k.dirs, (render (move (P ++ [m]) (P ++ [n]) R)).length < PATH_MAX :=
    ⟨hX, hP, not_snoc_below P m, fun h => hne (snoc_below_snoc h).symm,
      fun R hR hunder => absurd (htree.closed R hR _ hunder) hfree, hshort⟩
  have hk : ∃ k', k.rename P m P n = some k' := by
    rw [Kernel.rename, if_pos hcond]
    split
    · exact ⟨_, rfl⟩
    · exact ⟨_, rfl⟩
  obtain ⟨k', hk⟩ := hk
  have hwatches : (k.moveTree P m P n).watches = k.watches := by
    refine (List.map_congr_left fun w hw => ?_).trans (List.map_id _)
    rw [move_of_not (hold w hw)]
    rfl
  obtain ⟨-, -, -, -, told, told', hfrom, hto, heq⟩ := rename_spec hk hfree fun wd' hw' => by
    obtain ⟨w, hw, hdir, -⟩ := hw'
    exact hnew w hw (hdir ▸ List.prefix_refl _)
  have hselfs : selfEvents (k.moveTree P m P n) (P ++ [n]) = [] := selfEvents_eq_nil
    fun w hw hdir => absurd (hdir ▸ List.prefix_refl _) (hnew w (hwatches ▸ hw))
  have hof : ∀ {v : Nat}, (k.moveTree P m P n).Watches P v ↔ k.Watches P v := by
    intro v
    rw [Kernel.Watches, Kernel.Watches, hwatches]
  cases hfrom with
  | unwatched hno => exact absurd (hof.mpr hwd) (hno wd)
  | watched wd₁ h₁ =>
    cases hto with
    | unwatched hno => exact absurd (hof.mpr hwd) (hno wd)
    | watched wd₂ h₂ =>
      refine ⟨wd₁, wd₂, hof.mp h₁, hof.mp h₂, ?_⟩
      rw [hk, heq, hselfs, Option.some.injEq, Kernel.mk.injEq]
      exact ⟨rfl, hwatches, rfl, rfl, rfl⟩

/-- `IN_CREATE` of a directory that is not there any more. -/
theorem process_create_gone {D : Path → Prop} (hview : Mirror s D id []) {wd : Nat}
    (hwd : s.kernel.Watches P wd) (hno : ¬ D (P ++ [m])) (hgone : P ++ [m] ∉ s.kernel.dirs)
    (rest : List Ev) :
    processNextInotifyEvent s (.create true wd m) rest =
      { s with buf := rest, firstTry := true } := by
  obtain ⟨j, hj, hx⟩ := hview.found hwd
  rw [process_of_found rfl hj, processFound, hx]
  rw [id, newDirectory, ← render_snoc, if_neg fun h => hno (hview.of_pathnameInCache h)]
  -- `nftw` finds nothing.
  rw [watchSubtree, Kernel.nftw, Kernel.lookup_render, if_neg hgone]
  rfl

/-- Both halves of a rename are there: the kernel is not asked for anything. -/
theorem process_pair {D : Path → Prop} {nm : Path → Path} (hview : Mirror s D nm [])
    {Q : Path} {wd wd' : Nat} (hwd : s.kernel.Watches P wd) (hwd' : s.kernel.Watches Q wd')
    (cookie : Nat) (rest : List Ev) :
    ∃ cs, processNextInotifyEvent s (.movedFrom true wd m cookie)
        (.movedTo true wd' n cookie :: rest) =
      { s with cache := cs, buf := rest, firstTry := true } := by
  obtain ⟨j, hj, hx⟩ := hview.found hwd
  obtain ⟨i, hi, hy⟩ := hview.found hwd'
  rw [process_of_found rfl hj, processFound, hx]
  unfold movedFromDirectory
  dsimp only
  rw [if_pos rfl, hi]
  exact ⟨_, rfl⟩

/-- `P/m` has been made and renamed to `P/n`, and the events have been read. -/
def early (s : State) (P : Path) (m n : Name) (buf : List Ev) : State :=
  { s with
    kernel := { s.kernel with
      dirs := (s.kernel.dirs ++ [P ++ [m]]).map (move (P ++ [m]) (P ++ [n]))
      nextCookie := s.kernel.nextCookie + 1
      queue := [] }
    buf := buf
    firstTry := true }

theorem exec_early_rename (hinv : Inv s) (hview : Mirror s (Here s) id []) (hexited : s.exited = false)
    (hdrained : s.Drained) (hP : Here s P) (hne : m ≠ n) (hold : P ++ [m] ∉ s.kernel.dirs)
    (hnew : P ++ [n] ∉ s.kernel.dirs) (hlen : (render (P ++ [m])).length < PATH_MAX)
    (hlen' : (render (P ++ [n])).length < PATH_MAX) {S : System State Event} (hS : S.step = step) :
    ∃ wd wd₁ wd₂, s.kernel.Watches P wd ∧ s.kernel.Watches P wd₁ ∧ s.kernel.Watches P wd₂ ∧
      ∀ es, S.exec s (.mkdir P m :: .rename P m P n :: .read 3 :: es) = S.exec (early s P m n
        [.create true wd m, .movedFrom true wd₁ m s.kernel.nextCookie,
          .movedTo true wd₂ n s.kernel.nextCookie]) es := by
  obtain ⟨hbuf, hqueue⟩ := hdrained
  have hbelow : ∀ {X : Path}, X ∉ s.kernel.dirs → ∀ w ∈ s.kernel.watches, ¬ X <+: w.dir :=
    fun hX w hw hunder => hX (hinv.tree.closed _
      ((hview.watched _).mp (List.mem_map_of_mem hw)).1 _ hunder)
  obtain ⟨wd, hwd, hmkdir⟩ := mkdir_watched hview hP hold hlen
  have htree := hinv.tree.mkdir hmkdir
  have hfree : P ++ [n] ∉ s.kernel.dirs ++ [P ++ [m]] := fun hmem =>
    (List.mem_append.mp hmem).elim hnew fun hmem => by
      have hYX : P ++ [n] = P ++ [m] := List.mem_singleton.mp hmem
      exact hne (snoc_below_snoc (P := P) (by rw [hYX])).symm
  have hshort : ∀ R ∈ s.kernel.dirs ++ [P ++ [m]],
      (render (move (P ++ [m]) (P ++ [n]) R)).length < PATH_MAX := by
    intro R hR
    rcases List.mem_append.mp hR with hR | hR
    · rw [move_of_not fun hunder => hold (hinv.tree.closed R hR _ hunder)]
      exact hinv.tree.short R hR
    · rw [List.mem_singleton.mp hR, move_self]
      exact hlen'
  obtain ⟨wd₁, wd₂, hwd₁, hwd₂, hrename⟩ := rename_unwatched htree
    (List.mem_append_right _ (List.mem_singleton_self _)) hfree hne hshort (hbelow hold)
    (hbelow hnew) hwd
  refine ⟨wd, wd₁, wd₂, hwd, hwd₁, hwd₂, ?_⟩
  have hfirst : step s (.mkdir P m) = some { s with kernel := { s.kernel with
      dirs := s.kernel.dirs ++ [P ++ [m]], queue := s.kernel.queue ++ [.create true wd m] } } := by
    rw [step, hmkdir]
    rfl
  have hsecond : step { s with kernel := { s.kernel with
      dirs := s.kernel.dirs ++ [P ++ [m]], queue := s.kernel.queue ++ [.create true wd m] } }
      (.rename P m P n) = some { s with kernel := { s.kernel with
        dirs := (s.kernel.dirs ++ [P ++ [m]]).map (move (P ++ [m]) (P ++ [n]))
        nextCookie := s.kernel.nextCookie + 1
        queue := [.create true wd m, .movedFrom true wd₁ m s.kernel.nextCookie,
          .movedTo true wd₂ n s.kernel.nextCookie] } } := by
    rw [step, hrename, hqueue]
    rfl
  have hread : step { s with kernel := { s.kernel with
        dirs := (s.kernel.dirs ++ [P ++ [m]]).map (move (P ++ [m]) (P ++ [n]))
        nextCookie := s.kernel.nextCookie + 1
        queue := [.create true wd m, .movedFrom true wd₁ m s.kernel.nextCookie,
          .movedTo true wd₂ n s.kernel.nextCookie] } } (.read 3) = some (early s P m n
        [.create true wd m, .movedFrom true wd₁ m s.kernel.nextCookie,
          .movedTo true wd₂ n s.kernel.nextCookie]) := by
    rw [step, if_neg ?_]
    · rfl
    · rintro (h | h | h | h)
      · exact Bool.false_ne_true (hexited.symm.trans h)
      · exact h hbuf
      · cases h
      · exact lt_irrefl 3 h
  rw [← hS] at hfirst hsecond hread
  intro es
  rw [System.exec_cons hfirst, System.exec_cons hsecond, System.exec_cons hread]

theorem step_process {ev : Ev} {rest : List Ev} (hexited : s.exited = false)
    (hhanging : s.hanging = false) (hbuf : s.buf = ev :: rest) :
    step s .process = some (processNextInotifyEvent s ev rest) := by
  rw [step, if_neg ?_, hbuf]
  rintro (h | h)
  · exact Bool.false_ne_true (hexited.symm.trans h)
  · exact Bool.false_ne_true (hhanging.symm.trans h)

/-- A directory that is made and renamed before the program looks is not watched. -/
theorem early_rename_missed {dirs roots : List Path}
    (hclosed : ∀ P ∈ dirs, ∀ Q, Q <+: P → Q ∈ dirs)
    (hshort : ∀ P ∈ dirs, (render P).length < PATH_MAX) (h : (system dirs roots).ReachBy Ok s)
    (hexited : s.exited = false) (hdrained : s.Drained)
    (hP : P ∈ s.kernel.dirs) (hmon : ∃ R, some (render R) ∈ s.rootDirPaths ∧ R <+: P) (hne : m ≠ n)
    (hold : P ++ [m] ∉ s.kernel.dirs) (hnew : P ++ [n] ∉ s.kernel.dirs)
    (hlen : (render (P ++ [m])).length < PATH_MAX) (hlen' : (render (P ++ [n])).length < PATH_MAX) :
    ∃ t, (system dirs roots).exec s
        [.mkdir P m, .rename P m P n, .read 3, .process, .process] = some t ∧
      t.exited = false ∧ t.Drained ∧ ¬ Consistent t := by
  have hinv := inv_of_reach hclosed hshort h
  have hhanging := not_hanging h hdrained
  have hview : Mirror s (Here s) id [] := hinv.view hexited hdrained
  obtain ⟨wd, wd₁, wd₂, hwd, hwd₁, hwd₂, hexec⟩ := exec_early_rename hinv hview hexited hdrained
    ⟨hP, hmon⟩ hne hold hnew hlen hlen' (S := system dirs roots) rfl
  have hgone : P ++ [m] ∉ (s.kernel.dirs ++ [P ++ [m]]).map (move (P ++ [m]) (P ++ [n])) := by
    intro hmem
    obtain ⟨R, -, heq⟩ := List.mem_map.mp hmem
    by_cases hunder : P ++ [m] <+: R
    · exact hne (snoc_below_snoc (P := P) (by rw [← heq]; exact move_of_below hunder)).symm
    · rw [move_of_not hunder] at heq
      exact hunder (by rw [heq])
  have hviews : ∀ buf, Mirror (early s P m n buf) (Here s) id [] := fun _ =>
    View.kernel hview rfl rfl
  have hcreate : (system dirs roots).step (early s P m n [.create true wd m,
      .movedFrom true wd₁ m s.kernel.nextCookie, .movedTo true wd₂ n s.kernel.nextCookie]) .process =
      some (early s P m n [.movedFrom true wd₁ m s.kernel.nextCookie,
        .movedTo true wd₂ n s.kernel.nextCookie]) := by
    refine (step_process (s := early s P m n _) hexited hhanging rfl).trans (congrArg some ?_)
    exact process_create_gone (hviews _) hwd (fun h => hold h.1) hgone _
  obtain ⟨cs, hpair⟩ := process_pair (m := m) (n := n)
    (hviews [.movedFrom true wd₁ m s.kernel.nextCookie, .movedTo true wd₂ n s.kernel.nextCookie])
    hwd₁ hwd₂ s.kernel.nextCookie []
  have hrename : (system dirs roots).step (early s P m n [.movedFrom true wd₁ m s.kernel.nextCookie,
      .movedTo true wd₂ n s.kernel.nextCookie]) .process =
      some { early s P m n [] with cache := cs } :=
    (step_process (s := early s P m n _) hexited hhanging rfl).trans (congrArg some hpair)
  refine ⟨{ early s P m n [] with cache := cs }, ?_, hexited, ⟨rfl, rfl⟩, fun hconsistent => ?_⟩
  · rw [hexec, System.exec_cons hcreate, System.exec_cons hrename]
    rfl
  · -- The watches are those of before.
    have hnew' : P ++ [n] ∈ (early s P m n []).kernel.dirs :=
      List.mem_map.mpr ⟨P ++ [m], List.mem_append_right _ (List.mem_singleton_self _), move_self _ _⟩
    obtain ⟨R, hR, hRP⟩ := hmon
    obtain ⟨wd', hwd'⟩ := (hconsistent.watched (P ++ [n])).mpr
      ⟨hnew', R, hR, hRP.trans (List.prefix_append P [n])⟩
    exact hnew (hview.watches_of.mpr ⟨wd', hwd'⟩).1

end Race

theorem early_rename_missed_first : ∃ t, (system [[], [nameA]] [[nameA]]).exec
    (init [[], [nameA]] [[nameA]])
    [.mkdir [nameA] nameB, .rename [nameA] nameB [nameA] nameC, .read 3, .process, .process] =
      some t ∧ t.exited = false ∧ t.Drained ∧ ¬ Consistent t :=
  early_rename_missed closed_of_oneRename (by decide) .init rfl ⟨rfl, rfl⟩ (by decide)
    ⟨[nameA], List.mem_singleton_self _, List.prefix_refl _⟩ (by decide) (by decide) (by decide)
    (by decide) (by decide)

end Tlpi.InotifyDtree
