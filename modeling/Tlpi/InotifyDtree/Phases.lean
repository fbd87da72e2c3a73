import Tlpi.InotifyDtree.Kernel

/-!
# While events are on their way

When a directory is changed and the program has processed everything before, the events of this
change are pending, and the cache is behind the directories in one of a few ways (`Phase`): the
watches of a tree are missing, a tree has the pathnames that it had before its rename, or there is
a slot for a directory that is gone.
-/

namespace Tlpi.InotifyDtree

open Tlpi.Lib

def State.pending (s : State) : List Ev := s.buf ++ s.kernel.queue

/-- Everything has been processed. -/
def State.Drained (s : State) : Prop := s.buf = [] ∧ s.kernel.queue = []

/-- There is a root here or below. -/
def AtRoot (rootDirPaths : List (Option Bytes)) (P : Path) : Prop :=
  ∃ R, some (render R) ∈ rootDirPaths ∧ P <+: R

section Roots

variable {roots : List (Option Bytes)} {P Q : Path} {n : Name}

theorem Monitored.mono (h : Monitored roots P) (hPQ : P <+: Q) : Monitored roots Q := by
  obtain ⟨R, hR, hRP⟩ := h
  exact ⟨R, hR, hRP.trans hPQ⟩

theorem Monitored.parent (h : Monitored roots (P ++ [n])) (hroot : ¬ AtRoot roots (P ++ [n])) :
    Monitored roots P := by
  obtain ⟨R, hR, hRP⟩ := h
  rcases List.prefix_concat_iff.mp hRP with rfl | hRP
  · exact absurd ⟨_, hR, List.prefix_refl _⟩ hroot
  · exact ⟨R, hR, hRP⟩

/-- What is monitored below `P` is so because of a root below `P`, or `P` is monitored. -/
theorem Monitored.of_below (h : Monitored roots Q) (hPQ : P <+: Q) (hroot : ¬ AtRoot roots P) :
    Monitored roots P := by
  obtain ⟨R, hR, hRQ⟩ := h
  rcases List.prefix_or_prefix_of_prefix hRQ hPQ with hRP | hPR
  · exact ⟨R, hR, hRP⟩
  · exact absurd ⟨R, hR, hPR⟩ hroot

end Roots

/-- A directory that is to be watched. -/
def Here (s : State) (P : Path) : Prop := P ∈ s.kernel.dirs ∧ Monitored s.rootDirPaths P

abbrev Mirror (s : State) (D : Path → Prop) (nm : Path → Path) (extra : List Slot) : Prop :=
  View s.rootDirPaths s.kernel s.cache D nm extra

/-- What was at `X` is now at `Y`, and the cache does not know. -/
structure Renamed (s : State) (X Y : Path) : Prop where
  view : Mirror s (fun R => Here s R ∨ (R ∈ s.kernel.dirs ∧ Y <+: R)) (move Y X) []
  gone : ∀ R ∈ s.kernel.dirs, ¬ X <+: R
  there : Y ∈ s.kernel.dirs
  short : (render X).length < PATH_MAX
  noRoot : ¬ AtRoot s.rootDirPaths Y

/-- The event is not the other half of the rename with this cookie. -/
def Ev.Apart (cookie : Nat) : Ev → Prop
  | .movedTo _ _ _ cookie' => cookie' ≠ cookie
  | _ => True

/-- What is behind `IN_MOVED_FROM`, if the new name is `n` in `Q`. -/
def Arrives (s : State) (Q : Path) (n : Name) (cookie : Nat) (rest : List Ev) : Prop :=
  (Monitored s.rootDirPaths Q ∧ ∃ wd idle, s.kernel.Watches Q wd ∧
      rest = .movedTo true wd n cookie :: idle ∧ ∀ ev ∈ idle, ev.Idle) ∨
    (¬ Monitored s.rootDirPaths (Q ++ [n]) ∧ ∀ ev ∈ rest, ev.Idle ∧ ev.Apart cookie)

inductive Phase (s : State) : Prop
  | settled (view : Mirror s (Here s) id []) (idle : ∀ ev ∈ s.pending, ev.Idle)
  | missing (P : Path) (n : Name) (wd : Nat) (ev : Ev) (rest : List Ev)
      (view : Mirror s (fun R => Here s R ∧ ¬ P ++ [n] <+: R) id [])
      (watches : s.kernel.Watches P wd) (pending : s.pending = ev :: rest)
      (hev : ev = .create true wd n ∨ ∃ cookie, ev = .movedTo true wd n cookie)
      (idle : ∀ ev ∈ rest, ev.Idle)
  | renamed (P : Path) (m : Name) (Q : Path) (n : Name) (wd cookie : Nat) (rest : List Ev)
      (renamed : Renamed s (P ++ [m]) (Q ++ [n])) (noRoot : ¬ AtRoot s.rootDirPaths (P ++ [m]))
      (apart : ¬ Q ++ [n] <+: P ++ [m]) (watches : s.kernel.Watches P wd)
      (pending : s.pending = .movedFrom true wd m cookie :: rest)
      (used : cookie < s.kernel.nextCookie) (arrives : Arrives s Q n cookie rest)
  | deleted (P : Path) (wd : Nat) (rest : List Ev)
      (view : Mirror s (Here s) id [⟨wd, render P⟩]) (gone : P ∉ s.kernel.dirs)
      (pending : s.pending = .deleteSelf wd :: rest) (idle : ∀ ev ∈ rest, ev.Idle)
  | rootMoved (X Y : Path) (wd : Nat) (rest : List Ev) (renamed : Renamed s X Y)
      (root : some (render X) ∈ s.rootDirPaths) (away : ¬ Monitored s.rootDirPaths Y)
      (watches : s.kernel.Watches Y wd) (pending : s.pending = .moveSelf wd :: rest)
      (idle : ∀ ev ∈ rest, ev.Idle)

section Changes

variable {s : State} {k' : Kernel} {P Q : Path} {m n : Name}

theorem View.watches_of {roots : List (Option Bytes)} {k : Kernel} {cs : Cache} {D : Path → Prop}
    {nm : Path → Path} {extra : List Slot} (h : View roots k cs D nm extra) :
    D P ↔ ∃ wd, k.Watches P wd := by
  rw [← h.watched, List.mem_map]
  exact ⟨fun ⟨w, hw, hdir⟩ => ⟨w.wd, w, hw, hdir, rfl⟩, fun ⟨_, w, hw, hdir, _⟩ => ⟨w, hw, hdir⟩⟩

theorem pending_of_drained (h : s.Drained) {evs : List Ev} (hq : k'.queue = s.kernel.queue ++ evs) :
    ({ s with kernel := k' } : State).pending = evs := by
  rw [State.pending, h.1, hq, h.2]
  rfl

theorem idle_of_drained (h : s.Drained) (hq : k'.queue = s.kernel.queue) :
    ∀ ev ∈ ({ s with kernel := k' } : State).pending, ev.Idle := by
  rw [State.pending, h.1, hq, h.2]
  exact nofun

theorem phase_mkdir (hview : Mirror s (Here s) id []) (hdrained : s.Drained) (htree : s.kernel.Tree)
    (hk : s.kernel.mkdir P n = some k') (hroot : ¬ AtRoot s.rootDirPaths (P ++ [n])) :
    Phase { s with kernel := k' } := by
  obtain ⟨hP, hnew, -, evs, htold, rfl⟩ := mkdir_spec hk
  have hpending : ({ s with kernel := { s.kernel with
      dirs := s.kernel.dirs ++ [P ++ [n]], queue := s.kernel.queue ++ evs } } : State).pending =
    evs := pending_of_drained hdrained rfl
  have hbelow : ∀ R ∈ s.kernel.dirs, ¬ P ++ [n] <+: R := fun R hR hunder =>
    hnew (htree.closed R hR _ hunder)
  cases htold with
  | watched wd hwd =>
    refine .missing P n wd _ [] (View.congr (View.kernel hview rfl rfl) fun R => ?_) hwd hpending (.inl rfl)
      nofun
    constructor
    · rintro ⟨hR, hmon⟩
      exact ⟨⟨List.mem_append_left _ hR, hmon⟩, hbelow R hR⟩
    · rintro ⟨⟨hR, hmon⟩, hnot⟩
      rcases List.mem_append.mp hR with hR | hR
      · exact ⟨hR, hmon⟩
      · rw [List.mem_singleton.mp hR] at hnot
        exact absurd (List.prefix_refl _) hnot
  | unwatched hno =>
    refine .settled (View.congr (View.kernel hview rfl rfl) fun R => ?_) (by rw [hpending]; exact nofun)
    constructor
    · rintro ⟨hR, hmon⟩
      exact ⟨List.mem_append_left _ hR, hmon⟩
    · rintro ⟨hR, hmon⟩
      rcases List.mem_append.mp hR with hR | hR
      · exact ⟨hR, hmon⟩
      · rw [List.mem_singleton.mp hR] at hmon
        obtain ⟨wd, hwd⟩ := hview.watches_of.mp ⟨hP, hmon.parent hroot⟩
        exact absurd hwd (hno wd)

theorem phase_rmdir (hview : Mirror s (Here s) id []) (hdrained : s.Drained)
    (hk : s.kernel.rmdir P = some k') : Phase { s with kernel := k' } := by
  obtain ⟨-, -, -, ⟨wd, ⟨w, hw, rfl, rfl⟩, rfl⟩ | ⟨hno, rfl⟩⟩ := rmdir_spec hk
  · refine .deleted w.dir w.wd [.ignored w.wd] (View.congr (View.kernel (hview.unwatch hw) rfl rfl) fun R => ?_)
      (fun hmem => ?_) (pending_of_drained hdrained rfl) ?_
    · rw [Here, Here, List.mem_filter, decide_eq_true_eq, and_right_comm]
    · exact absurd rfl (of_decide_eq_true (List.mem_filter.mp hmem).2)
    · intro ev hev
      rw [List.mem_singleton.mp hev]
      trivial
  · refine .settled (View.congr (View.kernel hview rfl rfl) fun R => ?_) ?_
    · rw [Here, Here, List.mem_filter, decide_eq_true_eq]
      refine and_congr_left fun hmon => (and_iff_left_of_imp fun hR => ?_).symm
      rintro rfl
      obtain ⟨wd, hwd⟩ := hview.watches_of.mp ⟨hR, hmon⟩
      exact hno wd hwd
    · exact idle_of_drained hdrained rfl

/-- What becomes of the watches when a tree is renamed. -/
theorem View.moveTree {roots : List (Option Bytes)} {k : Kernel} {cs : Cache} {D : Path → Prop}
    (h : View roots k cs D id []) (hfree : ∀ S, D S → ¬ Q ++ [n] <+: S) :
    View roots (k.moveTree P m Q n) cs (fun R => ∃ S, D S ∧ move (P ++ [m]) (Q ++ [n]) S = R)
      (move (Q ++ [n]) (P ++ [m])) [] := by
  have hback : ∀ w ∈ k.watches,
      move (Q ++ [n]) (P ++ [m]) (move (P ++ [m]) (Q ++ [n]) w.dir) = w.dir := fun w hw =>
    move_move (hfree _ ((h.watched _).mp (List.mem_map_of_mem hw)))
  have hmap : (k.moveTree P m Q n).watches.map (entry (move (Q ++ [n]) (P ++ [m]))) =
      k.watches.map (entry id) := by
    rw [Kernel.moveTree, List.map_map]
    refine List.map_congr_left fun w hw => ?_
    rw [Function.comp_apply, entry, entry, hback w hw]
    rfl
  have hdirs : (k.moveTree P m Q n).watches.map Watch.dir =
      (k.watches.map Watch.dir).map (move (P ++ [m]) (Q ++ [n])) := by
    rw [Kernel.moveTree, List.map_map, List.map_map]
    rfl
  refine ⟨?_, fun R => ?_, fun w hw => ?_, ?_, ?_, ?_⟩
  · rw [hdirs]
    refine h.dirs.map_on fun S hS T hT heq => ?_
    rw [← move_move (P := P ++ [m]) (hfree S ((h.watched S).mp hS)), heq,
      move_move (hfree T ((h.watched T).mp hT))]
  · rw [hdirs, List.mem_map]
    exact exists_congr fun S => and_congr_left fun _ => h.watched S
  · obtain ⟨v, hv, rfl⟩ := List.mem_map.mp hw
    show v.moveSelf = true ↔ _
    rw [hback v hv]
    exact h.flag v hv
  · rw [hmap]
    exact h.cache
  · rw [hmap]
    exact h.wds
  · rw [hmap]
    exact h.lt

/-- The directories that are to be watched after a rename, if those that are renamed have been. -/
theorem here_of_monitored (htree : s.kernel.Tree) (hfree : Q ++ [n] ∉ s.kernel.dirs)
    (hdirs : k'.dirs = (s.kernel.moveTree P m Q n).dirs)
    (hmon : Monitored s.rootDirPaths (P ++ [m])) (R : Path) :
    (∃ S, Here s S ∧ move (P ++ [m]) (Q ++ [n]) S = R) ↔
      Here { s with kernel := k' } R ∨ (R ∈ k'.dirs ∧ Q ++ [n] <+: R) := by
  have hmem : R ∈ k'.dirs ↔ ∃ S ∈ s.kernel.dirs, move (P ++ [m]) (Q ++ [n]) S = R := by
    rw [hdirs]
    exact List.mem_map
  constructor
  · rintro ⟨S, ⟨hS, hmonS⟩, rfl⟩
    by_cases hX : P ++ [m] <+: S
    · exact .inr ⟨hmem.mpr ⟨S, hS, rfl⟩, move_of_below hX⟩
    · refine .inl ⟨hmem.mpr ⟨S, hS, rfl⟩, ?_⟩
      rw [move_of_not hX]
      exact hmonS
  · rintro (⟨hR, hmonR⟩ | ⟨hR, hY⟩)
    · obtain ⟨S, hS, rfl⟩ := hmem.mp hR
      by_cases hX : P ++ [m] <+: S
      · exact ⟨S, ⟨hS, hmon.mono hX⟩, rfl⟩
      · rw [move_of_not hX] at hmonR
        exact ⟨S, ⟨hS, hmonR⟩, rfl⟩
    · obtain ⟨S, hS, rfl⟩ := hmem.mp hR
      by_cases hX : P ++ [m] <+: S
      · exact ⟨S, ⟨hS, hmon.mono hX⟩, rfl⟩
      · rw [move_of_not hX] at hY
        exact absurd (htree.closed S hS _ hY) hfree

/-- The same if they have not been. -/
theorem here_of_not_monitored (htree : s.kernel.Tree) (hfree : Q ++ [n] ∉ s.kernel.dirs)
    (hdirs : k'.dirs = (s.kernel.moveTree P m Q n).dirs)
    (hmon : ¬ Monitored s.rootDirPaths (P ++ [m])) (hroot : ¬ AtRoot s.rootDirPaths (P ++ [m]))
    (R : Path) :
    (∃ S, Here s S ∧ move (P ++ [m]) (Q ++ [n]) S = R) ↔
      Here { s with kernel := k' } R ∧ ¬ Q ++ [n] <+: R := by
  have hmem : R ∈ k'.dirs ↔ ∃ S ∈ s.kernel.dirs, move (P ++ [m]) (Q ++ [n]) S = R := by
    rw [hdirs]
    exact List.mem_map
  constructor
  · rintro ⟨S, ⟨hS, hmonS⟩, rfl⟩
    have hX : ¬ P ++ [m] <+: S := fun hX => hmon (hmonS.of_below hX hroot)
    refine ⟨⟨hmem.mpr ⟨S, hS, rfl⟩, ?_⟩, ?_⟩
    · rw [move_of_not hX]
      exact hmonS
    · rw [move_of_not hX]
      exact fun hY => hfree (htree.closed S hS _ hY)
  · rintro ⟨⟨hR, hmonR⟩, hY⟩
    obtain ⟨S, hS, rfl⟩ := hmem.mp hR
    have hX : ¬ P ++ [m] <+: S := fun hX => hY (move_of_below hX)
    rw [move_of_not hX] at hmonR
    exact ⟨S, ⟨hS, hmonR⟩, rfl⟩

section Rename

variable (hview : Mirror s (Here s) id []) (htree : s.kernel.Tree)
  (hfree : Q ++ [n] ∉ s.kernel.dirs) (hnot : ¬ P ++ [m] <+: Q)
  (hapart : ¬ Q ++ [n] <+: P ++ [m])

include hview htree hfree in
/-- The watches after a rename. -/
theorem moved_view : View s.rootDirPaths (s.kernel.moveTree P m Q n) s.cache
    (fun R => ∃ S, Here s S ∧ move (P ++ [m]) (Q ++ [n]) S = R)
    (move (Q ++ [n]) (P ++ [m])) [] :=
  hview.moveTree fun S hS hY => hfree (htree.closed S hS.1 _ hY)

include hview htree hfree in
/-- A directory that the rename does not touch is watched if it was. -/
theorem moved_watches {S : Path} (hX : ¬ P ++ [m] <+: S) (hY : ¬ Q ++ [n] <+: S) :
    (∃ wd, (s.kernel.moveTree P m Q n).Watches S wd) ↔ Here s S := by
  rw [← (moved_view hview htree hfree).watches_of]
  constructor
  · rintro ⟨T, hT, rfl⟩
    have hXT : ¬ P ++ [m] <+: T := fun hXT => hY (move_of_below hXT)
    rwa [move_of_not hXT]
  · exact fun hS => ⟨S, hS, move_of_not hX⟩

include hnot hapart in
theorem moved_gone : ∀ R ∈ (s.kernel.moveTree P m Q n).dirs, ¬ P ++ [m] <+: R := by
  intro R hR hX
  obtain ⟨S, -, rfl⟩ := List.mem_map.mp hR
  by_cases hXS : P ++ [m] <+: S
  · rcases List.prefix_or_prefix_of_prefix hX (move_of_below hXS) with hXY | hYX
    · rcases List.prefix_concat_iff.mp hXY with heq | hXQ
      · exact hapart (heq ▸ List.prefix_refl _)
      · exact hnot hXQ
    · exact hapart hYX
  · rw [move_of_not hXS] at hX
    exact hXS hX

include hview htree hfree hnot hapart in
/-- The tree is renamed as a whole, if it is watched. -/
theorem moved_renamed (hX : P ++ [m] ∈ s.kernel.dirs) (hnew : ¬ AtRoot s.rootDirPaths (Q ++ [n]))
    (hmon : Monitored s.rootDirPaths (P ++ [m])) (evs : List Ev) :
    Renamed { s with kernel := { s.kernel.moveTree P m Q n with queue := evs } } (P ++ [m])
      (Q ++ [n]) := by
  have hmoved := moved_view (P := P) (m := m) hview htree hfree
  exact ⟨View.congr (View.kernel hmoved rfl rfl) (here_of_monitored htree hfree rfl hmon),
    moved_gone (s := s) hnot hapart, List.mem_map.mpr ⟨P ++ [m], hX, move_self _ _⟩,
    htree.short _ hX, hnew⟩

include hview htree hfree in
/-- What is watched if the tree is not. -/
theorem moved_missing (hroot : ¬ AtRoot s.rootDirPaths (P ++ [m]))
    (hmon : ¬ Monitored s.rootDirPaths (P ++ [m])) (evs : List Ev) :
    View s.rootDirPaths { s.kernel.moveTree P m Q n with queue := evs } s.cache
      (fun R => Here { s with kernel := { s.kernel.moveTree P m Q n with queue := evs } } R ∧
        ¬ Q ++ [n] <+: R) id [] := by
  have hmoved := moved_view (P := P) (m := m) hview htree hfree
  refine View.congr_nm (View.congr (View.kernel hmoved rfl rfl)
    (here_of_not_monitored htree hfree rfl hmon hroot)) fun R hR => ?_
  exact (move_of_not hR.2).symm

include hview htree hfree in
/-- The watch of `P/m` asks for `IN_MOVE_SELF` only if this is a root. -/
theorem moved_selfEvents (hroot : ¬ AtRoot s.rootDirPaths (P ++ [m])) :
    selfEvents (s.kernel.moveTree P m Q n) (Q ++ [n]) = [] := by
  refine selfEvents_eq_nil fun w hw hdir => ?_
  obtain ⟨v, hv, rfl⟩ := List.mem_map.mp hw
  have hvX : v.dir = P ++ [m] := by
    have hfreeV : ¬ Q ++ [n] <+: v.dir := fun hY => hfree (htree.closed _
      ((hview.watched _).mp (List.mem_map_of_mem hv)).1 _ hY)
    have hdir' : move (P ++ [m]) (Q ++ [n]) v.dir = Q ++ [n] := hdir
    rw [← move_move (P := P ++ [m]) hfreeV, hdir', move_self]
  refine Bool.eq_false_iff.mpr fun hself => hroot ?_
  exact ⟨v.dir, (hview.flag v hv).mp hself, hvX ▸ List.prefix_refl _⟩

theorem not_snoc_below (P : Path) (n : Name) : ¬ P ++ [n] <+: P := fun h => by
  have := h.length_le
  rw [List.length_append, List.length_singleton] at this
  omega

include hview htree hfree hapart in
theorem moved_watches_old (hX : P ++ [m] ∈ s.kernel.dirs) :
    (∃ wd, (s.kernel.moveTree P m Q n).Watches P wd) ↔ Monitored s.rootDirPaths P := by
  have hP : P ∈ s.kernel.dirs := htree.closed _ hX _ (List.prefix_append P [m])
  rw [moved_watches hview htree hfree (not_snoc_below P m)
    fun hY => hapart (hY.trans (List.prefix_append P [m]))]
  exact and_iff_right hP

include hview htree hfree hnot in
theorem moved_watches_new (hQ : Q ∈ s.kernel.dirs) :
    (∃ wd, (s.kernel.moveTree P m Q n).Watches Q wd) ↔ Monitored s.rootDirPaths Q := by
  rw [moved_watches hview htree hfree hnot (not_snoc_below Q n)]
  exact and_iff_right hQ

variable (hdrained : s.Drained) (hX : P ++ [m] ∈ s.kernel.dirs) (hQ : Q ∈ s.kernel.dirs)
  (hnew : ¬ AtRoot s.rootDirPaths (Q ++ [n])) {told told' : List Ev} {cookie : Nat}
  (hfrom : Told (s.kernel.moveTree P m Q n) P (fun wd => .movedFrom true wd m cookie) told)
  (hto : Told (s.kernel.moveTree P m Q n) Q (fun wd => .movedTo true wd n cookie) told')

include hview htree hfree hnot hapart hdrained hX hQ hnew hfrom hto in
theorem phase_renameTree (hroot : ¬ AtRoot s.rootDirPaths (P ++ [m]))
    (hcookie : cookie < s.kernel.nextCookie + 1) :
    Phase { s with kernel := { s.kernel.moveTree P m Q n with
      queue := s.kernel.queue ++ (told ++ told') } } := by
  have hold := moved_watches_old hview htree hfree hapart hX
  have hnew' := moved_watches_new hview htree hfree hnot hQ
  cases hfrom with
  | watched wd hwd =>
    have hmonP := hold.mp ⟨wd, hwd⟩
    refine .renamed P m Q n wd cookie told' (moved_renamed hview htree hfree hnot hapart hX hnew
      (hmonP.mono (List.prefix_append P [m])) _) hroot hapart hwd (pending_of_drained hdrained rfl)
      hcookie ?_
    cases hto with
    | watched wd' hwd' => exact .inl ⟨hnew'.mp ⟨wd', hwd'⟩, wd', [], hwd', rfl, nofun⟩
    | unwatched hno =>
      refine .inr ⟨fun hmonQ => ?_, nofun⟩
      obtain ⟨wd', hwd'⟩ := hnew'.mpr (hmonQ.parent hnew)
      exact hno wd' hwd'
  | unwatched hno =>
    have hmon : ¬ Monitored s.rootDirPaths (P ++ [m]) := fun hmon => by
      obtain ⟨wd, hwd⟩ := hold.mpr (hmon.parent hroot)
      exact hno wd hwd
    have hmissing := moved_missing hview htree hfree hroot hmon (s.kernel.queue ++ ([] ++ told'))
    cases hto with
    | watched wd hwd =>
      exact .missing Q n wd _ [] hmissing hwd (pending_of_drained hdrained rfl) (.inr ⟨_, rfl⟩) nofun
    | unwatched hno' =>
      refine .settled (hmissing.congr fun R => and_iff_left_of_imp fun hR hY => ?_)
        (idle_of_drained hdrained (List.append_nil _))
      obtain ⟨wd, hwd⟩ := hnew'.mpr ((hR.2.of_below hY hnew).parent hnew)
      exact hno' wd hwd

include hview htree hfree hnot hapart hdrained hX hQ hnew hfrom hto in
/-- Only the root itself is told. -/
theorem phase_renameRoot (hroot : some (render (P ++ [m])) ∈ s.rootDirPaths)
    (hnoP : ¬ Monitored s.rootDirPaths P) (hnoQ : ¬ Monitored s.rootDirPaths Q) :
    Phase { s with kernel := { s.kernel.moveTree P m Q n with queue := s.kernel.queue ++
      (told ++ (told' ++ selfEvents (s.kernel.moveTree P m Q n) (Q ++ [n]))) } } := by
  have hmon : Monitored s.rootDirPaths (P ++ [m]) := ⟨_, hroot, List.prefix_refl _⟩
  obtain ⟨w, hw, hdir⟩ := List.mem_map.mp ((hview.watched _).mpr ⟨hX, hmon⟩)
  have hself : w.moveSelf = true := (hview.flag w hw).mpr (hdir ▸ hroot)
  rw [selfEvents_eq (P := Q ++ [n]) (moved_view hview htree hfree).dirs (List.mem_map_of_mem hw)
    (by rw [hdir, move_self]) hself]
  cases hfrom with
  | watched wd hwd =>
    exact absurd ((moved_watches_old hview htree hfree hapart hX).mp ⟨wd, hwd⟩) hnoP
  | unwatched =>
    cases hto with
    | watched wd hwd =>
      exact absurd ((moved_watches_new hview htree hfree hnot hQ).mp ⟨wd, hwd⟩) hnoQ
    | unwatched =>
      refine .rootMoved _ _ w.wd [] (moved_renamed hview htree hfree hnot hapart hX hnew hmon _)
        hroot (fun hmonQ => hnoQ (hmonQ.parent hnew)) ?_ (pending_of_drained hdrained rfl) nofun
      exact ⟨_, List.mem_map_of_mem hw, by rw [hdir, move_self], rfl⟩

end Rename

theorem phase_rename (hview : Mirror s (Here s) id []) (hdrained : s.Drained)
    (htree : s.kernel.Tree) (hk : s.kernel.rename P m Q n = some k')
    (hfree : Q ++ [n] ∉ s.kernel.dirs) (hnew : ¬ AtRoot s.rootDirPaths (Q ++ [n]))
    (hold : ¬ AtRoot s.rootDirPaths (P ++ [m]) ∨ (some (render (P ++ [m])) ∈ s.rootDirPaths ∧
      ¬ Monitored s.rootDirPaths P ∧ ¬ Monitored s.rootDirPaths Q)) :
    Phase { s with kernel := k' } := by
  obtain ⟨hX, hQ, hnot, hapart, from', to', hfrom, hto, rfl⟩ := rename_spec hk hfree
    fun wd hwd => hfree (hview.watches_of.mpr ⟨wd, hwd⟩).1
  rcases hold with hroot | ⟨hroot, hnoP, hnoQ⟩
  · rw [moved_selfEvents hview htree hfree hroot, List.append_nil]
    exact phase_renameTree hview htree hfree hnot hapart hdrained hX hQ hnew hfrom hto hroot
      (Nat.lt_succ_self _)
  · exact phase_renameRoot hview htree hfree hnot hapart hdrained hX hQ hnew hfrom hto hroot hnoP
      hnoQ

end Changes

end Tlpi.InotifyDtree
