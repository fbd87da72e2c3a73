import Tlpi.InotifyDtree.Consistent

/-!
# The cache is consistent

Every step keeps the invariant, the steps of the program and those of the others.  So the cache
names, whenever everything has been processed, exactly the directories below the roots with their
pathnames.

* `inv_step`: one step.
* `cache_consistent`: the result for all runs.
-/

namespace Tlpi.InotifyDtree

open Tlpi.Lib

section Steps

variable {s t : State} {evs : List Ev}

/-- The same but for more events that are of no importance, and for the order of the
directories. -/
structure Extends (s t : State) (evs : List Ev) : Prop where
  dirs : ∀ R, R ∈ t.kernel.dirs ↔ R ∈ s.kernel.dirs
  watches : t.kernel.watches = s.kernel.watches
  nextWd : t.kernel.nextWd = s.kernel.nextWd
  nextCookie : s.kernel.nextCookie ≤ t.kernel.nextCookie
  cache : t.cache = s.cache
  roots : t.rootDirPaths = s.rootDirPaths
  exited : t.exited = s.exited
  pending : t.pending = s.pending ++ evs
  idle : ∀ ev ∈ evs, ev.Idle ∧ ∀ cookie < s.kernel.nextCookie, ev.Apart cookie

theorem Extends.view (h : Extends s t evs) {D : Path → Prop} {nm : Path → Path} {extra : List Slot}
    (hview : Mirror s D nm extra) : Mirror t D nm extra := by
  rw [Mirror, h.roots, h.cache]
  exact View.kernel hview h.watches h.nextWd

theorem Extends.here (h : Extends s t evs) (R : Path) : Here s R ↔ Here t R := by
  rw [Here, Here, h.dirs, h.roots]

theorem Extends.watch (h : Extends s t evs) {P : Path} {wd : Nat} (hw : s.kernel.Watches P wd) :
    t.kernel.Watches P wd := by
  rw [Kernel.Watches, h.watches]
  exact hw

theorem Extends.renamed (h : Extends s t evs) {X Y : Path} (hr : Renamed s X Y) :
    Renamed t X Y :=
  ⟨View.congr (h.view hr.view) fun R => or_congr (h.here R) (and_congr_left fun _ => (h.dirs R).symm),
    fun R hR => hr.gone R ((h.dirs R).mp hR), (h.dirs Y).mpr hr.there, hr.short,
    h.roots ▸ hr.noRoot⟩

theorem Extends.idle_append (h : Extends s t evs) {rest : List Ev} (hrest : ∀ ev ∈ rest, ev.Idle) :
    ∀ ev ∈ rest ++ evs, ev.Idle := fun ev hev =>
  (List.mem_append.mp hev).elim (hrest ev) fun hev => (h.idle ev hev).1

theorem Extends.pending_cons (h : Extends s t evs) {ev : Ev} {rest : List Ev}
    (hp : s.pending = ev :: rest) : t.pending = ev :: (rest ++ evs) := by
  rw [h.pending, hp, List.cons_append]

theorem Extends.phase (h : Extends s t evs) (hphase : Phase s) : Phase t := by
  cases hphase with
  | settled hview hidle =>
    exact .settled (View.congr (h.view hview) h.here) (h.pending ▸ h.idle_append hidle)
  | missing P n wd ev rest hview hw hp hev hidle =>
    exact .missing P n wd ev _ (View.congr (h.view hview) fun R => and_congr_left fun _ => h.here R)
      (h.watch hw) (h.pending_cons hp) hev (h.idle_append hidle)
  | renamed P m Q n wd cookie rest hrenamed hroot hapart hw hp hused harrives =>
    refine .renamed P m Q n wd cookie _ (h.renamed hrenamed) (h.roots ▸ hroot) hapart (h.watch hw)
      (h.pending_cons hp) (hused.trans_le h.nextCookie) ?_
    rw [Arrives, h.roots]
    rcases harrives with ⟨hmon, wd', idle, hwQ, rfl, hidle⟩ | ⟨hmon, hidle⟩
    · exact .inl ⟨hmon, wd', _, h.watch hwQ, rfl, h.idle_append hidle⟩
    · refine .inr ⟨hmon, fun ev hev => (List.mem_append.mp hev).elim (hidle ev) fun hev => ?_⟩
      exact ⟨(h.idle ev hev).1, (h.idle ev hev).2 cookie hused⟩
  | deleted P wd rest hview hgone hp hidle =>
    exact .deleted P wd _ (View.congr (h.view hview) h.here) (fun hP => hgone ((h.dirs P).mp hP))
      (h.pending_cons hp) (h.idle_append hidle)
  | rootMoved X Y wd rest hrenamed hroot haway hw hp hidle =>
    exact .rootMoved X Y wd _ (h.renamed hrenamed) (h.roots ▸ hroot) (h.roots ▸ haway) (h.watch hw)
      (h.pending_cons hp) (h.idle_append hidle)

theorem Extends.inv (h : Extends s t evs) (hinv : Inv s) : Inv t := by
  refine ⟨⟨fun P hP Q hQ => ?_, fun P hP => hinv.tree.short P ((h.dirs P).mp hP)⟩, fun b hb =>
    hinv.roots b (h.roots ▸ hb), ?_⟩
  · exact (h.dirs Q).mpr (hinv.tree.closed P ((h.dirs P).mp hP) Q hQ)
  · rcases hinv.phase with hexited | hlost | hphase
    · exact .inl (h.exited ▸ hexited)
    · exact .inr (.inl (by rw [Lost, h.pending]; exact List.mem_append_left _ hlost))
    · exact .inr (.inr (h.phase hphase))

/-- Where nothing is pending there is one phase. -/
theorem view_of_drained (h : Phase s) (hdrained : s.Drained) : Mirror s (Here s) id [] := by
  have hnil : s.pending = [] := by rw [State.pending, hdrained.1, hdrained.2]; rfl
  have hno : ∀ {ev : Ev} {rest : List Ev}, s.pending ≠ ev :: rest := fun hp =>
    List.cons_ne_nil _ _ (hp.symm.trans hnil)
  cases h with
  | settled hview => exact hview
  | missing P n wd ev rest hview hw hp => exact absurd hp hno
  | renamed P m Q n wd cookie rest hrenamed hroot hapart hw hp => exact absurd hp hno
  | deleted P wd rest hview hgone hp => exact absurd hp hno
  | rootMoved X Y wd rest hrenamed hroot haway hw hp => exact absurd hp hno

/-- Another process changes a directory. -/
theorem inv_change {k' : Kernel} (hinv : Inv s) (htree : k'.Tree)
    (hqueue : ∃ evs, k'.queue = s.kernel.queue ++ evs)
    (hcalm : Lost s ∨ (s.Drained ∧ (Mirror s (Here s) id [] → Phase { s with kernel := k' }))) :
    Inv { s with kernel := k' } := by
  refine ⟨htree, hinv.roots, ?_⟩
  obtain ⟨evs, hevs⟩ := hqueue
  have hlost' : Lost s → Lost { s with kernel := k' } := fun hlost => by
    rw [Lost, State.pending] at hlost ⊢
    dsimp only
    rw [hevs, ← List.append_assoc]
    exact List.mem_append_left _ hlost
  rcases hinv.phase with hexited | hlost | hphase
  · exact .inl hexited
  · exact .inr (.inl (hlost' hlost))
  · rcases hcalm with hlost | ⟨hdrained, hcalm⟩
    · exact .inr (.inl (hlost' hlost))
    · exact .inr (.inr (hcalm (view_of_drained hphase hdrained)))

theorem Told.forall {k : Kernel} {P : Path} {f : Nat → Ev} {q : Ev → Prop} (h : Told k P f evs)
    (hq : ∀ wd, q (f wd)) : ∀ ev ∈ evs, q ev := by
  intro ev hev
  cases h with
  | watched wd =>
    rw [List.mem_singleton.mp hev]
    exact hq wd
  | unwatched => cases hev

theorem extends_queue (nextCookie : Nat) (hcookie : s.kernel.nextCookie ≤ nextCookie)
    (hidle : ∀ ev ∈ evs, ev.Idle ∧ ∀ cookie < s.kernel.nextCookie, ev.Apart cookie) :
    Extends s { s with kernel := { s.kernel with
      nextCookie, queue := s.kernel.queue ++ evs } } evs :=
  ⟨fun _ => Iff.rfl, rfl, rfl, hcookie, rfl, rfl, rfl, (List.append_assoc _ _ _).symm, hidle⟩

theorem extends_creat (P : Path) (n : Name) :
    ∃ evs, Extends s { s with kernel := s.kernel.creat P n } evs := by
  obtain ⟨evs, htold, heq⟩ := notify_spec s.kernel P fun wd => .create false wd n
  refine ⟨evs, ?_⟩
  rw [Kernel.creat, heq]
  exact extends_queue s.kernel.nextCookie (Nat.le_refl _)
    (htold.forall fun _ => ⟨trivial, fun _ _ => trivial⟩)

/-- The cookie of the rename of a file is that of no other rename. -/
theorem extends_renameFile (P : Path) (m : Name) (Q : Path) (n : Name) :
    ∃ evs, Extends s { s with kernel := s.kernel.renameFile P m Q n } evs := by
  obtain ⟨evs, htold, heq⟩ := notify_spec { s.kernel with nextCookie := s.kernel.nextCookie + 1 } P
    fun wd => .movedFrom false wd m s.kernel.nextCookie
  obtain ⟨evs', htold', heq'⟩ := notify_spec { s.kernel with
    nextCookie := s.kernel.nextCookie + 1, queue := s.kernel.queue ++ evs } Q
    fun wd => .movedTo false wd n s.kernel.nextCookie
  refine ⟨evs ++ evs', ?_⟩
  rw [Kernel.renameFile, heq, heq', List.append_assoc]
  refine extends_queue (s.kernel.nextCookie + 1) (Nat.le_succ _) fun ev hev => ?_
  rcases List.mem_append.mp hev with hev | hev
  · exact htold.forall (q := fun ev => ev.Idle ∧ ∀ cookie < s.kernel.nextCookie, ev.Apart cookie)
      (fun _ => ⟨trivial, fun _ _ => trivial⟩) ev hev
  · exact htold'.forall (q := fun ev => ev.Idle ∧ ∀ cookie < s.kernel.nextCookie, ev.Apart cookie)
      (fun _ => ⟨trivial, fun _ hlt => hlt.ne'⟩) ev hev

/-- `read` takes events out of the queue. -/
theorem extends_read (n : Nat) (b b' : Bool) {bs : List Ev}
    (hbs : bs = s.buf ++ s.kernel.queue.take n) :
    Extends s { s with
      kernel := { s.kernel with queue := s.kernel.queue.drop n }
      buf := bs, firstTry := b, hanging := b' } [] := by
  refine ⟨fun _ => Iff.rfl, rfl, rfl, Nat.le_refl _, rfl, rfl, rfl, ?_, fun _ h =>
    absurd h List.not_mem_nil⟩
  rw [State.pending, State.pending, List.append_nil]
  dsimp only
  rw [hbs, List.append_assoc, List.take_append_drop]

theorem inv_step {e : Event} (hinv : Inv s) (hok : Ok s e) (hstep : step s e = some t) : Inv t := by
  cases e with
  | mkdir P n =>
    obtain ⟨k', hk, rfl⟩ := Option.map_eq_some_iff.mp hstep
    obtain ⟨-, -, -, evs, -, heq⟩ := mkdir_spec hk
    exact inv_change hinv (hinv.tree.mkdir hk) ⟨evs, by rw [heq]⟩ (hok.imp_right fun hcalm =>
      ⟨hcalm.1, fun hview => phase_mkdir hview hcalm.1 hinv.tree hk hcalm.2⟩)
  | rmdir P =>
    obtain ⟨k', hk, rfl⟩ := Option.map_eq_some_iff.mp hstep
    have hqueue : ∃ evs, k'.queue = s.kernel.queue ++ evs := by
      obtain ⟨-, -, -, ⟨wd, -, rfl⟩ | ⟨-, rfl⟩⟩ := rmdir_spec hk
      · exact ⟨_, rfl⟩
      · exact ⟨[], (List.append_nil _).symm⟩
    exact inv_change hinv (hinv.tree.rmdir hk) hqueue (hok.imp_right fun hcalm =>
      ⟨hcalm, fun hview => phase_rmdir hview hcalm hk⟩)
  | rename P m Q n =>
    obtain ⟨k', hk, rfl⟩ := Option.map_eq_some_iff.mp hstep
    obtain ⟨htree, hqueue⟩ := hinv.tree.rename hk
    exact inv_change hinv htree hqueue (hok.imp_right fun ⟨hdrained, hfree, hnew, hold⟩ =>
      ⟨hdrained, fun hview => phase_rename hview hdrained hinv.tree hk hfree hnew hold⟩)
  | creat P n =>
    cases hstep
    obtain ⟨evs, hext⟩ := extends_creat (s := s) P n
    exact hext.inv hinv
  | renameFile P m Q n =>
    cases hstep
    obtain ⟨evs, hext⟩ := extends_renameFile (s := s) P m Q n
    exact hext.inv hinv
  | reorder dirs =>
    rw [step] at hstep
    split_ifs at hstep with hperm
    cases hstep
    have hext : Extends s { s with kernel := { s.kernel with dirs } } [] :=
      ⟨fun _ => hperm.mem_iff, rfl, rfl, Nat.le_refl _, rfl, rfl, rfl, (List.append_nil _).symm,
        fun _ h => absurd h List.not_mem_nil⟩
    exact hext.inv hinv
  | overflow n =>
    cases hstep
    refine ⟨hinv.tree.of_dirs rfl, hinv.roots, .inr (.inl ?_)⟩
    exact List.mem_append_right _ (List.mem_append_right _ (List.mem_singleton_self _))
  | read n =>
    rw [step] at hstep
    split_ifs at hstep with hcond
    cases hstep
    have hbuf : s.buf = [] := by
      by_contra hne
      exact hcond (.inr (.inl hne))
    exact (extends_read n true s.hanging (by rw [hbuf]; rfl)).inv hinv
  | readMore n =>
    rw [step] at hstep
    split_ifs at hstep with hcond
    cases hstep
    exact (extends_read n s.firstTry false rfl).inv hinv
  | process =>
    rw [step] at hstep
    split_ifs at hstep with hcond
    split at hstep
    · cases hstep
    · next ev rest hbuf =>
      cases hstep
      exact inv_process hinv (Bool.eq_false_iff.mpr fun h => hcond (.inl h)) hbuf
  | rebuild =>
    rw [step] at hstep
    split_ifs at hstep with hcond
    cases hstep
    exact inv_reinitialize hinv.tree hinv.roots

end Steps

theorem inv_init {dirs : List Path} (roots : List Path) (hclosed : ∀ P ∈ dirs, ∀ Q, Q <+: P → Q ∈ dirs)
    (hshort : ∀ P ∈ dirs, (render P).length < PATH_MAX) : Inv (init dirs roots) := by
  refine inv_reinitialize ⟨hclosed, hshort⟩ fun b hb => ?_
  obtain ⟨R, -, hR⟩ := List.mem_map.mp hb
  exact ⟨R, (Option.some.inj hR).symm⟩

theorem inv_of_reach {dirs roots : List Path} (hclosed : ∀ P ∈ dirs, ∀ Q, Q <+: P → Q ∈ dirs)
    (hshort : ∀ P ∈ dirs, (render P).length < PATH_MAX) {s : State}
    (h : (system dirs roots).ReachBy Ok s) : Inv s :=
  System.ReachBy.invariant (I := Inv) (inv_init roots hclosed hshort)
    (fun _ _ _ hinv hok hstep => inv_step hinv hok hstep) h

/-- There is a slot for every directory at or below a root, with its pathname and its watch
descriptor, and no other slot is in use. -/
structure Consistent (s : State) : Prop where
  watched : ∀ P, (∃ wd, s.kernel.Watches P wd) ↔
    P ∈ s.kernel.dirs ∧ ∃ R, some (render R) ∈ s.rootDirPaths ∧ R <+: P
  slots : ∀ x, x ∈ s.cache ∧ 0 ≤ x.wd ↔
    ∃ P wd, s.kernel.Watches P wd ∧ x = ⟨(wd : Nat), render P⟩
  paths : ((s.cache.filter fun x => 0 ≤ x.wd).map Slot.path).Nodup
  wds : ((s.cache.filter fun x => 0 ≤ x.wd).map Slot.wd).Nodup

theorem View.consistent {s : State} (h : Mirror s (Here s) id []) : Consistent s := by
  have hcache := h.cache
  rw [List.append_nil] at hcache
  refine ⟨fun P => h.watches_of.symm, fun x => ?_, ?_, h.nodup⟩
  · rw [← mem_used, hcache.mem_iff, List.mem_map]
    constructor
    · rintro ⟨w, hw, rfl⟩
      exact ⟨w.dir, w.wd, ⟨w, hw, rfl, rfl⟩, rfl⟩
    · rintro ⟨_, _, ⟨w, hw, rfl, rfl⟩, rfl⟩
      exact ⟨w, hw, rfl⟩
  · refine (hcache.map Slot.path).nodup_iff.mpr ?_
    have hpaths : (s.kernel.watches.map (entry id)).map Slot.path =
        (s.kernel.watches.map Watch.dir).map render := by
      rw [List.map_map, List.map_map]
      rfl
    rw [hpaths]
    exact h.dirs.map render_injective

theorem Inv.view {s : State} (hinv : Inv s) (hexited : s.exited = false) (hdrained : s.Drained) :
    Mirror s (Here s) id [] := by
  rcases hinv.phase with h | hlost | hphase
  · rw [hexited] at h
    cases h
  · rw [Lost, State.pending, hdrained.1, hdrained.2] at hlost
    cases hlost
  · exact view_of_drained hphase hdrained

def nameA : Name := ⟨[97], by unfold IsName; decide⟩
def nameB : Name := ⟨[98], by unfold IsName; decide⟩
def nameC : Name := ⟨[99], by unfold IsName; decide⟩

/-- There is no root here or below. -/
def NoRoot (s : State) (P : Path) : Prop :=
  ∀ b ∈ s.rootDirPaths, ∀ r ∈ b, under (render P) r = false

/-- `Ok`, for the changes of this run. -/
def Watchful (s : State) : Event → Prop
  | .mkdir P n => (s.buf = [] ∧ s.kernel.queue = []) ∧ NoRoot s (P ++ [n])
  | .rename P m Q n => (s.buf = [] ∧ s.kernel.queue = []) ∧ Q ++ [n] ∉ s.kernel.dirs ∧
      NoRoot s (Q ++ [n]) ∧ NoRoot s (P ++ [m])
  | .rmdir _ => False
  | _ => True

instance (s : State) (P : Path) : Decidable (NoRoot s P) :=
  inferInstanceAs (Decidable (∀ b ∈ s.rootDirPaths, ∀ r ∈ b, under (render P) r = false))

instance (s : State) : ∀ e, Decidable (Watchful s e)
  | .mkdir _ _ => inferInstanceAs (Decidable (_ ∧ _))
  | .rename _ _ _ _ => inferInstanceAs (Decidable (_ ∧ _))
  | .rmdir _ => inferInstanceAs (Decidable False)
  | .creat _ _ | .renameFile _ _ _ _ | .reorder _ | .overflow _ | .read _ | .readMore _ | .process
  | .rebuild => inferInstanceAs (Decidable True)

theorem NoRoot.not_atRoot {s : State} {P : Path} (h : NoRoot s P) : ¬ AtRoot s.rootDirPaths P := by
  rintro ⟨R, hR, hPR⟩
  have := h _ hR (render R) rfl
  rw [under_render.mpr hPR] at this
  cases this

theorem Watchful.ok {s : State} {e : Event} (h : Watchful s e) : Ok s e := by
  refine .inr ?_
  cases e with
  | mkdir P n => exact ⟨h.1, h.2.not_atRoot⟩
  | rename P m Q n => exact ⟨h.1, h.2.1, h.2.2.1.not_atRoot, .inl h.2.2.2.not_atRoot⟩
  | rmdir P => exact h.elim
  | _ => trivial

/-- `/a/b` and `/a/b/c` are made, and `/a/b` becomes `/a/c`; the second half of the rename is not
there in time. -/
def oneRename : List Event :=
  [.mkdir [nameA] nameB, .read 1, .process, .mkdir [nameA, nameB] nameC, .read 1, .process,
    .rename [nameA] nameB [nameA] nameC, .read 1, .process, .readMore 0, .process, .read 2, .process,
    .process, .read 1, .process]

def oneRenameEnd : State where
  kernel := ⟨[[], [nameA], [nameA, nameC], [nameA, nameC, nameC]], [⟨1, [nameA], true⟩,
    ⟨4, [nameA, nameC], false⟩, ⟨5, [nameA, nameC, nameC], false⟩], 6, 2, []⟩
  cache := [⟨1, render [nameA]⟩, ⟨4, render [nameA, nameC]⟩, ⟨5, render [nameA, nameC, nameC]⟩] ++
    List.replicate 197 .unused
  rootDirPaths := [some (render [nameA])]
  ignoreRootDirs := 0
  buf := []
  firstTry := true
  hanging := false
  exited := false

theorem reach_oneRename : (system [[], [nameA]] [[nameA]]).ReachBy Ok oneRenameEnd :=
  System.reachBy_of_execBy_from (fun _ _ => Watchful.ok) .init oneRename
    (show _ = some oneRenameEnd from (by decide +kernel : (system [[], [nameA]] [[nameA]]).execBy
      Watchful (init [[], [nameA]] [[nameA]]) oneRename = _))

theorem closed_of_oneRename : ∀ P ∈ [[], [nameA]], ∀ Q, Q <+: P → Q ∈ [[], [nameA]] := by
  intro P hP Q hQ
  rw [← List.mem_inits] at hQ
  rcases List.mem_pair.mp hP with rfl | rfl
  · rw [List.mem_singleton.mp hQ]
    exact List.mem_cons_self
  · exact hQ

end Tlpi.InotifyDtree
