import Tlpi.InotifyDtree.Phases

/-!
# What the program makes of an event

As long as the directories change only when the program has processed everything, or an overflow of
the queue is going to be told, the program learns from the events what has become of them, whatever
`read` returns and whether or not it times out between the two events of a rename.

* `inv_process`: the program processes an event, and keeps the invariant.
-/

namespace Tlpi.InotifyDtree

open Tlpi.Lib

/-- An overflow is going to be told. -/
def Lost (s : State) : Prop := .overflow ∈ s.pending

/-- The directories change in a way that the program can follow: the events of the last change have
been processed, nothing appears in the place of a root or above it, the new name of a directory was
free, and a directory with a root at it or below is not renamed, unless it is the root itself and
both its names are outside of all that is watched. -/
def Calm (s : State) : Event → Prop
  | .mkdir P n => s.Drained ∧ ¬ AtRoot s.rootDirPaths (P ++ [n])
  | .rmdir _ => s.Drained
  | .rename P m Q n => s.Drained ∧ Q ++ [n] ∉ s.kernel.dirs ∧ ¬ AtRoot s.rootDirPaths (Q ++ [n]) ∧
      (¬ AtRoot s.rootDirPaths (P ++ [m]) ∨ (some (render (P ++ [m])) ∈ s.rootDirPaths ∧
        ¬ Monitored s.rootDirPaths P ∧ ¬ Monitored s.rootDirPaths Q))
  | _ => True

def Ok (s : State) (e : Event) : Prop := Lost s ∨ Calm s e

structure Inv (s : State) : Prop where
  tree : s.kernel.Tree
  roots : ∀ b, some b ∈ s.rootDirPaths → ∃ R, b = render R
  phase : s.exited = true ∨ Lost s ∨ Phase s

section Process

variable {s t : State} {ev : Ev} {rest : List Ev}

theorem inv_reinitialize (htree : s.kernel.Tree)
    (hroots : ∀ b, some b ∈ s.rootDirPaths → ∃ R, b = render R) : Inv ( reinitialize s) := by
  obtain ⟨hdirs, hqueue, hview⟩ := reinitialize_spec htree hroots
  refine ⟨htree.of_dirs hdirs.symm, hroots, .inr (.inr (.settled ?_ ?_))⟩
  · refine View.congr hview fun P => ?_
    rw [Here, ← hdirs]
    rfl
  · have hpending : ( reinitialize s).pending = [] := by
      rw [State.pending, hqueue]
      rfl
    rw [hpending]
    exact fun _ hev => absurd hev List.not_mem_nil

/-- The step has consumed the events before `rest`, and has not started anew. -/
structure Keeps (s t : State) (rest : List Ev) : Prop where
  dirs : t.kernel.dirs = s.kernel.dirs
  roots : ∀ b, some b ∈ t.rootDirPaths → some b ∈ s.rootDirPaths
  buf : t.buf = rest
  queue : ∃ evs, t.kernel.queue = s.kernel.queue ++ evs

theorem zapSlots_keeps (pn : Bytes) (k : Kernel) (cs : Cache) :
    (zapSlots pn k cs).1.dirs = k.dirs ∧ ∃ evs, (zapSlots pn k cs).1.queue = k.queue ++ evs := by
  induction cs generalizing k with
  | nil => exact ⟨rfl, [], (List.append_nil _).symm⟩
  | cons x cs ih =>
    rw [zapSlots]
    split
    · rw [Kernel.rmWatch]
      split
      · next hnone => exact ⟨rfl, [], (List.append_nil _).symm⟩
      · next k' hk' =>
        split_ifs at hk'
        cases hk'
        obtain ⟨hdirs, evs, hevs⟩ := ih { k with
          watches := k.watches.filter fun w => w.wd ≠ x.wd.toNat
          queue := k.queue ++ [.ignored x.wd.toNat] }
        exact ⟨hdirs, .ignored x.wd.toNat :: evs, by rw [hevs, List.append_assoc]; rfl⟩
    · exact ih k

/-- `zapSubtree` starts anew, or goes on. -/
theorem zapSubtree_cases (s : State) (path : Bytes) :
    (∃ t, Keeps s t s.buf ∧ zapSubtree s path = reinitialize t) ∨
      Keeps s (zapSubtree s path) s.buf := by
  obtain ⟨hdirs, hqueue⟩ := zapSlots_keeps path s.kernel s.cache
  rw [zapSubtree]
  split
  · exact .inr ⟨hdirs, fun _ => id, rfl, hqueue⟩
  · exact .inl ⟨{ s with
      kernel := (zapSlots path s.kernel s.cache).1
      cache := (zapSlots path s.kernel s.cache).2.1 }, ⟨hdirs, fun _ => id, rfl, hqueue⟩, rfl⟩

theorem Keeps.trans {u : State} {rest' : List Ev} (h : Keeps s t rest) (h' : Keeps t u rest') :
    Keeps s u rest' := by
  obtain ⟨evs, hevs⟩ := h.queue
  obtain ⟨evs', hevs'⟩ := h'.queue
  refine ⟨h'.dirs.trans h.dirs, fun b hb => h.roots b (h'.roots b hb), h'.buf, evs ++ evs', ?_⟩
  rw [hevs', hevs, List.append_assoc]

/-- A step starts anew, or it goes on with what is behind some events, none of which is an
overflow. -/
def Goes (s t : State) (rest : List Ev) : Prop :=
  (∃ u rest', Keeps s u rest' ∧ t = reinitialize u) ∨
    ∃ rest', Keeps s t rest' ∧ (.overflow ∈ rest → .overflow ∈ rest')

theorem goes_zapSubtree {u : State} (h : Keeps s u rest) (path : Bytes) :
    Goes s (zapSubtree u path) rest := by
  rcases zapSubtree_cases u path with ⟨t, ht, heq⟩ | ht
  · exact .inl ⟨t, _, h.trans ht, heq⟩
  · exact .inr ⟨rest, h.buf ▸ h.trans ht, id⟩

theorem goes_newDirectory {u : State} (h : Keeps s u rest) (x : Slot) (name : Name) :
    Goes s (newDirectory u x name) rest := by
  refine .inr ⟨rest, ?_, id⟩
  rw [newDirectory]
  split
  · exact h
  · obtain ⟨hdirs, hqueue⟩ := sameDirs_watchSubtree u.rootDirPaths (u.kernel, u.cache)
      (x.path ++ 47 :: name.bytes)
    have hkeeps : Keeps u { u with
        kernel := (watchSubtree u.rootDirPaths (u.kernel, u.cache) (x.path ++ 47 :: name.bytes)).1
        cache := (watchSubtree u.rootDirPaths (u.kernel, u.cache)
          (x.path ++ 47 :: name.bytes)).2 } rest :=
      ⟨hdirs, fun _ => id, h.buf, [], by rw [List.append_nil]; exact hqueue⟩
    exact h.trans hkeeps

theorem keeps_next (s : State) (rest : List Ev) :
    Keeps s { s with buf := rest, firstTry := true } rest :=
  ⟨rfl, fun _ => id, rfl, [], (List.append_nil _).symm⟩

theorem keeps_cache {u : State} (h : Keeps s u rest) (cs : Cache) :
    Keeps s { u with cache := cs } rest :=
  ⟨h.dirs, h.roots, h.buf, h.queue⟩

theorem mem_root_of_replace {roots : List (Option Bytes)} {a b : Bytes}
    (h : some b ∈ roots.replace (some a) none) : some b ∈ roots := by
  rcases mem_of_mem_replace h with h | h
  · exact h
  · cases h

theorem keeps_zapRootDirPath {u : State} (h : Keeps s u rest) (path : Bytes) :
    Keeps s (zapRootDirPath u path) rest := by
  exact ⟨h.dirs, fun b hb => h.roots b (mem_root_of_replace hb), h.buf, h.queue⟩

theorem goes_next {u : State} (h : Keeps s u rest) : Goes s u rest := .inr ⟨rest, h, id⟩

theorem goes_movedFromDirectory (s : State) (b : Bool) (wd : Nat) (x : Slot) (name : Name)
    (cookie : Nat) (rest : List Ev) :
    Goes s (movedFromDirectory s (.movedFrom b wd name cookie) x name cookie rest) rest := by
  have hzap : Goes s (zapSubtree { s with buf := rest, firstTry := true }
      (x.path ++ 47 :: name.bytes)) rest := goes_zapSubtree (keeps_next s rest) _
  have hself : Keeps s s s.buf := ⟨rfl, fun _ => id, rfl, [], (List.append_nil _).symm⟩
  unfold movedFromDirectory
  dsimp only
  split
  · next b' wd' name' cookie' rest' =>
    split
    · split
      · exact .inl ⟨s, _, hself, rfl⟩
      · refine .inr ⟨rest', keeps_cache (keeps_next s rest') _, fun hmem => ?_⟩
        exact (List.mem_cons.mp hmem).resolve_left Ev.noConfusion
    · exact hzap
  · exact hzap
  · split
    · refine .inr ⟨[.movedFrom b wd name cookie], ⟨rfl, fun _ => id, rfl, [], ?_⟩, fun hmem => ?_⟩
      · exact (List.append_nil _).symm
      · cases hmem
    · exact hzap

theorem goes_processFound (s : State) (ev : Ev) (rest : List Ev) (j : Nat) :
    Goes s (processFound s ev rest j) rest := by
  have hnext := keeps_next s rest
  unfold processFound
  dsimp only
  split
  · exact goes_newDirectory hnext _ _
  · exact goes_newDirectory hnext _ _
  · split
    · exact goes_next (keeps_cache (keeps_zapRootDirPath hnext _) _)
    · exact goes_next (keeps_cache hnext _)
  · exact goes_movedFromDirectory _ _ _ _ _ _ _
  · exact goes_next (keeps_cache hnext _)
  · split
    · split
      · exact goes_next (keeps_zapRootDirPath hnext _)
      · exact goes_zapSubtree (keeps_zapRootDirPath hnext _) _
    · exact goes_next hnext
  · exact goes_next hnext

/-- Only an overflow makes the program start anew for certain. -/
theorem goes_process (s : State) {ev : Ev} (hev : ev ≠ .overflow) (rest : List Ev) :
    Goes s (processNextInotifyEvent s ev rest) rest := by
  have hself : Keeps s s s.buf := ⟨rfl, fun _ => id, rfl, [], (List.append_nil _).symm⟩
  rw [processNextInotifyEvent]
  split
  · split
    · exact .inl ⟨s, _, hself, rfl⟩
    · exact goes_processFound s ev rest _
  · rw [if_neg hev]
    exact goes_next (keeps_next s rest)

/-- An event before the overflow. -/
theorem inv_of_goes (hinv : Inv s) (hpending : .overflow ∈ rest ++ s.kernel.queue)
    (h : Goes s t rest) : Inv t := by
  rcases h with ⟨u, rest', hu, rfl⟩ | ⟨rest', ht, hmem⟩
  · exact inv_reinitialize (hinv.tree.of_dirs hu.dirs) fun b hb => hinv.roots b (hu.roots b hb)
  · refine ⟨hinv.tree.of_dirs ht.dirs, fun b hb => hinv.roots b (ht.roots b hb), .inr (.inl ?_)⟩
    obtain ⟨evs, hevs⟩ := ht.queue
    rw [Lost, State.pending, ht.buf, hevs]
    rcases List.mem_append.mp hpending with h | h
    · exact List.mem_append_left _ (hmem h)
    · exact List.mem_append_right _ (List.mem_append_left _ h)

/-! ### The events of a change -/

theorem pending_cons {ev' : Ev} {rest' : List Ev} (hbuf : s.buf = ev :: rest)
    (hp : s.pending = ev' :: rest') : ev' = ev ∧ rest' = rest ++ s.kernel.queue := by
  rw [State.pending, hbuf, List.cons_append, List.cons.injEq] at hp
  exact ⟨hp.1.symm, hp.2.symm⟩

theorem process_of_found {wd j : Nat} (hwd : ev.wd? = some wd)
    (hj : findWatch s.cache wd = some j) :
    processNextInotifyEvent s ev rest = processFound s ev rest j := by
  simp only [processNextInotifyEvent, hwd, hj]

theorem getD_of_getElem? {cs : Cache} {j : Nat} {x : Slot} (h : cs[j]? = some x) :
    cs.getD j .unused = x := by
  rw [List.getD_eq_getElem?_getD, h, Option.getD_some]

/-- The slot of a watched directory is found. -/
theorem View.found {roots : List (Option Bytes)} {k : Kernel} {cs : Cache} {D : Path → Prop}
    {nm : Path → Path} {extra : List Slot} {P : Path} {wd : Nat}
    (h : View roots k cs D nm extra) (hw : k.Watches P wd) :
    ∃ j, findWatch cs wd = some j ∧ cs.getD j .unused = ⟨wd, render (nm P)⟩ := by
  obtain ⟨w, hw, rfl, rfl⟩ := hw
  obtain ⟨j, hj, hx⟩ := h.find hw
  exact ⟨j, hj, getD_of_getElem? hx⟩

theorem View.of_pathnameInCache {roots : List (Option Bytes)} {k : Kernel} {cs : Cache}
    {D : Path → Prop} {X : Path} (hview : View roots k cs D id [])
    (h : pathnameInCache cs (render X) = true) : D X := by
  obtain ⟨x, hx, hpath⟩ := pathnameInCache_iff.mp h
  have hmem := hview.cache.mem_iff.mp hx
  rw [List.append_nil] at hmem
  obtain ⟨w, hw, rfl⟩ := List.mem_map.mp hmem
  have hdir : w.dir = X := render_injective hpath
  exact hdir ▸ (hview.watched _).mp (List.mem_map_of_mem hw)

theorem inv_idle (hinv : Inv s) (hview : Mirror s (Here s) id [])
    (hidle : ∀ e ∈ ev :: rest ++ s.kernel.queue, e.Idle) :
    Inv (processNextInotifyEvent s ev rest) := by
  have hnext : Inv { s with buf := rest, firstTry := true } :=
    ⟨hinv.tree, hinv.roots, .inr (.inr (.settled hview fun e he =>
      hidle e (List.mem_cons_of_mem ev he)))⟩
  have hev := hidle ev List.mem_cons_self
  rw [processNextInotifyEvent]
  split
  · split
    · exact inv_reinitialize hinv.tree hinv.roots
    · unfold processFound
      cases ev with
      | create isDir | movedFrom isDir | movedTo isDir =>
        cases isDir with
        | true => exact hev.elim
        | false => exact hnext
      | ignored => exact hnext
      | deleteSelf | moveSelf | unmount | overflow => exact hev.elim
  · split
    · exact inv_reinitialize hinv.tree hinv.roots
    · exact hnext

theorem inv_missing {P : Path} {n : Name} {wd : Nat} (hinv : Inv s)
    (hview : Mirror s (fun R => Here s R ∧ ¬ P ++ [n] <+: R) id []) (hw : s.kernel.Watches P wd)
    (hev : ev = .create true wd n ∨ ∃ cookie, ev = .movedTo true wd n cookie)
    (hidle : ∀ e ∈ rest ++ s.kernel.queue, e.Idle) : Inv (processNextInotifyEvent s ev rest) := by
  obtain ⟨j, hj, hx⟩ := hview.found hw
  have hP : Here s P := (hview.watches_of.mpr ⟨wd, hw⟩).1
  have hstep : processNextInotifyEvent s ev rest =
      newDirectory { s with buf := rest, firstTry := true } ⟨wd, render P⟩ n := by
    rcases hev with rfl | ⟨cookie, rfl⟩
    · rw [process_of_found rfl hj, processFound, hx]
      rfl
    · rw [process_of_found rfl hj, processFound, hx]
      rfl
  rw [hstep, newDirectory, ← render_snoc]
  split
  · next hcached =>
    -- It is in nobody's slot.
    exact absurd (List.prefix_refl _) (hview.of_pathnameInCache hcached).2
  · have hwatched := View.watchSubtree (P := P ++ [n]) hview hinv.tree fun _ _ _ => rfl
    obtain ⟨hdirs, hqueue⟩ := sameDirs_watchSubtree s.rootDirPaths (s.kernel, s.cache)
      (render (P ++ [n]))
    refine ⟨hinv.tree.of_dirs hdirs, hinv.roots, .inr (.inr (.settled ?_ ?_))⟩
    · refine View.congr hwatched fun R => ?_
      show _ ↔ R ∈ (watchSubtree s.rootDirPaths (s.kernel, s.cache) (render (P ++ [n]))).1.dirs ∧ _
      rw [hdirs]
      constructor
      · rintro (⟨hR, -⟩ | ⟨hR, hunder⟩)
        · exact hR
        · exact ⟨hR, hP.2.mono ((List.prefix_append P [n]).trans hunder)⟩
      · intro hR
        by_cases hunder : P ++ [n] <+: R
        · exact .inr ⟨hR.1, hunder⟩
        · exact .inl ⟨hR, hunder⟩
    · intro e he
      refine hidle e ?_
      rw [State.pending] at he
      dsimp only at he
      rwa [hqueue] at he

/-- A tree is zapped that the cache has in full. -/
theorem zapSubtree_spec {roots : List (Option Bytes)} {D : Path → Prop} {nm : Path → Path}
    (hview : View roots s.kernel s.cache D nm []) (X : Path) :
    ∃ (idle : List Ev) (ws : List Watch) (cs : Cache), (∀ ev ∈ idle, ev.Idle) ∧
      ws ⊆ s.kernel.watches ∧
      zapSubtree s (render X) = { s with
        kernel := { s.kernel with watches := ws, queue := s.kernel.queue ++ idle }
        cache := cs } ∧
      View roots { s.kernel with watches := ws, queue := s.kernel.queue ++ idle } cs
        (fun P => D P ∧ ¬ X <+: nm P) nm [] := by
  obtain ⟨idle, hidle, ws, cs, hsub, hzap, hview'⟩ := hview.zap X
  refine ⟨idle, ws, cs, hidle, hsub, ?_, hview'⟩
  rw [zapSubtree, hzap]
  rfl

/-- What is left of a tree that has been renamed when its old pathname is zapped. -/
theorem zap_renamed {X Y : Path} (h : Renamed s X Y) (R : Path) :
    ((Here s R ∨ (R ∈ s.kernel.dirs ∧ Y <+: R)) ∧ ¬ X <+: move Y X R) ↔ Here s R ∧ ¬ Y <+: R := by
  constructor
  · rintro ⟨hR, hX⟩
    have hY : ¬ Y <+: R := fun hY => hX (move_of_below hY)
    exact ⟨hR.resolve_right fun h => hY h.2, hY⟩
  · rintro ⟨hR, hY⟩
    rw [move_of_not hY]
    exact ⟨.inl hR, h.gone R hR.1⟩

theorem View.zap_renamed {roots : List (Option Bytes)} {k : Kernel} {cs : Cache} {X Y : Path}
    (hview : View roots k cs (fun R =>
      (Here s R ∨ (R ∈ s.kernel.dirs ∧ Y <+: R)) ∧ ¬ X <+: move Y X R) (move Y X) [])
    (h : Renamed s X Y) : View roots k cs (fun R => Here s R ∧ ¬ Y <+: R) id [] :=
  View.congr_nm (View.congr hview (InotifyDtree.zap_renamed h)) fun _ hR => (move_of_not hR.2).symm

/-- Other roots, with no difference for what is watched. -/
theorem View.congr_roots {roots roots' : List (Option Bytes)} {k : Kernel} {cs : Cache}
    {D : Path → Prop} {nm : Path → Path} {extra : List Slot} (h : View roots k cs D nm extra)
    (hroots : ∀ R, D R → (some (render (nm R)) ∈ roots' ↔ some (render (nm R)) ∈ roots)) :
    View roots' k cs D nm extra :=
  ⟨h.dirs, h.watched, fun w hw => (h.flag w hw).trans
    (hroots _ ((h.watched _).mp (List.mem_map_of_mem hw))).symm, h.cache, h.wds, h.lt⟩

theorem mem_replace_root {roots : List (Option Bytes)} {a b : Bytes} (hne : b ≠ a) :
    some b ∈ roots.replace (some a) none ↔ some b ∈ roots :=
  ⟨mem_root_of_replace, fun hb => mem_replace_of_ne hb fun heq => hne (Option.some.inj heq)⟩

/-- What is monitored without the root `X`. -/
theorem monitored_replace {roots : List (Option Bytes)} {X R : Path} (hX : ¬ X <+: R) :
    Monitored (roots.replace (some (render X)) none) R ↔ Monitored roots R := by
  refine exists_congr fun S => and_congr_left fun hSR => mem_replace_root fun heq => ?_
  rw [render_inj] at heq
  exact hX (heq ▸ hSR)

/-- The cache knows the new name of a tree that has been renamed. -/
theorem Renamed.rewrite {P Q : Path} {m n : Name} (h : Renamed s (P ++ [m]) (Q ++ [n]))
    (htree : s.kernel.Tree) (hroot : ¬ AtRoot s.rootDirPaths (P ++ [m]))
    (hmon : Monitored s.rootDirPaths Q) :
    View s.rootDirPaths s.kernel (rewriteCachedPaths s.cache (render P) m.bytes (render Q) n.bytes)
      (Here s) id [] := by
  have hdir : ∀ R, Here s R ∨ (R ∈ s.kernel.dirs ∧ Q ++ [n] <+: R) → R ∈ s.kernel.dirs :=
    fun R hR => hR.elim And.left And.left
  have hback : ∀ R ∈ s.kernel.dirs,
      move (P ++ [m]) (Q ++ [n]) (move (Q ++ [n]) (P ++ [m]) R) = R := fun R hR =>
    move_move (h.gone R hR)
  have hview : View s.rootDirPaths s.kernel
      (rewriteCachedPaths s.cache (render P) m.bytes (render Q) n.bytes) _
      (fun R => move (P ++ [m]) (Q ++ [n]) (move (Q ++ [n]) (P ++ [m]) R)) [] := View.rename h.view
    (fun R hR => by rw [hback R (hdir R hR)]; exact htree.short R (hdir R hR)) h.short
    (htree.short _ h.there) fun R hR => ?_
  · refine View.congr (View.congr_nm hview fun R hR => (hback R (hdir R hR)).symm) fun R => ?_
    refine ⟨fun hR => hR.elim id fun hR => ⟨hR.1, ?_⟩, .inl⟩
    exact hmon.mono ((List.prefix_append Q [n]).trans hR.2)
  · rw [hback R (hdir R hR)]
    by_cases hY : Q ++ [n] <+: R
    · -- Neither the old tree nor the new one has a root in it.
      refine iff_of_false (fun hmem => h.noRoot ⟨R, hmem, hY⟩) fun hmem => hroot ?_
      exact ⟨_, hmem, move_of_below hY⟩
    · rw [move_of_not hY]

theorem Renamed.next {X Y : Path} (h : Renamed s X Y) {bs : List Ev} {b b' : Bool} :
    Renamed { s with buf := bs, firstTry := b, hanging := b' } X Y :=
  ⟨h.view, h.gone, h.there, h.short, h.noRoot⟩

theorem inv_zap_renamed {P Q : Path} {m n : Name} {cookie : Nat} (hinv : Inv s)
    (hrenamed : Renamed s (P ++ [m]) (Q ++ [n]))
    (harrives : Arrives s Q n cookie (rest ++ s.kernel.queue)) :
    Inv (zapSubtree { s with buf := rest, firstTry := true } (render (P ++ [m]))) := by
  obtain ⟨idle, ws, cs, hidle, hsub, heq, hview⟩ := zapSubtree_spec
    (s := { s with buf := rest, firstTry := true }) hrenamed.view (P ++ [m])
  rw [heq]
  have hview' := hview.zap_renamed hrenamed
  refine ⟨hinv.tree.of_dirs rfl, hinv.roots, .inr (.inr ?_)⟩
  rcases harrives with ⟨hmon, wd, idle', ⟨w, hw, rfl, rfl⟩, hrest, hidle'⟩ | ⟨hmon, hidle'⟩
  · -- `IN_MOVED_TO` has come too late: the new tree is missing.
    have hQ : Here s w.dir :=
      ⟨hinv.tree.closed _ hrenamed.there _ (List.prefix_append w.dir [n]), hmon⟩
    obtain ⟨_, v, hv, hdir, -⟩ := hview'.watches_of.mp ⟨hQ, not_snoc_below w.dir n⟩
    have hvw := List.inj_on_of_nodup_map hrenamed.view.dirs (hsub hv) hw hdir
    refine .missing w.dir n w.wd _ (idle' ++ idle) hview' ⟨w, hvw ▸ hv, rfl, rfl⟩ ?_
      (.inr ⟨cookie, rfl⟩) fun e he => (List.mem_append.mp he).elim (hidle' e) (hidle e)
    rw [State.pending, ← List.append_assoc, hrest]
    rfl
  · refine .settled (View.congr hview' fun R => and_iff_left_of_imp fun hR hY => ?_) fun e he => ?_
    · exact hmon (hR.2.of_below hY hrenamed.noRoot)
    · rw [State.pending, ← List.append_assoc] at he
      exact (List.mem_append.mp he).elim (fun he => (hidle' e he).1) (hidle e)

theorem inv_renamed {P Q : Path} {m n : Name} {wd cookie : Nat} (hinv : Inv s)
    (hrenamed : Renamed s (P ++ [m]) (Q ++ [n])) (hroot : ¬ AtRoot s.rootDirPaths (P ++ [m]))
    (hapart : ¬ Q ++ [n] <+: P ++ [m]) (hw : s.kernel.Watches P wd)
    (hused : cookie < s.kernel.nextCookie)
    (harrives : Arrives s Q n cookie (rest ++ s.kernel.queue)) :
    Inv (processNextInotifyEvent s (.movedFrom true wd m cookie) rest) := by
  obtain ⟨j, hj, hx⟩ := hrenamed.view.found hw
  have hzap := inv_zap_renamed hinv hrenamed harrives
  rw [process_of_found rfl hj, processFound, hx,
    move_of_not fun hY => hapart (hY.trans (List.prefix_append P [m]))]
  rw [render_snoc] at hzap
  unfold movedFromDirectory
  dsimp only
  split
  · next b wd' name cookie' rest' =>
    split
    · next heq =>
      subst heq
      rcases harrives with ⟨hmon, wd'', idle, hwQ, hrest, hidle⟩ | ⟨-, hidle⟩
      · rw [List.cons_append, List.cons.injEq] at hrest
        obtain ⟨hev, rfl⟩ := hrest
        cases hev
        obtain ⟨i, hi, hy⟩ := hrenamed.view.found hwQ
        rw [hi]
        dsimp only
        rw [hy, move_of_not (not_snoc_below Q n)]
        refine ⟨hinv.tree, hinv.roots, .inr (.inr (.settled ?_ hidle))⟩
        exact hrenamed.rewrite hinv.tree hroot hmon
      · exact absurd rfl (hidle _ List.mem_cons_self).2
    · exact hzap
  · exact hzap
  · split
    · next hfirst => 
      refine ⟨hinv.tree, hinv.roots, .inr (.inr ?_)⟩
      exact .renamed P m Q n wd cookie _ hrenamed.next hroot hapart hw rfl hused harrives
    · exact hzap

theorem inv_deleted {P : Path} {wd : Nat} (hinv : Inv s)
    (hview : Mirror s (Here s) id [⟨wd, render P⟩]) (hgone : P ∉ s.kernel.dirs)
    (hidle : ∀ e ∈ rest ++ s.kernel.queue, e.Idle) :
    Inv (processNextInotifyEvent s (.deleteSelf wd) rest) := by
  obtain ⟨j, hj, hx⟩ := hview.find_extra (List.mem_singleton_self _)
  have hmarked := hview.mark hx (Int.natCast_nonneg wd)
  have hbelow : ∀ R ∈ s.kernel.dirs, ¬ P <+: R := fun R hR hPR =>
    hgone (hinv.tree.closed R hR P hPR)
  rw [process_of_found rfl hj, processFound, getD_of_getElem? hx]
  dsimp only
  split
  · refine ⟨hinv.tree, fun b hb => hinv.roots b (mem_root_of_replace hb),
      .inr (.inr (.settled ?_ hidle))⟩
    refine View.congr (View.congr_roots hmarked fun R hR => mem_replace_root fun heq => ?_)
      fun R => and_congr_right fun hR => (monitored_replace (hbelow R hR)).symm
    rw [render_inj] at heq
    exact hbelow R hR.1 (heq ▸ List.prefix_refl _)
  · exact ⟨hinv.tree, hinv.roots, .inr (.inr (.settled hmarked hidle))⟩

theorem inv_rootMoved {X Y : Path} {wd : Nat} (hinv : Inv s) (hrenamed : Renamed s X Y)
    (hroot : some (render X) ∈ s.rootDirPaths) (haway : ¬ Monitored s.rootDirPaths Y)
    (hw : s.kernel.Watches Y wd) (hidle : ∀ e ∈ rest ++ s.kernel.queue, e.Idle) :
    Inv (processNextInotifyEvent s (.moveSelf wd) rest) := by
  obtain ⟨j, hj, hx⟩ := hrenamed.view.found hw
  rw [move_self] at hx
  have hroots : ∀ b, some b ∈ s.rootDirPaths.replace (some (render X)) none →
      ∃ R, b = render R := fun b hb => hinv.roots b (mem_root_of_replace hb)
  rw [process_of_found rfl hj, processFound, hx]
  dsimp only
  rw [if_pos (show isRootDirPath s.rootDirPaths (render X) = true from decide_eq_true hroot)]
  split
  · next hexited => exact ⟨hinv.tree, hroots, .inl hexited⟩
  · obtain ⟨idle, ws, cs, hidle', -, heq, hview⟩ := zapSubtree_spec
      (s := zapRootDirPath { s with buf := rest, firstTry := true } (render X)) hrenamed.view X
    rw [heq]
    have hview' := hview.zap_renamed hrenamed
    refine ⟨hinv.tree.of_dirs rfl, hroots, .inr (.inr (.settled ?_ fun e he => ?_))⟩
    · refine View.congr (View.congr_roots hview' fun R hR => mem_replace_root fun heq => ?_)
        fun R => ?_
      · rw [id, render_inj] at heq
        exact hrenamed.gone R hR.1.1 (heq ▸ List.prefix_refl _)
      · have hmon : R ∈ s.kernel.dirs → (Monitored
            (s.rootDirPaths.replace (some (render X)) none) R ↔ Monitored s.rootDirPaths R) :=
          fun hR => monitored_replace (hrenamed.gone R hR)
        refine ⟨fun hR => ⟨hR.1.1, (hmon hR.1.1).mpr hR.1.2⟩, fun hR => ?_⟩
        have hmonR := (hmon hR.1).mp hR.2
        exact ⟨⟨hR.1, hmonR⟩, fun hY => haway (hmonR.of_below hY hrenamed.noRoot)⟩
    · rw [State.pending, ← List.append_assoc] at he
      exact (List.mem_append.mp he).elim (hidle e) (hidle' e)

/-- Everything before the overflow is processed, in any way; else the phase says which event is
next. -/
theorem inv_process (hinv : Inv s) (hexited : s.exited = false) (hbuf : s.buf = ev :: rest) :
    Inv (processNextInotifyEvent s ev rest) := by
  have hpending : s.pending = ev :: (rest ++ s.kernel.queue) := by rw [State.pending, hbuf]; rfl
  rcases hinv.phase with h | hlost | hphase
  · rw [hexited] at h
    cases h
  · by_cases hev : ev = .overflow
    · subst hev
      exact inv_reinitialize hinv.tree hinv.roots
    · rw [Lost, hpending] at hlost
      exact inv_of_goes hinv ((List.mem_cons.mp hlost).resolve_left fun h => hev h.symm)
        (goes_process s hev rest)
  · cases hphase with
    | settled hview hidle => exact inv_idle hinv hview fun e he => hidle e (hpending ▸ he)
    | missing P n wd ev' rest' hview hw hp hev hidle =>
      obtain ⟨rfl, rfl⟩ := pending_cons hbuf hp
      exact inv_missing hinv hview hw hev hidle
    | renamed P m Q n wd cookie rest' hrenamed hroot hapart hw hp hused harrives =>
      obtain ⟨rfl, rfl⟩ := pending_cons hbuf hp
      exact inv_renamed hinv hrenamed hroot hapart hw hused harrives
    | deleted P wd rest' hview hgone hp hidle =>
      obtain ⟨rfl, rfl⟩ := pending_cons hbuf hp
      exact inv_deleted hinv hview hgone hidle
    | rootMoved X Y wd rest' hrenamed hroot haway hw hp hidle =>
      obtain ⟨rfl, rfl⟩ := pending_cons hbuf hp
      exact inv_rootMoved hinv hrenamed hroot haway hw hidle

end Process

end Tlpi.InotifyDtree
