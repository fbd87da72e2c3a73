import Tlpi.InotifyDtree.Runs

/-!
# The program catches up

Once the other processes let the directories be, the program has only so much to do: an event that
starts anew, or makes it watch a tree, is weighed with all the watches that it may bring, and a
watch with the `IN_IGNORED` that its end brings.  When it has done everything, the cache is
consistent.

* `todo_step`: every step of the program leaves less to do.
* `cache_settles`: the result.
-/

namespace Tlpi.InotifyDtree

open Tlpi.Lib

/-- A step of the program that no command has asked for. -/
def Event.Own : Event → Prop
  | .read _ | .readMore _ | .process => True
  | _ => False

/-- As many watches as an event may bring. -/
def State.room (s : State) : Nat := (s.rootDirPaths.length + 1) * s.kernel.dirs.length

def Ev.weight (room : Nat) : Ev → Nat
  | .ignored _ => 6
  | _ => 6 + 7 * room

/-- The work that the events and the watches make. -/
def State.load (s : State) : Nat :=
  total (Ev.weight s.room) s.pending + 7 * s.kernel.watches.length

def State.todo (s : State) : Nat :=
  s.load + (if s.buf = [] then 3 else 0) + (if s.firstTry then 2 else 0) +
    (if s.hanging then 1 else 0)

section Watching

variable {kc : Kernel × Cache}

theorem length_traverseTree (roots : List (Option Bytes)) (kc : Kernel × Cache) (pathname : Bytes) :
    (traverseTree roots kc pathname).1.watches.length ≤ kc.1.watches.length + 1 := by
  have hadd : ∀ {b : Bool} {wd : Nat} {k : Kernel}, kc.1.addWatch pathname b = some (wd, k) →
      k.watches.length ≤ kc.1.watches.length + 1 := by
    intro b wd k h
    rw [Kernel.addWatch] at h
    split at h
    · cases h
    · split at h
      · cases h
        rw [List.length_map]
        exact Nat.le_succ _
      · cases h
        rw [List.length_append]
        rfl
  rw [traverseTree]
  split
  · exact Nat.le_succ _
  · next wd k hk =>
    split
    · exact hadd hk
    · exact hadd hk

theorem length_foldl_traverseTree (roots : List (Option Bytes)) (bs : List Bytes)
    (kc : Kernel × Cache) :
    (bs.foldl (traverseTree roots) kc).1.watches.length ≤ kc.1.watches.length + bs.length := by
  induction bs generalizing kc with
  | nil => exact Nat.le_refl _
  | cons b bs ih =>
    have hfirst := length_traverseTree roots kc b
    have hrest := ih (traverseTree roots kc b)
    rw [List.foldl_cons, List.length_cons]
    omega

theorem length_nftw (k : Kernel) (pathname : Bytes) : (k.nftw pathname).length ≤ k.dirs.length := by
  rw [Kernel.nftw]
  split
  · exact Nat.zero_le _
  · rw [List.length_map]
    exact List.length_filter_le _ _

/-- At most all directories are new. -/
theorem length_watchSubtree (roots : List (Option Bytes)) (kc : Kernel × Cache) (path : Bytes) :
    (watchSubtree roots kc path).1.watches.length ≤ kc.1.watches.length + kc.1.dirs.length :=
  (length_foldl_traverseTree roots _ kc).trans (Nat.add_le_add_left (length_nftw kc.1 path) _)

theorem length_watchRoots (roots : List (Option Bytes)) (bs : List Bytes) (kc : Kernel × Cache) :
    (bs.foldl (watchSubtree roots) kc).1.watches.length ≤
      kc.1.watches.length + bs.length * kc.1.dirs.length := by
  induction bs generalizing kc with
  | nil => exact Nat.le_add_right _ _
  | cons b bs ih =>
    have hfirst := length_watchSubtree roots kc b
    have hrest := ih (watchSubtree roots kc b)
    rw [(sameDirs_watchSubtree roots kc b).1] at hrest
    rw [List.foldl_cons, List.length_cons, Nat.succ_mul]
    omega

/-- What is zapped makes an event of each watch. -/
theorem load_zapSlots (room : Nat) (pn : Bytes) (k : Kernel) (cs : Cache) :
    total (Ev.weight room) (zapSlots pn k cs).1.queue + 7 * (zapSlots pn k cs).1.watches.length ≤
      total (Ev.weight room) k.queue + 7 * k.watches.length := by
  induction cs generalizing k with
  | nil => exact Nat.le_refl _
  | cons x cs ih =>
    rw [zapSlots]
    split
    · rw [Kernel.rmWatch]
      split
      · exact Nat.le_refl _
      · next k' hk' =>
        split_ifs at hk' with hany
        cases hk'
        refine (ih _).trans ?_
        have hlt : (k.watches.filter fun w => w.wd ≠ x.wd.toNat).length < k.watches.length := by
          obtain ⟨w, hw, hwd⟩ := List.any_eq_true.mp hany
          refine List.length_filter_lt_length_iff_exists.mpr ⟨w, hw, ?_⟩
          simpa using hwd
        rw [total_append, total_singleton, Ev.weight]
        dsimp only
        omega
    · exact ih k

end Watching

section Loads

variable {s t : State} {ev : Ev} {rest : List Ev}

theorem dirs_le_room (s : State) : s.kernel.dirs.length ≤ s.room :=
  Nat.le_mul_of_pos_left _ (Nat.succ_pos _)

/-- Starting anew leaves the watches of all roots. -/
theorem todo_anew (s : State) : ( reinitialize s).todo ≤ 7 * s.room + 5 := by
  have hqueue : ( reinitialize s).pending = [] :=
    (sameDirs_foldl (sameDirs_watchSubtree s.rootDirPaths) _ _).2
  have hlength : ( reinitialize s).kernel.watches.length ≤ s.room := by
    refine (length_watchRoots s.rootDirPaths s.rootDirPaths.reduceOption _).trans ?_
    rw [State.room, Nat.succ_mul, Nat.add_comm]
    refine Nat.add_le_add (Nat.mul_le_mul_right _ (List.reduceOption_length_le _)) (Nat.zero_le _)
  have hrest : ( reinitialize s).todo = ( reinitialize s).load + 3 + 2 + 0 := rfl
  rw [hrest, State.load, hqueue, total]
  omega

theorem todo_le (h : s.hanging = false) : s.todo ≤ s.load + 5 := by
  rw [State.todo, h, if_neg Bool.false_ne_true]
  split
  · split
    · exact Nat.le_refl _
    · omega
  · split
    · omega
    · omega

theorem todo_zapSubtree (h : s.hanging = false) (path : Bytes) :
    (zapSubtree s path).todo ≤ s.load + 7 * s.room + 5 := by
  have hload := load_zapSlots s.room path s.kernel s.cache
  have hroom : ∀ cs, State.room { s with
      kernel := (zapSlots path s.kernel s.cache).1, cache := cs } = s.room := fun cs => by
    rw [State.room, (zapSlots_keeps path s.kernel s.cache).1]
    rfl
  rw [zapSubtree]
  split
  · refine (todo_le (by exact h)).trans ?_
    rw [State.load, hroom, State.load, State.pending, State.pending, total_append, total_append]
    dsimp only
    omega
  · refine (todo_anew _).trans ?_
    rw [hroom]
    omega

theorem todo_newDirectory (h : s.hanging = false) (x : Slot) (name : Name) :
    (newDirectory s x name).todo ≤ s.load + 7 * s.room + 5 := by
  rw [newDirectory]
  split
  · have := todo_le h
    omega
  · have hlength := length_watchSubtree s.rootDirPaths (s.kernel, s.cache)
      (x.path ++ 47 :: name.bytes)
    obtain ⟨hdirs, hqueue⟩ := sameDirs_watchSubtree s.rootDirPaths (s.kernel, s.cache)
      (x.path ++ 47 :: name.bytes)
    have hle := dirs_le_room s
    refine (todo_le (by exact h)).trans ?_
    rw [State.load, State.load, State.pending, State.pending, State.room, State.room]
    dsimp only at hlength ⊢
    rw [hdirs, hqueue]
    dsimp only
    rw [State.room] at hle
    omega

theorem six_le_weight (room : Nat) (ev : Ev) : 6 ≤ ev.weight room := by
  cases ev with
  | ignored => exact Nat.le_refl _
  | _ => exact Nat.le_add_right _ _

theorem weight_of_wd {wd : Nat} (h : ev.wd? = some wd) (room : Nat) :
    ev.weight room = 6 + 7 * room := by
  cases ev with
  | ignored => cases h
  | _ => rfl

theorem load_next (hbuf : s.buf = ev :: rest) :
    State.load { s with buf := rest, firstTry := true } + ev.weight s.room = s.load := by
  have hroom : State.room { s with buf := rest, firstTry := true } = s.room := rfl
  rw [State.load, State.load, State.pending, State.pending, hbuf, List.cons_append, total, hroom]
  dsimp only
  omega

theorem load_le_todo (s : State) : s.load ≤ s.todo := by
  rw [State.todo]
  omega

theorem room_zapRootDirPath (s : State) (path : Bytes) : (zapRootDirPath s path).room = s.room := by
  rw [State.room, State.room, zapRootDirPath, List.length_replace]

theorem load_zapRootDirPath (s : State) (path : Bytes) : (zapRootDirPath s path).load = s.load := by
  rw [State.load, room_zapRootDirPath]
  rfl

theorem todo_movedFromDirectory {b : Bool} {wd cookie : Nat} {name : Name} (x : Slot)
    (hbuf : s.buf = .movedFrom b wd name cookie :: rest) (h : s.hanging = false) :
    (movedFromDirectory s (.movedFrom b wd name cookie) x name cookie rest).todo + 1 ≤ s.todo := by
  have hload := load_next hbuf
  have hle := load_le_todo s
  rw [weight_of_wd rfl] at hload
  have hzap : (zapSubtree { s with buf := rest, firstTry := true }
      (x.path ++ 47 :: name.bytes)).todo + 1 ≤ s.todo := by
    have hzap := todo_zapSubtree (s := { s with buf := rest, firstTry := true }) h
      (x.path ++ 47 :: name.bytes)
    have hroom : State.room { s with buf := rest, firstTry := true } = s.room := rfl
    omega
  unfold movedFromDirectory
  dsimp only
  split
  · next b' wd' name' cookie' rest' =>
    split
    · split
      · have := todo_anew s
        omega
      · -- `IN_MOVED_TO` goes with `IN_MOVED_FROM`.
        refine Nat.le_trans (Nat.succ_le_succ (todo_le (by exact h))) ?_
        have hload' := load_next (s := { s with
          buf := .movedTo b' wd' name' cookie' :: rest', firstTry := true }) rfl
        have hsame : ∀ cs, State.load { s with buf := rest', firstTry := true, cache := cs } =
            State.load { s with buf := rest', firstTry := true } := fun _ => rfl
        rw [hsame]
        dsimp only at hload'
        omega
    · exact hzap
  · exact hzap
  · split
    · next hfirst =>
      -- The event stays; the second `read` is still to come.
      have hsame : State.load { s with
          buf := [.movedFrom b wd name cookie], firstTry := false, hanging := true } = s.load := by
        rw [State.load, State.load, State.pending, State.pending, hbuf]
        rfl
      rw [State.todo, State.todo, hsame, hbuf, hfirst, h]
      exact Nat.le_refl _
    · exact hzap

theorem todo_processFound {wd : Nat} (hwd : ev.wd? = some wd) (hbuf : s.buf = ev :: rest)
    (h : s.hanging = false) (j : Nat) : (processFound s ev rest j).todo + 1 ≤ s.todo := by
  have hload := load_next hbuf
  have hle := load_le_todo s
  rw [weight_of_wd hwd] at hload
  have hroom : State.room { s with buf := rest, firstTry := true } = s.room := rfl
  -- The event has been heavy enough.
  have hheavy : ∀ {t : State},
      t.todo ≤ State.load { s with buf := rest, firstTry := true } + 7 * s.room + 5 →
      t.todo + 1 ≤ s.todo := fun ht => by omega
  have hlight : ∀ {t : State}, t.hanging = false →
      t.load = State.load { s with buf := rest, firstTry := true } → t.todo + 1 ≤ s.todo :=
    fun hno heq => by
      have := todo_le hno
      omega
  have hroot : ∀ path, State.load (zapRootDirPath { s with buf := rest, firstTry := true } path) =
      State.load { s with buf := rest, firstTry := true } := fun path => load_zapRootDirPath _ path
  unfold processFound
  dsimp only
  split
  · exact hheavy (todo_newDirectory (by exact h) _ _)
  · exact hheavy (todo_newDirectory (by exact h) _ _)
  · split
    · exact hlight h (hroot _)
    · exact hlight h rfl
  · exact todo_movedFromDirectory _ hbuf h
  · exact hlight h rfl
  · split
    · split
      · exact hlight h (hroot _)
      · refine hheavy ((todo_zapSubtree (by exact h) _).trans ?_)
        rw [hroot, room_zapRootDirPath]
        exact Nat.le_refl _
    · exact hlight h rfl
  · exact hlight h rfl

theorem todo_process (hbuf : s.buf = ev :: rest) (h : s.hanging = false) :
    (processNextInotifyEvent s ev rest).todo + 1 ≤ s.todo := by
  have hload := load_next hbuf
  have hle := load_le_todo s
  rw [processNextInotifyEvent]
  split
  · next wd hwd =>
    split
    · have := todo_anew s
      rw [weight_of_wd hwd] at hload
      omega
    · exact todo_processFound hwd hbuf h _
  · split
    · next heq =>
      subst heq
      have := todo_anew s
      have hheavy : Ev.weight s.room .overflow = 6 + 7 * s.room := rfl
      omega
    · have hsix := six_le_weight s.room ev
      have hnext := todo_le (s := { s with buf := rest, firstTry := true }) h
      omega

/-- Every step of the program leaves less to do. -/
theorem todo_step {e : Event} (hown : e.Own) (hstep : step s e = some t) :
    t.todo + 1 ≤ s.todo := by
  cases e with
  | read n =>
    rw [step] at hstep
    split_ifs at hstep with hcond
    cases hstep
    have hbuf : s.buf = [] := by
      by_contra hne
      exact hcond (.inr (.inl hne))
    have hnot : s.kernel.queue.take n ≠ [] := by
      intro hnil
      rw [List.take_eq_nil_iff] at hnil
      rcases hnil with h | h
      · exact hcond (.inr (.inr (.inl h)))
      · refine hcond (.inr (.inr (.inr ?_)))
        rw [h]
        exact Nat.pos_of_ne_zero fun h => hcond (.inr (.inr (.inl h)))
    have hsame : State.load { s with
        kernel := { s.kernel with queue := s.kernel.queue.drop n }
        buf := s.kernel.queue.take n, firstTry := true } = s.load := by
      rw [State.load, State.load, State.pending, State.pending, hbuf]
      dsimp only
      rw [List.take_append_drop]
      rfl
    rw [State.todo, State.todo, hsame, hbuf]
    dsimp only
    rw [if_neg hnot, if_pos rfl, if_pos rfl]
    split
    · omega
    · omega
  | readMore n =>
    rw [step] at hstep
    split_ifs at hstep with hcond
    cases hstep
    have hhanging : s.hanging = true := by
      cases h : s.hanging with
      | false => exact absurd (.inr (.inl h)) hcond
      | true => rfl
    have hsame : State.load { s with
        kernel := { s.kernel with queue := s.kernel.queue.drop n }
        buf := s.buf ++ s.kernel.queue.take n, hanging := false } = s.load := by
      rw [State.load, State.load, State.pending, State.pending]
      dsimp only
      rw [List.append_assoc, List.take_append_drop]
      rfl
    have hbuf : (if s.buf ++ s.kernel.queue.take n = [] then 3 else 0) ≤
        if s.buf = [] then 3 else 0 := by
      by_cases hnil : s.buf = []
      · rw [if_pos hnil]
        split
        · exact Nat.le_refl _
        · exact Nat.zero_le _
      · rw [if_neg fun h => hnil (List.append_eq_nil_iff.mp h).1]
        exact Nat.zero_le _
    rw [State.todo, State.todo, hsame, hhanging]
    dsimp only
    rw [if_neg Bool.false_ne_true, if_pos rfl]
    omega
  | process =>
    rw [step] at hstep
    split_ifs at hstep with hcond
    split at hstep
    · cases hstep
    · next ev rest hbuf =>
      cases hstep
      exact todo_process hbuf (Bool.eq_false_iff.mpr fun h => hcond (.inr h))
  | _ => exact hown.elim

/-- The program can take a step as long as there is something to process. -/
theorem drained_of_stuck (hexited : s.exited = false) (h : ∀ e : Event, e.Own → step s e = none) :
    s.Drained := by
  have hbuf : s.buf = [] := by
    cases hhanging : s.hanging with
    | true =>
      have := h (.readMore 0) trivial
      rw [step, if_neg (by simp [hexited, hhanging])] at this
      cases this
    | false =>
      have := h .process trivial
      rw [step, if_neg (by simp [hexited, hhanging])] at this
      cases hbuf : s.buf with
      | nil => rfl
      | cons ev rest =>
        rw [hbuf] at this
        cases this
  refine ⟨hbuf, ?_⟩
  cases hqueue : s.kernel.queue with
  | nil => rfl
  | cons ev evs =>
    have := h (.read 1) trivial
    rw [step, if_neg (by simp [hexited, hbuf, hqueue])] at this
    cases this

end Loads

section Runs

variable {dirs roots : List Path} {s t : State}

theorem Event.Own.ok {e : Event} (h : e.Own) (s : State) : Ok s e := by
  cases e with
  | read | readMore | process => exact .inr trivial
  | _ => exact h.elim

/-- By induction on the steps of the program. -/
theorem run_own (hs : (system dirs roots).ReachBy Ok s) (es : List Event) (hes : ∀ e ∈ es, e.Own)
    (h : (system dirs roots).exec s es = some t) :
    (system dirs roots).ReachBy Ok t ∧ es.length + t.todo ≤ s.todo := by
  induction es generalizing s with
  | nil =>
    cases h
    exact ⟨hs, Nat.le_of_eq (Nat.zero_add _)⟩
  | cons e es ih =>
    rw [System.exec, System.execBy, if_pos trivial, Option.bind_eq_some_iff] at h
    obtain ⟨u, hu, h⟩ := h
    have hown := hes e List.mem_cons_self
    obtain ⟨hreach, hle⟩ := ih (.step e hs (hown.ok s) hu)
      (fun e he => hes e (List.mem_cons_of_mem _ he)) h
    refine ⟨hreach, ?_⟩
    have hfirst := todo_step hown hu
    rw [List.length_cons]
    omega

end Runs

/-! ### One run -/

/-- `/a/b` has been made, and the program does not know. -/
def oneMkdir : State where
  kernel := ⟨[[], [nameA], [nameA, nameB]], [⟨1, [nameA], true⟩], 2, 1, [.create true 1 nameB]⟩
  cache := ⟨1, render [nameA]⟩ :: List.replicate 199 .unused
  rootDirPaths := [some (render [nameA])]
  ignoreRootDirs := 0
  buf := []
  firstTry := true
  hanging := false
  exited := false

def oneMkdirEnd : State where
  kernel := ⟨[[], [nameA], [nameA, nameB]], [⟨1, [nameA], true⟩, ⟨2, [nameA, nameB], false⟩], 3, 1,
    []⟩
  cache := ⟨1, render [nameA]⟩ :: ⟨2, render [nameA, nameB]⟩ :: List.replicate 198 .unused
  rootDirPaths := [some (render [nameA])]
  ignoreRootDirs := 0
  buf := []
  firstTry := true
  hanging := false
  exited := false

theorem reach_oneMkdir : (system [[], [nameA]] [[nameA]]).ReachBy Ok oneMkdir :=
  System.reachBy_of_execBy_from (fun _ _ => Watchful.ok) .init
    [Event.mkdir [nameA] nameB] (show _ = some oneMkdir from (by decide +kernel :
      (system [[], [nameA]] [[nameA]]).execBy Watchful (init [[], [nameA]] [[nameA]])
        [Event.mkdir [nameA] nameB] = _))

theorem stuck_oneMkdirEnd : ∀ e : Event, e.Own → step oneMkdirEnd e = none := by
  intro e hown
  cases e with
  | read n =>
    cases n with
    | zero => rfl
    | succ n =>
      rw [step]
      exact if_pos (.inr (.inr (.inr (Nat.succ_pos n))))
  | readMore n =>
    rw [step]
    exact if_pos (.inr (.inl rfl))
  | process => rfl
  | _ => exact hown.elim

end Tlpi.InotifyDtree
