import Tlpi.Lib.Path
import Tlpi.Lib.System

/-!
# A cache of watched directories

`inotify/inotify_dtree.c` watches all directories of some trees and keeps a cache that names for
every watch descriptor the directory that it is for.  It learns from the events of inotify what
becomes of the directories, and mends its cache.

The other processes make, remove and rename directories (and other files, which the program
ignores); each of these calls puts its events into the queue of the inotify instance at once.  How
many of them a `read` returns is a matter of chance, and a second `read` after an `IN_MOVED_FROM`
at the end of the buffer may time out before the event behind it is there.

The pathnames of the command line are absolute, without `.`, `..`, symbolic links and superfluous
slashes, so a directory has one pathname.  The order in which `nftw` finds directories is that of
`dirs`; as this may change at any time, it is of no importance.
-/

namespace Tlpi.InotifyDtree

open Tlpi.Lib

def PATH_MAX : Nat := 4096

/-! ### inotify -/

/-- The events that the program has asked for, and those that come by themselves. -/
inductive Ev
  | create (isDir : Bool) (wd : Nat) (name : Name)
  | movedFrom (isDir : Bool) (wd : Nat) (name : Name) (cookie : Nat)
  | movedTo (isDir : Bool) (wd : Nat) (name : Name) (cookie : Nat)
  | deleteSelf (wd : Nat)
  | moveSelf (wd : Nat)
  | unmount (wd : Nat)
  | ignored (wd : Nat)
  | overflow
  deriving DecidableEq

/-- A watch; `moveSelf` is its flag `IN_MOVE_SELF`. -/
structure Watch where
  wd : Nat
  dir : Path
  moveSelf : Bool
  deriving DecidableEq

/-- The directories that there are, and the inotify instance. -/
structure Kernel where
  dirs : List Path
  watches : List Watch
  nextWd : Nat
  nextCookie : Nat
  queue : List Ev
  deriving DecidableEq

/-- The directory of a pathname. -/
def Kernel.lookup (k : Kernel) (pathname : Bytes) : Option Path :=
  k.dirs.find? fun P => render P = pathname

/-- `inotify_add_watch`, which fails with `ENOENT` only. -/
def Kernel.addWatch (k : Kernel) (pathname : Bytes) (moveSelf : Bool) : Option (Nat × Kernel) :=
  match k.lookup pathname with
  | none => none
  | some P =>
      match k.watches.find? fun w => w.dir = P with
      | some w => some (w.wd, { k with
          watches := k.watches.map fun v => if v.dir = P then { v with moveSelf } else v })
      | none => some (k.nextWd, { k with
          watches := k.watches ++ [Watch.mk k.nextWd P moveSelf]
          nextWd := k.nextWd + 1 })

/-- `inotify_rm_watch` -/
def Kernel.rmWatch (k : Kernel) (wd : Nat) : Option Kernel :=
  if k.watches.any fun w => w.wd = wd then
    some { k with
      watches := k.watches.filter fun w => w.wd ≠ wd
      queue := k.queue ++ [.ignored wd] }
  else none

/-- The watch descriptor of a directory, if it is watched. -/
def Kernel.wdOf (k : Kernel) (P : Path) : Option Nat :=
  (k.watches.find? fun w => w.dir = P).map Watch.wd

/-- An event of a directory is queued if this is watched. -/
def Kernel.notify (k : Kernel) (P : Path) (ev : Nat → Ev) : Kernel :=
  match k.wdOf P with
  | none => k
  | some wd => { k with queue := k.queue ++ [ev wd] }

/-! ### Other processes -/

/-- `mkdir` -/
def Kernel.mkdir (k : Kernel) (P : Path) (n : Name) : Option Kernel :=
  if P ∈ k.dirs ∧ P ++ [n] ∉ k.dirs ∧ (render (P ++ [n])).length < PATH_MAX then
    some ({ k with dirs := k.dirs ++ [P ++ [n]] }.notify P fun wd => .create true wd n)
  else none

/-- The end of an empty directory: its watch goes with it. -/
def Kernel.remove (k : Kernel) (P : Path) : Kernel :=
  match k.wdOf P with
  | none => { k with dirs := k.dirs.filter (· ≠ P) }
  | some wd => { k with
      dirs := k.dirs.filter (· ≠ P)
      watches := k.watches.filter fun w => w.wd ≠ wd
      queue := k.queue ++ [.deleteSelf wd, .ignored wd] }

/-- `rmdir` of a directory without others in it. -/
def Kernel.rmdir (k : Kernel) (P : Path) : Option Kernel :=
  if P ∈ k.dirs ∧ P ≠ [] ∧ ∀ Q ∈ k.dirs, P <+: Q → Q = P then some (k.remove P) else none

/-- `P/m` and what is below it gets the name `Q/n`; its watches go with it. -/
def Kernel.moveTree (k : Kernel) (P : Path) (m : Name) (Q : Path) (n : Name) : Kernel :=
  { k with
    dirs := k.dirs.map (move (P ++ [m]) (Q ++ [n]))
    watches := k.watches.map fun w => { w with dir := move (P ++ [m]) (Q ++ [n]) w.dir }
    nextCookie := k.nextCookie + 1 }

/-- The events of a rename. -/
def Kernel.tellRename (k : Kernel) (P : Path) (m : Name) (Q : Path) (n : Name) (cookie : Nat) :
    Kernel :=
  let told := (k.notify P fun wd => .movedFrom true wd m cookie).notify Q
    fun wd => .movedTo true wd n cookie
  match told.watches.find? fun w => w.dir = Q ++ [n] with
  | some w => if w.moveSelf then { told with queue := told.queue ++ [.moveSelf w.wd] } else told
  | none => told

/-- `rename` of `P/m` to `Q/n`.  An empty directory with this name is removed; its end is told
last. -/
def Kernel.rename (k : Kernel) (P : Path) (m : Name) (Q : Path) (n : Name) : Option Kernel :=
  if P ++ [m] ∈ k.dirs ∧ Q ∈ k.dirs ∧ ¬ P ++ [m] <+: Q ∧ ¬ Q ++ [n] <+: P ++ [m] ∧
      (∀ R ∈ k.dirs, Q ++ [n] <+: R → R = Q ++ [n]) ∧
      ∀ R ∈ k.dirs, (render (move (P ++ [m]) (Q ++ [n]) R)).length < PATH_MAX then
    match k.wdOf (Q ++ [n]) with
    | none => some (({ k with dirs := k.dirs.filter (· ≠ Q ++ [n]) }.moveTree P m Q n).tellRename
        P m Q n k.nextCookie)
    | some wd =>
        let told := ({ k with
          dirs := k.dirs.filter (· ≠ Q ++ [n])
          watches := k.watches.filter fun w => w.wd ≠ wd }.moveTree P m Q n).tellRename
            P m Q n k.nextCookie
        some { told with queue := told.queue ++ [.deleteSelf wd, .ignored wd] }
  else none

/-- A file that is no directory is made in `P`. -/
def Kernel.creat (k : Kernel) (P : Path) (n : Name) : Kernel :=
  k.notify P fun wd => .create false wd n

/-- A file that is no directory is renamed. -/
def Kernel.renameFile (k : Kernel) (P : Path) (m : Name) (Q : Path) (n : Name) : Kernel :=
  ({ k with nextCookie := k.nextCookie + 1 }.notify P
    fun wd => .movedFrom false wd m k.nextCookie).notify Q fun wd => .movedTo false wd n k.nextCookie

/-! ### The cache -/

/-- `struct watch` -/
structure Slot where
  wd : Int
  path : Bytes
  deriving DecidableEq

def Slot.unused : Slot := ⟨-1, []⟩

abbrev Cache := List Slot

def ALLOC_INCR : Nat := 200

/-- `none` stands for -1. -/
def findWatch (c : Cache) (wd : Int) : Option Nat := c.findIdx? fun x => x.wd = wd

def markCacheSlotEmpty (c : Cache) (slot : Nat) : Cache := c.set slot .unused

/-- The slot, and the cache, which may have been resized. -/
def findEmptyCacheSlot (c : Cache) : Nat × Cache :=
  match c.findIdx? fun x => x.wd = -1 with
  | some j => (j, c)
  | none => (c.length, c ++ List.replicate ALLOC_INCR .unused)

/-- `strncpy` copies `PATH_MAX` bytes at most. -/
def addWatchToCache (c : Cache) (wd : Int) (pathname : Bytes) : Cache :=
  (findEmptyCacheSlot c).2.set (findEmptyCacheSlot c).1 ⟨wd, pathname.take PATH_MAX⟩

def pathnameToCacheSlot (c : Cache) (pathname : Bytes) : Option Nat :=
  c.findIdx? fun x => 0 ≤ x.wd ∧ x.path = pathname

def pathnameInCache (c : Cache) (pathname : Bytes) : Bool := (pathnameToCacheSlot c pathname).isSome

/-! ### Watching -/

def isRootDirPath (rootDirPaths : List (Option Bytes)) (path : Bytes) : Bool :=
  some path ∈ rootDirPaths

/-- The watch for a directory, and its entry in the cache. -/
def traverseTree (rootDirPaths : List (Option Bytes)) (kc : Kernel × Cache) (pathname : Bytes) :
    Kernel × Cache :=
  match kc.1.addWatch pathname (isRootDirPath rootDirPaths pathname) with
  | none => kc
  | some (wd, k) =>
      match findWatch kc.2 wd with
      | some _ => (k, kc.2)
      | none => (k, addWatchToCache kc.2 wd pathname)

/-- What `nftw` finds. -/
def Kernel.nftw (k : Kernel) (pathname : Bytes) : List Bytes :=
  match k.lookup pathname with
  | none => []
  | some P => (k.dirs.filter fun Q => P <+: Q).map render

def watchSubtree (rootDirPaths : List (Option Bytes)) (kc : Kernel × Cache) (path : Bytes) :
    Kernel × Cache :=
  (kc.1.nftw path).foldl (traverseTree rootDirPaths) kc

/-- `snprintf(buf, size, …)` of a string -/
def snprintf (size : Nat) (s : Bytes) : Bytes := s.take (size - 1)

def rewriteCachedPaths (c : Cache) (oldPathPrefix oldName newPathPrefix newName : Bytes) : Cache :=
  let fullPath := snprintf PATH_MAX (oldPathPrefix ++ 47 :: oldName)
  let newPrefix := snprintf PATH_MAX (newPathPrefix ++ 47 :: newName)
  c.map fun x =>
    if under fullPath x.path then
      { x with path := snprintf PATH_MAX (newPrefix ++ x.path.drop fullPath.length) }
    else x

/-- The loop of `zapSubtree` over the slots; false if `inotify_rm_watch` has failed. -/
def zapSlots (pn : Bytes) : Kernel → Cache → Kernel × Cache × Bool
  | k, [] => (k, [], true)
  | k, x :: c =>
      if 0 ≤ x.wd ∧ under pn x.path then
        match k.rmWatch x.wd.toNat with
        | none => (k, x :: c, false)
        | some k' =>
            let r := zapSlots pn k' c
            (r.1, .unused :: r.2.1, r.2.2)
      else
        let r := zapSlots pn k c
        (r.1, x :: r.2.1, r.2.2)

/-! ### The program -/

structure State where
  kernel : Kernel
  cache : Cache
  rootDirPaths : List (Option Bytes)
  ignoreRootDirs : Nat
  /-- What is left of the buffer. -/
  buf : List Ev
  firstTry : Bool
  /-- It is going to `read` once more. -/
  hanging : Bool
  exited : Bool
  deriving DecidableEq

/-- A new inotify instance, and what is left of the buffer is discarded. -/
def reinitialize (s : State) : State :=
  let k : Kernel := { s.kernel with watches := [], nextWd := 1, queue := [] }
  let kc := s.rootDirPaths.reduceOption.foldl (watchSubtree s.rootDirPaths) (k, [])
  { s with kernel := kc.1, cache := kc.2, buf := [], firstTry := true, hanging := false }

/-- `zapSubtree`, and `reinitialize` if it fails. -/
def zapSubtree (s : State) (path : Bytes) : State :=
  let r := zapSlots path s.kernel s.cache
  if r.2.2 then { s with kernel := r.1, cache := r.2.1 }
  else reinitialize { s with kernel := r.1, cache := r.2.1 }

/-- A root that is not found does not occur: the path has been tested. -/
def zapRootDirPath (s : State) (path : Bytes) : State :=
  { s with
    rootDirPaths := s.rootDirPaths.replace (some path) none
    ignoreRootDirs := s.ignoreRootDirs + 1
    exited := s.ignoreRootDirs + 1 = s.rootDirPaths.length }

/-- `IN_CREATE` or `IN_MOVED_TO` of a directory, in the directory of the slot `x` -/
def newDirectory (s : State) (x : Slot) (name : Name) : State :=
  let fullPath := x.path ++ 47 :: name.bytes
  if pathnameInCache s.cache fullPath then s
  else
    let kc := watchSubtree s.rootDirPaths (s.kernel, s.cache) fullPath
    { s with kernel := kc.1, cache := kc.2 }

/-- The rename of a directory; `rest` is what is behind `IN_MOVED_FROM` in the buffer. -/
def movedFromDirectory (s : State) (ev : Ev) (x : Slot) (name : Name) (cookie : Nat)
    (rest : List Ev) : State :=
  let zap : State := zapSubtree { s with buf := rest, firstTry := true } (x.path ++ 47 :: name.bytes)
  match rest with
  | .movedTo _ wd' name' cookie' :: rest' =>
      if cookie' = cookie then
        match findWatch s.cache wd' with
        | none => reinitialize s
        | some j =>
            { s with
              cache := rewriteCachedPaths s.cache x.path name.bytes
                (s.cache.getD j .unused).path name'.bytes
              buf := rest'
              firstTry := true }
      else zap
  | _ :: _ => zap
  | [] => if s.firstTry then { s with buf := [ev], firstTry := false, hanging := true } else zap

/-- `processNextInotifyEvent` for an event whose watch descriptor is in the slot `j`. -/
def processFound (s : State) (ev : Ev) (rest : List Ev) (j : Nat) : State :=
  let x := s.cache.getD j .unused
  let next : State := { s with buf := rest, firstTry := true }
  match ev with
  | .create true _ name | .movedTo true _ name _ => newDirectory next x name
  | .deleteSelf _ =>
      let t := if isRootDirPath s.rootDirPaths x.path then zapRootDirPath next x.path else next
      { t with cache := markCacheSlotEmpty t.cache j }
  | .movedFrom true _ name cookie => movedFromDirectory s ev x name cookie rest
  | .unmount _ => { next with cache := markCacheSlotEmpty s.cache j }
  | .moveSelf _ =>
      if isRootDirPath s.rootDirPaths x.path then
        let t := zapRootDirPath next x.path
        if t.exited then t else zapSubtree t x.path
      else next
  | _ => next

/-- The watch descriptor of an event, unless it is `IN_Q_OVERFLOW` or `IN_IGNORED`. -/
def Ev.wd? : Ev → Option Nat
  | .create _ wd _ | .movedFrom _ wd _ _ | .movedTo _ wd _ _ | .deleteSelf wd | .moveSelf wd
  | .unmount wd => some wd
  | .ignored _ | .overflow => none

/-- `findWatchChecked`, and the rest if the watch descriptor is found. -/
def processNextInotifyEvent (s : State) (ev : Ev) (rest : List Ev) : State :=
  match ev.wd? with
  | some wd =>
      match findWatch s.cache wd with
      | none => reinitialize s
      | some j => processFound s ev rest j
  | none =>
      if ev = .overflow then reinitialize s else { s with buf := rest, firstTry := true }

inductive Event
  | mkdir (P : Path) (n : Name)
  | rmdir (P : Path)
  | rename (P : Path) (m : Name) (Q : Path) (n : Name)
  | creat (P : Path) (n : Name)
  | renameFile (P : Path) (m : Name) (Q : Path) (n : Name)
  /-- Directories change their places in the order that `nftw` finds them in. -/
  | reorder (dirs : List Path)
  /-- Only the first `n` events have found room in the queue. -/
  | overflow (n : Nat)
  /-- `read` returns `n` events. -/
  | read (n : Nat)
  /-- The second `read`; 0 is a time-out, after which `numRead` is one byte short, which does not
  matter for the one event in the buffer. -/
  | readMore (n : Nat)
  | process
  /-- The command `0` -/
  | rebuild
  deriving DecidableEq

def State.onKernel (s : State) (k : Option Kernel) : Option State :=
  k.map fun k => { s with kernel := k }

/-- One step. -/
def step (s : State) : Event → Option State
  | .mkdir P n => s.onKernel (s.kernel.mkdir P n)
  | .rmdir P => s.onKernel (s.kernel.rmdir P)
  | .rename P m Q n => s.onKernel (s.kernel.rename P m Q n)
  | .creat P n => s.onKernel (some (s.kernel.creat P n))
  | .renameFile P m Q n => s.onKernel (some (s.kernel.renameFile P m Q n))
  | .reorder dirs =>
      if dirs.Perm s.kernel.dirs then some { s with kernel := { s.kernel with dirs } } else none
  | .overflow n =>
      some { s with kernel := { s.kernel with queue := s.kernel.queue.take n ++ [.overflow] } }
  | .read n =>
      if s.exited ∨ s.buf ≠ [] ∨ n = 0 ∨ s.kernel.queue.length < n then none
      else some { s with
        kernel := { s.kernel with queue := s.kernel.queue.drop n }
        buf := s.kernel.queue.take n
        firstTry := true }
  | .readMore n =>
      if s.exited ∨ s.hanging = false ∨ s.kernel.queue.length < n then none
      else some { s with
        kernel := { s.kernel with queue := s.kernel.queue.drop n }
        buf := s.buf ++ s.kernel.queue.take n
        hanging := false }
  | .process =>
      if s.exited ∨ s.hanging then none
      else
        match s.buf with
        | [] => none
        | ev :: rest => some (processNextInotifyEvent s ev rest)
  | .rebuild => if s.exited ∨ s.buf ≠ [] then none else some <| reinitialize s

/-- The program has been started for the directories `roots`. -/
def init (dirs roots : List Path) : State :=
  reinitialize
    { kernel := ⟨dirs, [], 1, 1, []⟩
      cache := []
      rootDirPaths := roots.map fun R => some (render R)
      ignoreRootDirs := 0
      buf := []
      firstTry := true
      hanging := false
      exited := false }

def system (dirs roots : List Path) : System State Event := ⟨init dirs roots, step⟩

end Tlpi.InotifyDtree
