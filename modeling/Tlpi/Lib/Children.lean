import Tlpi.Lib.Lists

/-!
# The children of a process, as the kernel keeps them

`Kids` is the kernel's record of one parent: its children in the order in which
they were forked, and the one bit in which it keeps a SIGCHLD that was generated
and not yet delivered.  The signal does not queue: a second child that ends
while the bit is set leaves no further trace but its own zombie.  A child is
named by its position in the table, which never changes, so a name is never
used twice.

* `fork`, `terminate`: the table grows by a running child; a running child turns
  into a zombie and the bit is set.
* `waitAny k j`: `waitpid(-1, &status, WNOHANG)`, where `j` says which zombie the
  kernel picks; `waitFor k j`: the blocking `waitpid(j, &status, 0)`.
* `running`, `zombies`, `reaped` count the children, and every operation has one
  lemma that says what it does to the three counts.
-/

namespace Tlpi.Lib

/-- What the kernel keeps of a child. -/
inductive Child
  | running
  | zombie (status : Nat)
  | reaped (status : Nat)
  deriving DecidableEq, Repr

namespace Child

def isRunning : Child → Bool
  | running => true
  | _ => false

def isZombie : Child → Bool
  | zombie _ => true
  | _ => false

def isReaped : Child → Bool
  | reaped _ => true
  | _ => false

end Child

/-- The answer of `waitpid`: a child and its wait status, `0`, or `-1` with
`ECHILD`. -/
inductive WaitRes
  | child (pid status : Nat)
  | zero
  | echild
  deriving DecidableEq, Repr

/-- The children of a process and its pending SIGCHLD. -/
structure Kids where
  table : List Child
  pending : Bool
  deriving DecidableEq, Repr

namespace Kids

def running (k : Kids) : Nat := k.table.countP Child.isRunning

def zombies (k : Kids) : Nat := k.table.countP Child.isZombie

def reaped (k : Kids) : Nat := k.table.countP Child.isReaped

/-- Child `j` has been waited for. -/
def IsReaped (k : Kids) (j : Nat) : Prop := ∃ st, k.table[j]? = some (.reaped st)

/-- `fork` in the parent. -/
def fork (k : Kids) : Kids := { k with table := k.table ++ [.running] }

/-- Child `j` ends with the given wait status. -/
def terminate (k : Kids) (j status : Nat) : Option Kids :=
  match k.table[j]? with
  | some .running => some ⟨k.table.set j (.zombie status), true⟩
  | _ => none

/-- `waitpid(-1, &status, WNOHANG)`.  With several zombies the kernel may pick any
of them, so `j` has to name one; with none the answer is `0`, or `ECHILD` when
nobody is left to wait for. -/
def waitAny (k : Kids) (j : Nat) : Option (WaitRes × Kids) :=
  match k.table[j]? with
  | some (.zombie st) => some (.child j st, { k with table := k.table.set j (.reaped st) })
  | _ => if k.zombies = 0 then some (if k.running = 0 then .echild else .zero, k) else none

/-- `waitpid(j, &status, 0)`: it blocks while child `j` runs. -/
def waitFor (k : Kids) (j : Nat) : Option (WaitRes × Kids) :=
  match k.table[j]? with
  | some .running => none
  | some (.zombie st) => some (.child j st, { k with table := k.table.set j (.reaped st) })
  | _ => some (.echild, k)

/-! ### Counting -/

theorem running_add_zombies_add_reaped (k : Kids) :
    k.running + k.zombies + k.reaped = k.table.length := by
  unfold running zombies reaped
  induction k.table with
  | nil => rfl
  | cons c r ih =>
    rw [List.countP_cons, List.countP_cons, List.countP_cons, List.length_cons]
    cases c <;> simp only [Child.isRunning, Child.isZombie, Child.isReaped] <;> simp <;> omega

theorem isReaped_fork (k : Kids) (i : Nat) : k.fork.IsReaped i ↔ k.IsReaped i := by
  unfold IsReaped fork
  refine exists_congr fun st => ?_
  by_cases hi : i < k.table.length
  · rw [List.getElem?_append_left hi]
  · rw [List.getElem?_append_right (by omega), List.getElem?_eq_none (l := k.table) (by omega)]
    cases i - k.table.length <;> simp

/-- A running child that ends is not reaped by that, nor is anybody else. -/
theorem isReaped_terminate {k k' : Kids} {j st : Nat} (h : k.terminate j st = some k') (i : Nat) :
    k'.IsReaped i ↔ k.IsReaped i := by
  unfold terminate at h
  split at h
  · next hj =>
    obtain rfl := Option.some.inj h
    unfold IsReaped
    rcases eq_or_ne j i with rfl | hne
    · obtain ⟨hl, _⟩ := List.getElem?_eq_some_iff.mp hj
      simp [hj, List.getElem?_set_self hl]
    · simp [List.getElem?_set_ne hne]
  · cases h

/-- Waiting for a zombie makes it, and nobody else, reaped. -/
theorem isReaped_set {k : Kids} {j st : Nat} (h : k.table[j]? = some (.zombie st)) (i : Nat) :
    IsReaped { k with table := k.table.set j (.reaped st) } i ↔ i = j ∨ k.IsReaped i := by
  unfold IsReaped
  rcases eq_or_ne j i with rfl | hne
  · obtain ⟨hl, _⟩ := List.getElem?_eq_some_iff.mp h
    simp [List.getElem?_set_self hl]
  · simp [List.getElem?_set_ne hne, hne.symm]

theorem fork_counts (k : Kids) :
    k.fork.running = k.running + 1 ∧ k.fork.zombies = k.zombies ∧ k.fork.reaped = k.reaped ∧
      k.fork.table.length = k.table.length + 1 := by
  simp [fork, running, zombies, reaped, Child.isRunning, Child.isZombie, Child.isReaped]

/-- **What the end of a child does.**  It was running, it is a zombie, SIGCHLD is
pending, and nobody else changes. -/
theorem terminate_spec {k k' : Kids} {j st : Nat} (h : k.terminate j st = some k') :
    k.table[j]? = some .running ∧ k'.table = k.table.set j (.zombie st) ∧ k'.pending = true ∧
      k'.running + 1 = k.running ∧ k'.zombies = k.zombies + 1 ∧ k'.reaped = k.reaped := by
  unfold terminate at h
  split at h
  · next hj =>
    obtain rfl := Option.some.inj h
    refine ⟨hj, rfl, rfl, ?_, ?_, ?_⟩
    · exact countP_set_add hj (.zombie st) Child.isRunning
    · exact countP_set_add hj (.zombie st) Child.isZombie
    · exact countP_set_add hj (.zombie st) Child.isReaped
  · cases h

/-- A zombie that is waited for leaves the zombies and joins the reaped. -/
theorem reap_counts {t : List Child} {j st : Nat} (h : t[j]? = some (.zombie st)) :
    (t.set j (.reaped st)).countP Child.isRunning = t.countP Child.isRunning ∧
      (t.set j (.reaped st)).countP Child.isZombie + 1 = t.countP Child.isZombie ∧
      (t.set j (.reaped st)).countP Child.isReaped = t.countP Child.isReaped + 1 :=
  ⟨countP_set_add h (.reaped st) Child.isRunning, countP_set_add h (.reaped st) Child.isZombie,
    countP_set_add h (.reaped st) Child.isReaped⟩

/-- **What `waitpid(-1, .., WNOHANG)` does.**  Either it reaps a zombie, or there is
none and nothing changes. -/
theorem waitAny_spec {k k' : Kids} {j : Nat} {r : WaitRes} (h : k.waitAny j = some (r, k')) :
    (∃ st, r = .child j st ∧ k.table[j]? = some (.zombie st) ∧
        k' = { k with table := k.table.set j (.reaped st) } ∧
        k'.running = k.running ∧ k'.zombies + 1 = k.zombies ∧ k'.reaped = k.reaped + 1) ∨
      ((r = .zero ∨ r = .echild) ∧ k.zombies = 0 ∧ k' = k) := by
  unfold waitAny at h
  split at h
  · next st hj =>
    simp only [Option.some.injEq, Prod.mk.injEq] at h
    obtain ⟨rfl, rfl⟩ := h
    obtain ⟨h1, h2, h3⟩ := reap_counts hj
    exact Or.inl ⟨st, rfl, hj, rfl, h1, h2, h3⟩
  · split at h
    · next hz =>
      simp only [Option.some.injEq, Prod.mk.injEq] at h
      obtain ⟨rfl, rfl⟩ := h
      refine Or.inr ⟨?_, hz, rfl⟩
      split
      · exact Or.inr rfl
      · exact Or.inl rfl
    · cases h

/-- **What the blocking `waitpid(j)` does.**  It reaps child `j`, or it finds that
there is no such child to wait for. -/
theorem waitFor_spec {k k' : Kids} {j : Nat} {r : WaitRes} (h : k.waitFor j = some (r, k')) :
    (∃ st, r = .child j st ∧ k.table[j]? = some (.zombie st) ∧
        k' = { k with table := k.table.set j (.reaped st) }) ∨
      (r = .echild ∧ k' = k ∧ ∀ st, k.table[j]? ≠ some .running ∧
        k.table[j]? ≠ some (.zombie st)) := by
  unfold waitFor at h
  split at h
  · cases h
  · next st hj =>
    simp only [Option.some.injEq, Prod.mk.injEq] at h
    obtain ⟨rfl, rfl⟩ := h
    exact Or.inl ⟨st, rfl, hj, rfl⟩
  · next hr hz =>
    simp only [Option.some.injEq, Prod.mk.injEq] at h
    obtain ⟨rfl, rfl⟩ := h
    exact Or.inr ⟨rfl, rfl, fun st => ⟨hr, hz st⟩⟩

end Kids

end Tlpi.Lib
