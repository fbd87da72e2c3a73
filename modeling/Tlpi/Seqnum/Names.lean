import Tlpi.Seqnum.Moves

/-!
# Who has which FIFO

Unlike in `Seqnum/Invariant.lean`, calls may fail and signals may come at any time.  What
still holds then is who has which FIFO (`NamesInv`): no two live clients have one PID, a
name leads to the FIFO of the client with that PID, and nobody else has it open for
reading.
-/

namespace Tlpi.Seqnum

open Tlpi.Lib

/-- Client `i` has `ino` open for reading. -/
def Holder (s : State) (i ino : Nat) : Prop := (s.client i).pc.held = .own ino

structure NamesInv (s : State) : Prop where
  dir : DirInv s
  pids : ∀ i j, (s.client i).pc.Live → (s.client j).pc.Live →
    (s.client i).pid = (s.client j).pid → i = j
  named : ∀ i, (s.client i).pc.Owns → ∃ ino, s.dir (s.fifoName i) = some ino
  lt : ∀ i ino, Holder s i ino → ino < s.next
  own : ∀ i ino, Holder s i ino → (s.client i).pc.Owns → s.dir (s.fifoName i) = some ino
  gone : ∀ i ino, Holder s i ino → ¬ (s.client i).pc.Owns → ∀ n, s.dir n ≠ some ino
  holder : ∀ i j ino, Holder s i ino → Holder s j ino → i = j
  readers : ∀ ino < s.next, (s.fifo ino).readers ≤ 1 ∧
    ((s.fifo ino).readers ≠ 0 → ∃ i, Holder s i ino)

variable {cfg : Config} {s s' : State} {i j : Nat}

theorem ClientPc.live_of_held {pc : ClientPc} {ino : Nat} (h : pc.held = .own ino) : pc.Live := by
  constructor <;> rintro rfl <;> cases h

/-- Two live clients have different names. -/
theorem NamesInv.name_ne (h : NamesInv s) (hi : (s.client i).pc.Live) (hj : (s.client j).pc.Live)
    (hne : j ≠ i) : s.fifoName j ≠ s.fifoName i :=
  fun heq => hne (h.pids j i hj hi (clientFifo_injective heq))

/-- Only the client with the name has the FIFO open. -/
theorem NamesInv.holder_eq (h : NamesInv s) {ino : Nat} (hdir : s.dir (s.fifoName i) = some ino)
    (hi : (s.client i).pc.Live) (hj : Holder s j ino) : j = i := by
  by_contra hne
  by_cases howns : (s.client j).pc.Owns
  · have hname := h.dir.inj _ _ _ (h.own j ino hj howns) hdir
    exact h.name_ne hi (ClientPc.live_of_held hj) hne hname
  · exact h.gone j ino hj howns _ hdir

/-- Nobody has the FIFO open that a client has not opened. -/
theorem NamesInv.unread (h : NamesInv s) {ino : Nat} (hi : (s.client i).pc.Live)
    (hheld : ¬ Holder s i ino) (hdir : s.dir (s.fifoName i) = some ino) :
    (s.fifo ino).readers = 0 := by
  by_contra hne
  obtain ⟨j, hj⟩ := (h.readers ino (h.dir.lt _ _ hdir)).2 hne
  have hji := h.holder_eq hdir hi hj
  subst hji
  exact hheld hj

/-- The names of the others lead where they led. -/
theorem NamesInv.dir_of_move (h : NamesInv s) (hmove : Move s i s') (hj : j ≠ i)
    (hlive : (s.client j).pc.Live) : s'.dir (s'.fifoName j) = s.dir (s.fifoName j) := by
  have hname : s'.fifoName j = s.fifoName j := congrArg clientFifo (hmove.pid_eq j)
  rw [hname]
  exact hmove.dir (h.name_ne hmove.live hlive hj)

/-- What is to be shown of client `i` itself when it moves. -/
theorem namesInv_of_move (h : NamesInv s) (hmove : Move s i s') (hdir : DirInv s')
    (hnext : s.next ≤ s'.next)
    (hnamed : (s'.client i).pc.Owns → ∃ ino, s'.dir (s.fifoName i) = some ino)
    (hlt : ∀ ino, Holder s' i ino → ino < s'.next)
    (hown : ∀ ino, Holder s' i ino → (s'.client i).pc.Owns → s'.dir (s.fifoName i) = some ino)
    (hgone : ∀ ino, Holder s' i ino → ¬ (s'.client i).pc.Owns → ∀ n, s'.dir n ≠ some ino)
    (hnew : ∀ ino, s'.dir (s.fifoName i) = some ino → ino < s.next →
      s.dir (s.fifoName i) = some ino)
    (hholder : ∀ ino, Holder s' i ino → Holder s i ino ∨ s.dir (s.fifoName i) = some ino)
    (hreaders : ∀ ino < s'.next, (s'.fifo ino).readers ≤ 1 ∧
      ((s'.fifo ino).readers ≠ 0 → ∃ j, Holder s' j ino)) : NamesInv s' := by
  have hlive := hmove.live
  have hname : s'.fifoName i = s.fifoName i := congrArg clientFifo hmove.pid
  have hback : ∀ j, (s'.client j).pc.Live → (s.client j).pc.Live := by
    intro j hj
    by_cases hji : j = i
    · rw [hji]
      exact hlive
    · rwa [hmove.other hji] at hj
  have hsame : ∀ j ino, j ≠ i → (Holder s' j ino ↔ Holder s j ino) := by
    intro j ino hj
    rw [Holder, Holder, hmove.other hj]
  -- nobody else holds what client `i` has come to hold
  have hunique : ∀ j ino, j ≠ i → Holder s' i ino → ¬ Holder s j ino := by
    intro j ino hj hi hjo
    rcases hholder ino hi with hold | hdir'
    · exact hj (h.holder j i ino hjo hold)
    · exact hj (h.holder_eq hdir' hlive hjo)
  refine ⟨hdir, ?_, ?_, ?_, ?_, ?_, ?_, hreaders⟩
  · intro j k hj hk heq
    rw [hmove.pid_eq, hmove.pid_eq] at heq
    exact h.pids j k (hback j hj) (hback k hk) heq
  · intro j hj
    by_cases hji : j = i
    · subst hji
      rw [hname]
      exact hnamed hj
    · rw [hmove.other hji] at hj
      rw [h.dir_of_move hmove hji hj.live]
      exact h.named j hj
  · intro j ino hj
    by_cases hji : j = i
    · subst hji
      exact hlt ino hj
    · exact Nat.lt_of_lt_of_le (h.lt j ino ((hsame j ino hji).mp hj)) hnext
  · intro j ino hj howns
    by_cases hji : j = i
    · subst hji
      rw [hname]
      exact hown ino hj howns
    · rw [hmove.other hji] at howns
      rw [h.dir_of_move hmove hji howns.live]
      exact h.own j ino ((hsame j ino hji).mp hj) howns
  · intro j ino hj howns n hn
    by_cases hji : j = i
    · subst hji
      exact hgone ino hj howns n hn
    · rw [hmove.other hji] at howns
      have hj' := (hsame j ino hji).mp hj
      by_cases hni : n = s.fifoName i
      · rw [hni] at hn
        exact h.gone j ino hj' howns _ (hnew ino hn (h.lt j ino hj'))
      · rw [hmove.dir hni] at hn
        exact h.gone j ino hj' howns n hn
  · intro j k ino hj hk
    by_cases hji : j = i
    · by_cases hki : k = i
      · rw [hji, hki]
      · subst hji
        exact absurd ((hsame k ino hki).mp hk) (hunique k ino hki hj)
    · by_cases hki : k = i
      · subst hki
        exact absurd ((hsame j ino hji).mp hj) (hunique j ino hji hk)
      · exact h.holder j k ino ((hsame j ino hji).mp hj) ((hsame k ino hki).mp hk)

/-- A move that opens and closes nothing for reading. -/
theorem NamesInv.readers_of_eq (h : NamesInv s) (hmove : Move s i s') (hnext : s'.next = s.next)
    (hfifo : ∀ ino, (s'.fifo ino).readers = (s.fifo ino).readers)
    (hheld : ∀ ino, Holder s i ino → Holder s' i ino) :
    ∀ ino < s'.next, (s'.fifo ino).readers ≤ 1 ∧
      ((s'.fifo ino).readers ≠ 0 → ∃ j, Holder s' j ino) := by
  intro ino hlt
  rw [hnext] at hlt
  obtain ⟨hle, hex⟩ := h.readers ino hlt
  rw [hfifo]
  refine ⟨hle, fun hne => ?_⟩
  obtain ⟨j, hj⟩ := hex hne
  refine ⟨j, ?_⟩
  by_cases hji : j = i
  · subst hji
    exact hheld ino hj
  · rwa [Holder, hmove.other hji]

theorem ClientPc.leave_of_held {pc : ClientPc} {ino : Nat} (h : pc.held = .own ino)
    (howns : ¬ pc.Owns) : pc = .leave (.own ino) := by
  cases pc with
  | unborn | create | dead => cases h
  | leave e =>
    show ClientPc.leave e = _
    rw [← h]
    rfl
  | register | openServer | openingServer | send | closeServer | openOwn | openingOwn | read
  | closeOwn | unlink => exact absurd trivial howns

theorem namesInv_goes (h : NamesInv s) {pc : ClientPc} (hgoes : Goes s i pc) :
    NamesInv (s.setPc i pc) := by
  have hmove : Move s i (s.setPc i pc) := .goes pc hgoes
  have hholder : ∀ ino, Holder (s.setPc i pc) i ino ↔ Holder s i ino := by
    intro ino
    rw [Holder, setPc_pc, hgoes.held]
    rfl
  refine namesInv_of_move h hmove ⟨h.dir.inj, h.dir.lt⟩ (Nat.le_refl _) ?_ ?_ ?_ ?_
    (fun ino hino _ => hino) (fun ino hi => .inl ((hholder ino).mp hi))
    (h.readers_of_eq hmove rfl (fun _ => rfl) fun ino => (hholder ino).mpr)
  · rw [setPc_pc]
    exact fun hpc => (hgoes.owns hpc).elim (h.named i) And.right
  · exact fun ino hi => h.lt i ino ((hholder ino).mp hi)
  · intro ino hi hpc
    rw [setPc_pc] at hpc
    have hold := (hholder ino).mp hi
    rcases hgoes.owns hpc with howns | ⟨hcreate, -⟩
    · exact h.own i ino hold howns
    · rw [Holder, hcreate] at hold
      cases hold
  · intro ino hi hpc n hn
    rw [Holder, setPc_pc] at hi
    rw [setPc_pc] at hpc
    exact hgoes.leave ino (ClientPc.leave_of_held hi hpc)

theorem namesInv_creates (h : NamesInv s) (hpc : (s.client i).pc = .create)
    (hdir : s.dir (s.fifoName i) = none) :
    NamesInv { s.setPc i .register with
      dir := Function.update s.dir (s.fifoName i) (some s.next)
      fifo := Function.update s.fifo s.next .empty
      next := s.next + 1 } := by
  have hmove := Move.creates hpc hdir
  have hheld : ∀ ino, ¬ Holder { s.setPc i .register with
      dir := Function.update s.dir (s.fifoName i) (some s.next)
      fifo := Function.update s.fifo s.next .empty
      next := s.next + 1 } i ino := by
    intro ino hi
    change ((s.setPc i .register).client i).pc.held = _ at hi
    rw [setPc_pc] at hi
    cases hi
  refine namesInv_of_move h hmove (dirInv_create h.dir rfl rfl) (Nat.le_succ _) ?_
    (fun ino hi => absurd hi (hheld ino)) (fun ino hi => absurd hi (hheld ino))
    (fun ino hi => absurd hi (hheld ino)) ?_ (fun ino hi => absurd hi (hheld ino)) ?_
  · exact fun _ => ⟨s.next, Function.update_self ..⟩
  · intro ino hino hlt
    change Function.update s.dir (s.fifoName i) (some s.next) (s.fifoName i) = some ino at hino
    rw [Function.update_self, Option.some.injEq] at hino
    omega
  · intro ino hlt
    change ino < s.next + 1 at hlt
    show (Function.update s.fifo s.next .empty ino).readers ≤ 1 ∧
      ((Function.update s.fifo s.next .empty ino).readers ≠ 0 → _)
    by_cases hino : ino = s.next
    · rw [hino, Function.update_self]
      exact ⟨Nat.zero_le _, fun hne => absurd rfl hne⟩
    · rw [Function.update_of_ne hino]
      obtain ⟨hle, hex⟩ := h.readers ino (by omega)
      refine ⟨hle, fun hne => ?_⟩
      obtain ⟨j, hj⟩ := hex hne
      have hji : j ≠ i := by
        rintro rfl
        rw [Holder, hpc] at hj
        cases hj
      exact ⟨j, by rwa [Holder, hmove.other hji]⟩

/-- A move of a client that has not opened its FIFO. -/
theorem namesInv_of_unheld (h : NamesInv s) (hmove : Move s i s') (hdir : s'.dir = s.dir)
    (hnext : s'.next = s.next) (hfifo : s'.fifo = s.fifo)
    (hheld : ∀ ino, ¬ Holder s i ino) (hheld' : ∀ ino, ¬ Holder s' i ino)
    (howns : (s.client i).pc.Owns) : NamesInv s' := by
  refine namesInv_of_move h hmove ?_ (Nat.le_of_eq hnext.symm) ?_
    (fun ino hi => absurd hi (hheld' ino)) (fun ino hi => absurd hi (hheld' ino))
    (fun ino hi => absurd hi (hheld' ino)) ?_ (fun ino hi => absurd hi (hheld' ino))
    (h.readers_of_eq hmove hnext (fun _ => by rw [hfifo]) fun ino hi => absurd hi (hheld ino))
  · constructor
    · rw [hdir]
      exact h.dir.inj
    · rw [hdir, hnext]
      exact h.dir.lt
  · intro _
    rw [hdir]
    exact h.named i howns
  · intro ino hino _
    rwa [hdir] at hino

theorem namesInv_opens (h : NamesInv s) {ino : Nat} (hpc : (s.client i).pc = .openOwn)
    (hdir : s.dir (s.fifoName i) = some ino) {pc : ClientPc} (hheld : pc.held = .own ino)
    (howns : pc.Owns) (hmove : Move s i ((s.setFifo ino (s.fifo ino).openRd).setPc i pc)) :
    NamesInv ((s.setFifo ino (s.fifo ino).openRd).setPc i pc) := by
  have hlt := h.dir.lt _ _ hdir
  have hnone : ∀ k, ¬ Holder s i k := by
    intro k hk
    rw [Holder, hpc] at hk
    cases hk
  have hself : ∀ k, Holder ((s.setFifo ino (s.fifo ino).openRd).setPc i pc) i k → k = ino := by
    intro k hk
    rw [Holder, setPc_pc, hheld, Held.own.injEq] at hk
    exact hk.symm
  have hzero : (s.fifo ino).readers = 0 := h.unread hmove.live (hnone ino) hdir
  refine namesInv_of_move h hmove ⟨h.dir.inj, h.dir.lt⟩ (Nat.le_refl _) (fun _ => ⟨ino, hdir⟩)
    ?_ ?_ ?_ (fun k hk _ => hk) ?_ ?_
  · intro k hk
    rw [hself k hk]
    exact hlt
  · intro k hk _
    rw [hself k hk]
    exact hdir
  · intro k hk hno
    rw [setPc_pc] at hno
    exact absurd howns hno
  · intro k hk
    rw [hself k hk]
    exact .inr hdir
  · intro k hk
    show (Function.update s.fifo ino (s.fifo ino).openRd k).readers ≤ 1 ∧
      ((Function.update s.fifo ino (s.fifo ino).openRd k).readers ≠ 0 → _)
    by_cases hkino : k = ino
    · rw [hkino, Function.update_self]
      refine ⟨?_, fun _ => ⟨i, ?_⟩⟩
      · show (s.fifo ino).readers + 1 ≤ 1
        omega
      · rw [Holder, setPc_pc, hheld]
    · rw [Function.update_of_ne hkino]
      obtain ⟨hle, hex⟩ := h.readers k hk
      refine ⟨hle, fun hne => ?_⟩
      obtain ⟨j, hj⟩ := hex hne
      have hji : j ≠ i := by
        rintro rfl
        exact hnone k hj
      exact ⟨j, by rwa [Holder, hmove.other hji]⟩

theorem namesInv_reads (h : NamesInv s) {ino : Nat} {c : Client} (hpc : (s.client i).pc = .read ino)
    (hc : c.pc = .closeOwn ino ∨ c.pc = .unlink (.own ino))
    (hmove : Move s i { s.setFifo ino ((s.fifo ino).drop 4) with
      client := Function.update s.client i c }) :
    NamesInv { s.setFifo ino ((s.fifo ino).drop 4) with
      client := Function.update s.client i c } := by
  have hold : Holder s i ino := by
    rw [Holder, hpc]
    rfl
  have howns : (s.client i).pc.Owns := by
    rw [hpc]
    trivial
  have hdir := h.own i ino hold howns
  have hheld : c.pc.held = .own ino ∧ c.pc.Owns := by
    rcases hc with hc | hc <;> rw [hc] <;> exact ⟨rfl, trivial⟩
  have hholder : ∀ k, Holder { s.setFifo ino ((s.fifo ino).drop 4) with
      client := Function.update s.client i c } i k ↔ k = ino := by
    intro k
    show (Function.update s.client i c i).pc.held = _ ↔ _
    rw [Function.update_self, hheld.1, Held.own.injEq]
    exact eq_comm
  refine namesInv_of_move h hmove ⟨h.dir.inj, h.dir.lt⟩ (Nat.le_refl _) (fun _ => ⟨ino, hdir⟩)
    ?_ ?_ ?_ (fun k hk _ => hk) ?_ (h.readers_of_eq hmove rfl ?_ ?_)
  · intro k hk
    rw [(hholder k).mp hk]
    exact h.lt i ino hold
  · intro k hk _
    rw [(hholder k).mp hk]
    exact hdir
  · intro k hk hno
    refine absurd ?_ hno
    show (Function.update s.client i c i).pc.Owns
    rw [Function.update_self]
    exact hheld.2
  · intro k hk
    rw [(hholder k).mp hk]
    exact .inl hold
  · exact field_update Fifo.readers rfl
  · intro k hk
    rw [Holder, hpc, ClientPc.held, Held.own.injEq] at hk
    exact (hholder k).mpr hk.symm

theorem namesInv_unlinks (h : NamesInv s) {e : Held} (hpc : (s.client i).pc = .unlink e) :
    NamesInv { s.setPc i (.leave e) with dir := Function.update s.dir (s.fifoName i) none } := by
  have hmove := Move.unlinks e hpc
  have howns : (s.client i).pc.Owns := by
    rw [hpc]
    trivial
  have hholder : ∀ ino, Holder { s.setPc i (.leave e) with
      dir := Function.update s.dir (s.fifoName i) none } i ino ↔ Holder s i ino := by
    intro ino
    show ((s.setPc i (.leave e)).client i).pc.held = _ ↔ _
    rw [setPc_pc, Holder, hpc]
    rfl
  have hno : ¬ (ClientPc.leave e).Owns := id
  refine namesInv_of_move h hmove (dirInv_unlink h.dir _ rfl rfl) (Nat.le_refl _) ?_ ?_ ?_ ?_ ?_
    (fun ino hi => .inl ((hholder ino).mp hi))
    (h.readers_of_eq hmove rfl (fun _ => rfl) fun ino => (hholder ino).mpr)
  · intro hleave
    change ((s.setPc i (.leave e)).client i).pc.Owns at hleave
    rw [setPc_pc] at hleave
    exact absurd hleave hno
  · exact fun ino hi => h.lt i ino ((hholder ino).mp hi)
  · intro ino _ hleave
    change ((s.setPc i (.leave e)).client i).pc.Owns at hleave
    rw [setPc_pc] at hleave
    exact absurd hleave hno
  · -- the name that led to it is the one that is removed
    intro ino hi _ n hn
    change Function.update s.dir (s.fifoName i) none n = some ino at hn
    by_cases hni : n = s.fifoName i
    · rw [hni, Function.update_self] at hn
      cases hn
    · rw [Function.update_of_ne hni] at hn
      exact hni (h.dir.inj _ _ _ hn (h.own i ino ((hholder ino).mp hi) howns))
  · intro ino hino
    change Function.update s.dir (s.fifoName i) none (s.fifoName i) = some ino at hino
    rw [Function.update_self] at hino
    cases hino

/-- What remains open for reading when client `i` has closed what it had. -/
theorem NamesInv.readers_release (h : NamesInv s) {ino : Nat} (hlt : ino < s.next) :
    ((s.release (s.client i).pc.held).fifo ino).readers ≤ 1 ∧
      (((s.release (s.client i).pc.held).fifo ino).readers ≠ 0 → ∃ j, j ≠ i ∧ Holder s j ino) := by
  obtain ⟨hle, hex⟩ := h.readers ino hlt
  have hkeep : ¬ Holder s i ino → (s.fifo ino).readers ≠ 0 → ∃ j, j ≠ i ∧ Holder s j ino := by
    intro hno hne
    obtain ⟨j, hj⟩ := hex hne
    refine ⟨j, ?_, hj⟩
    rintro rfl
    exact hno hj
  cases hheld : (s.client i).pc.held with
  | none | server =>
    refine ⟨hle, hkeep fun hi => ?_⟩
    rw [Holder, hheld] at hi
    cases hi
  | own k =>
    show (Function.update s.fifo k (s.fifo k).closeRd ino).readers ≤ 1 ∧
      ((Function.update s.fifo k (s.fifo k).closeRd ino).readers ≠ 0 → _)
    by_cases hk : ino = k
    · rw [← hk, Function.update_self, Fifo.closeRd, Fifo.discard_readers]
      refine ⟨by show _ - 1 ≤ 1; omega, fun hne => absurd ?_ hne⟩
      show (s.fifo ino).readers - 1 = 0
      omega
    · rw [Function.update_of_ne hk]
      refine ⟨hle, hkeep fun hi => hk ?_⟩
      rw [Holder, hheld, Held.own.injEq] at hi
      exact hi.symm

theorem namesInv_releases (h : NamesInv s) {pc : ClientPc} (hrel : Releases (s.client i).pc pc) :
    NamesInv ((s.release (s.client i).pc.held).setPc i pc) := by
  have hmove := Move.releases pc hrel
  have hdir : ((s.release (s.client i).pc.held).setPc i pc).dir = s.dir := release_dir ..
  have hnext : ((s.release (s.client i).pc.held).setPc i pc).next = s.next := release_next ..
  have hheld : ∀ ino, ¬ Holder ((s.release (s.client i).pc.held).setPc i pc) i ino := by
    intro ino hi
    rw [Holder, setPc_pc, hrel.held] at hi
    cases hi
  refine namesInv_of_move h hmove ?_ (Nat.le_of_eq hnext.symm) ?_
    (fun ino hi => absurd hi (hheld ino)) (fun ino hi => absurd hi (hheld ino))
    (fun ino hi => absurd hi (hheld ino)) ?_ (fun ino hi => absurd hi (hheld ino)) ?_
  · constructor
    · rw [hdir]
      exact h.dir.inj
    · rw [hdir, hnext]
      exact h.dir.lt
  · intro howns
    rw [setPc_pc] at howns
    rw [hdir]
    exact h.named i (hrel.owns howns)
  · intro ino hino _
    rwa [hdir] at hino
  · intro ino hlt
    rw [hnext] at hlt
    obtain ⟨hle, hex⟩ := h.readers_release hlt (i := i)
    refine ⟨hle, fun hne => ?_⟩
    obtain ⟨j, hji, hj⟩ := hex hne
    exact ⟨j, by rwa [Holder, hmove.other hji]⟩

/-- **Who has which FIFO is kept by every move.** -/
theorem namesInv_move (h : NamesInv s) (hmove : Move s i s') : NamesInv s' := by
  cases hmove with
  | goes pc hgoes => exact namesInv_goes h hgoes
  | creates hpc hdir => exact namesInv_creates h hpc hdir
  | connects hpc =>
    refine namesInv_of_unheld h (.connects hpc) rfl rfl rfl ?_ ?_ (by rw [hpc]; trivial)
    · intro ino hi
      rw [Holder, hpc] at hi
      cases hi
    · intro ino hi
      change ((s.setPc i _).client i).pc.held = _ at hi
      rw [setPc_pc] at hi
      split at hi <;> cases hi
  | sends hpc hreaders =>
    refine namesInv_of_unheld h (.sends hpc hreaders) rfl rfl rfl ?_ ?_ (by rw [hpc]; trivial)
    · intro ino hi
      rw [Holder, hpc] at hi
      cases hi
    · intro ino hi
      change ((s.setPc i _).client i).pc.held = _ at hi
      rw [setPc_pc] at hi
      cases hi
  | releases pc hrel => exact namesInv_releases h hrel
  | opens ino hpc hdir =>
    refine namesInv_opens h hpc hdir ?_ ?_ (.opens ino hpc hdir)
    · split <;> rfl
    · split <;> trivial
  | reads ino c hpc hreq hc => exact namesInv_reads h hpc hc (.reads ino c hpc hreq hc)
  | unlinks e hpc => exact namesInv_unlinks h hpc

theorem namesInv_spawn (h : NamesInv s) {pid seqLen : BitVec 32}
    (hpc : (s.client i).pc = .unborn) (hfree : Free s pid) :
    NamesInv (spawn s i pid seqLen) := by
  have hself : (spawn s i pid seqLen).client i = ⟨pid, seqLen, .create, none⟩ :=
    Function.update_self ..
  have hother : ∀ j, j ≠ i → (spawn s i pid seqLen).client j = s.client j :=
    fun j hj => Function.update_of_ne hj ..
  have hholder : ∀ j ino, Holder (spawn s i pid seqLen) j ino → j ≠ i ∧ Holder s j ino := by
    intro j ino hj
    have hji : j ≠ i := by
      rintro rfl
      rw [Holder, hself] at hj
      cases hj
    rw [Holder, hother j hji] at hj
    exact ⟨hji, hj⟩
  have hname : ∀ j, j ≠ i → (spawn s i pid seqLen).fifoName j = s.fifoName j :=
    fun j hj => by rw [State.fifoName, hother j hj]; rfl
  refine ⟨⟨h.dir.inj, h.dir.lt⟩, ?_, ?_, ?_, ?_, ?_, ?_, ?_⟩
  · exact pids_spawn h.pids hfree
  · intro j hj
    have hji : j ≠ i := by
      rintro rfl
      rw [hself] at hj
      exact hj
    rw [hother j hji] at hj
    rw [hname j hji]
    exact h.named j hj
  · exact fun j ino hj => h.lt j ino (hholder j ino hj).2
  · intro j ino hj howns
    obtain ⟨hji, hj⟩ := hholder j ino hj
    rw [hother j hji] at howns
    rw [hname j hji]
    exact h.own j ino hj howns
  · intro j ino hj howns
    obtain ⟨hji, hj⟩ := hholder j ino hj
    rw [hother j hji] at howns
    exact h.gone j ino hj howns
  · exact fun j k ino hj hk => h.holder j k ino (hholder j ino hj).2 (hholder k ino hk).2
  · intro ino hlt
    obtain ⟨hle, hex⟩ := h.readers ino hlt
    refine ⟨hle, fun hne => ?_⟩
    obtain ⟨j, hj⟩ := hex hne
    have hji : j ≠ i := by
      rintro rfl
      rw [Holder, hpc] at hj
      cases hj
    exact ⟨j, by rwa [Holder, hother j hji]⟩

/-- The server opens no FIFO of a client for reading. -/
theorem namesInv_of_server (h : NamesInv s) (hclient : s'.client = s.client)
    (hdir : s'.dir = s.dir) (hnext : s'.next = s.next)
    (hreaders : ∀ ino, (s'.fifo ino).readers = (s.fifo ino).readers) : NamesInv s' := by
  have hholder : Holder s' = Holder s := by
    funext j ino
    rw [Holder, hclient]
    rfl
  have hname : s'.fifoName = s.fifoName := by
    funext j
    rw [State.fifoName, hclient]
    rfl
  refine ⟨⟨?_, ?_⟩, ?_, ?_, ?_, ?_, ?_, ?_, ?_⟩
  · rw [hdir]
    exact h.dir.inj
  · rw [hdir, hnext]
    exact h.dir.lt
  · rw [hclient]
    exact h.pids
  · rw [hclient, hdir, hname]
    exact h.named
  · rw [hholder, hnext]
    exact h.lt
  · rw [hholder, hclient, hdir, hname]
    exact h.own
  · rw [hholder, hclient, hdir]
    exact h.gone
  · rw [hholder]
    exact h.holder
  · intro ino hlt
    rw [hnext] at hlt
    rw [hreaders, hholder]
    exact h.readers ino hlt

theorem namesInv_init : NamesInv (init cfg) := by
  have hlive : ∀ i, ¬ ((init cfg).client i).pc.Live := fun _ hi => hi.1 rfl
  refine ⟨⟨nofun, nofun⟩, fun i _ hi => absurd hi (hlive i), fun i hi => absurd hi.live (hlive i),
    ?_, ?_, ?_, ?_, nofun⟩
  · exact fun i ino hi => absurd (ClientPc.live_of_held hi) (hlive i)
  · exact fun i ino hi => absurd (ClientPc.live_of_held hi) (hlive i)
  · exact fun i ino hi => absurd (ClientPc.live_of_held hi) (hlive i)
  · exact fun i _ ino hi => absurd (ClientPc.live_of_held hi) (hlive i)

end Tlpi.Seqnum
