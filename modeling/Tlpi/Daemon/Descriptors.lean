import Tlpi.Daemon.Model

/-!
# What a daemon is left with

`becomeDaemon_returns_zero`: in the process that `becomeDaemon` returns 0 in, which is no
session leader and is in a session of its own, a descriptor is open on `/dev/null` if it
is one of the standard three and they were to be reopened, and otherwise on what it was
open on before if it was not to be closed.

Reopening rests on `open` taking the lowest free descriptor: after `close(STDIN_FILENO)`
that is 0, whether or not the loop before has closed anything.
-/

namespace Tlpi.Daemon

open Tlpi.Lib

variable {α : Type}

/-- The descriptors of a daemon, for the flags and the bound of the closing loop. -/
def daemonFds (flags : BitVec 32) (maxfd : Int) (t : FdTable (Desc α)) : FdTable (Desc α) :=
  fun fd =>
    if ¬ isSet flags BD_NO_REOPEN_STD_FDS ∧ fd ≤ STDERR_FILENO then
      some (.opened "/dev/null" O_RDWR)
    else if isSet flags BD_NO_CLOSE_FILES ∨ maxfd ≤ fd then t fd
    else none

theorem closeBelow_apply (t : FdTable (Desc α)) (maxfd : Int) (fd : Nat) :
    closeBelow t maxfd fd = if maxfd ≤ fd then t fd else none := by
  rw [closeBelow, FdTable.closeAll_apply]
  by_cases h : maxfd ≤ fd
  · have hmem : fd ∉ List.range maxfd.toNat := by
      rw [List.mem_range]
      omega
    rw [if_neg hmem, if_pos h]
  · have hmem : fd ∈ List.range maxfd.toNat := by
      rw [List.mem_range]
      omega
    rw [if_pos hmem, if_neg h]

/-- Descriptor 0 has been opened on `a`, and 1 and 2 are copies of it. -/
theorem copied_apply (t : FdTable α) (a : α) (fd : Nat) :
    Function.update (Function.update (Function.update (t.close STDIN_FILENO) STDIN_FILENO (some a))
      STDOUT_FILENO (some a)) STDERR_FILENO (some a) fd =
      if fd ≤ STDERR_FILENO then some a else t fd := by
  match fd with
  | 0 | 1 | 2 => rfl
  | fd + 3 => rfl

/-- After `close(STDIN_FILENO)`, an `open` that returns 0 and two calls of `dup2`. -/
theorem reopenStdFds_eq {t t' : FdTable (Desc α)} {limit : Nat} {openNull dupStdout dupStderr : Bool}
    (h : reopenStdFds t limit openNull dupStdout dupStderr = (t', true)) (fd : Nat) :
    t' fd = if fd ≤ STDERR_FILENO then some (.opened "/dev/null" O_RDWR) else t fd := by
  rw [reopenStdFds] at h
  split at h
  · cases h
  · next i u hopen =>
    split at h
    · cases h
    · next hi =>
      obtain rfl : i = STDIN_FILENO := not_not.mp hi
      split at h
      · cases h
      · next v hout =>
        split at h
        · cases h
        · next w herr =>
          cases h
          obtain ⟨-, hopen⟩ := Option.ite_none_right_eq_some.mp hopen
          obtain ⟨-, hout⟩ := Option.ite_none_right_eq_some.mp hout
          obtain ⟨-, herr⟩ := Option.ite_none_right_eq_some.mp herr
          rw [FdTable.dup2_eq_some herr, FdTable.dup2_eq_some hout,
            (FdTable.openFd_eq_some hopen).2.2.2]
          exact copied_apply t _ fd

/-- After `close(STDIN_FILENO)` it is 0 that `open` returns. -/
theorem openFd_close_stdin (t : FdTable α) {limit : Nat} (hlimit : STDIN_FILENO < limit) (a : α) :
    (t.close STDIN_FILENO).openFd limit a =
      some (STDIN_FILENO, Function.update (t.close STDIN_FILENO) STDIN_FILENO (some a)) := by
  have hfree : (t.close STDIN_FILENO).lowestFree limit = some STDIN_FILENO :=
    FdTable.lowestFree_eq_some.mpr ⟨hlimit, FdTable.close_self .., fun i hi => absurd hi (Nat.not_lt_zero i)⟩
  rw [FdTable.openFd, hfree]
  rfl

theorem reopenStdFds_succeeds (t : FdTable (Desc α)) {limit : Nat} (hlimit : STDERR_FILENO < limit) :
    (reopenStdFds t limit true true true).2 = true := by
  have hstdin : STDIN_FILENO < limit := Nat.lt_trans (by decide) hlimit
  have hstdout : ¬ limit ≤ 1 := Nat.not_le.mpr (Nat.lt_trans (by decide) hlimit)
  have hstderr : ¬ limit ≤ 2 := Nat.not_le.mpr hlimit
  simp only [reopenStdFds, if_true, openFd_close_stdin t hstdin]
  simp [FdTable.dup2, hstdout, hstderr, STDIN_FILENO, STDOUT_FILENO, STDERR_FILENO]

section Return

variable {flags : BitVec 32} {p d : Proc α} {k : Kernel p}

theorem detach_eq (h : detach p k = (d, true)) :
    d.pid ≠ d.sid ∧ d.sid ≠ p.sid ∧ d.fds = p.fds := by
  rw [detach] at h
  split at h
  · cases h
  · next q hq =>
    split at h
    · cases h
    · split at h
      · cases h
      · next r hr =>
        cases h
        exact ⟨k.forkAgain_fresh q r hq hr, (k.fork_fresh q hq).2.2, rfl⟩

theorem settle_eq (flags : BitVec 32) (chdir : Bool) (p : Proc α) :
    (settle flags chdir p).pid = p.pid ∧ (settle flags chdir p).sid = p.sid ∧
      (settle flags chdir p).fds = p.fds := by
  rw [settle]
  split <;> split <;> exact ⟨rfl, rfl, rfl⟩

theorem closeFiles_eq (flags : BitVec 32) (sysconf : BitVec 64) (p : Proc α) :
    (closeFiles flags sysconf p).pid = p.pid ∧ (closeFiles flags sysconf p).sid = p.sid ∧
      ∀ fd, (closeFiles flags sysconf p).fds fd =
        if isSet flags BD_NO_CLOSE_FILES ∨ maxfd sysconf ≤ fd then p.fds fd else none := by
  rw [closeFiles]
  by_cases hkeep : isSet flags BD_NO_CLOSE_FILES
  · rw [if_neg (not_not.mpr hkeep)]
    exact ⟨rfl, rfl, fun fd => (if_pos (Or.inl hkeep)).symm⟩
  · rw [if_pos hkeep]
    refine ⟨rfl, rfl, fun fd => ?_⟩
    show closeBelow p.fds (maxfd sysconf) fd = _
    rw [closeBelow_apply]
    exact if_congr (or_iff_right hkeep).symm rfl rfl

end Return

/-- **What a daemon is left with.**  If `becomeDaemon` returns 0, it does so in a process
that is not a session leader and is in a session that the caller was not in, and whose
descriptors are those of `daemonFds`. -/
theorem becomeDaemon_returns_zero (flags : BitVec 32) (p : Proc α) (k : Kernel p)
    (hret : (becomeDaemon flags p k).2 = 0) :
    (becomeDaemon flags p k).1.pid ≠ (becomeDaemon flags p k).1.sid ∧
      (becomeDaemon flags p k).1.sid ≠ p.sid ∧
      (becomeDaemon flags p k).1.fds = daemonFds flags (maxfd k.sysconf) p.fds := by
  cases hd : detach p k with
  | mk d b =>
    cases b with
    | false =>
      rw [becomeDaemon, hd] at hret
      cases hret
    | true =>
      obtain ⟨hpid, hsid, hfds⟩ := detach_eq hd
      obtain ⟨hpid', hsid', hfds'⟩ := settle_eq flags k.chdir d
      obtain ⟨hpid'', hsid'', hclosed⟩ := closeFiles_eq flags k.sysconf (settle flags k.chdir d)
      rw [← hpid', ← hsid', ← hpid'', ← hsid''] at hpid
      rw [← hsid', ← hsid''] at hsid
      rw [hfds', hfds] at hclosed
      simp only [becomeDaemon, hd] at hret ⊢
      generalize closeFiles flags k.sysconf (settle flags k.chdir d) = e at *
      by_cases hstd : isSet flags BD_NO_REOPEN_STD_FDS
      · rw [if_neg (not_not.mpr hstd)]
        refine ⟨hpid, hsid, funext fun fd => ?_⟩
        have hnot : ¬ (¬ isSet flags BD_NO_REOPEN_STD_FDS ∧ fd ≤ STDERR_FILENO) := fun h => h.1 hstd
        rw [hclosed, daemonFds, if_neg hnot]
      · rw [if_pos hstd] at hret ⊢
        cases hreopen : reopenStdFds e.fds k.limit k.openNull k.dupStdout k.dupStderr with
        | mk t b =>
          cases b with
          | false =>
            rw [hreopen] at hret
            cases hret
          | true =>
            refine ⟨hpid, hsid, funext fun fd => ?_⟩
            show t fd = _
            rw [reopenStdFds_eq hreopen, hclosed, daemonFds]
            exact if_congr (and_iff_right hstd).symm rfl rfl

/-- **When it does return 0**: if all calls succeed and the limit lets the three standard
descriptors be open. -/
theorem becomeDaemon_succeeds (flags : BitVec 32) (p : Proc α) (k : Kernel p) {q r : Nat}
    (hfork : k.fork = some q) (hsetsid : k.setsid = true) (hagain : k.forkAgain = some r)
    (hlimit : STDERR_FILENO < k.limit) (hopen : k.openNull = true) (hout : k.dupStdout = true)
    (herr : k.dupStderr = true) : (becomeDaemon flags p k).2 = 0 := by
  simp only [becomeDaemon, detach, hfork, hsetsid, hagain, not_true, if_false]
  split
  · rw [hopen, hout, herr]
    generalize closeFiles flags k.sysconf _ = e
    have hok := reopenStdFds_succeeds e.fds hlimit
    split
    · rfl
    · next t ht =>
      rw [ht] at hok
      cases hok
  · rfl

/-- A shell's child with descriptors 0 and 5, and a kernel with the limit 1024. -/
def caller : Proc Unit where
  pid := 10
  pgid := 10
  sid := 7
  umask := 0o22
  cwd := "/root"
  fds fd := if fd = 0 ∨ fd = 5 then some (.inherited ()) else none

def kernel : Kernel caller where
  fork := some 11
  setsid := true
  forkAgain := some 12
  chdir := true
  sysconf := 1024
  limit := 1024
  openNull := true
  dupStdout := true
  dupStderr := true
  fork_fresh := by
    rintro q ⟨⟩
    decide
  forkAgain_fresh := by
    rintro q r ⟨⟩ ⟨⟩
    decide

/-- With `BD_NO_CLOSE_FILES`, descriptor 5 stays and the first three are `/dev/null`. -/
theorem becomeDaemon_returns_zero_keeps_five :
    (becomeDaemon BD_NO_CLOSE_FILES caller kernel).2 = 0 ∧
      (becomeDaemon BD_NO_CLOSE_FILES caller kernel).1.sid ≠ 7 ∧
      (becomeDaemon BD_NO_CLOSE_FILES caller kernel).1.fds 1 = some (.opened "/dev/null" O_RDWR) ∧
      (becomeDaemon BD_NO_CLOSE_FILES caller kernel).1.fds 5 = some (.inherited ()) := by
  have hret : (becomeDaemon BD_NO_CLOSE_FILES caller kernel).2 = 0 :=
    becomeDaemon_succeeds BD_NO_CLOSE_FILES caller kernel rfl rfl rfl (by decide) rfl rfl rfl
  obtain ⟨-, hsid, hfds⟩ := becomeDaemon_returns_zero BD_NO_CLOSE_FILES caller kernel hret
  rw [hfds]
  exact ⟨hret, hsid, by decide, by decide⟩

end Tlpi.Daemon
