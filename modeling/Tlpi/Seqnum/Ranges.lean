import Mathlib.Algebra.Ring.Int.Defs
import Tlpi.Seqnum.Model

/-!
# The ranges that are handed out

A response `seqNum` to a request for `seqLen` numbers hands out the integers from `seqNum`
up to, and not including, `seqNum + seqLen`.  The server adds `seqLen` to an `int` and
checks neither its sign nor the sum, and the client sends whatever `atoi` makes of its
argument.

* `ranges_overlap`: three clients that ask for 5, -3 and 5 numbers; the first and the
  third get three numbers in common.
* `ranges_disjoint`: in runs in which `seqNum` never moves backwards, neither by a
  negative length nor by an overflow (`Forward`), no number is handed out twice.
-/

namespace Tlpi.Seqnum

open Tlpi.Lib

/-- The integer `x` is handed out by this response. -/
def Answer.Covers (a : Answer) (x : Int) : Prop :=
  a.seqNum.toInt ≤ x ∧ x < a.seqNum.toInt + a.seqLen.toInt

/-- The request whose length the server is about to add. -/
def ServerPc.adding : ServerPc → Option Request
  | .add _ req => some req
  | _ => none

/-- When the server adds a length, it is not negative, and the sum is an `int`. -/
def Forward (s : State) (e : Event) : Prop :=
  e = .server → ∀ req ∈ s.server.adding,
    0 ≤ req.seqLen.toInt ∧ s.seqNum.toInt + req.seqLen.toInt < 2 ^ 31

instance (s : State) (e : Event) : Decidable (Forward s e) := inferInstanceAs (Decidable (_ → _))

/-- The range ends at or before `n`. -/
def Answer.Before (n : Int) (a : Answer) : Prop := a.seqNum.toInt + a.seqLen.toInt ≤ n

/-- One range lies before the start of the other. -/
def Answer.Precedes (a b : Answer) : Prop := a.Before b.seqNum.toInt

/-- The responses come in order, and what has been added to `seqNum` lies behind it.  A
response whose length has not been added yet starts at `seqNum`. -/
structure RangeInv (s : State) : Prop where
  ordered : s.answers.Pairwise Answer.Precedes
  before : match s.server with
    | .add _ req => ∃ prev, (∀ a ∈ prev, a.Before s.seqNum.toInt) ∧
        (s.answers = prev ∨ ∃ i, s.answers = prev ++ [⟨i, s.seqNum, req.seqLen⟩])
    | _ => ∀ a ∈ s.answers, a.Before s.seqNum.toInt

/-- An addition that is meant to be exact is. -/
theorem toInt_add_of_forward {x y : BitVec 32} (hy : 0 ≤ y.toInt)
    (hxy : x.toInt + y.toInt < 2 ^ 31) : (x + y).toInt = x.toInt + y.toInt := by
  have hx := BitVec.le_toInt x
  rw [BitVec.toInt_add]
  exact Int.bmod_eq_of_le (by omega) (by omega)

variable {cfg : Config} {s s' : State}

/-- A step that leaves `seqNum` and the responses alone, and is not at an addition before
or after. -/
theorem rangeInv_of_eq (h : RangeInv s) (hbefore : ∀ a ∈ s.answers, a.Before s.seqNum.toInt)
    (hseq : s'.seqNum = s.seqNum) (hans : s'.answers = s.answers) : RangeInv s' := by
  refine ⟨by rw [hans]; exact h.ordered, ?_⟩
  split
  · exact ⟨s.answers, by rw [hseq]; exact hbefore, .inl hans⟩
  · rw [hans, hseq]
    exact hbefore

/-- A step of a client. -/
theorem rangeInv_of_server_eq (h : RangeInv s) (hserver : s'.server = s.server)
    (hseq : s'.seqNum = s.seqNum) (hans : s'.answers = s.answers) : RangeInv s' := by
  have hbefore := h.before
  refine ⟨by rw [hans]; exact h.ordered, ?_⟩
  rw [hserver, hseq, hans]
  exact hbefore

theorem rangeInv_stepServer (h : RangeInv s) (hok : Forward s .server)
    (hstep : stepServer cfg s = some s') : RangeInv s' := by
  have hbefore := h.before
  cases hpc : s.server with
  | add ino req =>
    have hok := hok rfl req (by rw [hpc]; rfl)
    simp only [hpc] at hbefore
    simp only [stepServer, hpc, Option.some.injEq] at hstep
    subst hstep
    obtain ⟨prev, hprev, hans⟩ := hbefore
    have hsum := toInt_add_of_forward hok.1 hok.2
    refine ⟨h.ordered, ?_⟩
    intro a ha
    have hold : a.Before s.seqNum.toInt ∨ a.seqNum = s.seqNum ∧ a.seqLen = req.seqLen := by
      rcases hans with hans | ⟨i, hans⟩
      · exact .inl (hprev a (hans ▸ ha))
      · simp only [hans, List.mem_append, List.mem_singleton] at ha
        rcases ha with ha | rfl
        · exact .inl (hprev a ha)
        · exact .inr ⟨rfl, rfl⟩
    simp only [Answer.Before, hsum] at hold ⊢
    rcases hold with hold | ⟨hnum, hlen⟩
    · omega
    · exact Int.le_of_eq (by rw [hnum, hlen])
  | write ino req =>
    simp only [hpc] at hbefore
    simp only [stepServer, hpc] at hstep
    split at hstep
    · cases hstep
      exact rangeInv_of_eq h hbefore rfl rfl
    · split at hstep
      · cases hstep
        refine ⟨?_, s.answers, hbefore, .inr ⟨_, rfl⟩⟩
        rw [List.pairwise_append]
        exact ⟨h.ordered, List.pairwise_singleton .., fun a ha b hb => by
          rw [List.mem_singleton.mp hb]; exact hbefore a ha⟩
      · cases hstep
  | mkfifo | openRd | signal | close =>
    simp only [hpc] at hbefore
    simp only [stepServer, hpc, Option.some.injEq] at hstep
    subst hstep
    exact rangeInv_of_eq h hbefore rfl rfl
  | openingRd n | openDummy | opening ino n req =>
    simp only [hpc] at hbefore
    simp only [stepServer, hpc] at hstep
    split at hstep
    · cases hstep
      exact rangeInv_of_eq h hbefore rfl rfl
    · cases hstep
  | loop =>
    simp only [hpc] at hbefore
    simp only [stepServer, hpc] at hstep
    split at hstep
    · cases hstep
    · cases hstep
      exact rangeInv_of_eq h hbefore rfl rfl
  | handle req =>
    simp only [hpc] at hbefore
    simp only [stepServer, hpc] at hstep
    split at hstep <;> cases hstep <;> exact rangeInv_of_eq h hbefore rfl rfl

theorem rangeInv_step {e : Event} (h : RangeInv s) (hok : Forward s e)
    (hstep : step cfg s e = some s') : RangeInv s' := by
  by_cases he : e = .server
  · subst he
    exact rangeInv_stepServer h hok hstep
  · have hsame := sameServer_step he hstep
    exact rangeInv_of_server_eq h hsame.server hsame.seqNum hsame.answers

theorem rangeInv_init : RangeInv (init cfg) := ⟨List.Pairwise.nil, nofun⟩

/-- **No number twice.**  In every run in which `seqNum` only moves forward, the ranges of
two responses have no integer in common. -/
theorem ranges_disjoint (h : (system cfg).ReachBy Forward s) :
    s.answers.Pairwise fun a b => ∀ x, ¬ (a.Covers x ∧ b.Covers x) := by
  have hinv : RangeInv s := System.ReachBy.invariant rangeInv_init (fun _ _ _ => rangeInv_step) h
  refine hinv.ordered.imp ?_
  intro a b hab x hx
  simp only [Answer.Precedes, Answer.Before, Answer.Covers] at hab hx
  omega

/-- The server's first steps, with client `i` asking for `seqLen` numbers. -/
def firstRequest (i : Nat) (pid seqLen : BitVec 32) : List Event :=
  [.spawn i pid seqLen, .server, .client i, .client i, .server, .client i, .server, .server, .server,
    .client i, .client i, .server, .server, .client i, .server, .server, .client i, .server, .server]

/-- The steps for a later request. -/
def laterRequest (i : Nat) (pid seqLen : BitVec 32) : List Event :=
  [.spawn i pid seqLen, .client i, .client i, .client i, .client i, .client i, .server, .server,
    .client i, .server, .server, .client i, .server, .server]

/-- Two clients that ask for 5 and 3 numbers. -/
theorem ranges_disjoint_five_three :
    ∃ s, (system ⟨4096, false, by decide⟩).execBy Forward (init ⟨4096, false, by decide⟩)
        (firstRequest 0 101 5 ++ laterRequest 1 102 3) = some s ∧
      s.answers = [⟨0, 0, 5⟩, ⟨1, 5, 3⟩] ∧
      s.answers.Pairwise fun a b => ∀ x, ¬ (a.Covers x ∧ b.Covers x) := by
  obtain ⟨s, hs, hans⟩ : ∃ s, (system ⟨4096, false, by decide⟩).execBy Forward
      (init ⟨4096, false, by decide⟩) (firstRequest 0 101 5 ++ laterRequest 1 102 3) = some s ∧
      s.answers = [⟨0, 0, 5⟩, ⟨1, 5, 3⟩] := ⟨_, rfl, rfl⟩
  exact ⟨s, hs, hans, ranges_disjoint (System.reachBy_of_execBy hs)⟩

/-- **Numbers twice.**  Clients ask for 5, -3 and 5 numbers.  The second moves `seqNum`
back to 2, so the numbers 2, 3 and 4 of the first go to the third as well. -/
theorem ranges_overlap :
    ∃ s, (system ⟨4096, false, by decide⟩).exec (init ⟨4096, false, by decide⟩)
        (firstRequest 0 101 5 ++ laterRequest 1 102 (-3) ++ laterRequest 2 103 5) = some s ∧
      s.answers = [⟨0, 0, 5⟩, ⟨1, 5, -3⟩, ⟨2, 2, 5⟩] ∧
      Answer.Covers ⟨0, 0, 5⟩ 2 ∧ Answer.Covers ⟨2, 2, 5⟩ 2 ∧
      ¬ s.answers.Pairwise fun a b => ∀ x, ¬ (a.Covers x ∧ b.Covers x) := by
  obtain ⟨s, hs, hans⟩ : ∃ s, (system ⟨4096, false, by decide⟩).exec (init ⟨4096, false, by decide⟩)
      (firstRequest 0 101 5 ++ laterRequest 1 102 (-3) ++ laterRequest 2 103 5) = some s ∧
      s.answers = [⟨0, 0, 5⟩, ⟨1, 5, -3⟩, ⟨2, 2, 5⟩] := ⟨_, rfl, rfl⟩
  have hfirst : Answer.Covers ⟨0, 0, 5⟩ 2 := by constructor <;> decide
  have hthird : Answer.Covers ⟨2, 2, 5⟩ 2 := by constructor <;> decide
  refine ⟨s, hs, hans, hfirst, hthird, ?_⟩
  rw [hans]
  intro h
  exact (List.pairwise_cons.mp h).1 ⟨2, 2, 5⟩ (by decide) 2 ⟨hfirst, hthird⟩

end Tlpi.Seqnum
