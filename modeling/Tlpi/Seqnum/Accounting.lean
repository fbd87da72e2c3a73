import Mathlib.Algebra.Ring.Int.Defs
import Tlpi.Seqnum.Model

/-!
# The server's account

The loop of `chapter44/fifo_seqnum_server.c` on its own: what the calls of a pass come to,
the `read` of a request, the `open` of the client's FIFO, the `write` and the `close`, is
given, and the pass makes of it a new `seqNum` and perhaps a response.

* `serve_accounts`: the number that goes with a request whose FIFO was opened is the sum
  of the lengths of all earlier such requests, written to their clients or not, and a
  request whose FIFO was not opened, or that was not read completely, might as well not
  have come.
* `exists_passes`: in every run of the server among its clients, the number it is at and
  the responses it has written are those of some list of passes.
-/

namespace Tlpi.Seqnum

open Tlpi.Lib

/-- What the calls of one pass through the loop come to: `none` and `false` are `-1`, and
`write` is the number of bytes it has taken. -/
structure Pass where
  read : Option Bytes
  opens : Bool
  write : Option Nat
  closes : Bool
  deriving DecidableEq

/-- A response that was written to a client's FIFO, or should have been. -/
structure Reply where
  req : Request
  seqNum : BitVec 32
  written : Bool
  closed : Bool
  deriving DecidableEq

/-- `sizeof(struct request)`. -/
def requestSize : Nat := 8

/-- `sizeof(struct response)`. -/
def responseSize : Nat := 4

/-- One pass through `for (;;)`: `seqNum` after it, and the response. -/
def pass (seqNum : BitVec 32) (a : Pass) : BitVec 32 × Option Reply :=
  match a.read with
  | none => (seqNum, none)
  | some b =>
      if b.length ≠ requestSize then (seqNum, none)
      else
        let req := Request.decode b
        if ¬ a.opens then (seqNum, none)
        else
          let written := a.write = some responseSize
          (seqNum + req.seqLen, some ⟨req, seqNum, written, a.closes⟩)

/-- The passes one after another: `seqNum` after them, and the responses. -/
def serve (seqNum : BitVec 32) : List Pass → BitVec 32 × List Reply
  | [] => (seqNum, [])
  | a :: as =>
      let (seqNum, reply) := pass seqNum a
      let (seqNum, replies) := serve seqNum as
      (seqNum, reply.toList ++ replies)

/-- The request of a pass that has read one and has opened its client's FIFO. -/
def Pass.opened (a : Pass) : Option Request :=
  (a.read.filter fun b => b.length = requestSize ∧ a.opens).map Request.decode

/-- The sum of the lengths that were asked for, in passes whose FIFO was opened. -/
def granted (as : List Pass) : Int := ((as.filterMap Pass.opened).map fun req => req.seqLen.toInt).sum

section Serve

variable {seqNum : BitVec 32} {a : Pass} {req : Request}

theorem pass_of_opened (h : a.opened = some req) :
    pass seqNum a =
      (seqNum + req.seqLen, some ⟨req, seqNum, a.write = some responseSize, a.closes⟩) := by
  obtain ⟨b, hb, rfl⟩ := Option.map_eq_some_iff.mp h
  obtain ⟨hread, hok⟩ := Option.filter_eq_some_iff.mp hb
  obtain ⟨hlen, hopens⟩ := of_decide_eq_true hok
  simp only [pass, hread, hlen, hopens, ne_eq, not_true, if_false]

theorem pass_of_not_opened (h : a.opened = none) : pass seqNum a = (seqNum, none) := by
  rw [Pass.opened, Option.map_eq_none_iff, Option.filter_eq_none_iff] at h
  rw [pass]
  split
  · rfl
  · next b hread =>
    split
    · rfl
    · next hlen =>
      split
      · rfl
      · next hopens => exact absurd (decide_eq_true ⟨not_not.mp hlen, not_not.mp hopens⟩) (h b hread)

theorem serve_cons_of_opened (h : a.opened = some req) (as : List Pass) :
    serve seqNum (a :: as) =
      ((serve (seqNum + req.seqLen) as).1,
        ⟨req, seqNum, a.write = some responseSize, a.closes⟩ :: (serve (seqNum + req.seqLen) as).2) := by
  rw [serve, pass_of_opened h]
  rfl

theorem serve_cons_of_not_opened (h : a.opened = none) (as : List Pass) :
    serve seqNum (a :: as) = serve seqNum as := by
  rw [serve, pass_of_not_opened h]
  rfl

theorem serve_append (as bs : List Pass) :
    serve seqNum (as ++ bs) =
      ((serve (serve seqNum as).1 bs).1, (serve seqNum as).2 ++ (serve (serve seqNum as).1 bs).2) := by
  induction as generalizing seqNum with
  | nil => rfl
  | cons a as ih =>
    rw [List.cons_append]
    cases h : a.opened with
    | none => rw [serve_cons_of_not_opened h, serve_cons_of_not_opened h, ih]
    | some req =>
      rw [serve_cons_of_opened h, serve_cons_of_opened h, ih]
      rfl

theorem length_serve (seqNum : BitVec 32) (as : List Pass) :
    (serve seqNum as).2.length = (as.filterMap Pass.opened).length := by
  induction as generalizing seqNum with
  | nil => rfl
  | cons a as ih =>
    cases h : a.opened with
    | none => rw [serve_cons_of_not_opened h, List.filterMap_cons_none h, ih]
    | some req =>
      rw [serve_cons_of_opened h, List.filterMap_cons_some h, List.length_cons, List.length_cons, ih]

/-- The number the server has come to. -/
theorem serve_fst (seqNum : BitVec 32) (as : List Pass) :
    (serve seqNum as).1 = seqNum + BitVec.ofInt 32 (granted as) := by
  induction as generalizing seqNum with
  | nil => exact (BitVec.add_zero seqNum).symm
  | cons a as ih =>
    cases h : a.opened with
    | none => rw [serve_cons_of_not_opened h, ih, granted, granted, List.filterMap_cons_none h]
    | some req =>
      have hgranted : granted (a :: as) = req.seqLen.toInt + granted as := by
        rw [granted, List.filterMap_cons_some h, List.map_cons, List.sum_cons, granted]
      rw [serve_cons_of_opened h, hgranted, BitVec.ofInt_add, BitVec.ofInt_toInt, ← BitVec.add_assoc]
      exact ih _

end Serve

/-- **The server's account.**  For a pass after any others, `before`, and before any
others, `after`: if it has read a request and has opened the FIFO, its response is the
next one, with the sum of the lengths granted before, modulo `2^32`; otherwise all is as
if the pass had not been. -/
theorem serve_accounts (before after : List Pass) (a : Pass) :
    (∀ req, a.opened = some req →
      (serve 0 (before ++ a :: after)).2[(before.filterMap Pass.opened).length]? =
        some ⟨req, BitVec.ofInt 32 (granted before), a.write = some responseSize, a.closes⟩) ∧
    (a.opened = none → serve 0 (before ++ a :: after) = serve 0 (before ++ after)) := by
  constructor
  · intro req h
    have hnum : (serve 0 before).1 = BitVec.ofInt 32 (granted before) := by
      rw [serve_fst]
      exact BitVec.zero_add _
    rw [serve_append, serve_cons_of_opened h, hnum, ← length_serve 0 before,
      List.getElem?_append_right (Nat.le_refl _), Nat.sub_self]
    rfl
  · intro h
    rw [serve_append, serve_append, serve_cons_of_not_opened h]

/-- A request for 5 numbers whose write fails, an incomplete read, and a request for 3. -/
theorem serve_accounts_five_three :
    (serve 0 ([⟨some (Request.encode ⟨1, 5⟩), true, none, true⟩, ⟨some [], true, none, true⟩] ++
      ⟨some (Request.encode ⟨2, 3⟩), true, some 4, true⟩ :: [])).2[1]? =
      some ⟨⟨2, 3⟩, 5, true, true⟩ :=
  (serve_accounts _ _ _).1 ⟨2, 3⟩ (by decide)

/-! ### The server among its clients -/

/-- The responses that were written, each with the length that was asked for. -/
def written (replies : List Reply) : List (BitVec 32 × BitVec 32) :=
  (replies.filter Reply.written).map fun r => (r.seqNum, r.req.seqLen)

/-- The same of the responses that the record of a run has. -/
def State.written (s : State) : List (BitVec 32 × BitVec 32) :=
  s.answers.map fun a => (a.seqNum, a.seqLen)

/-- The passes that are behind the server.  The pass that is about to add its length may
have written its response. -/
def Account (s : State) (as : List Pass) : Prop :=
  (serve 0 as).1 = s.seqNum ∧
    match s.server with
    | .add _ req => s.written = written (serve 0 as).2 ∨
        s.written = written (serve 0 as).2 ++ [(s.seqNum, req.seqLen)]
    | _ => s.written = written (serve 0 as).2

section Run

variable {cfg : Config} {s s' : State} {as : List Pass}

theorem account_of_client (h : Account s as) (hsame : SameServer s s') : Account s' as := by
  have hwritten : s'.written = s.written := by rw [State.written, State.written, hsame.answers]
  rw [Account, hsame.server, hsame.seqNum, hwritten]
  exact h

/-- A step of the server that neither adds nor writes, from a place that is not `add`. -/
theorem account_of_eq (hnum : (serve 0 as).1 = s.seqNum) (h : s.written = written (serve 0 as).2)
    (hseq : s'.seqNum = s.seqNum) (hans : s'.answers = s.answers) : Account s' as := by
  have hwritten : s'.written = s.written := by rw [State.written, State.written, hans]
  refine ⟨by rw [hseq]; exact hnum, ?_⟩
  split
  · exact .inl (hwritten.trans h)
  · exact hwritten.trans h

/-- The pass of a request whose FIFO the server has opened. -/
def passOf (req : Request) (w : Bool) : Pass :=
  ⟨some req.encode, true, if w then some responseSize else none, true⟩

theorem serve_passOf (req : Request) (w : Bool) :
    (serve 0 (as ++ [passOf req w])).1 = (serve 0 as).1 + req.seqLen ∧
      written (serve 0 (as ++ [passOf req w])).2 =
        written (serve 0 as).2 ++ if w then [((serve 0 as).1, req.seqLen)] else [] := by
  have hopened : (passOf req w).opened = some req := by
    simp [Pass.opened, passOf, Option.filter, requestSize]
  rw [serve_append, serve_cons_of_opened hopened]
  refine ⟨rfl, ?_⟩
  rw [written, List.filter_append, List.map_append]
  cases w <;> rfl

theorem account_stepServer (h : Account s as) (hstep : stepServer cfg s = some s') :
    ∃ bs, Account s' bs := by
  obtain ⟨hnum, hwritten⟩ := h
  cases hpc : s.server with
  | add ino req =>
    simp only [hpc] at hwritten
    simp only [stepServer, hpc, Option.some.injEq] at hstep
    subst hstep
    rcases hwritten with hw | hw
    · obtain ⟨h1, h2⟩ := @serve_passOf as req false
      refine ⟨as ++ [passOf req false], by rw [h1, hnum], ?_⟩
      show s.written = _
      rw [h2, hw]
      exact (List.append_nil _).symm
    · obtain ⟨h1, h2⟩ := @serve_passOf as req true
      refine ⟨as ++ [passOf req true], by rw [h1, hnum], ?_⟩
      show s.written = _
      rw [h2, hw, hnum]
      rfl
  | write ino req =>
    simp only [hpc] at hwritten
    simp only [stepServer, hpc] at hstep
    refine ⟨as, ?_⟩
    split at hstep
    · cases hstep
      exact account_of_eq hnum hwritten rfl rfl
    · split at hstep
      · cases hstep
        refine ⟨hnum, .inr ?_⟩
        rw [← hwritten, State.written, List.map_append]
        rfl
      · cases hstep
  | mkfifo | openRd | signal | close =>
    simp only [hpc] at hwritten
    simp only [stepServer, hpc, Option.some.injEq] at hstep
    subst hstep
    exact ⟨as, account_of_eq hnum hwritten rfl rfl⟩
  | openingRd n | openDummy | loop | handle req | opening ino n req =>
    simp only [hpc] at hwritten
    simp only [stepServer, hpc] at hstep
    split at hstep <;> cases hstep <;> exact ⟨as, account_of_eq hnum hwritten rfl rfl⟩

/-- **The loop among its clients.**  Whatever the clients do, the server's number and the
responses it has written are those of a list of passes. -/
theorem exists_passes (h : (system cfg).Reach s) : ∃ as, Account s as := by
  refine System.Reach.invariant (I := fun s => ∃ as, Account s as) ⟨[], rfl, rfl⟩ ?_ h
  rintro s e s' ⟨as, has⟩ hstep
  by_cases he : e = .server
  · subst he
    exact account_stepServer has hstep
  · exact ⟨as, account_of_client has (sameServer_step he hstep)⟩

end Run

end Tlpi.Seqnum
