import Tlpi.Lib.Fgets
import Tlpi.Lib.Stream

/-!
# `readLine` and `readLineBuf`

`sockets/read_line.c` reads a line byte by byte, `sockets/read_line_buf.c` reads blocks into a
buffer of its own and takes the bytes from there.  Both discard what does not fit in the
caller's buffer.  `readLine` keeps one byte for the terminator, and goes on after an
interruption; `readLineBuf` does neither.

* `readLine_spec`, `readLineBuf_spec`: what a call takes and stores.
* `readLineBuf_eq_readLine`: call after call both give the lines of the input, however the
  transfers are cut.
-/

namespace Tlpi.Sockets

open Tlpi.Lib

/-- What a call returns, what it has stored, and whether it has put a terminator behind that. -/
structure LineRet where
  ret : Int
  buf : Bytes
  nul : Bool
  deriving DecidableEq, Repr

/-- The loop of `readLine`, with the bytes stored; `totRead` is their number. -/
def readLineLoop (n : Nat) (buf : Bytes) (s : Source) : Option (LineRet × Source) :=
  match h : s.read 1 with
  | none => none
  | some (.eintr, s') => readLineLoop n buf s'
  | some (.error, s') => some (⟨-1, buf, false⟩, s')
  | some (.got [], s') =>
      if buf = [] then some (⟨0, buf, false⟩, s') else some (⟨buf.length, buf, true⟩, s')
  | some (.got (ch :: _), s') =>
      let buf' := if buf.length < n - 1 then buf ++ [ch] else buf
      if ch = 10 then some (⟨buf'.length, buf', true⟩, s') else readLineLoop n buf' s'
termination_by s.plan.length
decreasing_by
  · exact Source.length_plan_of_read h
  · exact Source.length_plan_of_read h

/-- `readLine(fd, buffer, n)`, where `buffer` is not `NULL`. -/
def readLine (n : Nat) (s : Source) : Option (LineRet × Source) :=
  if n = 0 then some (⟨-1, [], false⟩, s) else readLineLoop n [] s

/-- `struct ReadLineBuf`; `src` is what `fd` stands for. -/
structure ReadLineBuf where
  src : Source
  buf : Bytes
  next : Nat
  len : Int
  deriving DecidableEq

def readLineBufInit (RL_MAX_BUF : Nat) (src : Source) : ReadLineBuf :=
  ⟨src, List.replicate RL_MAX_BUF 0, 0, 0⟩

/-- What comes of the attempt to have a byte in the buffer. -/
inductive Fill
  | ready
  | eof
  | failed
  deriving DecidableEq, Repr

/-- The refill at the top of the loop. -/
def ReadLineBuf.fill (RL_MAX_BUF : Nat) (rl : ReadLineBuf) : Option (Fill × ReadLineBuf) :=
  if rl.len ≤ rl.next then
    match rl.src.read RL_MAX_BUF with
    | none => none
    | some (.eintr, src) | some (.error, src) => some (.failed, { rl with src := src, len := -1 })
    | some (.got [], src) => some (.eof, { rl with src := src, len := 0 })
    | some (.got b, src) =>
        some (.ready, ⟨src, b ++ rl.buf.drop b.length, 0, b.length⟩)
  else some (.ready, rl)

/-- `rlbuf->buf[rlbuf->next]` -/
def ReadLineBuf.char (rl : ReadLineBuf) : UInt8 := rl.buf.getD rl.next 0

/-- `rlbuf->next++` -/
def ReadLineBuf.advance (rl : ReadLineBuf) : ReadLineBuf := { rl with next := rl.next + 1 }

theorem ReadLineBuf.fill_ready {RL_MAX_BUF : Nat} {rl rl' : ReadLineBuf}
    (h : rl.fill RL_MAX_BUF = some (.ready, rl')) :
    (rl.next < rl.len ∧ rl' = rl) ∨
      (rl.len ≤ rl.next ∧ ∃ b src, rl.src.read RL_MAX_BUF = some (.got b, src) ∧ b ≠ [] ∧
        rl' = ⟨src, b ++ rl.buf.drop b.length, 0, b.length⟩) := by
  rw [ReadLineBuf.fill] at h
  split at h
  · next hle =>
    refine .inr ⟨hle, ?_⟩
    split at h <;> cases h
    next b src hne hread => exact ⟨b, src, hread, hne, rfl⟩
  · next hlt =>
    cases h
    exact .inl ⟨by omega, rfl⟩

/-- The loop of `readLineBuf`, with the bytes stored; `cnt` is their number. -/
def readLineBufLoop (RL_MAX_BUF n : Nat) (buffer : Bytes) (rl : ReadLineBuf) :
    Option (LineRet × ReadLineBuf) :=
  match h : rl.fill RL_MAX_BUF with
  | none => none
  | some (.failed, rl') => some (⟨-1, buffer, false⟩, rl')
  | some (.eof, rl') => some (⟨buffer.length, buffer, false⟩, rl')
  | some (.ready, rl') =>
      let c := rl'.char
      let buffer' := if buffer.length < n then buffer ++ [c] else buffer
      if c = 10 then some (⟨buffer'.length, buffer', false⟩, rl'.advance)
      else readLineBufLoop RL_MAX_BUF n buffer' rl'.advance
termination_by (rl.src.plan.length, (rl.len - rl.next).toNat)
decreasing_by
  rcases ReadLineBuf.fill_ready h with ⟨hlt, rfl⟩ | ⟨-, b, src, hread, -, rfl⟩
  · refine Prod.Lex.right _ ?_
    simp only [ReadLineBuf.advance]
    omega
  · exact Prod.Lex.left _ _ (Source.length_plan_of_read hread)

/-- `readLineBuf(rlbuf, buffer, n)`, where `buffer` is not `NULL`. -/
def readLineBuf (RL_MAX_BUF n : Nat) (rl : ReadLineBuf) : Option (LineRet × ReadLineBuf) :=
  if n = 0 then some (⟨-1, [], false⟩, rl) else readLineBufLoop RL_MAX_BUF n [] rl

section Plain

variable {n : Nat} {buf c orig : Bytes} {r : LineRet}

/-- Storing one byte more of a line, as long as there is room for it. -/
theorem take_snoc (c : Bytes) (ch : UInt8) (n : Nat) :
    (if (c.take n).length < n then c.take n ++ [ch] else c.take n) = (c ++ [ch]).take n := by
  rw [List.length_take]
  split
  · rw [List.take_of_length_le (by omega : c.length ≤ n), List.take_of_length_le]
    rw [List.length_append, List.length_singleton]
    omega
  · rw [List.take_append_of_le_length (by omega)]

/-- Where a fair `read` gets nothing, there is nothing. -/
theorem eof_of_got_nil {m : Nat} {s s' : Source} (hm : 0 < m)
    (h : s.read m = some (.got [], s')) (hfair : Fair s.plan) :
    s.data = [] ∧ s'.data = [] ∧ Fair s'.plan ∧
      s.plan.countP Answer.Moves = s'.plan.countP Answer.Moves + 1 := by
  obtain ⟨k, hp, hb, hd⟩ := Source.read_got h
  rw [hp] at hfair
  have hmoves : (Answer.upTo k).Moves = true := by simpa using hfair.head
  have hk : k ≠ 0 := by simpa [Answer.Moves] using hmoves
  have hempty := congrArg List.length hb
  rw [List.length_nil, List.length_take] at hempty
  have hnil : s.data = [] := List.eq_nil_of_length_eq_zero (by omega)
  refine ⟨hnil, ?_, hfair.tail, ?_⟩
  · rw [← List.nil_append s'.data, ← hd, hnil]
  · rw [hp, List.countP_cons, if_pos hmoves]

/-- A fair `read` that gets something. -/
theorem moved_of_got {m : Nat} {b : Bytes} {s s' : Source} (h : s.read m = some (.got b, s'))
    (hfair : Fair s.plan) :
    s.data = b ++ s'.data ∧ Fair s'.plan ∧
      s.plan.countP Answer.Moves = s'.plan.countP Answer.Moves + 1 := by
  obtain ⟨k, hp, hb, hd⟩ := Source.read_got h
  rw [hp] at hfair
  refine ⟨hd, hfair.tail, ?_⟩
  rw [hp, List.countP_cons, if_pos (by simpa using hfair.head)]

theorem tail_of_read_one {ch : UInt8} {tail : Bytes} {s s' : Source}
    (h : s.read 1 = some (.got (ch :: tail), s')) : tail = [] := by
  obtain ⟨k, -, hb, -⟩ := Source.read_got h
  have hlen := congrArg List.length hb
  rw [List.length_cons, List.length_take] at hlen
  exact List.eq_nil_of_length_eq_zero (by omega)

/-- The loop of `readLine`, when the bytes `c` of a line have been read. -/
theorem readLineLoop_spec {s : Source} (horig : orig = c ++ s.data) (hc : 10 ∉ c)
    (hbuf : buf = c.take (n - 1)) (hfair : Fair s.plan)
    (hplan : s.data.length + 1 ≤ s.plan.countP Answer.Moves) :
    ∃ r s', readLineLoop n buf s = some (r, s') ∧ r.buf = (splitLine orig).1.take (n - 1) ∧
      r.ret = r.buf.length ∧ s'.data = (splitLine orig).2 ∧ Fair s'.plan ∧
      s.plan.countP Answer.Moves + s'.data.length ≤
        s'.plan.countP Answer.Moves + s.data.length + 1 := by
  fun_induction readLineLoop n buf s generalizing c with
  | case1 buf s hread =>
    rw [Source.read_eq_none] at hread
    rw [hread, List.countP_nil] at hplan
    omega
  | case2 buf s s₁ hread ih =>
    obtain ⟨hp, hd⟩ := Source.read_eintr hread
    rw [hp] at hfair
    have hcount : s.plan.countP Answer.Moves = s₁.plan.countP Answer.Moves := by
      rw [hp, List.countP_cons, if_neg (by decide), Nat.add_zero]
    rw [hcount] at hplan ⊢
    rw [← hd] at horig hplan ⊢
    exact ih horig hc hbuf hfair.tail hplan
  | case3 buf s s₁ hread =>
    rw [(Source.read_error hread).1] at hfair
    simpa [Answer.Moves] using hfair.head
  | case4 s s₁ hread =>
    obtain ⟨hlast, hrest, hfair', hcount⟩ := eof_of_got_nil (by decide) hread hfair
    rw [hlast, List.append_nil] at horig
    rw [horig, splitLine_last hc]
    exact ⟨_, s₁, rfl, hbuf, rfl, hrest, hfair', by rw [hrest, List.length_nil]; omega⟩
  | case5 buf s s₁ hread hne =>
    obtain ⟨hlast, hrest, hfair', hcount⟩ := eof_of_got_nil (by decide) hread hfair
    rw [hlast, List.append_nil] at horig
    rw [horig, splitLine_last hc]
    exact ⟨_, s₁, rfl, hbuf, rfl, hrest, hfair', by rw [hrest, List.length_nil]; omega⟩
  | case6 buf s tail s₁ hread =>
    obtain ⟨hd, hfair', hcount⟩ := moved_of_got hread hfair
    obtain rfl := tail_of_read_one hread
    rw [List.singleton_append] at hd
    rw [horig, hd, splitLine_line hc]
    refine ⟨_, s₁, rfl, ?_, rfl, rfl, hfair', ?_⟩
    · subst hbuf
      exact take_snoc c 10 (n - 1)
    · rw [hcount, List.length_cons]
      omega
  | case7 buf s ch tail s₁ hread buf' hch =>
    rename_i ih
    obtain ⟨hd, hfair', hcount⟩ := moved_of_got hread hfair
    obtain rfl := tail_of_read_one hread
    rw [List.singleton_append] at hd
    rw [hd, List.length_cons] at hplan ⊢
    obtain ⟨r, s', heq, hr, hret, hdata, hfair'', hcount'⟩ :=
      ih (c := c ++ [ch]) (by rw [horig, hd, List.append_assoc]; rfl)
        (by simp [hc, Ne.symm hch]) (by subst hbuf; exact take_snoc c ch (n - 1)) hfair' (by omega)
    exact ⟨r, s', heq, hr, hret, hdata, hfair'', by omega⟩

/-- **A call of `readLine`** takes the next line and stores what fits of it. -/
theorem readLine_spec {s : Source} (hfair : Fair s.plan)
    (hplan : s.data.length + 1 ≤ s.plan.countP Answer.Moves) :
    ∃ r s', readLine (n + 1) s = some (r, s') ∧ r.buf = (splitLine s.data).1.take n ∧
      r.ret = r.buf.length ∧ s'.data = (splitLine s.data).2 ∧ Fair s'.plan ∧
      s.plan.countP Answer.Moves + s'.data.length ≤
        s'.plan.countP Answer.Moves + s.data.length + 1 := by
  rw [readLine, if_neg (Nat.succ_ne_zero n)]
  exact readLineLoop_spec (c := []) rfl List.not_mem_nil List.take_nil.symm hfair hplan

end Plain

section Buffered

variable {RL_MAX_BUF n : Nat} {buf c orig : Bytes} {rl rl' : ReadLineBuf}

/-- What is still to be taken: from the buffer, and then from the descriptor. -/
def ReadLineBuf.pending (rl : ReadLineBuf) : Bytes :=
  (rl.buf.take rl.len.toNat).drop rl.next ++ rl.src.data

/-- The buffer has its size, and not more is said to be in it. -/
structure Sized (RL_MAX_BUF : Nat) (rl : ReadLineBuf) : Prop where
  length : rl.buf.length = RL_MAX_BUF
  len : rl.len ≤ RL_MAX_BUF

/-- No call fails or is interrupted, and all of them move something. -/
def Calm (plan : List Answer) : Prop := ∀ a ∈ plan, a.Moves

theorem Calm.fair {plan : List Answer} (h : Calm plan) : Fair plan := fun a ha => .inr (h a ha)

theorem sized_init (RL_MAX_BUF : Nat) (src : Source) :
    Sized RL_MAX_BUF (readLineBufInit RL_MAX_BUF src) :=
  ⟨List.length_replicate, Int.natCast_nonneg _⟩

theorem pending_init (RL_MAX_BUF : Nat) (src : Source) :
    (readLineBufInit RL_MAX_BUF src).pending = src.data := by
  simp [ReadLineBuf.pending, readLineBufInit]

/-- Where there is a byte in the buffer, it is the next one of the input. -/
theorem pending_advance (hsize : Sized RL_MAX_BUF rl) (hlt : rl.next < rl.len) :
    rl.pending = rl.char :: rl.advance.pending := by
  have hlen := hsize.length
  have hle := hsize.len
  have hnext : rl.next < (rl.buf.take rl.len.toNat).length := by
    rw [List.length_take]
    omega
  have hbound : rl.next < rl.buf.length := by omega
  rw [ReadLineBuf.pending, List.drop_eq_getElem_cons hnext, List.getElem_take]
  rw [ReadLineBuf.char, List.getD_eq_getElem?_getD, List.getElem?_eq_getElem hbound]
  rfl

/-- A byte is there, the same bytes are to be taken, and an answer is gone if it had to be read. -/
theorem ready_of_fill (hsize : Sized RL_MAX_BUF rl) (hcalm : Calm rl.src.plan)
    (h : rl.fill RL_MAX_BUF = some (.ready, rl')) :
    Sized RL_MAX_BUF rl' ∧ rl'.next < rl'.len ∧ rl'.pending = rl.pending ∧ Calm rl'.src.plan ∧
      rl.src.plan.length ≤ rl'.src.plan.length + 1 := by
  rcases ReadLineBuf.fill_ready h with ⟨hlt, rfl⟩ | ⟨hle, b, src, hread, hne, rfl⟩
  · exact ⟨hsize, hlt, rfl, hcalm, Nat.le_succ _⟩
  · obtain ⟨k, hp, hb, hd⟩ := Source.read_got hread
    have hlen : b.length ≤ RL_MAX_BUF := by
      rw [hb, List.length_take]
      omega
    refine ⟨⟨?_, Int.ofNat_le.mpr hlen⟩, ?_, ?_, ?_, ?_⟩
    · rw [List.length_append, List.length_drop, hsize.length]
      omega
    · exact Int.ofNat_lt.mpr (List.length_pos_iff.mpr hne)
    · have hnone : (rl.buf.take rl.len.toNat).drop rl.next = [] := by
        rw [List.drop_eq_nil_iff, List.length_take]
        omega
      simp [ReadLineBuf.pending, hnone, hd]
    · exact fun a ha => hcalm a (hp ▸ List.mem_cons_of_mem _ ha)
    · rw [hp]
      exact Nat.le_refl _

theorem eof_of_fill (hmax : 0 < RL_MAX_BUF) (hcalm : Calm rl.src.plan)
    (h : rl.fill RL_MAX_BUF = some (.eof, rl')) :
    rl.pending = [] ∧ rl'.pending = [] ∧ rl'.buf = rl.buf ∧ rl'.len = 0 ∧ Calm rl'.src.plan ∧
      rl.src.plan.length = rl'.src.plan.length + 1 := by
  rw [ReadLineBuf.fill] at h
  split at h
  · next hle =>
    split at h <;> cases h
    next src hread =>
    obtain ⟨hlast, hrest, -, -⟩ := eof_of_got_nil hmax hread hcalm.fair
    obtain ⟨k, hp, -, -⟩ := Source.read_got hread
    have hnone : (rl.buf.take rl.len.toNat).drop rl.next = [] := by
      rw [List.drop_eq_nil_iff, List.length_take]
      omega
    refine ⟨?_, ?_, rfl, rfl, fun a ha => hcalm a (hp ▸ List.mem_cons_of_mem _ ha), ?_⟩
    · rw [ReadLineBuf.pending, hnone, hlast, List.nil_append]
    · simp [ReadLineBuf.pending, hrest]
    · rw [hp]
      rfl
  · cases h

theorem not_failed_of_fill (hcalm : Calm rl.src.plan) :
    rl.fill RL_MAX_BUF ≠ some (.failed, rl') := by
  intro h
  rw [ReadLineBuf.fill] at h
  split at h
  · split at h <;> cases h
    · next src hread =>
      have hmoves := hcalm .eintr (by rw [(Source.read_eintr hread).1]; exact List.mem_cons_self)
      cases hmoves
    · next src hread =>
      have hmoves := hcalm .error (by rw [(Source.read_error hread).1]; exact List.mem_cons_self)
      cases hmoves
  · cases h

theorem fill_eq_none (h : rl.fill RL_MAX_BUF = none) : rl.src.plan = [] := by
  rw [ReadLineBuf.fill] at h
  split at h
  · split at h <;> cases h
    next hread => exact Source.read_eq_none.mp hread
  · cases h

theorem readLineBufLoop_spec (hmax : 0 < RL_MAX_BUF) (horig : orig = c ++ rl.pending)
    (hc : 10 ∉ c) (hbuf : buf = c.take n) (hsize : Sized RL_MAX_BUF rl) (hcalm : Calm rl.src.plan)
    (hplan : rl.pending.length + 1 ≤ rl.src.plan.length) :
    ∃ r rl', readLineBufLoop RL_MAX_BUF n buf rl = some (r, rl') ∧
      r.buf = (splitLine orig).1.take n ∧ r.ret = r.buf.length ∧
      rl'.pending = (splitLine orig).2 ∧ Sized RL_MAX_BUF rl' ∧ Calm rl'.src.plan ∧
      rl.src.plan.length + rl'.pending.length ≤ rl'.src.plan.length + rl.pending.length + 1 := by
  fun_induction readLineBufLoop RL_MAX_BUF n buf rl generalizing c with
  | case1 buf rl hfill =>
    rw [fill_eq_none hfill] at hplan
    exact absurd hplan (by simp)
  | case2 buf rl rl₁ hfill => exact absurd hfill (not_failed_of_fill hcalm)
  | case3 buf rl rl₁ hfill =>
    obtain ⟨hlast, hrest, hsame, hlen, hcalm', hcount⟩ := eof_of_fill hmax hcalm hfill
    rw [hlast, List.append_nil] at horig
    rw [horig, splitLine_last hc]
    refine ⟨_, rl₁, rfl, hbuf, rfl, hrest, ⟨hsame ▸ hsize.length, ?_⟩, hcalm', ?_⟩
    · omega
    · rw [hrest, List.length_nil]
      omega
  | case4 buf rl rl₁ hfill ch buf' =>
    rename_i hch
    obtain ⟨hsize', hlt, hpend, hcalm', hcount⟩ := ready_of_fill hsize hcalm hfill
    have hd := pending_advance hsize' hlt
    rw [hpend, show rl₁.char = 10 from hch] at hd
    rw [horig, hd, splitLine_line hc]
    refine ⟨_, rl₁.advance, rfl, ?_, rfl, rfl, ⟨hsize'.length, hsize'.len⟩, hcalm', ?_⟩
    · subst hbuf
      show buf' = _
      rw [← hch]
      exact take_snoc c ch n
    · rw [List.length_cons]
      show rl.src.plan.length + _ ≤ rl₁.src.plan.length + _ + 1
      omega
  | case5 buf rl rl₁ hfill ch buf' hch =>
    rename_i ih
    obtain ⟨hsize', hlt, hpend, hcalm', hcount⟩ := ready_of_fill hsize hcalm hfill
    have hd := pending_advance hsize' hlt
    rw [hpend] at hd
    rw [hd, List.length_cons] at hplan ⊢
    have hplan' : rl₁.advance.src.plan.length = rl₁.src.plan.length := rfl
    obtain ⟨r, rl', heq, hr, hret, hdata, hsize'', hcalm'', hcount'⟩ :=
      ih (c := c ++ [ch]) (by rw [horig, hd, List.append_assoc]; rfl)
        (by simp [hc, Ne.symm hch]) (by subst hbuf; exact take_snoc c ch n)
        ⟨hsize'.length, hsize'.len⟩ hcalm' (by omega)
    exact ⟨r, rl', heq, hr, hret, hdata, hsize'', hcalm'', by omega⟩

/-- **A call of `readLineBuf`** takes the next line and stores what fits of it. -/
theorem readLineBuf_spec (hmax : 0 < RL_MAX_BUF) (hn : 0 < n) (hsize : Sized RL_MAX_BUF rl)
    (hcalm : Calm rl.src.plan) (hplan : rl.pending.length + 1 ≤ rl.src.plan.length) :
    ∃ r rl', readLineBuf RL_MAX_BUF n rl = some (r, rl') ∧
      r.buf = (splitLine rl.pending).1.take n ∧ r.ret = r.buf.length ∧
      rl'.pending = (splitLine rl.pending).2 ∧ Sized RL_MAX_BUF rl' ∧ Calm rl'.src.plan ∧
      rl.src.plan.length + rl'.pending.length ≤ rl'.src.plan.length + rl.pending.length + 1 := by
  rw [readLineBuf, if_neg hn.ne']
  exact readLineBufLoop_spec (c := []) hmax rfl List.not_mem_nil List.take_nil.symm hsize hcalm hplan

end Buffered

/-! ### Call after call -/

/-- What `k` calls give, one after the other. -/
def calls {σ α : Type} (f : σ → Option (α × σ)) : Nat → σ → Option (List α × σ)
  | 0, s => some ([], s)
  | k + 1, s =>
      match f s with
      | none => none
      | some (a, s') => (calls f k s').map fun r => (a :: r.1, r.2)

/-- The first `n` bytes of each of the first `k` lines; behind the last line there is nothing. -/
def firstLines (n k : Nat) (data : Bytes) : List Bytes :=
  (List.range k).map fun i => ((lines data)[i]?.getD []).take n

theorem firstLines_succ (n k : Nat) (data : Bytes) :
    firstLines n (k + 1) data =
      (splitLine data).1.take n :: firstLines n k (splitLine data).2 := by
  rw [firstLines, List.range_succ_eq_map, List.map_cons, List.map_map]
  by_cases hne : data = []
  · subst hne
    simp [firstLines, splitLine, getLine, lines, Function.comp_def]
  · simp [firstLines, lines_of_ne_nil hne, Function.comp_def]

/-- If one call takes a line, `k` calls take `k` lines. -/
theorem calls_of_line {σ : Type} {n : Nat} (f : σ → Option (LineRet × σ)) (data : σ → Bytes)
    (good : σ → Prop) (room : σ → Nat)
    (hf : ∀ s, good s → (data s).length + 1 ≤ room s →
      ∃ r s', f s = some (r, s') ∧ r.buf = (splitLine (data s)).1.take n ∧ r.ret = r.buf.length ∧
        data s' = (splitLine (data s)).2 ∧ good s' ∧
        room s + (data s').length ≤ room s' + (data s).length + 1)
    (k : Nat) {s : σ} (hgood : good s) (hroom : (data s).length + k ≤ room s) :
    ∃ rs s', calls f k s = some (rs, s') ∧ rs.map LineRet.buf = firstLines n k (data s) ∧
      ∀ r ∈ rs, r.ret = r.buf.length := by
  induction k generalizing s with
  | zero => exact ⟨[], s, rfl, rfl, nofun⟩
  | succ k ih =>
    obtain ⟨r, s', heq, hbuf, hret, hdata, hgood', hroom'⟩ := hf s hgood (by omega)
    obtain ⟨rs, s'', heq', hbufs, hrets⟩ := ih hgood' (by omega)
    refine ⟨r :: rs, s'', ?_, ?_, ?_⟩
    · rw [calls, heq]
      simp only [heq', Option.map_some]
    · rw [List.map_cons, hbufs, hbuf, hdata, firstLines_succ]
    · intro r' hr'
      rcases List.mem_cons.mp hr' with rfl | hr'
      · exact hret
      · exact hrets r' hr'

/-- **Both readers give the lines of the input.**  For every input, every size of the buffers,
every number of calls and whatever the single transfers come to (`readLine` may be interrupted
as well): call after call, `readLine` with room for a terminator and `readLineBuf` return the same
bytes and the same counts, and these are the lines of the input, cut off where the buffer ends. -/
theorem readLineBuf_eq_readLine (RL_MAX_BUF n k : Nat) (data : Bytes) (p₁ p₂ : List Answer)
    (hmax : 0 < RL_MAX_BUF) (hn : 0 < n) (h₁ : Fair p₁) (h₂ : Calm p₂)
    (hp₁ : data.length + k ≤ p₁.countP Answer.Moves) (hp₂ : data.length + k ≤ p₂.length) :
    ∃ rs₁ s₁ rs₂ s₂, calls (readLine (n + 1)) k ⟨data, p₁⟩ = some (rs₁, s₁) ∧
      calls (readLineBuf RL_MAX_BUF n) k (readLineBufInit RL_MAX_BUF ⟨data, p₂⟩) = some (rs₂, s₂) ∧
      rs₁.map LineRet.buf = firstLines n k data ∧ rs₂.map LineRet.buf = firstLines n k data ∧
      rs₁.map LineRet.ret = rs₂.map LineRet.ret := by
  obtain ⟨rs₁, s₁, heq₁, hbufs₁, hrets₁⟩ :=
    calls_of_line (n := n) (readLine (n + 1)) Source.data (fun s => Fair s.plan)
      (fun s => s.plan.countP Answer.Moves) (fun _ hfair hroom => readLine_spec hfair hroom) k (s := ⟨data, p₁⟩) h₁ hp₁
  have hinit := pending_init RL_MAX_BUF ⟨data, p₂⟩
  have hline : ∀ rl : ReadLineBuf, Sized RL_MAX_BUF rl ∧ Calm rl.src.plan →
      rl.pending.length + 1 ≤ rl.src.plan.length →
      ∃ r rl', readLineBuf RL_MAX_BUF n rl = some (r, rl') ∧
        r.buf = (splitLine rl.pending).1.take n ∧ r.ret = r.buf.length ∧
        rl'.pending = (splitLine rl.pending).2 ∧ (Sized RL_MAX_BUF rl' ∧ Calm rl'.src.plan) ∧
        rl.src.plan.length + rl'.pending.length ≤
          rl'.src.plan.length + rl.pending.length + 1 := by
    rintro rl ⟨hsize, hcalm⟩ hroom
    obtain ⟨r, rl', heq, hbuf, hret, hdata, hsize', hcalm', hroom'⟩ :=
      readLineBuf_spec hmax hn hsize hcalm hroom
    exact ⟨r, rl', heq, hbuf, hret, hdata, ⟨hsize', hcalm'⟩, hroom'⟩
  obtain ⟨rs₂, s₂, heq₂, hbufs₂, hrets₂⟩ :=
    calls_of_line (n := n) (readLineBuf RL_MAX_BUF n) ReadLineBuf.pending
      (fun rl => Sized RL_MAX_BUF rl ∧ Calm rl.src.plan) (fun rl => rl.src.plan.length) hline k
      (s := readLineBufInit RL_MAX_BUF ⟨data, p₂⟩) ⟨sized_init _ _, h₂⟩ (by rw [hinit]; exact hp₂)
  rw [hinit] at hbufs₂
  refine ⟨rs₁, s₁, rs₂, s₂, heq₁, heq₂, hbufs₁, hbufs₂, ?_⟩
  have hlen : ∀ rs : List LineRet, (∀ r ∈ rs, r.ret = r.buf.length) →
      rs.map LineRet.ret = (rs.map LineRet.buf).map fun b => (b.length : Int) := by
    intro rs hrets
    rw [List.map_map]
    exact List.map_congr_left hrets
  rw [hlen rs₁ hrets₁, hlen rs₂ hrets₂, hbufs₁, hbufs₂]

theorem readLineBuf_eq_readLine_two :
    ∃ rs₁ s₁ rs₂ s₂,
      calls (readLine 3) 2 ⟨[97, 98, 99, 10, 100], .eintr :: List.replicate 7 (.upTo 1)⟩ =
        some (rs₁, s₁) ∧
      calls (readLineBuf 4 2) 2 (readLineBufInit 4 ⟨[97, 98, 99, 10, 100],
        List.replicate 7 (.upTo 3)⟩) = some (rs₂, s₂) ∧
      rs₁.map LineRet.buf = [[97, 98], [100]] ∧ rs₂.map LineRet.buf = [[97, 98], [100]] ∧
      rs₁.map LineRet.ret = rs₂.map LineRet.ret :=
  readLineBuf_eq_readLine 4 2 2 [97, 98, 99, 10, 100] (.eintr :: List.replicate 7 (.upTo 1))
    (List.replicate 7 (.upTo 3)) (by decide) (by decide) (by intro a ha; revert a; decide)
    (by intro a ha; revert a; decide) (by decide) (by decide)

end Tlpi.Sockets
