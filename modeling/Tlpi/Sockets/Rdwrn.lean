import Tlpi.Lib.Stream

/-!
# `readn` and `writen`

`sockets/rdwrn.c`: a transfer of exactly `n` bytes, which goes on after partial transfers and
interruptions.

* `readn_spec`, `writen_spec`: what a call leaves behind, whatever the answers.
* `frames_round_trip`: messages sent with `writen` come back from `readn` one by one, however
  either side's transfers are cut.
-/

namespace Tlpi.Sockets

open Tlpi.Lib

/-- The loop of `readn`, with the bytes that are in the buffer; `totRead` is their number. -/
def readnLoop (n : Nat) (buf : Bytes) (s : Source) : Option (Int × Bytes × Source) :=
  if buf.length < n then
    match h : s.read (n - buf.length) with
    | none => none
    | some (.got b, s') =>
        if b = [] then some (buf.length, buf, s') else readnLoop n (buf ++ b) s'
    | some (.eintr, s') => readnLoop n buf s'
    | some (.error, s') => some (-1, buf, s')
  else some (buf.length, buf, s)
termination_by s.plan.length
decreasing_by
  · exact Source.length_plan_of_read h
  · exact Source.length_plan_of_read h

/-- `readn(fd, buffer, n)`: what it returns and what it has put in the buffer. -/
def readn (n : Nat) (s : Source) : Option (Int × Bytes × Source) := readnLoop n [] s

/-- The loop of `writen`, with `totWritten` and the bytes that are left. -/
def writenLoop (totWritten : Nat) (buf : Bytes) (s : Sink) : Option (Int × Sink) :=
  if buf ≠ [] then
    match h : s.write buf with
    | none => none
    | some (.wrote m, s') =>
        if m = 0 then some (-1, s') else writenLoop (totWritten + m) (buf.drop m) s'
    | some (.eintr, s') => writenLoop totWritten buf s'
    | some (.error, s') => some (-1, s')
  else some (totWritten, s)
termination_by s.plan.length
decreasing_by
  · exact Sink.length_plan_of_write h
  · exact Sink.length_plan_of_write h

/-- `writen(fd, buffer, n)`, where `n` is the length of `buffer`. -/
def writen (buffer : Bytes) (s : Sink) : Option (Int × Sink) := writenLoop 0 buffer s

section Calls

variable {n : Nat} {buf buf' orig : Bytes} {ret : Int}

/-- How a call of `readn` ends, with `len` bytes in the buffer: with all of them, with an error,
or at the end of the input. -/
inductive ReadnEnd (n : Nat) (s s' : Source) (len : Nat) : Int → Prop
  | all (hlen : len = n) : ReadnEnd n s s' len n
  | error (hmem : .error ∈ s.plan) : ReadnEnd n s s' len (-1)
  | eof (hlen : len < n) (hend : s'.data = [] ∨ .upTo 0 ∈ s.plan) : ReadnEnd n s s' len len

theorem ReadnEnd.cons {s s₁ s' : Source} {len : Nat} {a : Answer} (hplan : s.plan = a :: s₁.plan)
    (h : ReadnEnd n s₁ s' len ret) : ReadnEnd n s s' len ret := by
  cases h with
  | all hlen => exact .all hlen
  | error hmem => exact .error (hplan ▸ List.mem_cons_of_mem _ hmem)
  | eof hlen hend => exact .eof hlen (hend.imp_right fun h => hplan ▸ List.mem_cons_of_mem _ h)

theorem readnLoop_spec (buf : Bytes) {s s' : Source} (horig : orig = buf ++ s.data) (hbuf : buf.length ≤ n)
    (h : readnLoop n buf s = some (ret, buf', s')) :
    orig = buf' ++ s'.data ∧ s'.plan <:+ s.plan ∧ buf'.length ≤ n ∧
      ReadnEnd n s s' buf'.length ret := by
  fun_induction readnLoop n buf s with
  | case1 => cases h
  | case2 buf s hlt s₁ hread =>
    cases h
    obtain ⟨k, hplan, hb, hdata⟩ := Source.read_got hread
    refine ⟨by rw [horig, hdata, List.nil_append], hplan ▸ List.suffix_cons _ _, hlt.le, ?_⟩
    refine .eof hlt ?_
    by_cases hk : k = 0
    · exact .inr (by rw [hplan, hk]; exact List.mem_cons_self)
    · refine .inl ?_
      have hempty := congrArg List.length hb
      rw [List.length_nil, List.length_take] at hempty
      have hnil : s.data = [] := List.eq_nil_of_length_eq_zero (by omega)
      rw [← List.nil_append s'.data, ← hdata, hnil]
  | case3 buf s hlt b s₁ hread hne ih =>
    obtain ⟨k, hplan, hb, hdata⟩ := Source.read_got hread
    have hlen : (buf ++ b).length ≤ n := by
      rw [List.length_append, hb, List.length_take]
      omega
    obtain ⟨h1, h2, h3, h4⟩ := ih (by rw [horig, hdata, List.append_assoc]) hlen h
    exact ⟨h1, h2.trans (hplan ▸ List.suffix_cons _ _), h3, h4.cons hplan⟩
  | case4 buf s hlt s₁ hread ih =>
    obtain ⟨hplan, hdata⟩ := Source.read_eintr hread
    obtain ⟨h1, h2, h3, h4⟩ := ih (by rw [horig, hdata]) hbuf h
    exact ⟨h1, h2.trans (hplan ▸ List.suffix_cons _ _), h3, h4.cons hplan⟩
  | case5 buf s hlt s₁ hread =>
    cases h
    obtain ⟨hplan, hdata⟩ := Source.read_error hread
    refine ⟨by rw [horig, hdata], hplan ▸ List.suffix_cons _ _, hbuf, .error ?_⟩
    rw [hplan]
    exact List.mem_cons_self
  | case6 buf s hge =>
    have hlen : buf.length = n := by omega
    rw [Option.some.injEq, Prod.mk.injEq, Prod.mk.injEq] at h
    obtain ⟨rfl, rfl, rfl⟩ := h
    refine ⟨horig, List.suffix_rfl, hbuf, ?_⟩
    rw [hlen]
    exact .all rfl

/-- **What `readn` leaves behind**, whatever the answers: the buffer has the front of the input,
and nothing else has been read. -/
theorem readn_spec {s s' : Source} (h : readn n s = some (ret, buf, s')) :
    s.data = buf ++ s'.data ∧ s'.plan <:+ s.plan ∧ buf.length ≤ n ∧
      ReadnEnd n s s' buf.length ret :=
  readnLoop_spec [] rfl (Nat.zero_le n) h

/-- A fair plan with an answer for each byte is enough. -/
theorem readnLoop_returns (buf : Bytes) {s : Source} (hbuf : buf.length ≤ n) (hfair : Fair s.plan)
    (hplan : n - buf.length ≤ s.plan.countP Answer.Moves) (hdata : n - buf.length ≤ s.data.length) :
    ∃ buf' s', readnLoop n buf s = some ((n : Int), buf', s') ∧ Fair s'.plan ∧
      s.plan.countP Answer.Moves ≤ s'.plan.countP Answer.Moves + (n - buf.length) := by
  fun_induction readnLoop n buf s with
  | case1 buf s hlt hread =>
    rw [Source.read_eq_none] at hread
    rw [hread, List.countP_nil] at hplan
    omega
  | case2 buf s hlt s₁ hread =>
    obtain ⟨k, hp, hb, -⟩ := Source.read_got hread
    have hempty := congrArg List.length hb
    rw [List.length_nil, List.length_take] at hempty
    rw [hp] at hfair
    have hk : k ≠ 0 := by simpa [Answer.Moves] using hfair.head
    omega
  | case3 buf s hlt b s₁ hread hne ih =>
    obtain ⟨k, hp, hb, hd⟩ := Source.read_got hread
    rw [hp] at hfair
    have hmoves : (Answer.upTo k).Moves = true := by simpa using hfair.head
    have hpos : 0 < b.length := List.length_pos_iff.mpr hne
    have hle : b.length ≤ n - buf.length := by
      rw [hb, List.length_take]
      omega
    have hcount : s.plan.countP Answer.Moves = s₁.plan.countP Answer.Moves + 1 := by
      rw [hp, List.countP_cons, if_pos hmoves]
    have hlen : s.data.length = b.length + s₁.data.length := by rw [hd, List.length_append]
    have hbuf' : (buf ++ b).length = buf.length + b.length := List.length_append
    obtain ⟨buf', s', heq, hfair', hcount'⟩ :=
      ih (by omega) hfair.tail (by omega) (by omega)
    exact ⟨buf', s', heq, hfair', by omega⟩
  | case4 buf s hlt s₁ hread ih =>
    obtain ⟨hp, hd⟩ := Source.read_eintr hread
    rw [hp] at hfair
    have hcount : s.plan.countP Answer.Moves = s₁.plan.countP Answer.Moves := by
      rw [hp, List.countP_cons, if_neg (by decide), Nat.add_zero]
    rw [hcount] at hplan ⊢
    exact ih hbuf hfair.tail hplan (hd ▸ hdata)
  | case5 buf s hlt s₁ hread =>
    rw [(Source.read_error hread).1] at hfair
    simpa [Answer.Moves] using hfair.head
  | case6 buf s hge =>
    have hlen : buf.length = n := by omega
    exact ⟨buf, s, by rw [hlen], hfair, Nat.le_add_right _ _⟩

/-- How a call of `writen` ends, of whose `len` bytes `m` have been written. -/
inductive WritenEnd (s : Sink) (len m : Nat) (total : Int) : Int → Prop
  | all (hm : m = len) : WritenEnd s len m total total
  | error (hmem : .error ∈ s.plan ∨ .upTo 0 ∈ s.plan) : WritenEnd s len m total (-1)

theorem WritenEnd.cons {s s₁ : Sink} {len len₁ m m₁ : Nat} {total : Int} {a : Answer}
    (hplan : s.plan = a :: s₁.plan) (hm : m₁ = len₁ → m = len)
    (h : WritenEnd s₁ len₁ m₁ total ret) : WritenEnd s len m total ret := by
  cases h with
  | all hall => exact .all (hm hall)
  | error hmem =>
    refine .error ?_
    rw [hplan]
    exact hmem.imp (List.mem_cons_of_mem _) (List.mem_cons_of_mem _)

theorem writenLoop_spec {s s' : Sink} {totWritten : Nat}
    (h : writenLoop totWritten buf s = some (ret, s')) :
    ∃ m ≤ buf.length, s'.data = s.data ++ buf.take m ∧
      WritenEnd s buf.length m (totWritten + buf.length : Nat) ret := by
  fun_induction writenLoop totWritten buf s with
  | case1 => cases h
  | case2 totWritten buf s hne s₁ hwrite =>
    cases h
    obtain ⟨k, hplan, hm, hdata⟩ := Sink.write_wrote hwrite
    have hlen := List.length_pos_iff.mpr hne
    have hk : k = 0 := by omega
    refine ⟨0, Nat.zero_le _, hdata, .error (.inr ?_)⟩
    rw [hplan, hk]
    exact List.mem_cons_self
  | case3 totWritten buf s hne m s₁ hwrite hm ih =>
    obtain ⟨k, hplan, hmin, hdata⟩ := Sink.write_wrote hwrite
    obtain ⟨m', hle, hdata', hend⟩ := ih h
    rw [List.length_drop] at hle hend
    refine ⟨m + m', by omega, ?_, ?_⟩
    · rw [hdata', hdata, List.append_assoc, List.take_add]
    · have htotal : totWritten + m + (buf.length - m) = totWritten + buf.length := by omega
      rw [htotal] at hend
      exact hend.cons hplan (by omega)
  | case4 totWritten buf s hne s₁ hwrite ih =>
    obtain ⟨hplan, hdata⟩ := Sink.write_eintr hwrite
    obtain ⟨m, hle, hdata', hend⟩ := ih h
    exact ⟨m, hle, by rw [hdata', hdata], hend.cons hplan id⟩
  | case5 totWritten buf s hne s₁ hwrite =>
    cases h
    obtain ⟨hplan, hdata⟩ := Sink.write_error hwrite
    refine ⟨0, Nat.zero_le _, by rw [hdata, List.take_zero, List.append_nil], .error (.inl ?_)⟩
    rw [hplan]
    exact List.mem_cons_self
  | case6 totWritten buf s hnil =>
    obtain rfl : buf = [] := not_not.mp hnil
    rw [Option.some.injEq, Prod.mk.injEq] at h
    obtain ⟨rfl, rfl⟩ := h
    exact ⟨0, Nat.le_refl _, (List.append_nil _).symm, .all rfl⟩

theorem writenLoop_returns (buf : Bytes) {s : Sink} (totWritten : Nat) (hfair : Fair s.plan)
    (hplan : buf.length ≤ s.plan.countP Answer.Moves) :
    ∃ s', writenLoop totWritten buf s = some (((totWritten + buf.length : Nat) : Int), s') ∧
      Fair s'.plan ∧ s.plan.countP Answer.Moves ≤ s'.plan.countP Answer.Moves + buf.length := by
  fun_induction writenLoop totWritten buf s with
  | case1 totWritten buf s hne hwrite =>
    rw [Sink.write_eq_none] at hwrite
    rw [hwrite, List.countP_nil] at hplan
    exact absurd (List.eq_nil_of_length_eq_zero (by omega)) hne
  | case2 totWritten buf s hne s₁ hwrite =>
    obtain ⟨k, hp, hm, -⟩ := Sink.write_wrote hwrite
    have hlen := List.length_pos_iff.mpr hne
    rw [hp] at hfair
    have hk : k ≠ 0 := by simpa [Answer.Moves] using hfair.head
    omega
  | case3 totWritten buf s hne m s₁ hwrite hm ih =>
    obtain ⟨k, hp, hmin, -⟩ := Sink.write_wrote hwrite
    rw [hp] at hfair
    have hmoves : (Answer.upTo k).Moves = true := by simpa using hfair.head
    have hcount : s.plan.countP Answer.Moves = s₁.plan.countP Answer.Moves + 1 := by
      rw [hp, List.countP_cons, if_pos hmoves]
    have hlen : (buf.drop m).length = buf.length - m := List.length_drop
    obtain ⟨s', heq, hfair', hcount'⟩ := ih hfair.tail (by omega)
    have htotal : totWritten + m + (buf.drop m).length = totWritten + buf.length := by omega
    rw [htotal] at heq
    exact ⟨s', heq, hfair', by omega⟩
  | case4 totWritten buf s hne s₁ hwrite ih =>
    obtain ⟨hp, -⟩ := Sink.write_eintr hwrite
    rw [hp] at hfair
    have hcount : s.plan.countP Answer.Moves = s₁.plan.countP Answer.Moves := by
      rw [hp, List.countP_cons, if_neg (by decide), Nat.add_zero]
    rw [hcount] at hplan ⊢
    exact ih hfair.tail hplan
  | case5 totWritten buf s hne s₁ hwrite =>
    rw [(Sink.write_error hwrite).1] at hfair
    simpa [Answer.Moves] using hfair.head
  | case6 totWritten buf s hnil =>
    obtain rfl : buf = [] := not_not.mp hnil
    exact ⟨s, rfl, hfair, Nat.le_refl _⟩

end Calls

/-! ### Messages -/

/-- Messages sent one after the other, each as long as `writen` says that all of it has gone. -/
def sendAll : List Bytes → Sink → Option Sink
  | [], s => some s
  | m :: ms, s =>
      match writen m s with
      | none => none
      | some (ret, s') => if ret = m.length then sendAll ms s' else none

/-- Messages of the given lengths received one after the other, as long as `readn` says that all
of one has come. -/
def recvAll : List Nat → Source → Option (List Bytes × Source)
  | [], s => some ([], s)
  | n :: ns, s =>
      match readn n s with
      | none => none
      | some (ret, b, s') =>
          if ret = n then (recvAll ns s').map fun r => (b :: r.1, r.2) else none

theorem sendAll_data {msgs : List Bytes} {s s' : Sink} (h : sendAll msgs s = some s') :
    s'.data = s.data ++ msgs.flatten := by
  induction msgs generalizing s with
  | nil =>
    cases h
    exact (List.append_nil _).symm
  | cons m ms ih =>
    rw [sendAll] at h
    split at h
    · cases h
    · next ret s₁ hwrite =>
      split_ifs at h with hret
      obtain ⟨j, hle, hdata, hend⟩ := writenLoop_spec hwrite
      have hj : j = m.length := by
        cases hend with
        | all hm => exact hm
        | error hmem => omega
      rw [ih h, hdata, hj, List.take_length, List.flatten_cons, List.append_assoc]

theorem sendAll_returns {msgs : List Bytes} {s : Sink} (hfair : Fair s.plan)
    (hplan : msgs.flatten.length ≤ s.plan.countP Answer.Moves) :
    ∃ s', sendAll msgs s = some s' := by
  induction msgs generalizing s with
  | nil => exact ⟨s, rfl⟩
  | cons m ms ih =>
    rw [List.flatten_cons, List.length_append] at hplan
    obtain ⟨s₁, heq, hfair', hcount⟩ :=
      writenLoop_returns m 0 hfair (by omega)
    rw [Nat.zero_add] at heq
    rw [sendAll, writen, heq]
    simp only [if_pos]
    exact ih hfair' (by omega)

theorem recvAll_data {msgs : List Bytes} {s s' : Source} {bufs : List Bytes} {rest : Bytes}
    (hdata : s.data = msgs.flatten ++ rest)
    (h : recvAll (msgs.map List.length) s = some (bufs, s')) : bufs = msgs ∧ s'.data = rest := by
  induction msgs generalizing s bufs with
  | nil =>
    cases h
    exact ⟨rfl, hdata⟩
  | cons m ms ih =>
    rw [List.map_cons, recvAll] at h
    split at h
    · cases h
    · next ret b s₁ hread =>
      split_ifs at h with hret
      rw [Option.map_eq_some_iff] at h
      obtain ⟨⟨bufs', s₂⟩, hrest, heq⟩ := h
      cases heq
      obtain ⟨hfront, -, -, hend⟩ := readn_spec hread
      have hlen : b.length = m.length := by
        cases hend with
        | all hlen => exact hlen
        | error hmem => omega
        | eof hlt hno => omega
      rw [hdata, List.flatten_cons, List.append_assoc] at hfront
      obtain ⟨hm, hms⟩ := List.append_inj hfront hlen.symm
      obtain ⟨hbufs, hrest'⟩ := ih hms.symm hrest
      exact ⟨by rw [hm, hbufs], hrest'⟩

theorem recvAll_returns {msgs : List Bytes} {s : Source} (hfair : Fair s.plan)
    (hplan : msgs.flatten.length ≤ s.plan.countP Answer.Moves)
    (hdata : msgs.flatten.length ≤ s.data.length) :
    ∃ r, recvAll (msgs.map List.length) s = some r := by
  induction msgs generalizing s with
  | nil => exact ⟨_, rfl⟩
  | cons m ms ih =>
    rw [List.flatten_cons, List.length_append] at hplan hdata
    obtain ⟨b, s₁, heq, hfair', hcount⟩ :=
      readnLoop_returns (n := m.length) [] (Nat.zero_le _) hfair
        (by rw [List.length_nil]; omega) (by rw [List.length_nil]; omega)
    rw [List.length_nil, Nat.sub_zero] at hcount
    have hspec := readn_spec (show readn m.length s = some ((m.length : Int), b, s₁) from heq)
    have hlen : s.data.length = b.length + s₁.data.length := by
      rw [hspec.1, List.length_append]
    have hle := hspec.2.2.1
    obtain ⟨r, hr⟩ := ih hfair' (by omega) (by omega)
    refine ⟨(b :: r.1, r.2), ?_⟩
    rw [List.map_cons, recvAll, readn, heq]
    simp only [if_pos, hr, Option.map_some]

/-- **Framing.**  Whatever `write` and `read` come to on either side: if every `writen` of some
messages says that all has gone, then what has gone is the messages; and if every `readn` of their
lengths says that all has come, then what has come is the messages, one by one.  If no call fails,
and there are enough of them, they do say so. -/
theorem frames_round_trip (msgs : List Bytes) (p₁ p₂ : List Answer) :
    (∀ s', sendAll msgs ⟨[], p₁⟩ = some s' → s'.data = msgs.flatten) ∧
      (∀ bufs s', recvAll (msgs.map List.length) ⟨msgs.flatten, p₂⟩ = some (bufs, s') →
        bufs = msgs ∧ s'.data = []) ∧
      (Fair p₁ → msgs.flatten.length ≤ p₁.countP Answer.Moves →
        ∃ s', sendAll msgs ⟨[], p₁⟩ = some s') ∧
      (Fair p₂ → msgs.flatten.length ≤ p₂.countP Answer.Moves →
        ∃ s', recvAll (msgs.map List.length) ⟨msgs.flatten, p₂⟩ = some (msgs, s')) := by
  refine ⟨fun s' h => ?_, fun bufs s' h => ?_, fun hfair hplan => ?_, fun hfair hplan => ?_⟩
  · exact sendAll_data h
  · exact recvAll_data (List.append_nil _).symm h
  · exact sendAll_returns hfair hplan
  · obtain ⟨⟨bufs, s'⟩, hr⟩ :=
      recvAll_returns (s := ⟨msgs.flatten, p₂⟩) hfair hplan (Nat.le_refl _)
    obtain ⟨rfl, -⟩ := recvAll_data (List.append_nil _).symm hr
    exact ⟨s', hr⟩

theorem frames_round_trip_two :
    ∃ s', recvAll [2, 1] ⟨[1, 2, 3], [.upTo 1, .eintr, .upTo 5, .upTo 1]⟩ =
      some ([[1, 2], [3]], s') :=
  (frames_round_trip [[1, 2], [3]] [] [.upTo 1, .eintr, .upTo 5, .upTo 1]).2.2.2
    (by intro a ha; revert a; decide) (by decide)

end Tlpi.Sockets
