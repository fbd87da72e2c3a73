import Tlpi.UserProcs.Model
import Mathlib.Data.List.Nodup

/-!
# Under which user a process is listed

The kernel writes the file `status` line by line, the name of the process first and the
real UID of its owner at the beginning of a line `Uid:` (`Status`).  The program does not
look at lines: it takes the first `Uid:` that there is, wherever it stands.

* `attributed_iff`: with the lines given, a process is listed under its owner, whoever
  that is, exactly when `Uid:` does not occur in the text before the line `Uid:`.
* `listed_under_root`: a process of user 1000 that calls itself `Uid: 0` is listed under
  root.

In the text before, a hit is followed by a line break, and this by the `U` of the line
`Uid:`, at which `strtol` stops at the latest: what it reads there does not depend on the
owner.
-/

namespace Tlpi.UserProcs

open Tlpi.Lib

/-- A line `Key:<tab>value` other than the line `Uid:`. -/
structure Line where
  key : Bytes
  value : Bytes
  no_newline : 10 ∉ key ++ [58, 9] ++ value
  no_nul : 0 ∉ key ++ [58, 9] ++ value
  not_uid : ¬ uidKey <+: key ++ [58, 9] ++ value

def Line.text (l : Line) : Bytes := l.key ++ [58, 9] ++ l.value ++ [10]

/-- A file `status` but for the real UID: the name of the process, the lines before the
line `Uid:`, the rest of that line after the first number, and the lines after it. -/
structure Status where
  name : Bytes
  before : List Line
  uidRest : Bytes
  after : List Line
  name_no_newline : 10 ∉ name
  name_no_nul : 0 ∉ name
  uidRest_no_newline : 10 ∉ uidRest
  uidRest_no_digit : ∀ c ∈ uidRest.head?, isdigit c = false

/-- The text before the line `Uid:`. -/
def Status.head (st : Status) : Bytes :=
  nameKey ++ 9 :: st.name ++ 10 :: st.before.flatMap Line.text

/-- The file, for a process whose real UID is `uid`. -/
def Status.text (st : Status) (uid : BitVec 32) : Bytes :=
  st.head ++ (uidKey ++ 9 :: (decimal uid.toNat ++ (st.uidRest ++ 10 :: st.after.flatMap Line.text)))

/-- The first number of the line `Uid:` is among the bytes that are read. -/
def Status.Fits (st : Status) (uid : BitVec 32) : Prop :=
  st.head.length + 5 + (decimal uid.toNat).length ≤ MAX_LINE - 1

/-- **The process is listed under its owner**: whichever user owns it and whichever user
is asked for, it is printed if and only if they are the same. -/
def Attributed (st : Status) : Prop :=
  ∀ (realUid : BitVec 32), st.Fits realUid →
    ∀ (getpwnam : Bytes → Option (BitVec 32)) (user : Bytes) (entries : List Entry)
      (rows : List Row) (e : Entry), main getpwnam user entries = some rows →
      (entries.map Entry.name).Nodup → e ∈ entries → e.isProcess = true →
      e.status = some (st.text realUid) →
      ((∃ r ∈ rows, r.pid = e.name) ↔ realUid = userIdFromName getpwnam (some user))

/-! ### The text that is read -/

section Text

variable {st : Status} {uid : BitVec 32}

/-- The line `Uid:` stands at the beginning of a line. -/
theorem Status.head_eq (st : Status) : ∃ b, st.head = b ++ [10] := by
  rcases List.eq_nil_or_concat st.before with h | ⟨ls, l, h⟩
  · exact ⟨nameKey ++ 9 :: st.name, by rw [Status.head, h]; rfl⟩
  · refine ⟨nameKey ++ 9 :: st.name ++ 10 :: (ls.flatMap Line.text ++ (l.key ++ [58, 9] ++ l.value)), ?_⟩
    simp [Status.head, h, Line.text]

theorem Line.zero_not_mem_text (l : Line) : 0 ∉ l.text := by
  rw [Line.text, List.mem_append, not_or]
  exact ⟨l.no_nul, by decide⟩

theorem Status.zero_not_mem_head (st : Status) : 0 ∉ st.head := by
  have hlines : 0 ∉ st.before.flatMap Line.text := by
    rw [List.mem_flatMap]
    rintro ⟨l, -, hl⟩
    exact l.zero_not_mem_text hl
  simp [Status.head, nameKey, st.name_no_nul, hlines]

theorem zero_not_mem_decimal (n : Nat) : 0 ∉ decimal n := by
  intro h
  have := isdigit_of_mem_decimal h
  revert this
  decide

theorem mem_head?_mono {s t : Bytes} (h : s <+: t) {c : UInt8} (hc : c ∈ s.head?) :
    c ∈ t.head? := by
  obtain ⟨u, rfl⟩ := h
  cases s with
  | nil => cases hc
  | cons d s => exact hc

/-- What is read: all up to the number, and then something that begins with no digit. -/
theorem buffer_text (h : st.Fits uid) : ∃ rest : Bytes, (∀ c ∈ rest.head?, isdigit c = false) ∧
    buffer (st.text uid) = st.head ++ (uidKey ++ 9 :: (decimal uid.toNat ++ rest)) := by
  have hdigit : ∀ c ∈ (st.uidRest ++ 10 :: st.after.flatMap Line.text).head?, isdigit c = false := by
    intro c hc
    cases hrest : st.uidRest with
    | nil =>
      rw [hrest] at hc
      cases hc
      decide
    | cons d ds =>
      rw [hrest] at hc
      exact st.uidRest_no_digit c (by rw [hrest]; exact hc)
  have htext : st.text uid = (st.head ++ (uidKey ++ 9 :: decimal uid.toNat)) ++
      (st.uidRest ++ 10 :: st.after.flatMap Line.text) := by
    simp [Status.text]
  have hnul : ∀ c ∈ st.head ++ (uidKey ++ 9 :: decimal uid.toNat), decide (c ≠ 0) = true := by
    intro c hc
    rw [decide_eq_true_iff]
    rintro rfl
    have hhead := st.zero_not_mem_head
    have hdec := zero_not_mem_decimal uid.toNat
    simp [uidKey, hhead, hdec] at hc
  have hlen : (st.head ++ (uidKey ++ 9 :: decimal uid.toNat)).length ≤ MAX_LINE - 1 := by
    have hfits : st.head.length + 5 + (decimal uid.toNat).length ≤ MAX_LINE - 1 := h
    simp only [List.length_append, List.length_cons, uidKey, List.length_nil]
    omega
  refine ⟨((st.uidRest ++ 10 :: st.after.flatMap Line.text).take
    (MAX_LINE - 1 - (st.head ++ (uidKey ++ 9 :: decimal uid.toNat)).length)).takeWhile (· ≠ 0), ?_, ?_⟩
  · intro c hc
    refine hdigit c (mem_head?_mono ?_ hc)
    exact (List.takeWhile_prefix _).trans (List.take_prefix ..)
  · rw [buffer, htext, List.take_append, List.take_of_length_le hlen,
      List.takeWhile_append_of_pos hnul]
    simp

end Text

/-! ### The number that is read -/

section Number

variable {u rest : Bytes}

/-- At the line `Uid:` it is the real UID. -/
theorem processUid_uidLine (uid : BitVec 32) (hrest : ∀ c ∈ rest.head?, isdigit c = false) :
    processUid (uidKey ++ 9 :: (decimal uid.toNat ++ rest)) = uid := by
  have hdrop : (decimal uid.toNat ++ rest).dropWhile isspace = decimal uid.toNat ++ rest := by
    obtain ⟨c, ds, hc⟩ := List.exists_cons_of_ne_nil (decimal_ne_nil uid.toNat)
    have hdigit : isdigit c = true := isdigit_of_mem_decimal (by rw [hc]; exact List.mem_cons_self)
    rw [hc, List.cons_append, List.dropWhile_cons, isspace_of_isdigit hdigit]
    rfl
  have hlong : toLong uid.toNat = uid.toNat := by
    have := uid.isLt
    rw [toLong]
    omega
  show BitVec.ofInt 32 (strtol ((decimal uid.toNat ++ rest).dropWhile isspace)).1 = uid
  rw [hdrop, strtol_decimal uid.toNat hrest, hlong, BitVec.ofInt_natCast, BitVec.ofNat_toNat,
    BitVec.setWidth_eq]

/-- Anywhere before, it does not depend on what the line `Uid:` says. -/
theorem processUid_before (hu : uidKey <+: u) (t t' : Bytes) :
    processUid (u ++ 10 :: (uidKey ++ t)) = processUid (u ++ 10 :: (uidKey ++ t')) := by
  obtain ⟨v, rfl⟩ := hu
  have hdrop : ∀ t, ((uidKey ++ v) ++ 10 :: (uidKey ++ t)).drop 5 =
      (v ++ [10]).tail ++ 85 :: ([105, 100, 58] ++ t) := by
    intro t
    cases v <;> simp [uidKey]
  rw [processUid, processUid, hdrop, hdrop, dropWhile_append_cons (by decide),
    dropWhile_append_cons (by decide)]
  exact congrArg _ (strtol_append_cons (by decide) (by decide) (by decide) (by decide) _ _ _)

end Number

/-! ### What is printed -/

section Print

variable {uid : BitVec 32} {e : Entry} {entries : List Entry} {r : Row}

/-- Where a line is printed, the file has been read and both keys have been found in it. -/
theorem row_eq_some (h : row uid e = some r) :
    ∃ status nameLine uidLine, e.status = some status ∧
      strstr nameKey (buffer status) = some nameLine ∧
      strstr uidKey (buffer status) = some uidLine ∧ processUid uidLine = uid ∧
      r = ⟨e.name, cmdName nameLine⟩ := by
  rw [row] at h
  split at h
  · cases h
  · split at h
    · cases h
    · next status hstatus =>
      split at h
      · cases h
      · split at h
        · next nameLine uidLine hn hu =>
          split at h
          · next huid => exact ⟨status, nameLine, uidLine, hstatus, hn, hu, huid, by cases h; rfl⟩
          · cases h
        · cases h

theorem row_pid (h : row uid e = some r) : r.pid = e.name := by
  obtain ⟨status, nameLine, uidLine, -, -, -, -, rfl⟩ := row_eq_some h
  rfl

theorem mem_loop : r ∈ loop uid entries ↔ ∃ e ∈ entries, row uid e = some r := by
  induction entries with
  | nil => simp [loop]
  | cons e entries ih => simp [loop, ih]

/-- The names in a directory differ, so a line with the name of an entry is the line of
that entry. -/
theorem exists_mem_loop (hnodup : (entries.map Entry.name).Nodup) (he : e ∈ entries) :
    (∃ r ∈ loop uid entries, r.pid = e.name) ↔ (row uid e).isSome = true := by
  constructor
  · rintro ⟨r, hr, hpid⟩
    obtain ⟨e', he', hrow⟩ := mem_loop.mp hr
    have heq : e' = e := List.inj_on_of_nodup_map hnodup he' he (by rw [← row_pid hrow, hpid])
    rw [← heq, hrow]
    rfl
  · intro h
    obtain ⟨r, hr⟩ := Option.isSome_iff_exists.mp h
    exact ⟨r, mem_loop.mpr ⟨e, he, hr⟩, row_pid hr⟩

/-- A process whose file has been read up to the number is printed if the number that was
found is the one that was asked for. -/
theorem row_isSome {st : Status} {realUid : BitVec 32} {u : Bytes} (he : e.isProcess = true)
    (hstatus : e.status = some (st.text realUid)) (hfits : st.Fits realUid)
    (hu : strstr uidKey (buffer (st.text realUid)) = some u) :
    (row uid e).isSome = true ↔ processUid u = uid := by
  obtain ⟨rest, -, hbuffer⟩ := buffer_text hfits
  have hname : strstr nameKey (buffer (st.text realUid)) = some (buffer (st.text realUid)) := by
    apply strstr_self
    rw [hbuffer, Status.head, List.append_assoc, List.append_assoc]
    exact List.prefix_append ..
  have hne : st.text realUid ≠ [] := by
    intro h
    rw [h] at hu
    cases hu
  simp only [row, he, not_true, if_false, hstatus, if_neg hne, hname, hu]
  split
  · next h => simp [h]
  · next h => simp [h]

end Print

/-- What `strstr` finds: the line `Uid:`, unless there is an earlier hit. -/
theorem strstr_uidKey (st : Status) (t : Bytes) :
    (¬ uidKey <:+: st.head → strstr uidKey (st.head ++ (uidKey ++ t)) = some (uidKey ++ t)) ∧
    (uidKey <:+: st.head → ∃ u, uidKey <+: u ∧
      ∀ t, strstr uidKey (st.head ++ (uidKey ++ t)) = some (u ++ 10 :: (uidKey ++ t))) := by
  obtain ⟨b, hb⟩ := st.head_eq
  have hsplit : ∀ t, strstr uidKey (st.head ++ (uidKey ++ t)) =
      ((strstr uidKey b).map (· ++ 10 :: (uidKey ++ t))).or (some (uidKey ++ t)) := by
    intro t
    have hsep := @strstr_append_cons uidKey 10 (by decide) (by decide) b (uidKey ++ t)
    rw [strstr_self (List.prefix_append uidKey t)] at hsep
    rw [hb, List.append_assoc]
    exact hsep
  have hhead : strstr uidKey st.head = (strstr uidKey b).map (· ++ [10]) := by
    rw [hb, strstr_append_cons (by decide) (by decide), strstr, if_neg (by decide), Option.or_none]
  constructor
  · intro hno
    rw [← strstr_eq_none, hhead, Option.map_eq_none_iff] at hno
    rw [hsplit, hno]
    rfl
  · intro hyes
    cases hu : strstr uidKey b with
    | none =>
      rw [hu] at hhead
      exact absurd hyes (strstr_eq_none.mp hhead)
    | some u =>
      refine ⟨u, (strstr_eq_some hu).1, fun t => ?_⟩
      rw [hsplit, hu]
      rfl

theorem main_eq_some {getpwnam : Bytes → Option (BitVec 32)} {user : Bytes} {entries : List Entry}
    {rows : List Row} (h : main getpwnam user entries = some rows) :
    rows = loop (userIdFromName getpwnam (some user)) entries := by
  rw [main] at h
  split at h
  · cases h
  · simp only at h
    split at h
    · cases h
    · cases h
      rfl

/-- Without an earlier hit the process is listed under its owner. -/
theorem attributed_of_not_infix {st : Status} (hno : ¬ uidKey <:+: st.head) : Attributed st := by
  intro realUid hfits getpwnam user entries rows e hmain hnodup he hprocess hstatus
  obtain ⟨rest, hrest, hbuffer⟩ := buffer_text hfits
  have hu : strstr uidKey (buffer (st.text realUid)) =
      some (uidKey ++ 9 :: (decimal realUid.toNat ++ rest)) := by
    rw [hbuffer]
    exact (strstr_uidKey st _).1 hno
  rw [main_eq_some hmain, exists_mem_loop hnodup he, row_isSome hprocess hstatus hfits hu,
    processUid_uidLine realUid hrest]

/-- A directory with one process, asked for the user that `getpwnam` says has the UID
`uid`. -/
theorem main_singleton {uid : BitVec 32} (huid : uid ≠ -1) (e : Entry) :
    userIdFromName (fun _ => some uid) (some [97]) = uid ∧
      main (fun _ => some uid) [97] [e] = some (loop uid [e]) := by
  have hid : userIdFromName (fun _ => some uid) (some [97]) = uid := by
    have hrest : (strtol [97]).2 ≠ [] := by decide
    simp [userIdFromName, hrest]
  refine ⟨hid, ?_⟩
  rw [main, if_neg (by decide), hid]
  exact if_neg huid

/-- With an earlier hit, one of the users 0 and 1 does not see his process. -/
theorem not_attributed_of_infix {st : Status} (hyes : uidKey <:+: st.head)
    (hfits : st.Fits 0 ∧ st.Fits 1) : ¬ Attributed st := by
  intro hattr
  obtain ⟨u, hu, hfound⟩ := (strstr_uidKey st []).2 hyes
  obtain ⟨realUid, hfit, hreal, hne⟩ : ∃ realUid : BitVec 32, st.Fits realUid ∧ realUid ≠ -1 ∧
      processUid (u ++ 10 :: uidKey) ≠ realUid := by
    by_cases h0 : processUid (u ++ 10 :: uidKey) = 0
    · exact ⟨1, hfits.2, by decide, by rw [h0]; decide⟩
    · exact ⟨0, hfits.1, by decide, h0⟩
  obtain ⟨rest, -, hbuffer⟩ := buffer_text hfit
  have hstr := hfound (9 :: (decimal realUid.toNat ++ rest))
  rw [← hbuffer] at hstr
  obtain ⟨e, hprocess, hstatus⟩ : ∃ e : Entry, e.isProcess = true ∧
      e.status = some (st.text realUid) := ⟨⟨[49], some (st.text realUid)⟩, rfl, rfl⟩
  have hnodup : ([e].map Entry.name).Nodup := List.nodup_singleton _
  obtain ⟨hid, hmain⟩ := main_singleton hreal e
  have hiff := hattr realUid hfit _ _ _ _ e hmain hnodup List.mem_cons_self hprocess hstatus
  rw [hid, exists_mem_loop hnodup List.mem_cons_self, row_isSome hprocess hstatus hfit hstr] at hiff
  have hsame := processUid_before hu (9 :: (decimal realUid.toNat ++ rest)) []
  rw [List.append_nil] at hsame
  exact hne (hsame.symm.trans (hiff.mpr rfl))

/-- **When a process is listed under its owner.**  Let the lines of the file `status` be
given, such that a UID of one digit is within what is read.  Then whoever owns the process
and whoever is asked for, it is printed if and only if they are the same, exactly when
`Uid:` does not occur before the line `Uid:`, in the name of the process or anywhere
else. -/
theorem attributed_iff (st : Status) (hfits : st.Fits 0) :
    Attributed st ↔ ¬ uidKey <:+: st.head := by
  refine ⟨fun hattr hyes => ?_, attributed_of_not_infix⟩
  have hone : st.Fits 1 := hfits
  exact not_attributed_of_infix hyes ⟨hfits, hone⟩ hattr

/-- The file of a process with the name `name`, as far as the UID. -/
def statusOf (name : Bytes) (h : 10 ∉ name ∧ 0 ∉ name) : Status where
  name := name
  before := []
  uidRest := [9, 48]
  after := []
  name_no_newline := h.1
  name_no_nul := h.2
  uidRest_no_newline := by decide
  uidRest_no_digit := by
    rintro c ⟨⟩
    decide

/-- A process with the name `sh`. -/
theorem attributed_iff_sh : ¬ uidKey <:+: (statusOf [115, 104] (by decide)).head ∧
    Attributed (statusOf [115, 104] (by decide)) := by
  have hno : ¬ uidKey <:+: (statusOf [115, 104] (by decide)).head := by decide
  refine ⟨hno, (attributed_iff _ ?_).mpr hno⟩
  show _ ≤ _
  decide

/-- **Listed under root.**  Process 1 has the name `Uid: 0` and belongs to user 1000, and
the program prints it when it is asked for root. -/
theorem listed_under_root :
    main (fun _ => some 0) [114, 111, 111, 116]
        [⟨[49], some ((statusOf [85, 105, 100, 58, 32, 48] (by decide)).text 1000)⟩] =
      some [⟨[49], [85, 105, 100, 58]⟩] ∧
    userIdFromName (fun _ => some 0) (some [114, 111, 111, 116]) ≠ 1000 := by
  decide

end Tlpi.UserProcs
