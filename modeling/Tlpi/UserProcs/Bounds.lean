import Tlpi.Lib.Field
import Tlpi.UserProcs.Name

/-!
# How far the program looks

The same program on memory: `buffer` and what comes after it, with pointers as indices.
`parse` is what happens between the two calls of `strstr` and `printf`, with every index at
which a character is looked at and every index of `cmdName` that is stored to.

* `walk_eq`: a loop that moves a pointer over characters looks at all of them and at the
  first one behind.
* `walk_le`: it stops at a NUL, if that is not before where it starts.
* `parse_in_bounds_iff`: nothing behind the NUL that was put at the end of what was read is
  looked at, exactly if the first `Uid:` does not end there, as five bytes are skipped for a
  key of four.
* `parse_command`: where that does not happen, `row` is what the program prints.
-/

namespace Tlpi.UserProcs

open Tlpi.Lib

/-- The string that begins at `i`. -/
def stringAt (mem : Bytes) (i : Nat) : Bytes := cstrOf (mem.drop i)

/-- `strstr(buffer, pat)`, as an index. -/
def strstrAt (pat mem : Bytes) : Option Nat :=
  (strstr pat (stringAt mem 0)).map fun t => (stringAt mem 0).length - t.length

/-- `while (p(*ptr)) ptr++`: the characters that are looked at, and where the pointer is in
the end.  Outside the memory the loop is over. -/
def walk (p : UInt8 → Bool) (mem : Bytes) (i : Nat) : List Nat × Nat :=
  if h : i < mem.length then
    if p mem[i] then (i :: (walk p mem (i + 1)).1, (walk p mem (i + 1)).2) else ([i], i)
  else ([i], i)
termination_by mem.length - i

/-- What `strtol` looks at: white space, a sign and digits, and the first character behind. -/
def strtolSeen (mem : Bytes) (i : Nat) : List Nat :=
  let (spaces, j) := walk isspace mem i
  let k := if mem[j]? = some 45 ∨ mem[j]? = some 43 then j + 1 else j
  spaces ++ (walk isdigit mem k).1

/-- The copy of the name: the characters that are looked at, the values of `i` at which
`cmdName[i]` is stored to, the last of them for the terminator, and the string in `cmdName`. -/
def copyName (mem : Bytes) (j i : Nat) : List Nat × List Nat × Bytes :=
  if h : j < mem.length then
    if !isspace mem[j] && mem[j] ≠ 0 && i < 255 then
      let (seen, stores, name) := copyName mem (j + 1) (i + 1)
      (j :: seen, i :: stores, mem[j] :: name)
    else ([j], [i], [])
  else ([j], [i], [])
termination_by mem.length - j

/-- What one pass does after the two searches. -/
structure Parse where
  seen : List Nat
  stores : List Nat
  command : Option Bytes
  deriving DecidableEq

/-- From `if (nameLinePtr != NULL && uidLinePtr != NULL)` on, for the user `uid`. -/
def parse (uid : BitVec 32) (mem : Bytes) : Parse :=
  match strstrAt nameKey mem, strstrAt uidKey mem with
  | some nameLine, some uidLine =>
      let (seenUid, uidStart) := walk isspace mem (uidLine + 5)
      if BitVec.ofInt 32 (strtol (stringAt mem uidStart)).1 = uid then
        let (seenName, nameStart) := walk isspace mem (nameLine + 5)
        let (seenCopy, stores, command) := copyName mem nameStart 0
        ⟨seenUid ++ strtolSeen mem uidStart ++ seenName ++ seenCopy, stores, some command⟩
      else ⟨seenUid ++ strtolSeen mem uidStart, [], none⟩
  | _, _ => ⟨[], [], none⟩

/-! ### Loops over characters -/

section Walk

variable {p : UInt8 → Bool} {mem s rest : Bytes} {i j n : Nat}

/-- The loop passes over the characters with `p` and looks at the first one without. -/
theorem walk_eq (p : UInt8 → Bool) (mem : Bytes) (i : Nat) :
    walk p mem i = (List.range' i (((mem.drop i).takeWhile p).length + 1),
      i + ((mem.drop i).takeWhile p).length) := by
  fun_induction walk p mem i with
  | case1 i h hp ih =>
    rw [ih, List.drop_eq_getElem_cons h, List.takeWhile_cons, if_pos hp, List.length_cons]
    refine Prod.ext (List.range'_succ ..).symm ?_
    exact Nat.add_right_comm ..
  | case2 i h hp =>
    rw [List.drop_eq_getElem_cons h, List.takeWhile_cons, if_neg hp]
    rfl
  | case3 i h =>
    rw [List.drop_eq_nil_of_le (by omega)]
    rfl

theorem length_takeWhile_le {c : UInt8} {m : Nat} (hs : s[m]? = some c) (hc : p c = false) :
    (s.takeWhile p).length ≤ m := by
  induction s generalizing m with
  | nil => exact Nat.zero_le m
  | cons d s ih =>
    rw [List.takeWhile_cons]
    split
    · next hd =>
      cases m with
      | zero =>
        obtain rfl : d = c := Option.some.inj hs
        rw [hc] at hd
        cases hd
      | succ m => exact Nat.succ_le_succ (ih hs)
    · exact Nat.zero_le m

/-- A loop that stops at NUL does not get over the NUL at `n`. -/
theorem walk_le (hp : p 0 = false) (hn : mem[n]? = some 0) (hi : i ≤ n) :
    (∀ k ∈ (walk p mem i).1, k ≤ n) ∧ (walk p mem i).2 ≤ n := by
  have hlen : ((mem.drop i).takeWhile p).length ≤ n - i := by
    refine length_takeWhile_le (c := 0) ?_ hp
    rw [List.getElem?_drop, Nat.add_sub_cancel' hi, hn]
  rw [walk_eq]
  refine ⟨fun k hk => ?_, by show i + _ ≤ n; omega⟩
  rw [List.mem_range'_1] at hk
  omega

theorem start_mem_walk (p : UInt8 → Bool) (mem : Bytes) (i : Nat) : i ∈ (walk p mem i).1 := by
  rw [walk_eq, List.mem_range'_1]
  omega

theorem strtolSeen_le (hn : mem[n]? = some 0) (hi : i ≤ n) : ∀ k ∈ strtolSeen mem i, k ≤ n := by
  obtain ⟨hspaces, hj⟩ := walk_le (p := isspace) (by decide) hn hi
  intro k hk
  simp only [strtolSeen] at hk
  rcases List.mem_append.mp hk with hk | hk
  · exact hspaces k hk
  · refine (walk_le (p := isdigit) (by decide) hn ?_).1 k hk
    -- a sign is no NUL, so behind it there is still the NUL at `n`
    split
    · next hsign =>
      have hne : (walk isspace mem i).2 ≠ n := by
        intro heq
        rw [heq, hn] at hsign
        revert hsign
        decide
      omega
    · exact hj

theorem copyName_seen_le (hn : mem[n]? = some 0) (hj : j ≤ n) (i : Nat) :
    ∀ k ∈ (copyName mem j i).1, k ≤ n := by
  fun_induction copyName mem j i with
  | case1 j i h hc seen stores name hrec ih =>
    have hne : j ≠ n := by
      rintro rfl
      rw [List.getElem?_eq_getElem h, Option.some.injEq] at hn
      simp [hn] at hc
    intro k hk
    rcases List.mem_cons.mp hk with rfl | hk
    · exact hj
    · exact ih (by omega) k (by rw [hrec]; exact hk)
  | case2 j i h hc =>
    intro k hk
    rw [List.mem_singleton.mp hk]
    exact hj
  | case3 j i h =>
    intro k hk
    rw [List.mem_singleton.mp hk]
    exact hj

/-- `i` never exceeds 255. -/
theorem copyName_stores_le (mem : Bytes) (j : Nat) (hi : i ≤ 255) :
    ∀ k ∈ (copyName mem j i).2.1, k ≤ 255 := by
  fun_induction copyName mem j i with
  | case1 j i h hc seen stores name hrec ih =>
    have hlt : i < 255 := by simpa using (Bool.and_eq_true_iff.mp hc).2
    intro k hk
    rcases List.mem_cons.mp hk with rfl | hk
    · exact hi
    · exact ih hlt k (by rw [hrec]; exact hk)
  | case2 j i h hc =>
    intro k hk
    rw [List.mem_singleton.mp hk]
    exact hi
  | case3 j i h =>
    intro k hk
    rw [List.mem_singleton.mp hk]
    exact hi

end Walk

/-! ### The two searches -/

section Search

variable {pat data tail : Bytes} {u : Nat}

/-- The string in `buffer` ends at the first NUL that was read, or at the one that was put
behind what was read. -/
theorem stringAt_zero (data tail : Bytes) :
    stringAt (data ++ 0 :: tail) 0 = cstrOf data :=
  cstrOf_append_zero data tail

/-- What is found lies in what was read. -/
theorem strstrAt_add_le (h : strstrAt pat (data ++ 0 :: tail) = some u) :
    u + pat.length ≤ (cstrOf data).length := by
  rw [strstrAt, stringAt_zero] at h
  obtain ⟨t, ht, hu⟩ := Option.map_eq_some_iff.mp h
  obtain ⟨hkey, hsuffix⟩ := strstr_eq_some ht
  have hlen := hsuffix.length_le
  have hpat := hkey.length_le
  omega

theorem strstrAt_isSome : (strstrAt pat (data ++ 0 :: tail)).isSome = true ↔
    pat <:+: cstrOf data := by
  rw [strstrAt, stringAt_zero, Option.isSome_map, ← not_iff_not, ← strstr_eq_none]
  simp

/-- `Uid:` is found at the very end of what was read. -/
theorem strstrAt_uidKey_last :
    strstrAt uidKey (data ++ 0 :: tail) = some u ∧ u + 4 = data.length ↔
      0 ∉ data ∧ strstr uidKey data = some uidKey ∧ u = data.length - 4 := by
  constructor
  · rintro ⟨h, hu⟩
    have hle : (cstrOf data).length ≤ data.length := (length_cstrOf_le data)
    have hfull : cstrOf data = data := by
      have hadd : u + 4 ≤ (cstrOf data).length := strstrAt_add_le h
      exact (List.takeWhile_prefix _).eq_of_length (by change (cstrOf data).length = _; omega)
    rw [strstrAt, stringAt_zero, hfull] at h
    obtain ⟨t, ht, hut⟩ := Option.map_eq_some_iff.mp h
    obtain ⟨hkey, hsuffix⟩ := strstr_eq_some ht
    have hlen := hsuffix.length_le
    have h4 : uidKey.length ≤ t.length := hkey.length_le
    have hkey4 : uidKey.length = 4 := rfl
    have ht4 : uidKey = t := hkey.eq_of_length (by omega)
    exact ⟨cstrOf_eq_self.mp hfull, ht4 ▸ ht, by omega⟩
  · rintro ⟨hnul, hstr, rfl⟩
    have hlen : uidKey.length ≤ data.length := (strstr_eq_some hstr).2.length_le
    have hkey4 : uidKey.length = 4 := rfl
    refine ⟨?_, by omega⟩
    rw [strstrAt, stringAt_zero, cstrOf_eq_self.mpr hnul, hstr]
    rfl

end Search

/-! ### Bounds -/

/-- `Name:` has been found, and the first `Uid:` is the last four bytes that were read. -/
def UidAtEnd (data : Bytes) : Prop :=
  0 ∉ data ∧ nameKey <:+: data ∧ strstr uidKey data = some uidKey

instance (data : Bytes) : Decidable (UidAtEnd data) := inferInstanceAs (Decidable (_ ∧ _ ∧ _))

/-- Every character that is looked at is at `n` or before, and `i` is at most 255. -/
def Parse.InBounds (r : Parse) (n : Nat) : Prop :=
  (∀ k ∈ r.seen, k ≤ n) ∧ ∀ i ∈ r.stores, i ≤ 255

section Parse

variable {uid : BitVec 32} {data tail : Bytes} {nameLine uidLine : Nat}

/-- Where both keys are found and the second is not at the end. -/
theorem parse_inBounds_of_lt (hname : strstrAt nameKey (data ++ 0 :: tail) = some nameLine)
    (huid : strstrAt uidKey (data ++ 0 :: tail) = some uidLine) (hlt : uidLine + 4 < data.length) :
    (parse uid (data ++ 0 :: tail)).InBounds data.length := by
  have hn : (data ++ 0 :: tail)[data.length]? = some 0 := by simp
  have hnameLine : nameLine + 5 ≤ data.length :=
    (strstrAt_add_le hname).trans (length_cstrOf_le data)
  obtain ⟨hseenUid, huidStart⟩ := walk_le (p := isspace) (by decide) hn (i := uidLine + 5) hlt
  obtain ⟨hseenName, hnameStart⟩ := walk_le (p := isspace) (by decide) hn hnameLine
  have hstrtol := strtolSeen_le hn huidStart
  have hcopy := copyName_seen_le hn hnameStart 0
  have hstores := copyName_stores_le (data ++ 0 :: tail)
    (walk isspace (data ++ 0 :: tail) (nameLine + 5)).2 (Nat.zero_le 255)
  simp only [parse, hname, huid]
  split
  · refine ⟨fun k hk => ?_, hstores⟩
    simp only [List.mem_append] at hk
    rcases hk with ((hk | hk) | hk) | hk
    · exact hseenUid k hk
    · exact hstrtol k hk
    · exact hseenName k hk
    · exact hcopy k hk
  · refine ⟨fun k hk => ?_, nofun⟩
    rcases List.mem_append.mp hk with hk | hk
    · exact hseenUid k hk
    · exact hstrtol k hk

/-- Five bytes behind a `Uid:` at the end is behind the NUL, and that is looked at. -/
theorem not_inBounds_of_uidAtEnd (h : UidAtEnd data) :
    ¬ (parse uid (data ++ 0 :: tail)).InBounds data.length := by
  obtain ⟨hnul, hkey, hstr⟩ := h
  obtain ⟨huid, hlen⟩ := (@strstrAt_uidKey_last data tail _).mpr ⟨hnul, hstr, rfl⟩
  have hname : (strstrAt nameKey (data ++ 0 :: tail)).isSome = true := by
    rw [strstrAt_isSome, cstrOf_eq_self.mpr hnul]
    exact hkey
  obtain ⟨nameLine, hname⟩ := Option.isSome_iff_exists.mp hname
  intro hin
  have hseen : data.length - 4 + 5 ∈ (parse uid (data ++ 0 :: tail)).seen := by
    have hstart := start_mem_walk isspace (data ++ 0 :: tail) (data.length - 4 + 5)
    simp only [parse, hname, huid]
    split
    · simp only [List.mem_append]
      exact .inl (.inl (.inl hstart))
    · exact List.mem_append_left _ hstart
  have := hin.1 _ hseen
  omega

/-- If a key is missing nothing is looked at. -/
theorem parse_of_missing (h : strstrAt nameKey (data ++ 0 :: tail) = none ∨
    strstrAt uidKey (data ++ 0 :: tail) = none) :
    parse uid (data ++ 0 :: tail) = ⟨[], [], none⟩ := by
  unfold parse
  rcases h with h | h
  · rw [h]
  · rw [h]
    cases strstrAt nameKey (data ++ 0 :: tail) <;> rfl

end Parse

/-- **When the program stays inside what it has read.**  Let `data` be what was read, with a
NUL put behind it, and `tail` whatever is in memory behind that.  No character behind the NUL
is looked at after the two searches, and `i` is at most 255, exactly if `Name:` is missing or
the first `Uid:` is not at the very end of `data`. -/
theorem parse_in_bounds_iff (uid : BitVec 32) (data tail : Bytes) :
    (parse uid (data ++ 0 :: tail)).InBounds data.length ↔ ¬ UidAtEnd data := by
  refine ⟨fun hin hend => not_inBounds_of_uidAtEnd hend hin, fun hend => ?_⟩
  cases hname : strstrAt nameKey (data ++ 0 :: tail) with
  | none =>
    rw [parse_of_missing (.inl hname)]
    exact ⟨nofun, nofun⟩
  | some nameLine =>
    cases huid : strstrAt uidKey (data ++ 0 :: tail) with
    | none =>
      rw [parse_of_missing (.inr huid)]
      exact ⟨nofun, nofun⟩
    | some uidLine =>
      have hle : uidLine + 4 ≤ data.length :=
        (strstrAt_add_le huid).trans (length_cstrOf_le data)
      refine parse_inBounds_of_lt hname huid (lt_of_le_of_ne hle fun heq => hend ?_)
      obtain ⟨hnul, hstr, -⟩ := strstrAt_uidKey_last.mp ⟨huid, heq⟩
      have hkey := strstrAt_isSome.mp (by rw [hname]; rfl : (strstrAt nameKey _).isSome = true)
      rw [cstrOf_eq_self.mpr hnul] at hkey
      exact ⟨hnul, hkey, hstr⟩

/-- `Name:<tab>a<newline>Uid:` has been read, and no more.  The character at index 13 is
looked at, the NUL being at index 12. -/
theorem parse_out_of_bounds :
    1 ≤ ([78, 97, 109, 101, 58, 9, 97, 10, 85, 105, 100, 58] : Bytes).length ∧
      ([78, 97, 109, 101, 58, 9, 97, 10, 85, 105, 100, 58] : Bytes).length ≤ MAX_LINE - 1 ∧
      ∀ (uid : BitVec 32) (tail : Bytes),
        ¬ (parse uid ([78, 97, 109, 101, 58, 9, 97, 10, 85, 105, 100, 58] ++ 0 :: tail)).InBounds
          12 :=
  ⟨by decide, by decide, fun _ _ => not_inBounds_of_uidAtEnd (by decide)⟩

/-! ### The lines that are printed -/

section Command

variable {uid : BitVec 32} {s rest : Bytes} {i : Nat} {e : Entry} {status : Bytes}

/-- A string in memory, from one of its characters on. -/
theorem stringAt_eq (hs : 0 ∉ s) (hi : i ≤ s.length) (rest : Bytes) :
    stringAt (s ++ 0 :: rest) i = s.drop i := by
  rw [stringAt, List.drop_append_of_le_length hi, cstrOf_append_zero]
  exact cstrOf_eq_self.mpr fun h => hs (List.mem_of_mem_drop h)

/-- The pointer skips what `dropWhile` drops. -/
theorem drop_walk {p : UInt8 → Bool} (hp : p 0 = false) (hi : i ≤ s.length) (rest : Bytes) :
    (walk p (s ++ 0 :: rest) i).2 ≤ s.length ∧
      s.drop (walk p (s ++ 0 :: rest) i).2 = (s.drop i).dropWhile p := by
  have hlen : ((s.drop i).takeWhile p).length ≤ s.length - i := by
    rw [← List.length_drop]
    exact (List.takeWhile_prefix p).length_le
  rw [walk_eq, List.drop_append_of_le_length hi, takeWhile_append_cons hp]
  refine ⟨by show i + _ ≤ _; omega, ?_⟩
  calc s.drop (i + ((s.drop i).takeWhile p).length)
      = (s.drop i).drop ((s.drop i).takeWhile p).length := List.drop_drop.symm
    _ = ((s.drop i).takeWhile p ++ (s.drop i).dropWhile p).drop ((s.drop i).takeWhile p).length := by
        rw [List.takeWhile_append_dropWhile]
    _ = (s.drop i).dropWhile p := List.drop_left

/-- The string in `cmdName`. -/
theorem copyName_eq (mem : Bytes) (j i : Nat) : (copyName mem j i).2.2 =
    ((mem.drop j).takeWhile fun c => !isspace c && c ≠ 0).take (255 - i) := by
  fun_induction copyName mem j i with
  | case1 j i h hc seen stores name hrec ih =>
    obtain ⟨hword, hlt⟩ := Bool.and_eq_true_iff.mp hc
    have hsub : 255 - i = (255 - (i + 1)) + 1 := by
      have : i < 255 := of_decide_eq_true hlt
      omega
    rw [hrec] at ih
    rw [List.drop_eq_getElem_cons h, List.takeWhile_cons, if_pos hword, hsub, List.take_succ_cons]
    exact congrArg _ ih
  | case2 j i h hc =>
    rw [List.drop_eq_getElem_cons h, List.takeWhile_cons]
    split
    · next hword =>
      rw [hword, Bool.true_and] at hc
      have : 255 - i = 0 := by
        have : ¬ i < 255 := fun hlt => hc (decide_eq_true hlt)
        omega
      rw [this]
      rfl
    · exact List.take_nil.symm
  | case3 j i h => rw [List.drop_eq_nil_of_le (by omega)]; exact List.take_nil.symm

/-- A key that was found, as a pointer and as the string behind it. -/
theorem strstrAt_eq {pat t : Bytes} (hs : 0 ∉ s) (ht : strstr pat s = some t) (rest : Bytes) :
    strstrAt pat (s ++ 0 :: rest) = some (s.length - t.length) ∧
      s.drop (s.length - t.length) = t := by
  refine ⟨?_, ?_⟩
  · rw [strstrAt, stringAt_zero, cstrOf_eq_self.mpr hs, ht]
    rfl
  · obtain ⟨a, rfl⟩ := (strstr_eq_some ht).2
    rw [List.length_append, Nat.add_sub_cancel]
    exact List.drop_left

/-- The user that is found behind `Uid:`. -/
theorem processUid_eq {t : Bytes} (hs : 0 ∉ s) (ht : strstr uidKey s = some t) (hne : t ≠ uidKey)
    (rest : Bytes) :
    BitVec.ofInt 32 (strtol (stringAt (s ++ 0 :: rest)
      (walk isspace (s ++ 0 :: rest) (s.length - t.length + 5)).2)).1 = processUid t := by
  obtain ⟨hkey, hsuffix⟩ := strstr_eq_some ht
  have hlen := hsuffix.length_le
  have h4 : uidKey.length < t.length :=
    lt_of_le_of_ne hkey.length_le fun h => hne (hkey.eq_of_length h).symm
  have hkey4 : uidKey.length = 4 := rfl
  have hi : s.length - t.length + 5 ≤ s.length := by omega
  obtain ⟨hle, hdrop⟩ := drop_walk (p := isspace) (by decide) hi rest
  rw [stringAt_eq hs hle, hdrop, ← List.drop_drop, (strstrAt_eq hs ht rest).2]
  rfl

theorem takeWhile_word {w : Bytes} (hw : 0 ∉ w) :
    (w.takeWhile fun c => !isspace c && c ≠ 0) = w.takeWhile fun c => !isspace c := by
  induction w with
  | nil => rfl
  | cons c w ih =>
    rw [List.mem_cons, not_or] at hw
    have hc : decide (c ≠ 0) = true := decide_eq_true (Ne.symm hw.1)
    rw [List.takeWhile_cons, List.takeWhile_cons, hc, Bool.and_true, ih hw.2]

/-- The name that is copied. -/
theorem cmdName_eq {t : Bytes} (hs : 0 ∉ s) (ht : strstr nameKey s = some t) (rest : Bytes) :
    (copyName (s ++ 0 :: rest) (walk isspace (s ++ 0 :: rest) (s.length - t.length + 5)).2 0).2.2 =
      cmdName t := by
  obtain ⟨hkey, hsuffix⟩ := strstr_eq_some ht
  have hlen := hsuffix.length_le
  have h5 : nameKey.length ≤ t.length := hkey.length_le
  have hkey5 : nameKey.length = 5 := rfl
  have hi : s.length - t.length + 5 ≤ s.length := by omega
  obtain ⟨hle, hdrop⟩ := drop_walk (p := isspace) (by decide) hi rest
  have hnul : 0 ∉ (s.drop (s.length - t.length + 5)).dropWhile isspace := fun h =>
    hs (List.mem_of_mem_drop ((List.dropWhile_suffix isspace).subset h))
  rw [copyName_eq, List.drop_append_of_le_length hle, takeWhile_append_cons (by decide), hdrop,
    takeWhile_word hnul, ← List.drop_drop, (strstrAt_eq hs ht rest).2]
  rfl

/-- **What is printed.**  Where the first `Uid:` is not the end of the string that was read,
the command is the one of `row`. -/
theorem parse_command (he : e.isProcess = true) (hstatus : e.status = some status)
    (hne : status ≠ []) (hend : strstr uidKey (buffer status) ≠ some uidKey) (tail : Bytes) :
    (parse uid (status.take (MAX_LINE - 1) ++ 0 :: tail)).command = (row uid e).map Row.command := by
  have hnul : 0 ∉ buffer status := zero_not_mem_cstrOf _
  obtain ⟨rest, hrest⟩ := exists_append_zero (status.take (MAX_LINE - 1)) tail
  rw [hrest]
  change (parse uid (buffer status ++ 0 :: rest)).command = _
  have hfull := cstrOf_eq_self.mpr hnul
  simp only [row, he, not_true, if_false, hstatus, if_neg hne]
  cases hn : strstr nameKey (buffer status) with
  | none =>
    rw [parse_of_missing (.inl (by rw [strstrAt, stringAt_zero, hfull, hn]; rfl))]
    rfl
  | some nameLine =>
    cases hu : strstr uidKey (buffer status) with
    | none =>
      rw [parse_of_missing (.inr (by rw [strstrAt, stringAt_zero, hfull, hu]; rfl))]
      rfl
    | some uidLine =>
      have huid := processUid_eq hnul hu (fun h => hend (h ▸ hu)) rest
      have hcmd := cmdName_eq hnul hn rest
      simp only [parse, (strstrAt_eq hnul hn rest).1, (strstrAt_eq hnul hu rest).1, huid]
      by_cases hmatch : processUid uidLine = uid
      · simp only [if_pos hmatch, Option.map_some, hcmd]
      · simp only [if_neg hmatch, Option.map_none]

end Command

end Tlpi.UserProcs
