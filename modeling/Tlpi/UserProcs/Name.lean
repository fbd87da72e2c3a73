import Mathlib.Data.List.TakeWhile
import Tlpi.UserProcs.Owner

/-!
# The command that is printed

The file `status` begins with the line `Name:`, and what is behind the key is the name of
the process.  The program takes the first word behind the first `Name:`, over a line break
if it has to, and at most 255 bytes of it.

* `cmdName_nameText`: a word of at most 255 bytes is printed as it is.
* `cmdName_spec`: whatever is printed is a word of at most 255 bytes.
* `command_eq_iff`: so the command is the name exactly if the name is such a word.  An empty
  name is not: the program prints the first word of the next line instead.
-/

namespace Tlpi.UserProcs

open Tlpi.Lib

/-- A file `status`: the line `Name:`, and whatever comes after it. -/
def nameText (name rest : Bytes) : Bytes := nameKey ++ 9 :: (name ++ 10 :: rest)

/-- A word that fits into `cmdName`. -/
def IsWord (name : Bytes) : Prop :=
  name ≠ [] ∧ (∀ c ∈ name, isspace c = false) ∧ name.length ≤ 255

instance (name : Bytes) : Decidable (IsWord name) := inferInstanceAs (Decidable (_ ∧ _ ∧ _))

section Word

variable {name rest s : Bytes}

/-- What is printed is at most 255 bytes long and has no white space in it. -/
theorem cmdName_spec (s : Bytes) :
    (∀ c ∈ cmdName s, isspace c = false) ∧ (cmdName s).length ≤ 255 := by
  refine ⟨fun c hc => ?_, ?_⟩
  · have hword := List.mem_takeWhile_imp (List.mem_of_mem_take hc)
    simpa using hword
  · rw [cmdName, List.length_take]
    exact Nat.min_le_left ..

/-- A word is printed as it is. -/
theorem cmdName_nameText (h : IsWord name) (rest : Bytes) :
    cmdName (nameText name rest) = name := by
  obtain ⟨hne, hspace, hlen⟩ := h
  obtain ⟨c, t, rfl⟩ := List.exists_cons_of_ne_nil hne
  have hc : isspace c = false := hspace c List.mem_cons_self
  have hdrop : ((nameText (c :: t) rest).drop 5).dropWhile isspace = (c :: t) ++ 10 :: rest := by
    show (9 :: c :: (t ++ 10 :: rest)).dropWhile isspace = _
    rw [List.dropWhile_cons, if_pos (by decide), List.dropWhile_cons, hc]
    rfl
  have hword : ((c :: t) ++ 10 :: rest).takeWhile (fun c => !isspace c) = c :: t := by
    rw [takeWhile_append_cons (by decide)]
    exact List.takeWhile_eq_self_iff.mpr fun d hd => by rw [hspace d hd]; rfl
  rw [cmdName, hdrop, hword, List.take_of_length_le hlen]

/-- Without a word there is only white space. -/
theorem isspace_of_cmdName_eq_nil (h : cmdName s = []) : ∀ c ∈ s.drop 5, isspace c = true := by
  rw [← List.dropWhile_eq_nil_iff]
  cases hw : (s.drop 5).dropWhile isspace with
  | nil => rfl
  | cons c t =>
    have hc : isspace c = false := by
      have := List.head?_dropWhile_not isspace (s.drop 5)
      rw [hw] at this
      simpa using this
    rw [cmdName, hw, List.takeWhile_cons, hc] at h
    cases h

/-- After an empty name it is a word of what follows that is printed, as `Uid:` is in it. -/
theorem cmdName_ne_nil (h : (strstr uidKey (nameText [] rest)).isSome = true) :
    cmdName (nameText [] rest) ≠ [] := by
  intro hnil
  have hspace : ∀ c ∈ rest, isspace c = true := fun c hc =>
    isspace_of_cmdName_eq_nil hnil c (List.mem_cons_of_mem _ (List.mem_cons_of_mem _ hc))
  have hrest : strstr uidKey rest = strstr uidKey (nameText [] rest) := by
    have h9 := @strstr_append_cons uidKey 9 (by decide) (by decide) nameKey (10 :: rest)
    have h10 := @strstr_append_cons uidKey 10 (by decide) (by decide) [] rest
    rw [show strstr uidKey nameKey = none by decide] at h9
    rw [show strstr uidKey [] = none by decide] at h10
    exact (h9.trans h10).symm
  rw [← hrest] at h
  obtain ⟨t, ht⟩ := Option.isSome_iff_exists.mp h
  obtain ⟨hkey, hsuffix⟩ := strstr_eq_some ht
  have hmem : (85 : UInt8) ∈ rest := hsuffix.subset (hkey.subset (by decide))
  have := hspace 85 hmem
  revert this
  decide

/-- What is read of the file, if the name fits. -/
theorem buffer_nameText (hnul : 0 ∉ name) (hlen : name.length ≤ 255) (rest : Bytes) :
    ∃ rest', buffer (nameText name rest) = nameText name rest' := by
  have hsplit : ∀ rest, nameText name rest = (nameKey ++ 9 :: (name ++ [10])) ++ rest := by
    intro rest
    simp [nameText]
  have hfits : (nameKey ++ 9 :: (name ++ [10])).length ≤ MAX_LINE - 1 := by
    simp only [List.length_append, List.length_cons, nameKey, List.length_nil, MAX_LINE]
    omega
  have hpos : ∀ c ∈ nameKey ++ 9 :: (name ++ [10]), decide (c ≠ 0) = true := by
    intro c hc
    rw [decide_eq_true_iff]
    rintro rfl
    simp [nameKey, hnul] at hc
  refine ⟨(rest.take (MAX_LINE - 1 - (nameKey ++ 9 :: (name ++ [10])).length)).takeWhile (· ≠ 0), ?_⟩
  rw [buffer, hsplit, hsplit, List.take_append, List.take_of_length_le hfits,
    List.takeWhile_append_of_pos hpos]

/-- The line `Name:` is where `strstr` finds the key. -/
theorem strstr_nameKey (name rest : Bytes) :
    strstr nameKey (buffer (nameText name rest)) = some (buffer (nameText name rest)) := by
  apply strstr_self
  have hkey : ∀ t : Bytes, buffer (nameKey ++ t) = nameKey ++ (t.take 994).takeWhile (· ≠ 0) :=
    fun _ => rfl
  rw [nameText, hkey]
  exact List.prefix_append ..

end Word

section Row

variable {uid : BitVec 32} {e : Entry} {r : Row} {name rest : Bytes}

/-- The command of a line is the name exactly if the name is a word. -/
theorem command_of_row (hnul : 0 ∉ name) (hstatus : e.status = some (nameText name rest))
    (h : row uid e = some r) : r.command = name ↔ IsWord name := by
  obtain ⟨status, nameLine, uidLine, hs, hn, hu, -, rfl⟩ := row_eq_some h
  obtain rfl := Option.some.inj (hs.symm.trans hstatus)
  obtain rfl := Option.some.inj ((strstr_nameKey name rest).symm.trans hn)
  show cmdName (buffer (nameText name rest)) = name ↔ IsWord name
  constructor
  · intro hname
    obtain ⟨hspace, hlen⟩ := cmdName_spec (buffer (nameText name rest))
    rw [hname] at hspace hlen
    refine ⟨?_, hspace, hlen⟩
    rintro rfl
    obtain ⟨rest', hrest'⟩ := buffer_nameText hnul (by decide) rest
    rw [hrest'] at hname hu
    exact cmdName_ne_nil (by rw [hu]; rfl) hname
  · intro hword
    obtain ⟨rest', hrest'⟩ := buffer_nameText hnul hword.2.2 rest
    rw [hrest', cmdName_nameText hword rest']

end Row

/-- **When the command is the name of the process.**  Let the file of a process begin with
the line `Name:`, whatever follows.  If the process is listed, the command in its line is the
name exactly if the name is not empty, has no white space in it and has at most 255 bytes. -/
theorem command_eq_iff {getpwnam : Bytes → Option (BitVec 32)} {user : Bytes} {entries : List Entry}
    {rows : List Row} {e : Entry} {r : Row} {name rest : Bytes}
    (hmain : main getpwnam user entries = some rows) (hnodup : (entries.map Entry.name).Nodup)
    (he : e ∈ entries) (hname : 10 ∉ name ∧ 0 ∉ name)
    (hstatus : e.status = some (nameText name rest)) (hr : r ∈ rows) (hpid : r.pid = e.name) :
    r.command = name ↔ IsWord name := by
  rw [main_eq_some hmain] at hr
  obtain ⟨e', he', hrow⟩ := mem_loop.mp hr
  have heq : e' = e := List.inj_on_of_nodup_map hnodup he' he (by rw [← row_pid hrow, hpid])
  subst heq
  exact command_of_row hname.2 hstatus hrow

/-- Process 1, with the name `sh` and the user 0. -/
theorem command_eq_iff_sh :
    main (fun _ => some 0) [97] [⟨[49], some (nameText [115, 104] [85, 105, 100, 58, 9, 48])⟩] =
        some [⟨[49], [115, 104]⟩] ∧
      ((⟨[49], [115, 104]⟩ : Row).command = [115, 104] ↔ IsWord [115, 104]) := by
  have hmain : main (fun _ => some 0) [97]
      [⟨[49], some (nameText [115, 104] [85, 105, 100, 58, 9, 48])⟩] =
        some [⟨[49], [115, 104]⟩] := by decide
  exact ⟨hmain, command_eq_iff hmain (by decide) List.mem_cons_self (by decide) rfl
    List.mem_cons_self rfl⟩

/-- Process 1 has the name `a b` and is printed as `a`. -/
theorem command_cut_at_space :
    ¬ ∀ (getpwnam : Bytes → Option (BitVec 32)) (user : Bytes) (entries : List Entry)
      (rows : List Row) (e : Entry) (r : Row) (name rest : Bytes),
      main getpwnam user entries = some rows → (entries.map Entry.name).Nodup → e ∈ entries →
      10 ∉ name ∧ 0 ∉ name → e.status = some (nameText name rest) → r ∈ rows → r.pid = e.name →
      r.command = name := by
  intro h
  have hmain : main (fun _ => some 0) [97]
      [⟨[49], some (nameText [97, 32, 98] [85, 105, 100, 58, 9, 48])⟩] = some [⟨[49], [97]⟩] := by
    decide
  have hcommand := h _ _ _ _ _ _ [97, 32, 98] _ hmain (by decide) List.mem_cons_self (by decide)
    rfl List.mem_cons_self rfl
  revert hcommand
  decide

end Tlpi.UserProcs
