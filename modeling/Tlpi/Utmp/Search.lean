import Tlpi.Lib.Lists
import Tlpi.Utmp.Model

/-!
# The records of a user

`searchUser` compares `ut_user` with the name as strings, and a name that fills the field runs
into `ut_host`.

* `userString_eq_iff`: the string and the field agree about a name, unless the field is full,
  something follows it, and the name is the field or the field with what follows it
  (`Overruns`).
* `searchUser_eq`: what is printed, in terms of the records whose string is the name.
* `searchUser_iff`: the records of the user are printed exactly if no record overruns.
-/

namespace Tlpi.Utmp

open Tlpi.Lib

/-- The name is taken for that of the record, or not, because `ut_user` has no NUL in it and
`ut_host` is not empty. -/
def Overruns (ut : Utmpx) (username : CStr) : Prop :=
  0 ∉ ut.user ∧ cstrOf ut.hostMem ≠ [] ∧
    (username.bytes = ut.user ∨ username.bytes = ut.user ++ cstrOf ut.hostMem)

instance (ut : Utmpx) (username : CStr) : Decidable (Overruns ut username) :=
  inferInstanceAs (Decidable (_ ∧ _ ∧ _))

/-- The output for the records `uts`. -/
def report (username : CStr) (uts : List Utmpx) : List SearchLine :=
  if uts = [] then [.notFound username] else .columns :: uts.map .record

section User

variable {ut : Utmpx} {username : CStr} {uts uts' : List Utmpx}

theorem userString_eq (ut : Utmpx) :
    ut.userString = if 0 ∈ ut.user then ut.userField else ut.user ++ cstrOf ut.hostMem :=
  cstrOf_append ut.user ut.hostMem

theorem userField_eq_user (h : 0 ∉ ut.user) : ut.userField = ut.user := cstrOf_eq_self.mpr h

/-- The string and the field agree about a name unless the record overruns. -/
theorem userString_eq_iff :
    (ut.userString = username.bytes ↔ ut.userField = username.bytes) ↔ ¬ Overruns ut username := by
  rw [userString_eq]
  by_cases h0 : 0 ∈ ut.user
  · rw [if_pos h0]
    exact ⟨fun _ hover => hover.1 h0, fun _ => Iff.rfl⟩
  · rw [if_neg h0, userField_eq_user h0]
    by_cases hnil : cstrOf ut.hostMem = []
    · rw [hnil, List.append_nil]
      exact ⟨fun _ hover => hover.2.1 hnil, fun _ => Iff.rfl⟩
    · have hne : ut.user ++ cstrOf ut.hostMem ≠ ut.user := fun h =>
        hnil (List.append_right_eq_self.mp h)
      constructor
      · rintro hiff ⟨-, -, hname | hname⟩
        · exact hne ((hiff.mpr hname.symm).trans hname)
        · exact hne (hname.symm.trans (hiff.mp hname.symm).symm)
      · intro hover
        have hnot : ∀ s : Bytes, s = ut.user ∨ s = ut.user ++ cstrOf ut.hostMem →
            s ≠ username.bytes := fun s hs heq => hover ⟨h0, hnil, heq ▸ hs⟩
        exact iff_of_false (hnot _ (.inr rfl)) (hnot _ (.inl rfl))

/-! ### The loop -/

/-- The records whose string is the name. -/
def accepted (username : CStr) (uts : List Utmpx) : List Utmpx :=
  uts.filter fun ut => ut.userString = username.bytes

theorem accepted_cons_of_eq (h : ut.userString = username.bytes) (uts : List Utmpx) :
    accepted username (ut :: uts) = ut :: accepted username uts :=
  List.filter_cons_of_pos (decide_eq_true h)

theorem accepted_cons_of_ne (h : ut.userString ≠ username.bytes) (uts : List Utmpx) :
    accepted username (ut :: uts) = accepted username uts :=
  List.filter_cons_of_neg (by simpa using h)

/-- The head of the table is printed once, before the first record. -/
theorem searchLoop_eq (username : CStr) (uts : List Utmpx) (found : Bool) :
    searchLoop username uts found =
      ((if found ∨ accepted username uts = [] then [] else [.columns]) ++
        (accepted username uts).map .record,
        found || !(accepted username uts).isEmpty) := by
  induction uts generalizing found with
  | nil => simp [searchLoop, accepted]
  | cons ut uts ih =>
    by_cases hut : ut.userString = username.bytes
    · rw [searchLoop, if_pos hut, ih, accepted_cons_of_eq hut]
      cases found <;> simp
    · rw [searchLoop, if_neg hut, ih, accepted_cons_of_ne hut]

theorem searchUser_eq (filename username : CStr) (uts : List Utmpx) :
    searchUser filename username (some uts) =
      .banner username filename :: report username (accepted username uts) := by
  simp only [searchUser, searchLoop_eq, report]
  cases accepted username uts <;> simp

theorem report_inj : report username uts = report username uts' ↔ uts = uts' := by
  refine ⟨fun h => ?_, fun h => by rw [h]⟩
  unfold report at h
  split_ifs at h with h1 h2 h2
  · rw [h1, h2]
  · cases h
  · cases h
  · exact (List.map_inj_right fun _ _ => SearchLine.record.inj).mp (List.cons.inj h).2

end User

/-- **When the records of the user are printed.**  `searchUser` prints the records whose
`ut_user` holds the name, in the order of the file, and that there is none if there is none,
exactly if no record overruns. -/
theorem searchUser_iff (filename username : CStr) (uts : List Utmpx) :
    searchUser filename username (some uts) = .banner username filename ::
        report username (uts.filter fun ut => ut.userField = username.bytes) ↔
      ∀ ut ∈ uts, ¬ Overruns ut username := by
  rw [searchUser_eq, List.cons.injEq, and_iff_right rfl, report_inj, accepted, filter_eq_filter_iff]
  refine forall₂_congr fun ut _ => ?_
  rw [decide_eq_decide, userString_eq_iff]

/-- A name of 32 bytes. -/
def longName : CStr := ⟨List.replicate 32 97, by decide⟩

/-- The record of a user with such a name who has logged in from the host `h` is not found. -/
theorem searchUser_overrun :
    searchUser ⟨[119], by decide⟩ longName
        (some [.fill .USER_PROCESS 1 [116, 116, 121, 49] longName.bytes [104] 0]) =
      [.banner longName ⟨[119], by decide⟩, .notFound longName] ∧
    ¬ ∀ (filename username : CStr) (uts : List Utmpx),
      searchUser filename username (some uts) = .banner username filename ::
        report username (uts.filter fun ut => ut.userField = username.bytes) := by
  have hrun : searchUser ⟨[119], by decide⟩ longName
      (some [.fill .USER_PROCESS 1 [116, 116, 121, 49] longName.bytes [104] 0]) =
        [.banner longName ⟨[119], by decide⟩, .notFound longName] := by decide +kernel
  refine ⟨hrun, fun hall => ?_⟩
  have hreport := (hall _ _ _).symm.trans hrun
  revert hreport
  decide +kernel

end Tlpi.Utmp
