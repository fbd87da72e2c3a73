import Tlpi.Utmp.Search

/-!
# Logins and logouts

A login program writes a record with the name of the user when a session begins, and one
without a name when it ends: the terminal and the process are then what tells whose session it
was.  `findLoginLogout` looks at the name only.

* `told_iff`: for one event, the program decides rightly exactly if the event is `Told`: a
  logout of somebody else, of a name that is not empty, or a login that does not overrun.
* `findLoginLogout_iff`: the history of a user is printed exactly if every event is `Told`.
  So it is not as soon as one of his sessions has ended.
-/

namespace Tlpi.Utmp

open Tlpi.Lib

/-- A session of a user whose name `ut_user` can hold. -/
structure Session where
  user : CStr
  line : CStr
  pid : BitVec 32
  host : CStr
  user_ne : user.bytes ≠ []
  user_fits : user.bytes.length ≤ 32

/-- What happens to a session, and when. -/
inductive Event
  | login (s : Session) (sec : BitVec 32)
  | logout (s : Session) (sec : BitVec 32)

def Event.session : Event → Session
  | .login s _ => s
  | .logout s _ => s

/-- The record that is written: at the logout it is the one of the login but for the type, the
time and the name, which is gone. -/
def Event.record : Event → Utmpx
  | .login s sec => .fill .USER_PROCESS s.pid s.line.bytes s.user.bytes s.host.bytes sec
  | .logout s sec => .fill .DEAD_PROCESS s.pid s.line.bytes [] s.host.bytes sec

/-- The events of the sessions of a user, as records. -/
def historyOf (username : CStr) (events : List Event) : List Utmpx :=
  (events.filter fun e => e.session.user = username).map Event.record

/-- An event about which the program decides rightly. -/
def Event.Told (username : CStr) : Event → Prop
  | .login s _ => ¬ (s.user.bytes.length = 32 ∧ s.host.bytes ≠ [] ∧
      (username = s.user ∨ username.bytes = s.user.bytes ++ s.host.bytes.take 256))
  | .logout s _ => s.user ≠ username ∧ username.bytes ≠ []

section Record

variable {username : CStr} {s : Session} {sec : BitVec 32} {e : Event} {events : List Event}

theorem userField_login : (Event.login s sec).record.userField = s.user.bytes :=
  cstrOf_strncpyField s.user.noNul s.user_fits

theorem userString_logout : (Event.logout s sec).record.userString = [] := by
  have hfield : (Event.logout s sec).record.userField = [] :=
    cstrOf_strncpyField List.not_mem_nil (Nat.zero_le 32)
  have h0 : 0 ∈ (Event.logout s sec).record.user :=
    (zero_mem_strncpyField List.not_mem_nil).mpr (by decide)
  rw [userString_eq, if_pos h0, hfield]

/-- Both types of record are looked at, so it is the name that decides. -/
theorem isLoginLogout_record (e : Event) :
    isLoginLogout username e.record = true ↔ e.record.userString = username.bytes := by
  rw [isLoginLogout, decide_eq_true_iff]
  refine and_iff_left ?_
  cases e with
  | login s sec => exact .inl rfl
  | logout s sec => exact .inr rfl

theorem overruns_login :
    Overruns (Event.login s sec).record username ↔
      s.user.bytes.length = 32 ∧ s.host.bytes ≠ [] ∧
        (username = s.user ∨ username.bytes = s.user.bytes ++ s.host.bytes.take 256) := by
  have hhost : cstrOf (Event.login s sec).record.hostMem = s.host.bytes.take 256 :=
    cstrOf_strncpyField_append s.host.noNul 256 _
  have hhost_nil : s.host.bytes.take 256 ≠ [] ↔ s.host.bytes ≠ [] := by simp
  have hname : username.bytes = s.user.bytes ↔ username = s.user :=
    ⟨CStr.ext, fun h => by rw [h]⟩
  have hfull : 0 ∉ (Event.login s sec).record.user ↔ s.user.bytes.length = 32 := by
    have hmem := zero_mem_strncpyField (n := 32) s.user.noNul
    have hfits := s.user_fits
    rw [show (Event.login s sec).record.user = strncpyField 32 s.user.bytes from rfl, hmem]
    omega
  rw [Overruns, hfull, hhost, hhost_nil]
  refine and_congr_right fun hlen => and_congr_right fun _ => ?_
  have huser : (Event.login s sec).record.user = s.user.bytes := by
    rw [← @userField_login s sec]
    exact (userField_eq_user (hfull.mpr hlen)).symm
  rw [huser, hname]

/-- The program prints the record of an event exactly if it is to, if the event is `Told`. -/
theorem told_iff (e : Event) :
    e.Told username ↔ (isLoginLogout username e.record = true ↔ e.session.user = username) := by
  rw [isLoginLogout_record]
  cases e with
  | login s sec =>
    have hname : s.user.bytes = username.bytes ↔ s.user = username :=
      ⟨CStr.ext, fun h => by rw [h]⟩
    show ¬ _ ↔ _
    rw [← overruns_login, ← userString_eq_iff, userField_login, hname]
    rfl
  | logout s sec =>
    rw [userString_logout]
    show s.user ≠ username ∧ username.bytes ≠ [] ↔ ([] = username.bytes ↔ s.user = username)
    constructor
    · rintro ⟨hother, hne⟩
      exact iff_of_false (fun h => hne h.symm) hother
    · intro hiff
      have hne : username.bytes ≠ [] := fun h => s.user_ne (by rw [hiff.mp h.symm]; exact h)
      exact ⟨fun h => hne (hiff.mpr h).symm, hne⟩

/-! ### The loop -/

theorem loginLoop_eq (username : CStr) (uts : List Utmpx) :
    loginLoop username uts = uts.filter (isLoginLogout username) := by
  induction uts with
  | nil => rfl
  | cons ut uts ih =>
    by_cases hut : isLoginLogout username ut = true
    · rw [loginLoop, if_pos hut, List.filter_cons_of_pos hut, ih]
    · rw [loginLoop, if_neg hut, List.filter_cons_of_neg hut, ih]

/-- If all events are told, the right records are printed. -/
theorem loginLoop_of_told (h : ∀ e ∈ events, e.Told username) :
    loginLoop username (events.map Event.record) = historyOf username events := by
  rw [loginLoop_eq, List.filter_map, historyOf]
  refine congrArg _ (List.filter_congr fun e he => ?_)
  rw [Bool.eq_iff_iff, decide_eq_true_iff]
  exact (told_iff e).mp (h e he)

/-- The record of a login says whose it is. -/
theorem session_user_of_record_eq {e' : Event} (h : e'.record = (Event.login s sec).record) :
    e'.session.user = s.user := by
  cases e' with
  | login s' sec' =>
    have hfield := congrArg Utmpx.userField h
    rw [userField_login, userField_login] at hfield
    exact CStr.ext hfield
  | logout s' sec' => cases congrArg Utmpx.utType h

/-- If the right records are printed, all events are told. -/
theorem told_of_loginLoop (h : loginLoop username (events.map Event.record) = historyOf username events)
    (he : e ∈ events) : e.Told username := by
  have hmem : ∀ ut, ut ∈ events.map Event.record ∧ isLoginLogout username ut = true ↔
      ∃ e ∈ events, e.session.user = username ∧ e.record = ut := by
    intro ut
    rw [← List.mem_filter, ← loginLoop_eq, h, historyOf, List.mem_map]
    simp [List.mem_filter, and_assoc]
  have hshown : e.session.user = username → isLoginLogout username e.record = true :=
    fun huser => ((hmem e.record).mpr ⟨e, he, huser, rfl⟩).2
  rw [told_iff]
  refine ⟨fun hut => ?_, hshown⟩
  obtain ⟨e', he', huser', hrec⟩ := (hmem e.record).mp ⟨List.mem_map_of_mem he, hut⟩
  cases e with
  | login s sec => rw [← huser']; exact (session_user_of_record_eq hrec).symm
  | logout s sec =>
    -- only a user without a name could have this record printed
    rw [isLoginLogout_record, userString_logout] at hut
    exact absurd (by rw [huser', ← hut]) e'.session.user_ne

end Record

/-- **When the history of a user is printed.**  Let the file have the records of any events of
any sessions.  `findLoginLogout` prints the records of the logins and logouts of `username`, in
their order, and no other records, exactly if every event is `Told`: no session of his has
ended, nor anybody's if `username` is empty, and no name of 32 bytes runs into a host. -/
theorem findLoginLogout_iff (username : CStr) (events : List Event) :
    findLoginLogout username (some (events.map Event.record)) =
        .banner username :: (historyOf username events).map .record ↔
      ∀ e ∈ events, e.Told username := by
  have hlines : findLoginLogout username (some (events.map Event.record)) =
        .banner username :: (historyOf username events).map .record ↔
      loginLoop username (events.map Event.record) = historyOf username events := by
    rw [findLoginLogout, List.cons.injEq, and_iff_right rfl]
    exact List.map_inj_right fun _ _ => HistoryLine.record.inj
  rw [hlines]
  exact ⟨fun h e he => told_of_loginLoop h he, loginLoop_of_told⟩

/-- The session of `a` on `tty1`. -/
def sampleSession : Session where
  user := ⟨[97], by decide⟩
  line := ⟨[116, 116, 121, 49], by decide⟩
  pid := 7
  host := ⟨[], by decide⟩
  user_ne := by decide
  user_fits := by decide

/-- User `a` logs in and out, and only the login is printed. -/
theorem findLoginLogout_misses_logout :
    findLoginLogout ⟨[97], by decide⟩
        (some ([.login sampleSession 1, .logout sampleSession 2].map Event.record)) =
      [.banner ⟨[97], by decide⟩, .record (Event.login sampleSession 1).record] ∧
    ¬ ∀ (username : CStr) (events : List Event),
      findLoginLogout username (some (events.map Event.record)) =
        .banner username :: (historyOf username events).map .record := by
  have hrun : findLoginLogout ⟨[97], by decide⟩
      (some ([.login sampleSession 1, .logout sampleSession 2].map Event.record)) =
        [.banner ⟨[97], by decide⟩, .record (Event.login sampleSession 1).record] := by
    decide +kernel
  refine ⟨hrun, fun hall => ?_⟩
  have hlines := congrArg List.length ((hall _ _).symm.trans hrun)
  revert hlines
  decide +kernel

end Tlpi.Utmp
