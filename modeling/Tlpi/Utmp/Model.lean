import Tlpi.Lib.Endian
import Tlpi.Lib.Field

/-!
# Login records

The records of the files `utmp` and `wtmp`, and three functions that go through them:
`searchUser` and `findLoginLogout` of `chapter40/utmpx.c`, and `showUtmpInfo` of
`chapter40/getlogin.c`.

A record is in memory as `struct utmpx` has it: `ut_type` and `ut_pid`, then `ut_line`,
`ut_id`, `ut_user` and `ut_host`, then the rest of the structure and what lies behind it.  The
functions hand `ut_user` and `ut_line` to `strcmp` and to `printf` as strings, which end at the
first NUL, in the field or behind it.  A `strcmp` that is compared with 0 is an equation of
strings.

What a function prints is a list of lines, where a line that shows a record is the record.
-/

namespace Tlpi.Utmp

open Tlpi.Lib

/-- `ut_type`. -/
inductive UtType
  | EMPTY
  | RUN_LVL
  | BOOT_TIME
  | NEW_TIME
  | OLD_TIME
  | INIT_PROCESS
  | LOGIN_PROCESS
  | USER_PROCESS
  | DEAD_PROCESS
  | other (n : BitVec 16)
  deriving DecidableEq

/-- `struct utmpx`; `rest` begins with the exit status, the session, the time, the address and
the reserved bytes, 52 bytes in all. -/
structure Utmpx where
  utType : UtType
  pid : BitVec 32
  line : Bytes
  id : Bytes
  user : Bytes
  host : Bytes
  rest : Bytes
  line_length : line.length = 32
  id_length : id.length = 4
  user_length : user.length = 32
  host_length : host.length = 256
  rest_length : 52 ≤ rest.length
  deriving DecidableEq

namespace Utmpx

/-- The memory from `ut_line` on, from `ut_user` on, and from `ut_host` on. -/
def lineMem (ut : Utmpx) : Bytes := ut.line ++ (ut.id ++ (ut.user ++ (ut.host ++ ut.rest)))

def userMem (ut : Utmpx) : Bytes := ut.user ++ (ut.host ++ ut.rest)

def hostMem (ut : Utmpx) : Bytes := ut.host ++ ut.rest

/-- `ut->ut_line` and `ut->ut_user` as strings. -/
def lineString (ut : Utmpx) : Bytes := cstrOf ut.lineMem

def userString (ut : Utmpx) : Bytes := cstrOf ut.userMem

/-- What the fields themselves hold: their bytes up to the first NUL or to the end of the
field. -/
def lineField (ut : Utmpx) : Bytes := cstrOf ut.line

def userField (ut : Utmpx) : Bytes := cstrOf ut.user

/-- What `localtime(&ut->ut_tv.tv_sec)` takes for a time: eight bytes, of which the last four
are the microseconds. -/
def time (ut : Utmpx) : BitVec 64 := BitVec.ofNat 64 (ofLeBytes ((ut.rest.drop 8).take 8))

/-- A record as `main` of `tlpi-dist/loginacct/utmpx_login.c` fills it: the structure is all
zero, the strings are put into their fields with `strncpy`, `ut_id` is what follows the first
three characters of the terminal, and the time is in seconds. -/
def fill (utType : UtType) (pid : BitVec 32) (line user host : Bytes) (sec : BitVec 32) :
    Utmpx where
  utType := utType
  pid := pid
  line := strncpyField 32 line
  id := strncpyField 4 (line.drop 3)
  user := strncpyField 32 user
  host := strncpyField 256 host
  rest := List.replicate 8 0 ++ (encodeInt sec ++ List.replicate 40 0)
  line_length := length_strncpyField ..
  id_length := length_strncpyField ..
  user_length := length_strncpyField ..
  host_length := length_strncpyField ..
  rest_length := by
    rw [List.length_append, List.length_append, length_encodeInt, List.length_replicate,
      List.length_replicate]

end Utmpx

/-! ### `searchUser` -/

/-- What `printUtmpEntry(ut)` shows: strings, the time, the process and the type. -/
structure Entry where
  user : Bytes
  line : Bytes
  host : Bytes
  time : BitVec 64
  pid : Int
  utType : UtType
  deriving DecidableEq

def printUtmpEntry (ut : Utmpx) : Entry :=
  ⟨ut.userString, ut.lineString, cstrOf ut.hostMem, ut.time, ut.pid.toInt, ut.utType⟩

/-- A line of the output of `searchUser`: what is searched for, the head of the table, a record
(as `printUtmpEntry` shows it), or that there is none. -/
inductive SearchLine
  | banner (username filename : CStr)
  | columns
  | record (ut : Utmpx)
  | notFound (username : CStr)
  deriving DecidableEq

/-- The `while` loop, with `found`. -/
def searchLoop (username : CStr) : List Utmpx → Bool → List SearchLine × Bool
  | [], found => ([], found)
  | ut :: uts, found =>
      if ut.userString = username.bytes then
        let (lines, found') := searchLoop username uts true
        ((if found then [] else [.columns]) ++ .record ut :: lines, found')
      else searchLoop username uts found

/-- `searchUser(filename, username)`; `none` stands for a `utmpxname` that fails. -/
def searchUser (filename username : CStr) (file : Option (List Utmpx)) : List SearchLine :=
  .banner username filename ::
    match file with
    | none => []
    | some uts =>
        let (lines, found) := searchLoop username uts false
        lines ++ if found then [] else [.notFound username]

/-! ### `findLoginLogout` -/

/-- What a line of `findLoginLogout` shows of a record: the time, the name that was asked for,
whether it is a login, the terminal and the process. -/
structure LoginLine where
  time : BitVec 64
  username : Bytes
  login : Bool
  line : Bytes
  pid : Int
  deriving DecidableEq

def loginLine (username : CStr) (ut : Utmpx) : LoginLine :=
  ⟨ut.time, username.bytes, ut.utType = .USER_PROCESS, ut.lineString, ut.pid.toInt⟩

/-- The test in the loop. -/
def isLoginLogout (username : CStr) (ut : Utmpx) : Bool :=
  ut.userString = username.bytes ∧ (ut.utType = .USER_PROCESS ∨ ut.utType = .DEAD_PROCESS)

/-- A line of the output of `findLoginLogout`: whom it is about, or a record (as its
`loginLine`). -/
inductive HistoryLine
  | banner (username : CStr)
  | record (ut : Utmpx)
  deriving DecidableEq

/-- The `while` loop: the records that are shown. -/
def loginLoop (username : CStr) : List Utmpx → List Utmpx
  | [] => []
  | ut :: uts =>
      if isLoginLogout username ut then ut :: loginLoop username uts else loginLoop username uts

/-- `findLoginLogout(filename, username)`; `none` stands for a `utmpxname` that fails. -/
def findLoginLogout (username : CStr) (file : Option (List Utmpx)) : List HistoryLine :=
  .banner username ::
    match file with
    | none => []
    | some uts => (loginLoop username uts).map .record

/-! ### `showUtmpInfo` -/

/-- `ttyBase`: what is behind the last `'/'`. -/
def ttyBase (tty : CStr) : Bytes :=
  match strrchr 47 tty.bytes with
  | some t => t.tail
  | none => tty.bytes

/-- The record at which the loop stops. -/
def utmpRecord (tty : CStr) : List Utmpx → Option Utmpx
  | [] => none
  | ut :: uts =>
      if ut.utType = .USER_PROCESS ∧ ut.lineString = ttyBase tty then some ut
      else utmpRecord tty uts

/-- A line of the output of `showUtmpInfo`. -/
inductive InfoLine
  | banner
  | searching (base : Bytes)
  | found (ut : Utmpx)
  | notFound
  | noTerminal
  deriving DecidableEq

/-- `showUtmpInfo()`, `tty` being what `ttyname` returns. -/
def showUtmpInfo (tty : Option CStr) (file : List Utmpx) : List InfoLine :=
  .banner ::
    match tty with
    | none => [.noTerminal]
    | some tty =>
        [.searching (ttyBase tty),
          match utmpRecord tty file with
          | some ut => .found ut
          | none => .notFound]

end Tlpi.Utmp
