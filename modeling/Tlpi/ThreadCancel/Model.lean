import Tlpi.Lib.Cancel

/-!
# Threads that are cancelled

The thread functions of `chapter32/thread_cancel.c`, and `criticalSectionThread` of
`chapter32/pthread_testcancel.c`, as the calls that matter for cancellation.  The arguments of
`printf` and of the sleeping calls do not, and `i` occurs only there.  The calls that set the
cancellation state and type succeed, as their arguments are valid; `errExit` would end the
process.
-/

namespace Tlpi.ThreadCancel

open Tlpi.Lib Tlpi.Lib.Cancel

/-- `cleanup_handler`, which both files have. -/
def cleanupHandler : List Call := [.printf, .free]

def asyncCancelThread : List Stmt :=
  calls [.printf, .setcancelstate .enable false, .setcanceltype .asynchronous, .strdup, .push] ++
    [.forever [.printf, .sleep]] ++ calls (pop cleanupHandler)

def deferredCancelThread : List Stmt :=
  calls [.printf, .setcancelstate .enable false, .setcanceltype .deferred, .strdup, .push] ++
    [.loop 20 [.printf, .testcancel, .usleep]] ++ calls (pop cleanupHandler ++ [.printf])

def disabledCancelThread : List Stmt :=
  calls [.printf, .setcancelstate .disable true, .printf, .strdup, .push] ++
    [.loop 5 [.printf, .sleep]] ++ calls [.printf, .setcancelstate .enable false] ++
    [.loop 10 [.printf, .testcancel, .sleep]] ++ calls (pop cleanupHandler ++ [.printf])

def criticalSectionThread : List Stmt :=
  calls [.printf, .strdup, .push] ++
    [.loop 10 [.printf, .testcancel, .printf,
      -- the critical section
      .setcancelstate .disable true, .printf, .sleep, .printf, .restore,
      .printf, .testcancel, .usleep]] ++
    calls (pop cleanupHandler ++ [.printf])

/-- The threads of `thread_cancel.c`. -/
inductive Which
  | async
  | deferred
  | disabled
  deriving DecidableEq, Repr

def Which.code : Which → List Stmt
  | .async => asyncCancelThread
  | .deferred => deferredCancelThread
  | .disabled => disabledCancelThread

end Tlpi.ThreadCancel
