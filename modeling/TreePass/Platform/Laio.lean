import TreePass.Lib.Transition
import Mathlib.Data.Fin.Basic
import Mathlib.Logic.Function.Basic

/-!
# Submitting asynchronous I/O

A process submits its requests to a kernel queue of fixed size.  A submission that the queue refuses
is tried once more under the lock of a wait queue, and then the submitter waits there.  A thread that
reaps a completed request releases one waiter, if it sees one; the waiter submits again.

* `SubmitPc` and `ReapPc` are the places in `laio_async_run` and in `laio_cleanup_one`.
* `LaioState` is the context of a process with all its submitters and reapers.
* `laioNext` is one access of one thread.

`io_submit`, the reap of an event, the test of the queue's head, the lock, the append, the removal of
the head, the unlock and the callback of a waiter are one access each.  A reaper runs the callback
of the completed request with the reap.
-/

namespace TreePass
namespace Platform

open Lib

/-! ## Places -/

/-- Where a submitter is in `laio_async_run`. -/
inductive SubmitPc where
  | idle
  /-- Before `io_submit` without the lock, for the first time or after a release. -/
  | submit (released : Bool)
  /-- Refused, and waiting for the lock. -/
  | wantLock
  /-- Before `io_submit` with the lock. -/
  | submitLocked
  /-- Refused with the lock. -/
  | refused
  /-- In the wait queue, with the lock. -/
  | appended
  | waiting
  /-- Submitted or failed, with the lock. -/
  | unlock
  deriving DecidableEq, Repr

/-- Where a reaper is in `laio_cleanup_one`. -/
inductive ReapPc (n : Nat) where
  | idle
  /-- An event was reaped; `async_wait_queue_release_one` is about to look at the head. -/
  | test
  | wantLock
  | pop
  /-- With the lock and the waiter that was the head. -/
  | unlock (waiter : Option (Fin n))
  /-- About to call the callback of the waiter. -/
  | release (waiter : Fin n)
  deriving DecidableEq, Repr

def SubmitPc.holds : SubmitPc → Bool
  | .submitLocked | .refused | .appended | .unlock => true
  | _ => false

def SubmitPc.waits : SubmitPc → Bool
  | .appended | .waiting => true
  | _ => false

def ReapPc.holds {n : Nat} : ReapPc n → Bool
  | .pop | .unlock _ => true
  | _ => false

def ReapPc.waiter {n : Nat} : ReapPc n → Option (Fin n)
  | .unlock waiter => waiter
  | .release waiter => some waiter
  | _ => none

/-! ## State -/

/-- The context of a process: `n` submitters, and `m` reapers besides the cleaner. -/
structure LaioState (n m : Nat) where
  /-- The requests in the kernel queue. -/
  inFlight : Nat
  /-- `submit_waiters`, from the head to the tail. -/
  waiters : List (Fin n)
  /-- Who has the lock of the queue. -/
  lock : Option (Fin n ⊕ Fin (m + 1))
  submitter : Fin n → SubmitPc
  reaper : Fin (m + 1) → ReapPc n

/-- One access.  `call` is a new call of `laio_async_run`, the traffic from outside. -/
inductive LaioAct (n m : Nat) where
  | call (i : Fin n)
  /-- `io_submit`, with a hard failure or without. -/
  | submit (i : Fin n) (fails : Bool)
  /-- Any other access of a submitter. -/
  | next (i : Fin n)
  | reap (j : Fin (m + 1))
  /-- Any other access of a reaper. -/
  | wake (j : Fin (m + 1))
  deriving DecidableEq

variable {n m : Nat}

namespace LaioState

variable (s : LaioState n m)

def init : LaioState n m where
  inFlight := 0
  waiters := []
  lock := none
  submitter _ := .idle
  reaper _ := .idle

def setSubmitter (i : Fin n) (pc : SubmitPc) : LaioState n m :=
  { s with submitter := Function.update s.submitter i pc }

def setReaper (j : Fin (m + 1)) (pc : ReapPc n) : LaioState n m :=
  { s with reaper := Function.update s.reaper j pc }

def setLock (lock : Option (Fin n ⊕ Fin (m + 1))) : LaioState n m := { s with lock := lock }

def setInFlight (inFlight : Nat) : LaioState n m := { s with inFlight := inFlight }

def setWaiters (waiters : List (Fin n)) : LaioState n m := { s with waiters := waiters }

/-! ## Accesses -/

/-- `io_submit` by submitter `i` with a kernel queue of `queueSize` requests: `EAGAIN` if it is
full. -/
def submitNext (queueSize : Nat) (i : Fin n) (fails : Bool) : Option (LaioState n m) :=
  match s.submitter i with
  | .submit _ =>
      if fails then some (s.setSubmitter i .idle)
      else if s.inFlight < queueSize then
        some ((s.setInFlight (s.inFlight + 1)).setSubmitter i .idle)
      else some (s.setSubmitter i .wantLock)
  | .submitLocked =>
      if fails then some (s.setSubmitter i .unlock)
      else if s.inFlight < queueSize then
        some ((s.setInFlight (s.inFlight + 1)).setSubmitter i .unlock)
      else some (s.setSubmitter i .refused)
  | _ => none

/-- The other accesses of `laio_async_run`, with `async_wait_queue_append`. -/
def asyncNext (i : Fin n) : Option (LaioState n m) :=
  match s.submitter i with
  | .wantLock =>
      if s.lock = none then some ((s.setLock (some (.inl i))).setSubmitter i .submitLocked) else none
  | .refused => some ((s.setWaiters (s.waiters ++ [i])).setSubmitter i .appended)
  | .appended => some ((s.setLock none).setSubmitter i .waiting)
  | .unlock => some ((s.setLock none).setSubmitter i .idle)
  | _ => none

/-- `async_wait_queue_release_one`. -/
def releaseNext (j : Fin (m + 1)) : Option (LaioState n m) :=
  match s.reaper j with
  | .test => some (s.setReaper j (if s.waiters = [] then .idle else .wantLock))
  | .wantLock =>
      if s.lock = none then some ((s.setLock (some (.inr j))).setReaper j .pop) else none
  | .pop => some ((s.setWaiters s.waiters.tail).setReaper j (.unlock s.waiters.head?))
  | .unlock none => some ((s.setLock none).setReaper j .idle)
  | .unlock (some waiter) => some ((s.setLock none).setReaper j (.release waiter))
  | .release waiter => some ((s.setSubmitter waiter (.submit true)).setReaper j .idle)
  | .idle => none

end LaioState

def laioNext (queueSize : Nat) (s : LaioState n m) : LaioAct n m → Option (LaioState n m)
  | .call i => if s.submitter i = .idle then some (s.setSubmitter i (.submit false)) else none
  | .submit i fails => s.submitNext queueSize i fails
  | .next i => s.asyncNext i
  | .reap j =>
      if s.reaper j = .idle ∧ 0 < s.inFlight then
        some ((s.setInFlight (s.inFlight - 1)).setReaper j .test)
      else none
  | .wake j => s.releaseNext j

def laioSystem (n m queueSize : Nat) : System (LaioState n m) (LaioAct n m) :=
  .ofFun (· = LaioState.init) (laioNext queueSize)

end Platform
end TreePass
