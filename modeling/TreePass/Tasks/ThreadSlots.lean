import TreePass.Lib.Bitmap
import TreePass.Lib.Transition
import Mathlib.Logic.Function.Basic

/-!
# Thread slots

Every thread that works with the store has a thread id, a bit in a bitmap of two words, and maybe a
scratch area, which a table has by thread id.  A thread registers itself, or is created by the task
system, which registers it; either may fail on the way and gives back what it has taken.

* `ThreadSlots` has the bitmap, the table and the ids of the threads.
* `taskRegisterThread`, `taskDeregisterThread` and `taskThreadCreate` are the calls.
* `threadSystem` are all sequences of calls.

A call is one step.  A created thread deregisters itself when its function returns; that is a call
like any other.  Scratch areas are named in the order of their allocation.
-/

namespace TreePass
namespace Tasks

open Lib (testAt ffs)

/-! ## State -/

/-- `MAX_THREADS`. -/
def maxThreads : Nat := 128

/-- `INVALID_TID`. -/
def invalidTid : Nat := maxThreads

/-- The part of a `task_system` about thread ids, and the id of every thread. -/
structure ThreadSlots where
  /-- `tid_bitmask`: a bit that is set is free. -/
  tidBitmask : List (BitVec 64)
  maxTid : Nat
  /-- `thread_scratch`, by thread id. -/
  threadScratch : Nat → Option Nat
  /-- The next scratch area. -/
  nextScratch : Nat
  /-- The scratch areas that have been freed, the latest first. -/
  freed : List Nat
  /-- `platform_get_tid`, by thread. -/
  tid : Nat → Nat

/-- What a call returns. -/
inductive CallStatus where
  | ok
  | busy
  | noMemory
  | createFailed
  deriving DecidableEq, Repr

/-- The assertions of the calls.  The first two are about the caller. -/
inductive SlotAssertion where
  | alreadyRegistered
  | notRegistered
  | scratchExists
  | bitmaskChanged
  | idNotInUse
  | idTooLarge
  deriving DecidableEq, Repr

/-- A call of a thread. -/
inductive ThreadCall where
  /-- `task_register_thread`; `hasMemory` is whether the scratch area can be allocated. -/
  | register (scratchSize : Nat) (hasMemory : Bool)
  /-- `task_deregister_thread`. -/
  | deregister
  /-- `task_thread_create` of a thread, with the outcomes of both allocations and of
  `platform_thread_create`. -/
  | create (thread scratchSize : Nat) (hasMemory hasArgMemory created : Bool)

namespace ThreadSlots

variable (s : ThreadSlots)

/-- `task_system_create`, before any thread has been registered. -/
def init : ThreadSlots where
  tidBitmask := List.replicate ((maxThreads + 63) / 64) (BitVec.allOnes 64)
  maxTid := 0
  threadScratch := fun _ => none
  nextScratch := 0
  freed := []
  tid := fun _ => invalidTid

def InUse (id : Nat) : Prop := id < maxThreads ∧ testAt s.tidBitmask id = false

/-! ## Ids -/

/-- The loop of `task_allocate_threadid` over the words that are left: `i`, `old_bitmask` and `pos`
where it ends. -/
def scanBitmask : List (BitVec 64) → Nat → BitVec 64 → Nat → Nat × BitVec 64 × Nat
  | [], i, oldBitmask, pos => (i, oldBitmask, pos)
  | word :: words, i, oldBitmask, pos =>
      if pos = 0 then scanBitmask words (i + 1) word (ffs word) else (i, oldBitmask, pos)

/-- `task_allocate_threadid`: the first free id, if there is one. -/
def allocateThreadid : Except SlotAssertion (Option Nat × ThreadSlots) :=
  let scan := scanBitmask s.tidBitmask 0 0 0
  if scan.2.2 = 0 then .ok (none, s)
  else
    let i := scan.1 - 1
    let bit := scan.2.2 - 1
    if s.tidBitmask[i]? = some scan.2.1 then
      let tid := bit + i * 64
      .ok (some tid, { s with
        tidBitmask := s.tidBitmask.set i (scan.2.1 &&& ~~~(1#64 <<< bit))
        maxTid := if s.maxTid < tid then tid else s.maxTid })
    else .error .bitmaskChanged

/-- `task_deallocate_threadid`. -/
def deallocateThreadid (tid : Nat) : Except SlotAssertion ThreadSlots :=
  match s.tidBitmask[tid / 64]? with
  | none => .error .idTooLarge
  | some word =>
      if word.getLsbD (tid % 64) then .error .idNotInUse
      else .ok { s with tidBitmask := s.tidBitmask.set (tid / 64) (word ||| (1#64 <<< (tid % 64))) }

/-! ## Scratch areas -/

def allocScratch (id : Nat) : ThreadSlots :=
  { s with
    threadScratch := Function.update s.threadScratch id (some s.nextScratch)
    nextScratch := s.nextScratch + 1 }

/-- `platform_free` of the scratch area of an id, if it has one: the macro clears the pointer. -/
def freeScratch (id : Nat) : ThreadSlots :=
  match s.threadScratch id with
  | none => s
  | some scratch =>
      { s with
        threadScratch := Function.update s.threadScratch id none
        freed := scratch :: s.freed }

/-- `platform_set_tid` of a thread. -/
def setTid (t id : Nat) : ThreadSlots := { s with tid := Function.update s.tid t id }

/-! ## Calls -/

def giveBack (id : Nat) (status : CallStatus) : Except SlotAssertion (CallStatus × ThreadSlots) :=
  (s.deallocateThreadid id).map fun s => (status, s)

/-- `task_register_thread` by thread `t`, which may have inherited the id 0. -/
def taskRegisterThread (t scratchSize : Nat) (hasMemory : Bool) :
    Except SlotAssertion (CallStatus × ThreadSlots) :=
  if ¬ (s.tid t = invalidTid ∨ s.tid t = 0) then .error .alreadyRegistered
  else
    match s.allocateThreadid with
    | .error e => .error e
    | .ok (none, s) => .ok (.busy, s)
    | .ok (some id, s) =>
        if s.threadScratch id ≠ none then .error .scratchExists
        else if 0 < scratchSize ∧ hasMemory = false then s.giveBack id .noMemory
        else
          let s := if 0 < scratchSize then s.allocScratch id else s
          if ¬ id < maxThreads then .error .idTooLarge
          else .ok (.ok, s.setTid t id)

/-- `task_deregister_thread` by thread `t`. -/
def taskDeregisterThread (t : Nat) : Except SlotAssertion (CallStatus × ThreadSlots) :=
  if s.tid t = invalidTid then .error .notRegistered
  else ((s.freeScratch (s.tid t)).setTid t invalidTid).giveBack (s.tid t) .ok

/-- `task_thread_create`, with the beginning of the new thread. -/
def taskThreadCreate (thread scratchSize : Nat) (hasMemory hasArgMemory created : Bool) :
    Except SlotAssertion (CallStatus × ThreadSlots) :=
  match s.allocateThreadid with
  | .error e => .error e
  | .ok (none, s) => .ok (.busy, s)
  | .ok (some id, s) =>
      if 0 < scratchSize ∧ hasMemory = false then s.giveBack id .noMemory
      else
        let s := if 0 < scratchSize then s.allocScratch id else s
        if hasArgMemory = false then (s.freeScratch id).giveBack id .noMemory
        else if created = false then (s.freeScratch id).giveBack id .createFailed
        else if ¬ id < maxThreads then .error .idTooLarge
        else .ok (.ok, s.setTid thread id)

def call (t : Nat) : ThreadCall → Except SlotAssertion (CallStatus × ThreadSlots)
  | .register scratchSize hasMemory => s.taskRegisterThread t scratchSize hasMemory
  | .deregister => s.taskDeregisterThread t
  | .create thread scratchSize hasMemory hasArgMemory created =>
      s.taskThreadCreate thread scratchSize hasMemory hasArgMemory created

/-- A thread that is created is not a thread that has an id already. -/
def Fresh : ThreadCall → Prop
  | .create thread _ _ _ _ => s.tid thread = invalidTid
  | _ => True

instance (c : ThreadCall) : Decidable (s.Fresh c) := by
  cases c
  · exact instDecidableTrue
  · exact instDecidableTrue
  · exact inferInstanceAs (Decidable (_ = _))

/-- The state after a call that may be made.  A failed assertion ends the run. -/
def next (a : Nat × ThreadCall) : Option ThreadSlots :=
  if s.Fresh a.2 then
    match s.call a.1 a.2 with
    | .ok (_, s') => some s'
    | .error _ => none
  else none

end ThreadSlots

def threadSystem : Lib.System ThreadSlots (Nat × ThreadCall) :=
  .ofFun (· = ThreadSlots.init) ThreadSlots.next

end Tasks
end TreePass
