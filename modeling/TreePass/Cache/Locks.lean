import TreePass.Lib.Transition
import TreePass.Cache.Evict
import Mathlib.Algebra.BigOperators.Fin

/-!
# The locks of one cache entry, access by access

A read lock is a reference taken between two looks at the status word; a write lock is a flag
followed by a scan over the reference counters; an eviction, a discard and an aborted load
overwrite the whole word.  Here every access to the word and to the counters is one step of one
of `n` threads.  Accesses to different entries do not interfere, so one entry is enough.

* `EntryWord` is what the threads share, `Thread` what one of them holds and where it stands.
* `threadNext` is the next access of a thread; its `outcome` stands for the tests this model
  leaves open, whether the entry still carries an address and whether a load won its address.
* `LockExclusion` is what the locks are for.
-/

namespace TreePass
namespace Cache

open Lib

/-- The atomically accessed part of an entry: its status word, the stripes of its reference
count and its pin count. -/
structure EntryWord where
  status : EntryStatus
  refcount : Nat → Nat
  pincount : Nat

/-- The values of a pin count, a `uint8`. -/
def pincountMod : Nat := 2 ^ 8

/-- On whose behalf a lock helper runs. -/
inductive Who where
  /-- A caller of `treepass_get` or `treepass_lock`. -/
  | client
  /-- `treepass_try_evict`. -/
  | evict
  /-- `treepass_try_page_discard`. -/
  | discard
  deriving DecidableEq, Repr

/-- The access a thread makes next. -/
inductive Pc where
  | idle
  /-- `treepass_try_get_read`: no write lock seen, about to take the reference. -/
  | readTested (who : Who)
  /-- Reference taken, about to test `TP_FREE`. -/
  | readCounted (who : Who)
  /-- About to test `TP_WRITELOCKED` for the second time. -/
  | readFreeTested (who : Who) (ccFree : Bool)
  /-- A test failed, about to drop the reference. -/
  | readFailed
  /-- `treepass_try_evict`, from its start to its own `treepass_try_get_read`. -/
  | evictSub
  | evictStatus
  | evictRef
  | evictPin
  | evictTryRead
  /-- The evictor has its read lock and is about to claim. -/
  | evictRead
  /-- It has the claim and is about to test `TP_LOADING`. -/
  | evictClaimed
  /-- `treepass_try_page_discard`: waiting for a load, comparing addresses, claiming. -/
  | discardRead
  | discardLoaded
  | discardClaim
  /-- `treepass_get_write` and `treepass_try_get_write`: about to set the flag, to test
  `TP_WRITEBACK`, to read stripe `i`. -/
  | writeStart (who : Who)
  | writeFlag (who : Who)
  | writeScan (who : Who) (i : Nat)
  /-- The evictor backs out, dropping write lock, claim and reference. -/
  | writeUndo
  | claimUndo
  | refUndo
  /-- The evictor holds the write lock and looks again. -/
  | evictVerify
  | evictVerifyPin
  /-- About to store `TP_FREE_STATUS`; then a discard reads the pin count and, if it is not 0,
  resets it, and the reference goes. -/
  | freeStore (who : Who)
  | resetPinTest
  | resetPin
  | refFinal
  /-- `treepass_get_free_page`, for a load or for a new page: about to compare-and-exchange, to
  take the reference, to store the status. -/
  | allocCas (load : Bool)
  | allocInc (load : Bool)
  | allocStore (load : Bool)
  /-- A load has its entry and is about to claim its address, or gives the entry back. -/
  | loadLookup
  | abortRef
  | abortStore
  /-- Reading the page from disk. -/
  | loading
  deriving DecidableEq, Repr

/-- What a thread holds on the entry between operations, and where it stands in one. -/
structure Thread where
  pc : Pc
  readLocks : Nat
  claim : Bool
  write : Bool
  deriving DecidableEq, Repr

/-- Accesses of the writeback and clock code, which any thread may make at any time. -/
inductive OtherAccess where
  | setFlag (f : Flag)
  | clearFlag (f : Flag)
  | addTick
  | subTick
  deriving DecidableEq, Repr

/-- One access.  Everything but `next` starts an operation or is an operation of one access. -/
inductive LockAct where
  | getRead
  | unget
  | tryClaim
  | unclaim
  | lock
  | unlock
  | alloc
  | load
  | tryEvict (eePass : Bool)
  | discard
  | pin
  | unpin
  | other (op : OtherAccess)
  | next (outcome : Bool)
  deriving DecidableEq, Repr

namespace Thread

def goto (th : Thread) (pc : Pc) : Thread := { th with pc := pc }

end Thread

/-- Writeback sets and clears `TP_CLEAN` and `TP_WRITEBACK` only. -/
def OtherAccess.apply (status : EntryStatus) : OtherAccess → Option EntryStatus
  | .setFlag f =>
      if f = .clean ∨ f = .writeback then some (Cache.setFlag status f.mask) else none
  | .clearFlag f =>
      if f = .clean ∨ f = .writeback then some (Cache.clearFlag status f.mask) else none
  | .addTick => some (status + tpClockOne)
  | .subTick => some (status - tpClockOne)

/-- The first test of `treepass_try_get_read`. -/
def startRead (w : EntryWord) (th : Thread) (who : Who) : EntryWord × Thread :=
  if testFlag w.status Flag.writelocked.mask then (w, th.goto .idle)
  else (w, th.goto (.readTested who))

/-- Where a successful `treepass_try_get_read` leaves its caller. -/
def readSuccess (th : Thread) : Who → Thread
  | .client => { th with pc := .idle, readLocks := th.readLocks + 1 }
  | .evict => th.goto .evictRead
  | .discard => th.goto .discardRead

/-- `treepass_try_get_claim` inside an operation. -/
def claimStep (w : EntryWord) (th : Thread) (claimed : Pc) : EntryWord × Thread :=
  ({ w with status := setFlag w.status Flag.claimed.mask },
    th.goto (if testFlag w.status Flag.claimed.mask then .refUndo else claimed))

def writeObtained (th : Thread) : Who → Thread
  | .client => { th with pc := .idle, write := true }
  | .evict => th.goto .evictVerify
  | .discard => th.goto (.freeStore .discard)

/-- A writer that cannot go on: an evictor backs out, the others wait. -/
def writeBlocked (th : Thread) : Who → Thread
  | .evict => th.goto .writeUndo
  | _ => th

/-- Reading stripe `i` in the scan of a writer: its own stripe may hold its one reference. -/
def scanStep (tid : Nat) (w : EntryWord) (th : Thread) (who : Who) (i : Nat) : EntryWord × Thread :=
  if getRef w.refcount i ≤ (if tid % tpRcWidth = i then 1 else 0) then
    (w, if i + 1 < tpRcWidth then th.goto (.writeScan who (i + 1)) else writeObtained th who)
  else
    (w, writeBlocked th who)

def pcNext (tid : Nat) (w : EntryWord) (th : Thread) (outcome : Bool) : Option (EntryWord × Thread) :=
  match th.pc with
  | .idle => none
  | .readTested who => some ({ w with refcount := incRef w.refcount tid }, th.goto (.readCounted who))
  | .readCounted who =>
      some (w, th.goto (.readFreeTested who (testFlag w.status Flag.free.mask)))
  | .readFreeTested who ccFree =>
      some (w, if !ccFree && !testFlag w.status Flag.writelocked.mask then readSuccess th who
        else th.goto .readFailed)
  | .readFailed => some ({ w with refcount := decRef w.refcount tid }, th.goto .idle)
  | .evictSub => some ({ w with status := w.status - tpClockOne }, th.goto .idle)
  | .evictStatus =>
      some (w, th.goto (if w.status ≠ tpEvictableStatus then .idle else .evictRef))
  | .evictRef => some (w, th.goto (if getRef w.refcount tid ≠ 0 then .idle else .evictPin))
  | .evictPin => some (w, th.goto (if w.pincount ≠ 0 then .idle else .evictTryRead))
  | .evictTryRead => some (startRead w th .evict)
  | .evictRead => some (claimStep w th .evictClaimed)
  | .evictClaimed =>
      some (w, th.goto (if testFlag w.status Flag.loading.mask then .claimUndo
        else .writeStart .evict))
  | .discardRead =>
      some (w, if testFlag w.status Flag.loading.mask then th else th.goto .discardLoaded)
  | .discardLoaded => some (w, th.goto (if outcome then .discardClaim else .refUndo))
  | .discardClaim => some (claimStep w th (.writeStart .discard))
  | .writeStart who =>
      some ({ w with status := setFlag w.status Flag.writelocked.mask }, th.goto (.writeFlag who))
  | .writeFlag who =>
      some (w, if testFlag w.status Flag.writeback.mask then writeBlocked th who
        else th.goto (.writeScan who 0))
  | .writeScan who i => some (scanStep tid w th who i)
  | .writeUndo =>
      some ({ w with status := clearFlag w.status Flag.writelocked.mask }, th.goto .claimUndo)
  | .claimUndo =>
      some ({ w with status := clearFlag w.status Flag.claimed.mask }, th.goto .refUndo)
  | .refUndo => some ({ w with refcount := decRef w.refcount tid }, th.goto .idle)
  | .evictVerify =>
      some (w, th.goto (if w.status ≠ tpLockedEvictableStatus then .writeUndo else .evictVerifyPin))
  | .evictVerifyPin =>
      some (w, th.goto (if w.pincount ≠ 0 then .writeUndo else .freeStore .evict))
  | .freeStore who =>
      some ({ w with status := tpFreeStatus },
        th.goto (if who = .discard then .resetPinTest else .refFinal))
  | .resetPinTest => some (w, th.goto (if w.pincount ≠ 0 then .resetPin else .refFinal))
  | .resetPin => some ({ w with pincount := 0 }, th.goto .refFinal)
  | .refFinal => some ({ w with refcount := decRef w.refcount tid }, th.goto .idle)
  | .allocCas load =>
      some (if w.status = tpFreeStatus then ({ w with status := tpAllocStatus }, th.goto (.allocInc load))
        else (w, th.goto .idle))
  | .allocInc load =>
      some ({ w with refcount := incRef w.refcount tid }, th.goto (.allocStore load))
  | .allocStore load =>
      some (if load then ({ w with status := tpReadLoadingStatus }, th.goto .loadLookup)
        else ({ w with status := tpAllocStatus ||| tpClockOne },
          { pc := .idle, readLocks := th.readLocks + 1, claim := true, write := true }))
  | .loadLookup => some (w, th.goto (if outcome then .loading else .abortRef))
  | .abortRef => some ({ w with refcount := decRef w.refcount tid }, th.goto .abortStore)
  | .abortStore => some ({ w with status := tpFreeStatus }, th.goto .idle)
  | .loading =>
      some ({ w with status := clearFlag w.status Flag.loading.mask },
        { th with pc := .idle, readLocks := th.readLocks + 1 })

/-- An access of a thread outside every operation.  A caller only gives up what it holds: the
last read lock of a claim holder, a claim under a write lock and so on stay. -/
def idleNext (tid : Nat) (w : EntryWord) (th : Thread) : LockAct → Option (EntryWord × Thread)
  | .getRead => some (startRead w th .client)
  | .unget =>
      if (if th.claim then 1 else 0) < th.readLocks then
        some ({ w with refcount := decRef w.refcount tid },
          { th with readLocks := th.readLocks - 1 })
      else none
  | .tryClaim =>
      if 0 < th.readLocks then
        some ({ w with status := setFlag w.status Flag.claimed.mask },
          { th with claim := th.claim || !testFlag w.status Flag.claimed.mask })
      else none
  | .unclaim =>
      if th.claim && !th.write then
        some ({ w with status := clearFlag w.status Flag.claimed.mask }, { th with claim := false })
      else none
  | .lock =>
      if th.claim && !th.write then
        some ({ w with status := setFlag w.status Flag.writelocked.mask },
          th.goto (.writeFlag .client))
      else none
  | .unlock =>
      if th.write then
        some ({ w with status := clearFlag w.status Flag.writelocked.mask },
          { th with write := false })
      else none
  | .alloc => some (w, th.goto (if w.status = tpFreeStatus then .allocCas false else .idle))
  | .load => some (w, th.goto (if w.status = tpFreeStatus then .allocCas true else .idle))
  | .tryEvict eePass =>
      -- The normal pass decrements a nonzero clock and leaves; the early pass skips the clock.
      some (w, th.goto (if !eePass && clockOf w.status != 0#32 then .evictSub else .evictStatus))
  | .discard => some (startRead w th .discard)
  | .pin =>
      if th.write then some ({ w with pincount := (w.pincount + 1) % pincountMod }, th) else none
  | .unpin => some ({ w with pincount := (w.pincount + (pincountMod - 1)) % pincountMod }, th)
  | .other _ => none
  | .next _ => none

def threadNext (tid : Nat) (w : EntryWord) (th : Thread) : LockAct → Option (EntryWord × Thread)
  | .other op => (op.apply w.status).map fun status => ({ w with status := status }, th)
  | .next outcome => pcNext tid w th outcome
  | act => if th.pc = .idle then idleNext tid w th act else none

/-- The shared words of the entry and all threads. -/
structure LockState (n : Nat) where
  word : EntryWord
  thread : Fin n → Thread

variable {n : Nat}

def lockNext (s : LockState n) (a : Fin n × LockAct) : Option (LockState n) :=
  (threadNext a.1.val s.word (s.thread a.1) a.2).map fun r =>
    { word := r.1, thread := Function.update s.thread a.1 r.2 }

/-- A free entry that nobody uses, as the cache is initialised. -/
def freeEntryState (n : Nat) : LockState n where
  word := ⟨tpFreeStatus, fun _ => 0, 0⟩
  thread := fun _ => ⟨.idle, 0, false, false⟩

def lockSystem (n : Nat) : System (LockState n) (Fin n × LockAct) :=
  System.ofFun (fun s => s = freeEntryState n) lockNext

/-! ## What a thread holds -/

/-- Inside an operation: a `treepass_try_get_read` has returned success, or a load has installed
its entry, and the lock has not been given up since. -/
def Pc.holdsRead : Pc → Bool
  | .evictRead | .evictClaimed | .discardRead | .discardLoaded | .discardClaim => true
  | .writeStart who | .writeFlag who | .writeScan who _ => who != .client
  | .writeUndo | .claimUndo | .refUndo | .evictVerify | .evictVerifyPin | .freeStore _ => true
  | .loadLookup | .loading | .abortRef => true
  | _ => false

def Pc.holdsClaim : Pc → Bool
  | .evictClaimed => true
  | .writeStart who | .writeFlag who | .writeScan who _ => who != .client
  | .writeUndo | .claimUndo | .evictVerify | .evictVerifyPin | .freeStore _ => true
  | .allocInc _ | .allocStore _ => true
  | _ => false

def Pc.holdsWrite : Pc → Bool
  | .evictVerify | .evictVerifyPin | .freeStore _ | .allocInc _ | .allocStore _ => true
  | _ => false

def Thread.holdsRead (th : Thread) : Bool := decide (0 < th.readLocks) || th.pc.holdsRead

def Thread.holdsClaim (th : Thread) : Bool := th.claim || th.pc.holdsClaim

def Thread.holdsWrite (th : Thread) : Bool := th.write || th.pc.holdsWrite

/-- **Lock exclusion.** -/
structure LockExclusion (s : LockState n) : Prop where
  write_excludes_read : ∀ t r, t ≠ r → (s.thread t).holdsWrite = true →
    (s.thread r).holdsRead = false
  one_claim : ∀ t r, (s.thread t).holdsClaim = true → (s.thread r).holdsClaim = true → t = r
  read_not_free : ∀ t, (s.thread t).holdsRead = true →
    testFlag s.word.status Flag.free.mask = false

/-- A reader that has found `TP_FREE` clear and has still to look at `TP_WRITELOCKED` again. -/
def Pc.inWindow : Pc → Bool
  | .readFreeTested _ ccFree => !ccFree
  | _ => false

/-- `MAX_READ_REFCOUNT`. -/
def maxReadRefcount : Nat := 2 ^ 16 - 1

/-- The condition on a step: `TP_FREE_STATUS` is not stored under a reader in its window, nor, by
an aborted load, under a lock; and no reference counter overflows. -/
def NoStaleReader (s : LockState n) (a : Fin n × LockAct) : Prop :=
  match a.2, (s.thread a.1).pc with
  | .next _, .freeStore _ => ∀ r, r ≠ a.1 → (s.thread r).pc.inWindow = false
  | .next _, .abortStore => ∀ r, r ≠ a.1 →
      (s.thread r).pc.inWindow = false ∧ (s.thread r).holdsRead = false ∧
        (s.thread r).holdsClaim = false
  | .next _, .readTested _ => getRef s.word.refcount a.1.val ≠ maxReadRefcount
  | .next _, .allocInc _ => getRef s.word.refcount a.1.val ≠ maxReadRefcount
  | _, _ => True

end Cache
end TreePass
