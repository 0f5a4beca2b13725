import TreePass.Cache.Status
import Mathlib.Logic.Function.Basic

/-!
# Entries of the cache and eviction as a whole operation

The metadata of a cache entry, the lock helpers as each thread runs them when nobody
interferes, and `treepass_try_evict` built from them.  The interleaved form of the same
helpers is the subject of `TreePass.Cache.Locks`; here an operation runs from its first
statement to its last, which is what a sweep over a page that nobody uses any more sees.
-/

namespace TreePass
namespace Cache

/-- `page_type`. -/
inductive PageType where
  | invalid
  | trunk
  | branch
  | memtable
  | filter
  | log
  | superblock
  | misc
  deriving DecidableEq, Repr

/-- `TP_RC_WIDTH`: the number of stripes of the reference count. -/
def tpRcWidth : Nat := 4

/-- The metadata of one cache frame: `treepass_entry` with its `page_handle`, and its cells of
the reference and pin counters.  `diskAddr = none` is `TP_UNMAPPED_ADDR`. -/
structure Entry where
  status : EntryStatus
  type : PageType
  diskAddr : Option Nat
  entryTime : Nat
  refcount : Nat → Nat
  pincount : Nat

/-- The cache: its frames and the direct map from page numbers to frames, where `none` is
`TP_UNMAPPED_ENTRY`. -/
structure TreePassCache where
  entry : Nat → Entry
  lookup : Nat → Option Nat
  logPageSize : Nat

/-- `get_rc`. -/
inductive GetRc where
  | success
  | conflict
  | evicted
  | flushing
  deriving DecidableEq, Repr

/-- `treepass_get_ref`. -/
def getRef (refcount : Nat → Nat) (counterNo : Nat) : Nat := refcount (counterNo % tpRcWidth)

/-- `treepass_inc_ref`, on 16-bit counters. -/
def incRef (refcount : Nat → Nat) (counterNo : Nat) : Nat → Nat :=
  Function.update refcount (counterNo % tpRcWidth) ((getRef refcount counterNo + 1) % 2 ^ 16)

/-- `treepass_dec_ref`, on 16-bit counters. -/
def decRef (refcount : Nat → Nat) (counterNo : Nat) : Nat → Nat :=
  Function.update refcount (counterNo % tpRcWidth)
    ((getRef refcount counterNo + (2 ^ 16 - 1)) % 2 ^ 16)

def Entry.getRef (e : Entry) (counterNo : Nat) : Nat := Cache.getRef e.refcount counterNo

def Entry.incRef (e : Entry) (counterNo : Nat) : Entry :=
  { e with refcount := Cache.incRef e.refcount counterNo }

def Entry.decRef (e : Entry) (counterNo : Nat) : Entry :=
  { e with refcount := Cache.decRef e.refcount counterNo }

def Entry.setStatus (e : Entry) (status : EntryStatus) : Entry := { e with status := status }

/-- `treepass_set_clock_accessed`, run without interference. -/
def setClockAccessed (status : EntryStatus) : EntryStatus :=
  if clockOf status < tpClockMax then status + tpClockOne else status

/-- `treepass_try_dec_clock`, run without interference. -/
def tryDecClock (status : EntryStatus) : Bool × EntryStatus :=
  if clockOf status = 0#32 then (false, status) else (true, status - tpClockOne)

/-- `treepass_try_get_read`. -/
def tryGetRead (e : Entry) (tid : Nat) (setAccess : Bool) : GetRc × Entry :=
  if testFlag e.status tpWritelocked then
    (.conflict, e)
  else
    let e' := e.incRef tid
    let ccFree := testFlag e'.status tpFree
    let ccWriting := testFlag e'.status tpWritelocked
    if !ccFree && !ccWriting then
      (.success, if setAccess then e'.setStatus (setClockAccessed e'.status) else e')
    else if ccFree then
      (.evicted, e'.decRef tid)
    else
      (.conflict, e'.decRef tid)

/-- `treepass_try_get_claim`. -/
def tryGetClaim (e : Entry) : GetRc × Entry :=
  let e' := e.setStatus (setFlag e.status tpClaimed)
  if testFlag e.status tpClaimed then (.conflict, e') else (.success, e')

/-- The scan over the stripes of the reference count in `treepass_try_get_write`: the caller's
own stripe may hold its one reference, every other stripe must be empty. -/
def noOtherReaders (e : Entry) (tid : Nat) : Bool :=
  (List.range tpRcWidth).all fun thrI =>
    if tid % tpRcWidth ≠ thrI then e.getRef thrI == 0 else decide (e.getRef thrI ≤ 1)

/-- `treepass_try_get_write`. -/
def tryGetWrite (e : Entry) (tid : Nat) : GetRc × Entry :=
  let e' := e.setStatus (setFlag e.status tpWritelocked)
  if testFlag e'.status tpWriteback then
    (.flushing, e'.setStatus (clearFlag e'.status tpWritelocked))
  else if noOtherReaders e' tid then
    (.success, e')
  else
    (.conflict, e'.setStatus (clearFlag e'.status tpWritelocked))

def TreePassCache.setEntry (cc : TreePassCache) (entryNumber : Nat) (e : Entry) : TreePassCache :=
  { cc with entry := Function.update cc.entry entryNumber e }

/-- Steps 5 and 6 of an eviction: forget the address in the lookup map, then free the frame. -/
def freeEntry (cc : TreePassCache) (entryNumber : Nat) (e : Entry) : TreePassCache × Entry :=
  let (cc', e') := match e.diskAddr with
    | some addr =>
        ({ cc with lookup := Function.update cc.lookup (addr >>> cc.logPageSize) none },
          { e with diskAddr := none, entryTime := 0 })
    | none => (cc, e)
  let e'' := { e' with type := .invalid, status := tpFreeStatus }
  (cc'.setEntry entryNumber e'', e'')

/-- `treepass_try_evict`: whether the frame was evicted, and the cache afterwards. -/
def tryEvict (cc : TreePassCache) (entryNumber tid : Nat) (eePass : Bool) : Bool × TreePassCache :=
  let e := cc.entry entryNumber
  if eePass && e.entryTime ≠ 0 then
    (false, cc)
  else
    let (hadClock, status) := if eePass then (false, e.status) else tryDecClock e.status
    let e := e.setStatus status
    if hadClock then
      (false, cc.setEntry entryNumber e)
    else if e.status ≠ tpEvictableStatus ∨ e.getRef tid ≠ 0 ∨ e.pincount ≠ 0 then
      (false, cc.setEntry entryNumber e)
    else
      -- 1. try to read lock
      match tryGetRead e tid false with
      | (.success, e) =>
        -- 2. try to claim
        match tryGetClaim e with
        | (.success, e) =>
          -- 3. try to write lock, unless the page is loading
          if testFlag e.status tpLoading then
            (false, cc.setEntry entryNumber
              ((e.setStatus (clearFlag e.status tpClaimed)).decRef tid))
          else
            match tryGetWrite e tid with
            | (.success, e) =>
              -- 4. verify still evictable
              if e.status ≠ tpLockedEvictableStatus ∨ e.pincount ≠ 0 then
                let e := e.setStatus (clearFlag e.status tpWritelocked)
                let e := e.setStatus (clearFlag e.status tpClaimed)
                (false, cc.setEntry entryNumber (e.decRef tid))
              else
                -- 5, 6. clear lookup and disk address, set the status; 7. release read lock
                let (cc, e) := freeEntry cc entryNumber e
                (true, cc.setEntry entryNumber (e.decRef tid))
            | (_, e) =>
              (false, cc.setEntry entryNumber
                ((e.setStatus (clearFlag e.status tpClaimed)).decRef tid))
        | (_, e) => (false, cc.setEntry entryNumber (e.decRef tid))
      | (_, e) => (false, cc.setEntry entryNumber e)

/-- Up to `passes` normal sweeps over one frame, stopping at the first that evicts it. -/
def evictWithin (cc : TreePassCache) (entryNumber tid : Nat) : Nat → Bool
  | 0 => false
  | passes + 1 =>
      let swept := tryEvict cc entryNumber tid false
      swept.1 || evictWithin swept.2 entryNumber tid passes

/-- A clean page that is not pinned, referenced, locked, loading or being written back. -/
structure Entry.Idle (e : Entry) : Prop where
  flags : flagBits e.status = flagBits tpEvictableStatus
  unreferenced : ∀ counterNo, e.getRef counterNo = 0
  unpinned : e.pincount = 0

@[simp] theorem setEntry_entry (cc : TreePassCache) (entryNumber : Nat) (e : Entry) :
    (cc.setEntry entryNumber e).entry entryNumber = e := by
  simp [TreePassCache.setEntry]

@[simp] theorem setStatus_status (e : Entry) (status : EntryStatus) :
    (e.setStatus status).status = status := rfl

theorem setStatus_self (e : Entry) : e.setStatus e.status = e := rfl

@[simp] theorem setStatus_pincount (e : Entry) (status : EntryStatus) :
    (e.setStatus status).pincount = e.pincount := rfl

@[simp] theorem setStatus_getRef (e : Entry) (status : EntryStatus) (counterNo : Nat) :
    (e.setStatus status).getRef counterNo = e.getRef counterNo := rfl

@[simp] theorem incRef_status (e : Entry) (tid : Nat) : (e.incRef tid).status = e.status := rfl

@[simp] theorem incRef_pincount (e : Entry) (tid : Nat) : (e.incRef tid).pincount = e.pincount :=
  rfl

@[simp] theorem noOtherReaders_setStatus (e : Entry) (status : EntryStatus) (tid : Nat) :
    noOtherReaders (e.setStatus status) tid = noOtherReaders e tid := rfl

/-! ## Sweeps over an idle page -/

theorem tryEvict_of_clock (cc : TreePassCache) (entryNumber tid : Nat)
    (hclock : clockOf (cc.entry entryNumber).status ≠ 0#32) :
    tryEvict cc entryNumber tid false =
      (false, cc.setEntry entryNumber
        ((cc.entry entryNumber).setStatus ((cc.entry entryNumber).status - tpClockOne))) := by
  simp [tryEvict, tryDecClock, hclock]

theorem tryEvict_of_stray (cc : TreePassCache) (entryNumber tid : Nat)
    (hclock : clockOf (cc.entry entryNumber).status = 0#32)
    (hstray : (cc.entry entryNumber).status ≠ tpEvictableStatus) :
    tryEvict cc entryNumber tid false = (false, cc.setEntry entryNumber (cc.entry entryNumber)) := by
  simp [tryEvict, tryDecClock, hclock, hstray, setStatus_self]

private theorem noOtherReaders_of_single (e : Entry) (tid : Nat) (href : ∀ c, e.getRef c = 0) :
    noOtherReaders (e.incRef tid) tid = true := by
  have hzero : ∀ i, i < tpRcWidth → e.refcount i = 0 := by
    intro i hi
    simpa [Entry.getRef, getRef, Nat.mod_eq_of_lt hi] using href i
  simp only [noOtherReaders, List.all_eq_true, List.mem_range]
  intro thrI hthr
  by_cases hown : tid % tpRcWidth = thrI
  · simp [hown, Entry.getRef, getRef, Entry.incRef, incRef, Nat.mod_eq_of_lt hthr, hzero thrI hthr]
  · have hne : thrI ≠ tid % tpRcWidth := fun h => hown h.symm
    simp [hown, Entry.getRef, getRef, Entry.incRef, incRef, Nat.mod_eq_of_lt hthr, hne, hzero thrI hthr]

theorem tryGetRead_of_evictable {e : Entry} (tid : Nat) (hstatus : e.status = tpEvictableStatus) :
    tryGetRead e tid false = (.success, e.incRef tid) := by
  have hw : testFlag tpEvictableStatus tpWritelocked = false := by decide
  have hf : testFlag tpEvictableStatus tpFree = false := by decide
  simp [tryGetRead, hstatus, hw, hf]

theorem tryGetClaim_of_evictable {e : Entry} (hstatus : e.status = tpEvictableStatus) :
    tryGetClaim e = (.success, e.setStatus (tpClean ||| tpClaimed)) := by
  have hc : testFlag tpEvictableStatus tpClaimed = false := by decide
  have hset : setFlag tpEvictableStatus tpClaimed = tpClean ||| tpClaimed := rfl
  simp [tryGetClaim, hstatus, hc, hset]

theorem tryGetWrite_of_claimed {e : Entry} (tid : Nat) (hstatus : e.status = tpClean ||| tpClaimed)
    (hscan : noOtherReaders e tid = true) :
    tryGetWrite e tid = (.success, e.setStatus tpLockedEvictableStatus) := by
  have hset : setFlag (tpClean ||| tpClaimed) tpWritelocked = tpLockedEvictableStatus := rfl
  have hwb : testFlag tpLockedEvictableStatus tpWriteback = false := by decide
  simp [tryGetWrite, hstatus, hset, hwb, hscan]

theorem tryEvict_of_evictable (cc : TreePassCache) (entryNumber tid : Nat)
    (hidle : (cc.entry entryNumber).Idle)
    (hstatus : (cc.entry entryNumber).status = tpEvictableStatus) :
    (tryEvict cc entryNumber tid false).1 = true := by
  obtain ⟨-, href, hpin⟩ := hidle
  generalize he : cc.entry entryNumber = e at *
  have hdec : tryDecClock tpEvictableStatus = (false, tpEvictableStatus) := by decide
  have hself : e.setStatus tpEvictableStatus = e := hstatus ▸ setStatus_self e
  have hread := tryGetRead_of_evictable tid hstatus
  have hclaim := tryGetClaim_of_evictable (e := e.incRef tid) hstatus
  have hloading : testFlag (tpClean ||| tpClaimed) tpLoading = false := by decide
  have hwrite := tryGetWrite_of_claimed (e := (e.incRef tid).setStatus (tpClean ||| tpClaimed)) tid
    rfl (noOtherReaders_of_single e tid href)
  simp [tryEvict, he, hdec, hself, hstatus, href tid, hpin, hread, hclaim, hloading, hwrite]

/-- **Bounded eviction.**  If nothing stands above the clock of an idle page, `TP_CLOCK_MAX + 1`
normal sweeps evict it: one for each tick of its clock and one more. -/
theorem evictWithin_of_idle (entryNumber tid : Nat) (passes : Nat) :
    ∀ cc : TreePassCache, (cc.entry entryNumber).Idle →
      upperBits (cc.entry entryNumber).status = 0 →
      (clockOf (cc.entry entryNumber).status).toNat < passes →
      evictWithin cc entryNumber tid passes = true := by
  induction passes with
  | zero => intro cc _ _ hlt; omega
  | succ passes ih =>
      intro cc hidle hupper hlt
      simp only [evictWithin]
      by_cases hclock : clockOf (cc.entry entryNumber).status = 0#32
      · have hzero := (clockOf_eq_zero_iff _).mp hclock
        have hstatus : (cc.entry entryNumber).status = tpEvictableStatus :=
          status_ext hidle.flags (by rw [hzero]; rfl) (by rw [hupper]; rfl)
        rw [tryEvict_of_evictable cc entryNumber tid hidle hstatus, Bool.true_or]
      · have hpos : (clockOf (cc.entry entryNumber).status).toNat ≠ 0 :=
          fun h => hclock ((clockOf_eq_zero_iff _).mpr h)
        rw [tryEvict_of_clock cc entryNumber tid hclock, Bool.false_or]
        apply ih
        · rw [setEntry_entry]
          exact ⟨(flagBits_sub _).trans hidle.flags, hidle.unreferenced, hidle.unpinned⟩
        · rw [setEntry_entry]
          exact (upperBits_sub_eq_zero_iff hupper).mpr hpos
        · rw [setEntry_entry, setStatus_status, clockOf_sub hpos]
          omega

/-- **A stray bit is for ever.**  However often the sweep comes back, it never evicts a page
whose clock is 0 but whose word is not the evictable constant. -/
theorem evictWithin_of_stray (entryNumber tid : Nat) (passes : Nat) :
    ∀ cc : TreePassCache, clockOf (cc.entry entryNumber).status = 0#32 →
      (cc.entry entryNumber).status ≠ tpEvictableStatus →
      evictWithin cc entryNumber tid passes = false := by
  induction passes with
  | zero => intro cc _ _; rfl
  | succ passes ih =>
      intro cc hclock hstray
      simp only [evictWithin, tryEvict_of_stray cc entryNumber tid hclock hstray, Bool.false_or]
      exact ih _ (by simpa using hclock) (by simpa using hstray)

end Cache
end TreePass
