import TreePass.Lib.Program
import TreePass.Lib.Transition
import TreePass.Cache.Evict

/-!
# The operations of the cache

The operations that move pages between the disk and the frames, each from its first statement to its
last: allocation, lookups with their loads, the clock hand with its writeback, eviction, discard and
prefetch.  Requests complete while an operation waits, or between operations.

* `CacheM` are the programs of the cache.  A program that would spin for ever, because what it waits
  for is up to another thread, does not return; neither does one whose assertion fails.
* `getFreePage` is the hunt for a free frame, `moveHand` its clock hand.
* `cacheSystem` has all runs of operations.
-/

namespace TreePass
namespace Cache

open Lib

/-- `TP_ENTRIES_PER_BATCH`. -/
def tpEntriesPerBatch : Nat := 64

/-- `TP_CLEANER_GAP`. -/
def tpCleanerGap : Nat := 512

/-- The sizes of `treepass_config`. -/
structure CacheConfig where
  pageCapacity : Nat
  pagesPerExtent : Nat

/-- `batch_capacity`. -/
def CacheConfig.batchCapacity (cfg : CacheConfig) : Nat := cfg.pageCapacity / tpEntriesPerBatch

/-- An I/O request that has been issued, with what its callback needs. -/
inductive Request where
  /-- `treepass_write_callback`. -/
  | write (entries : List Nat) (numPasses : Nat)
  /-- `treepass_prefetch_callback`. -/
  | prefetch (entries : List Nat)
  /-- `treepass_get_from_disk_async_callback`. -/
  | load (entryNumber : Nat) (type : PageType) (isWarm : Bool)
  deriving DecidableEq, Repr

/-- A request completes; `now` is what `platform_get_timestamp` says then. -/
structure Completion where
  request : Request
  now : Nat

/-- The cache with its hands and its outstanding requests.  `waits` is what the coming calls of
`treepass_wait` find completed. -/
structure CacheState where
  frames : TreePassCache
  evictHand : Nat
  /-- The batch of each thread; `none` is `TP_UNMAPPED_ENTRY`. -/
  freeHand : Nat → Option Nat
  batchBusy : Nat → Bool
  requests : List Request
  waits : List (List Completion)

abbrev CacheM := Program CacheState

/-! ## Frames -/

/-- `treepass_page_size`. -/
def TreePassCache.pageSize (cc : TreePassCache) : Nat := 1 <<< cc.logPageSize

/-- `treepass_lookup`. -/
def TreePassCache.lookupAddr (cc : TreePassCache) (addr : Nat) : Option Nat :=
  cc.lookup (addr >>> cc.logPageSize)

def TreePassCache.setLookup (cc : TreePassCache) (addr : Nat) (entryNumber : Option Nat) :
    TreePassCache :=
  { cc with lookup := Function.update cc.lookup (addr >>> cc.logPageSize) entryNumber }

def CacheState.setFrames (s : CacheState) (cc : TreePassCache) : CacheState := { s with frames := cc }

def modifyEntry (entryNumber : Nat) (f : Entry → Entry) : CacheM Unit :=
  modify fun s => s.setFrames (s.frames.setEntry entryNumber (f (s.frames.entry entryNumber)))

def storeLookup (addr : Nat) (entryNumber : Option Nat) : CacheM Unit :=
  modify fun s => s.setFrames (s.frames.setLookup addr entryNumber)

def onEntry (entryNumber : Nat) (helper : Entry → GetRc × Entry) : CacheM GetRc := do
  let s ← get
  let result := helper (s.frames.entry entryNumber)
  modify fun s => s.setFrames (s.frames.setEntry entryNumber result.2)
  pure result.1

def Entry.freed (e : Entry) : Entry := { e with type := .invalid, status := tpFreeStatus }

/-! ## Requests and waiting -/

/-- `treepass_finish_load`, less the waiters. -/
def Entry.finishLoad (e : Entry) : Entry := e.setStatus (clearFlag e.status tpLoading)

/-- `treepass_write_callback` for one page. -/
def Entry.written (numPasses : Nat) (e : Entry) : Entry :=
  let e := e.setStatus (setFlag e.status tpClean)
  let e := e.setStatus (clearFlag e.status tpWriteback)
  if 0 < numPasses ∧ numPasses < tpClockMax.toNat ∧ e.type = .branch then
    e.setStatus (withClock e.status 0)
  else e

def setsEntryTime (type : PageType) (isWarm : Bool) : Bool :=
  type == .branch && isWarm || type == .trunk

def Request.callback (now : Nat) : Request → TreePassCache → TreePassCache
  | .write entries numPasses, cc =>
      entries.foldl (fun cc e => cc.setEntry e ((cc.entry e).written numPasses)) cc
  | .prefetch entries, cc => entries.foldl (fun cc e => cc.setEntry e (cc.entry e).finishLoad) cc
  | .load entryNumber type isWarm, cc =>
      let e := cc.entry entryNumber
      let e := if setsEntryTime type isWarm then { e with entryTime := now } else e
      cc.setEntry entryNumber e.finishLoad

def complete (c : Completion) : CacheM Unit := do
  let s ← get
  if c.request ∈ s.requests then
    modify fun s => { s with
      frames := c.request.callback c.now s.frames, requests := s.requests.erase c.request }
  else failure

/-- `treepass_wait`. -/
def wait : CacheM Unit := do
  let s ← get
  match s.waits with
  | [] => failure
  | completions :: waits =>
      modify fun s => { s with waits := waits }
      completions.forM complete

def waitWhile (flag : EntryStatus) (entryNumber : Nat) : Nat → CacheM Unit
  | 0 => failure
  | fuel + 1 => do
      let s ← get
      if testFlag (s.frames.entry entryNumber).status flag then
        wait
        waitWhile flag entryNumber fuel
      else pure ()

/-- `io_async_run`: nothing is issued for no pages. -/
def issueRequest (request : List Nat → Request) (entries : List Nat) : CacheM Unit :=
  if entries = [] then pure ()
  else modify fun s => { s with requests := s.requests ++ [request entries] }

/-! ## Writeback -/

/-- `treepass_ok_to_writeback`. -/
def Entry.okToWriteback (e : Entry) (numPasses : Nat) : Bool :=
  e.status &&& tpCleanableBaseMask == 0#32 && decide ((clockOf e.status).toNat ≤ numPasses)

/-- `treepass_try_set_writeback`. -/
def trySetWriteback (cc : TreePassCache) (entryNumber numPasses : Nat) : Bool × TreePassCache :=
  let e := cc.entry entryNumber
  if e.okToWriteback numPasses then
    (true, cc.setEntry entryNumber (e.setStatus (setFlag e.status tpWriteback)))
  else (false, cc)

/-- `allocator_config_pages_share_extent`. -/
def pagesShareExtent (cfg : CacheConfig) (cc : TreePassCache) (addr₁ addr₂ : Nat) : Bool :=
  addr₁ / (cfg.pagesPerExtent * cc.pageSize) == addr₂ / (cfg.pagesPerExtent * cc.pageSize)

/-- The walk backwards through the extent; the result is the first address to write. -/
def extendBackwards (cfg : CacheConfig) (addr numPasses : Nat) :
    Nat → TreePassCache → Nat → TreePassCache × Nat
  | 0, cc, firstAddr => (cc, firstAddr)
  | fuel + 1, cc, firstAddr =>
      if firstAddr < cc.pageSize || !pagesShareExtent cfg cc (firstAddr - cc.pageSize) addr then
        (cc, firstAddr)
      else
        match cc.lookupAddr (firstAddr - cc.pageSize) with
        | none => (cc, firstAddr)
        | some next =>
            let tried := trySetWriteback cc next numPasses
            if tried.1 then
              extendBackwards cfg addr numPasses fuel tried.2 (firstAddr - cc.pageSize)
            else (tried.2, firstAddr)

/-- The walk forwards; the result is the address after the last one to write. -/
def extendForwards (cfg : CacheConfig) (addr numPasses : Nat) :
    Nat → TreePassCache → Nat → TreePassCache × Nat
  | 0, cc, lastAddr => (cc, lastAddr + cc.pageSize)
  | fuel + 1, cc, lastAddr =>
      let endAddr := lastAddr + cc.pageSize
      if !pagesShareExtent cfg cc endAddr addr then (cc, endAddr)
      else
        match cc.lookupAddr endAddr with
        | none => (cc, endAddr)
        | some next =>
            let tried := trySetWriteback cc next numPasses
            if tried.1 then extendForwards cfg addr numPasses fuel tried.2 endAddr
            else (tried.2, endAddr)

/-- The writeback of a page and of its neighbours in the extent: the pages to write. -/
def writebackAround (cfg : CacheConfig) (cc : TreePassCache) (addr numPasses : Nat) :
    TreePassCache × List Nat :=
  let before := extendBackwards cfg addr numPasses cfg.pagesPerExtent cc addr
  let after := extendForwards cfg addr numPasses cfg.pagesPerExtent before.1 addr
  let reqCount := (after.2 - before.2) >>> cc.logPageSize
  (after.1, (List.range reqCount).filterMap fun i =>
    after.1.lookupAddr (before.2 + i <<< cc.logPageSize))

/-- `treepass_batch_start_writeback` for one frame. -/
def startWriteback (cfg : CacheConfig) (numPasses entryNumber : Nat) : CacheM Unit := do
  let s ← get
  let e := s.frames.entry entryNumber
  if 0 < numPasses ∧ numPasses < tpClockMax.toNat ∧ e.type ≠ .branch then pure ()
  else
    let tried := trySetWriteback s.frames entryNumber numPasses
    modify fun s => s.setFrames tried.2
    match e.diskAddr with
    | none => pure ()
    | some addr =>
        if tried.1 then
          let around := writebackAround cfg tried.2 addr numPasses
          modify fun s => s.setFrames around.1
          issueRequest (fun entries => .write entries numPasses) around.2
        else pure ()

def batchEntries (batch : Nat) : List Nat :=
  List.range' (batch * tpEntriesPerBatch) tpEntriesPerBatch

/-- `treepass_batch_start_writeback`. -/
def batchStartWriteback (cfg : CacheConfig) (batch numPasses : Nat) : CacheM Unit :=
  (batchEntries batch).forM (startWriteback cfg numPasses)

/-! ## Eviction and the clock hand -/

/-- `treepass_try_evict`. -/
def evict (tid : Nat) (eePass : Bool) (entryNumber : Nat) : CacheM Bool := do
  let s ← get
  let tried := tryEvict s.frames entryNumber tid eePass
  modify fun s => s.setFrames tried.2
  pure tried.1

/-- One pass over some frames; the result is the number of evictions. -/
def evictEach (tid : Nat) (eePass : Bool) : List Nat → CacheM Nat
  | [] => pure 0
  | entryNumber :: entries => do
      let evicted ← evict tid eePass entryNumber
      let evictCount ← evictEach tid eePass entries
      pure (if evicted then evictCount + 1 else evictCount)

/-- `treepass_evict_batch_ee`. -/
def evictBatchEe (tid batch : Nat) : CacheM Nat := evictEach tid true (batchEntries batch)

/-- `treepass_evict_batch`, less the bookkeeping of the eviction interval. -/
def evictBatch (tid batch : Nat) : CacheM Unit := do
  let _ ← evictEach tid false (batchEntries batch)

/-- The loop of `treepass_move_hand`: clean the batch ahead, until a batch is not busy. -/
def nextBatch (cfg : CacheConfig) (numPasses : Nat) : Nat → CacheM Nat
  | 0 => failure
  | fuel + 1 => do
      modify fun s => { s with evictHand := (s.evictHand + 1) % 2 ^ 32 }
      let s ← get
      let evictHand := s.evictHand % cfg.batchCapacity
      let cleanerHand := (evictHand + tpCleanerGap) % cfg.batchCapacity
      if s.batchBusy cleanerHand then pure ()
      else batchStartWriteback cfg cleanerHand numPasses
      if s.batchBusy evictHand then nextBatch cfg numPasses fuel
      else
        modify fun s => { s with batchBusy := Function.update s.batchBusy evictHand true }
        pure evictHand

/-- `treepass_move_hand`. -/
def moveHand (cfg : CacheConfig) (tid numPasses fuel : Nat) : CacheM Unit := do
  modify fun s =>
    match s.freeHand tid with
    | none => s
    | some batch => { s with batchBusy := Function.update s.batchBusy batch false }
  let batch ← nextBatch cfg numPasses fuel
  let evictCount ← evictBatchEe tid batch
  if evictCount = 0 then evictBatch tid batch else pure ()
  modify fun s => { s with freeHand := Function.update s.freeHand tid (some batch) }

def takeFrame (entryNumber tid : Nat) (status : EntryStatus) (type : PageType) (refcount : Bool) :
    CacheM Nat := do
  modifyEntry entryNumber fun e =>
    { (if refcount then e.incRef tid else e) with status := status, type := type }
  pure entryNumber

/-- The hand is before its last position; `TP_UNMAPPED_ENTRY` is after all batches. -/
def hasWrapped (freeHand maxHand : Option Nat) : Bool :=
  match freeHand, maxHand with
  | some hand, some maxHand => decide (hand < maxHand)
  | some _, none => true
  | none, _ => false

/-- The loop of `treepass_get_free_page`. -/
def freePageLoop (cfg : CacheConfig) (tid : Nat) (status : EntryStatus) (type : PageType)
    (refcount : Bool) : Nat → Nat → Option Nat → CacheM Nat
  | 0, _, _ => failure
  | fuel + 1, numPasses, maxHand => do
      let s ← get
      let batch := (s.freeHand tid).getD 0
      match (batchEntries batch).find? fun e => (s.frames.entry e).status == tpFreeStatus with
      | some entryNumber => takeFrame entryNumber tid status type refcount
      | none =>
          moveHand cfg tid numPasses (fuel + 1)
          let s ← get
          if hasWrapped (s.freeHand tid) maxHand then
            wait
            freePageLoop cfg tid status type refcount fuel (numPasses + 1) (s.freeHand tid)
          else freePageLoop cfg tid status type refcount fuel numPasses (s.freeHand tid)

/-- `treepass_get_free_page`, as all its callers have it: it blocks. -/
def getFreePage (cfg : CacheConfig) (tid fuel : Nat) (status : EntryStatus) (type : PageType)
    (refcount : Bool) : CacheM Nat := do
  let s ← get
  let maxHand := s.freeHand tid
  if maxHand = none then moveHand cfg tid 0 fuel else pure ()
  freePageLoop cfg tid status type refcount fuel 0 maxHand

/-- `treepass_evict_all`. -/
def evictAll (cfg : CacheConfig) (tid : Nat) (ignorePinnedPages : Bool) : CacheM Unit := do
  let s ← get
  if ignorePinnedPages || (List.range cfg.pageCapacity).all fun e =>
      (List.range tpRcWidth).all fun counterNo => (s.frames.entry e).getRef counterNo == 0 then
    (List.range cfg.batchCapacity).forM fun evictHand =>
      (List.range (tpClockMax.toNat + 1)).forM fun _ => evictBatch tid evictHand
  else failure

/-! ## Allocation -/

def mapFrame (entryNumber addr : Nat) (type : PageType) (entryTime : Nat) : CacheM Unit := do
  modifyEntry entryNumber fun e =>
    { e with diskAddr := some addr, type := type, entryTime := entryTime }
  storeLookup addr (some entryNumber)

/-- `treepass_alloc`. -/
def alloc (cfg : CacheConfig) (tid ts fuel addr : Nat) (type : PageType) : CacheM Nat := do
  let entryNumber ← getFreePage cfg tid fuel (tpAllocStatus ||| tpClockOne) type true
  if type = .trunk ∧ ts = 0 then failure
  else
    mapFrame entryNumber addr type ts
    pure entryNumber

/-- `treepass_alloc_compaction_hot`. -/
def allocCompactionHot (cfg : CacheConfig) (tid now fuel addr : Nat) (type : PageType) : CacheM Nat := do
  let entryNumber ← getFreePage cfg tid fuel (tpAllocStatus ||| tpClockMax <<< tpClockShift) type true
  mapFrame entryNumber addr type (if type = .branch then now else 0)
  pure entryNumber

/-! ## Lookups and loads -/

/-- What an attempt to get a page leads to: another attempt, or a page, or none. -/
inductive GetResult where
  | retry
  | page (entryNumber : Option Nat)
  deriving DecidableEq, Repr

/-- The second half of `treepass_get_in_cache`, once the page is not loading any more. -/
def finishGet (tid ts addr : Nat) (type : PageType) (isWarm : Bool) (entryNumber : Nat) :
    CacheM GetResult := do
  let s ← get
  let e := s.frames.entry entryNumber
  if e.diskAddr ≠ some addr then
    modifyEntry entryNumber (·.decRef tid)
    pure .retry
  else if e.type ≠ type then failure
  else
    if isWarm ∧ type = .branch ∧ e.entryTime = 0 then
      modifyEntry entryNumber fun e => { e with entryTime := ts }
    else pure ()
    pure (.page (some entryNumber))

/-- `treepass_get_in_cache`. -/
def getInCache (tid ts fuel addr : Nat) (blocking : Bool) (type : PageType) (isWarm : Bool)
    (entryNumber : Nat) : CacheM GetResult := do
  let rc ← onEntry entryNumber fun e => tryGetRead e tid true
  match rc with
  | .evicted => pure .retry
  | .conflict => if blocking then failure else pure (.page none)
  | .flushing => failure
  | .success => do
      let s ← get
      if (s.frames.entry entryNumber).diskAddr ≠ some addr then
        modifyEntry entryNumber (·.decRef tid)
        pure .retry
      else
        waitWhile tpLoading entryNumber fuel
        finishGet tid ts addr type isWarm entryNumber

/-- `treepass_acquire_entry_for_load`. -/
def acquireEntryForLoad (cfg : CacheConfig) (tid fuel addr : Nat) (type : PageType) :
    CacheM (Option Nat) := do
  let entryNumber ← getFreePage cfg tid fuel tpReadLoadingStatus type true
  let s ← get
  if s.frames.lookupAddr addr = none then
    storeLookup addr (some entryNumber)
    modifyEntry entryNumber fun e => { e with diskAddr := some addr }
    pure (some entryNumber)
  else
    modifyEntry entryNumber fun e => (e.decRef tid).freed
    pure none

/-- `treepass_get_from_disk`. -/
def getFromDisk (cfg : CacheConfig) (tid ts fuel addr : Nat) (type : PageType) (isWarm : Bool) :
    CacheM GetResult := do
  match ← acquireEntryForLoad cfg tid fuel addr type with
  | none => pure .retry
  | some entryNumber =>
      if setsEntryTime type isWarm ∧ ts = 0 then failure
      else
        modifyEntry entryNumber fun e =>
          (if setsEntryTime type isWarm then { e with entryTime := ts } else e).finishLoad
        pure (.page (some entryNumber))

/-- `treepass_get_internal`. -/
def getInternal (cfg : CacheConfig) (tid ts fuel addr : Nat) (blocking : Bool) (type : PageType)
    (isWarm : Bool) : CacheM GetResult := do
  let s ← get
  match s.frames.lookupAddr addr with
  | some entryNumber => getInCache tid ts fuel addr blocking type isWarm entryNumber
  | none => if blocking then getFromDisk cfg tid ts fuel addr type isWarm else pure (.page none)

/-- `treepass_get`, with at most so many attempts. -/
def getPage (cfg : CacheConfig) (tid ts fuel addr : Nat) (blocking : Bool) (type : PageType)
    (isWarm : Bool) : Nat → CacheM (Option Nat)
  | 0 => failure
  | attempts + 1 => do
      match ← getInternal cfg tid ts fuel addr blocking type isWarm with
      | .page entryNumber => pure entryNumber
      | .retry => getPage cfg tid ts fuel addr blocking type isWarm attempts

/-- `treepass_get_internal_async` as far as it comes without waiting: a page that is loading is left
referenced, and `finishGet` goes on with it. -/
def getAsync (cfg : CacheConfig) (tid ts fuel addr : Nat) (type : PageType) (isWarm : Bool) :
    CacheM GetResult := do
  let s ← get
  match s.frames.lookupAddr addr with
  | some entryNumber =>
      let rc ← onEntry entryNumber fun e => tryGetRead e tid true
      match rc with
      | .evicted => pure .retry
      | .conflict => failure
      | .flushing => failure
      | .success => do
          let s ← get
          if (s.frames.entry entryNumber).diskAddr ≠ some addr then
            modifyEntry entryNumber (·.decRef tid)
            pure .retry
          else if testFlag (s.frames.entry entryNumber).status tpLoading then
            pure (.page (some entryNumber))
          else finishGet tid ts addr type isWarm entryNumber
  | none =>
      match ← acquireEntryForLoad cfg tid fuel addr type with
      | none => pure .retry
      | some entryNumber =>
          modify fun s => { s with requests := s.requests ++ [.load entryNumber type isWarm] }
          pure (.page (some entryNumber))

/-! ## Prefetch -/

/-- Whether `treepass_prefetch` finds a page in its frame. -/
def prefetchRead (tid : Nat) : Option Nat → CacheM GetRc
  | some entryNumber => onEntry entryNumber fun e => tryGetRead e tid true
  | none => pure .evicted

/-- The loop of `treepass_prefetch`; `pending` are the pages of the request being put together. -/
def prefetchPages (cfg : CacheConfig) (tid : Nat) (type : PageType) :
    Nat → List Nat → List Nat → CacheM Unit
  | 0, _, _ => failure
  | _ + 1, [], pending => issueRequest .prefetch pending
  | fuel + 1, addr :: addrs, pending => do
      let s ← get
      let rc ← prefetchRead tid (s.frames.lookupAddr addr)
      match rc with
      | .success => do
          modifyEntry ((s.frames.lookupAddr addr).getD 0) (·.decRef tid)
          issueRequest .prefetch pending
          prefetchPages cfg tid type fuel addrs []
      | .conflict => do
          issueRequest .prefetch pending
          prefetchPages cfg tid type fuel addrs []
      | .flushing => failure
      | .evicted => do
          let freeEntryNo ← getFreePage cfg tid fuel tpReadLoadingStatus type false
          modifyEntry freeEntryNo fun e => { e with diskAddr := some addr, type := type }
          let s ← get
          if s.frames.lookupAddr addr = none then
            storeLookup addr (some freeEntryNo)
            prefetchPages cfg tid type fuel addrs (pending ++ [freeEntryNo])
          else
            modifyEntry freeEntryNo fun e => { e with diskAddr := none, entryTime := 0 }.freed
            prefetchPages cfg tid type fuel (addr :: addrs) pending

def extentPages (cfg : CacheConfig) (cc : TreePassCache) (addr : Nat) : List Nat :=
  (List.range cfg.pagesPerExtent).map fun i => addr + i <<< cc.logPageSize

/-- `treepass_prefetch`. -/
def prefetch (cfg : CacheConfig) (tid fuel baseAddr : Nat) (type : PageType) : CacheM Unit := do
  let s ← get
  prefetchPages cfg tid type fuel (extentPages cfg s.frames baseAddr) []

/-! ## Locks and discard -/

/-- `treepass_get_write`. -/
def getWrite (tid fuel entryNumber : Nat) : CacheM Unit := do
  modifyEntry entryNumber fun e => e.setStatus (setFlag e.status tpWritelocked)
  waitWhile tpWriteback entryNumber fuel
  let s ← get
  if noOtherReaders (s.frames.entry entryNumber) tid then pure () else failure

def Entry.discarded (tid : Nat) (e : Entry) : Entry :=
  { ({ e with diskAddr := none, entryTime := 0 }.freed) with pincount := 0 }.decRef tid

/-- `treepass_try_page_discard`, with at most so many attempts. -/
def tryPageDiscard (tid fuel addr : Nat) : Nat → CacheM Unit
  | 0 => failure
  | attempts + 1 => do
      let s ← get
      match s.frames.lookupAddr addr with
      | none => pure ()
      | some entryNumber =>
          let rc ← onEntry entryNumber fun e => tryGetRead e tid true
          match rc with
          | .evicted => tryPageDiscard tid fuel addr attempts
          | .conflict => failure
          | .flushing => failure
          | .success => do
              waitWhile tpLoading entryNumber fuel
              let s ← get
              if (s.frames.entry entryNumber).diskAddr ≠ some addr then
                modifyEntry entryNumber (·.decRef tid)
                tryPageDiscard tid fuel addr attempts
              else
                let rc ← onEntry entryNumber tryGetClaim
                if rc ≠ .success then
                  modifyEntry entryNumber (·.decRef tid)
                  tryPageDiscard tid fuel addr attempts
                else
                  getWrite tid fuel entryNumber
                  storeLookup addr none
                  modifyEntry entryNumber (·.discarded tid)

/-- `treepass_extent_discard`. -/
def extentDiscard (cfg : CacheConfig) (tid fuel addr : Nat) : CacheM Unit := do
  let s ← get
  (extentPages cfg s.frames addr).forM fun pageAddr => tryPageDiscard tid fuel pageAddr fuel

/-! ## Syncs and clocks -/

/-- `treepass_page_sync`. -/
def pageSync (entryNumber : Nat) (isBlocking : Bool) : CacheM Unit := do
  let s ← get
  let tried := trySetWriteback s.frames entryNumber tpClockMax.toNat
  if tried.1 then
    modify fun s => s.setFrames tried.2
    if isBlocking then modifyEntry entryNumber fun e => e.written 0
    else issueRequest (fun entries => .write entries 0) [entryNumber]
  else if testFlag (s.frames.entry entryNumber).status tpClean then pure () else failure

/-- The loop of `treepass_extent_sync`. -/
def syncPages : List Nat → List Nat → CacheM Unit
  | [], pending => issueRequest (fun entries => .write entries 0) pending
  | pageAddr :: pageAddrs, pending => do
      let s ← get
      match s.frames.lookupAddr pageAddr with
      | none => do
          issueRequest (fun entries => .write entries 0) pending
          syncPages pageAddrs []
      | some entryNumber => do
          let tried := trySetWriteback s.frames entryNumber tpClockMax.toNat
          modify fun s => s.setFrames tried.2
          if tried.1 then syncPages pageAddrs (pending ++ [entryNumber])
          else
            issueRequest (fun entries => .write entries 0) pending
            syncPages pageAddrs []

/-- `treepass_extent_sync`. -/
def extentSync (cfg : CacheConfig) (addr : Nat) : CacheM Unit := do
  let s ← get
  syncPages (extentPages cfg s.frames addr) []

def inheritedClock (divisor : Nat) : Option Entry → EntryStatus
  | none => 1#32
  | some old =>
      if 1 < divisor then BitVec.ofNat 32 ((clockOf old.status).toNat / divisor)
      else clockOf old.status

def inheritedTime : Option Entry → Nat
  | none => 0
  | some old => old.entryTime

/-- `treepass_inherit_clock`. -/
def inheritClock (oldAddr newAddr divisor : Nat) : CacheM Unit := do
  let s ← get
  let old := (s.frames.lookupAddr oldAddr).map s.frames.entry
  match s.frames.lookupAddr newAddr with
  | none => pure ()
  | some newEntryNo => do
      modifyEntry newEntryNo fun e => e.setStatus (withClock e.status (inheritedClock divisor old))
      if inheritedTime old ≠ 0 then
        modifyEntry newEntryNo fun e => { e with entryTime := inheritedTime old }
      else pure ()

/-! ## Runs -/

/-- The operations. -/
inductive CacheOp where
  | alloc (addr : Nat) (type : PageType)
  | allocCompactionHot (addr : Nat) (type : PageType)
  | get (addr : Nat) (blocking : Bool) (type : PageType) (isWarm : Bool)
  | getAsync (addr : Nat) (type : PageType) (isWarm : Bool)
  /-- An asynchronous lookup goes on, after its page has been loaded. -/
  | finishGet (addr : Nat) (type : PageType) (isWarm : Bool) (entryNumber : Nat)
  | tryEvict (entryNumber : Nat) (eePass : Bool)
  | evictAll (ignorePinnedPages : Bool)
  | pageDiscard (addr : Nat)
  | extentDiscard (addr : Nat)
  | prefetch (baseAddr : Nat) (type : PageType)
  | complete (completion : Completion)
  | unget (entryNumber : Nat)
  | tryClaim (entryNumber : Nat)
  | unclaim (entryNumber : Nat)
  | lock (entryNumber : Nat)
  | unlock (entryNumber : Nat)
  | markDirty (entryNumber : Nat)
  | pin (entryNumber : Nat)
  | unpin (entryNumber : Nat)
  | batchStartWriteback (batch numPasses : Nat)
  | pageSync (entryNumber : Nat) (isBlocking : Bool)
  | extentSync (addr : Nat)
  | inheritClock (oldAddr newAddr divisor : Nat)

/-- A call of an operation: by which thread, with which `treepass_current_ts`, at which time, what
completes while it waits, and how often its loops may turn. -/
structure Call where
  op : CacheOp
  tid : Nat
  ts : Nat
  now : Nat
  waits : List (List Completion)
  fuel : Nat

def effect {α : Type} (m : CacheM α) : CacheM Unit := do
  let _ ← m

def Call.run (cfg : CacheConfig) (c : Call) : CacheM Unit :=
  match c.op with
  | .alloc addr type => effect (alloc cfg c.tid c.ts c.fuel addr type)
  | .allocCompactionHot addr type => effect (allocCompactionHot cfg c.tid c.now c.fuel addr type)
  | .get addr blocking type isWarm =>
      effect (getPage cfg c.tid c.ts c.fuel addr blocking type isWarm c.fuel)
  | .getAsync addr type isWarm => effect (getAsync cfg c.tid c.ts c.fuel addr type isWarm)
  | .finishGet addr type isWarm e => effect (finishGet c.tid c.ts addr type isWarm e)
  | .tryEvict e eePass => effect (evict c.tid eePass e)
  | .evictAll ignorePinnedPages => evictAll cfg c.tid ignorePinnedPages
  | .pageDiscard addr => tryPageDiscard c.tid c.fuel addr c.fuel
  | .extentDiscard addr => extentDiscard cfg c.tid c.fuel addr
  | .prefetch baseAddr type => prefetch cfg c.tid c.fuel baseAddr type
  | .complete completion => complete completion
  | .unget e => modifyEntry e (·.decRef c.tid)
  | .tryClaim e => effect (onEntry e tryGetClaim)
  | .unclaim e => modifyEntry e fun e => e.setStatus (clearFlag e.status tpClaimed)
  | .lock e => getWrite c.tid c.fuel e
  | .unlock e => modifyEntry e fun e => e.setStatus (clearFlag e.status tpWritelocked)
  | .markDirty e => modifyEntry e fun e => e.setStatus (clearFlag e.status tpClean)
  | .pin e => modifyEntry e fun e => { e with pincount := (e.pincount + 1) % 2 ^ 8 }
  | .unpin e => modifyEntry e fun e => { e with pincount := (e.pincount + (2 ^ 8 - 1)) % 2 ^ 8 }
  | .batchStartWriteback batch numPasses => batchStartWriteback cfg batch numPasses
  | .pageSync e isBlocking => pageSync e isBlocking
  | .extentSync addr => extentSync cfg addr
  | .inheritClock oldAddr newAddr divisor => inheritClock oldAddr newAddr divisor

def TreePassCache.isPageAddr (cc : TreePassCache) (addr : Nat) : Bool := addr % cc.pageSize == 0

/-- What callers promise: addresses are those of pages, a new page is not cached, and a lookup goes on
when its page has been loaded. -/
def CacheOp.isAllowed (cc : TreePassCache) : CacheOp → Bool
  | .alloc addr _ => cc.isPageAddr addr && cc.lookupAddr addr == none
  | .allocCompactionHot addr _ => cc.isPageAddr addr && cc.lookupAddr addr == none
  | .get addr _ _ _ => cc.isPageAddr addr
  | .getAsync addr _ _ => cc.isPageAddr addr
  | .finishGet addr _ _ e => cc.isPageAddr addr && !testFlag (cc.entry e).status tpLoading
  | .pageDiscard addr => cc.isPageAddr addr
  | .extentDiscard addr => cc.isPageAddr addr
  | .prefetch baseAddr _ => cc.isPageAddr baseAddr
  | _ => true

def cacheNext (cfg : CacheConfig) (s : CacheState) (c : Call) : Option CacheState :=
  if c.op.isAllowed s.frames then (c.run cfg { s with waits := c.waits }).map (·.2) else none

/-- `treepass_init`. -/
def newCache (logPageSize : Nat) : CacheState where
  frames :=
    { entry := fun _ =>
        { status := tpFreeStatus, type := .invalid, diskAddr := none, entryTime := 0,
          refcount := fun _ => 0, pincount := 0 }
      lookup := fun _ => none
      logPageSize := logPageSize }
  evictHand := 1
  freeHand := fun _ => none
  batchBusy := fun _ => false
  requests := []
  waits := []

def cacheSystem (cfg : CacheConfig) (logPageSize : Nat) : System CacheState Call :=
  System.ofFun (fun s => s = newCache logPageSize) (cacheNext cfg)

end Cache
end TreePass
