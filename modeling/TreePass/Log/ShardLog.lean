import TreePass.Data
import TreePass.Lib.Comparator
import TreePass.Lib.Transition
import Mathlib.Logic.Function.Basic

/-!
# The sharded log

`shard_log` keeps one open page for each thread.  A thread appends its records to its page, and when
one does not fit it seals the page with a checksum and takes the next page of the extents that all
threads share.  The iterator reads the pages in the order in which they were taken, up to the first
one that is not sealed, and sorts what it has read by generation.

* `LogPage` is a page; `entryAt` is what the bytes from an offset on read as.
* `shardLogWrite` is one call; `logSystem` is the system of all interleavings of calls.
* `shardLogIteratorInit` reads a log; `ShardLogIterator.drain` is the loop over the iterator.
* `written` and `pages` of the state are kept for the statements; no function of the log reads them.
-/

namespace TreePass
namespace Log

open Lib

/-- `sizeof(shard_log_hdr)`. -/
def sizeofHdr : Nat := 34

/-- `sizeof(log_entry)`: the generation and the header of the tuple. -/
def sizeofLogEntry : Nat := 14

/-- `INVALID_GENERATION`. -/
def invalidGeneration : BitVec 64 := BitVec.allOnes 64

/-- A record of the log, a `log_entry`. -/
structure LogEntry where
  generation : BitVec 64
  key : List UInt8
  msg : Message
  deriving DecidableEq, Repr

/-- `sizeof_log_entry`, and `log_entry_required_capacity` of what is to be written. -/
def LogEntry.size (entry : LogEntry) : Nat :=
  sizeofLogEntry + (entry.key.length + entry.msg.data.length)

/-- The sizes of the cache.  `laio_config_valid` admits one page size, 4096. -/
structure ShardLogConfig where
  pageSize : Nat
  pagesPerExtent : Nat
  pagesPerExtent_pos : 0 < pagesPerExtent
  hdr_le : sizeofHdr ≤ pageSize
  pageSize_le : pageSize ≤ 65536

/-- `cache_config_extent_size`. -/
def ShardLogConfig.extentSize (cfg : ShardLogConfig) : Nat := cfg.pagesPerExtent * cfg.pageSize

/-- A page of the log. -/
structure LogPage where
  /-- The checksum of the header is the checksum of the page. -/
  checksumOk : Bool
  magic : Nat
  nextExtentAddr : Nat
  /-- A `uint16`. -/
  numEntries : Nat
  /-- What the bytes from an offset on read as. -/
  entryAt : Nat → LogEntry

/-- `shard_log_valid`. -/
def shardLogValid (magic : Nat) (page : LogPage) : Bool :=
  decide (page.magic = magic) && page.checksumOk

variable (cfg : ShardLogConfig) {τ : Type} [DecidableEq τ]

/-- The log with its pages. -/
structure ShardLog (τ : Type) where
  /-- The first extent. -/
  addr : Nat
  magic : Nat
  /-- `next_addr` and `next_extent` of the mini allocator. -/
  nextAddr : Nat
  nextExtent : Nat
  /-- The extents the mini allocator has taken; their reference counts are not 0. -/
  extents : List Nat
  /-- `addr` and `offset` of a thread, `none` for `SHARD_UNMAPPED`. -/
  thread : τ → Option (Nat × Nat)
  page : Nat → LogPage
  /-- The pages in the order in which they were taken. -/
  pages : List Nat
  /-- The records that were written to a page. -/
  written : Nat → List LogEntry

namespace ShardLog

def setPage (s : ShardLog τ) (addr : Nat) (page : LogPage) : ShardLog τ :=
  { s with page := Function.update s.page addr page }

def setThread (s : ShardLog τ) (t : τ) (addr offset : Nat) : ShardLog τ :=
  { s with thread := Function.update s.thread t (some (addr, offset)) }

end ShardLog

/-! ## Writing -/

/-- `mini_alloc` for the only batch of the log: the page taken and the log after it.  `extent` is what
the allocator gives when it is asked for another extent. -/
def miniAlloc (s : ShardLog τ) (extent : Nat) : Nat × ShardLog τ :=
  if s.nextAddr % cfg.extentSize = 0 then
    (s.nextExtent,
      { s with
        nextExtent := extent
        extents := s.extents ++ [extent]
        nextAddr := s.nextExtent + cfg.pageSize })
  else (s.nextAddr, { s with nextAddr := s.nextAddr + cfg.pageSize })

/-- `get_new_page_for_thread`.  The page keeps the bytes it had. -/
def getNewPageForThread (s : ShardLog τ) (t : τ) (extent : Nat) : ShardLog τ :=
  let r := miniAlloc cfg s extent
  let hdr : LogPage :=
    ⟨false, s.magic, r.2.nextExtent, 0, (s.page r.1).entryAt⟩
  { (r.2.setPage r.1 hdr).setThread t r.1 sizeofHdr with
    pages := s.pages ++ [r.1]
    written := Function.update s.written r.1 [] }

/-- The end of a page: a terminal generation if there is room for one, and the checksum. -/
def sealPage (s : ShardLog τ) (addr offset : Nat) : ShardLog τ :=
  let page := s.page addr
  let terminated : LogPage :=
    if sizeofLogEntry ≤ cfg.pageSize - offset then
      { page with
        entryAt := Function.update page.entryAt offset
          { page.entryAt offset with generation := invalidGeneration } }
    else page
  s.setPage addr { terminated with checksumOk := true }

def appendEntry (s : ShardLog τ) (t : τ) (addr offset : Nat) (entry : LogEntry) : ShardLog τ :=
  let page := s.page addr
  { (s.setPage addr
      { page with
        checksumOk := false
        entryAt := Function.update page.entryAt offset entry
        numEntries := (page.numEntries + 1) % 65536 }).setThread t addr (offset + entry.size) with
    written := Function.update s.written addr (s.written addr ++ [entry]) }

/-- The part of `shard_log_write` after the thread has a page. -/
def writeToPage (s : ShardLog τ) (t : τ) (addr offset : Nat) (entry : LogEntry) (extent : Nat) :
    ShardLog τ :=
  if cfg.pageSize - offset < entry.size then
    let s := getNewPageForThread cfg (sealPage cfg s addr offset) t extent
    match s.thread t with
    | none => s
    | some (addr, offset) => appendEntry s t addr offset entry
  else appendEntry s t addr offset entry

/-- `shard_log_write`. -/
def shardLogWrite (s : ShardLog τ) (t : τ) (entry : LogEntry) (extent : Nat) : ShardLog τ :=
  let s := match s.thread t with
    | none => getNewPageForThread cfg s t extent
    | some _ => s
  match s.thread t with
  | none => s
  | some (addr, offset) => writeToPage cfg s t addr offset entry extent

/-- What the allocator can give: an aligned extent that the log does not have. -/
def Allocates (s : ShardLog τ) (extent : Nat) : Prop :=
  cfg.extentSize ∣ extent ∧ extent ≠ 0 ∧ extent ∉ s.extents

/-- `shard_log_init`, when no page is valid under the magic number of the new log. -/
structure IsNew (s : ShardLog τ) : Prop where
  extent : cfg.extentSize ∣ s.addr ∧ s.addr ≠ 0
  next : s.nextAddr = 0 ∧ s.nextExtent = s.addr ∧ s.extents = [s.addr]
  thread : ∀ t, s.thread t = none
  page : ∀ a, shardLogValid s.magic (s.page a) = false
  pages : s.pages = []

/-- A call with the extent it may be given. -/
structure LogWrite (τ : Type) where
  t : τ
  entry : LogEntry
  extent : Nat

instance (s : ShardLog τ) (extent : Nat) : Decidable (Allocates cfg s extent) :=
  inferInstanceAs (Decidable (cfg.extentSize ∣ extent ∧ extent ≠ 0 ∧ extent ∉ s.extents))

def logNext (s : ShardLog τ) (a : LogWrite τ) : Option (ShardLog τ) :=
  if a.entry.size ≤ cfg.pageSize - sizeofHdr ∧ Allocates cfg s a.extent then
    some (shardLogWrite cfg s a.t a.entry a.extent)
  else none

def logSystem (τ : Type) [DecidableEq τ] : System (ShardLog τ) (LogWrite τ) :=
  System.ofFun (IsNew cfg) (logNext cfg)

/-! ## Reading -/

/-- `terminal_log_entry`. -/
def terminalLogEntry (page : LogPage) (offset : Nat) : Bool :=
  decide (cfg.pageSize - offset < sizeofLogEntry) ||
    (page.entryAt offset).generation == invalidGeneration

/-- The loop over the records of a page.  Every turn moves on by some bytes, so that as many turns
as there are bytes left are enough. -/
def readEntries (page : LogPage) : Nat → Nat → List LogEntry
  | 0, _ => []
  | fuel + 1, offset =>
      if terminalLogEntry cfg page offset then []
      else page.entryAt offset :: readEntries page fuel (offset + (page.entryAt offset).size)

def pageEntries (page : LogPage) : List LogEntry :=
  readEntries cfg page (cfg.pageSize - sizeofHdr) sizeofHdr

/-- The loop over the pages of an extent: whether it met a page that is not valid, the next extent
named by the last page, and what was accumulated. -/
def extentLoop (s : ShardLog τ) {β : Type} (visit : β → LogPage → β) :
    Nat → Nat → Nat → β → Bool × Nat × β
  | 0, _, next, acc => (false, next, acc)
  | n + 1, addr, _, acc =>
      if shardLogValid s.magic (s.page addr) then
        extentLoop s visit n (addr + cfg.pageSize) (s.page addr).nextExtentAddr
          (visit acc (s.page addr))
      else (true, 0, acc)

/-- One pass over the extents of a log, `none` when the fuel runs out. -/
def pass (s : ShardLog τ) {β : Type} (visit : β → LogPage → β) : Nat → Nat → β → Option β
  | 0, _, _ => none
  | fuel + 1, extentAddr, acc =>
      if extentAddr = 0 ∨ extentAddr ∉ s.extents then some acc
      else
        match extentLoop cfg s visit cfg.pagesPerExtent extentAddr 0 acc with
        | (true, _, acc) => some acc
        | (false, next, acc) => pass s visit fuel next acc

/-- `shard_log_compare`: the difference of two `uint64` as an `int`. -/
def shardLogCompare (le1 le2 : LogEntry) : Int :=
  ((le1.generation - le2.generation).setWidth 32).toInt

/-- Why reading a log gives no iterator. -/
inductive ReadError where
  | outOfFuel
  /-- The second pass does not fill the array that the first one has allocated, or overruns it. -/
  | uninitialized
  deriving DecidableEq, Repr

/-- `shard_log_iterator`. -/
structure ShardLogIterator where
  entries : List LogEntry
  numEntries : Nat
  pos : Nat
  deriving DecidableEq, Repr

/-- `shard_log_iterator_init`, with `platform_sort_slow` for `sort`. -/
def shardLogIteratorInit (sort : (LogEntry → LogEntry → Int) → List LogEntry → List LogEntry)
    (s : ShardLog τ) (fuel : Nat) : Except ReadError ShardLogIterator :=
  match pass cfg s (fun n page => n + page.numEntries) fuel s.addr 0,
    pass cfg s (fun acc page => acc ++ pageEntries cfg page) fuel s.addr [] with
  | some numEntries, some entries =>
      if entries.length = numEntries then
        .ok ⟨sort shardLogCompare entries, numEntries, 0⟩
      else .error .uninitialized
  | _, _ => .error .outOfFuel

namespace ShardLogIterator

/-- `shard_log_iterator_can_next`. -/
def canNext (itor : ShardLogIterator) : Bool := decide (itor.pos < itor.numEntries)

/-- `shard_log_iterator_curr`. -/
def curr (itor : ShardLogIterator) : Option LogEntry := itor.entries[itor.pos]?

/-- `shard_log_iterator_next`. -/
def next (itor : ShardLogIterator) : ShardLogIterator := { itor with pos := itor.pos + 1 }

/-- Read and move as long as the iterator can; `none` when the fuel runs out or there is nothing to
read. -/
def drain : Nat → ShardLogIterator → Option (List LogEntry)
  | fuel, itor =>
      if itor.canNext then
        match fuel with
        | 0 => none
        | fuel + 1 => itor.curr.bind fun entry => (drain fuel itor.next).map (entry :: ·)
      else some []

end ShardLogIterator

end Log
end TreePass
