import Mathlib.Data.List.Basic
import Mathlib.Data.List.Nodup
import Mathlib.Logic.Function.Basic
import Mathlib.Tactic.Common

/-!
# The mini allocator

A tree takes its pages from a mini allocator, which takes extents from the extent allocator and
hands them out page by page, one extent at a time for each batch.  For every batch the next extent
is taken in advance.  An extent is recorded in a list of meta pages when its first page is handed
out.

* `Extents` is the extent allocator as the mini allocator uses it.
* `miniInit`, `miniAlloc`, `miniRelease` and `miniDecRef` are the operations; they are `none` where
  an assertion of theirs fails.

One thread uses the mini allocator, so that the locks of a batch and of the last meta page are free.
-/

namespace TreePass
namespace Alloc

/-! ## Extents -/

/-- The sizes of pages and extents.  A page has room for the header of a meta page and one entry,
and an extent for the root of a tree and a meta page. -/
structure ExtentConfig where
  pageSize : Nat
  pagesPerExtent : Nat
  pageSize_ge : 28 ≤ pageSize
  pagesPerExtent_ge : 2 ≤ pagesPerExtent

namespace ExtentConfig

variable (cfg : ExtentConfig)

/-- `cache_extent_size`. -/
def extentSize : Nat := cfg.pageSize * cfg.pagesPerExtent

/-- `allocator_config_extent_base_addr`. -/
def baseAddr (addr : Nat) : Nat := addr / cfg.extentSize * cfg.extentSize

theorem extentSize_pos : 0 < cfg.extentSize := by
  have hpage := cfg.pageSize_ge
  have hpages := cfg.pagesPerExtent_ge
  unfold extentSize
  exact Nat.mul_pos (by omega) (by omega)

end ExtentConfig

/-- `AL_ONE_REF`. -/
def oneRef : Nat := 2

/-- `AL_NO_REFS`. -/
def noRefs : Nat := 1

/-- `AL_FREE`. -/
def free : Nat := 0

/-- `MINI_NO_REFS`. -/
def miniNoRefs : Nat := 2

/-- The counts of the extents by their base addresses, and the extents that the calls of
`allocator_alloc` to come return. -/
structure Extents where
  refCount : Nat → Nat
  supply : List Nat

namespace Extents

/-- `allocator_alloc`. -/
def alloc (al : Extents) : Option (Nat × Extents) :=
  match al.supply with
  | [] => none
  | addr :: supply => some (addr, ⟨Function.update al.refCount addr oneRef, supply⟩)

/-- `allocator_inc_ref`; it asserts that the extent has been allocated. -/
def incRef (al : Extents) (addr : Nat) : Option (Nat × Extents) :=
  if al.refCount addr = free then none
  else some (al.refCount addr + 1,
    { al with refCount := Function.update al.refCount addr (al.refCount addr + 1) })

/-- `allocator_dec_ref`; it asserts that the extent has been allocated. -/
def decRef (al : Extents) (addr : Nat) : Option (Nat × Extents) :=
  if al.refCount addr = free then none
  else some (al.refCount addr - 1,
    { al with refCount := Function.update al.refCount addr (al.refCount addr - 1) })

/-- The two calls that free an extent with a single reference, with the assertions on what they
return. -/
def dealloc (al : Extents) (addr : Nat) : Option Extents := do
  let (ref, al) ← al.decRef addr
  guard (ref = noRefs)
  let (ref, al) ← al.decRef addr
  guard (ref = free)
  some al

def deallocAll : Extents → List Nat → Option Extents
  | al, [] => some al
  | al, addr :: addrs => do
      let al ← al.dealloc addr
      deallocAll al addrs

end Extents

/-! ## Meta pages -/

/-- `mini_meta_hdr` with its entries, at its address. -/
structure MetaPage where
  addr : Nat
  entries : List Nat
  deriving DecidableEq, Repr

/-- `mini_allocator`.  The meta pages stand in the order of their links, so that the first is
`meta_head` and the last `meta_tail`. -/
structure Mini where
  metaPages : List MetaPage
  /-- `next_addr`, by batch. -/
  nextAddr : List Nat
  /-- `next_extent`, by batch. -/
  nextExtent : List Nat
  numExtents : Nat
  deriving DecidableEq, Repr

/-- The mini allocator and the extent allocator below it. -/
structure MiniState where
  mini : Mini
  al : Extents

variable (cfg : ExtentConfig)

/-- `entry_fits_in_page` for the position of the next entry: the header has 20 bytes, an entry 8. -/
def entryFits (page : MetaPage) : Bool := 20 + 8 * page.entries.length + 8 ≤ cfg.pageSize

/-- `mini_allocator_get_new_extent`. -/
def getNewExtent (s : MiniState) : Option (Nat × MiniState) := do
  let (addr, al) ← s.al.alloc
  some (addr, ⟨{ s.mini with numExtents := s.mini.numExtents + 1 }, al⟩)

/-- The loop of `mini_init` over the batches. -/
def takeNextExtents : Nat → MiniState → Option MiniState
  | 0, s => some s
  | n + 1, s => do
      let (addr, s) ← getNewExtent s
      takeNextExtents n { s with mini := { s.mini with nextExtent := s.mini.nextExtent ++ [addr] } }

/-- `mini_init` of a new mini allocator. -/
def miniInit (metaHead numBatches : Nat) (al : Extents) : Option MiniState := do
  let (ref, al) ← al.incRef (cfg.baseAddr metaHead)
  guard (ref = miniNoRefs + 1)
  takeNextExtents numBatches ⟨⟨[⟨metaHead, []⟩], List.replicate numBatches 0, [], 1⟩, al⟩

/-- The address of a new meta page: the next page, or the first one of a new extent. -/
def newMetaTail (metaTail : Nat) (s : MiniState) : Option (Nat × MiniState) :=
  if (metaTail + cfg.pageSize) % cfg.extentSize = 0 then getNewExtent s
  else some (metaTail + cfg.pageSize, s)

/-- `mini_append_entry`. -/
def appendEntry (s : MiniState) (extentAddr : Nat) : Option MiniState := do
  let metaPage ← s.mini.metaPages.getLast?
  if entryFits cfg metaPage then
    some { s with mini := { s.mini with
      metaPages := s.mini.metaPages.dropLast ++
        [{ metaPage with entries := metaPage.entries ++ [extentAddr] }] } }
  else
    let (addr, s) ← newMetaTail cfg metaPage.addr s
    some { s with mini := { s.mini with metaPages := s.mini.metaPages ++ [⟨addr, [extentAddr]⟩] } }

/-- The part of `mini_alloc` that goes on to the next extent of a batch. -/
def startExtent (batch : Nat) (s : MiniState) : Option (Nat × MiniState) := do
  let extentAddr ← s.mini.nextExtent[batch]?
  let (addr, s) ← getNewExtent s
  let s ← appendEntry cfg
    { s with mini := { s.mini with nextExtent := s.mini.nextExtent.set batch addr } } extentAddr
  some (extentAddr, s)

/-- The page that `mini_alloc` hands out: the next one, or the first one of the next extent. -/
def nextPage (batch nextAddr : Nat) (s : MiniState) : Option (Nat × MiniState) :=
  if nextAddr % cfg.extentSize = 0 then startExtent cfg batch s else some (nextAddr, s)

/-- `mini_alloc`: the page and, as `next_extent`, the extent after the one it is in. -/
def miniAlloc (batch : Nat) (s : MiniState) : Option ((Nat × Nat) × MiniState) := do
  let nextAddr ← s.mini.nextAddr[batch]?
  let (addr, s) ← nextPage cfg batch nextAddr s
  let nextExtent ← s.mini.nextExtent[batch]?
  some ((addr, nextExtent),
    { s with mini := { s.mini with
      nextAddr := s.mini.nextAddr.set batch (addr + cfg.pageSize) } })

/-- `mini_release`. -/
def miniRelease (s : MiniState) : Option Extents := s.al.deallocAll s.mini.nextExtent

/-- The extents that `mini_deinit` frees: the extent of every meta page whose next one, if there is
one, lies in another extent. -/
def metaExtents : List MetaPage → List Nat
  | [] => []
  | [last] => [cfg.baseAddr last.addr]
  | page :: next :: pages =>
      if cfg.baseAddr page.addr = cfg.baseAddr next.addr then metaExtents (next :: pages)
      else cfg.baseAddr page.addr :: metaExtents (next :: pages)

def recorded (pages : List MetaPage) : List Nat := pages.flatMap (·.entries)

/-- `mini_dec_ref` on the meta pages at `meta_head`: with the last reference everything goes. -/
def miniDecRef (metaPages : List MetaPage) (al : Extents) : Option (Nat × Extents) := do
  let metaHead ← metaPages.head?
  let (ref, al) ← al.decRef (cfg.baseAddr metaHead.addr)
  if ref ≠ miniNoRefs then
    some (ref - miniNoRefs, al)
  else
    let al ← al.deallocAll (recorded metaPages)
    let al ← al.deallocAll (metaExtents cfg metaPages)
    some (0, al)

end Alloc
end TreePass
