import TreePass.Btree.PivotMeta

/-!
# Lookups that count the accesses of pivots

`btree_lookup_node` and `btree_lookup`, with the pivot tracking of branches: on the way down every
pivot that leads to a page outside of the cache is counted, and the result of the warmth tests
decides how the pages below are taken and given back.  The tests read clocks and compute with
floating-point numbers; their results are parameters, and so is which pages the cache has.
-/

namespace TreePass
namespace Btree

/-- `page_type` of a B-tree. -/
inductive PageType where
  | memtable
  | branch
  deriving DecidableEq, Repr

/-- What the tests of `btree_update_pivot_cnt_and_is_warm` see at a pivot. -/
structure WarmthTests where
  /-- `ei == EI_NOT_READY`. -/
  evictIntervalNotReady : Bool
  /-- The evict interval. -/
  ei : Nat
  /-- The `entry_time` of the page, 0 for a cold one. -/
  entryTime : Nat
  /-- The time since then. -/
  elapsed : Nat
  /-- `mult_d > 0`. -/
  multPositive : Bool
  /-- `(uint64)(ei * mult_d)`. -/
  eiMult : Nat
  /-- Whether the elapsed time is within `ei * hits * mult_d`. -/
  within : Nat → Bool

/-- The answers a lookup gets, by the height of the node it is at. -/
structure LookupOutcomes where
  /-- `cache_present_by_addr` for the child. -/
  present : Nat → Bool
  tests : Nat → WarmthTests

/-- What a lookup asks of the cache for a page. -/
inductive CacheCall where
  | get (addr : Addr) (isWarm : Bool)
  | unget (addr : Addr)
  | ungetCold (addr : Addr)
  deriving DecidableEq

/-- The pages of a tree and what was asked of the cache so far, the latest first. -/
structure Reader (K : Type) where
  pages : Addr → Page K
  calls : List CacheCall

variable {K : Type}

/-! ## Counting an access -/

/-- `pivot_is_special`. -/
def OndiskIndexEntry.isSpecial (e : OndiskIndexEntry K) : Bool := metaIsSpecial e.pivotMeta

/-- `pivot_hits_u64`. -/
def OndiskIndexEntry.hits (e : OndiskIndexEntry K) : Nat := (metaCnt7 e.pivotMeta).toNat

namespace Page

variable (hdr : Page K)

/-- `pivot_set_count` on the pivot at an index. -/
def pivotSetCount (k count : Nat) : Page K :=
  match hdr.getIndexEntry k with
  | some e => hdr.pivotMetaAccess k (.setCount e.pivotMeta (BitVec.ofNat 8 count))
  | none => hdr

/-- `pivot_cnt_inc_relaxed` on the pivot at an index. -/
def pivotCntInc (k : Nat) : Page K :=
  match hdr.getIndexEntry k with
  | some e => hdr.pivotMetaAccess k (.increment e.pivotMeta)
  | none => hdr

/-- `max_hits` of the `was_cached` compensation: the most hits that keep the pivot cold. -/
def maxHits (tests : WarmthTests) : Nat := tests.elapsed / tests.eiMult - 1

/-- The part of `btree_update_pivot_cnt_and_is_warm` after the compensation. -/
def updateByHits (tests : WarmthTests) (k hits : Nat) : Page K × Bool :=
  if hits = 0 then
    (hdr.pivotCntInc k, false)
  else if tests.ei = 0 then
    (hdr, true)
  else if tests.within hits then
    (hdr.pivotMetaAccess k .markSpecial, true)
  else if pivotCntOverflowThreshold ≤ hits then
    (hdr.resetCounts, false)
  else
    (hdr.pivotCntInc k, false)

/-- `btree_update_pivot_cnt_and_is_warm` for the pivot at an index of a node. -/
def updatePivotCntAndIsWarm (tests : WarmthTests) (k : Nat) (entry : OndiskIndexEntry K) :
    Page K × Bool :=
  let cleared := if entry.isSpecial then hdr.pivotMetaAccess k .clearSpecial else hdr
  if tests.evictIntervalNotReady then
    (cleared.pivotMetaAccess k .markSpecial, true)
  else if tests.entryTime = 0 then
    (cleared, false)
  else if entry.isSpecial ∧ 0 < tests.ei ∧ tests.multPositive ∧ 0 < tests.eiMult ∧
      entry.hits < maxHits tests then
    (cleared.pivotSetCount k (min (maxHits tests) 127)).updateByHits tests k (maxHits tests)
  else
    cleared.updateByHits tests k entry.hits

end Page

/-! ## The descent -/

/-- `add_unknown`. -/
def addUnknown (a b : Nat) : Nat :=
  if a ≠ unknownCounter ∧ b ≠ unknownCounter then (a + b) % 2 ^ 32 else unknownCounter

/-- `btree_accumulate_pivot_stats`. -/
def accumulatePivotStats (dest src : PivotStats) : PivotStats :=
  ⟨addUnknown dest.numKvs src.numKvs, addUnknown dest.keyBytes src.keyBytes,
    addUnknown dest.messageBytes src.messageBytes⟩

variable (cfg : Config K)

/-- One entry more in the sums of `accumulate_node_ranks`. -/
def accumulateEntry (stats : PivotStats) : Entry K → PivotStats
  | .leaf e =>
      { stats with
        keyBytes := addUnknown stats.keyBytes (cfg.keyLength e.key)
        messageBytes := addUnknown stats.messageBytes e.msg.data.length }
  | .index e => accumulatePivotStats stats e.pivotData.stats

/-- `accumulate_node_ranks` from 0 to an index. -/
def accumulateNodeRanks (hdr : Page K) (upto : Nat) (stats : PivotStats) : PivotStats :=
  let sums := (hdr.slots.take upto).foldl (fun sums slot => accumulateEntry cfg sums slot.entry) stats
  if hdr.height = 0 then { sums with numKvs := (sums.numKvs + upto) % 2 ^ 32 } else sums

variable [LinearOrder K]

def Page.childIndex (hdr : Page K) (target : Key K) : Nat :=
  if target = ⊤ then hdr.numEntries - 1 else (hdr.findPivot target).1.toNat

/-- What a descent has found: the node, the rank of its first key and whether the path was warm. -/
structure Found where
  addr : Addr
  stats : PivotStats
  isWarm : Bool
  deriving DecidableEq

variable (outcomes : LookupOutcomes) (type : PageType)

/-- The pivot tracking at a node of height `h`, before the child is taken: whether the child was
found in the cache, the pages afterwards and whether the path is still warm. -/
def trackPivot (pages : Addr → Page K) (addr : Addr) (h k : Nat) (entry : OndiskIndexEntry K)
    (isWarm : Bool) : Bool × (Addr → Page K) × Bool :=
  match type with
  | .memtable => (false, pages, isWarm)
  | .branch =>
      if isWarm ∧ outcomes.present h then
        (true, pages, isWarm)
      else if isWarm then
        let r := (pages addr).updatePivotCntAndIsWarm (outcomes.tests h) k entry
        (false, Function.update pages addr r.1, r.2)
      else
        (false, pages, false)

/-- The counts of an internal node that was read from disk start again at 0. -/
def resetStaleCounts (pages : Addr → Page K) (child : Addr) (childInCache internal : Bool) :
    Addr → Page K :=
  if !childInCache && internal && decide (type = .branch) then
    Function.update pages child (pages child).resetCounts
  else
    pages

/-- Gives a node back, according to the warmth of the path to it. -/
def releaseCall (addr : Addr) (isWarm : Bool) : CacheCall :=
  if !isWarm && decide (type = .branch) then .ungetCold addr else .unget addr

/-- The turns of the loop of `btree_lookup_node`, so many as the node is above `stopAtHeight`;
`none` if the pivot that is looked for is not there. -/
def lookupTurns (target : Key K) (stopAtHeight : Nat) :
    Nat → Found → Reader K → Option (Found × Reader K)
  | 0, found, s => some (found, s)
  | n + 1, found, s =>
      let hdr := s.pages found.addr
      let k := hdr.childIndex target
      match hdr.getIndexEntry k with
      | none => none
      | some entry =>
          let child := entry.maskedChildAddr
          let stats := accumulateNodeRanks cfg hdr k found.stats
          let tracked := trackPivot outcomes type s.pages found.addr (stopAtHeight + n + 1) k entry
            found.isWarm
          let pages := resetStaleCounts type tracked.2.1 child tracked.1 (decide (0 < n))
          lookupTurns target stopAtHeight n ⟨child, stats, tracked.2.2⟩
            ⟨pages, releaseCall type found.addr found.isWarm :: .get child tracked.2.2 :: s.calls⟩

/-- **`btree_lookup_node`**. -/
def btreeLookupNode (rootAddr : Addr) (target : Key K) (stopAtHeight : Nat) (s : Reader K) :
    Option (Found × Reader K) :=
  lookupTurns cfg outcomes type target stopAtHeight ((s.pages rootAddr).height - stopAtHeight)
    ⟨rootAddr, ⟨0, 0, 0⟩, true⟩ { s with calls := .get rootAddr true :: s.calls }

/-- `btree_lookup_with_ref`: the node, which stays referenced, and the message, if the target is
in the tree. -/
def btreeLookupWithRef (rootAddr : Addr) (target : Key K) (s : Reader K) :
    Option ((Found × Option Message) × Reader K) := do
  let r ← btreeLookupNode cfg outcomes type rootAddr target 0 s
  let place := (r.2.pages r.1.addr).findTuple target
  if place.2 then
    let entry ← (r.2.pages r.1.addr).getLeafEntry place.1.toNat
    return ((r.1, some entry.msg), r.2)
  else
    return ((r.1, none),
      { r.2 with calls := releaseCall type r.1.addr r.1.isWarm :: r.2.calls })

end Btree
end TreePass
