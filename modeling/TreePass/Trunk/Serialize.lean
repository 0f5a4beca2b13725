import TreePass.Trunk.Node

/-!
# Writing a trunk node

A node is written to a new extent, page after page.  The header page stays locked to the end, and
one page more is locked that is being written.

* `NodeRefs` are the reference counts of extents, branches and filters.
* `maybeSetupNextPage` goes to the next page if there is no room; `serializeItems` is the loop over
  what is written.
* `trunkNodeSerialize` is the whole function with its cleanup.
* `SerializeFaults` says where it fails.

`none` stands for an access that the cache does not allow: a page is unlocked that is not locked.
-/

namespace TreePass
namespace Trunk

open Btree (Key)

/-! ## Parameters -/

/-- The sizes of pages, extents and of what lies in them. -/
structure SerializeConfig (K : Type) where
  pageSize : Nat
  extentSize : Nat
  nodeHeaderSize : Nat
  pivotOffsetSize : Nat
  /-- `sizeof(trunk_ondisk_pivot)`, without the key. -/
  pivotSize : Nat
  /-- `ondisk_key_required_data_capacity`. -/
  keyCapacity : Key K → Nat
  /-- `sizeof(trunk_ondisk_bundle)`, without the branches. -/
  bundleSize : Nat
  branchRefSize : Nat

/-- What the allocator, the cache and the heap answer. -/
structure SerializeFaults where
  /-- The extent that `allocator_alloc` gives, or that there is none. -/
  extent : Option Nat
  /-- The pages that `cache_alloc` does not give. -/
  cacheAlloc : Nat → Bool
  refCreate : Bool

/-- `AL_ONE_REF`, the count of an extent that has been allocated. -/
def alOneRef : Nat := 2

/-- The reference counts of the extents of nodes, branches and filters, by address. -/
abbrev NodeRefs := Nat → Nat

/-! ## Locked pages -/

/-- `cache_unlock`, `cache_unclaim` and `cache_unget` of a page that the thread has locked. -/
def releasePage (page : Nat) (locked : List Nat) : Option (List Nat) :=
  if page ∈ locked then some (locked.erase page) else none

/-- The registers of `trunk_node_serialize` while it writes. -/
structure Serializer where
  headerAddr : Nat
  /-- `current_page`; `none` for `NULL`. -/
  currentPage : Option Nat
  pageOffset : Nat
  locked : List Nat
  deriving DecidableEq

/-- The current page is released, unless it is the header page. -/
def Serializer.releaseCurrent (s : Serializer) (page : Nat) : Option (List Nat) :=
  if page ≠ s.headerAddr then releasePage page s.locked else some s.locked

/-- The status of `trunk_node_serialize_maybe_setup_next_page`. -/
inductive SetupStatus where
  | ok
  | limitExceeded
  | noMemory
  deriving DecidableEq, Repr

section

variable {K : Type} (cfg : SerializeConfig K) (faults : SerializeFaults)

/-- `trunk_node_serialize_maybe_setup_next_page`. -/
def maybeSetupNextPage (requiredSpace : Nat) (s : Serializer) : Option (SetupStatus × Serializer) :=
  if cfg.pageSize < requiredSpace then some (.limitExceeded, s)
  else if cfg.pageSize < s.pageOffset + requiredSpace then do
    let page ← s.currentPage
    let locked ← s.releaseCurrent page
    let addr := page + cfg.pageSize
    if cfg.extentSize ≤ addr - s.headerAddr then
      -- The page has been released, but it is still the current page.
      some (.limitExceeded, { s with locked := locked })
    else if faults.cacheAlloc addr then
      some (.noMemory, { s with currentPage := none, locked := locked })
    else some (.ok, ⟨s.headerAddr, some addr, 0, addr :: locked⟩)
  else some (.ok, s)

/-- The loops that write pivots and bundles: what has been written, by offset. -/
def serializeItems : List Nat → Serializer → Option (SetupStatus × List Nat × Serializer)
  | [], s => some (.ok, [], s)
  | size :: sizes, s => do
      let (status, s') ← maybeSetupNextPage cfg faults size s
      if status ≠ .ok then some (status, [], s')
      else do
        let page ← s'.currentPage
        let offset := page - s'.headerAddr + s'.pageOffset
        let (status, offsets, s'') ←
          serializeItems sizes { s' with pageOffset := s'.pageOffset + size }
        some (status, offset :: offsets, s'')

/-! ## Sizes -/

/-- `bundle_ondisk_size`. -/
def bundleOndiskSize (bndl : Bundle) : Nat :=
  cfg.bundleSize + cfg.branchRefSize * bndl.branches.length

/-- `trunk_pivot_ondisk_size`. -/
def pivotOndiskSize (pvt : TrunkPivot K) : Nat := cfg.pivotSize + cfg.keyCapacity pvt.key

/-- The space for the pivots, each but the last with its bundle behind it. -/
def pivotSpaces (node : TrunkNode K) : List Nat :=
  (List.range node.pivots.length).filterMap fun i =>
    node.pivots[i]?.map fun pvt =>
      pivotOndiskSize cfg pvt +
        if i < node.pivots.length - 1 then
          ((node.pivotBundles[i]?).map (bundleOndiskSize cfg)).getD 0
        else 0

/-- The space for the in-flight bundles that are still live, from the newest to the oldest. -/
def inflightSpaces (node : TrunkNode K) : List Nat :=
  node.liveInflightBundles.reverse.map (bundleOndiskSize cfg)

/-! ## References -/

def NodeRefs.inc (refs : NodeRefs) (addr : Nat) : NodeRefs :=
  Function.update refs addr (refs addr + 1)

/-- `bundle_inc_all_refs`: the filter and the branches.  A bundle without a filter has at most one
branch. -/
def bundleIncAllRefs (refs : NodeRefs) (bndl : Bundle) : Option NodeRefs :=
  if bndl.maplet = 0 then
    if bndl.branches.length ≤ 1 then some (bndl.branches.foldl NodeRefs.inc refs) else none
  else some (bndl.branches.foldl NodeRefs.inc (refs.inc bndl.maplet))

/-- `trunk_node_inc_all_refs`. -/
def trunkNodeIncAllRefs (node : TrunkNode K) (refs : NodeRefs) : Option NodeRefs := do
  let refs' := if node.isLeaf then refs
    else (node.children.map (·.childAddr)).foldl NodeRefs.inc refs
  let refs'' ← node.pivotBundles.foldlM bundleIncAllRefs refs'
  node.liveInflightBundles.foldlM bundleIncAllRefs refs''

/-! ## The function -/

/-- What `trunk_node_serialize` returns and leaves behind. -/
structure Serialized where
  /-- The address in the reference to the new node; `none` for `NULL`. -/
  result : Option Nat
  /-- The offsets of the pivots and of the in-flight bundles. -/
  offsets : List Nat × List Nat
  refs : NodeRefs
  locked : List Nat

/-- The end of the function, with or without a failure: the two pages are released. -/
def releasePages (s : Serializer) : Option (List Nat) :=
  match s.currentPage with
  | some page => (s.releaseCurrent page).bind (releasePage s.headerAddr)
  | none => releasePage s.headerAddr s.locked

/-- Return from the cleanup.  The pages of the extent are discarded from the cache; its count
stays. -/
def serializeCleanup (refs : NodeRefs) (s : Serializer) : Option Serialized := do
  let locked ← releasePages s
  some ⟨none, ([], []), refs, locked⟩

/-- `trunk_node_serialize` on a node that is well formed. -/
def trunkNodeSerialize (node : TrunkNode K) (refs : NodeRefs) (locked : List Nat) :
    Option Serialized :=
  match faults.extent with
  | none => some ⟨none, ([], []), refs, locked⟩
  | some headerAddr =>
      let refs' : NodeRefs := Function.update refs headerAddr alOneRef
      if faults.cacheAlloc headerAddr then some ⟨none, ([], []), refs', locked⟩
      else do
        let start : Serializer := ⟨headerAddr, some headerAddr,
          cfg.nodeHeaderSize + cfg.pivotOffsetSize * node.pivots.length, headerAddr :: locked⟩
        let (status, pivotOffsets, s) ← serializeItems cfg faults (pivotSpaces cfg node) start
        if status ≠ .ok then serializeCleanup refs' s
        else do
          let (status, bundleOffsets, s') ← serializeItems cfg faults (inflightSpaces cfg node) s
          if status ≠ .ok then serializeCleanup refs' s'
          else do
            let refs'' ← trunkNodeIncAllRefs node refs'
            if faults.refCreate then serializeCleanup refs'' s'
            else do
              let locked' ← releasePages s'
              some ⟨some headerAddr, (pivotOffsets, bundleOffsets), refs'', locked'⟩

end

end Trunk
end TreePass
