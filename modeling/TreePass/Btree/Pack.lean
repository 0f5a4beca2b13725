import TreePass.Alloc.MiniAllocator
import TreePass.Btree.TrackedLookup

/-!
# Packing a tree

`btree_pack` builds a tree from the tuples of an iterator, from left to right.  At every height the
pages of the current extent are kept open and write-locked; when a page falls into the next extent,
they are linked into their parents and released.

* `PackReq` is the request with the pages, the locks of the thread and the mini allocator.
* `createNextNode` and `linkExtent` call each other: a node that is linked may need a new parent,
  one height up.
* `packLoop`, `packPostLoop` and `packAbort` are the steps of `btree_pack`.

A step is `none` where an assertion of the source fails or a height is reached for which the request
has no room.  The clocks of the pages are left out.
-/

namespace TreePass
namespace Btree

open Alloc (ExtentConfig Extents MiniState miniInit miniAlloc miniRelease miniDecRef)

/-! ## Requests -/

/-- `BTREE_MAX_HEIGHT`. -/
def maxHeight : Nat := 8

/-- What `btree_pack` is given besides the iterator: the limit of tuples and the hash. -/
structure PackConfig (K : Type) where
  btree : Config K
  extents : ExtentConfig
  maxTuples : Nat
  /-- `hash` with its seed. -/
  hash : Option (K → Nat)

/-- `btree_pack_req`, with what it works on. -/
structure PackReq (K : Type) where
  pages : Nat → Page K
  /-- The pages that the thread has locked. -/
  held : List Nat
  alloc : MiniState
  rootAddr : Nat
  height : Nat
  /-- `edge`: the open pages of every height, from left to right. -/
  edge : Nat → List Nat
  edgeStats : Nat → List PivotStats
  numTuples : Nat
  keyBytes : Nat
  messageBytes : Nat
  fingerprints : List Nat

/-- What `btree_pack` returns. -/
inductive PackStatus where
  | ok
  | limitExceeded
  | invalidState
  /-- The status of `iterator_next`. -/
  | iterator (rc : Nat)
  deriving DecidableEq, Repr

def statsZero : PivotStats := ⟨0, 0, 0⟩

/-- `message_is_invalid_user_type`. -/
def isInvalidUserType (msg : Message) : Bool := msg.type == .invalid || msg.type == .pivotData

namespace PackReq

variable {K : Type} (cfg : PackConfig K) (req : PackReq K)

/-- `req->num_edges`. -/
def numEdges (h : Nat) : Nat := (req.edge h).length

/-- `btree_pack_get_current_node`. -/
def currentNode (h : Nat) : Option Nat := (req.edge h).getLast?

def setPage (addr : Nat) (page : Page K) : PackReq K :=
  { req with pages := Function.update req.pages addr page }

/-- `cache_alloc`: the thread gets the page locked. -/
def lockNew (addr : Nat) : PackReq K := { req with held := addr :: req.held }

/-- `btree_node_unlock`, `btree_node_unclaim` and `btree_node_unget`, for a page that is held. -/
def unlock (addr : Nat) : Option (PackReq K) :=
  if addr ∈ req.held then some { req with held := req.held.erase addr } else none

def unlockAll : PackReq K → List Nat → Option (PackReq K)
  | req, [] => some req
  | req, addr :: addrs => do
      let req ← req.unlock addr
      unlockAll req addrs

def updateStats (h : Nat) (f : PivotStats → PivotStats) : PackReq K :=
  let stats := req.edgeStats h
  { req with edgeStats := Function.update req.edgeStats h (stats.modify (stats.length - 1) f) }

/-! ## Nodes -/

/-- The key a node is linked under: its first pivot or the key of its first tuple. -/
def firstKey (page : Page K) (h : Nat) : Option (Key K) :=
  if h = 0 then (page.getLeafEntry 0).map fun e => Key.user e.key
  else (page.getIndexEntry 0).map fun e => e.pivot

/-- An entry for a child in the current node of a height, if there is one and it has room. -/
def tryLink (h : Nat) (pivot : Key K) (childAddr : Nat) (stats : PivotStats) :
    Option (PackReq K) := do
  let parent ← req.currentNode h
  let page ← (req.pages parent).setIndexEntry cfg.btree (req.pages parent).numEntries pivot
    (BitVec.ofNat 64 childAddr) stats
  some (req.setPage parent page)

/-- The entry for a child in its parent; `createParent` creates a parent where there is none or it
is full. -/
def linkToParent (createParent : Key K → PackReq K → Option (PackReq K)) (h : Nat) (pivot : Key K)
    (edge : Nat × PivotStats) (req : PackReq K) : Option (PackReq K) :=
  match req.tryLink cfg (h + 1) pivot edge.1 edge.2 with
  | some req => some req
  | none => (createParent pivot req).bind fun req => req.tryLink cfg (h + 1) pivot edge.1 edge.2

/-- `btree_pack_link_node`. -/
def linkNode (createParent : Key K → PackReq K → Option (PackReq K)) (h : Nat)
    (edge : Nat × PivotStats) (nextExtentAddr : Nat) (req : PackReq K) : Option (PackReq K) := do
  let pivot ← firstKey (req.pages edge.1) h
  let req := req.setPage edge.1
    { req.pages edge.1 with nextExtentAddr := BitVec.ofNat 64 nextExtentAddr }
  let req ← linkToParent cfg createParent h pivot edge req
  (req.updateStats (h + 1) fun stats => accumulatePivotStats stats edge.2).unlock edge.1

/-- The loop of `btree_pack_link_extent`. -/
def linkNodes (createParent : Key K → PackReq K → Option (PackReq K)) (h nextExtentAddr : Nat) :
    List (Nat × PivotStats) → PackReq K → Option (PackReq K)
  | [], req => some req
  | edge :: edges, req => do
      let req ← linkNode cfg createParent h edge nextExtentAddr req
      linkNodes createParent h nextExtentAddr edges req

/-- `btree_pack_link_extent`. -/
def linkExtent (createParent : Key K → PackReq K → Option (PackReq K)) (h nextExtentAddr : Nat)
    (req : PackReq K) : Option (PackReq K) := do
  let req ← linkNodes cfg createParent h nextExtentAddr ((req.edge h).zip (req.edgeStats h)) req
  some { req with
    edge := Function.update req.edge h []
    edgeStats := Function.update req.edgeStats h [] }

/-- `btree_alloc` and `btree_pack_node_init_hdr`: a new page of a height, locked. -/
def allocNode (h : Nat) (req : PackReq K) : Option (Nat × PackReq K) := do
  let ((addr, _), alloc) ← miniAlloc cfg.extents h req.alloc
  some (addr, ({ req with alloc := alloc }.lockNew addr).setPage addr
    { Page.init cfg.btree with height := h })

def linkSiblings (old new : Nat) (req : PackReq K) : PackReq K :=
  let req := req.setPage old { req.pages old with nextAddr := BitVec.ofNat 64 new }
  req.setPage new { req.pages new with prevAddr := BitVec.ofNat 64 old }

/-- The part of `btree_pack_create_next_node` about the nodes before a new one: if they are in
another extent, they are linked and released. -/
def closeExtent (createParent : Key K → PackReq K → Option (PackReq K)) (h new : Nat)
    (req : PackReq K) : Option (PackReq K) :=
  match req.currentNode h with
  | none => some req
  | some old =>
      let req := req.linkSiblings old new
      if cfg.extents.baseAddr old = cfg.extents.baseAddr new then some req
      else linkExtent cfg createParent h new req

def openNode (h new : Nat) (req : PackReq K) : PackReq K :=
  { req with
    height := if req.height < h then h else req.height
    edge := Function.update req.edge h (req.edge h ++ [new])
    edgeStats := Function.update req.edgeStats h (req.edgeStats h ++ [statsZero]) }

/-- `btree_pack_create_next_node`, with the number of heights that are left.  The pivot is only a
hint to the allocator. -/
def createNextNode : Nat → Nat → Key K → PackReq K → Option (PackReq K)
  | 0, _, _, _ => none
  | levels + 1, h, _, req => do
      let (new, req) ← allocNode cfg h req
      let req ← closeExtent cfg (createNextNode levels (h + 1)) h new req
      some (req.openNode h new)

/-! ## The steps of a pack -/

/-- `btree_pack_setup_start`, with `btree_create`: the root and the mini allocator. -/
def setupStart (pages : Nat → Page K) (al : Extents) : Option (PackReq K) := do
  let (rootAddr, al) ← al.alloc
  let alloc ← miniInit cfg.extents (rootAddr + cfg.extents.pageSize) maxHeight al
  some {
    pages := Function.update pages rootAddr (Page.init cfg.btree)
    held := []
    alloc := alloc
    rootAddr := rootAddr
    height := 0
    edge := fun _ => []
    edgeStats := fun _ => []
    numTuples := 0
    keyBytes := 0
    messageBytes := 0
    fingerprints := [] }

/-- A tuple at the end of the current leaf, if there is one and it has room. -/
def trySetTuple (t : Tuple K) (req : PackReq K) : Option (PackReq K) := do
  let leaf ← req.currentNode 0
  let page ← (req.pages leaf).setLeafEntry cfg.btree (req.pages leaf).numEntries t.key t.msg
  some (req.setPage leaf page)

def addTuple (t : Tuple K) (req : PackReq K) : Option (PackReq K) :=
  match req.trySetTuple cfg t with
  | some req => some req
  | none => (createNextNode cfg maxHeight 0 (Key.user t.key) req).bind fun req =>
      req.trySetTuple cfg t

def countTuple (t : Tuple K) (req : PackReq K) : PackReq K :=
  let req := req.updateStats 0 fun stats =>
    ⟨(stats.numKvs + 1) % 2 ^ 32, (stats.keyBytes + cfg.btree.keyLength t.key) % 2 ^ 32,
      (stats.messageBytes + t.msg.data.length) % 2 ^ 32⟩
  { req with
    numTuples := req.numTuples + 1
    keyBytes := req.keyBytes + cfg.btree.keyLength t.key
    messageBytes := req.messageBytes + t.msg.data.length
    fingerprints := req.fingerprints ++ (cfg.hash.map fun hash => hash t.key).toList }

/-- `btree_pack_loop`. -/
def packLoop (t : Tuple K) (req : PackReq K) : Option (PackStatus × PackReq K) :=
  if isInvalidUserType t.msg then some (.invalidState, req)
  else (req.addTuple cfg t).map fun req => (.ok, req.countTuple cfg t)

def openPages (req : PackReq K) : List Nat := (List.range (req.height + 1)).flatMap req.edge

/-- `btree_pack_abort`. -/
def packAbort (req : PackReq K) : Option (PackReq K) := do
  let req ← req.unlockAll req.openPages
  let (_, al) ← miniDecRef cfg.extents req.alloc.mini.metaPages req.alloc.al
  some { req with alloc := { req.alloc with al := al } }

/-- The loop of `btree_pack_post_loop` from a height on, with the number of heights that are
left. -/
def linkLevels : Nat → Nat → PackReq K → Option (Nat × PackReq K)
  | 0, h, req => if h < req.height ∨ 1 < req.numEdges h then none else some (h, req)
  | levels + 1, h, req =>
      if h < req.height ∨ 1 < req.numEdges h then do
        let req ← linkExtent cfg (createNextNode cfg levels (h + 1)) h 0 req
        linkLevels levels (h + 1) req
      else some (h, req)

/-- `btree_pack_post_loop`. -/
def packPostLoop (req : PackReq K) : Option (PackReq K) :=
  if req.numTuples = 0 then do
    let al ← miniRelease req.alloc
    let (ref, al) ← miniDecRef cfg.extents req.alloc.mini.metaPages al
    guard (ref = 0)
    some { req with alloc := { req.alloc with al := al }, rootAddr := 0 }
  else do
    let (_, req) ← linkLevels cfg maxHeight 0 req
    let top ← (req.edge req.height).head?
    let req := req.setPage req.rootAddr { req.pages top with nextExtentAddr := 0 }
    let req ← req.unlock top
    let al ← miniRelease req.alloc
    some { req with alloc := { req.alloc with al := al } }

/-- The loop of `btree_pack` over what the iterator returns: every tuple with the error of the
`iterator_next` after it, if it fails. -/
def packTuples : List (Tuple K × Option Nat) → PackReq K → Option (PackStatus × PackReq K)
  | [], req => (packPostLoop cfg req).map fun req => (.ok, req)
  | (t, rc) :: input, req =>
      if ¬ req.numTuples < cfg.maxTuples then
        (packAbort cfg req).map fun req => (.limitExceeded, req)
      else
        match packLoop cfg t req with
        | none => none
        | some (.ok, req) =>
            match rc with
            | none => packTuples input req
            | some rc => (packAbort cfg req).map fun req => (.iterator rc, req)
        | some (status, req) => (packAbort cfg req).map fun req => (status, req)

end PackReq

/-- `btree_pack`. -/
def pack {K : Type} (cfg : PackConfig K) (pages : Nat → Page K) (al : Extents)
    (input : List (Tuple K × Option Nat)) : Option (PackStatus × PackReq K) := do
  let req ← PackReq.setupStart cfg pages al
  req.packTuples cfg input

end Btree
end TreePass
