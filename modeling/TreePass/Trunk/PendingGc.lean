import TreePass.Trunk.CollectBranches

/-!
# Pending garbage collections

A node of the trunk that has lost its last reference is freed at once, or queued if a reader is still
using it.  `perform_pending_gcs` frees the queued nodes from the front, under the lock of the queue.

* `GcState` has the counts of the nodes, the queue and its lock, and what has been freed.
* `decRefWith` and `gcWith` are `trunk_ondisk_node_dec_ref` and `trunk_ondisk_node_gc`, each with the
  other as a parameter; `nodeDecRef` and `nodeGc` tie them together.
* `performPendingGcs` is the loop.

The readers do not move while the queue is worked on, and there is memory for the entries of the
queue: without it a node is lost, as the source says.
-/

namespace TreePass
namespace Trunk

/-! ## Nodes -/

section

variable {K : Type}

/-- The children of a node, one address for every pivot that has a child. -/
def OndiskNode.childAddrs (node : OndiskNode K) : List Nat :=
  if node.height = 0 then [] else node.pivots.dropLast.map fun p => p.2.childAddr

/-- The filter and the branches that `bundle_dec_all_refs` gives back. -/
def Bundle.heldRefs (bndl : Bundle) : List Nat :=
  (if bndl.maplet = 0 then [] else [bndl.maplet]) ++ bndl.branches

def OndiskNode.heldRefs (node : OndiskNode K) : List Nat :=
  (node.pivots.dropLast.map fun p => p.2.bundle).flatMap Bundle.heldRefs ++
    node.inflightBundles.flatMap Bundle.heldRefs

def NodeStore.children (nodes : NodeStore K) (addr : Nat) : List Nat :=
  ((nodes addr).map OndiskNode.childAddrs).getD []

/-- The references to filters and branches of the node at an address. -/
def NodeStore.heldRefs (nodes : NodeStore K) (addr : Nat) : List Nat :=
  ((nodes addr).map OndiskNode.heldRefs).getD []

end

/-! ## States -/

/-- `AL_NO_REFS`, the count of an extent that nothing refers to but that is not free yet. -/
def alNoRefs : Nat := 1

/-- What the collection reads and writes. -/
structure GcState where
  /-- The counts of the extents of the nodes. -/
  refs : Nat → Nat
  /-- `pending_gcs`, from the head to the tail. -/
  queue : List Nat
  /-- The thread holds `pending_gcs_lock`. -/
  locked : Bool
  /-- The nodes that have been freed, in order. -/
  freed : List Nat
  /-- The references to filters and branches that have been given back, in order. -/
  dropped : List Nat

/-- What an operation comes to. -/
inductive GcResult where
  | ok (s : GcState)
  /-- The thread waits for the lock that it holds. -/
  | waits
  /-- An assertion of the allocator fails: there is no reference to give back. -/
  | asserts
  | outOfFuel

def GcResult.bind (r : GcResult) (next : GcState → GcResult) : GcResult :=
  match r with
  | .ok s => next s
  | .waits => .waits
  | .asserts => .asserts
  | .outOfFuel => .outOfFuel

/-- The references of a list are given back one after the other. -/
def gcEach (op : Nat → GcState → GcResult) : List Nat → GcState → GcResult
  | [], s => .ok s
  | addr :: addrs, s => (op addr s).bind (gcEach op addrs)

/-! ## The operations -/

section

variable {K : Type} (nodes : NodeStore K) (inUse : Nat → Bool)

/-- `allocator_dec_ref` of the extent of a node. -/
def allocatorDecRef (addr : Nat) (s : GcState) : GcResult :=
  if s.refs addr = 0 then .asserts
  else .ok { s with refs := Function.update s.refs addr (s.refs addr - 1) }

/-- `trunk_ondisk_node_gc`, with what gives back a reference to a child.  A node that cannot be read
loses its extent only. -/
def gcWith (decRef : Nat → GcState → GcResult) (addr : Nat) (s : GcState) : GcResult :=
  (gcEach decRef (nodes.children addr) s).bind fun s =>
    (allocatorDecRef addr { s with dropped := s.dropped ++ nodes.heldRefs addr }).bind fun s =>
      .ok { s with freed := s.freed ++ [addr] }

/-- `trunk_ondisk_node_dec_ref`, with what frees a node. -/
def decRefWith (gc : Nat → GcState → GcResult) (addr : Nat) (s : GcState) : GcResult :=
  (allocatorDecRef addr s).bind fun s =>
    if s.refs addr = alNoRefs then
      if inUse addr then
        if s.locked then .waits else .ok { s with queue := s.queue ++ [addr] }
      else gc addr s
    else .ok s

/-- `trunk_ondisk_node_dec_ref`. -/
def nodeDecRef : Nat → Nat → GcState → GcResult
  | 0, _, _ => .outOfFuel
  | fuel + 1, addr, s => decRefWith inUse (gcWith nodes (nodeDecRef fuel)) addr s

/-- `trunk_ondisk_node_gc`. -/
def nodeGc (fuel : Nat) : Nat → GcState → GcResult :=
  gcWith nodes (nodeDecRef nodes inUse fuel)

/-- The loop of `perform_pending_gcs`, under the lock. -/
def pendingLoop (fuel : Nat) : Nat → GcState → GcResult
  | 0, s =>
      match s.queue with
      | [] => .ok s
      | addr :: _ => if inUse addr then .ok s else .outOfFuel
  | rounds + 1, s =>
      match s.queue with
      | [] => .ok s
      | addr :: queue =>
          if inUse addr then .ok s
          else (nodeGc nodes inUse fuel addr { s with queue := queue }).bind
            (pendingLoop fuel rounds)

/-- `perform_pending_gcs`. -/
def performPendingGcs (fuel : Nat) (s : GcState) : GcResult :=
  if s.locked then .waits
  else (pendingLoop nodes inUse fuel s.queue.length { s with locked := true }).bind fun s =>
    .ok { s with locked := false }

end

end Trunk
end TreePass
