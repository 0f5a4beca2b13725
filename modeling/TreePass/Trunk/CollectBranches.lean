import TreePass.Trunk.OndiskNode

/-!
# Collecting branches

A range iterator takes the branches on the way of a key from the root of the trunk to the leaf, with
one reference to each.

* `Collector` is what the collection writes: the array of the caller, the number of branches in it
  and the reference counts.
* `collectBundle`, `collectBundles` and `collectLoop` are the loops, the innermost first; `decRefs` is
  the loop of the cleanup.
* `Faults` are the points at which a page cannot be got or a key cannot be copied.

Counts are natural numbers: they do not come near the bound of an allocator entry.
-/

namespace TreePass
namespace Trunk

open Btree (Key)

/-! ## Nodes of a trunk -/

abbrev NodeStore (K : Type) := Nat → Option (OndiskNode K)

/-- The bundles that a pivot can still see, from the newest to the oldest; the pivot bundle is the
oldest. -/
def OndiskNode.liveBundles {K : Type} (node : OndiskNode K) (pivot : OndiskPivot K) : List Bundle :=
  node.inflightBundles.take pivot.numLiveInflightBundles ++ [pivot.bundle]

/-! ## What a collection writes -/

/-- `branches`, `*num_branches` and the reference counts of the branches. -/
structure Collector where
  branches : Nat → Nat
  numBranches : Nat
  refs : Nat → Nat

/-- The word of `num_branches`. -/
def numBranchesMod : Nat := 2 ^ 64

/-- `btree_inc_ref`. -/
def btreeIncRef (refs : Nat → Nat) (addr : Nat) : Nat → Nat :=
  Function.update refs addr (refs addr + 1)

/-- `btree_dec_ref`; a branch must have a reference to lose. -/
def btreeDecRef (refs : Nat → Nat) (addr : Nat) : Option (Nat → Nat) :=
  if refs addr ≠ 0 then some (Function.update refs addr (refs addr - 1)) else none

/-- `trunk_collect_bundle_branches` from the branch at the head of the list, behind which the older
ones are: its index is their number. -/
def collectBundleFrom (capacity : Nat) : List Nat → Collector → Bool × Collector
  | [], s => (true, s)
  | addr :: older, s =>
      if s.numBranches = capacity then
        -- The index is what is left of the bundle, not what has been taken of it.
        (false, { s with
          numBranches := (s.numBranches + numBranchesMod - older.length) % numBranchesMod })
      else
        collectBundleFrom capacity older
          ⟨Function.update s.branches s.numBranches addr, s.numBranches + 1, s.refs⟩

/-- `trunk_collect_bundle_branches`: whether there was room, and what has been written. -/
def collectBundle (capacity : Nat) (bndl : Bundle) (s : Collector) : Bool × Collector :=
  collectBundleFrom capacity bndl.branches.reverse s

/-- `trunk_ondisk_bundle_inc_all_branch_refs`. -/
def incAllBranchRefs (bndl : Bundle) (s : Collector) : Collector :=
  { s with refs := bndl.branches.foldl btreeIncRef s.refs }

/-- The loop over the bundles of a pivot; the references to the branches of a bundle are taken when
all of them are in the array. -/
def collectBundles (capacity : Nat) : List Bundle → Collector → Bool × Collector
  | [], s => (true, s)
  | bndl :: bundles, s =>
      match collectBundle capacity bndl s with
      | (false, s') => (false, s')
      | (true, s') => collectBundles capacity bundles (incAllBranchRefs bndl s')

/-! ## The walk to the leaf -/

/-- The status at return. -/
inductive CollectStatus where
  | ok
  | limitExceeded
  | ioError
  | noMemory
  deriving DecidableEq, Repr

/-- Where the walk fails: a page of the node at an address cannot be got, or there is no memory for
a key of the leaf there. -/
structure Faults where
  findPivot : Nat → Bool
  firstBundle : Nat → Bool
  childInit : Nat → Bool
  leafKeys : Nat → Bool
  copyMinKey : Nat → Bool
  copyMaxKey : Nat → Bool

/-- What the collection returns. -/
structure CollectResult (K : Type) where
  status : CollectStatus
  collector : Collector
  minKey : Key K
  maxKey : Key K

section

variable {K : Type} [LinearOrder K] (pageSize : Nat) (nodes : NodeStore K) (faults : Faults)
  (tgt : Key K) (mode : FindMode) (capacity : Nat)

/-- A return from inside the walk, where the keys are still those of the beginning. -/
def CollectResult.early {K : Type} (status : CollectStatus) (s : Collector) : CollectResult K :=
  ⟨status, s, ⊥, ⊤⟩

/-- The end of the walk at a leaf, whose keys bound the range of the branches. -/
def collectLeafKeys {K : Type} (faults : Faults) (addr : Nat) (node : OndiskNode K) (s : Collector) :
    Option (CollectResult K) :=
  if node.numPivots = 2 then
    if faults.leafKeys addr then some (.early .ioError s)
    else do
      let leafMinKey ← node.keys[0]?
      let leafMaxKey ← node.keys[1]?
      if faults.copyMinKey addr then some (.early .noMemory s)
      else if faults.copyMaxKey addr then some ⟨.noMemory, s, leafMinKey, ⊤⟩
      else some ⟨.ok, s, leafMinKey, leafMaxKey⟩
  else none

/-- The loop of `trunk_collect_branches` from the node at an address; `none` if the fuel runs out, an
assertion fails or there is no such node. -/
def collectLoop : Nat → Nat → Collector → Option (CollectResult K)
  | 0, _, _ => none
  | fuel + 1, addr, s => do
      let node ← nodes addr
      if faults.findPivot addr then some (.early .ioError s)
      else
        let (ptr, _) ← findPivot pageSize node .init tgt mode
        let pivot ← node.pivots[ptr.num]?.map Prod.snd
        if faults.firstBundle addr then some (.early .ioError s)
        else
          match collectBundles capacity (node.liveBundles pivot) s with
          | (false, s') => some (.early .limitExceeded s')
          | (true, s') =>
              if pivot.childAddr ≠ 0 then
                if faults.childInit pivot.childAddr then some (.early .ioError s')
                else collectLoop fuel pivot.childAddr s'
              else collectLeafKeys faults addr node s'

/-- The loop of the cleanup: `count` branches from `i` lose a reference.  `none` if it reads behind
the end of the array or a branch has no reference to lose. -/
def decRefs (branches : Nat → Nat) : Nat → Nat → (Nat → Nat) → Option (Nat → Nat)
  | 0, _, refs => some refs
  | count + 1, i, refs =>
      if i < capacity then do
        let refs' ← btreeDecRef refs (branches i)
        decRefs branches count (i + 1) refs'
      else none

/-- `trunk_collect_branches` on the trunk whose root is at an address. -/
def collectBranches (fuel rootAddr : Nat) (s : Collector) : Option (CollectResult K) := do
  let r ← collectLoop pageSize nodes faults tgt mode capacity fuel rootAddr s
  if r.status = .ok then some r
  else do
    let refs ← decRefs capacity r.collector.branches (r.collector.numBranches - s.numBranches)
      s.numBranches r.collector.refs
    some { r with collector := ⟨r.collector.branches, s.numBranches, refs⟩ }

end

end Trunk
end TreePass
