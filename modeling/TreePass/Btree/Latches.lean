import TreePass.Btree.Incorporate
import TreePass.Lib.Hoare
import Mathlib.Algebra.Order.Group.Multiset

/-!
# The pages a thread has locked

The locks one thread holds while it changes a B-tree, as an account of what it has taken and not
yet given back: references, claims and write locks on pages.  Everything that is decided outside
of the thread is an outcome it meets: whether a claim succeeds, whether there is memory, what the
merge callback answers, which address the mini allocator hands out, and what other threads have
made of a page by the time this thread gets it.

To release what is not held, to claim a page without a reference and to upgrade to a write lock
without the claim is a misuse.
-/

namespace TreePass
namespace Btree

open Lib

/-- What a thread can hold on a page. -/
inductive Latch where
  | read
  | claim
  | write
  deriving DecidableEq, Repr

/-- The outcomes a thread meets that decide how it goes on, with the pages they are about. -/
inductive Event where
  | got (addr : Addr)
  | claimed (addr : Addr) (success : Bool)
  | specBuilt (addr : Addr) (success : Bool)
  deriving DecidableEq

/-- The outcomes in store for a thread, by the number of the call that meets them. -/
structure Outcomes (K : Type) where
  /-- Whether no other thread has the claim. -/
  tryClaim : Nat → Bool
  /-- Whether there is memory for a merge accumulator. -/
  initAccumulator : Nat → Bool
  /-- The answers of the application's callbacks. -/
  callbacks : Nat → DataConfig K
  /-- The address `mini_alloc` hands out. -/
  miniAlloc : Nat → Addr
  /-- What other threads have made of a page until it is read-locked. -/
  others : Nat → Page K → Page K

/-- A thread inside `btree_insert`: the pages of the tree, what it holds, the number of outcomes
it has met and which they were, the latest first, and the two results it writes through
pointers. -/
structure Thread (K : Type) where
  pages : Addr → Page K
  held : Multiset (Addr × Latch)
  calls : Nat
  met : List Event
  generation : Nat
  wasUnique : Bool

variable {K : Type} (cfg : Config K) (outcomes : Outcomes K)

/-- `node->hdr`. -/
def readPage (addr : Addr) : Action (Thread K) (Page K) := do
  let s ← get
  return s.pages addr

def writePage (addr : Addr) (hdr : Page K) : Action (Thread K) Unit :=
  modify fun s => { s with pages := Function.update s.pages addr hdr }

/-- Writes a page if the function that computes it succeeds; it asserts that it does. -/
def writePageAsserted (addr : Addr) : Option (Page K) → Action (Thread K) Unit
  | some hdr => writePage addr hdr
  | none => throw .asserts

def release (addr : Addr) (latch : Latch) : Action (Thread K) Unit := do
  let s ← get
  if (addr, latch) ∈ s.held then
    modify fun s => { s with held := s.held.erase (addr, latch) }
  else
    throw .misuse

/-- `btree_node_get`: waits as long as a thread has the write lock, be it this one. -/
def nodeGet (addr : Addr) : Action (Thread K) Unit := do
  let s ← get
  if (addr, Latch.write) ∈ s.held then
    throw .waits
  else
    modify fun s =>
      { s with
        held := {(addr, Latch.read)} + s.held
        -- a page this thread has locked already cannot have been changed by others
        pages := if (addr, Latch.read) ∈ s.held then s.pages
          else Function.update s.pages addr (outcomes.others s.calls (s.pages addr))
        calls := s.calls + 1
        met := .got addr :: s.met }

/-- `btree_node_claim`: fails if some thread has the claim, be it this one. -/
def nodeClaim (addr : Addr) : Action (Thread K) Bool := do
  let s ← get
  if (addr, Latch.read) ∈ s.held then
    let success := outcomes.tryClaim s.calls && decide ((addr, Latch.claim) ∉ s.held)
    modify fun s =>
      { s with
        held := if success then {(addr, Latch.claim)} + s.held else s.held
        calls := s.calls + 1
        met := .claimed addr success :: s.met }
    return success
  else
    throw .misuse

/-- `btree_node_lock`: needs the claim, and waits until nobody else reads the page. -/
def nodeLock (addr : Addr) : Action (Thread K) Unit := do
  let s ← get
  if (addr, Latch.claim) ∈ s.held then
    if (addr, Latch.write) ∈ s.held then
      throw .asserts
    else if 1 < s.held.count (addr, Latch.read) then
      throw .waits
    else
      modify fun s => { s with held := {(addr, Latch.write)} + s.held }
  else
    throw .misuse

/-- `btree_node_unlock`. -/
def nodeUnlock (addr : Addr) : Action (Thread K) Unit := release addr .write

/-- `btree_node_unclaim`. -/
def nodeUnclaim (addr : Addr) : Action (Thread K) Unit := release addr .claim

/-- `btree_node_unget`. -/
def nodeUnget (addr : Addr) : Action (Thread K) Unit := release addr .read

/-- `btree_node_full_unlock`. -/
def nodeFullUnlock (addr : Addr) : Action (Thread K) Unit := do
  nodeUnlock addr
  nodeUnclaim addr
  nodeUnget addr

/-- `btree_alloc`: the new page comes write-locked; what it contains is left from before. -/
def btreeAlloc : Action (Thread K) Addr := do
  let s ← get
  let addr := outcomes.miniAlloc s.calls
  modify fun s =>
    { s with
      held := {(addr, Latch.read)} + {(addr, Latch.claim)} + {(addr, Latch.write)} + s.held
      calls := s.calls + 1 }
  return addr

/-- `btree_create_leaf_incorporate_spec` on the page of a node. -/
def createSpec [LinearOrder K] (addr : Addr) (tupleKey : K) (msg : Message) :
    Action (Thread K) (Except PlatformStatus (LeafIncorporateSpec K)) := do
  let s ← get
  let spec := (s.pages addr).createLeafIncorporateSpec (outcomes.initAccumulator s.calls)
    (outcomes.callbacks s.calls).dataMergeTuples tupleKey msg
  modify fun s =>
    { s with calls := s.calls + 1, met := .specBuilt addr spec.isOk :: s.met }
  return spec

/-- `btree_try_perform_leaf_incorporate_spec` on the page of a node. -/
def tryPerformSpec (addr : Addr) (spec : LeafIncorporateSpec K) : Action (Thread K) Bool := do
  let s ← get
  match (s.pages addr).tryPerformLeafIncorporateSpec cfg spec with
  | some r => do
      modify fun s =>
        { s with pages := Function.update s.pages addr r.1, generation := r.2 }
      return true
  | none => return false

/-- The update of a leaf that was found to have room; the caller asserts that it succeeds. -/
def performSpec (addr : Addr) (spec : LeafIncorporateSpec K) : Action (Thread K) Unit := do
  let incorporated ← tryPerformSpec cfg addr spec
  if incorporated then return () else throw .asserts

/-- `*was_unique = spec.old_entry_state == ENTRY_DID_NOT_EXIST`. -/
def setWasUnique (spec : LeafIncorporateSpec K) : Action (Thread K) Unit :=
  modify fun s => { s with wasUnique := decide (spec.oldEntryState = .didNotExist) }

end Btree
end TreePass
