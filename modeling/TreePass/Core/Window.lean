import TreePass.Core.PipelineSteps

/-!
# The window of memtable generations

The pipeline with what decides when a memtable is rotated out: inserts fill the B-tree of the active
memtable, a rotation waits for a full one, and a shutdown rotates whatever is left.

* `MemtableTree` is what the window sees of a B-tree: its keys and the extents it has taken.
* `releaseFlush` is a critical section of a flush task without the assertions that only a debug
  build has.
* `memtables` is the system of all interleavings of inserts, rotations, lookups, iterators, recycling,
  flush tasks and shutdowns.
-/

namespace TreePass
namespace Core
namespace Window

open Lib Pipeline

/-! ## The flush task of a release build -/

/-- The compare-and-swap of `core_try_start_incorporate` and `core_try_continue_incorporate`.  When
it fails, `memtable_try_transition` looks at the state it found only in a debug build. -/
def releaseTryAssign (ctxt : MemtableContext Unit) (generation : Int) :
    Bool × MemtableContext Unit :=
  if (ctxt.slot generation).state = .compacted then
    (true, ctxt.setSlot generation ((ctxt.slot generation).withState .incorporationAssigned))
  else (false, ctxt)

/-- `core_try_start_incorporate`. -/
def releaseTryStart (ctxt : MemtableContext Unit) (generation : Int) :
    Bool × MemtableContext Unit :=
  match ctxt.getMemtable generation with
  | none => (false, ctxt)
  | some _ =>
      if generation ≠ ctxt.generationToIncorporate then (false, ctxt)
      else releaseTryAssign ctxt generation

/-- `core_try_continue_incorporate`. -/
def releaseTryContinue (ctxt : MemtableContext Unit) (nextGeneration : Int) :
    Option (Bool × MemtableContext Unit) :=
  match ctxt.getMemtable nextGeneration with
  | none => some (false, ctxt)
  | some _ =>
      let r := releaseTryAssign ctxt nextGeneration
      (incrementToGenerationToIncorporate r.2 nextGeneration).map fun ctxt => (r.1, ctxt)

/-- The section of `core_memtable_incorporate` under the lookup write lock. -/
def releaseCommit (ctxt : MemtableContext Unit) (generation : Int) :
    Option (MemtableContext Unit) :=
  (ctxt.getMemtable generation).bind fun _ =>
    (memtableTransition ctxt generation .incorporationAssigned .incorporating).bind fun ctxt =>
      (memtableTransition ctxt generation .incorporating .incorporated).bind fun ctxt =>
        incrementToGenerationRetired ctxt generation

def releaseFlush (s : PipelineState) (t : Int) : Option PipelineState :=
  match s.task t with
  | .compacted =>
      let r := releaseTryStart s.ctxt t
      some ((s.setCtxt r.2).goto t (if r.1 then .assigned t else .done))
  | .prepared generation =>
      (releaseCommit s.ctxt generation).map fun ctxt =>
        (s.setCtxt ctxt).goto t (.committed generation)
  | .continuing generation =>
      (releaseTryContinue s.ctxt generation).map fun r =>
        (s.setCtxt r.2).goto t (if r.1 then .assigned generation else .done)
  | _ => flushStep s t

/-! ## Memtables with their trees -/

/-- The B-tree of a memtable and `num_extents` of its mini allocator. -/
structure MemtableTree (K : Type) where
  keys : List K
  numExtents : Nat
  deriving DecidableEq, Repr

/-- `BTREE_MAX_HEIGHT`, which is the number of batches of the mini allocator of a tree. -/
def btreeMaxHeight : Nat := 8

/-- The extents `mini_init` takes: one for the meta page and the first of each batch. -/
def initialExtents : Nat := 1 + btreeMaxHeight

variable {K : Type} [DecidableEq K]

/-- `btree_create`. -/
def btreeCreate : MemtableTree K := ⟨[], initialExtents⟩

/-- `btree_insert` that succeeds and takes some new extents: `was_unique`, and the tree after it. -/
def btreeInsert (tree : MemtableTree K) (k : K) (newExtents : Nat) : Bool × MemtableTree K :=
  if k ∈ tree.keys then (false, ⟨tree.keys, tree.numExtents + newExtents⟩)
  else (true, ⟨k :: tree.keys, tree.numExtents + newExtents⟩)

/-- `btree_insert` that fails.  It may have split nodes on the way, but not in an empty tree, which
is a single leaf. -/
def btreeInsertFails (tree : MemtableTree K) (newExtents : Nat) : MemtableTree K :=
  match tree.keys with
  | [] => tree
  | _ :: _ => ⟨tree.keys, tree.numExtents + newExtents⟩

/-- The memtables with their trees. -/
structure WindowState (K : Type) where
  pipe : PipelineState
  isEmpty : Bool
  /-- The tree in each slot. -/
  tree : Nat → MemtableTree K

namespace WindowState

variable (s : WindowState K)

def treeOf (generation : Int) : MemtableTree K := s.tree (memtableIdx generation)

def setTree (generation : Int) (tree : MemtableTree K) : WindowState K :=
  { s with tree := Function.update s.tree (memtableIdx generation) tree }

/-- `memtable_generation`. -/
def generation : Int := s.pipe.ctxt.generation

/-- `memtable_generation_retired`. -/
def generationRetired : Int := s.pipe.ctxt.generationRetired

end WindowState

variable (maxExtents : Nat) (s : WindowState K)

/-- `memtable_is_full`. -/
def memtableIsFull (tree : MemtableTree K) : Bool := decide (maxExtents ≤ tree.numExtents)

/-- `core_memtable_root_addr_for_lookup` passes its assertions. -/
def canLookup (ctxt : MemtableContext Unit) (generation : Int) : Bool :=
  match ctxt.getMemtable generation with
  | none => false
  | some mt =>
      mt.okToLookup && (!mt.okToLookupCompacted || hasCompactedMemtable ctxt generation)

/-- The memtable loops of `core_lookup` and `core_range_iterator_init` pass their assertions: the
window is not larger than the number of memtables, and every memtable in it can be looked up. -/
def lookupPasses (ctxt : MemtableContext Unit) : Bool :=
  decide (0 ≤ ctxt.generation - ctxt.generationRetired) &&
    decide (ctxt.generation - ctxt.generationRetired ≤ coreNumMemtables) &&
    (List.range (ctxt.generation - ctxt.generationRetired).toNat).all fun i =>
      canLookup ctxt (ctxt.generation - i)

/-- `memtable_force_finalize`: the rotation of `memtable_maybe_rotate_and_begin_insert`, which has
looked whether the next memtable is ready; this one has not. -/
def memtableForceFinalize (pipe : PipelineState) : Option PipelineState :=
  Pipeline.memtableRotate pipe

/-- Who takes a step. -/
inductive WindowAct (K : Type) where
  | insert (k : K) (newExtents : Nat)
  | insertFails (newExtents : Nat)
  | lookup
  | shutdown
  | pipe (a : PipelineAct)
  deriving DecidableEq, Repr

/-- Whether the step can be taken now.  `memtable_maybe_rotate_and_begin_insert` inserts into a
ready memtable that is not full, and rotates a full one. -/
def windowEnabled : WindowAct K → Bool
  | .insert _ _ | .insertFails _ =>
      (s.pipe.ctxt.slot s.generation).state == .ready && !memtableIsFull maxExtents (s.treeOf s.generation)
  | .lookup => true
  | .shutdown => true
  | .pipe .rotate => enabled s.pipe .rotate && memtableIsFull maxExtents (s.treeOf s.generation)
  | .pipe a => enabled s.pipe a

/-- The critical section of a step; `none` where an assertion fails. -/
def windowPerform : WindowAct K → Option (WindowState K)
  | .insert k newExtents =>
      (s.pipe.ctxt.getMemtable s.generation).map fun _ =>
        let r := btreeInsert (s.treeOf s.generation) k newExtents
        { s.setTree s.generation r.2 with isEmpty := s.isEmpty && !r.1 }
  | .insertFails newExtents =>
      (s.pipe.ctxt.getMemtable s.generation).map fun _ =>
        s.setTree s.generation (btreeInsertFails (s.treeOf s.generation) newExtents)
  | .lookup => if lookupPasses s.pipe.ctxt then some s else none
  | .shutdown =>
      if s.isEmpty then some s
      else (memtableForceFinalize s.pipe).map fun pipe => ⟨pipe, true, s.tree⟩
  | .pipe .rotate => (Pipeline.memtableRotate s.pipe).map fun pipe => ⟨pipe, true, s.tree⟩
  | .pipe (.recycle g) =>
      (recycleStep s.pipe g).map fun pipe =>
        ⟨pipe, s.isEmpty,
          -- `btree_create` comes after the old tree is gone
          if s.pipe.recycling g = some .freed then Function.update s.tree (memtableIdx g) btreeCreate
          else s.tree⟩
  | .pipe (.flush t) =>
      -- `core_memtable_compact` asserts that it has packed a tuple
      if s.pipe.task t = .compacting ∧ (s.treeOf t).keys = [] then none
      else (releaseFlush s.pipe t).map fun pipe => ⟨pipe, s.isEmpty, s.tree⟩
  | .pipe a => (perform s.pipe a).map fun pipe => ⟨pipe, s.isEmpty, s.tree⟩

def windowNext (a : WindowAct K) : Option (WindowState K) :=
  if !s.pipe.failed && windowEnabled maxExtents s a then
    match windowPerform s a with
    | some s' => some s'
    | none => some { s with pipe := { s.pipe with failed := true } }
  else none

/-- `memtable_context_create`. -/
def newWindow : WindowState K := ⟨newPipeline, true, fun _ => btreeCreate⟩

def memtables : System (WindowState K) (WindowAct K) :=
  System.ofFun (fun s => s = newWindow) (windowNext maxExtents)

end Window
end Core
end TreePass
