import TreePass.Data
import TreePass.Lib.Fold
import TreePass.Lib.Transition
import Mathlib.Data.Fintype.Basic

/-!
# The store: memtables, trunk root and lookups

A message enters the memtable that is active, waits there while the memtable is rotated out and
packed into a branch, and moves into the trunk when the branch is incorporated.  Lookups run at
the same time, from the newest memtable down to the trunk.  Every step here is what one thread
does under one lock.

* `Components` is what the store is built from: memtable B-trees, packed branches and trunk
  roots, each with its lookup.
* `MemtableContext` has the four memtables and the three generation counters.
* `storeNext` is one step of one thread.
-/

namespace TreePass
namespace Core

open Lib

/-- `CORE_NUM_MEMTABLES`, which is also the `max_memtables` of the memtable context. -/
def coreNumMemtables : Nat := 4

/-- The B-trees and the trunk as the store uses them.  A failed operation is `none`. -/
structure Components (K : Type) where
  /-- A memtable B-tree. -/
  Tree : Type
  /-- A branch packed by `btree_pack`. -/
  Branch : Type
  /-- A root of the trunk, with everything below it. -/
  Root : Type
  /-- What a change of the trunk is free to decide: flushes, splits, compactions to apply. -/
  Plan : Type
  btreeCreate : Tree
  btreeInsert : Tree → K → Message → Option Tree
  btreeLookup : Tree → K → Option Message
  btreePack : Tree → Option Branch
  branchLookup : Branch → K → Option Message
  /-- The root of an empty trunk. -/
  emptyRoot : Root
  trunkIncorporatePrepare : Plan → Root → Branch → Option Root
  /-- Any other change made under the modification lock of the trunk. -/
  trunkModify : Plan → Root → Option Root
  trunkMergeLookup : Root → K → Option Message → Option (Option Message)
  trunkMergeLookupAsync : Root → K → Option Message → Option (Option Message)

/-! ## Memtables -/

/-- `memtable_state`. -/
inductive MemtableState where
  | invalid
  | ready
  | finalized
  | compacted
  | compacting
  | incorporationAssigned
  | incorporating
  | incorporated
  deriving DecidableEq, Repr

/-- `memtable`. -/
structure Memtable (Tree : Type) where
  state : MemtableState
  generation : Int
  root : Tree

namespace Memtable

variable {Tree : Type}

def withState (mt : Memtable Tree) (state : MemtableState) : Memtable Tree :=
  ⟨state, mt.generation, mt.root⟩

/-- `memtable_try_transition`. -/
def tryTransition (mt : Memtable Tree) (oldState newState : MemtableState) :
    Option (Memtable Tree) :=
  if mt.state = oldState then some (mt.withState newState) else none

/-- `memtable_ok_to_lookup`. -/
def okToLookup (mt : Memtable Tree) : Bool :=
  mt.state != .incorporating && mt.state != .incorporated

/-- `memtable_ok_to_lookup_compacted`. -/
def okToLookupCompacted (mt : Memtable Tree) : Bool :=
  mt.state == .compacted || mt.state == .incorporationAssigned

end Memtable

/-- The counters and the memtables of `memtable_context`. -/
structure MemtableContext (Tree : Type) where
  /-- Generation of the active memtable. -/
  generation : Int
  generationToIncorporate : Int
  /-- The last generation whose memtable is in the trunk; -1 at first. -/
  generationRetired : Int
  mt : Nat → Memtable Tree

/-- `generation % CORE_NUM_MEMTABLES`. -/
def memtableIdx (generation : Int) : Nat := (generation % coreNumMemtables).toNat

namespace MemtableContext

variable {Tree : Type} (ctxt : MemtableContext Tree)

/-- The memtable in the slot of a generation, whatever generation it is in. -/
def slot (generation : Int) : Memtable Tree := ctxt.mt (memtableIdx generation)

/-- `core_try_get_memtable`; `core_get_memtable` is the same and asserts that there is one. -/
def getMemtable (generation : Int) : Option (Memtable Tree) :=
  if (ctxt.slot generation).generation = generation then some (ctxt.slot generation) else none

def setSlot (generation : Int) (mt : Memtable Tree) : MemtableContext Tree :=
  { ctxt with mt := Function.update ctxt.mt (memtableIdx generation) mt }

/-- `memtable_transition` of the memtable with a generation number. -/
def transition (generation : Int) (oldState newState : MemtableState) :
    Option (MemtableContext Tree) :=
  (ctxt.getMemtable generation).bind fun mt =>
    (mt.tryTransition oldState newState).map (ctxt.setSlot generation)

end MemtableContext

/-! ## Threads and the store -/

section Store

variable {K : Type} (cfg : DataConfig K) (C : Components K)

/-- Where a thread stands in a lookup or in the flush of a memtable. -/
inductive Pc where
  | idle
  /-- `core_lookup` under the lookup lock, about to read memtable `mtGen`, or, when that is
  `mtGenEnd`, to take the root handle. -/
  | scanning (async : Bool) (target : K) (mtGen mtGenEnd : Int) (result : Option Message)
  /-- Lookup lock released, about to look in the trunk under `root`. -/
  | holding (async : Bool) (target : K) (root : C.Root) (result : Option Message)
  /-- `core_lookup` has returned; `none` is a null accumulator. -/
  | returned (target : K) (result : Option Message)
  /-- `core_memtable_compact`, packing the tree. -/
  | compacting (generation : Int) (tree : C.Tree)
  /-- About to `core_try_start_incorporate`. -/
  | compacted (generation : Int)
  /-- `core_memtable_incorporate`: before the prepare, the commit and the cleanup. -/
  | assigned (generation : Int)
  | prepared (generation : Int)
  | committed (generation : Int)
  /-- About to `core_try_continue_incorporate` with this generation. -/
  | continuing (generation : Int)

variable {C}

def Pc.atRest : Pc C → Bool
  | .idle => true
  | .returned _ _ => true
  | _ => false

def Pc.holdsLookupLock : Pc C → Bool
  | .scanning _ _ _ _ _ => true
  | _ => false

variable (C)

/-- The shared state of the store and its threads. -/
structure StoreState (n : Nat) where
  ctxt : MemtableContext C.Tree
  /-- The branches of `compacted_memtable`. -/
  compacted : Nat → Option C.Branch
  root : C.Root
  /-- `post_incorporation_root`. -/
  postRoot : Option C.Root
  /-- The modification lock of the trunk is held. -/
  modifying : Bool
  thread : Fin n → Pc C

/-- A step.  All but `next` start an operation or are one. -/
inductive StoreAct where
  | insert (k : K) (msg : Message)
  | rotate
  | compact (generation : Int)
  | lookup (async : Bool) (target : K)
  | recycle (generation : Int)
  | modifyTrunk (plan : C.Plan)
  | next (plan : C.Plan)

variable {C} {n : Nat}

namespace StoreState

variable (s : StoreState C n)

def goto (t : Fin n) (pc : Pc C) : StoreState C n :=
  { s with thread := Function.update s.thread t pc }

end StoreState

def isDefinitive : Option Message → Bool
  | none => false
  | some m => m.isDefinitive

/-- "Normalize DELETE messages to return a null `merge_accumulator`". -/
def normalize : Option Message → Option Message
  | none => none
  | some m => if m.type = .delete then none else some m

/-- The merge of `btree_lookup_and_merge`: what a tree has for the key under the accumulator. -/
def mergeUnder (k : K) : Option Message → Option Message → Option (Option Message) :=
  combine fun newer older => cfg.dataMergeTuples k older newer

/-- `data_merge_tuples_final` where the accumulator is neither null nor definitive. -/
def mergeFinal (k : K) : Option Message → Option (Option Message)
  | none => some none
  | some m => if m.isDefinitive then some (some m) else (cfg.dataMergeTuplesFinal k m).map some

/-- `core_memtable_lookup`. -/
def coreMemtableLookup (s : StoreState C n) (generation : Int) (k : K) (result : Option Message) :
    Option (Option Message) :=
  (s.ctxt.getMemtable generation).bind fun mt =>
    if !mt.okToLookup then none
    else if mt.okToLookupCompacted then
      -- lookup in packed tree
      (s.compacted (memtableIdx generation)).bind fun branch =>
        mergeUnder cfg k result (C.branchLookup branch k)
    else mergeUnder cfg k result (C.btreeLookup mt.root k)

/-- One turn of the loop of `core_lookup` and of `core_lookup_async`. -/
def coreLookupTurn (s : StoreState C n) (async : Bool) (k : K) (mtGen mtGenEnd : Int)
    (result : Option Message) : Option (Pc C) :=
  if mtGen = mtGenEnd then some (.holding async k s.root result)
  else
    (coreMemtableLookup cfg s mtGen k result).map fun result =>
      if isDefinitive result then .returned k (normalize result)
      else .scanning async k (mtGen - 1) mtGenEnd result

/-- The rest of `core_lookup` and of `core_lookup_async`, without a lock. -/
def coreLookupTrunk (async : Bool) (k : K) (root : C.Root) (result : Option Message) :
    Option (Pc C) :=
  (if async then C.trunkMergeLookupAsync root k result
    else C.trunkMergeLookup root k result).bind fun result =>
      (mergeFinal cfg k result).map fun result => .returned k (normalize result)

def isUserMessage (m : Message) : Prop := m.type = .insert ∨ m.type = .update ∨ m.type = .delete

instance (m : Message) : Decidable (isUserMessage m) := by
  unfold isUserMessage
  infer_instance

/-- `core_memtable_insert` into the active memtable. -/
def coreMemtableInsert (s : StoreState C n) (k : K) (msg : Message) : Option (StoreState C n) :=
  let generation := s.ctxt.generation
  if isUserMessage msg ∧ (s.ctxt.slot generation).state = .ready then
    (s.ctxt.getMemtable generation).bind fun mt =>
      (C.btreeInsert mt.root k msg).map fun root =>
        { s with ctxt := s.ctxt.setSlot generation ⟨mt.state, mt.generation, root⟩ }
  else none

/-- The rotation inside `memtable_maybe_rotate_and_begin_insert`. -/
def memtableRotate (s : StoreState C n) : Option (StoreState C n) :=
  let currentGeneration := s.ctxt.generation
  let currentMt := s.ctxt.slot currentGeneration
  let nextMt := s.ctxt.slot (currentGeneration + 1)
  if nextMt.state = .ready then
    (currentMt.tryTransition .ready .finalized).bind fun mt =>
      if currentGeneration + 1 - s.ctxt.generationRetired ≤ coreNumMemtables then
        let ctxt := s.ctxt.setSlot currentGeneration mt
        some { s with ctxt := { ctxt with generation := currentGeneration + 1 } }
      else none
  else none

/-- The recycling inside `memtable_dec_ref_maybe_recycle`, when the last reference goes. -/
def memtableRecycle (s : StoreState C n) (generation : Int) : Option (StoreState C n) :=
  (s.ctxt.getMemtable generation).bind fun mt =>
    if mt.state = .incorporated then
      let recycled : Memtable C.Tree :=
        ⟨.ready, mt.generation + coreNumMemtables, C.btreeCreate⟩
      some { s with ctxt := s.ctxt.setSlot generation recycled }
    else none

/-- `core_try_start_incorporate`. -/
def coreTryStartIncorporate (s : StoreState C n) (generation : Int) : Option (MemtableContext C.Tree) :=
  if generation = s.ctxt.generationToIncorporate then
    s.ctxt.transition generation .compacted .incorporationAssigned
  else none

/-- `core_try_continue_incorporate`: whether to continue, and the context afterwards. -/
def coreTryContinueIncorporate (s : StoreState C n) (nextGeneration : Int) :
    Option (Bool × MemtableContext C.Tree) :=
  match s.ctxt.getMemtable nextGeneration with
  | none => some (false, s.ctxt)
  | some _ =>
      if s.ctxt.generationToIncorporate + 1 = nextGeneration then
        match s.ctxt.transition nextGeneration .compacted .incorporationAssigned with
        | some ctxt =>
            some (true, { ctxt with generationToIncorporate := ctxt.generationToIncorporate + 1 })
        | none =>
            some (false, { s.ctxt with
              generationToIncorporate := s.ctxt.generationToIncorporate + 1 })
      else none

/-- The section of `core_memtable_incorporate` under the lookup write lock. -/
def coreMemtableCommit (s : StoreState C n) (generation : Int) : Option (StoreState C n) :=
  if (∀ t, (s.thread t).holdsLookupLock = false) ∧ s.ctxt.generationRetired + 1 = generation then
    (s.ctxt.transition generation .incorporationAssigned .incorporating).bind fun ctxt =>
      (ctxt.transition generation .incorporating .incorporated).bind fun ctxt =>
        s.postRoot.map fun root =>
          { s with
            ctxt := { ctxt with generationRetired := ctxt.generationRetired + 1 }
            root := root
            postRoot := none }
  else none

def pcNext (s : StoreState C n) (t : Fin n) (plan : C.Plan) : Option (StoreState C n) :=
  match s.thread t with
  | .idle => none
  | .returned _ _ => none
  | .scanning async k mtGen mtGenEnd result =>
      (coreLookupTurn cfg s async k mtGen mtGenEnd result).map (s.goto t)
  | .holding async k root result => (coreLookupTrunk cfg async k root result).map (s.goto t)
  | .compacting generation tree =>
      (C.btreePack tree).bind fun branch =>
        (s.ctxt.transition generation .compacting .compacted).map fun ctxt =>
          { s with
            ctxt := ctxt
            compacted := Function.update s.compacted (memtableIdx generation) (some branch)
            thread := Function.update s.thread t (.compacted generation) }
  | .compacted generation =>
      match coreTryStartIncorporate s generation with
      | some ctxt => some { s.goto t (.assigned generation) with ctxt := ctxt }
      | none => some (s.goto t .idle)
  | .assigned generation =>
      if s.modifying then none
      else
        (s.compacted (memtableIdx generation)).bind fun branch =>
          (C.trunkIncorporatePrepare plan s.root branch).map fun root =>
            { s.goto t (.prepared generation) with postRoot := some root, modifying := true }
  | .prepared generation =>
      (coreMemtableCommit s generation).map fun s => s.goto t (.committed generation)
  | .committed generation =>
      some { s.goto t (.continuing (generation + 1)) with modifying := false }
  | .continuing generation =>
      (coreTryContinueIncorporate s generation).map fun r =>
        { s.goto t (if r.1 then .assigned generation else .idle) with ctxt := r.2 }

def storeNext (s : StoreState C n) (a : Fin n × StoreAct C) : Option (StoreState C n) :=
  match a.2 with
  | .next plan => pcNext cfg s a.1 plan
  | .recycle generation => memtableRecycle s generation
  | .modifyTrunk plan =>
      if s.modifying then none
      else (C.trunkModify plan s.root).map fun root => { s with root := root }
  | .insert k msg => if (s.thread a.1).atRest then coreMemtableInsert s k msg else none
  | .rotate => if (s.thread a.1).atRest then memtableRotate s else none
  | .compact generation =>
      if (s.thread a.1).atRest then
        (s.ctxt.getMemtable generation).bind fun mt =>
          (s.ctxt.transition generation .finalized .compacting).map fun ctxt =>
            { s.goto a.1 (.compacting generation mt.root) with ctxt := ctxt }
      else none
  | .lookup async target =>
      if (s.thread a.1).atRest ∧
          s.ctxt.generation - s.ctxt.generationRetired ≤ coreNumMemtables then
        (coreLookupTurn cfg s async target s.ctxt.generation s.ctxt.generationRetired none).map
          (s.goto a.1)
      else none

/-- A new store: `memtable_context_create` and an empty trunk. -/
def newStore (C : Components K) (n : Nat) : StoreState C n where
  ctxt :=
    { generation := 0
      generationToIncorporate := 0
      generationRetired := -1
      mt := fun mtNo => ⟨.ready, mtNo, C.btreeCreate⟩ }
  compacted := fun _ => none
  root := C.emptyRoot
  postRoot := none
  modifying := false
  thread := fun _ => .idle

/-- All interleavings of `n` threads. -/
def storeSystem (cfg : DataConfig K) (C : Components K) (n : Nat) :
    System (StoreState C n) (Fin n × StoreAct C) :=
  System.ofFun (fun s => s = newStore C n) (storeNext cfg)

end Store

end Core
end TreePass
