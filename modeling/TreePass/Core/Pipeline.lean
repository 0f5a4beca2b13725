import TreePass.Core.Segments
import TreePass.Lib.Transition

/-!
# The incorporation pipeline

Every rotated memtable has a flush task.  The task packs the memtable and then either takes the
incorporation on, and goes from generation to generation as long as the next one is packed, or
leaves its generation to the task that is incorporating already.  Iterators hold references to
memtables meanwhile, and the last reference to an incorporated memtable recycles its slot.

Unlike in the store, a failing assertion is visible here: a function of the source whose assertion
fails is `none`, and the step that calls it ends in a failed state.

* `FlushPc` is where a flush task stands, one critical section at a time.
* `flushStep`, `recycleStep`, `memtableRotate`, `acquireMemtable` and `releaseMemtable` are the steps.
* `pipeline` is the system of all interleavings.
-/

namespace TreePass
namespace Core
namespace Pipeline

open Lib

/-! ## Memtable states -/

/-- The state `memtable_try_transition` expects after each state. -/
def nextState : MemtableState → Option MemtableState
  | .invalid => none
  | .ready => some .finalized
  | .finalized => some .compacting
  | .compacting => some .compacted
  | .compacted => some .incorporationAssigned
  | .incorporationAssigned => some .incorporating
  | .incorporating => some .incorporated
  | .incorporated => some .ready

/-- `memtable_try_transition`.  Only a compacted memtable may be found in another state, and then
not in one that an incorporation has set. -/
def memtableTryTransition (mt : Memtable Unit) (oldState newState : MemtableState) :
    Option (Bool × Memtable Unit) :=
  if nextState oldState ≠ some newState then none
  else if mt.state = oldState then some (true, mt.withState newState)
  else if oldState = .compacted ∧ mt.state ≠ .incorporationAssigned ∧
      mt.state ≠ .incorporating then
    some (false, mt)
  else none

/-- `memtable_transition` of the memtable in the slot of a generation. -/
def memtableTransition (ctxt : MemtableContext Unit) (generation : Int)
    (oldState newState : MemtableState) : Option (MemtableContext Unit) :=
  match memtableTryTransition (ctxt.slot generation) oldState newState with
  | some (true, mt) => some (ctxt.setSlot generation mt)
  | some (false, _) => none
  | none => none

/-- The assertions of `core_get_compacted_memtable`. -/
def hasCompactedMemtable (ctxt : MemtableContext Unit) (generation : Int) : Bool :=
  match ctxt.getMemtable generation with
  | none => false
  | some mt => mt.state != .ready

/-- `memtable_increment_to_generation_to_incorporate`. -/
def incrementToGenerationToIncorporate (ctxt : MemtableContext Unit) (generation : Int) :
    Option (MemtableContext Unit) :=
  if ctxt.generationToIncorporate + 1 = generation then
    some { ctxt with generationToIncorporate := ctxt.generationToIncorporate + 1 }
  else none

/-- `memtable_increment_to_generation_retired`. -/
def incrementToGenerationRetired (ctxt : MemtableContext Unit) (generation : Int) :
    Option (MemtableContext Unit) :=
  if ctxt.generationRetired + 1 = generation then
    some { ctxt with generationRetired := ctxt.generationRetired + 1 }
  else none

/-- The compare-and-swap of both `core_try_start_incorporate` and
`core_try_continue_incorporate`. -/
def tryAssign (ctxt : MemtableContext Unit) (generation : Int) :
    Option (Bool × MemtableContext Unit) :=
  (memtableTryTransition (ctxt.slot generation) .compacted .incorporationAssigned).map fun r =>
    (r.1, ctxt.setSlot generation r.2)

/-- `core_try_start_incorporate`. -/
def coreTryStartIncorporate (ctxt : MemtableContext Unit) (generation : Int) :
    Option (Bool × MemtableContext Unit) :=
  match ctxt.getMemtable generation with
  | none => some (false, ctxt)
  | some _ =>
      if generation ≠ ctxt.generationToIncorporate then some (false, ctxt)
      else tryAssign ctxt generation

/-- `core_try_continue_incorporate`. -/
def coreTryContinueIncorporate (ctxt : MemtableContext Unit) (nextGeneration : Int) :
    Option (Bool × MemtableContext Unit) :=
  match ctxt.getMemtable nextGeneration with
  | none => some (false, ctxt)
  | some _ =>
      (tryAssign ctxt nextGeneration).bind fun r =>
        (incrementToGenerationToIncorporate r.2 nextGeneration).map fun ctxt => (r.1, ctxt)

/-- The section of `core_memtable_incorporate` under the lookup write lock. -/
def coreMemtableCommit (ctxt : MemtableContext Unit) (generation : Int) :
    Option (MemtableContext Unit) :=
  (ctxt.getMemtable generation).bind fun _ =>
    if generation = ctxt.generationToIncorporate then
      (memtableTransition ctxt generation .incorporationAssigned .incorporating).bind fun ctxt =>
        (memtableTransition ctxt generation .incorporating .incorporated).bind fun ctxt =>
          incrementToGenerationRetired ctxt generation
    else none

/-! ## Tasks and references -/

/-- Where the flush task of a generation stands. -/
inductive FlushPc where
  /-- The generation is not finalized yet. -/
  | absent
  /-- Rotated out, `core_memtable_flush` comes next. -/
  | finalized
  | queued
  /-- `core_memtable_compact`, packing the tree. -/
  | compacting
  /-- About to `core_try_start_incorporate`. -/
  | compacted
  /-- `core_memtable_incorporate` before the prepare, the commit and the last reference. -/
  | assigned (generation : Int)
  | prepared (generation : Int)
  | committed (generation : Int)
  /-- Recycling the memtable, as it had the last reference. -/
  | recycling (generation : Int)
  /-- About to `core_try_continue_incorporate` with this generation. -/
  | continuing (generation : Int)
  | done
  deriving DecidableEq, Repr

def FlushPc.inside : FlushPc → Bool
  | .assigned _ => true
  | .prepared _ => true
  | .committed _ => true
  | .recycling _ => true
  | .continuing _ => true
  | _ => false

/-- How far `memtable_dec_ref_maybe_recycle` has come after the last reference went. -/
inductive RecycleStage where
  | freed
  /-- `btree_create` has made a new root. -/
  | created
  /-- The generation of the slot is the next one. -/
  | bumped
  deriving DecidableEq, Repr

/-- The memtables, their references, the flush tasks. -/
structure PipelineState where
  ctxt : MemtableContext Unit
  /-- References to the root of the memtable in each slot. -/
  refs : Nat → Nat
  /-- References of iterators to the memtable of each generation. -/
  held : Int → Nat
  /-- The flush task of each generation. -/
  task : Int → FlushPc
  /-- What recycling the memtable of a generation has still to do. -/
  recycling : Int → Option RecycleStage
  /-- An assertion has failed. -/
  failed : Bool

variable (s : PipelineState)

def PipelineState.goto (t : Int) (pc : FlushPc) : PipelineState :=
  { s with task := Function.update s.task t pc }

def PipelineState.setRefs (generation : Int) (count : Nat) : PipelineState :=
  { s with refs := Function.update s.refs (memtableIdx generation) count }

def PipelineState.setHeld (generation : Int) (count : Nat) : PipelineState :=
  { s with held := Function.update s.held generation count }

def PipelineState.setRecycling (generation : Int) (stage : Option RecycleStage) : PipelineState :=
  { s with recycling := Function.update s.recycling generation stage }

def PipelineState.setCtxt (ctxt : MemtableContext Unit) : PipelineState := { s with ctxt := ctxt }

section Updates

variable {s} {t t' g g' : Int} {pc : FlushPc}

@[simp] theorem goto_task_self : (s.goto t pc).task t = pc := Function.update_self ..

theorem goto_task_of_ne (h : t' ≠ t) : (s.goto t pc).task t' = s.task t' :=
  Function.update_of_ne h ..

@[simp] theorem setHeld_held_self {count : Nat} : (s.setHeld g count).held g = count :=
  Function.update_self ..

theorem setHeld_held_of_ne {count : Nat} (h : g' ≠ g) : (s.setHeld g count).held g' = s.held g' :=
  Function.update_of_ne h ..

@[simp] theorem setRefs_refs_self {count : Nat} :
    (s.setRefs g count).refs (memtableIdx g) = count := Function.update_self ..

theorem setRefs_refs_of_ne {count : Nat} (h : memtableIdx g' ≠ memtableIdx g) :
    (s.setRefs g count).refs (memtableIdx g') = s.refs (memtableIdx g') :=
  Function.update_of_ne h ..

@[simp] theorem setRecycling_recycling_self {stage : Option RecycleStage} :
    (s.setRecycling g stage).recycling g = stage := Function.update_self ..

theorem setRecycling_recycling_of_ne {stage : Option RecycleStage} (h : g' ≠ g) :
    (s.setRecycling g stage).recycling g' = s.recycling g' := Function.update_of_ne h ..

end Updates

/-! ## Steps -/

/-- The rotation inside `memtable_maybe_rotate_and_begin_insert`. -/
def memtableRotate : Option PipelineState :=
  let currentGeneration := s.ctxt.generation
  (memtableTransition s.ctxt currentGeneration .ready .finalized).bind fun ctxt =>
    if currentGeneration + 1 - ctxt.generationRetired ≤ coreNumMemtables then
      some ((s.setCtxt { ctxt with generation := currentGeneration + 1 }).goto currentGeneration
        .finalized)
    else none

/-- An iterator takes a memtable: `core_memtable_root_addr_for_lookup`, then a reference to the
memtable unless a packed branch stands for it. -/
def acquireMemtable (generation : Int) : Option PipelineState :=
  (s.ctxt.getMemtable generation).bind fun mt =>
    if !mt.okToLookup then none
    else if mt.okToLookupCompacted then
      if hasCompactedMemtable s.ctxt generation then some s else none
    else
      some ((s.setRefs generation (s.refs (memtableIdx generation) + 1)).setHeld generation
        (s.held generation + 1))

/-- The `btree_dec_ref` of `memtable_dec_ref_maybe_recycle`, and whether it freed the tree. -/
def memtableDecRef (generation : Int) : Option (Bool × PipelineState) :=
  match s.refs (memtableIdx generation) with
  | 0 => none
  | 1 => some (true, (s.setRefs generation 0).setRecycling generation (some .freed))
  | count + 2 => some (false, s.setRefs generation (count + 1))

/-- An iterator gives a memtable back: `core_memtable_dec_ref`. -/
def releaseMemtable (generation : Int) : Option PipelineState :=
  (s.ctxt.getMemtable generation).bind fun _ =>
    (memtableDecRef (s.setHeld generation (s.held generation - 1)) generation).map Prod.snd

/-- `memtable_dec_ref_maybe_recycle` after the last reference went. -/
def recycleStep (generation : Int) : Option PipelineState :=
  let mt := s.ctxt.slot generation
  match s.recycling generation with
  | none => none
  | some .freed =>
      if mt.state = .incorporated then
        some ((s.setRefs generation 1).setRecycling generation (some .created))
      else none
  | some .created =>
      let bumped := s.ctxt.setSlot generation ⟨mt.state, mt.generation + coreNumMemtables, ()⟩
      some ((s.setCtxt bumped).setRecycling generation (some .bumped))
  | some .bumped =>
      (memtableTransition s.ctxt generation .incorporated .ready).map fun ctxt =>
        (s.setCtxt ctxt).setRecycling generation none

def flushStep (t : Int) : Option PipelineState :=
  match s.task t with
  | .absent => none
  | .done => none
  -- `core_memtable_flush` enqueues the task
  | .finalized => if hasCompactedMemtable s.ctxt t then some (s.goto t .queued) else none
  | .queued =>
      (s.ctxt.getMemtable t).bind fun _ =>
        (memtableTransition s.ctxt t .finalized .compacting).bind fun ctxt =>
          if hasCompactedMemtable ctxt t then some ((s.setCtxt ctxt).goto t .compacting) else none
  | .compacting =>
      (memtableTransition s.ctxt t .compacting .compacted).map fun ctxt =>
        (s.setCtxt ctxt).goto t .compacted
  | .compacted =>
      (coreTryStartIncorporate s.ctxt t).map fun r =>
        (s.setCtxt r.2).goto t (if r.1 then .assigned t else .done)
  | .assigned generation =>
      if hasCompactedMemtable s.ctxt generation then some (s.goto t (.prepared generation)) else none
  | .prepared generation =>
      (coreMemtableCommit s.ctxt generation).map fun ctxt =>
        (s.setCtxt ctxt).goto t (.committed generation)
  | .committed generation =>
      (memtableDecRef s generation).map fun r =>
        r.2.goto t (if r.1 then .recycling generation else .continuing (generation + 1))
  | .recycling generation => some (s.goto t (.continuing (generation + 1)))
  | .continuing generation =>
      (coreTryContinueIncorporate s.ctxt generation).map fun r =>
        (s.setCtxt r.2).goto t (if r.1 then .assigned generation else .done)

/-- Who takes a step. -/
inductive PipelineAct where
  | rotate
  | acquire (generation : Int)
  | release (generation : Int)
  | recycle (generation : Int)
  | flush (t : Int)
  deriving DecidableEq, Repr

/-- Whether the step can be taken now.  A rotation waits for two ready memtables, an iterator
takes the memtables a lookup reads, and a task that recycles goes on when it is through. -/
def enabled : PipelineAct → Bool
  | .rotate =>
      (s.ctxt.slot s.ctxt.generation).state == .ready &&
        (s.ctxt.slot (s.ctxt.generation + 1)).state == .ready
  | .acquire generation =>
      decide (s.ctxt.generationRetired < generation) && decide (generation ≤ s.ctxt.generation)
  | .release generation => decide (0 < s.held generation)
  | .recycle generation => (s.recycling generation).isSome
  | .flush t =>
      match s.task t with
      | .absent => false
      | .done => false
      | .recycling generation => (s.recycling generation).isNone
      | _ => true

/-- The critical section of a step; `none` where an assertion fails. -/
def perform : PipelineAct → Option PipelineState
  | .rotate => memtableRotate s
  | .acquire generation => acquireMemtable s generation
  | .release generation => releaseMemtable s generation
  | .recycle generation => recycleStep s generation
  | .flush t => flushStep s t

def pipelineNext (a : PipelineAct) : Option PipelineState :=
  if !s.failed && enabled s a then
    match perform s a with
    | some s' => some s'
    | none => some { s with failed := true }
  else none

/-- `memtable_context_create`. -/
def newPipeline : PipelineState where
  ctxt :=
    { generation := 0
      generationToIncorporate := 0
      generationRetired := -1
      mt := fun mtNo => ⟨.ready, mtNo, ()⟩ }
  refs := fun _ => 1
  held := fun _ => 0
  task := fun _ => .absent
  recycling := fun _ => none
  failed := false

/-- All interleavings of rotations, iterators, recycling and flush tasks. -/
def pipeline : System PipelineState PipelineAct :=
  System.ofFun (fun s => s = newPipeline) pipelineNext

end Pipeline
end Core
end TreePass
