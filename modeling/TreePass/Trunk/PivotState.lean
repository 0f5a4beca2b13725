import TreePass.Lib.Transition
import TreePass.Merge.Model
import Mathlib.Logic.Function.Basic

/-!
# Pivot states and their compactions

An incorporation gives a pivot new in-flight bundles and queues a bundle compaction for them on
the pivot's state.  Bundle compaction tasks merge the inputs of a compaction, in any order; a maplet
compaction task then applies the finished compactions at the front of the queue to the pivot.  When
the pivot is flushed or its leaf is split, the state is abandoned.

* `Pivot` is what a node keeps for a pivot, `PivotState` the entry of the side table, `Task` a
  background task and where it stands.
* `Act` has the steps: what an incorporation does to one pivot, what a task does under one lock,
  and mounting the trunk again.
* `compactionSystem` is the system of all interleavings.

Branches and maplets are named by their addresses; the null address is 0.
-/

namespace TreePass
namespace Trunk

open Lib

/-! ## Pivots -/

/-- A `bundle`.  `branches[0]` is the oldest branch. -/
structure Bundle where
  maplet : Nat
  branches : List Nat
  deriving DecidableEq, Repr

/-- `bundle_init`: no maplet, no branches. -/
def emptyBundle : Bundle := ⟨0, []⟩

abbrev PivotId (K : Type) := K × Nat

/-- A pivot and its pivot bundle, with the in-flight bundles of its node from
`inflight_bundle_start` on, oldest first. -/
structure Pivot (K : Type) where
  /-- The key of the next pivot. -/
  ubkey : K
  pivotBundle : Bundle
  inflight : List Bundle

/-! ## Pivot states -/

/-- `bundle_compaction_state`. -/
inductive CompactionStatus where
  | notStarted
  | inProgress
  | failed
  | succeeded
  deriving DecidableEq, Repr

/-- A `bundle_compaction`.  `num_bundles` is the number of `inputs`, and `input_branches` are
their branches. -/
structure BundleCompaction where
  /-- The pointer to the compaction. -/
  id : Nat
  inputs : List Bundle
  mergeMode : Merge.MergeBehavior
  status : CompactionStatus
  /-- `output_branch`; 0 when the merge left nothing. -/
  outputBranch : Nat
  deriving DecidableEq, Repr

/-- A `trunk_pivot_state`. -/
structure PivotState (K : Type) where
  refcount : Nat
  mapletCompactionInitiated : Bool
  abandoned : Bool
  /-- The pivot key and the height. -/
  pivot : PivotId K
  ubkey : K
  maplet : Nat
  mapletCompactionFailed : Bool
  totalBundles : Nat
  bundleCompactions : List BundleCompaction

/-! ## Tasks -/

/-- A task and where it stands.  The states and compactions are pointers. -/
inductive Task where
  | done
  /-- A `bundle_compaction_task` in the task queue. -/
  | bundle (state : Nat)
  /-- The state was not abandoned; about to pick a compaction. -/
  | picking (state : Nat)
  | compacting (state bc : Nat)
  /-- The compaction has ended; about to look at the head of the queue. -/
  | ended (state bc : Nat)
  /-- A `maplet_compaction_task` in the task queue. -/
  | maplet (state : Nat)
  /-- Building the maplet: the first `count` compactions have been added to it. -/
  | building (state count newMaplet : Nat)
  /-- The loop has met a compaction that has not succeeded, or the end of the queue. -/
  | built (state count newMaplet : Nat)
  /-- Under the modification lock, the result is applied, the queue is still to be popped. -/
  | applied (state count : Nat)
  /-- About to `trunk_pivot_state_map_release_entry`. -/
  | releasing (state : Nat)
  deriving DecidableEq, Repr

def Task.state : Task → Option Nat
  | .done => none
  | .bundle σ => some σ
  | .picking σ => some σ
  | .compacting σ _ => some σ
  | .ended σ _ => some σ
  | .maplet σ => some σ
  | .building σ _ _ => some σ
  | .built σ _ _ => some σ
  | .applied σ _ => some σ
  | .releasing σ => some σ

/-- The trunk as far as compactions are concerned. -/
structure TrunkState (K : Type) where
  pivot : PivotId K → Option (Pivot K)
  /-- The hash table `pivot_states`. -/
  map : PivotId K → Option Nat
  /-- The pivot states in memory, by address. -/
  state : Nat → Option (PivotState K)
  task : List Task
  /-- The address of the next pivot state. -/
  nextState : Nat
  /-- The address of the next bundle compaction. -/
  nextCompaction : Nat
  /-- The task that holds the modification lock between two steps. -/
  modifying : Option Nat
  /-- An assertion has failed. -/
  failed : Bool

section Steps

variable {K : Type} [DecidableEq K]

namespace TrunkState

variable (s : TrunkState K)

def goto (t : Nat) (task : Task) : TrunkState K := { s with task := s.task.set t task }

def enqueue (task : Task) : TrunkState K := { s with task := s.task ++ [task] }

def setState (σ : Nat) (st : PivotState K) : TrunkState K :=
  { s with state := Function.update s.state σ (some st) }

def setPivot (p : PivotId K) (pvt : Pivot K) : TrunkState K :=
  { s with pivot := Function.update s.pivot p (some pvt) }

/-- `trunk_pivot_state_map_remove`. -/
def mapRemove (σ : Nat) (p : PivotId K) : TrunkState K :=
  if s.map p = some σ then { s with map := Function.update s.map p none } else s

end TrunkState

/-! ## References -/

/-- `trunk_pivot_state_map_release_entry`. -/
def releaseEntry (s : TrunkState K) (σ : Nat) : Option (TrunkState K) :=
  (s.state σ).bind fun st =>
    match st.refcount with
    | 0 => none
    | 1 =>
        let s := s.mapRemove σ st.pivot
        some { s with state := Function.update s.state σ none }
    | count + 2 => some (s.setState σ { st with refcount := count + 1 })

/-- `trunk_pivot_state_map_abandon_entry`. -/
def abandonEntry (s : TrunkState K) (p : PivotId K) : TrunkState K :=
  match s.map p with
  | none => s
  | some σ =>
      match s.state σ with
      | none => s
      | some st => (s.setState σ { st with abandoned := true }).mapRemove σ p

/-- `trunk_pivot_state_map_get_or_create_entry`: the state and its address. -/
def getOrCreateEntry (s : TrunkState K) (p : PivotId K) (pvt : Pivot K) :
    Option (Nat × PivotState K × TrunkState K) :=
  match s.map p with
  | some σ => (s.state σ).map fun st =>
      (σ, { st with refcount := st.refcount + 1 }, s)
  | none =>
      let st : PivotState K :=
        { refcount := 1
          mapletCompactionInitiated := false
          abandoned := false
          pivot := p
          ubkey := pvt.ubkey
          maplet := pvt.pivotBundle.maplet
          mapletCompactionFailed := false
          totalBundles := 0
          bundleCompactions := [] }
      some (s.nextState, st,
        { s with map := Function.update s.map p (some s.nextState), nextState := s.nextState + 1 })

/-- `enqueue_maplet_compaction`. -/
def enqueueMapletCompaction (s : TrunkState K) (σ : Nat) (st : PivotState K) : TrunkState K :=
  if st.mapletCompactionInitiated then s.setState σ st
  else
    (s.setState σ { st with mapletCompactionInitiated := true, refcount := st.refcount + 1 }).enqueue
      (.maplet σ)

/-! ## Incorporations -/

/-- `bundle_compaction_create` for a pivot with `numOldBundles` old in-flight bundles. -/
def bundleCompactionCreate (id : Nat) (p : PivotId K) (pvt : Pivot K) (numOldBundles : Nat)
    (st : PivotState K) : Option BundleCompaction :=
  let mergeMode : Merge.MergeBehavior :=
    if p.2 = 0 ∧ st.bundleCompactions = [] ∧ pvt.pivotBundle.branches = [] then .full
    else .intermediate
  let firstNewBundle := st.totalBundles
  let inputs := pvt.inflight.drop firstNewBundle
  if firstNewBundle = numOldBundles ∧ 0 < inputs.length then
    some
      { id := id
        inputs := inputs
        mergeMode := mergeMode
        status := .notStarted
        outputBranch := 0 }
  else none

/-- `trunk_pivot_state_append_compaction`. -/
def appendCompaction (st : PivotState K) (bc : BundleCompaction) : Option (PivotState K) :=
  if 0 < (bc.inputs.flatMap (·.branches)).length then
    some
      { st with
        bundleCompactions := st.bundleCompactions ++ [bc]
        totalBundles := st.totalBundles + bc.inputs.length }
  else none

/-- `enqueue_bundle_compaction` for one pivot that has received bundles.  The reference taken for
the task stays, the one taken by the lookup is released again. -/
def enqueueBundleCompaction (s : TrunkState K) (p : PivotId K) (pvt : Pivot K)
    (numOldBundles : Nat) : Option (TrunkState K) :=
  (getOrCreateEntry s p pvt).bind fun r =>
    (bundleCompactionCreate s.nextCompaction p pvt numOldBundles r.2.1).bind fun bc =>
      (appendCompaction r.2.1 bc).map fun st =>
        { (r.2.2.setState r.1 st).enqueue (.bundle r.1) with
          nextCompaction := s.nextCompaction + 1 }

/-- `trunk_node_receive_bundles` and the compaction of what was received. -/
def receiveBundles (s : TrunkState K) (p : PivotId K) (bundles : List Bundle) :
    Option (TrunkState K) :=
  (s.pivot p).bind fun pvt =>
    let received := { pvt with inflight := pvt.inflight ++ bundles }
    enqueueBundleCompaction (s.setPivot p received) p received pvt.inflight.length

/-- A pivot without anything in it, as a split leaves behind and a flush puts in the place of the
old one. -/
def emptyPivot (ubkey : K) : Pivot K := ⟨ubkey, emptyBundle, []⟩

/-- `flush_to_one_child`, as far as the pivot is concerned: it is replaced by an empty one. -/
def flushToOneChild (s : TrunkState K) (p : PivotId K) (ubkey : K) : Option (TrunkState K) :=
  (s.pivot p).map fun _ => (abandonEntry s p).setPivot p (emptyPivot ubkey)

/-- What a new leaf of `leaf_split` receives: the pivot bundle, unless it is empty, and the
in-flight bundles. -/
def leafSplitBundles (pvt : Pivot K) (bundles : List Bundle) : List Bundle :=
  (if pvt.pivotBundle.branches = [] then [] else [pvt.pivotBundle]) ++ pvt.inflight ++ bundles

/-- `restore_balance_leaf` when it splits a leaf that has received `bundles`: the first of the new
leaves takes the place of the old one. -/
def restoreBalanceLeaf (s : TrunkState K) (p : PivotId K) (ubkey : K) (bundles : List Bundle) :
    Option (TrunkState K) :=
  (s.pivot p).bind fun pvt =>
    let received := { emptyPivot ubkey with inflight := leafSplitBundles pvt bundles }
    enqueueBundleCompaction ((abandonEntry s p).setPivot p received) p received 0

/-! ## Bundle compaction tasks -/

/-- Write the status and the output of a compaction in the queue. -/
def setCompaction (queue : List BundleCompaction) (id : Nat) (status : CompactionStatus)
    (outputBranch : Nat) : List BundleCompaction :=
  queue.map fun bc =>
    if bc.id = id then { bc with status := status, outputBranch := outputBranch } else bc

/-- The search for a compaction that has not started, and its pick. -/
def pickCompaction (s : TrunkState K) (t σ : Nat) : Option (TrunkState K) :=
  (s.state σ).bind fun st =>
    (st.bundleCompactions.find? fun bc => bc.status = .notStarted).bind fun bc =>
      if 0 < (bc.inputs.flatMap (·.branches)).length then
        some ((s.setState σ { st with
          bundleCompactions := setCompaction st.bundleCompactions bc.id .inProgress
            bc.outputBranch }).goto t (.compacting σ bc.id))
      else none

/-- The end of the merge: the status, and the output branch of a success. -/
def endCompaction (s : TrunkState K) (t σ bc : Nat) (status : CompactionStatus)
    (outputBranch : Nat) : Option (TrunkState K) :=
  (s.state σ).map fun st =>
    (s.setState σ { st with
      bundleCompactions := setCompaction st.bundleCompactions bc status outputBranch }).goto t
        (.ended σ bc)

/-- Whether the test at the end of `bundle_compaction_task` finds its compaction `bc` succeeded and
at the head of the queue.  When a maplet compaction has destroyed `bc` in the meantime, its address
may have been `reused` for the compaction at the head. -/
def isSucceededHead (queue : List BundleCompaction) (bc : Nat) (reused : Bool) : Bool :=
  match queue with
  | [] => false
  | head :: _ =>
      (head.id == bc || reused && !(queue.map (·.id)).contains bc) && head.status == .succeeded

/-- The decision of a bundle compaction task whether to enqueue a maplet compaction. -/
def decideCompaction (s : TrunkState K) (t σ bc : Nat) (reused : Bool) : Option (TrunkState K) :=
  (s.state σ).map fun st =>
    let s := s.goto t (.releasing σ)
    if isSucceededHead st.bundleCompactions bc reused then enqueueMapletCompaction s σ st else s

/-! ## Maplet compaction tasks -/

/-- One turn of the loop of `maplet_compaction_task`: the filter of the next finished compaction
is added.  `filter` is the address `routing_filter_add` returns. -/
def addToMaplet (s : TrunkState K) (t σ count newMaplet filter : Nat) : Option (TrunkState K) :=
  (s.state σ).bind fun st =>
    (st.bundleCompactions[count]?).bind fun bc =>
      if bc.status = .succeeded then
        some (s.goto t (.building σ (count + 1) (if bc.outputBranch = 0 then newMaplet else filter)))
      else none

def loopEnds (st : PivotState K) (count : Nat) : Bool :=
  match st.bundleCompactions[count]? with
  | none => true
  | some bc => bc.status != .succeeded

/-- The branches the first `count` compactions of a queue add to the pivot bundle. -/
def outputBranches (queue : List BundleCompaction) (count : Nat) : List Nat :=
  ((queue.take count).map (·.outputBranch)).filter (· ≠ 0)

/-- The bundles the first `count` compactions of a queue replace. -/
def inputBundles (queue : List BundleCompaction) (count : Nat) : List Bundle :=
  (queue.take count).flatMap (·.inputs)

/-- `pivot_matches_compaction`. -/
def pivotMatchesCompaction (st : PivotState K) (pvt : Pivot K) (numInputBundles : Nat) : Bool :=
  decide (numInputBundles ≤ pvt.inflight.length) && st.ubkey == pvt.ubkey &&
    pvt.pivotBundle.maplet == st.maplet &&
    (pvt.inflight.head?.bind (·.branches.head?) ==
      st.bundleCompactions.head?.bind fun bc => bc.inputs.head?.bind (·.branches.head?))

/-- `trunk_apply_changes_maplet_compaction` on the matching pivot. -/
def applyToPivot (pvt : Pivot K) (newMaplet : Nat) (branches : List Nat) (numInputBundles : Nat) :
    Pivot K :=
  { pvt with
    pivotBundle := ⟨newMaplet, pvt.pivotBundle.branches ++ branches⟩
    inflight := pvt.inflight.drop numInputBundles }

/-- The pivot the results of a maplet compaction go to, if there is a match. -/
def matchingPivot (s : TrunkState K) (st : PivotState K) (count : Nat) : Option (Pivot K) :=
  (s.pivot st.pivot).filter fun pvt =>
    pivotMatchesCompaction st pvt (inputBundles st.bundleCompactions count).length

/-- The changes to the trunk under the modification lock.  Without a match the state leaves the
table. -/
def applyMaplet (s : TrunkState K) (t σ count newMaplet : Nat) : Option (TrunkState K) :=
  (s.state σ).bind fun st =>
    if count = 0 ∨ inputBundles st.bundleCompactions count = [] then none
    else
      match matchingPivot s st count with
      | none =>
          some (((s.mapRemove σ st.pivot).setState σ { st with mapletCompactionFailed := true }).goto
            t (.releasing σ))
      | some pvt =>
          let pvt := applyToPivot pvt newMaplet (outputBranches st.bundleCompactions count)
            (inputBundles st.bundleCompactions count).length
          some { ((s.setPivot st.pivot pvt).setState σ { st with maplet := newMaplet }).goto t
            (.applied σ count) with modifying := some t }

/-- The section under `compactions_lock` after the result is applied: the compactions leave the
queue, and the next finished one starts another maplet compaction. -/
def popCompactions (s : TrunkState K) (t σ count : Nat) : Option (TrunkState K) :=
  (s.state σ).bind fun st =>
    if count = 0 ∨ st.bundleCompactions.length < count then none
    else
      let st : PivotState K :=
        { st with
          bundleCompactions := st.bundleCompactions.drop count
          totalBundles := st.totalBundles - (inputBundles st.bundleCompactions count).length
          mapletCompactionInitiated := false }
      let s := { s.goto t (.releasing σ) with modifying := none }
      match st.bundleCompactions with
      | [] => some (s.setState σ st)
      | head :: _ =>
          if head.status = .succeeded then some (enqueueMapletCompaction s σ st)
          else some (s.setState σ st)

/-- A maplet compaction fails: in `routing_filter_add` or in `trunk_apply_changes`. -/
def failMaplet (s : TrunkState K) (t σ : Nat) : Option (TrunkState K) :=
  (s.state σ).map fun st =>
    (s.setState σ { st with mapletCompactionFailed := true }).goto t (.releasing σ)

/-! ## Addresses in use -/

def Bundle.addrs (b : Bundle) : List Nat := b.maplet :: b.branches

def Task.newMaplet : Task → Option Nat
  | .building _ _ newMaplet => some newMaplet
  | .built _ _ newMaplet => some newMaplet
  | _ => none

def PivotState.addrs (st : PivotState K) : List Nat :=
  st.maplet :: st.bundleCompactions.flatMap fun bc =>
    bc.outputBranch :: bc.inputs.flatMap Bundle.addrs

/-- The addresses in use at a pivot and by the states and tasks of the pivot. -/
def usedAt (s : TrunkState K) (p : PivotId K) : List Nat :=
  (match s.pivot p with
    | none => []
    | some pvt => (pvt.pivotBundle :: pvt.inflight).flatMap Bundle.addrs) ++
  ((List.range s.nextState).flatMap fun σ =>
    match s.state σ with
    | none => []
    | some st => if st.pivot = p then st.addrs else []) ++
  s.task.filterMap Task.newMaplet

/-- An address the allocator may give out for something that is to be at a pivot. -/
def isFresh (s : TrunkState K) (p : PivotId K) (addr : Nat) : Bool :=
  addr != 0 && !(usedAt s p).contains addr

/-- Bundles a flush or an incorporation brings to a pivot: no bundle is empty and every branch
comes once. -/
def areFresh (s : TrunkState K) (p : PivotId K) (bundles : List Bundle) : Bool :=
  bundles != [] && bundles.all (fun b => b.branches != []) &&
    (bundles.flatMap (·.branches)).all (isFresh s p) &&
    decide (bundles.flatMap (·.branches)).Nodup

/-! ## The system -/

/-- The steps.  A task in the task queue starts with `next`. -/
inductive Act (K : Type) where
  /-- A pivot with a key no pivot of that height has had. -/
  | create (p : PivotId K) (ubkey : K)
  | receive (p : PivotId K) (bundles : List Bundle)
  | flush (p : PivotId K) (ubkey : K)
  | split (p : PivotId K) (ubkey : K) (bundles : List Bundle)
  | next (t : Nat)
  | compacted (t outputBranch : Nat)
  | compactionFails (t : Nat)
  | decide (t : Nat) (reused : Bool)
  | add (t filter : Nat)
  | apply (t : Nat)
  | mapletFails (t : Nat)
  | remount

/-- The part of a task that has no choice: starting, picking, popping and releasing. -/
def nextOf (s : TrunkState K) (t : Nat) : Task → Option (TrunkState K)
  | .bundle σ => (s.state σ).map fun st =>
      s.goto t (if st.abandoned then .releasing σ else .picking σ)
  | .picking σ => pickCompaction s t σ
  | .maplet σ => (s.state σ).map fun st =>
      if st.abandoned then
        (s.setState σ { st with mapletCompactionFailed := true }).goto t (.releasing σ)
      else s.goto t (.building σ 0 st.maplet)
  | .building σ count newMaplet => some (s.goto t (.built σ count newMaplet))
  | .applied σ count => popCompactions s t σ count
  | .releasing σ => releaseEntry (s.goto t .done) σ
  | _ => none

def stateOf (s : TrunkState K) (t : Nat) : Option (PivotState K) :=
  ((s.task[t]?).bind Task.state).bind s.state

/-- Whether a task can go on with `nextOf`. -/
def canGoOn (s : TrunkState K) (t : Nat) : Bool :=
  match s.task[t]? with
  | some (.bundle _) => true
  | some (.picking _) => true
  | some (.maplet _) => true
  | some (.building _ count _) => (stateOf s t).all fun st => loopEnds st count
  | some (.applied _ _) => true
  | some (.releasing _) => true
  | _ => false

/-- Whether a step can be taken.  Incorporations and applications take the modification lock;
mounting waits until no task is left.  New branches and maplets are given addresses that are not
in use. -/
def enabled (s : TrunkState K) : Act K → Bool
  | .create p _ => s.modifying.isNone && (s.pivot p).isNone && (s.map p).isNone
  | .receive p bundles => s.modifying.isNone && (s.pivot p).isSome && areFresh s p bundles
  | .flush p _ => s.modifying.isNone && (s.pivot p).isSome && decide (0 < p.2)
  | .split p _ bundles => s.modifying.isNone && (s.pivot p).isSome && areFresh s p bundles &&
      decide (p.2 = 0)
  | .next t => canGoOn s t
  | .compacted t outputBranch =>
      match s.task[t]? with
      | some (.compacting _ _) => outputBranch == 0 ||
          (stateOf s t).all fun st => isFresh s st.pivot outputBranch
      | _ => false
  | .compactionFails t =>
      match s.task[t]? with
      | some (.compacting _ _) => true
      | _ => false
  | .decide t _ =>
      match s.task[t]? with
      | some (.ended _ _) => true
      | _ => false
  | .add t filter =>
      match s.task[t]? with
      | some (.building _ count _) =>
          (stateOf s t).all fun st => !loopEnds st count && isFresh s st.pivot filter
      | _ => false
  | .apply t =>
      match s.task[t]? with
      | some (.built _ _ _) => s.modifying.isNone
      | _ => false
  | .mapletFails t =>
      match s.task[t]? with
      | some (.building _ _ _) => true
      | some (.built _ _ _) => s.modifying.isNone
      | _ => false
  | .remount => s.modifying.isNone && s.task.all (· == .done)

/-- The effect of a step; `none` where an assertion fails. -/
def perform (s : TrunkState K) : Act K → Option (TrunkState K)
  | .create p ubkey => some (s.setPivot p (emptyPivot ubkey))
  | .receive p bundles => receiveBundles s p bundles
  | .flush p ubkey => flushToOneChild s p ubkey
  | .split p ubkey bundles => restoreBalanceLeaf s p ubkey bundles
  | .next t => (s.task[t]?).bind (nextOf s t)
  | .compacted t outputBranch =>
      match s.task[t]? with
      | some (.compacting σ bc) => endCompaction s t σ bc .succeeded outputBranch
      | _ => none
  | .compactionFails t =>
      match s.task[t]? with
      | some (.compacting σ bc) => endCompaction s t σ bc .failed 0
      | _ => none
  | .decide t reused =>
      match s.task[t]? with
      | some (.ended σ bc) => decideCompaction s t σ bc reused
      | _ => none
  | .add t filter =>
      match s.task[t]? with
      | some (.building σ count newMaplet) => addToMaplet s t σ count newMaplet filter
      | _ => none
  | .apply t =>
      match s.task[t]? with
      | some (.built σ count newMaplet) => applyMaplet s t σ count newMaplet
      | _ => none
  | .mapletFails t =>
      match s.task[t]? with
      | some (.building σ _ _) => failMaplet s t σ
      | some (.built σ _ _) => failMaplet s t σ
      | _ => none
  | .remount => some { s with map := fun _ => none, state := fun _ => none }

def trunkNext (s : TrunkState K) (a : Act K) : Option (TrunkState K) :=
  if !s.failed && enabled s a then
    match perform s a with
    | some s' => some s'
    | none => some { s with failed := true }
  else none

end Steps

def newTrunk {K : Type} [DecidableEq K] (low high : K) : TrunkState K where
  pivot := fun p => if p = (low, 0) then some (emptyPivot high) else none
  map := fun _ => none
  state := fun _ => none
  task := []
  nextState := 0
  nextCompaction := 0
  modifying := none
  failed := false

/-- All interleavings of incorporations and tasks, from a new trunk on. -/
def compactionSystem {K : Type} [DecidableEq K] (low high : K) : System (TrunkState K) (Act K) :=
  System.ofFun (fun s => s = newTrunk low high) trunkNext

end Trunk
end TreePass
