import TreePass.Data
import TreePass.Lib.Cursor
import TreePass.Lib.BinarySearch
import Mathlib.Data.List.Sort

/-!
# The merge iterator

A model of `merge.c`.  The array `ordered_iterators` is kept as two lists in array order: `live`
holds the first `num_remaining` elements and `dead` the rest, so `num_remaining` is
`live.length` and `num_trees` the sum of both lengths.  Inputs are cursors over their tuples.
The accumulator `merge_buffer` is written before every use, so only the tuple it ends up in is
state.  Each loop takes fuel.
-/

namespace TreePass
namespace Merge

open Lib

/-- `MAX_MERGE_ARITY`. -/
def maxMergeArity : Nat := 1024

/-- The three values of `merge_behavior`. -/
inductive MergeBehavior where
  | raw
  | intermediate
  | full
  deriving DecidableEq, Repr

/-- An `ordered_iterator` whose current key and data are not in use. -/
structure InputIterator (K : Type) where
  itor : Cursor (Tuple K)
  seq : Nat
  nextKeyEqual : Bool

/-- An `ordered_iterator` with its current key and data. -/
structure OrderedIterator (K : Type) extends InputIterator K where
  currKey : K
  currData : Message

def OrderedIterator.currTuple {K : Type} (o : OrderedIterator K) : Tuple K :=
  ⟨o.currKey, o.currData⟩

/-- `merge_iterator`.  `pad` is the flag of `ordered_iterators[-1]`, which insertions at the very
front write to. -/
structure MergeIterator (K : Type) where
  live : List (OrderedIterator K)
  dead : List (InputIterator K)
  pad : Bool
  mergeMessages : Bool
  finalizeUpdates : Bool
  emitDeletes : Bool
  canPrev : Bool
  canNext : Bool
  curr : Option (Tuple K)
  forwards : Bool

variable {K : Type} [LinearOrder K]

/-- `bsearch_comp`: the order of the two iterators, newer first among equal keys, and whether
their keys are equal. -/
def bsearchComp (itorOne itorTwo : OrderedIterator K) (forwards : Bool) : Ordering × Bool :=
  let cmp := compare itorOne.currKey itorTwo.currKey
  let cmp := if forwards then cmp else cmp.swap
  let keysEqual := cmp == .eq
  (if keysEqual then compare itorTwo.seq itorOne.seq else cmp, keysEqual)

/-- `merge_comp`. -/
def mergeComp (forwards : Bool) (one two : OrderedIterator K) : Ordering :=
  (bsearchComp one two forwards).1

/-- One probe of `bsearch_insert`; the search never leaves the array. -/
def insertProbe (key : OrderedIterator K) (base0 : List (OrderedIterator K)) (forwards : Bool)
    (i : Nat) : Ordering × Bool :=
  match base0[i]? with
  | some p => bsearchComp key p forwards
  | none => (.lt, false)

/-- `bsearch_insert`: the offset in `base0` of the last element before `key`, and whether the
elements around the insertion point have the same key. -/
def bsearchInsert (key : OrderedIterator K) (base0 : List (OrderedIterator K)) (forwards : Bool) :
    Int × Bool × Bool :=
  let probe := insertProbe key base0 forwards
  bsearch (fun i => (probe i).1 == .gt) (fun i => (probe i).2) base0.length

/-- `set_curr_ordered_iterator`, for an iterator that has a current tuple. -/
def setCurrOrderedIterator (i : InputIterator K) (t : Tuple K) : OrderedIterator K :=
  { i with currKey := t.key, currData := t.msg }

/-- Write the `next_key_equal` flag of an element. -/
def setFlagAt (l : List (OrderedIterator K)) (index : Nat) (equal : Bool) :
    List (OrderedIterator K) :=
  l.modify index fun o => { o with nextKeyEqual := equal }

/-- The second half of `advance_and_resort_min_ritor`: put the old minimum `o` where it belongs
among the others and repair the two flags next to it.  The flag before index 0 is the pad. -/
def resortMinRitor (o : OrderedIterator K) (others : List (OrderedIterator K)) (forwards pad : Bool) :
    List (OrderedIterator K) × Bool :=
  let (offset, prevEqual, nextEqual) := bsearchInsert o others forwards
  let index := (1 + offset).toNat
  let moved := others.take index ++ o :: others.drop index
  let (moved, pad) :=
    if index = 0 then (moved, prevEqual) else (setFlagAt moved (index - 1) prevEqual, pad)
  (setFlagAt moved index nextEqual, pad)

/-- `advance_and_resort_min_ritor`. -/
def advanceAndResortMinRitor (it : MergeIterator K) : MergeIterator K :=
  match it.live with
  | [] => it
  | o :: others =>
      let input : InputIterator K :=
        { itor := o.itor.step it.forwards, seq := o.seq, nextKeyEqual := false }
      match input.itor.curr with
      | none => { it with live := others, dead := input :: it.dead }
      | some t =>
          let o := setCurrOrderedIterator input t
          if others = [] then
            { it with live := [o] }
          else
            let (live, pad) := resortMinRitor o others it.forwards it.pad
            { it with live := live, pad := pad }

/-- A callback that fails becomes `STATUS_NO_MEMORY`. -/
def callback {α : Type} : Option α → Result α
  | some a => pure a
  | none => throw .noMemory

/-- `ordered_iterators[0]->next_key_equal`. -/
def MergeIterator.headNextKeyEqual (it : MergeIterator K) : Bool :=
  match it.live with
  | [] => false
  | o :: _ => o.nextKeyEqual

/-- The loop of `merge_resolve_equal_keys` on the current key and the merge buffer. -/
def mergeResolveEqualKeys (cfg : DataConfig K) :
    Nat → MergeIterator K → Tuple K → Result (MergeIterator K × Tuple K)
  | 0, _, _ => ExceptT.mk none
  | fuel + 1, it, acc =>
      match it.live with
      | _ :: second :: _ => do
          let buffer ← callback (cfg.dataMergeTuples acc.key second.currData acc.msg)
          let acc : Tuple K := ⟨second.currKey, buffer⟩
          let it := advanceAndResortMinRitor it
          if it.headNextKeyEqual then mergeResolveEqualKeys cfg fuel it acc else pure (it, acc)
      | _ => pure (it, acc)

/-- `merge_finalize_updates_and_discard_deletes`: the tuple to emit and whether it is dropped. -/
def mergeFinalizeUpdatesAndDiscardDeletes (cfg : DataConfig K) (it : MergeIterator K) (t : Tuple K) :
    Result (Tuple K × Bool) := do
  let msg ←
    if t.msg.type ≠ .insert ∧ it.finalizeUpdates = true then
      callback (cfg.dataMergeTuplesFinal t.key t.msg)
    else
      pure t.msg
  pure (⟨t.key, msg⟩, msg.type == .delete && !it.emitDeletes)

def MergeIterator.withCurr (it : MergeIterator K) (t : Option (Tuple K)) : MergeIterator K :=
  { it with curr := t }

/-- `advance_one_loop`: the iterator, and whether the caller has to retry. -/
def advanceOneLoop (cfg : DataConfig K) (fuel : Nat) (it : MergeIterator K) :
    Result (MergeIterator K × Bool) :=
  match it.live with
  | [] =>
      -- no longer in range
      pure (if it.forwards then { it with canNext := false } else { it with canPrev := false },
        false)
  | o :: _ =>
      let it := it.withCurr (some o.currTuple)
      if !it.mergeMessages then
        pure (it, false)
      else do
        let (it, t) ←
          if o.nextKeyEqual then mergeResolveEqualKeys cfg fuel it o.currTuple
          else pure (it, o.currTuple)
        let (t, discarded) ← mergeFinalizeUpdatesAndDiscardDeletes cfg it t
        pure (it.withCurr (some t), discarded)

/-- `merge_advance_helper`. -/
def mergeAdvanceHelper (cfg : DataConfig K) : Nat → MergeIterator K → Result (MergeIterator K)
  | 0, _ => ExceptT.mk none
  | fuel + 1, it => do
      let it := advanceAndResortMinRitor (it.withCurr none)
      let (it, retry) ← advanceOneLoop cfg fuel it
      if retry then mergeAdvanceHelper cfg fuel it else pure it

/-- The first loop of `setup_ordered_iterators` on the elements from `i` on: a dead iterator is
swapped with the last one still counted as alive.  Returns the live iterators, with their
current tuples, and the dead ones. -/
def killDead : Nat → List (InputIterator K) → List (OrderedIterator K) × List (InputIterator K)
  | 0, rest => ([], rest)
  | _ + 1, [] => ([], [])
  | fuel + 1, i :: rest =>
      match i.itor.curr with
      | some t =>
          let (live, dead) := killDead fuel rest
          (setCurrOrderedIterator i t :: live, dead)
      | none =>
          let swapped := match rest.getLast? with
            | some last => last :: rest.dropLast
            | none => []
          let (live, dead) := killDead fuel swapped
          (live, dead ++ [i])

/-- The last loop of `setup_ordered_iterators`: every flag but the last live one. -/
def initNextKeyEqual : List (OrderedIterator K) → List (OrderedIterator K)
  | o :: second :: rest =>
      { o with nextKeyEqual := compare o.currKey second.currKey == .eq } ::
        initNextKeyEqual (second :: rest)
  | l => l

/-- `setup_ordered_iterators`.  Its retry calls `merge_next` or `merge_prev` in the direction the
iterator already has, which is `merge_advance_helper`. -/
def setupOrderedIterators (cfg : DataConfig K) (fuel : Nat) (it : MergeIterator K) :
    Result (MergeIterator K) := do
  let array := it.live.map (·.toInputIterator) ++ it.dead
  let (live, dead) := killDead array.length array
  let sorted := live.insertionSort fun one two => mergeComp it.forwards one two ≠ .gt
  let it := { it with
    live := initNextKeyEqual sorted
    dead := dead
    canPrev := array.any (·.itor.canPrev)
    canNext := array.any (·.itor.canNext) }
  let (it, retry) ← advanceOneLoop cfg fuel it
  if retry then mergeAdvanceHelper cfg fuel it else pure it

/-- `merge_iterator_create`. -/
def mergeIteratorCreate (cfg : DataConfig K) (fuel : Nat) (itorArr : List (Cursor (Tuple K)))
    (mergeMode : MergeBehavior) (forwards : Bool) : Result (MergeIterator K) :=
  if itorArr.length ≥ maxMergeArity then
    throw .badParam
  else
    setupOrderedIterators cfg fuel
      { live := []
        dead := itorArr.mapIdx fun seq itor => { itor := itor, seq := seq, nextKeyEqual := false }
        pad := false
        mergeMessages := mergeMode ≠ .raw
        finalizeUpdates := mergeMode = .full
        emitDeletes := mergeMode ≠ .full
        canPrev := false
        canNext := false
        curr := none
        forwards := forwards }

/-- One `iterator_next` or `iterator_prev`, where the iterator allows it. -/
def stepIfPossible (forwards : Bool) (i : InputIterator K) : InputIterator K :=
  if (if forwards then i.itor.canNext else i.itor.canPrev) then
    { i with itor := i.itor.step forwards }
  else i

/-- `merge_iterator_set_direction`: step every iterator, both alive and dead, and set up again. -/
def mergeIteratorSetDirection (cfg : DataConfig K) (fuel : Nat) (it : MergeIterator K)
    (forwards : Bool) : Result (MergeIterator K) :=
  let array := it.live.map (·.toInputIterator) ++ it.dead
  setupOrderedIterators cfg fuel
    { it with live := [], dead := array.map (stepIfPossible forwards), forwards := forwards }

/-- `merge_next`. -/
def mergeNext (cfg : DataConfig K) (fuel : Nat) (it : MergeIterator K) : Result (MergeIterator K) :=
  if !it.forwards then mergeIteratorSetDirection cfg fuel it true
  else mergeAdvanceHelper cfg fuel it

/-- `merge_prev`. -/
def mergePrev (cfg : DataConfig K) (fuel : Nat) (it : MergeIterator K) : Result (MergeIterator K) :=
  if it.forwards then mergeIteratorSetDirection cfg fuel it false
  else mergeAdvanceHelper cfg fuel it

/-- `iterator_can_curr` of the merge iterator. -/
def MergeIterator.canCurr (it : MergeIterator K) : Bool := it.canNext && it.canPrev

/-- `iterator_next` or `iterator_prev` of the merge iterator. -/
def mergeStep (cfg : DataConfig K) (forwards : Bool) (fuel : Nat) (it : MergeIterator K) :
    Result (MergeIterator K) :=
  if forwards then mergeNext cfg fuel it else mergePrev cfg fuel it

/-- Read and step in one direction until the iterator is no longer in range. -/
def drainLoop (cfg : DataConfig K) (forwards : Bool) :
    Nat → MergeIterator K → Result (List (Option (Tuple K)))
  | 0, _ => ExceptT.mk none
  | fuel + 1, it =>
      if it.canCurr then do
        let next ← mergeStep cfg forwards fuel it
        let rest ← drainLoop cfg forwards fuel next
        pure (it.curr :: rest)
      else
        pure []

def mergeDrain (cfg : DataConfig K) (fuel : Nat) (itorArr : List (Cursor (Tuple K)))
    (mergeMode : MergeBehavior) (forwards : Bool) : Result (List (Option (Tuple K))) := do
  let it ← mergeIteratorCreate cfg fuel itorArr mergeMode forwards
  drainLoop cfg forwards fuel it

end Merge
end TreePass
