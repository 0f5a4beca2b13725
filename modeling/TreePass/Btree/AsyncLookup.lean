import TreePass.Btree.TrackedLookup

/-!
# The asynchronous lookup

`btree_lookup`, `btree_lookup_and_merge` and their asynchronous versions.  An asynchronous function
is called again and again until it is done; it keeps its variables in a state structure, together
with the label of the place where it goes on.  A call ends early (`async_yield`) when a page is not
there yet.

* `Resume` is one call: how many pages it finds before one that is not there, and what it finds in
  its stack slot of `node_is_warm`.  This variable of `btree_lookup_node_async` is not in the state
  structure, so a call that goes on after a yield does not know what an earlier call put there.
* `runCalls` is a sequence of calls; a call after the last one that was needed does nothing.
-/

namespace TreePass
namespace Btree

variable {K : Type}

/-! ## The synchronous functions -/

/-- The lookups: the one that leaves the leaf referenced, and the two that are built on it. -/
inductive LookupKind where
  | withRef
  | lookup
  | lookupAndMerge
  deriving DecidableEq

/-- What the use of a message meets. -/
structure MergeOutcomes where
  /-- Whether there is memory for a copy in the accumulator. -/
  copySucceeds : Bool
  /-- `btree_merge_tuples` for the target: an older message under the one in the accumulator. -/
  mergeTuples : Message → Message → Option Message

def useMessage (kind : LookupKind) (merge : MergeOutcomes) (result : Option Message)
    (msg : Message) : Except PlatformStatus Unit × Option Message :=
  match kind, result with
  | .withRef, result => (.ok (), result)
  | .lookupAndMerge, some newer =>
      match merge.mergeTuples msg newer with
      | some merged => (.ok (), some merged)
      | none => (.error .noMemory, some newer)
  | _, result => if merge.copySucceeds then (.ok (), some msg) else (.error .noMemory, result)

/-- What a lookup returns: the status, the message in the leaf, the accumulator and the leaf, if it
stays referenced. -/
structure LookupResult where
  rc : Except PlatformStatus Unit
  msg : Option Message
  result : Option Message
  ref : Option Addr

variable (cfg : Config K) [LinearOrder K] (outcomes : LookupOutcomes) (type : PageType)
  (kind : LookupKind) (merge : MergeOutcomes) (rootAddr : Addr) (target : Key K)

/-- `btree_lookup_with_ref`, **`btree_lookup`** and **`btree_lookup_and_merge`**. -/
def btreeLookup (result : Option Message) (s : Reader K) : Option (LookupResult × Reader K) := do
  let r ← btreeLookupWithRef cfg outcomes type rootAddr target s
  match r.1.2 with
  | none => return (⟨.ok (), none, result, none⟩, r.2)
  | some msg =>
      let used := useMessage kind merge result msg
      if kind = .withRef then
        return (⟨used.1, some msg, used.2, some r.1.1.addr⟩, r.2)
      else
        return (⟨used.1, some msg, used.2, none⟩,
          { r.2 with calls := releaseCall type r.1.1.addr r.1.1.isWarm :: r.2.calls })

/-! ## The state of the asynchronous functions -/

/-- The `async_state` of a function that calls a subroutine. -/
inductive Stage where
  | init
  | awaiting
  | done
  deriving DecidableEq

/-- The `async_state` of `btree_lookup_node_async`: before anything, at the two loops that poll for
a page, and at the end. -/
inductive Label where
  | init
  | root
  | child
  | done
  deriving DecidableEq

/-- `btree_lookup_async_state`, without what does not change and with the accumulator. -/
structure AsyncLookup where
  outer : Stage
  inner : Stage
  label : Label
  stopAtHeight : Nat
  node : Addr
  childNode : Addr
  h : Nat
  found : Bool
  isWarm : Bool
  childInCache : Bool
  msg : Option Message
  asyncResult : Except PlatformStatus Unit
  result : Option Message

/-- One call of an asynchronous lookup. -/
structure Resume where
  /-- The polls that find their page, before one that does not. -/
  pages : Nat
  /-- What is in the stack slot of `node_is_warm` when the call begins. -/
  nodeIsWarm : Bool

def AsyncLookup.start (result : Option Message) : AsyncLookup :=
  ⟨.init, .init, .init, 0, 0, 0, 0, false, false, false, none, .ok (), result⟩

/-! ## `btree_lookup_node_async` -/

def startTurn (st : AsyncLookup) (s : Reader K) : Option (AsyncLookup × Reader K) :=
  let k := (s.pages st.node).childIndex target
  match (s.pages st.node).getIndexEntry k with
  | none => none
  | some entry =>
      let tracked := trackPivot outcomes type s.pages st.node st.h k entry st.isWarm
      some ({ st with
          childNode := entry.maskedChildAddr
          childInCache := tracked.1
          isWarm := tracked.2.2 },
        { s with pages := tracked.2.1 })

def finishTurn (nodeIsWarm : Bool) (st : AsyncLookup) (s : Reader K) : AsyncLookup × Reader K :=
  ({ st with node := st.childNode, h := st.h - 1 },
    { pages := resetStaleCounts type s.pages st.childNode st.childInCache
        (decide (st.stopAtHeight < st.h - 1))
      calls := releaseCall type st.node nodeIsWarm :: .get st.childNode st.isWarm :: s.calls })

/-- The loop at its head, so many turns from its end; the call finds `pages` more pages. -/
def nodeLoop : Nat → Nat → AsyncLookup → Reader K → Option (AsyncLookup × Reader K)
  | 0, _, st, s => some ({ st with label := .done }, s)
  | n + 1, pages, st, s =>
      match startTurn outcomes type target st s with
      | none => none
      | some r =>
          match pages with
          | 0 => some ({ r.1 with label := .child }, r.2)
          | pages + 1 =>
              -- `node_is_warm` is the warmth before the turn as long as the call goes on
              let next := finishTurn type st.isWarm r.1 r.2
              nodeLoop n pages next.1 next.2

def pollRoot (pages : Nat) (st : AsyncLookup) (s : Reader K) : Option (AsyncLookup × Reader K) :=
  match pages with
  | 0 => some ({ st with label := .root }, s)
  | pages + 1 =>
      let h := (s.pages st.node).height
      nodeLoop outcomes type target (h - st.stopAtHeight) pages { st with h := h }
        { s with calls := .get st.node st.isWarm :: s.calls }

/-- One call of `btree_lookup_node_async`. -/
def btreeLookupNodeAsync (resume : Resume) (st : AsyncLookup) (s : Reader K) :
    Option (AsyncLookup × Reader K) :=
  match st.label with
  | .init => pollRoot outcomes type target resume.pages { st with isWarm := true, node := rootAddr } s
  | .root => pollRoot outcomes type target resume.pages st s
  | .child =>
      match resume.pages with
      | 0 => some (st, s)
      | pages + 1 =>
          let next := finishTurn type resume.nodeIsWarm st s
          nodeLoop outcomes type target (next.1.h - next.1.stopAtHeight) pages next.1 next.2
  | .done => some (st, s)

/-! ## The functions above it -/

/-- The end of `btree_lookup_with_ref_async`. -/
def finishWithRef (st : AsyncLookup) (s : Reader K) : Option (AsyncLookup × Reader K) :=
  let place := (s.pages st.node).findTuple target
  if place.2 then
    ((s.pages st.node).getLeafEntry place.1.toNat).map fun entry =>
      ({ st with found := true, msg := some entry.msg, inner := .done }, s)
  else
    some ({ st with found := false, inner := .done },
      { s with calls := releaseCall type st.node st.isWarm :: s.calls })

/-- One call of `btree_lookup_with_ref_async`. -/
def btreeLookupWithRefAsync (resume : Resume) (st : AsyncLookup) (s : Reader K) :
    Option (AsyncLookup × Reader K) :=
  if st.inner = .done then
    some (st, s)
  else
    let st := if st.inner = .init then
      { st with stopAtHeight := 0, label := .init, inner := .awaiting } else st
    (btreeLookupNodeAsync outcomes type rootAddr target resume st s).bind fun r =>
      if r.1.label = .done then finishWithRef type target r.1 r.2 else some r

/-- The end of `btree_lookup_async` and of `btree_lookup_and_merge_async`. -/
def finishLookup (st : AsyncLookup) (s : Reader K) : AsyncLookup × Reader K :=
  match st.found, st.msg with
  | true, some msg =>
      let used := useMessage kind merge st.result msg
      ({ st with asyncResult := used.1, result := used.2, outer := .done },
        if kind = .withRef then s
        else { s with calls := releaseCall type st.node st.isWarm :: s.calls })
  | _, _ => ({ st with asyncResult := .ok (), outer := .done }, s)

/-- One call of **`btree_lookup_async`** or **`btree_lookup_and_merge_async`**. -/
def btreeLookupAsync (resume : Resume) (st : AsyncLookup) (s : Reader K) :
    Option (AsyncLookup × Reader K) :=
  if st.outer = .done then
    some (st, s)
  else
    let st := if st.outer = .init then { st with inner := .init, outer := .awaiting } else st
    (btreeLookupWithRefAsync outcomes type rootAddr target resume st s).map fun r =>
      if r.1.inner = .done then finishLookup type kind merge r.1 r.2 else r

def runCalls : List Resume → AsyncLookup → Reader K → Option (AsyncLookup × Reader K)
  | [], st, s => some (st, s)
  | resume :: schedule, st, s =>
      (btreeLookupAsync outcomes type kind merge rootAddr target resume st s).bind fun r =>
        runCalls schedule r.1 r.2

def AsyncLookup.outcome (st : AsyncLookup) : LookupResult where
  rc := st.asyncResult
  msg := if st.found then st.msg else none
  result := st.result
  ref := if st.found ∧ kind = .withRef then some st.node else none

end Btree
end TreePass
