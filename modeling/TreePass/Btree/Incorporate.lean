import TreePass.Btree.Page

/-!
# Incorporating a tuple into a leaf

The specification of an update of a leaf (`leaf_incorporate_spec`), which is built from the leaf
before the locks are taken, and the functions that perform it: in place, after the leaf has been
defragmented, or in one of the two halves of a split.
-/

namespace TreePass
namespace Btree

/-- The tag of the old entry in `leaf_incorporate_spec`; the numbers are those of the C type. -/
inductive OldEntryState where
  | didNotExist
  | stillExists
  | hasBeenRemoved
  deriving DecidableEq, Repr

def OldEntryState.toNat : OldEntryState → Nat
  | didNotExist => 0
  | stillExists => 1
  | hasBeenRemoved => 2

/-- `leaf_incorporate_spec`; the message is `spec_message`. -/
structure LeafIncorporateSpec (K : Type) where
  tupleKey : K
  idx : Nat
  oldEntryState : OldEntryState
  msg : Message

/-- `leaf_splitting_plan`. -/
structure LeafSplittingPlan where
  splitIdx : Nat
  insertionGoesLeft : Bool

variable {K : Type} (cfg : Config K)

namespace Page

variable (hdr : Page K)

/-- `btree_create_leaf_incorporate_spec`: `initialized` tells whether the memory for the merge
accumulator was there, and `merge` is the merge of an old message under a new one. -/
def createLeafIncorporateSpec [LinearOrder K] (initialized : Bool)
    (merge : K → Message → Message → Option Message) (tupleKey : K) (msg : Message) :
    Except PlatformStatus (LeafIncorporateSpec K) :=
  let place := hdr.findTuple (Key.user tupleKey)
  if place.2 then
    match hdr.getLeafEntry place.1.toNat with
    | some old =>
        if initialized then
          match merge tupleKey old.msg msg with
          | some merged => .ok ⟨tupleKey, place.1.toNat, .stillExists, merged⟩
          | none => .error .noMemory
        else
          .error .noMemory
    | none => .error .noMemory
  else
    .ok ⟨tupleKey, (place.1 + 1).toNat, .didNotExist, msg⟩

/-- `btree_can_perform_leaf_incorporate_spec`. -/
def canPerformLeafIncorporateSpec (spec : LeafIncorporateSpec K) : Bool :=
  match spec.oldEntryState with
  | .stillExists => hdr.canSetLeafEntry cfg spec.idx spec.tupleKey spec.msg
  | _ => hdr.canSetLeafEntry cfg hdr.numEntries spec.tupleKey spec.msg

/-- `btree_try_perform_leaf_incorporate_spec`: the new page and the generation the update has. -/
def tryPerformLeafIncorporateSpec (spec : LeafIncorporateSpec K) : Option (Page K × Nat) :=
  let updated :=
    match spec.oldEntryState with
    | .stillExists => hdr.setLeafEntry cfg spec.idx spec.tupleKey spec.msg
    | _ => hdr.insertLeafEntry cfg spec.idx spec.tupleKey spec.msg
  updated.map fun h => ({ h with generation := h.generation + 1 }, h.generation)

/-- The entries from place `i` on, without the one the specification replaces. -/
def keptSlots (spec : LeafIncorporateSpec K) : Nat → List (Slot K) → List (Slot K)
  | _, [] => []
  | i, slot :: rest =>
      if spec.oldEntryState = .stillExists ∧ spec.idx = i then keptSlots spec (i + 1) rest
      else slot :: keptSlots spec (i + 1) rest

/-- Writes leaf entries one after the other from place `dstIdx` on, as the loops of
`btree_defragment_leaf` and `btree_split_leaf_build_right_node` do. -/
def setLeafEntries : Nat → Page K → List (Slot K) → Page K
  | _, hdr, [] => hdr
  | dstIdx, hdr, slot :: rest =>
      match slot.entry with
      | .leaf e =>
          setLeafEntries (dstIdx + 1) ((hdr.setLeafEntry cfg dstIdx e.key e.msg).getD hdr) rest
      | .index _ => setLeafEntries (dstIdx + 1) hdr rest

end Page

/-- The specification after a loop over the places from `first` to `last` has left out the entry
it replaces. -/
def LeafIncorporateSpec.afterDropping (spec : LeafIncorporateSpec K) (first last : Nat) :
    LeafIncorporateSpec K :=
  if spec.oldEntryState = .stillExists ∧ first ≤ spec.idx ∧ spec.idx < last then
    { spec with oldEntryState := .hasBeenRemoved }
  else
    spec

namespace Page

variable (hdr : Page K)

/-- `btree_defragment_leaf`: the specification is told that its old entry is gone. -/
def defragmentLeaf (spec : LeafIncorporateSpec K) : Page K × LeafIncorporateSpec K :=
  ((hdr.resetNodeEntries cfg).setLeafEntries cfg 0 (keptSlots spec 0 hdr.slots),
    spec.afterDropping 0 hdr.numEntries)

/-- `btree_truncate_leaf`. -/
def truncateLeaf (targetEntries : Nat) : Page K :=
  { hdr with
    slots := hdr.slots.take targetEntries
    nextEntry := hdr.lowestOffset cfg targetEntries }

/-! ## Splitting a leaf -/

/-- `most_of_entry_is_on_left_side`. -/
def mostOfEntryIsOnLeftSide (totalBytes leftBytes entrySize : Nat) : Bool :=
  decide (leftBytes + sizeofTableEntry + entrySize <
    (totalBytes + sizeofTableEntry + entrySize) / 2)

/-- `plan_move_more_entries_to_left`, over the entries from `split_idx` on: the bytes on the left
side and the place of the split. -/
def planMoveMoreEntriesToLeft (totalBytes : Nat) : Nat → Nat → List (Slot K) → Nat × Nat
  | leftBytes, splitIdx, [] => (leftBytes, splitIdx)
  | leftBytes, splitIdx, slot :: rest =>
      if mostOfEntryIsOnLeftSide totalBytes leftBytes (slot.entry.sizeof cfg) then
        planMoveMoreEntriesToLeft totalBytes
          (leftBytes + (sizeofTableEntry + slot.entry.sizeof cfg)) (splitIdx + 1) rest
      else
        (leftBytes, splitIdx)

/-- `btree_build_leaf_splitting_plan`. -/
def buildLeafSplittingPlan (spec : LeafIncorporateSpec K) : LeafSplittingPlan :=
  let entrySize := leafEntryRequiredCapacity cfg spec.tupleKey spec.msg
  let newNumEntries := hdr.numEntries + if spec.oldEntryState = .stillExists then 0 else 1
  let totalBytes :=
    entrySize + liveBytes cfg (keptSlots spec 0 hdr.slots) + newNumEntries * sizeofTableEntry
  let moved := planMoveMoreEntriesToLeft cfg totalBytes 0 0 (hdr.slots.take spec.idx)
  if moved.2 = spec.idx ∧ mostOfEntryIsOnLeftSide totalBytes moved.1 entrySize then
    let splitIdx := if spec.oldEntryState = .stillExists then moved.2 + 1 else moved.2
    ⟨(planMoveMoreEntriesToLeft cfg totalBytes (moved.1 + (sizeofTableEntry + entrySize)) splitIdx
      (hdr.slots.drop splitIdx)).2, true⟩
  else
    ⟨moved.2, false⟩

/-- `btree_splitting_pivot`. -/
def splittingPivot (spec : LeafIncorporateSpec K) (plan : LeafSplittingPlan) : Option (Key K) :=
  if plan.splitIdx = spec.idx ∧ spec.oldEntryState ≠ .stillExists ∧ !plan.insertionGoesLeft then
    some (Key.user spec.tupleKey)
  else
    (hdr.getLeafEntry plan.splitIdx).map fun e => Key.user e.key

/-- The right page of a split with the entries that move there, before the update. -/
def splitLeafRightEntries (leftAddr : Addr) (spec : LeafIncorporateSpec K)
    (plan : LeafSplittingPlan) : Page K :=
  ({ hdr with generation := hdr.generation + 1, prevAddr := leftAddr }.resetNodeEntries
    cfg).setLeafEntries cfg 0 (keptSlots spec plan.splitIdx (hdr.slots.drop plan.splitIdx))

/-- `btree_split_leaf_build_right_node`: the right page, the specification afterwards and the
generation if the update went there; `none` if the assertion that it fits fails. -/
def splitLeafBuildRightNode (leftAddr : Addr) (spec : LeafIncorporateSpec K)
    (plan : LeafSplittingPlan) : Option (Page K × LeafIncorporateSpec K × Option Nat) :=
  let right := hdr.splitLeafRightEntries cfg leftAddr spec plan
  let spec := spec.afterDropping plan.splitIdx hdr.numEntries
  if plan.insertionGoesLeft then
    some (right, spec, none)
  else
    let spec := { spec with idx := spec.idx - plan.splitIdx }
    (right.tryPerformLeafIncorporateSpec cfg spec).map fun r => (r.1, spec, some r.2)

/-- The left page of a split without the entries that have moved. -/
def splitLeafLeftEntries (plan : LeafSplittingPlan) (rightAddr : Addr) : Page K :=
  let left := { hdr with nextAddr := rightAddr }.truncateLeaf cfg plan.splitIdx
  { left with generation := left.generation + 1 }

/-- `btree_split_leaf_cleanup_left_node`. -/
def splitLeafCleanupLeftNode (spec : LeafIncorporateSpec K) (plan : LeafSplittingPlan)
    (rightAddr : Addr) : Page K × LeafIncorporateSpec K :=
  let left := hdr.splitLeafLeftEntries cfg plan rightAddr
  if plan.insertionGoesLeft ∧ !left.canPerformLeafIncorporateSpec cfg spec then
    left.defragmentLeaf cfg spec
  else
    (left, spec)

/-- The space `btree_defragment_or_split_child_leaf` compares with the threshold; the last summand
is the source's comparison of the sum of a count and a tag with a tag. -/
def totalSpaceRequired (spec : LeafIncorporateSpec K) : Nat :=
  liveBytes cfg (keptSlots spec 0 hdr.slots) + leafEntryRequiredCapacity cfg spec.tupleKey spec.msg
    + (if hdr.numEntries + spec.oldEntryState.toNat = OldEntryState.stillExists.toNat then 0 else 1)
      * sizeofIndexEntryHeader

end Page
end Btree
end TreePass
