import TreePass.Btree.Latches

/-!
# Inserting into a memtable

`btree_insert` with the functions it calls to grow the root, to split and to defragment nodes.  The
descent is hand over hand; a thread that cannot get a claim gives up what it holds and starts over.
-/

namespace TreePass
namespace Btree

open Lib

/-- How an attempt of `btree_insert` ends. -/
inductive Exit where
  | startOver
  | returns (rc : Except PlatformStatus Unit)

variable {K : Type} (cfg : Config K) (outcomes : Outcomes K)

/-! ## Index nodes -/

/-- `btree_grow_root`. -/
def growRoot (root : Addr) : Action (Thread K) Unit := do
  let hdr ← readPage root
  let child ← btreeAlloc outcomes
  writePage child hdr
  nodeUnlock child
  nodeUnclaim child
  let newPivot :=
    if hdr.height = 0 then (hdr.getLeafEntry 0).map fun e => Key.user e.key
    else (hdr.getIndexEntry 0).map OndiskIndexEntry.pivot
  writePageAsserted root <| newPivot.bind fun pivot =>
    { hdr.resetNodeEntries cfg with height := hdr.height + 1 }.setIndexEntry cfg 0 pivot child
      pivotStatsUnknown
  nodeUnget child

/-- The new minimum of the tree becomes the first pivot of an index node, with the child address
and the statistics the pivot has; the result is the one of `btree_set_index_entry`. -/
def setMinKey (addr : Addr) (tupleKey : K) : Action (Thread K) Bool := do
  let hdr ← readPage addr
  match hdr.getIndexEntry 0 with
  | some e =>
      match hdr.setIndexEntry cfg 0 (Key.user tupleKey) e.maskedChildAddr e.pivotData.stats with
      | some h => do
          writePage addr h
          return true
      | none => return false
  | none => throw .asserts

/-- `need_to_set_min_key`: whether the first pivot still has to be replaced. -/
def trySetMinKey (addr : Addr) (tupleKey : K) (childIdx : Int) : Action (Thread K) Bool :=
  if childIdx < 0 then do
    let success ← setMinKey cfg addr tupleKey
    return !success
  else
    return false

/-- The second try to replace the first pivot, which is asserted to succeed. -/
def setMinKeyIfNeeded (addr : Addr) (tupleKey : K) (needToSetMinKey : Bool) :
    Action (Thread K) Unit :=
  if needToSetMinKey then do
    let success ← setMinKey cfg addr tupleKey
    if success then return () else throw .asserts
  else
    return ()

/-- `btree_grow_root` for a full root; the index of the child is 0 afterwards. -/
def growRootIfFull (root : Addr) (childIdx : Nat) : Action (Thread K) Nat := do
  let hdr ← readPage root
  if hdr.indexIsFull cfg then do
    growRoot cfg outcomes root
    return 0
  else
    return childIdx

/-- Write-locks the claimed root, makes it ready for the descent and unlocks it. -/
def fixRoot (root : Addr) (tupleKey : K) (childIdx : Int) : Action (Thread K) Nat := do
  nodeLock root
  let needToSetMinKey ← trySetMinKey cfg root tupleKey childIdx
  let childIdx ← growRootIfFull cfg outcomes root childIdx.toNat
  setMinKeyIfNeeded cfg root tupleKey needToSetMinKey
  nodeUnlock root
  nodeUnclaim root
  return childIdx

/-- `btree_split_child_index`: the child to go on with, locked, and the index in it. -/
def splitChildIndex (parent : Addr) (indexOfChildInParent : Nat) (child : Addr)
    (nextChildIdx : Nat) : Action (Thread K) (Addr × Nat) := do
  let hdr ← readPage child
  let idx := hdr.chooseIndexSplit cfg
  let rightChild ← btreeAlloc outcomes
  let parentHdr ← readPage parent
  match hdr.getIndexEntry idx with
  | none => throw .asserts
  | some e => do
      writePage parent
        ((parentHdr.insertIndexEntry cfg (indexOfChildInParent + 1) e.pivot rightChild
          pivotStatsUnknown).getD parentHdr)
      nodeFullUnlock parent
      writePageAsserted rightChild (hdr.splitIndexBuildRightNode cfg idx)
      if nextChildIdx < idx then do
        nodeFullUnlock rightChild
        writePageAsserted child (hdr.truncateIndex cfg idx)
        return (child, nextChildIdx)
      else do
        writePageAsserted child (hdr.truncateIndex cfg idx)
        nodeFullUnlock child
        return (rightChild, nextChildIdx - idx)

/-- `btree_defragment_or_split_child_index`. -/
def defragmentOrSplitChildIndex (parent : Addr) (indexOfChildInParent : Nat) (child : Addr)
    (nextChildIdx : Nat) : Action (Thread K) (Addr × Nat) := do
  let hdr ← readPage child
  let totalSpaceRequired :=
    Page.liveBytes cfg hdr.slots + hdr.numEntries * sizeofIndexEntryHeader
  if totalSpaceRequired < splitThreshold cfg then do
    nodeFullUnlock parent
    writePageAsserted child (hdr.defragmentIndex cfg)
    return (child, nextChildIdx)
  else
    splitChildIndex cfg outcomes parent indexOfChildInParent child nextChildIdx

/-- Splits or defragments the child if it is full; either way the parent is unlocked. -/
def makeRoomInChild (parent : Addr) (childIdx : Nat) (child : Addr) (nextChildIdx : Nat) :
    Action (Thread K) (Addr × Nat) := do
  let hdr ← readPage child
  if hdr.indexIsFull cfg then
    defragmentOrSplitChildIndex cfg outcomes parent childIdx child nextChildIdx
  else do
    nodeFullUnlock parent
    return (child, nextChildIdx)

/-- Write-locks the claimed parent and child, makes the child ready for the descent and keeps
only a read lock on it or on its new sibling. -/
def fixChild (parent : Addr) (childIdx : Nat) (child : Addr) (tupleKey : K) (nextChildIdx : Int) :
    Action (Thread K) (Addr × Nat) := do
  nodeLock parent
  nodeLock child
  let needToSetMinKey ← trySetMinKey cfg child tupleKey nextChildIdx
  let r ← makeRoomInChild cfg outcomes parent childIdx child nextChildIdx.toNat
  setMinKeyIfNeeded cfg r.1 tupleKey needToSetMinKey
  nodeUnlock r.1
  nodeUnclaim r.1
  return r

def getChild (parent : Addr) (childIdx : Nat) : Action (Thread K) Addr := do
  let hdr ← readPage parent
  match hdr.getIndexEntry childIdx with
  | some e => do
      nodeGet outcomes e.maskedChildAddr
      return e.maskedChildAddr
  | none => throw .asserts

/-! ## Leaves -/

/-- The turns of the loop that claims the next leaf; the number is how often it may still try
again. -/
def claimChildNext (childNext : Addr) : Nat → Action (Thread K) Bool
  | 0 => do
      let claimed ← nodeClaim outcomes childNext
      if claimed then
        return true
      else do
        nodeUnget childNext
        return false
  | retries + 1 => do
      let claimed ← nodeClaim outcomes childNext
      if claimed then
        return true
      else do
        nodeUnget childNext
        nodeGet outcomes childNext
        claimChildNext childNext retries

/-- Write-locks the next leaf if there is one; `false` after too many failed claims. -/
def lockChildNext (childNext : Addr) : Action (Thread K) Bool :=
  if childNext = 0 then
    return true
  else do
    nodeGet outcomes childNext
    let claimed ← claimChildNext outcomes childNext 100
    if claimed then do
      nodeLock childNext
      return true
    else
      return false

/-- The new leaf becomes the predecessor of the next leaf, which is unlocked. -/
def relinkChildNext (childNext rightChild : Addr) : Action (Thread K) Unit :=
  if childNext = 0 then
    return ()
  else do
    let hdr ← readPage childNext
    writePage childNext { hdr with prevAddr := rightChild }
    nodeFullUnlock childNext

/-- Writes a page of the right half, and the generation if the update is in it. -/
def writeRightLeaf (rightChild : Addr) :
    Option (Page K × LeafIncorporateSpec K × Option Nat) →
      Action (Thread K) (LeafIncorporateSpec K)
  | some r => do
      modify fun s =>
        { s with
          pages := Function.update s.pages rightChild r.1
          generation := r.2.2.getD s.generation }
      return r.2.1
  | none => throw .asserts

/-- The update of the left half of a split leaf, if it goes there. -/
def performSpecIfLeft (child : Addr) (spec : LeafIncorporateSpec K) (plan : LeafSplittingPlan) :
    Action (Thread K) Unit :=
  if plan.insertionGoesLeft then performSpec cfg child spec else pure ()

/-- The rest of `btree_split_child_leaf`, with all locks taken. -/
def splitLockedLeaf (parent : Addr) (indexOfChildInParent : Nat) (child rightChild childNext : Addr)
    (spec : LeafIncorporateSpec K) (plan : LeafSplittingPlan) : Action (Thread K) Unit := do
  let hdr ← readPage child
  let parentHdr ← readPage parent
  writePageAsserted parent <| (hdr.splittingPivot spec plan).bind fun pivotKey =>
    parentHdr.insertIndexEntry cfg (indexOfChildInParent + 1) pivotKey rightChild pivotStatsUnknown
  nodeFullUnlock parent
  relinkChildNext childNext rightChild
  let spec ← writeRightLeaf rightChild (hdr.splitLeafBuildRightNode cfg child spec plan)
  nodeFullUnlock rightChild
  let cleaned := hdr.splitLeafCleanupLeftNode cfg spec plan rightChild
  writePage child cleaned.1
  performSpecIfLeft cfg child cleaned.2 plan
  nodeFullUnlock child

/-- `btree_split_child_leaf`; `false` is the result -1. -/
def splitChildLeaf (parent : Addr) (indexOfChildInParent : Nat) (child : Addr)
    (spec : LeafIncorporateSpec K) : Action (Thread K) Bool := do
  let hdr ← readPage child
  let plan := hdr.buildLeafSplittingPlan cfg spec
  let rightChild ← btreeAlloc outcomes
  nodeLock parent
  let locked ← lockChildNext outcomes hdr.nextAddr
  if locked then do
    nodeLock child
    splitLockedLeaf cfg parent indexOfChildInParent child rightChild hdr.nextAddr spec plan
    return true
  else do
    nodeFullUnlock rightChild
    nodeFullUnlock parent
    nodeUnclaim child
    nodeUnget child
    return false

/-- `btree_defragment_or_split_child_leaf`. -/
def defragmentOrSplitChildLeaf (parent : Addr) (indexOfChildInParent : Nat) (child : Addr)
    (spec : LeafIncorporateSpec K) : Action (Thread K) Bool := do
  let hdr ← readPage child
  if hdr.totalSpaceRequired cfg spec < splitThreshold cfg then do
    nodeUnclaim parent
    nodeUnget parent
    nodeLock child
    let defragmented := hdr.defragmentLeaf cfg spec
    writePage child defragmented.1
    performSpec cfg child defragmented.2
    nodeFullUnlock child
    return true
  else
    splitChildLeaf cfg outcomes parent indexOfChildInParent child spec

/-- The loop that claims the leaf and gives it up in between; whether it had to. -/
def claimLeaf (child : Addr) : Nat → Action (Thread K) Bool
  | 0 => throw .waits
  | fuel + 1 => do
      let claimed ← nodeClaim outcomes child
      if claimed then
        return false
      else do
        nodeUnget child
        nodeGet outcomes child
        let _ ← claimLeaf child fuel
        return true

/-- The end of `btree_insert` for a leaf without room. -/
def splitAndInsert (parent : Addr) (childIdx : Nat) (child : Addr) (spec : LeafIncorporateSpec K) :
    Action (Thread K) Exit := do
  let done ← defragmentOrSplitChildLeaf cfg outcomes parent childIdx child spec
  if done then do
    setWasUnique spec
    return .returns (.ok ())
  else
    return .startOver

variable [LinearOrder K]

/-- Claims the leaf below the claimed parent, rebuilds the specification if the leaf was given up
for that, and splits or defragments the leaf. -/
def claimLeafAndSplit (fuel : Nat) (parent : Addr) (childIdx : Nat) (child : Addr) (tupleKey : K)
    (msg : Message) (spec : LeafIncorporateSpec K) : Action (Thread K) Exit := do
  let needToRebuildSpec ← claimLeaf outcomes child fuel
  if needToRebuildSpec then do
    let rebuilt ← createSpec outcomes child tupleKey msg
    match rebuilt with
    | .error rc => do
        nodeUnget parent
        nodeUnclaim child
        nodeUnget child
        return .returns (.error rc)
    | .ok spec => splitAndInsert cfg outcomes parent childIdx child spec
  else
    splitAndInsert cfg outcomes parent childIdx child spec

/-- `btree_insert` from the point where the parent of the leaf and the leaf are read-locked. -/
def insertIntoLeaf (fuel : Nat) (parent : Addr) (childIdx : Nat) (child : Addr) (tupleKey : K)
    (msg : Message) : Action (Thread K) Exit := do
  let built ← createSpec outcomes child tupleKey msg
  match built with
  | .error rc => do
      nodeUnget parent
      nodeUnget child
      return .returns (.error rc)
  | .ok spec => do
      let hdr ← readPage child
      if hdr.canPerformLeafIncorporateSpec cfg spec then do
        nodeUnget parent
        let claimed ← nodeClaim outcomes child
        if claimed then do
          nodeLock child
          performSpec cfg child spec
          nodeFullUnlock child
          setWasUnique spec
          return .returns (.ok ())
        else do
          nodeUnget child
          return .startOver
      else do
        let claimed ← nodeClaim outcomes parent
        if claimed then
          claimLeafAndSplit cfg outcomes fuel parent childIdx child tupleKey msg spec
        else do
          nodeUnget parent
          nodeUnget child
          return .startOver

/-! ## The descent -/

/-- The turns of the loop of `btree_insert`; the first argument is the height of the parent. -/
def insertDescend (fuel : Nat) (tupleKey : K) (msg : Message) :
    Nat → Addr → Nat → Addr → Action (Thread K) Exit
  | height + 2, parent, childIdx, child => do
      let hdr ← readPage child
      let nextChildIdx := (hdr.findPivot (Key.user tupleKey)).1
      if nextChildIdx < 0 ∨ hdr.indexIsFull cfg then do
        let parentClaimed ← nodeClaim outcomes parent
        if parentClaimed then do
          let childClaimed ← nodeClaim outcomes child
          if childClaimed then do
            let r ← fixChild cfg outcomes parent childIdx child tupleKey nextChildIdx
            let next ← getChild outcomes r.1 r.2
            insertDescend fuel tupleKey msg (height + 1) r.1 r.2 next
          else do
            nodeUnclaim parent
            nodeUnget parent
            nodeUnget child
            return .startOver
        else do
          nodeUnget parent
          nodeUnget child
          return .startOver
      else do
        nodeUnget parent
        let next ← getChild outcomes child nextChildIdx.toNat
        insertDescend fuel tupleKey msg (height + 1) child nextChildIdx.toNat next
  | _, parent, childIdx, child => insertIntoLeaf cfg outcomes fuel parent childIdx child tupleKey msg

/-- Starts the descent at a read-locked root that is ready for it. -/
def insertFrom (fuel : Nat) (root : Addr) (childIdx : Nat) (tupleKey : K) (msg : Message) :
    Action (Thread K) Exit := do
  let child ← getChild outcomes root childIdx
  let hdr ← readPage root
  insertDescend cfg outcomes fuel tupleKey msg hdr.height root childIdx child

/-- `btree_insert` from the point where the root is a read-locked index. -/
def insertBelowRoot (fuel : Nat) (root : Addr) (tupleKey : K) (msg : Message) :
    Action (Thread K) Exit := do
  let hdr ← readPage root
  let childIdx := (hdr.findPivot (Key.user tupleKey)).1
  if childIdx < 0 ∨ hdr.indexIsFull cfg then do
    let claimed ← nodeClaim outcomes root
    if claimed then do
      let childIdx ← fixRoot cfg outcomes root tupleKey childIdx
      insertFrom cfg outcomes fuel root childIdx tupleKey msg
    else do
      nodeUnget root
      return .startOver
  else
    insertFrom cfg outcomes fuel root childIdx.toNat tupleKey msg

/-- `btree_insert` for a root that is a leaf. -/
def insertIntoRootLeaf (fuel : Nat) (root : Addr) (tupleKey : K) (msg : Message) :
    Action (Thread K) Exit := do
  let built ← createSpec outcomes root tupleKey msg
  match built with
  | .error rc => do
      nodeUnget root
      return .returns (.error rc)
  | .ok spec => do
      let claimed ← nodeClaim outcomes root
      if claimed then do
        nodeLock root
        let incorporated ← tryPerformSpec cfg root spec
        if incorporated then do
          setWasUnique spec
          nodeFullUnlock root
          return .returns (.ok ())
        else do
          growRoot cfg outcomes root
          nodeUnlock root
          nodeUnclaim root
          insertBelowRoot cfg outcomes fuel root tupleKey msg
      else do
        nodeUnget root
        return .startOver

/-- `btree_insert` from the label `start_over` on. -/
def insertAttempt (fuel : Nat) (root : Addr) (tupleKey : K) (msg : Message) :
    Action (Thread K) Exit := do
  nodeGet outcomes root
  let hdr ← readPage root
  if hdr.height = 0 then insertIntoRootLeaf cfg outcomes fuel root tupleKey msg
  else insertBelowRoot cfg outcomes fuel root tupleKey msg

/-- The attempts of `btree_insert` until one does not start over. -/
def insertLoop (root : Addr) (tupleKey : K) (msg : Message) :
    Nat → Action (Thread K) (Except PlatformStatus Unit)
  | 0 => throw .waits
  | fuel + 1 => do
      let exit ← insertAttempt cfg outcomes fuel root tupleKey msg
      match exit with
      | .startOver => insertLoop root tupleKey msg fuel
      | .returns rc => return rc

/-- **`btree_insert`**, with so many turns of its unbounded loops. -/
def btreeInsert (fuel : Nat) (root : Addr) (tupleKey : K) (msg : Message) :
    Action (Thread K) (Except PlatformStatus Unit) :=
  if maxInlineKeySize cfg < cfg.keyLength tupleKey then
    return .error .badParam
  else if maxInlineMessageSize cfg < msg.data.length then
    return .error .badParam
  else if msg.type = .invalid ∨ msg.type = .pivotData then
    return .error .badParam
  else
    insertLoop cfg outcomes root tupleKey msg fuel

end Btree
end TreePass
