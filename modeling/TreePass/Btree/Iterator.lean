import TreePass.Btree.Node

/-!
# The B-tree iterator

A model of the iterator of `btree.c` on a quiescent tree: a position in a node, the bounds of the
range inside that node, and the node and index where the range ends.  A node is held by its
address, since its page does not change.  Left out are what a quiescent tree does not need or the
result does not depend on: the claim on the first node (it succeeds), prefetching and the clocks.
Loops take fuel; `none` means that the fuel ran out, or that an entry is read that does not exist.
-/

namespace TreePass
namespace Btree

/-- `comparison`: where a start key puts the iterator. -/
inductive Comparison where
  | lessThan
  | lessThanOrEqual
  | greaterThanOrEqual
  | greaterThan
  deriving DecidableEq, Repr

/-- `btree_iterator`; `curr` is the address of the current node. -/
structure Iterator (K : Type) where
  rootAddr : Nat
  height : Nat
  minKey : Key K
  maxKey : Key K
  curr : Nat
  idx : Int
  currMinIdx : Int
  endAddr : Nat
  endIdx : Int
  endGeneration : Nat

/-- `while (cond) body`. -/
def whileLoop {σ : Type} (cond : σ → Bool) (body : σ → σ) : Nat → σ → Option σ
  | 0, s => if cond s then none else some s
  | fuel + 1, s => if cond s then whileLoop cond body fuel (body s) else some s

theorem whileLoop_of_not {σ : Type} {cond : σ → Bool} {s : σ} (h : cond s = false)
    (body : σ → σ) (fuel : Nat) : whileLoop cond body fuel s = some s := by
  cases fuel <;> simp [whileLoop, h]

/-- The `switch` of `find_key_in_node`. -/
def Comparison.adjust (positionRule : Comparison) (tmp : Int) (found : Bool) : Int :=
  match positionRule with
  | .lessThan => if found then tmp - 1 else tmp
  | .lessThanOrEqual => tmp
  | .greaterThanOrEqual => if found then tmp else tmp + 1
  | .greaterThan => tmp + 1

variable {K : Type} (pages : Nat → Node K)

namespace Iterator

/-- `btree_iterator_can_prev`. -/
def canPrev (itor : Iterator K) : Bool :=
  decide (itor.currMinIdx ≤ itor.idx) &&
    (itor.currMinIdx != itor.endIdx || itor.curr != itor.endAddr)

/-- `btree_iterator_can_next`. -/
def canNext (itor : Iterator K) : Bool :=
  itor.curr != itor.endAddr ||
    (decide (itor.idx < itor.endIdx) && itor.currMinIdx != itor.endIdx)

/-- `btree_iterator_curr`. -/
def curr? (itor : Iterator K) : Option (Key K × Message) :=
  if itor.idx < 0 then none
  else if (pages itor.curr).height = 0 then (pages itor.curr).entries[itor.idx.toNat]?
  else
    (pages itor.curr).pivots[itor.idx.toNat]?.map fun e => (e.pivot, ⟨.pivotData, e.pivotData⟩)

def firstKey (itor : Iterator K) (hdr : Node K) : Option (Key K) :=
  if itor.height = 0 then hdr.entries.head?.map Prod.fst
  else hdr.pivots.head?.map IndexEntry.pivot

variable [LinearOrder K]

/-- `find_key_in_node`: the index for the position rule, and whether the target was found.  A node
below the height of the iterator spoils the iterator. -/
def findKeyInNode (itor : Iterator K) (hdr : Node K) (target : Key K)
    (positionRule : Comparison) : Iterator K × Int × Bool :=
  if itor.height = 0 then
    let (tmp, found) := findTuple hdr target
    (itor, positionRule.adjust tmp found, found)
  else if hdr.height < itor.height then
    ({ itor with height := 2 ^ 32 - 1 }, 0, false)
  else
    let (tmp, found) := findPivot hdr itor.minKey
    (itor, positionRule.adjust tmp found, found)

/-- `btree_iterator_find_end`. -/
def findEnd (itor : Iterator K) : Iterator K :=
  let endAddr := lookupNode pages itor.rootAddr itor.maxKey itor.height
  let hdr := pages endAddr
  let itor := { itor with endAddr := endAddr, endGeneration := hdr.generation }
  if itor.maxKey = ⊤ then { itor with endIdx := (hdr.numEntries : Int) }
  else
    let (itor, endIdx, _) := itor.findKeyInNode hdr itor.maxKey .greaterThanOrEqual
    { itor with endIdx := endIdx }

/-- `btree_iterator_next_leaf`. -/
def nextLeaf (fuel : Nat) (itor : Iterator K) : Option (Iterator K) :=
  let itor := { itor with curr := (pages itor.curr).nextAddr, idx := 0, currMinIdx := -1 }
  whileLoop
    (fun it => it.curr == it.endAddr && (pages it.curr).generation != it.endGeneration)
    (findEnd pages) fuel itor

/-- `btree_iterator_prev_leaf`. -/
def prevLeaf (fuel : Nat) (itor : Iterator K) : Option (Iterator K) := do
  let addr ← whileLoop (fun addr => (pages addr).nextAddr != itor.curr)
    (fun addr => (pages addr).nextAddr) fuel (pages itor.curr).prevAddr
  let hdr := pages addr
  let first ← itor.firstKey hdr
  let currMinIdx : Int :=
    if itor.minKey < first then -1
    else
      let (tmp, found) :=
        if itor.height = 0 then findTuple hdr itor.minKey else findPivot hdr itor.minKey
      if found then tmp else tmp + 1
  pure { itor with
    curr := addr
    idx := (hdr.numEntries : Int) - 1
    currMinIdx := if hdr.prevAddr = 0 ∧ currMinIdx = -1 then 0 else currMinIdx }

/-- `btree_iterator_next`. -/
def next (fuel : Nat) (itor : Iterator K) : Option (Iterator K) :=
  if itor.idx + 1 = ((pages itor.curr).numEntries : Int) ∧
      canNext { itor with idx := itor.idx + 1 } = true then
    nextLeaf pages fuel { itor with idx := itor.idx + 1 }
  else some { itor with idx := itor.idx + 1 }

/-- `btree_iterator_prev`. -/
def prev (fuel : Nat) (itor : Iterator K) : Option (Iterator K) :=
  let itor := { itor with idx := itor.idx - 1 }
  if itor.currMinIdx = -1 ∧ itor.idx = -1 then itor.prevLeaf pages fuel else some itor

/-- The end of `find_btree_node_and_get_idx_bounds`: go to the neighbouring leaf if the index
belongs there. -/
def moveToNeighbour (fuel : Nat) (itor : Iterator K) : Option (Iterator K) := do
  let itor ←
    if itor.curr ≠ itor.endAddr ∧ itor.idx = ((pages itor.curr).numEntries : Int) then
      (itor.nextLeaf pages fuel).map fun itor => { itor with currMinIdx := 0 }
    else some itor
  if itor.currMinIdx = -1 ∧ itor.idx = -1 then itor.prevLeaf pages fuel else some itor

/-- `find_btree_node_and_get_idx_bounds`. -/
def findNodeAndGetIdxBounds (fuel : Nat) (itor : Iterator K) (target : Key K)
    (positionRule : Comparison) : Option (Iterator K) :=
  let itor := { itor with curr := lookupNode pages itor.rootAddr target itor.height }
  let itor := itor.findEnd pages
  let hdr := pages itor.curr
  let (itor, tmp, found) := itor.findKeyInNode hdr itor.minKey .greaterThanOrEqual
  let currMinIdx := if !found ∧ tmp = 0 then tmp - 1 else tmp
  let itor :=
    { itor with currMinIdx := if currMinIdx = -1 ∧ hdr.prevAddr = 0 then 0 else currMinIdx }
  let (itor, idx, _) := itor.findKeyInNode hdr target positionRule
  let itor := { itor with idx := idx }
  itor.moveToNeighbour pages fuel

def clampKey (minKey maxKey startKey : Key K) : Key K :=
  let startKey := if startKey < minKey then minKey else startKey
  if startKey > maxKey then maxKey else startKey

/-- `btree_iterator_init`. -/
def init (fuel : Nat) (rootAddr : Nat) (minKey maxKey startKey : Key K) (startType : Comparison)
    (height : Nat) : Option (Iterator K) :=
  let maxKey := if minKey > maxKey then minKey else maxKey
  let startKey := clampKey minKey maxKey startKey
  let itor : Iterator K :=
    { rootAddr := rootAddr, height := height, minKey := minKey, maxKey := maxKey, curr := 0,
      idx := 0, currMinIdx := 0, endAddr := 0, endIdx := 0, endGeneration := 0 }
  itor.findNodeAndGetIdxBounds pages fuel startKey startType

end Iterator
end Btree
end TreePass
