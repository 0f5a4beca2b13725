import TreePass.Btree.Node
import TreePass.Trunk.PivotState

/-!
# Trunk nodes on disk

A serialized node lies on the first pages of an extent.  A reader holds the header page and one page
more, on which the pivot lies that it has read last; what it keeps of a pivot is a pointer into the
page.

* `OndiskNode` is a node by its pivots, their offsets and the in-flight bundles.
* `PageRef` is one reference to a page: a page that is released and taken again gives another one.
* `setupContentPage` moves a handle to the page of an offset; `findPivot` is the binary search.

A page is always got: the blocking get of the cache does not fail.
-/

namespace TreePass
namespace Trunk

open Btree (Key)

/-! ## Nodes -/

/-- `trunk_ondisk_pivot`, with the pivot bundle that lies behind it. -/
structure OndiskPivot (K : Type) where
  key : Key K
  childAddr : Nat
  numLiveInflightBundles : Nat
  bundle : Bundle

/-- `trunk_ondisk_node` with what its offsets lead to; the in-flight bundles from the newest to the
oldest. -/
structure OndiskNode (K : Type) where
  height : Nat
  /-- `pivot_offsets`, each with its pivot. -/
  pivots : List (Nat × OndiskPivot K)
  inflightBundles : List Bundle

namespace OndiskNode

variable {K : Type} (node : OndiskNode K)

/-- `trunk_ondisk_node_num_pivots`. -/
def numPivots : Nat := node.pivots.length

def keys : List (Key K) := node.pivots.map fun p => p.2.key

end OndiskNode

/-! ## Handles -/

/-- A reference to a page of a node, by the page's number in the extent.  No two references that a
handle takes have the same stamp. -/
structure PageRef where
  page : Nat
  stamp : Nat
  deriving DecidableEq, Repr

/-- The header page, which a handle refers to from its beginning to its end. -/
def headerPage : PageRef := ⟨0, 0⟩

/-- `trunk_ondisk_node_handle`, with the stamp of the next reference. -/
structure OndiskNodeHandle where
  pivotPage : Option PageRef
  nextStamp : Nat
  deriving DecidableEq, Repr

namespace OndiskNodeHandle

/-- `trunk_ondisk_node_handle_init`. -/
def init : OndiskNodeHandle := ⟨none, 1⟩

variable (handle : OndiskNodeHandle)

/-- The page is referenced now, and has been since the reference was taken. -/
def Holds (ref : PageRef) : Prop := ref = headerPage ∨ handle.pivotPage = some ref

instance (ref : PageRef) : Decidable (handle.Holds ref) :=
  inferInstanceAs (Decidable (_ ∨ _))

/-- `offset_is_in_content_page`. -/
def offsetIsInContentPage (pageSize offset : Nat) (ref : PageRef) : Bool :=
  decide (ref.page * pageSize ≤ offset) && decide (offset < ref.page * pageSize + pageSize)

/-- The header page, or a page that is got; the page of the handle is released before. -/
def movePivotPage (pageSize offset : Nat) : PageRef × OndiskNodeHandle :=
  if offset < pageSize then (headerPage, { handle with pivotPage := some headerPage })
  else
    let ref : PageRef := ⟨offset / pageSize, handle.nextStamp⟩
    (ref, ⟨some ref, handle.nextStamp + 1⟩)

/-- `trunk_ondisk_node_handle_setup_content_page` for the pivot page: the page of the offset, and the
handle. -/
def setupContentPage (pageSize offset : Nat) : PageRef × OndiskNodeHandle :=
  match handle.pivotPage with
  | some ref =>
      if offsetIsInContentPage pageSize offset ref then (ref, handle)
      else handle.movePivotPage pageSize offset
  | none => handle.movePivotPage pageSize offset

end OndiskNodeHandle

/-! ## Finding a pivot -/

/-- A `trunk_ondisk_pivot *`: a pivot and the reference under which it was read. -/
structure PivotPtr where
  num : Nat
  ref : PageRef
  deriving DecidableEq, Repr

variable {K : Type} (pageSize : Nat) (node : OndiskNode K)

/-- `trunk_ondisk_node_get_pivot`; `none` if there is no such pivot. -/
def getPivot (handle : OndiskNodeHandle) (pivotNum : Nat) : Option (PivotPtr × OndiskNodeHandle) :=
  node.pivots[pivotNum]?.map fun p =>
    let r := handle.setupContentPage pageSize p.1
    (⟨pivotNum, r.1⟩, r.2)

/-- Reading through a pointer; `none` if the page has been released. -/
def PivotPtr.read (handle : OndiskNodeHandle) (ptr : PivotPtr) : Option (OndiskPivot K) :=
  if handle.Holds ptr.ref then node.pivots[ptr.num]?.map Prod.snd else none

/-- The registers of the search.  `minPivot` goes with the last comparison that set it. -/
structure SearchState where
  min : Nat
  max : Nat
  minPivot : Option (PivotPtr × Ordering)
  handle : OndiskNodeHandle
  deriving DecidableEq

variable [LinearOrder K]

/-- The loop of `trunk_ondisk_node_find_pivot`; `none` if the fuel runs out or a page is read that
has been released. -/
def findPivotLoop (tgt : Key K) : Nat → SearchState → Option SearchState
  | 0, s => if s.min + 1 < s.max then none else some s
  | fuel + 1, s =>
      if s.min + 1 < s.max then do
        let mid := (s.min + s.max) / 2
        let (midPivot, handle) ← getPivot pageSize node s.handle mid
        let pivot ← midPivot.read node handle
        let c := cmp tgt pivot.key
        if c = .lt then findPivotLoop tgt fuel { s with max := mid, handle := handle }
        else findPivotLoop tgt fuel ⟨mid, s.max, some (midPivot, c), handle⟩
      else some s

/-- `less_than` or `less_than_or_equal`, the two comparisons the callers ask for. -/
inductive FindMode where
  | lessThan
  | lessThanOrEqual
  deriving DecidableEq, Repr

/-- `trunk_ondisk_node_find_pivot`: the pivot and the handle at return. -/
def findPivot (handle : OndiskNodeHandle) (tgt : Key K) (mode : FindMode) :
    Option (PivotPtr × OndiskNodeHandle) := do
  let s ← findPivotLoop pageSize node tgt node.numPivots
    ⟨0, node.numPivots - 1, none, handle⟩
  match s.minPivot with
  | some (minPivot, lastCmp) =>
      if 0 < s.min ∧ lastCmp = .eq ∧ mode = .lessThan then
        getPivot pageSize node s.handle (s.min - 1)
      else some (minPivot, s.handle)
  | none => getPivot pageSize node s.handle s.min

/-- `trunk_ondisk_node_find_pivot_async`, whose comparison is always `less_than_or_equal`. -/
def findPivotAsync (handle : OndiskNodeHandle) (tgt : Key K) :
    Option (PivotPtr × OndiskNodeHandle) := do
  let s ← findPivotLoop pageSize node tgt node.numPivots
    ⟨0, node.numPivots - 1, none, handle⟩
  match s.minPivot with
  | some (minPivot, _) => some (minPivot, s.handle)
  | none => getPivot pageSize node s.handle s.min

end Trunk
end TreePass
