import TreePass.Btree.Node
import TreePass.Trunk.PivotState

/-!
# Trunk nodes in memory

A node has one pivot more than children: the last pivot is the upper bound.  Every child has a pivot
bundle; the in-flight bundles are shared, and a pivot sees those from `inflightBundleStart` on.

* `TrunkPivot` keeps the address of its child and the count of its compactions in one word.
* `TrunkNode` is the node; `firstLiveInflightBundle` is the first bundle that a pivot still sees.
-/

namespace TreePass
namespace Trunk

open Btree (Key)

/-! ## Pivots -/

/-- `trunk_pivot_stats`. -/
structure PivotStats where
  numKvBytes : Int
  numTuples : Int
  deriving DecidableEq, Repr

namespace PivotStats

/-- `TRUNK_STATS_ZERO`. -/
def zero : PivotStats := ⟨0, 0⟩

/-- `trunk_pivot_stats_subtract`. -/
def subtract (a b : PivotStats) : PivotStats :=
  ⟨a.numKvBytes - b.numKvBytes, a.numTuples - b.numTuples⟩

/-- `trunk_pivot_stats_add`. -/
def add (a b : PivotStats) : PivotStats := ⟨a.numKvBytes + b.numKvBytes, a.numTuples + b.numTuples⟩

/-- `trunk_pivot_stats_are_nonnegative`. -/
def AreNonnegative (stats : PivotStats) : Prop := 0 ≤ stats.numKvBytes ∧ 0 ≤ stats.numTuples

instance (stats : PivotStats) : Decidable stats.AreNonnegative :=
  inferInstanceAs (Decidable (_ ∧ _))

end PivotStats

/-- `TRUNK_PIVOT_COMP_CNT_OVERFLOW`. -/
def compCntOverflow : Nat := 255

/-- `trunk_pivot`. -/
structure TrunkPivot (K : Type) where
  key : Key K
  /-- The address of the child and, in the low eight bits, the count of compactions. -/
  childWord : Nat
  /-- The index of the oldest bundle that is live for this pivot. -/
  inflightBundleStart : Nat
  prereceiveStats : PivotStats
  stats : PivotStats

namespace TrunkPivot

variable {K : Type} (pvt : TrunkPivot K)

/-- `trunk_pivot_child_addr`. -/
def childAddr : Nat := pvt.childWord / 256 * 256

/-- `trunk_pivot_comp_cnt`. -/
def compCnt : Nat := pvt.childWord % 256

/-- `trunk_pivot_set_comp_cnt`. -/
def setCompCnt (cnt : Nat) : TrunkPivot K := { pvt with childWord := pvt.childAddr + cnt % 256 }

/-- `trunk_pivot_set_child_addr`: the whole word is overwritten. -/
def setChildAddr (newChildAddr : Nat) : TrunkPivot K := { pvt with childWord := newChildAddr }

end TrunkPivot

/-! ## Nodes -/

/-- `trunk_node`. -/
structure TrunkNode (K : Type) where
  height : Nat
  pivots : List (TrunkPivot K)
  pivotBundles : List Bundle
  numOldBundles : Nat
  /-- From the oldest to the newest. -/
  inflightBundles : List Bundle

namespace TrunkNode

variable {K : Type} (node : TrunkNode K)

/-- `trunk_node_is_leaf`. -/
def isLeaf : Bool := node.height == 0

def children : List (TrunkPivot K) := node.pivots.dropLast

/-- `trunk_node_num_children`. -/
def numChildren : Nat := node.pivots.length - 1

def keys : List (Key K) := node.pivots.map (·.key)

/-- `trunk_node_first_live_inflight_bundle`. -/
def firstLiveInflightBundle : Nat :=
  (node.children.map (·.inflightBundleStart)).foldl (fun a b => if a < b then a else b)
    (2 ^ 64 - 1)

def liveInflightBundles : List Bundle := node.inflightBundles.drop node.firstLiveInflightBundle

end TrunkNode

end Trunk
end TreePass
