import TreePass.Btree.Page
import TreePass.Trunk.Node

/-!
# Receiving bundles

A flush hands the bundles of a pivot to the child, and a leaf split hands those of the leaf to the
new leaves.  The node appends them to its in-flight bundles, and each of its pivots gets the tuples
and bytes that their branches have in its range.

* `accumulateBranchTupleCountsInRange` and `accumulateBundleTupleCountsInRange` add up the counts of
  branches, in 32 bits.
* `TrunkPivot.addTupleCounts` is the update of a pivot with its assertions.
* `trunkNodeReceiveBundles` is the operation on the node.
-/

namespace TreePass
namespace Trunk

open Btree (Key)

/-! ## Counting -/

/-- `BTREE_PIVOT_STATS` of nothing. -/
def btreeStatsZero : Btree.PivotStats := ⟨0, 0, 0⟩

/-- `trunk_pivot_stats_from_btree_pivot_stats`: the two byte counts are added in 32 bits. -/
def pivotStatsFromBtree (stats : Btree.PivotStats) : PivotStats :=
  ⟨((stats.keyBytes + stats.messageBytes) % 2 ^ 32 : Nat), stats.numKvs⟩

section

variable {K : Type} (countInRange : Nat → Key K → Key K → Btree.PivotStats)

/-- `accumulate_branch_tuple_counts_in_range`: each counter has 32 bits. -/
def accumulateBranchTupleCountsInRange (minkey maxkey : Key K) (acc : Btree.PivotStats)
    (bref : Nat) : Btree.PivotStats :=
  let stats := countInRange bref minkey maxkey
  ⟨(acc.numKvs + stats.numKvs) % 2 ^ 32, (acc.keyBytes + stats.keyBytes) % 2 ^ 32,
    (acc.messageBytes + stats.messageBytes) % 2 ^ 32⟩

/-- `accumulate_inflight_bundle_tuple_counts_in_range`, with
`accumulate_branches_tuple_counts_in_range`. -/
def accumulateBundleTupleCountsInRange (minkey maxkey : Key K) (acc : Btree.PivotStats)
    (bndl : Bundle) : Btree.PivotStats :=
  bndl.branches.foldl (accumulateBranchTupleCountsInRange countInRange minkey maxkey) acc

/-! ## Pivots -/

/-- `trunk_pivot_add_tuple_counts`; `none` if an assertion fails. -/
def TrunkPivot.addTupleCounts (pvt : TrunkPivot K) (coefficient : Int) (stats : PivotStats) :
    Option (TrunkPivot K) :=
  let counted : Option (TrunkPivot K) :=
    if coefficient = 1 then some { pvt with stats := pvt.stats.add stats }
    else if coefficient = -1 then
      if stats.numTuples ≤ pvt.stats.numTuples ∧ stats.numKvBytes ≤ pvt.stats.numKvBytes then
        some { pvt with stats := pvt.stats.subtract stats }
      else none
    else none
  counted.bind fun pvt' => if pvt'.stats.AreNonnegative then some pvt' else none

theorem TrunkPivot.addTupleCounts_one {pvt : TrunkPivot K} {stats : PivotStats}
    (hpvt : pvt.stats.AreNonnegative) (hstats : stats.AreNonnegative) :
    pvt.addTupleCounts 1 stats = some { pvt with stats := pvt.stats.add stats } := by
  have hsum : (pvt.stats.add stats).AreNonnegative :=
    ⟨Int.add_nonneg hpvt.1 hstats.1, Int.add_nonneg hpvt.2 hstats.2⟩
  unfold addTupleCounts
  show (if (pvt.stats.add stats).AreNonnegative then some _ else none) = some _
  rw [if_pos hsum]

theorem pivotStatsFromBtree_areNonnegative (stats : Btree.PivotStats) :
    (pivotStatsFromBtree stats).AreNonnegative := by
  constructor
  · exact Int.natCast_nonneg _
  · exact Int.natCast_nonneg _

/-! ## Nodes -/

/-- The counts of the received bundles in the range of a pivot. -/
def receivedCounts (bundles : List Bundle) (minkey maxkey : Key K) : Btree.PivotStats :=
  bundles.foldl (accumulateBundleTupleCountsInRange countInRange minkey maxkey) btreeStatsZero

/-- The loop of `trunk_node_receive_bundles` over the pivots: the last one is no child. -/
def receivePivots (bundles : List Bundle) : List (TrunkPivot K) → Option (List (TrunkPivot K))
  | [] => some []
  | [last] => some [last]
  | pvt :: next :: pivots => do
      let counts := receivedCounts countInRange bundles pvt.key next.key
      let pvt' ← pvt.addTupleCounts 1 (pivotStatsFromBtree counts)
      let pivots' ← receivePivots bundles (next :: pivots)
      some (pvt' :: pivots')

/-- `trunk_node_receive_bundles`: a pivot bundle without branches is counted, but not appended;
`none` if an assertion fails. -/
def trunkNodeReceiveBundles (node : TrunkNode K) (pivotBundle : Option Bundle)
    (inflight : List Bundle) (inflightStart : Nat) : Option (TrunkNode K) :=
  let received := pivotBundle.toList ++ inflight.drop inflightStart
  let appended := pivotBundle.toList.filter (fun bndl => !bndl.branches.isEmpty) ++
    inflight.drop inflightStart
  (receivePivots countInRange received node.pivots).map fun pivots =>
    { node with pivots := pivots, inflightBundles := node.inflightBundles ++ appended }

theorem trunkNodeReceiveBundles_leaf {node : TrunkNode K} {low high : TrunkPivot K}
    (hpivots : node.pivots = [low, high]) (hlow : low.stats.AreNonnegative)
    (pivotBundle : Option Bundle) (inflight : List Bundle) (inflightStart : Nat) :
    ∃ stats appended,
      trunkNodeReceiveBundles countInRange node pivotBundle inflight inflightStart = some
        { node with
          pivots := [{ low with stats := stats }, high]
          inflightBundles := node.inflightBundles ++ appended } := by
  have hadd : ∀ counts, low.addTupleCounts 1 (pivotStatsFromBtree counts) =
      some { low with stats := low.stats.add (pivotStatsFromBtree counts) } := by
    intro counts
    exact TrunkPivot.addTupleCounts_one hlow (pivotStatsFromBtree_areNonnegative counts)
  simp only [trunkNodeReceiveBundles, hpivots, receivePivots, hadd]
  exact ⟨_, _, rfl⟩

end

end Trunk
end TreePass
