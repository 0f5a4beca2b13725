import TreePass.Lib.Shares
import TreePass.Trunk.Node

/-!
# Splitting index nodes

An index node with more children than the target fanout is cut into nodes of consecutive children.
The in-flight bundles are copied to every new node, so that the places at which the pivots see them
stay the same.

* `WellFormedIndex` is what `index_split` asserts of the node and of every new one.
* `SplitsIndex` is what a split is for; `indexSplit_splits` is the result.
-/

namespace TreePass
namespace Trunk

open Btree (Key)

/-! ## The split -/

section

variable {K : Type}

/-- `index_init_split`: the node of the children from `startChildNum` to before `endChildNum`. -/
def indexInitSplit (index : TrunkNode K) (startChildNum endChildNum : Nat) : TrunkNode K where
  height := index.height
  pivots := Lib.segment index.pivots startChildNum (endChildNum + 1)
  pivotBundles := Lib.segment index.pivotBundles startChildNum endChildNum
  numOldBundles := index.numOldBundles
  inflightBundles := index.inflightBundles

/-- `num_nodes` of `index_split`. -/
def numSplitNodes (targetFanout : Nat) (index : TrunkNode K) : Nat :=
  (index.numChildren + targetFanout - 1) / targetFanout

/-- `index_split`. -/
def indexSplit (targetFanout : Nat) (index : TrunkNode K) : List (TrunkNode K) :=
  let numNodes := numSplitNodes targetFanout index
  (List.range numNodes).map fun i =>
    indexInitSplit index (i * index.numChildren / numNodes) ((i + 1) * index.numChildren / numNodes)

/-! ## The new nodes -/

/-- The place at which group `i` begins. -/
def groupStart (targetFanout : Nat) (index : TrunkNode K) (i : Nat) : Nat :=
  Lib.share index.numChildren (numSplitNodes targetFanout index) i

theorem indexSplit_eq (targetFanout : Nat) (index : TrunkNode K) : indexSplit targetFanout index =
    (List.range (numSplitNodes targetFanout index)).map fun i => indexInitSplit index
      (groupStart targetFanout index i) (groupStart targetFanout index (i + 1)) := rfl

variable {index : TrunkNode K} {start stop : Nat}

theorem length_pivots_indexInitSplit (hlt : start < stop) (hstop : stop < index.pivots.length) :
    (indexInitSplit index start stop).pivots.length = stop - start + 1 := by
  show (Lib.segment index.pivots start (stop + 1)).length = _
  rw [Lib.length_segment (Nat.succ_le_of_lt hstop)]
  omega

theorem numChildren_indexInitSplit (hlt : start < stop) (hstop : stop < index.pivots.length) :
    (indexInitSplit index start stop).numChildren = stop - start := by
  rw [TrunkNode.numChildren, length_pivots_indexInitSplit hlt hstop, Nat.add_sub_cancel]

theorem children_indexInitSplit (hlt : start < stop) (hstop : stop < index.pivots.length) :
    (indexInitSplit index start stop).children = Lib.segment index.children start stop := by
  have hchildren : index.children = index.pivots.take (index.pivots.length - 1) :=
    List.dropLast_eq_take
  show (Lib.segment index.pivots start (stop + 1)).dropLast = _
  rw [Lib.dropLast_segment hlt.le hstop, hchildren, Lib.segment, Lib.segment, List.drop_take,
    List.take_take, Nat.min_eq_left (by omega)]

theorem getElem?_keys_indexInitSplit {i : Nat} (hi : start + i ≤ stop) :
    (indexInitSplit index start stop).keys[i]? = index.keys[start + i]? := by
  show ((Lib.segment index.pivots start (stop + 1)).map (·.key))[i]? = _
  rw [Lib.map_segment, Lib.getElem?_segment (by omega)]
  rfl

end

/-! ## Well-formed nodes -/

section

variable {K : Type} [LinearOrder K]

/-- `trunk_node_is_well_formed_index`. -/
structure WellFormedIndex (node : TrunkNode K) : Prop where
  height_pos : 0 < node.height
  one_lt : 1 < node.pivots.length
  bundles_length : node.pivotBundles.length = node.pivots.length - 1
  old_le : node.numOldBundles ≤ node.inflightBundles.length
  child_ne_zero : ∀ pvt ∈ node.children, pvt.childWord ≠ 0
  start_le : ∀ pvt ∈ node.children, pvt.inflightBundleStart ≤ node.inflightBundles.length
  key_lt : ∀ i lbkey ubkey, node.keys[i]? = some lbkey → node.keys[i + 1]? = some ubkey →
    lbkey < ubkey
  stats_nonneg : ∀ pvt ∈ node.children, pvt.prereceiveStats.AreNonnegative ∧ pvt.stats.AreNonnegative

theorem WellFormedIndex.sorted {node : TrunkNode K} (h : WellFormedIndex node) :
    node.keys.Pairwise (· < ·) := by
  refine List.isChain_iff_pairwise.mp (List.isChain_iff_getElem.mpr fun i hi => ?_)
  exact h.key_lt i _ _ (List.getElem?_eq_getElem (by omega)) (List.getElem?_eq_getElem hi)

/-- What a split of an index node is for. -/
structure SplitsIndex (targetFanout : Nat) (index : TrunkNode K) (new : List (TrunkNode K)) :
    Prop where
  /-- The groups are consecutive and have all children, each with its bundle. -/
  children : new.flatMap (·.children) = index.children
  bundles : new.flatMap (·.pivotBundles) = index.pivotBundles
  nonempty : ∀ node ∈ new, 0 < node.numChildren
  le_fanout : ∀ node ∈ new, node.numChildren ≤ targetFanout
  formed : ∀ node ∈ new, WellFormedIndex node
  /-- A new node begins with the bound of its first child and ends with that of its last one, and its
  bundles are those of its children. -/
  bounds : ∀ node ∈ new, ∃ start, start + node.numChildren < index.pivots.length ∧
    node.pivots = Lib.segment index.pivots start (start + node.numChildren + 1) ∧
    node.pivotBundles = Lib.segment index.pivotBundles start (start + node.numChildren)
  /-- The places at which the pivots see the in-flight bundles are places in the same list. -/
  inflight : ∀ node ∈ new, node.inflightBundles = index.inflightBundles ∧
    node.numOldBundles = index.numOldBundles ∧ node.height = index.height

variable {index : TrunkNode K} {start stop : Nat}

theorem WellFormedIndex.initSplit (h : WellFormedIndex index) (hlt : start < stop)
    (hstop : stop < index.pivots.length) : WellFormedIndex (indexInitSplit index start stop) := by
  have hchildren : (indexInitSplit index start stop).children = _ :=
    children_indexInitSplit hlt hstop
  have hmem : ∀ pvt ∈ (indexInitSplit index start stop).children, pvt ∈ index.children := by
    intro pvt hpvt
    rw [hchildren] at hpvt
    exact (Lib.segment_sublist _ _ _).subset hpvt
  constructor
  · exact h.height_pos
  · rw [length_pivots_indexInitSplit hlt hstop]
    omega
  · rw [length_pivots_indexInitSplit hlt hstop, Nat.add_sub_cancel]
    show (Lib.segment index.pivotBundles start stop).length = _
    rw [Lib.length_segment]
    rw [h.bundles_length]
    omega
  · exact h.old_le
  · exact fun pvt hpvt => h.child_ne_zero pvt (hmem pvt hpvt)
  · exact fun pvt hpvt => h.start_le pvt (hmem pvt hpvt)
  · intro i lbkey ubkey hlb hub
    have hi : i + 1 < (indexInitSplit index start stop).keys.length :=
      (List.getElem?_eq_some_iff.mp hub).1
    rw [TrunkNode.keys, List.length_map, length_pivots_indexInitSplit hlt hstop] at hi
    rw [getElem?_keys_indexInitSplit (by omega)] at hlb hub
    exact h.key_lt _ _ _ hlb hub
  · exact fun pvt hpvt => h.stats_nonneg pvt (hmem pvt hpvt)

/-! ## All new nodes -/

variable {targetFanout : Nat}

/-- What the places of the groups are. -/
structure Grouped (targetFanout : Nat) (index : TrunkNode K) : Prop where
  numNodes_pos : 0 < numSplitNodes targetFanout index
  numNodes_le : numSplitNodes targetFanout index ≤ index.numChildren
  le_mul : index.numChildren ≤ numSplitNodes targetFanout index * targetFanout

theorem WellFormedIndex.grouped (h : WellFormedIndex index) (hfanout : 0 < targetFanout) :
    Grouped targetFanout index := by
  have hpos : 0 < index.numChildren := by
    have := h.one_lt
    unfold TrunkNode.numChildren
    omega
  exact ⟨Lib.sharesFor_pos hpos hfanout, Lib.sharesFor_le hpos hfanout, Lib.le_sharesFor_mul hfanout⟩

theorem WellFormedIndex.group (h : WellFormedIndex index) (hfanout : 0 < targetFanout) {i : Nat}
    (hi : i < numSplitNodes targetFanout index) :
    groupStart targetFanout index i < groupStart targetFanout index (i + 1) ∧
      groupStart targetFanout index (i + 1) ≤ groupStart targetFanout index i + targetFanout ∧
      groupStart targetFanout index (i + 1) < index.pivots.length := by
  have hgrouped := h.grouped hfanout
  refine ⟨Lib.share_lt_succ hgrouped.numNodes_pos hgrouped.numNodes_le i,
    Lib.share_succ_le hgrouped.numNodes_pos hgrouped.le_mul i, ?_⟩
  have hlast : Lib.share index.numChildren (numSplitNodes targetFanout index) (i + 1) ≤
      Lib.share index.numChildren (numSplitNodes targetFanout index)
        (numSplitNodes targetFanout index) :=
    Lib.share_le_of_le _ _ (Nat.succ_le_of_lt hi)
  rw [Lib.share_self hgrouped.numNodes_pos] at hlast
  have hone := h.one_lt
  have hchildren : index.numChildren = index.pivots.length - 1 := rfl
  unfold groupStart
  omega

theorem indexSplit_splits (h : WellFormedIndex index) (hfanout : 0 < targetFanout) :
    SplitsIndex targetFanout index (indexSplit targetFanout index) := by
  have hgrouped := h.grouped hfanout
  have hnode : ∀ node ∈ indexSplit targetFanout index, ∃ i, i < numSplitNodes targetFanout index ∧
      node = indexInitSplit index (groupStart targetFanout index i)
        (groupStart targetFanout index (i + 1)) := by
    intro node hmem
    rw [indexSplit_eq] at hmem
    obtain ⟨i, hi, rfl⟩ := List.mem_map.mp hmem
    exact ⟨i, List.mem_range.mp hi, rfl⟩
  have hall : ∀ {α : Type} (l : List α), l.length = index.numChildren →
      (List.range (numSplitNodes targetFanout index)).flatMap (fun i => Lib.segment l
        (groupStart targetFanout index i) (groupStart targetFanout index (i + 1))) = l := by
    intro α l hlen
    rw [Lib.flatMap_segments l (groupStart targetFanout index) (Lib.share_zero _ _)
      fun i => Lib.share_le_succ _ _ i]
    rw [groupStart, Lib.share_self hgrouped.numNodes_pos, ← hlen, List.take_length]
  constructor
  · rw [indexSplit_eq, List.flatMap_map]
    refine Eq.trans (List.flatMap_congr fun i hi => ?_) (hall index.children List.length_dropLast)
    obtain ⟨hlt, -, hstop⟩ := h.group hfanout (List.mem_range.mp hi)
    exact children_indexInitSplit hlt hstop
  · rw [indexSplit_eq, List.flatMap_map]
    exact hall index.pivotBundles h.bundles_length
  · intro node hmem
    obtain ⟨i, hi, rfl⟩ := hnode node hmem
    obtain ⟨hlt, -, hstop⟩ := h.group hfanout hi
    rw [numChildren_indexInitSplit hlt hstop]
    omega
  · intro node hmem
    obtain ⟨i, hi, rfl⟩ := hnode node hmem
    obtain ⟨hlt, hle, hstop⟩ := h.group hfanout hi
    rw [numChildren_indexInitSplit hlt hstop]
    omega
  · intro node hmem
    obtain ⟨i, hi, rfl⟩ := hnode node hmem
    obtain ⟨hlt, -, hstop⟩ := h.group hfanout hi
    exact h.initSplit hlt hstop
  · intro node hmem
    obtain ⟨i, hi, rfl⟩ := hnode node hmem
    obtain ⟨hlt, -, hstop⟩ := h.group hfanout hi
    refine ⟨groupStart targetFanout index i, ?_⟩
    rw [numChildren_indexInitSplit hlt hstop, Nat.add_sub_cancel' hlt.le]
    exact ⟨hstop, rfl, rfl⟩
  · intro node hmem
    obtain ⟨i, -, rfl⟩ := hnode node hmem
    exact ⟨rfl, rfl, rfl⟩

end

end Trunk
end TreePass
