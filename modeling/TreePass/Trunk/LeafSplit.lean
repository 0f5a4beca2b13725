import TreePass.Merge.Drain
import TreePass.Trunk.ReceiveBundles

/-!
# Splitting a leaf

A leaf that has become too large is split at pivots of its branches.  A raw merge lists the pivots
of all branches in key order, each with the statistics of the part of its branch below it, and a
pivot is selected whenever the bytes listed so far pass the next boundary or the tuples the limit.

* `selectLoop` is the loop, and `leafSplitSelectPivots` and `leafSplit` are the two functions.
* `SelectedAt` says at which places of the list a pivot is selected: the keys play no part in it.
* `SplitsLeaf` says what a split should be, and `TieFree` when it is one.
-/

namespace TreePass
namespace Trunk

open Btree (Key)
open Merge (mergeDrain)
open Lib (Cursor)

/-! ## The target -/

/-- The limits of `trunk_config` that a leaf split reads, with
`routing_filter_max_fingerprints`. -/
structure LeafSplitConfig where
  rflimit : Nat
  incorporationSizeKvBytes : Nat
  targetFanout : Nat

section

variable {K : Type} (cfg : LeafSplitConfig)

/-- The counts of the only pivot of a leaf, read as `uint64`. -/
def leafStat (field : PivotStats → Int) (leaf : TrunkNode K) : Nat :=
  match leaf.pivots with
  | pvt :: _ => (field pvt.stats % 2 ^ 64).toNat
  | [] => 0

/-- `trunk_leaf_num_tuples`. -/
def leafNumTuples (leaf : TrunkNode K) : Nat := leafStat PivotStats.numTuples leaf

/-- `trunk_leaf_num_kv_bytes`. -/
def leafNumKvBytes (leaf : TrunkNode K) : Nat := leafStat PivotStats.numKvBytes leaf

/-- `leaf_might_need_to_split`. -/
def leafMightNeedToSplit (leaf : TrunkNode K) : Bool :=
  decide (cfg.rflimit < leafNumTuples leaf) ||
    decide (cfg.incorporationSizeKvBytes * cfg.targetFanout % 2 ^ 64 < leafNumKvBytes leaf)

/-- `leaf_split_target_num_leaves`; `estimate` is what `leaf_estimate_unique_keys` returns. -/
def leafSplitTargetNumLeaves (estimate : Result Nat) (leaf : TrunkNode K) : Result Nat :=
  if leafMightNeedToSplit cfg leaf then do
    let estimated ← estimate
    let numTuples := leafNumTuples leaf
    let uniqueKeys := if numTuples * 19 % 2 ^ 64 / 20 < estimated then numTuples else estimated
    let kvBytes := uniqueKeys * leafNumKvBytes leaf % 2 ^ 64 / numTuples
    let byBytes :=
      (kvBytes + cfg.incorporationSizeKvBytes / 2) % 2 ^ 64 / cfg.incorporationSizeKvBytes
    let byTuples := (numTuples + cfg.rflimit - 1) % 2 ^ 64 / cfg.rflimit
    let target := if byBytes < byTuples then byTuples else byBytes
    pure (if target < 1 then 1 else target)
  else pure 1

end

/-! ## Selecting pivots -/

/-- What the loop compares with: the limit of tuples, the bytes of the leaf and the target. -/
structure SplitGoal where
  rflimit : Nat
  kvBytes : Nat
  targetNumLeaves : Nat

/-- The variables of the loop. -/
structure Selection where
  leafNum : Nat
  cumulativeKvBytes : Nat
  currentTuples : Nat
  deriving DecidableEq, Repr

namespace SplitGoal

variable (goal : SplitGoal)

def start : Selection := ⟨1, 0, 0⟩

/-- `new_cumulative_kv_bytes`. -/
def newCumulative (st : Selection) (stats : Btree.PivotStats) : Nat :=
  (st.cumulativeKvBytes + stats.keyBytes + stats.messageBytes) % 2 ^ 64

/-- `next_boundary`. -/
def nextBoundary (st : Selection) : Nat := st.leafNum * goal.kvBytes % 2 ^ 64 / goal.targetNumLeaves

/-- Whether a pivot is selected: the bytes pass the next boundary, or the tuples the limit. -/
def selects (st : Selection) (stats : Btree.PivotStats) : Bool :=
  (decide (st.cumulativeKvBytes < goal.nextBoundary st) &&
      decide (goal.nextBoundary st ≤ newCumulative st stats)) ||
    decide (goal.rflimit < (st.currentTuples + stats.numKvs) % 2 ^ 64)

def advance (st : Selection) (stats : Btree.PivotStats) : Selection where
  leafNum := if goal.selects st stats then st.leafNum + 1 else st.leafNum
  cumulativeKvBytes := newCumulative st stats
  currentTuples :=
    if goal.selects st stats then stats.numKvs else (st.currentTuples + stats.numKvs) % 2 ^ 64

end SplitGoal

def ofLittleEndian (bytes : List UInt8) : Nat := bytes.foldr (fun b n => b.toNat + 256 * n) 0

/-- The statistics in the `btree_pivot_data` that an iterator over pivots returns as a message. -/
def pivotDataStats (m : Message) : Btree.PivotStats where
  numKvs := ofLittleEndian ((m.data.drop 8).take 4)
  keyBytes := ofLittleEndian ((m.data.drop 12).take 4)
  messageBytes := ofLittleEndian ((m.data.drop 16).take 4)

section

variable {K : Type}

/-- The loop of `leaf_split_select_pivots`: the selected keys. -/
def selectLoop (goal : SplitGoal) (st : Selection) : List (Tuple (Key K)) → List (Key K)
  | [] => []
  | curr :: rest =>
      if st.leafNum < goal.targetNumLeaves then
        let stats := pivotDataStats curr.msg
        if goal.selects st stats then curr.key :: selectLoop goal (goal.advance st stats) rest
        else selectLoop goal (goal.advance st stats) rest
      else []

/-- What `btree_iterator_init` gives for a branch: at its first pivot from the lower bound on, with
the pivots of the branch in order and none of them outside the bounds. -/
structure PivotIterator [LinearOrder K] (minKey maxKey : Key K) where
  cursor : Cursor (Tuple (Key K))
  ordered : cursor.items.Pairwise fun a b => a.key < b.key
  inside : ∀ t ∈ cursor.remaining true, minKey ≤ t.key ∧ t.key < maxKey

def TrunkNode.bounds? (leaf : TrunkNode K) : Option (Key K × Key K) :=
  match leaf.pivots with
  | [low, high] => some (low.key, high.key)
  | _ => none

/-- The branches of a leaf, as `leaf_split_select_pivots` adds them to its merger. -/
def leafBranches (leaf : TrunkNode K) : List Nat :=
  match leaf.pivots, leaf.pivotBundles with
  | first :: _, bndl :: _ =>
      bndl.branches ++ (leaf.inflightBundles.drop first.inflightBundleStart).flatMap (·.branches)
  | _, _ => []

variable [LinearOrder K] (dataCfg : DataConfig (Key K)) (cfg : LeafSplitConfig)
  (openBranch : Nat → (minKey maxKey : Key K) → PivotIterator minKey maxKey)
  (countInRange : Nat → Key K → Key K → Btree.PivotStats)

def leafIterators (leaf : TrunkNode K) (minKey maxKey : Key K) : List (Cursor (Tuple (Key K))) :=
  (leafBranches leaf).map fun bref => (openBranch bref minKey maxKey).cursor

/-- The pivots of all branches of a leaf, in the order of the raw merge. -/
def mergedPivots (leaf : TrunkNode K) (minKey maxKey : Key K) : Result (List (Tuple (Key K))) := do
  let itors := leafIterators openBranch leaf minKey maxKey
  let fuel := (itors.flatMap (·.remaining true)).length + 1
  let merged ← mergeDrain dataCfg fuel itors .raw true
  pure (merged.filterMap id)

def leafGoal (leaf : TrunkNode K) (targetNumLeaves : Nat) : SplitGoal :=
  ⟨cfg.rflimit, leafNumKvBytes leaf, targetNumLeaves⟩

/-- `leaf_split_select_pivots`. -/
def leafSplitSelectPivots (leaf : TrunkNode K) (targetNumLeaves : Nat) : Result (List (Key K)) :=
  match leaf.bounds? with
  | some (minKey, maxKey) => do
      let merged ← mergedPivots dataCfg openBranch leaf minKey maxKey
      let selected := selectLoop (leafGoal cfg leaf targetNumLeaves) SplitGoal.start merged
      pure (minKey :: selected ++ [maxKey])
  | none => ExceptT.mk none

/-! ## The new leaves -/

omit [LinearOrder K] in
/-- `trunk_node_init_empty_leaf`. -/
def trunkNodeInitEmptyLeaf (lb ub : Key K) : TrunkNode K where
  height := 0
  pivots := [⟨lb, 0, 0, .zero, .zero⟩, ⟨ub, 0, 0, .zero, .zero⟩]
  pivotBundles := [emptyBundle]
  numOldBundles := 0
  inflightBundles := []

omit [LinearOrder K] in
/-- `leaf_split_init`; its assertion that the leaf is well formed is not part of it. -/
def leafSplitInit (leaf : TrunkNode K) (minKey maxKey : Key K) : Option (TrunkNode K) :=
  match leaf.pivots with
  | pvt :: _ => trunkNodeReceiveBundles countInRange (trunkNodeInitEmptyLeaf minKey maxKey)
      leaf.pivotBundles.head? leaf.inflightBundles pvt.inflightBundleStart
  | [] => none

omit [LinearOrder K] in
/-- The loop of `leaf_split` over neighbouring pivots. -/
def createLeaves (leaf : TrunkNode K) : List (Key K) → Option (List (TrunkNode K))
  | minKey :: maxKey :: pivots => do
      let newLeaf ← leafSplitInit countInRange leaf minKey maxKey
      let newLeaves ← createLeaves leaf (maxKey :: pivots)
      some (newLeaf :: newLeaves)
  | _ => some []

/-- `leaf_split`; `eventualNumBranches` is what `trunk_node_pivot_eventual_num_branches` counts. -/
def leafSplit (estimate : Result Nat) (eventualNumBranches : Nat) (leaf : TrunkNode K) :
    Result (List (TrunkNode K)) := do
  let targetNumLeaves ← leafSplitTargetNumLeaves cfg estimate leaf
  if targetNumLeaves = 1 ∧ eventualNumBranches ≤ cfg.targetFanout then
    pure [leaf]
  else do
    let pivots ← leafSplitSelectPivots dataCfg cfg openBranch leaf targetNumLeaves
    ExceptT.mk ((createLeaves countInRange leaf pivots).map .ok)

end

/-! ## Where pivots are selected -/

section

variable {K : Type} (goal : SplitGoal)

/-- The variables of the loop before place `i` of the list. -/
def stateAt (st : Selection) (merged : List (Tuple (Key K))) (i : Nat) : Selection :=
  (merged.take i).foldl (fun st curr => goal.advance st (pivotDataStats curr.msg)) st

/-- The loop is still running at place `i` of the list, and a limit is passed there. -/
def SelectedAt (st : Selection) (merged : List (Tuple (Key K))) (i : Nat)
    (curr : Tuple (Key K)) : Prop :=
  merged[i]? = some curr ∧ (stateAt goal st merged i).leafNum < goal.targetNumLeaves ∧
    goal.selects (stateAt goal st merged i) (pivotDataStats curr.msg) = true

/-- The pivots at which a limit is passed have different keys, and none of them is the lower
bound. -/
structure TieFree (st : Selection) (minKey : Key K) (merged : List (Tuple (Key K))) : Prop where
  ne_minKey : ∀ i curr, SelectedAt goal st merged i curr → curr.key ≠ minKey
  distinct : ∀ i j a b, SelectedAt goal st merged i a → SelectedAt goal st merged j b →
    i ≠ j → a.key ≠ b.key

variable {goal} {st : Selection} {curr : Tuple (Key K)} {rest : List (Tuple (Key K))}

theorem selectedAt_zero {c : Tuple (Key K)} :
    SelectedAt goal st (curr :: rest) 0 c ↔
      c = curr ∧ st.leafNum < goal.targetNumLeaves ∧
        goal.selects st (pivotDataStats curr.msg) = true := by
  constructor
  · rintro ⟨hget, hlt, hsel⟩
    obtain rfl : curr = c := Option.some.inj hget
    exact ⟨rfl, hlt, hsel⟩
  · rintro ⟨rfl, hlt, hsel⟩
    exact ⟨rfl, hlt, hsel⟩

theorem selectedAt_succ {c : Tuple (Key K)} {i : Nat} :
    SelectedAt goal st (curr :: rest) (i + 1) c ↔
      SelectedAt goal (goal.advance st (pivotDataStats curr.msg)) rest i c := Iff.rfl

theorem leafNum_le_advance (stats : Btree.PivotStats) :
    st.leafNum ≤ (goal.advance st stats).leafNum := by
  unfold SplitGoal.advance
  show st.leafNum ≤ if goal.selects st stats then st.leafNum + 1 else st.leafNum
  split <;> omega

theorem not_selectedAt {merged : List (Tuple (Key K))} {i : Nat} {c : Tuple (Key K)}
    (h : goal.targetNumLeaves ≤ st.leafNum) : ¬ SelectedAt goal st merged i c := by
  induction merged generalizing st i with
  | nil =>
      rintro ⟨hget, -⟩
      cases hget
  | cons curr rest ih =>
      cases i with
      | zero =>
          intro hsel
          have := (selectedAt_zero.mp hsel).2.1
          omega
      | succ i =>
          intro hsel
          exact ih (h.trans (leafNum_le_advance _)) (selectedAt_succ.mp hsel)

theorem tieFree_cons_of_not {minKey : Key K}
    (hsel : ¬ goal.selects st (pivotDataStats curr.msg) = true) :
    TieFree goal st minKey (curr :: rest) ↔
      TieFree goal (goal.advance st (pivotDataStats curr.msg)) minKey rest := by
  have hzero : ∀ c, ¬ SelectedAt goal st (curr :: rest) 0 c := by
    intro c h
    exact hsel (selectedAt_zero.mp h).2.2
  constructor
  · intro h
    constructor
    · intro i c hi
      exact h.ne_minKey (i + 1) c hi
    · intro i j a b hi hj hne
      exact h.distinct (i + 1) (j + 1) a b hi hj (by omega)
  · intro h
    constructor
    · intro i c hi
      cases i with
      | zero => exact absurd hi (hzero c)
      | succ i => exact h.ne_minKey i c hi
    · intro i j a b hi hj hne
      cases i with
      | zero => exact absurd hi (hzero a)
      | succ i =>
          cases j with
          | zero => exact absurd hj (hzero b)
          | succ j => exact h.distinct i j a b hi hj (by omega)

/-! ## What the loop selects -/

theorem selectLoop_of_selects (hlive : st.leafNum < goal.targetNumLeaves)
    (hsel : goal.selects st (pivotDataStats curr.msg) = true) :
    selectLoop goal st (curr :: rest) =
      curr.key :: selectLoop goal (goal.advance st (pivotDataStats curr.msg)) rest := by
  rw [selectLoop, if_pos hlive]
  exact if_pos hsel

theorem selectLoop_of_not (hlive : st.leafNum < goal.targetNumLeaves)
    (hsel : ¬ goal.selects st (pivotDataStats curr.msg) = true) :
    selectLoop goal st (curr :: rest) =
      selectLoop goal (goal.advance st (pivotDataStats curr.msg)) rest := by
  rw [selectLoop, if_pos hlive]
  exact if_neg hsel

theorem selectLoop_of_done (hdone : ¬ st.leafNum < goal.targetNumLeaves) :
    selectLoop goal st (curr :: rest) = [] := by
  rw [selectLoop, if_neg hdone]

theorem length_selectLoop_le (goal : SplitGoal) (merged : List (Tuple (Key K))) :
    ∀ st : Selection, (selectLoop goal st merged).length ≤ goal.targetNumLeaves - st.leafNum := by
  induction merged with
  | nil => intro st; exact Nat.zero_le _
  | cons curr rest ih =>
      intro st
      by_cases hlive : st.leafNum < goal.targetNumLeaves
      · have hrest := ih (goal.advance st (pivotDataStats curr.msg))
        by_cases hsel : goal.selects st (pivotDataStats curr.msg) = true
        · have hnum : (goal.advance st (pivotDataStats curr.msg)).leafNum = st.leafNum + 1 :=
            if_pos hsel
          rw [selectLoop_of_selects hlive hsel, List.length_cons]
          omega
        · have hnum : (goal.advance st (pivotDataStats curr.msg)).leafNum = st.leafNum :=
            if_neg hsel
          rw [selectLoop_of_not hlive hsel]
          omega
      · rw [selectLoop_of_done hlive]
        exact Nat.zero_le _

theorem exists_of_mem_selectLoop {k : Key K} (merged : List (Tuple (Key K))) :
    ∀ st : Selection, k ∈ selectLoop goal st merged → ∃ t ∈ merged, t.key = k := by
  induction merged with
  | nil => intro st hk; cases hk
  | cons curr rest ih =>
      intro st hk
      by_cases hlive : st.leafNum < goal.targetNumLeaves
      · by_cases hsel : goal.selects st (pivotDataStats curr.msg) = true
        · rw [selectLoop_of_selects hlive hsel] at hk
          rcases List.mem_cons.mp hk with rfl | hk
          · exact ⟨curr, List.mem_cons_self, rfl⟩
          · obtain ⟨t, ht, hkey⟩ := ih _ hk
            exact ⟨t, List.mem_cons_of_mem _ ht, hkey⟩
        · rw [selectLoop_of_not hlive hsel] at hk
          obtain ⟨t, ht, hkey⟩ := ih _ hk
          exact ⟨t, List.mem_cons_of_mem _ ht, hkey⟩
      · rw [selectLoop_of_done hlive] at hk
        cases hk

variable [LinearOrder K]

theorem tieFree_cons_of_selects {minKey : Key K} (hlive : st.leafNum < goal.targetNumLeaves)
    (hsel : goal.selects st (pivotDataStats curr.msg) = true) (hmin : minKey ≤ curr.key)
    (hsorted : ∀ t ∈ rest, curr.key ≤ t.key) :
    TieFree goal st minKey (curr :: rest) ↔
      minKey < curr.key ∧
        TieFree goal (goal.advance st (pivotDataStats curr.msg)) curr.key rest := by
  have hzero : SelectedAt goal st (curr :: rest) 0 curr :=
    selectedAt_zero.mpr ⟨rfl, hlive, hsel⟩
  have heq : ∀ c, SelectedAt goal st (curr :: rest) 0 c → c = curr := fun c h =>
    (selectedAt_zero.mp h).1
  constructor
  · intro h
    refine ⟨lt_of_le_of_ne hmin fun he => h.ne_minKey 0 curr hzero he.symm, ?_, ?_⟩
    · intro i c hi
      exact h.distinct (i + 1) 0 c curr hi hzero (by omega)
    · intro i j a b hi hj hne
      exact h.distinct (i + 1) (j + 1) a b hi hj (by omega)
  · rintro ⟨hlt, h⟩
    constructor
    · intro i c hi
      cases i with
      | zero =>
          rw [heq c hi]
          exact ne_of_gt hlt
      | succ i =>
          have hle := hsorted c (List.mem_of_getElem? (selectedAt_succ.mp hi).1)
          exact ne_of_gt (lt_of_lt_of_le hlt hle)
    · intro i j a b hi hj hne
      cases i with
      | zero =>
          rw [heq a hi]
          cases j with
          | zero => exact absurd rfl hne
          | succ j => exact (h.ne_minKey j b hj).symm
      | succ i =>
          cases j with
          | zero =>
              rw [heq b hj]
              exact h.ne_minKey i a hi
          | succ j => exact h.distinct i j a b hi hj (by omega)

theorem selectLoop_increasing_iff (merged : List (Tuple (Key K))) {st : Selection}
    {minKey : Key K} (hsorted : merged.Pairwise fun a b => a.key ≤ b.key)
    (hmin : ∀ t ∈ merged, minKey ≤ t.key) :
    (minKey :: selectLoop goal st merged).Pairwise (· < ·) ↔ TieFree goal st minKey merged := by
  induction merged generalizing st minKey with
  | nil =>
      refine iff_of_true (List.pairwise_singleton _ _) ⟨?_, ?_⟩
      · rintro i c ⟨hget, -⟩
        cases hget
      · rintro i j a b ⟨hget, -⟩
        cases hget
  | cons curr rest ih =>
      obtain ⟨hhead, hrest⟩ := List.pairwise_cons.mp hsorted
      have hcurr := hmin curr List.mem_cons_self
      by_cases hlive : st.leafNum < goal.targetNumLeaves
      · by_cases hsel : goal.selects st (pivotDataStats curr.msg) = true
        · rw [selectLoop_of_selects hlive hsel, tieFree_cons_of_selects hlive hsel hcurr hhead,
            ← ih hrest hhead]
          constructor
          · intro h
            obtain ⟨hlt, htail⟩ := List.pairwise_cons.mp h
            exact ⟨hlt _ List.mem_cons_self, htail⟩
          · rintro ⟨hlt, htail⟩
            refine List.pairwise_cons.mpr ⟨?_, htail⟩
            intro k hk
            rcases List.mem_cons.mp hk with rfl | hk
            · exact hlt
            · exact hlt.trans ((List.pairwise_cons.mp htail).1 k hk)
        · rw [selectLoop_of_not hlive hsel, tieFree_cons_of_not hsel]
          exact ih hrest fun t ht => hmin t (List.mem_cons_of_mem _ ht)
      · rw [selectLoop_of_done hlive]
        refine iff_of_true (List.pairwise_singleton _ _) ⟨?_, ?_⟩
        · intro i c hi
          exact absurd hi (not_selectedAt (by omega))
        · intro i j a b hi
          exact absurd hi (not_selectedAt (by omega))

end

/-! ## The merged pivots -/

section

variable {K : Type} [LinearOrder K] (dataCfg : DataConfig (Key K))
  {openBranch : Nat → (minKey maxKey : Key K) → PivotIterator minKey maxKey}

private theorem exists_of_bind_eq_pure {α β : Type} {x : Result α} {f : α → Result β} {b : β}
    (h : x >>= f = pure b) : ∃ a, x = pure a ∧ f a = pure b := by
  cases hx : x.run with
  | none =>
      obtain rfl : x = ExceptT.mk none := hx
      cases h
  | some r =>
      obtain rfl : x = ExceptT.mk (some r) := hx
      cases r with
      | error e => cases h
      | ok a => exact ⟨a, rfl, h⟩

private theorem length_lt_of_mergeIteratorCreate {fuel : Nat}
    {itors : List (Cursor (Tuple (Key K)))} {it : Merge.MergeIterator (Key K)}
    (h : Merge.mergeIteratorCreate dataCfg fuel itors .raw true = pure it) :
    itors.length < Merge.maxMergeArity := by
  unfold Merge.mergeIteratorCreate at h
  by_cases hge : itors.length ≥ Merge.maxMergeArity
  · rw [if_pos hge] at h
    cases h
  · omega

private theorem mergeDrain_leafIterators {leaf : TrunkNode K} {minKey maxKey : Key K}
    (harity : (leafIterators openBranch leaf minKey maxKey).length < Merge.maxMergeArity) :
    ∃ out : List (Tuple (Key K)),
      mergedPivots dataCfg openBranch leaf minKey maxKey = pure out ∧
      (out.Pairwise fun a b => a.key ≤ b.key) ∧ ∀ t ∈ out, minKey ≤ t.key ∧ t.key < maxKey := by
  have hopen : ∀ c ∈ leafIterators openBranch leaf minKey maxKey,
      ∃ bref, (openBranch bref minKey maxKey).cursor = c := by
    intro c hc
    obtain ⟨bref, -, hcur⟩ := List.mem_map.mp hc
    exact ⟨bref, hcur⟩
  have hordered : ∀ c ∈ leafIterators openBranch leaf minKey maxKey,
      c.items.Pairwise fun a b => a.key < b.key := by
    intro c hc
    obtain ⟨bref, rfl⟩ := hopen c hc
    exact (openBranch bref minKey maxKey).ordered
  obtain ⟨-, -, -, hraw⟩ := Merge.mergeDrain_yields dataCfg .raw true _
    (leafIterators openBranch leaf minKey maxKey) harity hordered (Nat.lt_succ_self _)
  obtain ⟨out, hout, hperm, hsorted⟩ := hraw rfl
  have hid : (out.map some).filterMap id = out := by
    rw [List.filterMap_map]
    exact List.filterMap_some
  refine ⟨out, ?_, hsorted.imp fun h => le_of_not_gt h, ?_⟩
  · unfold mergedPivots
    show (mergeDrain dataCfg _ _ .raw true >>= fun merged => pure (merged.filterMap id)) = pure out
    rw [hout, pure_bind, hid]
  · intro t ht
    obtain ⟨c, hc, htc⟩ := List.mem_flatMap.mp (hperm.mem_iff.mp ht)
    obtain ⟨bref, rfl⟩ := hopen c hc
    exact (openBranch bref minKey maxKey).inside t htc

theorem mergedPivots_spec {leaf : TrunkNode K} {minKey maxKey : Key K}
    {merged : List (Tuple (Key K))}
    (hrun : mergedPivots dataCfg openBranch leaf minKey maxKey = pure merged) :
    (merged.Pairwise fun a b => a.key ≤ b.key) ∧
      ∀ t ∈ merged, minKey ≤ t.key ∧ t.key < maxKey := by
  obtain ⟨drained, hdrain, -⟩ := exists_of_bind_eq_pure hrun
  obtain ⟨it, hcreate, -⟩ := exists_of_bind_eq_pure hdrain
  obtain ⟨out, hout, hspec⟩ := mergeDrain_leafIterators dataCfg
    (length_lt_of_mergeIteratorCreate dataCfg hcreate)
  cases hrun.symm.trans hout
  exact hspec

end

/-! ## What a split should be -/

section

variable {K : Type} [LinearOrder K]

/-- `trunk_node_is_well_formed_leaf`. -/
structure WellFormedLeaf (node : TrunkNode K) : Prop where
  height_eq : node.height = 0
  pivots_eq : ∃ lb ub, node.pivots = [lb, ub] ∧ lb.childAddr = 0 ∧ lb.key < ub.key
  length_bundles : node.pivotBundles.length = 1
  numOldBundles_le : node.numOldBundles ≤ node.inflightBundles.length

def TrunkNode.Covers (leaf : TrunkNode K) (k : Key K) : Prop :=
  ∃ low high, leaf.bounds? = some (low, high) ∧ low ≤ k ∧ k < high

/-- The new leaves are well formed, and their ranges partition the range of the old leaf. -/
structure PartitionsLeaf (leaf : TrunkNode K) (newLeaves : List (TrunkNode K)) : Prop where
  formed : ∀ newLeaf ∈ newLeaves, WellFormedLeaf newLeaf
  covers_iff : ∀ k, (∃ newLeaf ∈ newLeaves, newLeaf.Covers k) ↔ leaf.Covers k
  disjoint : newLeaves.Pairwise fun a b => ∀ k, a.Covers k → ¬ b.Covers k

/-- The pivots and the leaves that are made of them are those of a split into at most
`targetNumLeaves` leaves. -/
structure SplitsLeaf (leaf : TrunkNode K) (targetNumLeaves : Nat) (pivots : List (Key K))
    (newLeaves : List (TrunkNode K)) : Prop where
  length_le : pivots.length ≤ targetNumLeaves + 1
  bounds_eq : ∃ low high, leaf.bounds? = some (low, high) ∧ pivots.head? = some low ∧
    pivots.getLast? = some high
  increasing : pivots.Pairwise (· < ·)
  partitions : PartitionsLeaf leaf newLeaves

/-! ## The new leaves -/

theorem covers_of_bounds {leaf : TrunkNode K} {low high : Key K}
    (h : leaf.bounds? = some (low, high)) (k : Key K) : leaf.Covers k ↔ low ≤ k ∧ k < high := by
  constructor
  · rintro ⟨low', high', hb, hk⟩
    cases h.symm.trans hb
    exact hk
  · intro hk
    exact ⟨low, high, h, hk⟩

variable (countInRange : Nat → Key K → Key K → Btree.PivotStats)

/-- **A new leaf** has the bounds it was made for, and is well formed if these are in order. -/
theorem leafSplitInit_spec {leaf : TrunkNode K} (hleaf : WellFormedLeaf leaf)
    (minKey maxKey : Key K) :
    ∃ newLeaf, leafSplitInit countInRange leaf minKey maxKey = some newLeaf ∧
      newLeaf.bounds? = some (minKey, maxKey) ∧ (minKey < maxKey → WellFormedLeaf newLeaf) := by
  obtain ⟨lb, ub, hpivots, -, -⟩ := hleaf.pivots_eq
  have hzero : (PivotStats.zero).AreNonnegative := ⟨le_refl _, le_refl _⟩
  have hempty : (trunkNodeInitEmptyLeaf minKey maxKey).pivots =
      [⟨minKey, 0, 0, .zero, .zero⟩, ⟨maxKey, 0, 0, .zero, .zero⟩] := rfl
  obtain ⟨stats, appended, hrun⟩ := trunkNodeReceiveBundles_leaf countInRange hempty hzero
    leaf.pivotBundles.head? leaf.inflightBundles lb.inflightBundleStart
  have hinit : leafSplitInit countInRange leaf minKey maxKey =
      trunkNodeReceiveBundles countInRange (trunkNodeInitEmptyLeaf minKey maxKey)
        leaf.pivotBundles.head? leaf.inflightBundles lb.inflightBundleStart := by
    unfold leafSplitInit
    rw [hpivots]
  have hzeroAddr : 0 / 256 * 256 = 0 := by decide
  refine ⟨_, hinit.trans hrun, rfl, ?_⟩
  intro hlt
  constructor
  · rfl
  · exact ⟨_, _, rfl, hzeroAddr, hlt⟩
  · rfl
  · exact Nat.zero_le _

theorem createLeaves_spec {leaf : TrunkNode K} (hleaf : WellFormedLeaf leaf) (high : Key K)
    (selected : List (Key K)) :
    ∀ low : Key K, ∃ newLeaves,
      createLeaves countInRange leaf (low :: selected ++ [high]) = some newLeaves ∧
      ((low :: selected ++ [high]).Pairwise (· < ·) →
        (∀ newLeaf ∈ newLeaves, WellFormedLeaf newLeaf) ∧
        (∀ k, (∃ newLeaf ∈ newLeaves, newLeaf.Covers k) ↔ low ≤ k ∧ k < high) ∧
        newLeaves.Pairwise fun a b => ∀ k, a.Covers k → ¬ b.Covers k) := by
  induction selected with
  | nil =>
      intro low
      obtain ⟨newLeaf, hinit, hbounds, hformed⟩ := leafSplitInit_spec countInRange hleaf low high
      refine ⟨[newLeaf], ?_, ?_⟩
      · show (leafSplitInit countInRange leaf low high).bind _ = _
        rw [hinit]
        rfl
      · intro hinc
        have hlt : low < high := (List.pairwise_cons.mp hinc).1 high List.mem_cons_self
        refine ⟨?_, ?_, List.pairwise_singleton _ _⟩
        · intro l hl
          rw [List.mem_singleton.mp hl]
          exact hformed hlt
        · intro k
          rw [← covers_of_bounds hbounds k]
          simp only [List.mem_singleton, exists_eq_left]
  | cons next selected ih =>
      intro low
      obtain ⟨newLeaf, hinit, hbounds, hformed⟩ := leafSplitInit_spec countInRange hleaf low next
      obtain ⟨newLeaves, hrest, hspec⟩ := ih next
      refine ⟨newLeaf :: newLeaves, ?_, ?_⟩
      · show (leafSplitInit countInRange leaf low next).bind _ = _
        rw [hinit]
        show (createLeaves countInRange leaf (next :: selected ++ [high])).bind _ = _
        rw [hrest]
        rfl
      · intro hinc
        obtain ⟨hfirst, htail⟩ := List.pairwise_cons.mp hinc
        have hlow : low < next := hfirst next List.mem_cons_self
        have hhigh : next < high := (List.pairwise_cons.mp htail).1 high
          (List.mem_append_right _ (List.mem_singleton_self _))
        obtain ⟨hall, hcovers, hdisjoint⟩ := hspec htail
        refine ⟨?_, ?_, List.pairwise_cons.mpr ⟨?_, hdisjoint⟩⟩
        · intro l hl
          rcases List.mem_cons.mp hl with rfl | hl
          · exact hformed hlow
          · exact hall l hl
        · intro k
          rw [List.exists_mem_cons_iff, hcovers k, covers_of_bounds hbounds k]
          constructor
          · rintro (⟨hge, hlt⟩ | ⟨hge, hlt⟩)
            · exact ⟨hge, hlt.trans hhigh⟩
            · exact ⟨hlow.le.trans hge, hlt⟩
          · rintro ⟨hge, hlt⟩
            rcases lt_or_ge k next with h | h
            · exact Or.inl ⟨hge, h⟩
            · exact Or.inr ⟨h, hlt⟩
        · intro l hl k hk hlk
          have hge := ((hcovers k).mp ⟨l, hl, hlk⟩).1
          exact absurd ((covers_of_bounds hbounds k).mp hk).2 (not_lt_of_ge hge)

/-! ## The split -/

variable (dataCfg : DataConfig (Key K)) (cfg : LeafSplitConfig)
  (openBranch : Nat → (minKey maxKey : Key K) → PivotIterator minKey maxKey)

/-- The exact condition: going through the pivots that the raw merge of the branches lists, with
their statistics alone, a limit is passed only at pivots with different keys above the lower
bound. -/
def LeafTieFree (leaf : TrunkNode K) (targetNumLeaves : Nat) : Prop :=
  ∀ low high merged, leaf.bounds? = some (low, high) →
    mergedPivots dataCfg openBranch leaf low high = pure merged →
    TieFree (leafGoal cfg leaf targetNumLeaves) SplitGoal.start low merged

theorem leafSplitSelectPivots_spec {leaf : TrunkNode K} (hleaf : WellFormedLeaf leaf)
    {targetNumLeaves : Nat} (htarget : 0 < targetNumLeaves) {pivots : List (Key K)}
    (hrun : leafSplitSelectPivots dataCfg cfg openBranch leaf targetNumLeaves = pure pivots) :
    ∃ low high selected, pivots = low :: selected ++ [high] ∧ leaf.bounds? = some (low, high) ∧
      selected.length + 1 ≤ targetNumLeaves ∧ (∀ k ∈ selected, k < high) ∧ low < high ∧
      ((low :: selected).Pairwise (· < ·) ↔
        LeafTieFree dataCfg cfg openBranch leaf targetNumLeaves) := by
  obtain ⟨lb, ub, hpivots, -, hlt⟩ := hleaf.pivots_eq
  have hbounds : leaf.bounds? = some (lb.key, ub.key) := by
    unfold TrunkNode.bounds?
    rw [hpivots]
  unfold leafSplitSelectPivots at hrun
  rw [hbounds] at hrun
  obtain ⟨merged, hmerged, hresult⟩ := exists_of_bind_eq_pure hrun
  obtain ⟨hsorted, hinside⟩ := mergedPivots_spec dataCfg hmerged
  have hlen := length_selectLoop_le (leafGoal cfg leaf targetNumLeaves) merged SplitGoal.start
  refine ⟨lb.key, ub.key, selectLoop (leafGoal cfg leaf targetNumLeaves) SplitGoal.start merged,
    ?_, hbounds, ?_, ?_, hlt, ?_⟩
  · cases hresult
    rfl
  · have hgoal : (leafGoal cfg leaf targetNumLeaves).targetNumLeaves - SplitGoal.start.leafNum =
        targetNumLeaves - 1 := rfl
    omega
  · intro k hk
    obtain ⟨t, ht, rfl⟩ := exists_of_mem_selectLoop merged SplitGoal.start hk
    exact (hinside t ht).2
  · rw [selectLoop_increasing_iff merged hsorted fun t ht => (hinside t ht).1]
    constructor
    · intro h low high merged' hb hm
      cases hbounds.symm.trans hb
      cases hmerged.symm.trans hm
      exact h
    · intro h
      exact h _ _ _ hbounds hmerged

omit [LinearOrder K] in
theorem leafSplitTargetNumLeaves_pos {estimate : Result Nat} {leaf : TrunkNode K} {target : Nat}
    (hrun : leafSplitTargetNumLeaves cfg estimate leaf = pure target) : 0 < target := by
  have hone : ∀ n : Nat, 0 < if n < 1 then 1 else n := by
    intro n
    split <;> omega
  unfold leafSplitTargetNumLeaves at hrun
  by_cases hsplit : leafMightNeedToSplit cfg leaf = true
  · rw [if_pos hsplit] at hrun
    obtain ⟨estimated, -, hresult⟩ := exists_of_bind_eq_pure hrun
    cases hresult
    exact hone _
  · rw [if_neg hsplit] at hrun
    cases hrun
    exact Nat.one_pos

omit [LinearOrder K] in
private theorem increasing_append_iff [LinearOrder K] {low high : Key K} {selected : List (Key K)}
    (hlt : low < high) (hselected : ∀ k ∈ selected, k < high) :
    (low :: selected ++ [high]).Pairwise (· < ·) ↔ (low :: selected).Pairwise (· < ·) := by
  rw [List.pairwise_append]
  constructor
  · intro h
    exact h.1
  · intro h
    refine ⟨h, List.pairwise_singleton _ _, ?_⟩
    intro a ha b hb
    rw [List.mem_singleton.mp hb]
    rcases List.mem_cons.mp ha with rfl | ha
    · exact hlt
    · exact hselected a ha

theorem increasing_of_formed {leaf : TrunkNode K} (hleaf : WellFormedLeaf leaf)
    (pivots : List (Key K)) :
    ∀ newLeaves, createLeaves countInRange leaf pivots = some newLeaves →
      (∀ newLeaf ∈ newLeaves, WellFormedLeaf newLeaf) → pivots.IsChain (· < ·) := by
  induction pivots with
  | nil =>
      intro _ _ _
      exact List.IsChain.nil
  | cons minKey pivots ih =>
      cases pivots with
      | nil =>
          intro _ _ _
          exact List.IsChain.singleton _
      | cons maxKey pivots =>
          intro newLeaves hrun hformed
          obtain ⟨newLeaf, hinit, hrun⟩ := Option.bind_eq_some_iff.mp hrun
          obtain ⟨rest, hrest, hrun⟩ := Option.bind_eq_some_iff.mp hrun
          obtain rfl := Option.some.inj hrun
          obtain ⟨newLeaf', hinit', hbounds, -⟩ :=
            leafSplitInit_spec countInRange hleaf minKey maxKey
          obtain rfl := Option.some.inj (hinit.symm.trans hinit')
          obtain ⟨lb, ub, hpivots, -, hlt⟩ := (hformed newLeaf List.mem_cons_self).pivots_eq
          have hkeys : some (lb.key, ub.key) = some (minKey, maxKey) := by
            rw [← hbounds, TrunkNode.bounds?, hpivots]
          cases hkeys
          exact List.IsChain.cons_cons hlt
            (ih rest hrest fun l hl => hformed l (List.mem_cons_of_mem _ hl))

theorem exists_leafSplitSelectPivots {leaf : TrunkNode K} (hleaf : WellFormedLeaf leaf)
    (harity : (leafBranches leaf).length < Merge.maxMergeArity) (targetNumLeaves : Nat) :
    ∃ pivots, leafSplitSelectPivots dataCfg cfg openBranch leaf targetNumLeaves = pure pivots := by
  obtain ⟨lb, ub, hpivots, -, -⟩ := hleaf.pivots_eq
  have hbounds : leaf.bounds? = some (lb.key, ub.key) := by
    unfold TrunkNode.bounds?
    rw [hpivots]
  have hlen : (leafIterators openBranch leaf lb.key ub.key).length < Merge.maxMergeArity := by
    unfold leafIterators
    rw [List.length_map]
    exact harity
  obtain ⟨merged, hmerged, -⟩ := mergeDrain_leafIterators dataCfg hlen
  unfold leafSplitSelectPivots
  rw [hbounds]
  show ∃ pivots, (mergedPivots dataCfg openBranch leaf lb.key ub.key >>= _) = pure pivots
  rw [hmerged, pure_bind]
  exact ⟨_, rfl⟩

end

/-! ## Ties -/

section

variable {K : Type} [LinearOrder K]

def pivotIteratorOf (pivots : List (Tuple (Key K)))
    (hordered : pivots.Pairwise fun a b => a.key < b.key) (minKey maxKey : Key K) :
    PivotIterator minKey maxKey where
  cursor := Cursor.atFirst (pivots.filter fun t => decide (minKey ≤ t.key ∧ t.key < maxKey))
  ordered := hordered.sublist List.filter_sublist
  inside := by
    intro t ht
    rw [Cursor.remaining] at ht
    cases hcurr : (Cursor.atFirst
      (pivots.filter fun t => decide (minKey ≤ t.key ∧ t.key < maxKey))).curr with
    | none =>
        rw [hcurr] at ht
        cases ht
    | some c =>
        rw [hcurr] at ht
        exact of_decide_eq_true (List.mem_filter.mp ht).2

end

private def noMerge : DataConfig (Key Nat) := ⟨fun _ _ new => some new, fun _ oldest => some oldest⟩

/-- A pivot with `bytes` bytes of keys below it. -/
private def heavyPivot (k : Nat) (bytes : UInt8) : Tuple (Key Nat) :=
  ⟨Key.user k, ⟨.pivotData, List.replicate 8 0 ++ [1, 0, 0, 0, bytes, 0, 0, 0, 0, 0, 0, 0]⟩⟩

private def openHeavy (k : Nat) (bytes : UInt8) (_ : Nat) (minKey maxKey : Key Nat) :
    PivotIterator minKey maxKey :=
  pivotIteratorOf [heavyPivot k bytes] (List.pairwise_singleton _ _) minKey maxKey

private def smallLeaves : LeafSplitConfig := ⟨1000, 50, 8⟩

private def leafFromTen (branches : List Nat) (kvBytes : Int) : TrunkNode Nat where
  height := 0
  pivots := [⟨Key.user 10, 0, 0, .zero, ⟨kvBytes, 2⟩⟩, ⟨⊤, 0, 0, .zero, .zero⟩]
  pivotBundles := [⟨0, branches⟩]
  numOldBundles := 0
  inflightBundles := []

private theorem leafFromTen_wellFormed (branches : List Nat) (kvBytes : Int) :
    WellFormedLeaf (leafFromTen branches kvBytes) where
  height_eq := rfl
  pivots_eq := ⟨_, _, rfl, show 0 / 256 * 256 = 0 by decide,
    WithBot.coe_lt_coe.mpr (WithTop.coe_lt_top 10)⟩
  length_bundles := rfl
  numOldBundles_le := Nat.zero_le _

end Trunk
end TreePass
