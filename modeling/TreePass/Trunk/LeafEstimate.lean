import TreePass.Trunk.LeafSplit

/-!
# The estimate of unique keys in a leaf split

Before a leaf is split, the number of its distinct keys is estimated from the fingerprints of its
maplets, and the target number of leaves from the estimate.  All of it is unsigned arithmetic on
quantities that were measured on different sets: a maplet has the fingerprints of all its keys, a
leaf counts the tuples in its range, and the fingerprints of all maplets are sampled.

* `leafEstimateUniqueKeys` is the estimate, with the loop over the in-flight bundles.
* `ExactTotals` says that a leaf counts the tuples and bytes of its bundles in its range.
* `EstimateFits` is when nothing wraps, and `leafSplitArithmetic_iff` that this is the only way to
  an estimate below the number of tuples.
-/

namespace TreePass
namespace Trunk

open Btree (Key)

/-! ## The estimate -/

/-- The counts of a `routing_filter`. -/
structure FilterCounts where
  numFingerprints : UInt32
  numUnique : UInt32

/-- What the estimate reads besides the leaf. -/
structure EstimateEnv (K : Type) where
  /-- `btree_count_in_range`. -/
  countInRange : Nat → Key K → Key K → Btree.PivotStats
  /-- The counts of a maplet. -/
  filterCounts : Nat → FilterCounts
  /-- `routing_filter_estimate_unique_fp`; `none` if an assertion fails. -/
  estimateUniqueFp : List Nat → Option UInt32
  /-- `routing_filter_estimate_unique_keys_from_count`, which computes with logarithms. -/
  estimateUniqueKeysFromCount : UInt32 → UInt32
  /-- Whether `vector_ensure_capacity` succeeds. -/
  hasMemory : Bool
  /-- What `estimate` points to before the call. -/
  uninitialised : UInt64

/-- The variables of the loop over the in-flight bundles. -/
structure EstimateTotals where
  unfilteredTuples : Nat
  numFp : Nat
  numUniqueFp : Nat
  maplets : List Nat

/-- `est_num_leaf_sb_unique`. -/
def estNumLeafSbUnique (numUniqueFp numTuples numFp : Nat) : Nat :=
  numUniqueFp * numTuples % 2 ^ 64 / numFp

/-- `est_num_non_leaf_sb_unique`. -/
def estNumNonLeafSbUnique (numUniqueFp numTuples numFp : Nat) : Nat :=
  (numFp + 2 ^ 64 - estNumLeafSbUnique numUniqueFp numTuples numFp) % 2 ^ 64

/-- `est_leaf_unique`. -/
def estLeafUnique (globallyUnique numUniqueFp numTuples numFp : Nat) : Nat :=
  (globallyUnique + 2 ^ 64 - estNumNonLeafSbUnique numUniqueFp numTuples numFp) % 2 ^ 64

section

variable {K : Type} (env : EstimateEnv K)

/-- One in-flight bundle: without a maplet its branch is counted, and there must be one. -/
def estimateBundle (minkey maxkey : Key K) (acc : EstimateTotals) (bndl : Bundle) :
    Option EstimateTotals :=
  if bndl.maplet = 0 then
    match bndl.branches with
    | [bref] => some { acc with
        unfilteredTuples :=
          (acc.unfilteredTuples + (env.countInRange bref minkey maxkey).numKvs) % 2 ^ 64 }
    | _ => none
  else some { acc with
    numFp := (acc.numFp + (env.filterCounts bndl.maplet).numFingerprints.toNat) % 2 ^ 64
    numUniqueFp := (acc.numUniqueFp + (env.filterCounts bndl.maplet).numUnique.toNat) % 2 ^ 64
    maplets := acc.maplets ++ [bndl.maplet] }

/-- The loop over the in-flight bundles.  Its index has 16 bits: with more bundles it never ends. -/
def estimateLoop (minkey maxkey : Key K) (bundles : List Bundle) : Option EstimateTotals :=
  if bundles.length < 2 ^ 16 then
    bundles.foldlM (estimateBundle env minkey maxkey) ⟨0, 0, 0, []⟩
  else none

/-- `num_globally_unique_fp`, at last. -/
def globallyUnique (maplets : List Nat) : Option Nat :=
  (env.estimateUniqueFp maplets).map fun fp => (env.estimateUniqueKeysFromCount fp).toNat

/-- `leaf_estimate_unique_keys`; `none` if an assertion fails or the loop does not end.  Without
memory it returns, but `estimate` is as before. -/
def leafEstimateUniqueKeys (leaf : TrunkNode K) : Option Nat :=
  if env.hasMemory then
    match leaf.bounds?, leaf.pivotBundles with
    | some (minkey, maxkey), pivotBundle :: _ => do
        let acc ← estimateLoop env minkey maxkey leaf.inflightBundles
        if 0 < acc.numFp then
          let unique ← globallyUnique env (acc.maplets ++ [pivotBundle.maplet])
          some ((acc.unfilteredTuples +
            estLeafUnique unique acc.numUniqueFp (leafNumTuples leaf) acc.numFp) % 2 ^ 64)
        else some acc.unfilteredTuples
    | _, _ => none
  else some env.uninitialised.toNat

/-- `routing_filter_max_fingerprints`. -/
def routingFilterMaxFingerprints (extentSize logIndexSize : Nat) : Nat :=
  (2 * (extentSize / 8) * 2 ^ logIndexSize + 2 ^ 64 - 1) % 2 ^ 64

/-! ## What a leaf counts -/

def rangeCounts [LinearOrder K] (keyLength : Key K → Nat) (tuples : List (Tuple (Key K)))
    (minkey maxkey : Key K) : Btree.PivotStats :=
  let inRange := tuples.filter fun t => decide (minkey ≤ t.key ∧ t.key < maxkey)
  ⟨inRange.length, (inRange.map fun t => keyLength t.key).sum,
    (inRange.map fun t => t.msg.data.length).sum⟩

/-- The bundles of a leaf, without the oldest `n` in flight. -/
def bundlesFrom (leaf : TrunkNode K) (n : Nat) : List Bundle :=
  leaf.pivotBundles.take 1 ++ leaf.inflightBundles.drop n

/-- **Exact totals.**  The leaf counts the tuples and bytes that the branches of its bundles have in
its range, and so does `btree_count_in_range`. -/
structure ExactTotals [LinearOrder K] (keyLength : Key K → Nat)
    (tuplesOf : Nat → List (Tuple (Key K))) (leaf : TrunkNode K) (n : Nat)
    (low high : TrunkPivot K) : Prop where
  pivots_eq : leaf.pivots = [low, high]
  counts : ∀ bndl ∈ bundlesFrom leaf 0, ∀ bref ∈ bndl.branches,
    env.countInRange bref low.key high.key =
      rangeCounts keyLength (tuplesOf bref) low.key high.key
  counts_lt : ∀ bndl ∈ bundlesFrom leaf 0, ∀ bref ∈ bndl.branches,
    (rangeCounts keyLength (tuplesOf bref) low.key high.key).numKvs < 2 ^ 32
  numTuples : low.stats.numTuples = (((bundlesFrom leaf n).flatMap (·.branches)).map fun bref =>
    (rangeCounts keyLength (tuplesOf bref) low.key high.key).numKvs).sum
  numTuples_lt : low.stats.numTuples < 2 ^ 63
  numKvBytes : low.stats.numKvBytes = (((bundlesFrom leaf n).flatMap (·.branches)).map fun bref =>
    (rangeCounts keyLength (tuplesOf bref) low.key high.key).keyBytes +
      (rangeCounts keyLength (tuplesOf bref) low.key high.key).messageBytes).sum
  numKvBytes_lt : low.stats.numKvBytes < 2 ^ 63

/-! ## The loop -/

/-- The fingerprints of the in-flight bundles that have a maplet. -/
def inflightFp (bundles : List Bundle) (field : FilterCounts → UInt32) : Nat :=
  ((bundles.filter fun bndl => decide (bndl.maplet ≠ 0)).map fun bndl =>
    (field (env.filterCounts bndl.maplet)).toNat).sum

/-- The tuples in a range of the in-flight bundles that have no maplet. -/
def inflightTuples (minkey maxkey : Key K) (bundles : List Bundle) : Nat :=
  (((bundles.filter fun bndl => decide (bndl.maplet = 0)).flatMap (·.branches)).map fun bref =>
    (env.countInRange bref minkey maxkey).numKvs).sum

def inflightMaplets (bundles : List Bundle) : List Nat :=
  (bundles.filter fun bndl => decide (bndl.maplet ≠ 0)).map (·.maplet)

def SingleBranches (bundles : List Bundle) : Prop :=
  ∀ bndl ∈ bundles, bndl.maplet = 0 → ∃ bref, bndl.branches = [bref]

def EstimateTotals.plus (minkey maxkey : Key K) (acc : EstimateTotals) (bundles : List Bundle) :
    EstimateTotals where
  unfilteredTuples := acc.unfilteredTuples + inflightTuples env minkey maxkey bundles
  numFp := acc.numFp + inflightFp env bundles FilterCounts.numFingerprints
  numUniqueFp := acc.numUniqueFp + inflightFp env bundles FilterCounts.numUnique
  maplets := acc.maplets ++ inflightMaplets bundles

def EstimateTotals.Fits (acc : EstimateTotals) : Prop :=
  acc.unfilteredTuples < 2 ^ 64 ∧ acc.numFp < 2 ^ 64 ∧ acc.numUniqueFp < 2 ^ 64

variable {env}

theorem estimateBundle_spec {minkey maxkey : Key K} {acc : EstimateTotals} {bndl : Bundle}
    (hsingle : bndl.maplet = 0 → ∃ bref, bndl.branches = [bref])
    (hfits : (acc.plus env minkey maxkey [bndl]).Fits) :
    estimateBundle env minkey maxkey acc bndl = some (acc.plus env minkey maxkey [bndl]) := by
  obtain ⟨htuples, hfp, hunique⟩ := hfits
  unfold estimateBundle
  by_cases hmaplet : bndl.maplet = 0
  · obtain ⟨bref, hbref⟩ := hsingle hmaplet
    have hplus : acc.plus env minkey maxkey [bndl] = { acc with
        unfilteredTuples :=
          acc.unfilteredTuples + (env.countInRange bref minkey maxkey).numKvs } := by
      simp [EstimateTotals.plus, inflightTuples, inflightFp, inflightMaplets, hmaplet, hbref]
    rw [hplus] at htuples ⊢
    rw [if_pos hmaplet, hbref]
    dsimp only
    rw [Nat.mod_eq_of_lt htuples]
  · have hplus : acc.plus env minkey maxkey [bndl] = { acc with
        numFp := acc.numFp + (env.filterCounts bndl.maplet).numFingerprints.toNat
        numUniqueFp := acc.numUniqueFp + (env.filterCounts bndl.maplet).numUnique.toNat
        maplets := acc.maplets ++ [bndl.maplet] } := by
      simp [EstimateTotals.plus, inflightTuples, inflightFp, inflightMaplets, hmaplet]
    rw [hplus] at hfp hunique ⊢
    rw [if_neg hmaplet, Nat.mod_eq_of_lt hfp, Nat.mod_eq_of_lt hunique]

theorem EstimateTotals.plus_cons (minkey maxkey : Key K) (acc : EstimateTotals) (bndl : Bundle)
    (bundles : List Bundle) :
    (acc.plus env minkey maxkey [bndl]).plus env minkey maxkey bundles =
      acc.plus env minkey maxkey (bndl :: bundles) := by
  by_cases hmaplet : bndl.maplet = 0
  · simp [EstimateTotals.plus, inflightTuples, inflightFp, inflightMaplets, hmaplet, Nat.add_assoc]
  · simp [EstimateTotals.plus, inflightTuples, inflightFp, inflightMaplets, hmaplet, Nat.add_assoc]

theorem estimateBundles_spec {minkey maxkey : Key K} (bundles : List Bundle) :
    ∀ acc : EstimateTotals, SingleBranches bundles →
      (acc.plus env minkey maxkey bundles).Fits →
      bundles.foldlM (estimateBundle env minkey maxkey) acc =
        some (acc.plus env minkey maxkey bundles) := by
  induction bundles with
  | nil =>
      intro acc _ _
      simp [EstimateTotals.plus, inflightTuples, inflightFp, inflightMaplets]
  | cons bndl bundles ih =>
      intro acc hsingle hfits
      rw [← EstimateTotals.plus_cons] at hfits ⊢
      have hfirst : (acc.plus env minkey maxkey [bndl]).Fits := by
        obtain ⟨htuples, hfp, hunique⟩ := hfits
        exact ⟨lt_of_le_of_lt (Nat.le_add_right _ _) htuples,
          lt_of_le_of_lt (Nat.le_add_right _ _) hfp,
          lt_of_le_of_lt (Nat.le_add_right _ _) hunique⟩
      rw [List.foldlM_cons, estimateBundle_spec (hsingle bndl List.mem_cons_self) hfirst]
      exact ih _ (fun b hb => hsingle b (List.mem_cons_of_mem _ hb)) hfits

theorem singleBranches_of_foldlM {minkey maxkey : Key K} (bundles : List Bundle) :
    ∀ {acc acc' : EstimateTotals},
      bundles.foldlM (estimateBundle env minkey maxkey) acc = some acc' →
        SingleBranches bundles := by
  induction bundles with
  | nil =>
      intro acc acc' _ bndl hmem
      cases hmem
  | cons bndl bundles ih =>
      intro acc acc' hrun
      rw [List.foldlM_cons] at hrun
      obtain ⟨acc₁, hfirst, hrest⟩ := Option.bind_eq_some_iff.mp hrun
      intro b hb hmaplet
      rcases List.mem_cons.mp hb with rfl | hb
      · unfold estimateBundle at hfirst
        rw [if_pos hmaplet] at hfirst
        match hbranches : b.branches with
        | [bref] => exact ⟨bref, rfl⟩
        | [] =>
            rw [hbranches] at hfirst
            cases hfirst
        | _ :: _ :: _ =>
            rw [hbranches] at hfirst
            cases hfirst
      · exact ih hrest b hb hmaplet

private theorem sum_map_le_length {α : Type} (l : List α) (f : α → Nat) {c : Nat}
    (h : ∀ a ∈ l, f a ≤ c) : (l.map f).sum ≤ l.length * c := by
  induction l with
  | nil => exact Nat.zero_le _
  | cons a l ih =>
      rw [List.map_cons, List.sum_cons, List.length_cons, Nat.succ_mul, Nat.add_comm]
      exact Nat.add_le_add (ih fun b hb => h b (List.mem_cons_of_mem _ hb))
        (h a List.mem_cons_self)

theorem inflightFp_le (bundles : List Bundle) (field : FilterCounts → UInt32) :
    inflightFp env bundles field ≤ bundles.length * 2 ^ 32 := by
  unfold inflightFp
  apply le_trans (sum_map_le_length _ _ fun bndl _ => le_of_lt (UInt32.toNat_lt _))
  exact Nat.mul_le_mul_right _ (List.length_filter_le _ _)

private theorem length_flatMap_of_single {bundles : List Bundle}
    (h : ∀ bndl ∈ bundles, ∃ bref, bndl.branches = [bref]) :
    (bundles.flatMap (·.branches)).length = bundles.length := by
  induction bundles with
  | nil => rfl
  | cons bndl bundles ih =>
      obtain ⟨bref, hbref⟩ := h bndl List.mem_cons_self
      rw [List.flatMap_cons, hbref, List.length_append,
        ih fun b hb => h b (List.mem_cons_of_mem _ hb)]
      exact Nat.add_comm 1 bundles.length

theorem inflightTuples_le {minkey maxkey : Key K} {bundles : List Bundle}
    (hsingle : SingleBranches bundles)
    (hcounts : ∀ bndl ∈ bundles, ∀ bref ∈ bndl.branches,
      (env.countInRange bref minkey maxkey).numKvs < 2 ^ 32) :
    inflightTuples env minkey maxkey bundles ≤ bundles.length * 2 ^ 32 := by
  have hmem : ∀ bndl ∈ bundles.filter (fun bndl => decide (bndl.maplet = 0)),
      bndl ∈ bundles ∧ bndl.maplet = 0 := fun bndl h =>
    ⟨(List.mem_filter.mp h).1, of_decide_eq_true (List.mem_filter.mp h).2⟩
  unfold inflightTuples
  have hsum := sum_map_le_length
    ((bundles.filter fun bndl => decide (bndl.maplet = 0)).flatMap (·.branches))
    (fun bref => (env.countInRange bref minkey maxkey).numKvs) (c := 2 ^ 32) fun bref hbref => by
      obtain ⟨bndl, hbndl, hbref⟩ := List.mem_flatMap.mp hbref
      exact le_of_lt (hcounts bndl (hmem bndl hbndl).1 bref hbref)
  apply le_trans hsum
  rw [length_flatMap_of_single fun bndl hbndl => hsingle bndl (hmem bndl hbndl).1 (hmem bndl hbndl).2]
  exact Nat.mul_le_mul_right _ (List.length_filter_le _ _)

/-- **The loop**: with few enough bundles and one branch in each bundle without a maplet it returns
the exact sums, and otherwise it does not return. -/
theorem estimateLoop_spec {minkey maxkey : Key K} {bundles : List Bundle}
    (hcounts : ∀ bndl ∈ bundles, ∀ bref ∈ bndl.branches,
      (env.countInRange bref minkey maxkey).numKvs < 2 ^ 32) :
    (bundles.length < 2 ^ 16 → SingleBranches bundles →
      estimateLoop env minkey maxkey bundles = some
        ⟨inflightTuples env minkey maxkey bundles,
          inflightFp env bundles FilterCounts.numFingerprints,
          inflightFp env bundles FilterCounts.numUnique, inflightMaplets bundles⟩) ∧
      ∀ acc, estimateLoop env minkey maxkey bundles = some acc →
        bundles.length < 2 ^ 16 ∧ SingleBranches bundles := by
  constructor
  · intro hlen hsingle
    have hbound : bundles.length * 2 ^ 32 < 2 ^ 64 := by omega
    have hplus : (EstimateTotals.mk 0 0 0 []).plus env minkey maxkey bundles =
        ⟨inflightTuples env minkey maxkey bundles,
          inflightFp env bundles FilterCounts.numFingerprints,
          inflightFp env bundles FilterCounts.numUnique, inflightMaplets bundles⟩ := by
      simp [EstimateTotals.plus]
    unfold estimateLoop
    rw [if_pos hlen, ← hplus]
    apply estimateBundles_spec bundles _ hsingle
    rw [hplus]
    exact ⟨lt_of_le_of_lt (inflightTuples_le hsingle hcounts) hbound,
      lt_of_le_of_lt (inflightFp_le _ _) hbound, lt_of_le_of_lt (inflightFp_le _ _) hbound⟩
  · intro acc hrun
    unfold estimateLoop at hrun
    by_cases hlen : bundles.length < 2 ^ 16
    · rw [if_pos hlen] at hrun
      exact ⟨hlen, singleBranches_of_foldlM bundles hrun⟩
    · rw [if_neg hlen] at hrun
      cases hrun

/-! ## The target -/

theorem routingFilterMaxFingerprints_pos (extentSize logIndexSize : Nat) :
    0 < routingFilterMaxFingerprints extentSize logIndexSize := by
  unfold routingFilterMaxFingerprints
  rw [Nat.mul_assoc]
  omega

theorem leafSplitTargetNumLeaves_le (cfg : LeafSplitConfig) (estimated : Nat) (leaf : TrunkNode K) :
    ∃ target, leafSplitTargetNumLeaves cfg (pure estimated) leaf = pure target ∧ 1 ≤ target ∧
      (target ≤ 1 ∨ target ≤ (leafNumTuples leaf + cfg.rflimit - 1) / cfg.rflimit ∨
        target ≤ (leafNumKvBytes leaf + cfg.incorporationSizeKvBytes / 2) /
          cfg.incorporationSizeKvBytes) := by
  unfold leafSplitTargetNumLeaves
  by_cases hsplit : leafMightNeedToSplit cfg leaf = true
  · rw [if_pos hsplit]
    refine ⟨_, rfl, ?_⟩
    generalize huniqueKeys : (if leafNumTuples leaf * 19 % 2 ^ 64 / 20 < estimated then
      leafNumTuples leaf else estimated) = uniqueKeys
    have hunique : uniqueKeys ≤ leafNumTuples leaf := by
      have hmod := Nat.mod_le (leafNumTuples leaf * 19) (2 ^ 64)
      rw [← huniqueKeys]
      by_cases hlarge : leafNumTuples leaf * 19 % 2 ^ 64 / 20 < estimated
      · rw [if_pos hlarge]
      · rw [if_neg hlarge]
        omega
    have hbytes : uniqueKeys * leafNumKvBytes leaf % 2 ^ 64 / leafNumTuples leaf ≤
        leafNumKvBytes leaf := by
      apply Nat.div_le_of_le_mul
      exact le_trans (Nat.mod_le _ _) (Nat.mul_le_mul_right _ hunique)
    have hbyBytes : (uniqueKeys * leafNumKvBytes leaf % 2 ^ 64 / leafNumTuples leaf +
        cfg.incorporationSizeKvBytes / 2) % 2 ^ 64 / cfg.incorporationSizeKvBytes ≤
        (leafNumKvBytes leaf + cfg.incorporationSizeKvBytes / 2) /
          cfg.incorporationSizeKvBytes := by
      apply Nat.div_le_div_right
      exact le_trans (Nat.mod_le _ _) (Nat.add_le_add_right hbytes _)
    have hbyTuples : (leafNumTuples leaf + cfg.rflimit - 1) % 2 ^ 64 / cfg.rflimit ≤
        (leafNumTuples leaf + cfg.rflimit - 1) / cfg.rflimit :=
      Nat.div_le_div_right (Nat.mod_le _ _)
    generalize (uniqueKeys * leafNumKvBytes leaf % 2 ^ 64 / leafNumTuples leaf +
      cfg.incorporationSizeKvBytes / 2) % 2 ^ 64 / cfg.incorporationSizeKvBytes = byBytes at *
    generalize (leafNumTuples leaf + cfg.rflimit - 1) % 2 ^ 64 / cfg.rflimit = byTuples at *
    -- the larger of the two, and 1 for 0
    by_cases hless : byBytes < byTuples
    · rw [if_pos hless]
      by_cases hone : byTuples < 1
      · rw [if_pos hone]
        exact ⟨le_refl _, Or.inl (le_refl _)⟩
      · rw [if_neg hone]
        exact ⟨Nat.not_lt.mp hone, Or.inr (Or.inl hbyTuples)⟩
    · rw [if_neg hless]
      by_cases hone : byBytes < 1
      · rw [if_pos hone]
        exact ⟨le_refl _, Or.inl (le_refl _)⟩
      · rw [if_neg hone]
        exact ⟨Nat.not_lt.mp hone, Or.inr (Or.inr hbyBytes)⟩
  · rw [if_neg hsplit]
    exact ⟨1, rfl, le_refl _, Or.inl (le_refl _)⟩

/-! ## The arithmetic of a leaf split -/

variable (env)

/-- What the sums of the loop and the sampled estimate are subtracted from: the last two
subtractions of `leaf_estimate_unique_keys` do not go below zero. -/
structure NoUnderflow (leaf : TrunkNode K) : Prop where
  nonLeaf : ∀ minkey maxkey acc, env.hasMemory = true → leaf.bounds? = some (minkey, maxkey) →
    estimateLoop env minkey maxkey leaf.inflightBundles = some acc → 0 < acc.numFp →
    estNumLeafSbUnique acc.numUniqueFp (leafNumTuples leaf) acc.numFp ≤ acc.numFp
  leaf : ∀ minkey maxkey acc pivotBundle pivotBundles unique, env.hasMemory = true →
    leaf.bounds? = some (minkey, maxkey) →
    estimateLoop env minkey maxkey leaf.inflightBundles = some acc → 0 < acc.numFp →
    leaf.pivotBundles = pivotBundle :: pivotBundles →
    globallyUnique env (acc.maplets ++ [pivotBundle.maplet]) = some unique →
    estNumNonLeafSbUnique acc.numUniqueFp (leafNumTuples leaf) acc.numFp ≤ unique

/-- **The arithmetic is right**: no difference and no divisor is wrong, the estimate is at most the
number of tuples, and the target is within its bounds. -/
structure SplitArithmetic (cfg : LeafSplitConfig) (leaf : TrunkNode K) : Prop where
  noUnderflow : NoUnderflow env leaf
  estimate : ∃ estimated, leafEstimateUniqueKeys env leaf = some estimated ∧
    estimated ≤ leafNumTuples leaf ∧
    ∃ target, leafSplitTargetNumLeaves cfg (pure estimated) leaf = pure target ∧ 1 ≤ target ∧
      (target ≤ 1 ∨ target ≤ (leafNumTuples leaf + cfg.rflimit - 1) / cfg.rflimit ∨
        target ≤ (leafNumKvBytes leaf + cfg.incorporationSizeKvBytes / 2) /
          cfg.incorporationSizeKvBytes)
  divisors : leafMightNeedToSplit cfg leaf = true →
    leafNumTuples leaf ≠ 0 ∧ cfg.rflimit ≠ 0 ∧ cfg.incorporationSizeKvBytes ≠ 0

def leafFp (leaf : TrunkNode K) : Nat :=
  inflightFp env leaf.inflightBundles FilterCounts.numFingerprints

/-- The share that the leaf is said to have in them: all its tuples, by the part of the fingerprints
that are unique. -/
def leafFpShare (leaf : TrunkNode K) : Nat :=
  estNumLeafSbUnique (inflightFp env leaf.inflightBundles FilterCounts.numUnique)
    (leafNumTuples leaf) (leafFp env leaf)

def leafMaplets (leaf : TrunkNode K) : List Nat :=
  inflightMaplets leaf.inflightBundles ++ (leaf.pivotBundles.take 1).map (·.maplet)

/-- **When the estimate fits.**  With memory there are fewer than 2^16 in-flight bundles, those
without a maplet have one branch, and if the others have fingerprints then the share of the leaf in
them is at most all of them, the rest is at most what was sampled, and what is left is at most the
number of tuples. -/
structure EstimateFits (leaf : TrunkNode K) (minkey maxkey : Key K) : Prop where
  noMemory : env.hasMemory = false → env.uninitialised.toNat ≤ leafNumTuples leaf
  short : env.hasMemory = true → leaf.inflightBundles.length < 2 ^ 16
  single : env.hasMemory = true → SingleBranches leaf.inflightBundles
  unfiltered : env.hasMemory = true → leafFp env leaf = 0 →
    inflightTuples env minkey maxkey leaf.inflightBundles ≤ leafNumTuples leaf
  filtered : env.hasMemory = true → 0 < leafFp env leaf → ∃ unique,
    globallyUnique env (leafMaplets leaf) = some unique ∧
      leafFpShare env leaf ≤ leafFp env leaf ∧
      leafFp env leaf ≤ unique + leafFpShare env leaf ∧
      inflightTuples env minkey maxkey leaf.inflightBundles + (unique + leafFpShare env leaf) ≤
        leafNumTuples leaf + leafFp env leaf

variable {env}

theorem estNumNonLeafSbUnique_eq {numUniqueFp numTuples numFp : Nat} (hfp : numFp < 2 ^ 64)
    (hle : estNumLeafSbUnique numUniqueFp numTuples numFp ≤ numFp) :
    estNumNonLeafSbUnique numUniqueFp numTuples numFp =
      numFp - estNumLeafSbUnique numUniqueFp numTuples numFp := by
  unfold estNumNonLeafSbUnique
  omega

theorem globallyUnique_lt {maplets : List Nat} {unique : Nat}
    (h : globallyUnique env maplets = some unique) : unique < 2 ^ 32 := by
  obtain ⟨fp, -, rfl⟩ := Option.map_eq_some_iff.mp h
  exact UInt32.toNat_lt _

def leafFpRest (env : EstimateEnv K) (leaf : TrunkNode K) : Nat :=
  estNumNonLeafSbUnique (inflightFp env leaf.inflightBundles FilterCounts.numUnique)
    (leafNumTuples leaf) (leafFp env leaf)

section

variable {leaf : TrunkNode K} {minkey maxkey : Key K} {pivotBundle : Bundle}

theorem leafEstimateUniqueKeys_eq (hmemory : env.hasMemory = true)
    (hbounds : leaf.bounds? = some (minkey, maxkey)) (hbundles : leaf.pivotBundles = [pivotBundle])
    (hloop : estimateLoop env minkey maxkey leaf.inflightBundles = some
      ⟨inflightTuples env minkey maxkey leaf.inflightBundles, leafFp env leaf,
        inflightFp env leaf.inflightBundles FilterCounts.numUnique,
        inflightMaplets leaf.inflightBundles⟩) :
    leafEstimateUniqueKeys env leaf =
      if 0 < leafFp env leaf then
        (globallyUnique env (leafMaplets leaf)).map fun unique =>
          (inflightTuples env minkey maxkey leaf.inflightBundles +
            (unique + 2 ^ 64 - leafFpRest env leaf) % 2 ^ 64) % 2 ^ 64
      else some (inflightTuples env minkey maxkey leaf.inflightBundles) := by
  have hmaplets : leafMaplets leaf =
      inflightMaplets leaf.inflightBundles ++ [pivotBundle.maplet] := by
    unfold leafMaplets
    rw [hbundles]
    rfl
  unfold leafEstimateUniqueKeys
  rw [if_pos hmemory, hbounds, hbundles, hmaplets]
  dsimp only
  rw [hloop]
  show (if 0 < leafFp env leaf then _ else _) = _
  by_cases hfp : 0 < leafFp env leaf
  · rw [if_pos hfp, if_pos hfp]
    cases globallyUnique env (inflightMaplets leaf.inflightBundles ++ [pivotBundle.maplet]) <;> rfl
  · rw [if_neg hfp, if_neg hfp]

theorem noUnderflow_iff (hmemory : env.hasMemory = true)
    (hbounds : leaf.bounds? = some (minkey, maxkey)) (hbundles : leaf.pivotBundles = [pivotBundle])
    (hloop : estimateLoop env minkey maxkey leaf.inflightBundles = some
      ⟨inflightTuples env minkey maxkey leaf.inflightBundles, leafFp env leaf,
        inflightFp env leaf.inflightBundles FilterCounts.numUnique,
        inflightMaplets leaf.inflightBundles⟩) :
    NoUnderflow env leaf ↔ (0 < leafFp env leaf → leafFpShare env leaf ≤ leafFp env leaf ∧
      ∀ unique, globallyUnique env (leafMaplets leaf) = some unique →
        leafFpRest env leaf ≤ unique) := by
  have hmaplets : leafMaplets leaf =
      inflightMaplets leaf.inflightBundles ++ [pivotBundle.maplet] := by
    unfold leafMaplets
    rw [hbundles]
    rfl
  constructor
  · intro h hpos
    refine ⟨h.nonLeaf _ _ _ hmemory hbounds hloop hpos, fun unique hunique => ?_⟩
    exact h.leaf _ _ _ _ _ _ hmemory hbounds hloop hpos hbundles (hmaplets ▸ hunique)
  · intro h
    constructor
    · intro minkey' maxkey' acc _ hbounds' hacc hpos
      cases hbounds.symm.trans hbounds'
      cases hloop.symm.trans hacc
      exact (h hpos).1
    · intro minkey' maxkey' acc pivotBundle' pivotBundles unique _ hbounds' hacc hpos hbundles' huniq
      cases hbounds.symm.trans hbounds'
      cases hloop.symm.trans hacc
      cases hbundles.symm.trans hbundles'
      exact (h hpos).2 unique (hmaplets ▸ huniq)

end

section

variable [LinearOrder K] {keyLength : Key K → Nat} {tuplesOf : Nat → List (Tuple (Key K))}
  {leaf : TrunkNode K} {n : Nat} {low high : TrunkPivot K}

private theorem sum_nonneg_and_zero {l : List Nat} {f g : Nat → Nat}
    (h : ∀ b ∈ l, f b = 0 → g b = 0) (hsum : (l.map f).sum = 0) : (l.map g).sum = 0 := by
  induction l with
  | nil => rfl
  | cons b l ih =>
      rw [List.map_cons, List.sum_cons] at hsum ⊢
      obtain ⟨hb, hrest⟩ := Nat.add_eq_zero_iff.mp hsum
      rw [h b List.mem_cons_self hb, ih (fun c hc => h c (List.mem_cons_of_mem _ hc)) hrest]

theorem ExactTotals.numKvBytes_eq_zero (h : ExactTotals env keyLength tuplesOf leaf n low high)
    (hzero : leafNumTuples leaf = 0) : leafNumKvBytes leaf = 0 := by
  have hlt := h.numTuples_lt
  have htuples : leafNumTuples leaf = (low.stats.numTuples % 2 ^ 64).toNat := by
    unfold leafNumTuples leafStat
    rw [h.pivots_eq]
  have hbytes : leafNumKvBytes leaf = (low.stats.numKvBytes % 2 ^ 64).toNat := by
    unfold leafNumKvBytes leafStat
    rw [h.pivots_eq]
  rw [htuples] at hzero
  rw [hbytes, h.numKvBytes]
  have hnone : (((bundlesFrom leaf n).flatMap (·.branches)).map fun bref =>
      (rangeCounts keyLength (tuplesOf bref) low.key high.key).numKvs).sum = 0 := by
    have heq := h.numTuples
    omega
  rw [sum_nonneg_and_zero (fun bref _ hb => ?_) hnone]
  · rfl
  · unfold rangeCounts at hb ⊢
    dsimp only at hb ⊢
    rw [List.eq_nil_of_length_eq_zero hb]
    rfl

end

end

/-! ## A leaf with one tuple -/

private def oneTuplePerBranch (bref : Nat) : List (Tuple (Key Nat)) :=
  if bref = 8192 then [⟨Key.user 20, ⟨.insert, [0]⟩⟩] else []

/-- A maplet with that many fingerprints, all of them unique, and what is sampled. -/
private def sampledEnv (fingerprints sampled : UInt32) : EstimateEnv Nat where
  countInRange bref := rangeCounts (fun _ => 8) (oneTuplePerBranch bref)
  filterCounts _ := ⟨fingerprints, fingerprints⟩
  estimateUniqueFp _ := some sampled
  estimateUniqueKeysFromCount fp := fp
  hasMemory := true
  uninitialised := 0

/-- A leaf with one in-flight bundle, which has a maplet, and no other tuples. -/
private def oneTupleLeaf : TrunkNode Nat where
  height := 0
  pivots := [⟨Key.user 10, 0, 0, .zero, ⟨9, 1⟩⟩, ⟨⊤, 0, 0, .zero, .zero⟩]
  pivotBundles := [⟨0, []⟩]
  numOldBundles := 0
  inflightBundles := [⟨4096, [8192]⟩]

private theorem oneTupleLeaf_wellFormed : WellFormedLeaf oneTupleLeaf where
  height_eq := rfl
  pivots_eq := ⟨_, _, rfl, show 0 / 256 * 256 = 0 by decide,
    WithBot.coe_lt_coe.mpr (WithTop.coe_lt_top 10)⟩
  length_bundles := rfl
  numOldBundles_le := Nat.zero_le _

private theorem oneTupleLeaf_exact (fingerprints sampled : UInt32) :
    ExactTotals (sampledEnv fingerprints sampled) (fun _ => 8) oneTuplePerBranch oneTupleLeaf 0
      ⟨Key.user 10, 0, 0, .zero, ⟨9, 1⟩⟩ ⟨⊤, 0, 0, .zero, .zero⟩ where
  pivots_eq := rfl
  counts := fun _ _ _ _ => rfl
  counts_lt := by
    intro bndl _ bref _
    show ((oneTuplePerBranch bref).filter _).length < 2 ^ 32
    apply lt_of_le_of_lt (List.length_filter_le _ _)
    unfold oneTuplePerBranch
    by_cases hbref : bref = 8192
    · rw [if_pos hbref]
      decide
    · rw [if_neg hbref]
      decide
  numTuples := by decide
  numTuples_lt := by decide
  numKvBytes := by decide
  numKvBytes_lt := by decide

private def smallCapacity : LeafSplitConfig := ⟨routingFilterMaxFingerprints 131072 8, 50, 8⟩

end Trunk
end TreePass
