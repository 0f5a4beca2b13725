import TreePass.Filter.FoundValues
import TreePass.Filter.Lookup
import TreePass.Trunk.DropDeletes
import TreePass.Trunk.FindPivot

/-!
# Looking a key up in the trunk

A lookup goes from the root to a leaf.  At every node it searches the live in-flight bundles of its
pivot and then the pivot bundle, and in each of them only the branches that the maplet names.

* `trunkMergeLookup` is the lookup, without its log.
* `Built` are the maplets that chains of compactions build, each with its branches.
* `Way` is the way of a key from a node down, with all the branches on it.
* `trunk_merge_lookup_eq`: maplets and pivots leave nothing out.
-/

namespace TreePass
namespace Trunk

open Lib Merge Filter TreePass.Core
open Btree (Key)

variable {K : Type} [LinearOrder K]

/-! ## The code -/

/-- What a lookup reads. -/
structure TrunkReader (K : Type) where
  cfg : DataConfig K
  filterCfg : RoutingConfig
  /-- `hash` of the filters, with its seed. -/
  hash : K → UInt32
  pageSize : Nat
  /-- `1 << n`, as far as the language says. -/
  shl : Nat → BitVec 32
  filter : Nat → RoutingFilter
  content : Nat → List (Tuple K)
  node : Nat → Option (OndiskNode K)

namespace TrunkReader

variable (r : TrunkReader K) (k : K)

omit [LinearOrder K] in
/-- The values to look for; a bundle without a maplet has one branch at most. -/
def foundValues (bndl : Bundle) : Option (BitVec 64) :=
  if (r.filter bndl.maplet).present then
    routingFilterLookup r.filterCfg (r.filter bndl.maplet) (r.hash k)
  else if bndl.branches.length ≤ 1 then
    some (if bndl.branches.length = 1 then 1#64 else 0#64)
  else none

/-- The loop over the values, with `btree_lookup_and_merge` of their branches. -/
def mergeFound (branches : List Nat) (found : BitVec 64) : Nat → Nat → Option Message →
    Option (Option Message)
  | 0, _, _ => none
  | fuel + 1, lastValue, result =>
      let idx := routingFilterGetNextValue r.shl found lastValue
      if idx = routingNotFound then some result
      else do
        let branch ← branches[idx]?
        let result ← mergeUnder r.cfg k result (messageIn (r.content branch) k)
        if isDefinitive result then some result
        else mergeFound branches found fuel idx result

/-- `trunk_ondisk_bundle_merge_lookup`. -/
def bundleMergeLookup (bndl : Bundle) (result : Option Message) : Option (Option Message) :=
  (r.foundValues k bndl).bind fun found =>
    r.mergeFound k bndl.branches found 65 routingNotFound result

/-- Bundles one after the other, until the result is definitive. -/
def bundlesMergeLookup : List Bundle → Option Message → Option (Option Message)
  | [], result => some result
  | bndl :: bndls, result => do
      let result ← r.bundleMergeLookup k bndl result
      if isDefinitive result then some result else bundlesMergeLookup bndls result

def searched (node : OndiskNode K) (pivot : OndiskPivot K) : List Bundle :=
  node.inflightBundles.take pivot.numLiveInflightBundles ++ [pivot.bundle]

/-- **`trunk_merge_lookup`** from a node down, through so many nodes at most.  There is no result
where a pivot is read from a page that has been released. -/
def trunkMergeLookup : Nat → OndiskNode K → Option Message → Option (Option Message)
  | 0, _, _ => none
  | depth + 1, node, result => do
      let (ptr, handle) ← findPivot r.pageSize node .init (Key.user k) .lessThanOrEqual
      let pivot ← ptr.read node handle
      if pivot.numLiveInflightBundles ≤ node.inflightBundles.length then
        let result ← r.bundlesMergeLookup k (searched node pivot) result
        if isDefinitive result = true ∨ pivot.childAddr = 0 then some result
        else do
          let child ← r.node pivot.childAddr
          trunkMergeLookup depth child result
      else none

end TrunkReader

/-! ## What the maplets are built from -/

/-- **The maplets of chains of compactions**: `maplet_compaction_task` adds the fingerprints of
every output branch under the number of the branch. -/
inductive Built (r : TrunkReader K) : RoutingFilter → List Nat → Prop
  | empty : Built r nullRoutingFilter []
  | add {memory : Bool} {old new : RoutingFilter} {branches : List Nat} {branch : Nat} :
      Built r old branches → HasRemainders r.filterCfg old →
        (r.content branch).length + old.numFingerprints < 2 ^ 32 →
          routingFilterAdd r.filterCfg memory old ((r.content branch).map fun t => r.hash t.key)
            (UInt16.ofNat branches.length) = some (.ok new) → Built r new (branches ++ [branch])

/-- A bundle of the trunk: a new one, without a maplet, or one that compactions have built.  From
the 32nd branch on, the walk over the values is not defined. -/
def BundleOk (r : TrunkReader K) (bndl : Bundle) : Prop :=
  bndl.branches.length ≤ 31 ∧
    (((r.filter bndl.maplet).present = false ∧ bndl.branches.length ≤ 1) ∨
      Built r (r.filter bndl.maplet) bndl.branches)

/-- A pivot of a node on the way of a key. -/
structure OnWay (r : TrunkReader K) (k : K) (node : OndiskNode K) (pivot : OndiskPivot K) :
    Prop where
  searchable : Searchable node (Key.user k) .lessThanOrEqual
  stays : StaysReferenced r.pageSize node (Key.user k) .lessThanOrEqual
  located : ∃ i offset, Located node (Key.user k) .lessThanOrEqual i ∧
    node.pivots[i]? = some (offset, pivot)
  live : pivot.numLiveInflightBundles ≤ node.inflightBundles.length
  bundles : ∀ bndl ∈ TrunkReader.searched node pivot, BundleOk r bndl

def branchesOf (bndls : List Bundle) : List Nat := bndls.flatMap fun bndl => bndl.branches.reverse

/-- **The way of a key** from a node to a leaf: the number of nodes, and the branches of all bundles
on it, newest first. -/
inductive Way (r : TrunkReader K) (k : K) : Nat → OndiskNode K → List Nat → Prop
  | leaf {node : OndiskNode K} {pivot : OndiskPivot K} :
      OnWay r k node pivot → pivot.childAddr = 0 →
        Way r k 1 node (branchesOf (TrunkReader.searched node pivot))
  | child {depth : Nat} {node child : OndiskNode K} {pivot : OndiskPivot K} {below : List Nat} :
      OnWay r k node pivot → pivot.childAddr ≠ 0 → r.node pivot.childAddr = some child →
        Way r k depth child below →
          Way r k (depth + 1) node (branchesOf (TrunkReader.searched node pivot) ++ below)

/-! ## Lookups in lists of branches -/

section Branches

variable {cfg : DataConfig K} {content : Nat → List (Tuple K)} {k : K}

theorem lookupBranches_of_isDefinitive {result : Option Message} (h : isDefinitive result = true)
    (branches : List Nat) : lookupBranches cfg content k branches result = some result := by
  cases branches with
  | nil => rfl
  | cons branch branches =>
      have hmerged : mergeUnder cfg k result (messageIn (content branch) k) = some result := by
        cases messageIn (content branch) k with
        | none => exact combine_none_right ..
        | some m =>
            have hfold : [m].foldlM (fun acc m => mergeUnder cfg k acc (some m)) result =
                some result := foldlM_of_isDefinitive h _
            rw [List.foldlM_cons] at hfold
            exact (bind_pure _).symm.trans hfold
      rw [lookupBranches, hmerged, Option.bind_some, if_pos h]

theorem lookupBranches_append (newer older : List Nat) : ∀ result,
    lookupBranches cfg content k (newer ++ older) result =
      (lookupBranches cfg content k newer result).bind
        (lookupBranches cfg content k older) := by
  induction newer with
  | nil => exact fun result => rfl
  | cons branch newer ih =>
      intro result
      rw [List.cons_append, lookupBranches, lookupBranches, Option.bind_assoc]
      refine Option.bind_congr fun merged _ => ?_
      by_cases hdef : isDefinitive merged = true
      · rw [if_pos hdef, if_pos hdef, Option.bind_some, lookupBranches_of_isDefinitive hdef]
      · rw [if_neg hdef, if_neg hdef, ih]

theorem lookupBranches_cons_of_none {branch : Nat} (h : messageIn (content branch) k = none)
    (branches : List Nat) (result : Option Message) :
    lookupBranches cfg content k (branch :: branches) result =
      lookupBranches cfg content k branches result := by
  rw [lookupBranches, h, mergeUnder, combine_none_right, Option.bind_some]
  by_cases hdef : isDefinitive result = true
  · rw [if_pos hdef, lookupBranches_of_isDefinitive hdef]
  · rw [if_neg hdef]

theorem lookupBranches_bitsBelow {branches : List Nat} {found : BitVec 64} :
    ∀ n, n ≤ branches.length → (∀ i branch, i < n → branches[i]? = some branch →
      messageIn (content branch) k ≠ none → found.getLsbD i = true) → ∀ result,
        lookupBranches cfg content k ((bitsBelow found n).filterMap (branches[·]?)) result =
          lookupBranches cfg content k (branches.take n).reverse result
  | 0, _, _, _ => rfl
  | n + 1, hn, hall, result => by
      have ih := lookupBranches_bitsBelow n (by omega) fun i branch hi => hall i branch (by omega)
      obtain ⟨branch, hbranch⟩ : ∃ branch, branches[n]? = some branch :=
        ⟨_, List.getElem?_eq_getElem hn⟩
      rw [List.take_add_one, hbranch, Option.toList_some, List.reverse_append,
        List.reverse_singleton, List.singleton_append, bitsBelow_succ]
      cases hbit : found.getLsbD n with
      | true =>
          rw [if_pos rfl, List.filterMap_cons_some hbranch, lookupBranches, lookupBranches]
          exact Option.bind_congr fun merged _ => by rw [ih]
      | false =>
          -- A branch that has the key would have been found.
          have hnone : messageIn (content branch) k = none := by
            by_contra hsome
            rw [hall n branch (Nat.lt_succ_self n) hbranch hsome] at hbit
            cases hbit
          rw [if_neg Bool.false_ne_true, ih, lookupBranches_cons_of_none hnone]

end Branches

/-! ## Bundles -/

section Bundles

variable {r : TrunkReader K} {k : K}

def addsOf (r : TrunkReader K) (branches : List Nat) : List (List UInt32 × UInt16) :=
  branches.zipIdx.map fun p => ((r.content p.1).map fun t => r.hash t.key, UInt16.ofNat p.2)

omit [LinearOrder K] in
theorem Built.addedTo {filter : RoutingFilter} {branches : List Nat} (h : Built r filter branches) :
    AddedTo r.filterCfg filter (addsOf r branches) := by
  induction h with
  | empty => exact .null
  | @add memory old new branches branch _ hbits hcount hadd ih =>
      have happend : addsOf r (branches ++ [branch]) = addsOf r branches ++
          [((r.content branch).map fun t => r.hash t.key, UInt16.ofNat branches.length)] := by
        simp [addsOf, List.zipIdx_append]
      rw [happend]
      exact .add ih hbits (by rwa [List.length_map]) hadd

omit [LinearOrder K] in
theorem mem_addsOf {branches : List Nat} (a : List UInt32 × UInt16) :
    a ∈ addsOf r branches ↔ ∃ i branch, branches[i]? = some branch ∧
      a = ((r.content branch).map fun t => r.hash t.key, UInt16.ofNat i) := by
  simp only [addsOf, List.mem_map, Prod.exists, List.mk_mem_zipIdx_iff_getElem?]
  constructor
  · rintro ⟨branch, i, hbranch, rfl⟩
    exact ⟨i, branch, hbranch, rfl⟩
  · rintro ⟨i, branch, hbranch, rfl⟩
    exact ⟨branch, i, hbranch, rfl⟩

/-- **What is found in a bundle**: no value without a branch, and every branch that has the key. -/
theorem BundleOk.foundValues {bndl : Bundle} (h : BundleOk r bndl) :
    ∃ found, r.foundValues k bndl = some found ∧
      (∀ i, bndl.branches.length ≤ i → found.getLsbD i = false) ∧
      ∀ i branch, bndl.branches[i]? = some branch → messageIn (r.content branch) k ≠ none →
        found.getLsbD i = true := by
  obtain ⟨hfew, hkind⟩ := h
  unfold TrunkReader.foundValues
  cases hpresent : (r.filter bndl.maplet).present with
  | false =>
      have hle : bndl.branches.length ≤ 1 := by
        rcases hkind with ⟨-, hle⟩ | hbuilt
        · exact hle
        · -- An add leaves a maplet that is present.
          have hnil := hbuilt.addedTo.stores.2 hpresent
          rw [addsOf, List.map_eq_nil_iff, List.zipIdx_eq_nil_iff] at hnil
          simp [hnil]
      rw [if_neg Bool.false_ne_true, if_pos hle]
      refine ⟨_, rfl, fun i hi => ?_, fun i branch hbranch _ => ?_⟩
      · split
        · rw [BitVec.getLsbD_one]
          simp
          omega
        · exact BitVec.getLsbD_zero
      · obtain ⟨hi, -⟩ := List.getElem?_eq_some_iff.mp hbranch
        obtain rfl : i = 0 := by omega
        rw [if_pos (by omega)]
        rfl
  | true =>
      rcases hkind with ⟨hnull, -⟩ | hbuilt
      · rw [hpresent] at hnull
        cases hnull
      · have hstores := hbuilt.addedTo.stores.1 hpresent
        have hvalue : ∀ i branch, bndl.branches[i]? = some branch →
            i < bndl.branches.length ∧ (UInt16.ofNat i).toNat = i := by
          intro i branch hbranch
          obtain ⟨hi, -⟩ := List.getElem?_eq_some_iff.mp hbranch
          exact ⟨hi, UInt16.toNat_ofNat_of_lt' (Nat.lt_of_lt_of_le hi (hfew.trans (by decide)))⟩
        obtain ⟨found, hfound, hbits⟩ := hstores.lookup_spec hpresent (by
          intro a ha
          obtain ⟨i, branch, hbranch, rfl⟩ := (mem_addsOf a).mp ha
          have hi := hvalue i branch hbranch
          rw [hi.2]
          omega) (r.hash k)
        rw [if_pos rfl]
        refine ⟨found, hfound, fun i hi => ?_, fun i branch hbranch hsome => ?_⟩
        · by_contra hbit
          rw [Bool.not_eq_false] at hbit
          have hlt : i < 64 := BitVec.lt_of_getLsbD hbit
          obtain ⟨a, ha, heq, -⟩ := (hbits i hlt).mp hbit
          obtain ⟨j, branch, hbranch, rfl⟩ := (mem_addsOf a).mp ha
          have hj := hvalue j branch hbranch
          rw [hj.2] at heq
          omega
        · have hi := hvalue i branch hbranch
          obtain ⟨m, hm⟩ := Option.ne_none_iff_exists'.mp hsome
          obtain ⟨t, ht, -⟩ := Option.map_eq_some_iff.mp hm
          have hkey : t.key = k := by simpa using List.find?_some ht
          -- Its tuple with the key put a fingerprint into the maplet.
          refine (hbits i (by omega)).mpr ⟨_, (mem_addsOf _).mpr ⟨i, branch, hbranch, rfl⟩, hi.2,
            r.hash t.key, List.mem_map_of_mem (List.mem_of_find?_eq_some ht), by rw [hkey]⟩

theorem mergeFound_eq {branches : List Nat} {found : BitVec 64} : ∀ fuel lastValue visited,
    visitValues r.shl found fuel lastValue = some visited → (∀ i ∈ visited, i < branches.length) →
      ∀ result, r.mergeFound k branches found fuel lastValue result =
        lookupBranches r.cfg r.content k (visited.filterMap (branches[·]?)) result
  | 0, _, _, h, _, _ => by cases h
  | fuel + 1, lastValue, visited, h, hlt, result => by
      rw [visitValues] at h
      rw [TrunkReader.mergeFound]
      by_cases hnone : routingFilterGetNextValue r.shl found lastValue = routingNotFound
      · rw [if_pos hnone] at h ⊢
        obtain rfl := Option.some.inj h
        rfl
      · rw [if_neg hnone] at h ⊢
        obtain ⟨rest, hrest, rfl⟩ := Option.map_eq_some_iff.mp h
        obtain ⟨branch, hbranch⟩ : ∃ branch,
            branches[routingFilterGetNextValue r.shl found lastValue]? = some branch :=
          ⟨_, List.getElem?_eq_getElem (hlt _ List.mem_cons_self)⟩
        rw [hbranch, List.filterMap_cons_some hbranch, lookupBranches, Option.bind_eq_bind,
          Option.bind_some]
        refine Option.bind_congr fun merged _ => ?_
        rw [mergeFound_eq fuel _ rest hrest fun i hi => hlt i (List.mem_cons_of_mem _ hi)]

theorem BundleOk.bundleMergeLookup (hshl : ShiftsOne r.shl) {bndl : Bundle} (h : BundleOk r bndl)
    (result : Option Message) : r.bundleMergeLookup k bndl result =
      lookupBranches r.cfg r.content k bndl.branches.reverse result := by
  obtain ⟨found, hfound, habove, hall⟩ := h.foundValues (k := k)
  have hfew := h.1
  have hwalk : visitValues r.shl found 65 routingNotFound = some (bitsBelow found 64) :=
    walk_of_small hshl fun i hi => habove i (by omega)
  rw [bitsBelow_eq_of_clear (by omega) fun i hi _ => habove i hi] at hwalk
  rw [TrunkReader.bundleMergeLookup, hfound, Option.bind_some,
    mergeFound_eq 65 _ _ hwalk fun i hi => (mem_bitsBelow.mp hi).1,
    lookupBranches_bitsBelow _ le_rfl fun i branch _ => hall i branch, List.take_length]

theorem bundlesMergeLookup_eq (hshl : ShiftsOne r.shl) : ∀ bndls : List Bundle,
    (∀ bndl ∈ bndls, BundleOk r bndl) → ∀ result, r.bundlesMergeLookup k bndls result =
      lookupBranches r.cfg r.content k (branchesOf bndls) result
  | [], _, _ => rfl
  | bndl :: bndls, hok, result => by
      have ih := bundlesMergeLookup_eq hshl bndls fun b hb => hok b (List.mem_cons_of_mem _ hb)
      rw [TrunkReader.bundlesMergeLookup, (hok bndl List.mem_cons_self).bundleMergeLookup hshl,
        branchesOf, List.flatMap_cons, lookupBranches_append]
      refine Option.bind_congr fun merged _ => ?_
      by_cases hdef : isDefinitive merged = true
      · rw [if_pos hdef, lookupBranches_of_isDefinitive hdef]
      · rw [if_neg hdef, ih, branchesOf]

end Bundles

/-! ## The whole way -/

section Ways

variable {r : TrunkReader K} {k : K}

theorem located_unique {node : OndiskNode K} {tgt : Key K} (hsorted : node.keys.Pairwise (· < ·))
    {i j : Nat} (hi : Located node tgt .lessThanOrEqual i)
    (hj : Located node tgt .lessThanOrEqual j) : i = j := by
  have hnot : ∀ i j, Located node tgt .lessThanOrEqual i → Located node tgt .lessThanOrEqual j →
      ¬ i < j := by
    rintro i j ⟨_, high, -, hhigh, -, hlt⟩ ⟨low, _, hlow, -, hle, -⟩ hij
    obtain ⟨_, hhigh⟩ := List.getElem?_eq_some_iff.mp hhigh
    obtain ⟨_, hlow⟩ := List.getElem?_eq_some_iff.mp hlow
    have hmono : high ≤ low := hhigh ▸ hlow ▸ hsorted.sortedLT.strictMono_get.monotone
      (show (⟨i + 1, _⟩ : Fin _) ≤ ⟨j, _⟩ from hij)
    exact absurd (hlt.trans_le hmono) (not_lt.mpr hle)
  exact Nat.le_antisymm (not_lt.mp (hnot j i hj hi)) (not_lt.mp (hnot i j hi hj))

theorem OnWay.step (hpage : 0 < r.pageSize) (hshl : ShiftsOne r.shl) {node : OndiskNode K}
    {pivot : OndiskPivot K} (h : OnWay r k node pivot) (depth : Nat) (result : Option Message) :
    r.trunkMergeLookup k (depth + 1) node result =
      (lookupBranches r.cfg r.content k (branchesOf (TrunkReader.searched node pivot)) result).bind
        fun merged => if isDefinitive merged = true ∨ pivot.childAddr = 0 then some merged
          else (r.node pivot.childAddr).bind fun child =>
            r.trunkMergeLookup k depth child merged := by
  obtain ⟨ptr, handle, hfind, hlocated, -, hholds⟩ :=
    findPivot_spec hpage OndiskNodeHandle.valid_init h.searchable
  obtain ⟨i, offset, hi, hpivot⟩ := h.located
  have hread : ptr.read node handle = some pivot := by
    rw [PivotPtr.read, if_pos (hholds.mpr h.stays),
      located_unique h.searchable.sorted hlocated hi, hpivot]
    rfl
  rw [TrunkReader.trunkMergeLookup, hfind]
  simp only [Option.bind_eq_bind, Option.bind_some, hread]
  rw [if_pos h.live, bundlesMergeLookup_eq hshl _ h.bundles]

end Ways

/-! ## A leaf with an update in flight -/

/-- Branch 5 is in the pivot bundle with a maplet, branch 6 in flight. -/
private def leafReader : TrunkReader Nat where
  cfg := appendConfig
  filterCfg := wideIndex
  hash := fun _ => 0x80000000
  pageSize := 4096
  shl := shiftsElse 0#32
  filter := fun a => if a = 1 then
      { present := true, numFingerprints := 1, numUnique := 1, valueSize := 0,
        indices := [wideBlock] }
    else nullRoutingFilter
  content := fun branch => if branch = 5 then [⟨7, ⟨.insert, [1]⟩⟩] else [⟨7, ⟨.update, [2]⟩⟩]
  node := fun _ => none

private def leafInFlight : OndiskNode Nat where
  height := 0
  pivots := [(100, ⟨⊥, 0, 1, ⟨1, [5]⟩⟩), (200, ⟨⊤, 0, 0, emptyBundle⟩)]
  inflightBundles := [⟨0, [6]⟩]

private theorem leafInFlight_onWay :
    OnWay leafReader 7 leafInFlight ⟨⊥, 0, 1, ⟨1, [5]⟩⟩ where
  searchable :=
    { two_le := by decide
      sorted := by decide +kernel
      first_le := fun key hkey => by
        cases hkey
        exact bot_le
      lt_last := fun key hkey => by
        cases hkey
        exact Or.inl (WithBot.coe_lt_coe.mpr (WithTop.coe_lt_top 7)) }
  stays := Or.inl (by decide +kernel)
  located := ⟨0, 100, ⟨⊥, ⊤, rfl, rfl, bot_le, WithBot.coe_lt_coe.mpr (WithTop.coe_lt_top 7)⟩, rfl⟩
  live := by decide
  bundles := fun bndl hbndl => by
    rcases List.mem_pair.mp hbndl with rfl | rfl
    · exact ⟨by decide, Or.inl ⟨by decide, by decide⟩⟩
    · exact ⟨by decide, Or.inr (@Built.add _ leafReader true _ _ [] 5 .empty
        (fun h => Bool.noConfusion h) (by decide) (by decide +kernel))⟩

end Trunk
end TreePass
