import TreePass.Trunk.IndexSplit

/-!
# Growing roots

When the root has been split, an incorporation builds new roots over the pieces, level by level,
until one is left.

* `TrunkStore` holds the nodes by address, and what the serializations to come return.
* `buildNewRoots` and `growRoots` are one level and the loop.
* `Tiles` says of some nodes that they have all keys between them, each with matching children.
* `buildNewRoots_tiles` is the step and `growRoots_spec` the run.
-/

namespace TreePass
namespace Trunk

open Btree (Key)

/-! ## Serialized nodes -/

/-- `trunk_ondisk_node_ref`. -/
structure NodeRef (K : Type) where
  key : Key K
  addr : Nat

/-- The serialized nodes, and for the serializations to come the extent of each, or that it fails. -/
structure TrunkStore (K : Type) where
  nodes : Nat → Option (TrunkNode K)
  extents : List (Option Nat)

section

variable {K : Type}

/-- `trunk_node_serialize`, as its callers see it. -/
def serializeNode (node : TrunkNode K) (d : TrunkStore K) : Option (NodeRef K × TrunkStore K) :=
  match d.extents with
  | some addr :: extents => node.pivots.head?.map fun pvt =>
      (⟨pvt.key, addr⟩, ⟨Function.update d.nodes addr (some node), extents⟩)
  | _ => none

/-- `serialize_nodes`. -/
def serializeNodes : List (TrunkNode K) → TrunkStore K → Option (List (NodeRef K) × TrunkStore K)
  | [], d => some ([], d)
  | node :: nodes, d => do
      let (ref, d') ← serializeNode node d
      let (refs, d'') ← serializeNodes nodes d'
      some (ref :: refs, d'')

/-! ## New roots -/

/-- `trunk_pivot_create_from_ondisk_node_ref`. -/
def pivotOfNodeRef (odnref : NodeRef K) : TrunkPivot K := ⟨odnref.key, odnref.addr, 0, .zero, .zero⟩

/-- The new root of `build_new_roots`, before it is split. -/
def newRoot (height : Nat) (nodeRefs : List (NodeRef K)) : TrunkNode K where
  height := height + 1
  pivots := nodeRefs.map pivotOfNodeRef ++ [⟨⊤, 0, 0, .zero, .zero⟩]
  pivotBundles := List.replicate nodeRefs.length emptyBundle
  numOldBundles := 0
  inflightBundles := []

/-- `build_new_roots`; `none` if a serialization fails. -/
def buildNewRoots (targetFanout height : Nat) (nodeRefs : List (NodeRef K)) (d : TrunkStore K) :
    Option (List (NodeRef K) × TrunkStore K) :=
  serializeNodes (indexSplit targetFanout (newRoot height nodeRefs)) d

/-- How the loop ends. -/
inductive RootsResult (K : Type) where
  | outOfFuel
  /-- A serialization has failed, and the incorporation returns its status. -/
  | failed
  | done (root : NodeRef K) (d : TrunkStore K)

/-- The loop of `trunk_incorporate_prepare`. -/
def growRoots (targetFanout : Nat) : Nat → Nat → List (NodeRef K) → TrunkStore K → RootsResult K
  | 0, _, nodeRefs, d =>
      if 1 < nodeRefs.length then .outOfFuel
      else match nodeRefs with
        | root :: _ => .done root d
        | [] => .failed
  | fuel + 1, height, nodeRefs, d =>
      if 1 < nodeRefs.length then
        match buildNewRoots targetFanout height nodeRefs d with
        | some (nodeRefs', d') => growRoots targetFanout fuel (height + 1) nodeRefs' d'
        | none => .failed
      else match nodeRefs with
        | root :: _ => .done root d
        | [] => .failed

/-! ## Serializing -/

/-- The extents to come are free, and none comes twice. -/
structure TrunkStore.Valid (d : TrunkStore K) : Prop where
  free : ∀ a, some a ∈ d.extents → d.nodes a = none ∧ a ≠ 0 ∧ 256 ∣ a
  distinct : d.extents.Pairwise fun e e' => e = none ∨ e ≠ e'

def TrunkStore.Keeps (d d' : TrunkStore K) : Prop :=
  ∀ a node, d.nodes a = some node → d'.nodes a = some node

/-- The node is at the address of the reference, under its first key. -/
structure StoredAt (d : TrunkStore K) (ref : NodeRef K) (node : TrunkNode K) : Prop where
  stored : d.nodes ref.addr = some node
  key_eq : node.keys[0]? = some ref.key
  addr_ne_zero : ref.addr ≠ 0
  aligned : 256 ∣ ref.addr

theorem StoredAt.mono {d d' : TrunkStore K} {ref : NodeRef K} {node : TrunkNode K}
    (h : StoredAt d ref node) (hkeeps : d.Keeps d') : StoredAt d' ref node :=
  { h with stored := hkeeps _ _ h.stored }

theorem serializeNode_spec {node : TrunkNode K} {d d' : TrunkStore K} {ref : NodeRef K}
    (hd : d.Valid) (hrun : serializeNode node d = some (ref, d')) :
    StoredAt d' ref node ∧ d.Keeps d' ∧ d'.Valid ∧ d.extents = some ref.addr :: d'.extents := by
  obtain ⟨nodes, extents⟩ := d
  cases extents with
  | nil => cases hrun
  | cons e extents =>
      cases e with
      | none => cases hrun
      | some addr =>
          obtain ⟨pvt, hpvt, heq⟩ := Option.map_eq_some_iff.mp hrun
          cases heq
          obtain ⟨hfree, hzero, haligned⟩ := hd.free addr List.mem_cons_self
          obtain ⟨hfirst, hrest⟩ := List.pairwise_cons.mp hd.distinct
          refine ⟨⟨Function.update_self .., ?_, hzero, haligned⟩, ?_, ⟨?_, hrest⟩, rfl⟩
          · show (node.pivots.map (·.key))[0]? = some pvt.key
            rw [List.getElem?_map, ← List.head?_eq_getElem?, hpvt]
            rfl
          · intro a old hold
            have hne : a ≠ addr := by
              rintro rfl
              rw [hfree] at hold
              cases hold
            exact (Function.update_of_ne hne ..).trans hold
          · intro a ha
            obtain ⟨hfreeA, hrestA⟩ := hd.free a (List.mem_cons_of_mem _ ha)
            have hne : a ≠ addr := by
              rintro rfl
              exact (hfirst _ ha).elim (fun h => by cases h) fun h => h rfl
            exact ⟨(Function.update_of_ne hne ..).trans hfreeA, hrestA⟩

theorem serializeNodes_spec (nodes : List (TrunkNode K)) {d d' : TrunkStore K}
    {refs : List (NodeRef K)} (hd : d.Valid) (hrun : serializeNodes nodes d = some (refs, d')) :
    refs.length = nodes.length ∧ d.Keeps d' ∧ d'.Valid ∧
      (∀ (i : Nat) node, nodes[i]? = some node → ∃ ref, refs[i]? = some ref ∧ StoredAt d' ref node) ∧
      d'.extents = d.extents.drop nodes.length := by
  induction nodes generalizing d refs with
  | nil =>
      cases hrun
      exact ⟨rfl, fun _ _ h => h, hd, fun i node h => (by cases h), rfl⟩
  | cons node nodes ih =>
      obtain ⟨⟨ref, d₁⟩, hone, hrest⟩ := Option.bind_eq_some_iff.mp hrun
      obtain ⟨⟨refs', d₂⟩, hothers, heq⟩ := Option.bind_eq_some_iff.mp hrest
      cases heq
      obtain ⟨hstored, hkeeps, hvalid, hextents⟩ := serializeNode_spec hd hone
      obtain ⟨hlen, hkeeps', hvalid', hall, hextents'⟩ := ih hvalid hothers
      refine ⟨congrArg Nat.succ hlen, fun a n h => hkeeps' a n (hkeeps a n h), hvalid', ?_, ?_⟩
      · intro i n hn
        cases i with
        | zero =>
            cases hn
            exact ⟨ref, rfl, hstored.mono hkeeps'⟩
        | succ i => exact hall i n hn
      · rw [hextents', hextents]
        rfl

theorem exists_serializeNodes (nodes : List (TrunkNode K)) {d : TrunkStore K}
    (hpivots : ∀ node ∈ nodes, node.pivots ≠ []) (hsome : ∀ e ∈ d.extents, e ≠ none)
    (henough : nodes.length ≤ d.extents.length) :
    ∃ refs d', serializeNodes nodes d = some (refs, d') := by
  induction nodes generalizing d with
  | nil => exact ⟨[], d, rfl⟩
  | cons node nodes ih =>
      obtain ⟨stored, extents⟩ := d
      cases extents with
      | nil => cases henough
      | cons e extents =>
          cases e with
          | none => exact absurd rfl (hsome none List.mem_cons_self)
          | some addr =>
              obtain ⟨pvt, rest, hpvt⟩ := List.exists_cons_of_ne_nil (hpivots node List.mem_cons_self)
              have hone : serializeNode node ⟨stored, some addr :: extents⟩ =
                  some (⟨pvt.key, addr⟩, ⟨Function.update stored addr (some node), extents⟩) := by
                show node.pivots.head?.map _ = _
                rw [hpvt]
                rfl
              obtain ⟨refs, d', hrest⟩ := ih (d := ⟨Function.update stored addr (some node), extents⟩)
                (fun n hn => hpivots n (List.mem_cons_of_mem _ hn))
                (fun e he => hsome e (List.mem_cons_of_mem _ he)) (Nat.le_of_succ_le_succ henough)
              refine ⟨⟨pvt.key, addr⟩ :: refs, d', ?_⟩
              rw [serializeNodes, hone]
              show (serializeNodes nodes _).bind _ = _
              rw [hrest]
              rfl

/-! ## The pivots of a new root -/

theorem length_newRoot (height : Nat) (refs : List (NodeRef K)) :
    (newRoot height refs).pivots.length = refs.length + 1 := by
  show (refs.map pivotOfNodeRef ++ [_]).length = _
  rw [List.length_append, List.length_map, List.length_singleton]

theorem numChildren_newRoot (height : Nat) (refs : List (NodeRef K)) :
    (newRoot height refs).numChildren = refs.length := by
  rw [TrunkNode.numChildren, length_newRoot, Nat.add_sub_cancel]

theorem getElem?_newRoot {height i : Nat} {refs : List (NodeRef K)} {ref : NodeRef K} (h : refs[i]? = some ref) :
    (newRoot height refs).pivots[i]? = some (pivotOfNodeRef ref) := by
  have hi : i < refs.length := (List.getElem?_eq_some_iff.mp h).1
  show (refs.map pivotOfNodeRef ++ [_])[i]? = _
  rw [List.getElem?_append_left (by rwa [List.length_map]), List.getElem?_map, h]
  rfl

theorem children_newRoot (height : Nat) (refs : List (NodeRef K)) :
    (newRoot height refs).children = refs.map pivotOfNodeRef := List.dropLast_concat

end

/-! ## Nodes that have all keys between them -/

section

variable {K : Type} [LinearOrder K]

/-- The bound above node `i`: the key of the next one, and of the last one plus infinity. -/
def upperBound (refs : List (NodeRef K)) (i : Nat) : Key K := (refs[i + 1]?.map (·.key)).getD ⊤

/-- The pivots of a node increase, and the children of an index node have the ranges between
consecutive ones. -/
structure RangesMatch (d : TrunkStore K) (node : TrunkNode K) : Prop where
  sorted : node.keys.Pairwise (· < ·)
  one_lt : 1 < node.pivots.length
  child : node.height ≠ 0 → ∀ (i : Nat) pvt, node.pivots[i]? = some pvt → i + 1 < node.pivots.length →
    ∃ child, d.nodes pvt.childAddr = some child ∧ child.keys[0]? = some pvt.key ∧
      child.keys[child.pivots.length - 1]? = node.keys[i + 1]?

/-- The nodes of the references have all keys from minus to plus infinity between them, each from
its key up to that of the next one. -/
structure Tiles (d : TrunkStore K) (refs : List (NodeRef K)) : Prop where
  first : refs[0]?.map (·.key) = some ⊥
  node : ∀ (i : Nat) ref, refs[i]? = some ref → ∃ node, StoredAt d ref node ∧ RangesMatch d node ∧
    node.keys[node.pivots.length - 1]? = some (upperBound refs i)

variable {d d' : TrunkStore K} {refs : List (NodeRef K)} {height targetFanout : Nat}

theorem RangesMatch.mono {node : TrunkNode K} (h : RangesMatch d node) (hkeeps : d.Keeps d') :
    RangesMatch d' node where
  sorted := h.sorted
  one_lt := h.one_lt
  child := fun hheight i pvt hpvt hi => by
    obtain ⟨child, hget, hbounds⟩ := h.child hheight i pvt hpvt hi
    exact ⟨child, hkeeps _ _ hget, hbounds⟩

omit [LinearOrder K] in
theorem getElem?_keys_newRoot_succ {i : Nat} (hi : i < refs.length) :
    (newRoot height refs).keys[i + 1]? = some (upperBound refs i) := by
  show ((refs.map pivotOfNodeRef ++ [_]).map TrunkPivot.key)[i + 1]? = _
  rw [List.map_append, List.map_map, upperBound]
  by_cases hlt : i + 1 < refs.length
  · rw [List.getElem?_append_left (by rwa [List.length_map]), List.getElem?_map,
      List.getElem?_eq_getElem hlt]
    rfl
  · have hend : i + 1 = refs.length := by omega
    rw [List.getElem?_append_right (by rw [List.length_map]; omega), List.length_map, hend,
      Nat.sub_self, List.getElem?_eq_none (le_refl _)]
    rfl

theorem Tiles.key_lt (h : Tiles d refs) {i : Nat} {ref : NodeRef K} (href : refs[i]? = some ref) :
    ref.key < upperBound refs i := by
  obtain ⟨node, hstored, hranges, hlast⟩ := h.node i ref href
  obtain ⟨hzero, hfirstEq⟩ := List.getElem?_eq_some_iff.mp hstored.key_eq
  obtain ⟨hend, hlastEq⟩ := List.getElem?_eq_some_iff.mp hlast
  have hone := hranges.one_lt
  rw [← hfirstEq, ← hlastEq]
  exact List.pairwise_iff_getElem.mp hranges.sorted _ _ hzero hend (by omega)

theorem Tiles.newRoot_formed (h : Tiles d refs) (height : Nat) (hne : refs ≠ []) :
    WellFormedIndex (newRoot height refs) where
  height_pos := Nat.succ_pos height
  one_lt := by
    rw [length_newRoot]
    have := List.length_pos_of_ne_nil hne
    omega
  bundles_length := by
    rw [length_newRoot]
    exact List.length_replicate
  old_le := le_refl _
  child_ne_zero := fun pvt hpvt => by
    rw [children_newRoot] at hpvt
    obtain ⟨ref, href, rfl⟩ := List.mem_map.mp hpvt
    obtain ⟨i, hi⟩ := List.mem_iff_getElem?.mp href
    obtain ⟨node, hstored, -⟩ := h.node i ref hi
    exact hstored.addr_ne_zero
  start_le := fun pvt hpvt => by
    rw [children_newRoot] at hpvt
    obtain ⟨ref, -, rfl⟩ := List.mem_map.mp hpvt
    exact Nat.zero_le _
  key_lt := fun i lbkey ubkey hlb hub => by
    have hi : i + 1 < (newRoot height refs).keys.length := (List.getElem?_eq_some_iff.mp hub).1
    rw [TrunkNode.keys, List.length_map, length_newRoot] at hi
    have hlt : i < refs.length := by omega
    have href : refs[i]? = some refs[i] := List.getElem?_eq_getElem hlt
    rw [getElem?_keys_newRoot_succ hlt] at hub
    rw [TrunkNode.keys, List.getElem?_map, getElem?_newRoot href] at hlb
    obtain rfl := Option.some.inj hlb
    obtain rfl := Option.some.inj hub
    exact h.key_lt href
  stats_nonneg := fun pvt hpvt => by
    rw [children_newRoot] at hpvt
    obtain ⟨ref, -, rfl⟩ := List.mem_map.mp hpvt
    exact ⟨⟨le_refl _, le_refl _⟩, ⟨le_refl _, le_refl _⟩⟩

theorem Tiles.newRoot_rangesMatch (h : Tiles d refs) (height : Nat) (hne : refs ≠ []) :
    RangesMatch d (newRoot height refs) := by
  have hformed := h.newRoot_formed height hne
  refine ⟨hformed.sorted, hformed.one_lt, fun _ i pvt hpvt hi => ?_⟩
  rw [length_newRoot] at hi
  obtain ⟨ref, href⟩ : ∃ ref, refs[i]? = some ref := ⟨_, List.getElem?_eq_getElem (by omega)⟩
  have hpivot : pivotOfNodeRef ref = pvt := Option.some.inj ((getElem?_newRoot href).symm.trans hpvt)
  obtain ⟨child, hstored, hranges, hlast⟩ := h.node i _ href
  have haddr : pvt.childAddr = ref.addr := by
    rw [← hpivot]
    exact Nat.div_mul_cancel hstored.aligned
  refine ⟨child, haddr ▸ hstored.stored, ?_, ?_⟩
  · rw [← hpivot]
    exact hstored.key_eq
  · rw [hlast, getElem?_keys_newRoot_succ (by omega)]

theorem RangesMatch.initSplit {index : TrunkNode K} (h : RangesMatch d index)
    (hformed : WellFormedIndex index) {start stop : Nat} (hlt : start < stop)
    (hstop : stop < index.pivots.length) : RangesMatch d (indexInitSplit index start stop) := by
  have hgroup := hformed.initSplit hlt hstop
  have hlen : (indexInitSplit index start stop).pivots.length = _ :=
    length_pivots_indexInitSplit hlt hstop
  refine ⟨hgroup.sorted, hgroup.one_lt, fun hheight i pvt hpvt hi => ?_⟩
  have hsame : (indexInitSplit index start stop).pivots[i]? = index.pivots[start + i]? :=
    Lib.getElem?_segment (by omega)
  obtain ⟨child, hget, hfirst, hlast⟩ := h.child hheight (start + i) pvt (hsame ▸ hpvt) (by omega)
  refine ⟨child, hget, hfirst, ?_⟩
  rw [hlast, getElem?_keys_indexInitSplit (by omega), Nat.add_assoc]

/-! ## One level -/

theorem serializeNodes_indexSplit_tiles (hfanout : 0 < targetFanout) (hd : d.Valid)
    {index : TrunkNode K} (hformed : WellFormedIndex index) (hranges : RangesMatch d index)
    (hfirst : index.keys[0]? = some ⊥) (hlast : index.keys[index.numChildren]? = some ⊤)
    {refs' : List (NodeRef K)}
    (hrun : serializeNodes (indexSplit targetFanout index) d = some (refs', d')) :
    Tiles d' refs' ∧ d'.Valid ∧ refs'.length = numSplitNodes targetFanout index ∧
      d'.extents = d.extents.drop refs'.length := by
  obtain ⟨hlen, hkeeps, hvalid, hall, hextents⟩ := serializeNodes_spec _ hd hrun
  rw [indexSplit_eq, List.length_map, List.length_range] at hlen hextents
  rw [← hlen] at hextents
  have hgrouped := hformed.grouped hfanout
  have hone := hformed.one_lt
  have hchildren : index.numChildren = index.pivots.length - 1 := rfl
  have hgroups : ∀ i, i < refs'.length → groupStart targetFanout index i <
      groupStart targetFanout index (i + 1) ∧
        groupStart targetFanout index (i + 1) < index.pivots.length := by
    intro i hi
    have hgroup := hformed.group hfanout (hi.trans_eq hlen)
    exact ⟨hgroup.1, hgroup.2.2⟩
  generalize hplace : groupStart targetFanout index = place at hgroups
  have hzero : place 0 = 0 := hplace ▸ Lib.share_zero _ _
  have hend : place refs'.length = index.numChildren := by
    rw [hlen, ← hplace, groupStart, Lib.share_self hgrouped.numNodes_pos]
  have hnode : ∀ i, i < refs'.length → place i < place (i + 1) ∧
      place (i + 1) < index.pivots.length ∧ ∃ ref, refs'[i]? = some ref ∧
        StoredAt d' ref (indexInitSplit index (place i) (place (i + 1))) := by
    intro i hi
    obtain ⟨hlt, hstop⟩ := hgroups i hi
    refine ⟨hlt, hstop, hall i _ ?_⟩
    rw [indexSplit_eq, hplace, List.getElem?_map, List.getElem?_range (hi.trans_eq hlen)]
    rfl
  refine ⟨⟨?_, fun i ref href => ?_⟩, hvalid, hlen, hextents⟩
  · obtain ⟨hlt, -, ref, href, hstored⟩ := hnode 0 (hlen ▸ hgrouped.numNodes_pos)
    have hkey := hstored.key_eq
    rw [getElem?_keys_indexInitSplit (by omega), hzero, Nat.add_zero, hfirst] at hkey
    rw [href, Option.map_some, hkey]
  · have hi : i < refs'.length := (List.getElem?_eq_some_iff.mp href).1
    obtain ⟨hlt, hstop, ref', href', hstored⟩ := hnode i hi
    obtain rfl := Option.some.inj (href.symm.trans href')
    refine ⟨_, hstored, (hranges.initSplit hformed hlt hstop).mono hkeeps, ?_⟩
    rw [length_pivots_indexInitSplit hlt hstop, Nat.add_sub_cancel,
      getElem?_keys_indexInitSplit (by omega), Nat.add_sub_cancel' hlt.le]
    by_cases hmore : i + 1 < refs'.length
    · -- The next node begins where this one ends.
      obtain ⟨hlt', -, next, hnext, hstored'⟩ := hnode (i + 1) hmore
      have hkey := hstored'.key_eq
      rw [getElem?_keys_indexInitSplit (by omega), Nat.add_zero] at hkey
      rw [hkey, upperBound, hnext]
      rfl
    · rw [show i + 1 = refs'.length by omega, hend, hlast, upperBound,
        List.getElem?_eq_none (by omega)]
      rfl

theorem buildNewRoots_tiles (hfanout : 0 < targetFanout) (hd : d.Valid) (h : Tiles d refs)
    (hne : refs ≠ []) {refs' : List (NodeRef K)}
    (hrun : buildNewRoots targetFanout height refs d = some (refs', d')) :
    Tiles d' refs' ∧ d'.Valid ∧ refs'.length = Lib.sharesFor refs.length targetFanout ∧
      d'.extents = d.extents.drop refs'.length := by
  have hnum : numSplitNodes targetFanout (newRoot height refs) =
      Lib.sharesFor refs.length targetFanout := by
    rw [numSplitNodes, numChildren_newRoot]
    rfl
  have hpos : 0 < refs.length := List.length_pos_of_ne_nil hne
  have hfirst : (newRoot height refs).keys[0]? = some ⊥ := by
    obtain ⟨ref, href⟩ : ∃ ref, refs[0]? = some ref := ⟨_, List.getElem?_eq_getElem hpos⟩
    have hbottom := h.first
    rw [href] at hbottom
    rw [TrunkNode.keys, List.getElem?_map, getElem?_newRoot href]
    exact hbottom
  have hlast : (newRoot height refs).keys[(newRoot height refs).numChildren]? = some ⊤ := by
    have hkey : (newRoot height refs).keys[refs.length - 1 + 1]? = _ :=
      getElem?_keys_newRoot_succ (by omega)
    have hnone : refs[refs.length - 1 + 1]? = none := List.getElem?_eq_none (by omega)
    rw [Nat.sub_add_cancel hpos, upperBound, hnone] at hkey
    rw [numChildren_newRoot, hkey]
    rfl
  rw [← hnum]
  exact serializeNodes_indexSplit_tiles hfanout hd (h.newRoot_formed height hne)
    (h.newRoot_rangesMatch height hne) hfirst hlast hrun

/-! ## The loop -/

/-- What the loop comes to from some nodes. -/
structure Grows (d : TrunkStore K) (refs : List (NodeRef K)) (result : RootsResult K) : Prop where
  /-- It ends. -/
  terminates : result ≠ .outOfFuel
  root : ∀ ref d', result = .done ref d' → Tiles d' [ref]
  /-- It fails only if a serialization does. -/
  succeeds : (∀ e ∈ d.extents, e ≠ none) → 2 * refs.length ≤ d.extents.length →
    ∃ ref d', result = .done ref d'

private theorem grows_one {ref : NodeRef K} (h : Tiles d [ref]) : Grows d [ref] (.done ref d) where
  terminates := fun heq => by cases heq
  root := fun ref' d' heq => by
    cases heq
    exact h
  succeeds := fun _ _ => ⟨ref, d, rfl⟩

private theorem Tiles.eq_singleton (h : Tiles d refs) (hone : ¬ 1 < refs.length) :
    ∃ ref, refs = [ref] := by
  have hfirst := h.first
  match refs with
  | [] => cases hfirst
  | [ref] => exact ⟨ref, rfl⟩
  | _ :: _ :: rest =>
      rw [List.length_cons, List.length_cons] at hone
      omega

theorem growRoots_spec (hfanout : 2 ≤ targetFanout) (fuel height : Nat) {d : TrunkStore K}
    {refs : List (NodeRef K)} (hd : d.Valid) (h : Tiles d refs) (hfuel : refs.length ≤ fuel + 1) :
    Grows d refs (growRoots targetFanout fuel height refs d) := by
  induction fuel generalizing height d refs with
  | zero =>
      obtain ⟨ref, rfl⟩ := h.eq_singleton (by omega)
      exact grows_one h
  | succ fuel ih =>
      by_cases hmany : 1 < refs.length
      · unfold growRoots
        rw [if_pos hmany]
        cases hbuild : buildNewRoots targetFanout height refs d with
        | none =>
            refine ⟨fun heq => (by cases heq), fun _ _ heq => (by cases heq), fun hsome henough => ?_⟩
            -- There were enough extents for this level.
            have hformed := h.newRoot_formed height (List.ne_nil_of_length_pos (by omega))
            have hsplits := indexSplit_splits hformed (show 0 < targetFanout by omega)
            have hfewer := Lib.sharesFor_lt hmany hfanout
            have hlen : (indexSplit targetFanout (newRoot height refs)).length =
                Lib.sharesFor refs.length targetFanout := by
              rw [indexSplit_eq, List.length_map, List.length_range, numSplitNodes,
                numChildren_newRoot]
              rfl
            obtain ⟨refs', d', hrun⟩ := exists_serializeNodes
              (indexSplit targetFanout (newRoot height refs)) (fun node hnode hnil => by
                have hone := (hsplits.formed node hnode).one_lt
                rw [hnil] at hone
                cases hone) hsome (by omega)
            rw [buildNewRoots, hrun] at hbuild
            cases hbuild
        | some next =>
            obtain ⟨refs', d'⟩ := next
            obtain ⟨htiles, hvalid, hlen, hextents⟩ :=
              buildNewRoots_tiles (by omega) hd h (List.ne_nil_of_length_pos (by omega)) hbuild
            have hfewer := Lib.sharesFor_lt hmany hfanout
            have hrest := ih (height + 1) hvalid htiles (by omega)
            refine ⟨hrest.terminates, hrest.root, fun hsome henough => ?_⟩
            by_cases hdone : 1 < refs'.length
            · refine hrest.succeeds (fun e he => hsome e ?_) ?_
              · rw [hextents] at he
                exact List.mem_of_mem_drop he
              · have hhalf : 2 * Lib.sharesFor refs.length targetFanout ≤ refs.length + 1 :=
                  Lib.two_mul_sharesFor_le hfanout
                rw [hextents, List.length_drop]
                omega
            · obtain ⟨ref, rfl⟩ := htiles.eq_singleton hdone
              refine ⟨ref, d', ?_⟩
              show growRoots targetFanout fuel (height + 1) [ref] d' = _
              cases fuel with
              | zero => rfl
              | succ fuel => rfl
      · obtain ⟨ref, rfl⟩ := h.eq_singleton hmany
        exact grows_one h

end

/-! ## Two leaves -/

private def leafOf (low high : Key Nat) : TrunkNode Nat where
  height := 0
  pivots := [⟨low, 0, 0, .zero, .zero⟩, ⟨high, 0, 0, .zero, .zero⟩]
  pivotBundles := [emptyBundle]
  numOldBundles := 0
  inflightBundles := []

private def twoLeaves : TrunkStore Nat where
  nodes := fun addr => if addr = 4096 then some (leafOf ⊥ (Key.user 10))
    else if addr = 8192 then some (leafOf (Key.user 10) ⊤) else none
  extents := [some 12288]

private def twoRefs : List (NodeRef Nat) := [⟨⊥, 4096⟩, ⟨Key.user 10, 8192⟩]

private theorem leafOf_rangesMatch {low high : Key Nat} (hlt : low < high) :
    RangesMatch twoLeaves (leafOf low high) where
  sorted := List.pairwise_pair.mpr hlt
  one_lt := Nat.one_lt_two
  child := fun hheight => absurd rfl hheight

private theorem twoRefs_tiles : Tiles twoLeaves twoRefs where
  first := rfl
  node := fun i ref href => by
    match i with
    | 0 =>
        cases href
        exact ⟨leafOf ⊥ (Key.user 10), ⟨rfl, rfl, by decide, by decide⟩,
          leafOf_rangesMatch (WithBot.bot_lt_coe _), rfl⟩
    | 1 =>
        cases href
        exact ⟨leafOf (Key.user 10) ⊤, ⟨rfl, rfl, by decide, by decide⟩,
          leafOf_rangesMatch (WithBot.coe_lt_coe.mpr (WithTop.coe_lt_top 10)), rfl⟩
    | i + 2 => cases href

private theorem twoLeaves_valid : twoLeaves.Valid where
  free := fun a ha => by
    have haddr : a = 12288 := by simpa [twoLeaves] using ha
    subst haddr
    decide
  distinct := List.pairwise_singleton _ _

end Trunk
end TreePass
