import TreePass.Btree.Shape

/-!
# Trees in levels

A tree that was packed from left to right has the same order at every height: the nodes of a height
are linked from left to right, and every pivot is the first key of the node it leads to.  From it
follows where a lookup ends that stops above the leaves.

* `nodesOfHeight` are the nodes of a height, `keysOfHeight` the keys of their entries.
* `LevelShaped` is the shape.
* `LevelShaped.lookupNode_spec` is what a lookup finds at any height.
-/

namespace TreePass
namespace Btree

variable {K : Type}

/-! ## Levels -/

def Node.keys (hdr : Node K) : List (Key K) :=
  if hdr.height = 0 then hdr.entries.map Prod.fst else hdr.pivots.map IndexEntry.pivot

theorem Node.length_keys (hdr : Node K) : hdr.keys.length = hdr.numEntries := by
  unfold keys numEntries
  by_cases h : hdr.height = 0
  · rw [if_pos h, if_pos h, List.length_map, Node.length_entries]
  · rw [if_neg h, if_neg h, List.length_map]

variable (pages : Nat → Node K) (rootAddr : Nat)

def nodesOfHeight (h : Nat) : List Nat := leavesUnder pages ((pages rootAddr).height - h) rootAddr

def keyChunks (h : Nat) : List (List (Key K)) :=
  (nodesOfHeight pages rootAddr h).map fun addr => (pages addr).keys

def keysOfHeight (h : Nat) : List (Key K) := (keyChunks pages rootAddr h).flatten

/-- **Trees in levels.** -/
structure LevelShaped [LinearOrder K] : Prop where
  height_eq : ∀ h ≤ (pages rootAddr).height, ∀ addr ∈ nodesOfHeight pages rootAddr h,
    (pages addr).height = h
  nonempty : ∀ h ≤ (pages rootAddr).height, ∀ addr ∈ nodesOfHeight pages rootAddr h,
    (pages addr).keys ≠ []
  /-- Every pivot is the first key of the node it leads to. -/
  pivot_eq : ∀ h < (pages rootAddr).height, ∀ addr ∈ nodesOfHeight pages rootAddr (h + 1),
    ∀ e ∈ (pages addr).pivots, (pages e.childAddr).keys.head? = some e.pivot
  linked : ∀ h ≤ (pages rootAddr).height, Linked pages 0 (nodesOfHeight pages rootAddr h)
  addr_ne_zero : ∀ h ≤ (pages rootAddr).height, 0 ∉ nodesOfHeight pages rootAddr h
  ascending : (keysOfHeight pages rootAddr 0).Pairwise (· < ·)

variable {pages rootAddr}

theorem leavesUnder_succ (n addr : Nat) :
    leavesUnder pages (n + 1) addr = (leavesUnder pages n addr).flatMap fun a =>
      (pages a).pivots.map IndexEntry.childAddr := by
  induction n generalizing addr with
  | zero =>
      show (pages addr).pivots.flatMap (fun e => [e.childAddr]) = _
      rw [leavesUnder, List.flatMap_singleton, List.map_eq_flatMap]
  | succ n ih =>
      show (pages addr).pivots.flatMap (fun e => leavesUnder pages (n + 1) e.childAddr) = _
      rw [leavesUnder, List.flatMap_assoc]
      exact List.flatMap_congr fun e _ => ih e.childAddr

theorem nodesOfHeight_eq {h : Nat} (hlt : h < (pages rootAddr).height) :
    nodesOfHeight pages rootAddr h = (nodesOfHeight pages rootAddr (h + 1)).flatMap fun a =>
      (pages a).pivots.map IndexEntry.childAddr := by
  unfold nodesOfHeight
  rw [← leavesUnder_succ]
  congr 1
  omega

theorem nodesOfHeight_root : nodesOfHeight pages rootAddr (pages rootAddr).height = [rootAddr] := by
  unfold nodesOfHeight
  rw [Nat.sub_self]
  rfl

theorem keyChunks_getElem {h j addr : Nat}
    (hj : (nodesOfHeight pages rootAddr h)[j]? = some addr) :
    (keyChunks pages rootAddr h)[j]? = some (pages addr).keys := by
  unfold keyChunks
  rw [List.getElem?_map, hj]
  rfl

private theorem heads_sublist {α : Type*} (cs : List (List α)) :
    (cs.filterMap List.head?).Sublist cs.flatten := by
  induction cs with
  | nil => exact List.Sublist.refl _
  | cons c cs ih =>
      rw [List.flatten_cons]
      cases c with
      | nil => exact ih
      | cons x c =>
          show (x :: cs.filterMap List.head?).Sublist (x :: (c ++ cs.flatten))
          exact (ih.trans (List.sublist_append_right c _)).cons_cons x

namespace LevelShaped

variable [LinearOrder K] (s : LevelShaped pages rootAddr)

include s

theorem keys_eq {h addr : Nat} (hpos : 0 < h) (hle : h ≤ (pages rootAddr).height)
    (hmem : addr ∈ nodesOfHeight pages rootAddr h) :
    (pages addr).keys = (pages addr).pivots.map IndexEntry.pivot := by
  unfold Node.keys
  rw [if_neg (by rw [s.height_eq h hle addr hmem]; omega)]

theorem keysOfHeight_succ {h : Nat} (hlt : h < (pages rootAddr).height) :
    (keysOfHeight pages rootAddr (h + 1)).map some =
      (keyChunks pages rootAddr h).map List.head? := by
  unfold keysOfHeight keyChunks
  rw [nodesOfHeight_eq hlt, List.map_map, List.map_flatMap, List.map_flatten, List.map_map,
    List.flatMap_def]
  congr 1
  refine List.map_congr_left fun addr haddr => ?_
  show (pages addr).keys.map some = ((pages addr).pivots.map IndexEntry.childAddr).map _
  rw [s.keys_eq (Nat.succ_pos h) hlt haddr, List.map_map, List.map_map]
  exact List.map_congr_left fun e he => (s.pivot_eq h hlt addr haddr e he).symm

theorem keysOfHeight_sublist {h : Nat} (hlt : h < (pages rootAddr).height) :
    (keysOfHeight pages rootAddr (h + 1)).Sublist (keysOfHeight pages rootAddr h) := by
  have hheads : keysOfHeight pages rootAddr (h + 1) =
      (keyChunks pages rootAddr h).filterMap List.head? := by
    have hmap := congrArg (List.filterMap id) (s.keysOfHeight_succ hlt)
    rw [List.filterMap_map, List.filterMap_map] at hmap
    simpa using hmap
  rw [hheads]
  exact heads_sublist _

theorem keys_ascending (h : Nat) :
    h ≤ (pages rootAddr).height → (keysOfHeight pages rootAddr h).Pairwise (· < ·) := by
  induction h with
  | zero => exact fun _ => s.ascending
  | succ h ih => exact fun hle => (ih (by omega)).sublist (s.keysOfHeight_sublist hle)

theorem keys_lt_top (h : Nat) :
    h ≤ (pages rootAddr).height → ∀ k ∈ keysOfHeight pages rootAddr h, k < ⊤ := by
  induction h with
  | zero =>
      intro hle k hk
      obtain ⟨c, hc, hkc⟩ := List.mem_flatten.mp hk
      obtain ⟨addr, haddr, rfl⟩ := List.mem_map.mp hc
      unfold Node.keys at hkc
      rw [if_pos (s.height_eq 0 hle addr haddr)] at hkc
      obtain ⟨kv, hkv, rfl⟩ := List.mem_map.mp hkc
      obtain ⟨t, -, rfl⟩ := List.mem_map.mp hkv
      exact WithBot.coe_lt_coe.mpr (WithTop.coe_lt_top t.key)
  | succ h ih => exact fun hle k hk => ih (by omega) k ((s.keysOfHeight_sublist hle).subset hk)

/-! ## Lookups -/

omit s in
/-- A lookup of `x` ends at node `p` of a height: the keys before this node are below `x`, those
after it above, and so its first key is not above `x` unless it is the first node. -/
structure FoundAt (pages : Nat → Node K) (rootAddr h : Nat) (x : Key K) (p addr : Nat) : Prop where
  node : (nodesOfHeight pages rootAddr h)[p]? = some addr
  first : 0 < p → ∀ k, (pages addr).keys.head? = some k → k ≤ x
  before : ∀ i c, i < p → (keyChunks pages rootAddr h)[i]? = some c → ∀ k ∈ c, k < x
  after : ∀ i c, p < i → (keyChunks pages rootAddr h)[i]? = some c → ∀ k ∈ c, x < k

omit s in
theorem FoundAt.countP_le {h p addr : Nat} {x : Key K}
    (hfound : FoundAt pages rootAddr h x p addr) :
    (keysOfHeight pages rootAddr h).countP (fun k => decide (k ≤ x)) =
      Lib.offset (keyChunks pages rootAddr h) p +
        (pages addr).keys.countP fun k => decide (k ≤ x) := by
  refine Lib.countP_flatten (keyChunks_getElem hfound.node) ?_ ?_
  · intro i c hi hc k hk
    exact decide_eq_true (hfound.before i c hi hc k hk).le
  · intro i c hi hc k hk
    exact decide_eq_false (hfound.after i c hi hc k hk).not_ge

theorem foundAt_of_countP {h p addr : Nat} {x : Key K} (hlt : h < (pages rootAddr).height)
    (hnode : (nodesOfHeight pages rootAddr h)[p]? = some addr)
    (hcount : p = (keysOfHeight pages rootAddr (h + 1)).countP (fun k => decide (k ≤ x)) - 1) :
    FoundAt pages rootAddr h x p addr := by
  have hasc := s.keys_ascending h hlt.le
  have hinitial := initial_le (s.keys_ascending (h + 1) hlt) x
  have hheads := s.keysOfHeight_succ hlt
  -- The first key of a node is a key one height up.
  have hhead : ∀ (i : Nat) (c : List (Key K)), (keyChunks pages rootAddr h)[i]? = some c →
      ∃ k, (keysOfHeight pages rootAddr (h + 1))[i]? = some k ∧ c.head? = some k := by
    intro i c hc
    have hget : ((keysOfHeight pages rootAddr (h + 1)).map some)[i]? = some c.head? := by
      rw [hheads, List.getElem?_map, hc]
      rfl
    rw [List.getElem?_map] at hget
    obtain ⟨k, hk, heq⟩ := Option.map_eq_some_iff.mp hget
    exact ⟨k, hk, heq.symm⟩
  have hchunk := keyChunks_getElem hnode
  have hpair := List.pairwise_flatten.mp hasc
  constructor
  · exact hnode
  · intro hpos k hk
    obtain ⟨k', hget, hk'⟩ := hhead p _ hchunk
    rw [hk] at hk'
    obtain rfl := Option.some.inj hk'
    have hle := (hinitial.getElem_iff hget).mpr (by omega)
    exact of_decide_eq_true hle
  · -- The keys before the node are below its first key.
    intro i c hi hc k hk
    obtain ⟨k₀, hget, hk₀⟩ := hhead p _ hchunk
    have hle := of_decide_eq_true ((hinitial.getElem_iff hget).mpr (by omega))
    have hmem : k₀ ∈ (pages addr).keys := List.mem_of_mem_head? hk₀
    have hlt := List.pairwise_iff_getElem.mp hpair.2 i p
      (List.getElem?_eq_some_iff.mp hc).1 (List.getElem?_eq_some_iff.mp hchunk).1 hi
    rw [(List.getElem?_eq_some_iff.mp hc).2, (List.getElem?_eq_some_iff.mp hchunk).2] at hlt
    exact (hlt k hk k₀ hmem).trans_le hle
  · intro i c hi hc k hk
    obtain ⟨k₀, hget, hk₀⟩ := hhead i c hc
    have hnot := mt (hinitial.getElem_iff hget).mp (by omega)
    rw [decide_eq_true_eq, not_le] at hnot
    obtain ⟨rest, rfl⟩ := List.head?_eq_some_iff.mp hk₀
    rcases List.mem_cons.mp hk with rfl | hrest
    · exact hnot
    · have hsorted := hpair.1 _ (List.mem_of_getElem? hc)
      exact hnot.trans ((List.pairwise_cons.mp hsorted).1 k hrest)

omit s in
/-- How many nodes of a height are below the first `p` nodes of the height above. -/
def childrenBefore (pages : Nat → Node K) (rootAddr h p : Nat) : Nat :=
  Lib.offset ((nodesOfHeight pages rootAddr (h + 1)).map fun a =>
    (pages a).pivots.map IndexEntry.childAddr) p

/-- **One turn of a lookup**, and the place of the child among the nodes of its height. -/
theorem foundAt_childIndex {h p addr : Nat} {x : Key K} (hlt : h < (pages rootAddr).height)
    (hfound : FoundAt pages rootAddr (h + 1) x p addr) :
    childIndex (pages addr) x < (pages addr).pivots.length ∧
    FoundAt pages rootAddr h x (childrenBefore pages rootAddr h p + childIndex (pages addr) x)
      (childAddr (pages addr) (childIndex (pages addr) x)) := by
  have hmem := List.mem_of_getElem? hfound.node
  have hkeys := s.keys_eq (Nat.succ_pos h) hlt hmem
  have hheight := s.height_eq (h + 1) hlt addr hmem
  have hne := s.nonempty (h + 1) hlt addr hmem
  have hcount := hfound.countP_le
  have hchunk := keyChunks_getElem hfound.node
  have hsorted : (pages addr).keys.Pairwise (· < ·) :=
    (List.pairwise_flatten.mp (s.keys_ascending (h + 1) hlt)).1 _ (List.mem_of_getElem? hchunk)
  have hindex : childIndex (pages addr) x =
      (pages addr).keys.countP (fun k => decide (k ≤ x)) - 1 := by
    unfold childIndex
    by_cases htop : x = ⊤
    · subst htop
      have hall : (pages addr).keys.countP (fun k => decide (k ≤ (⊤ : Key K))) =
          (pages addr).keys.length := List.countP_eq_length.mpr fun k _ => decide_eq_true le_top
      rw [if_pos rfl, hall, Node.length_keys]
      show (((pages addr).numEntries : Int) - 1).toNat = _
      omega
    · rw [if_neg htop, findPivot, ← hkeys, findKey_eq hsorted]
      simp only
      omega
  have hbound : childIndex (pages addr) x < (pages addr).pivots.length := by
    have hpos := List.length_pos_iff.mpr hne
    have hle : (pages addr).keys.countP (fun k => decide (k ≤ x)) ≤ (pages addr).keys.length :=
      List.countP_le_length
    rw [hkeys, List.length_map] at hpos hle
    rw [hindex, hkeys]
    omega
  -- The child is at the place that the count says.
  have hplace : (keysOfHeight pages rootAddr (h + 1)).countP (fun k => decide (k ≤ x)) - 1 =
      Lib.offset (keyChunks pages rootAddr (h + 1)) p + childIndex (pages addr) x := by
    by_cases hzero : (pages addr).keys.countP (fun k => decide (k ≤ x)) = 0
    · have hp : p = 0 := by
        by_contra hp
        obtain ⟨k, rest, heq⟩ := List.exists_cons_of_ne_nil hne
        have hle := hfound.first (Nat.pos_of_ne_zero hp) k (by rw [heq]; rfl)
        have hnone := List.countP_eq_zero.mp hzero k (by rw [heq]; exact List.mem_cons_self)
        exact hnone (decide_eq_true hle)
      rw [hcount, hindex, hzero, hp, Lib.offset_zero]
    · omega
  have hoffset : Lib.offset (keyChunks pages rootAddr (h + 1)) p =
      childrenBefore pages rootAddr h p := by
    unfold childrenBefore Lib.offset keyChunks
    rw [← List.map_take, ← List.map_take, List.length_flatten, List.length_flatten, List.map_map,
      List.map_map]
    congr 1
    refine List.map_congr_left fun a ha => ?_
    have hkeys' := s.keys_eq (Nat.succ_pos h) hlt (List.mem_of_mem_take ha)
    show (pages a).keys.length = ((pages a).pivots.map IndexEntry.childAddr).length
    rw [hkeys', List.length_map, List.length_map]
  have hat : ((nodesOfHeight pages rootAddr (h + 1)).map fun a =>
      (pages a).pivots.map IndexEntry.childAddr)[p]? =
        some ((pages addr).pivots.map IndexEntry.childAddr) := by
    rw [List.getElem?_map, hfound.node]
    rfl
  refine ⟨hbound, s.foundAt_of_countP hlt ?_ (by rw [hplace, hoffset])⟩
  unfold childrenBefore
  rw [nodesOfHeight_eq hlt, List.flatMap_def,
    Lib.getElem?_flatten hat (by rw [List.length_map]; exact hbound), List.getElem?_map,
    childAddr, List.getElem?_eq_getElem hbound]
  rfl

theorem foundAt_child {h p addr : Nat} {x : Key K} (hlt : h < (pages rootAddr).height)
    (hfound : FoundAt pages rootAddr (h + 1) x p addr) :
    ∃ p', FoundAt pages rootAddr h x p' (childAddr (pages addr) (childIndex (pages addr) x)) :=
  ⟨_, (s.foundAt_childIndex hlt hfound).2⟩

omit s in
theorem foundAt_root (x : Key K) :
    FoundAt pages rootAddr (pages rootAddr).height x 0 rootAddr := by
  have hone : ∀ i, 0 < i → (keyChunks pages rootAddr (pages rootAddr).height)[i]? = none := by
    intro i hi
    unfold keyChunks
    rw [nodesOfHeight_root]
    exact List.getElem?_eq_none hi
  constructor
  · rw [nodesOfHeight_root]
    rfl
  · exact fun hpos => absurd hpos (lt_irrefl 0)
  · exact fun i c hi => absurd hi (Nat.not_lt_zero i)
  · intro i c hi hc
    rw [hone i hi] at hc
    cases hc

theorem lookupNode_spec {h : Nat} (hle : h ≤ (pages rootAddr).height) (x : Key K) :
    ∃ p, FoundAt pages rootAddr h x p (lookupNode pages rootAddr x h) := by
  have hturns : ∀ n h p addr, h + n ≤ (pages rootAddr).height →
      FoundAt pages rootAddr (h + n) x p addr →
      ∃ p', FoundAt pages rootAddr h x p' (descend pages x n addr) := by
    intro n
    induction n with
    | zero => exact fun h p addr _ hfound => ⟨p, hfound⟩
    | succ n ih =>
        intro h p addr hle hfound
        obtain ⟨p', hchild⟩ := s.foundAt_child (h := h + n) hle hfound
        exact ih h p' _ (by omega) hchild
  refine hturns ((pages rootAddr).height - h) h 0 rootAddr (by omega) ?_
  have hsum : h + ((pages rootAddr).height - h) = (pages rootAddr).height := by omega
  rw [hsum]
  exact foundAt_root x

end LevelShaped
end Btree
end TreePass
