import TreePass.Btree.Rank

/-!
# Counting the tuples of a range

The rank of a key in a packed tree is the number of tuples below it, with their sizes, and the
difference of two ranks is the count of a range.

* `LevelPages.turns_spec` is the way down: the sums are those of the tuples to the left.
* `LevelPages.getRank_spec` is the rank, with the pivot tracking of the lookup.
* `difference_eq` is the difference of two ranks.
-/

namespace TreePass
namespace Btree

variable {K : Type}

/-! ## Pages as their readers see them -/

namespace Page

variable {hdr : Page K} {h : Nat}

theorem view_pivots_getElem (hpos : h ≠ 0)
    (hkind : ∀ entry ∈ hdr.storedEntries, entry.OfHeight h) (i : Nat) :
    hdr.view.pivots[i]? = (hdr.getIndexEntry i).map OndiskIndexEntry.view := by
  unfold storedEntries at hkind
  unfold getIndexEntry
  show ((hdr.slots.filterMap Slot.pivot?).map OndiskIndexEntry.view)[i]? = _
  generalize hdr.slots = slots at hkind ⊢
  rw [List.getElem?_map]
  congr 1
  induction slots generalizing i with
  | nil => rfl
  | cons slot slots ih =>
      have hrest := fun i => ih i fun entry hentry => hkind entry (List.mem_cons_of_mem _ hentry)
      obtain ⟨offset, t | e⟩ := slot
      · exact absurd (hkind (.leaf t) List.mem_cons_self) hpos
      · cases i with
        | zero => rfl
        | succ i => exact hrest i

theorem view_tuples_getElem (hkind : ∀ entry ∈ hdr.storedEntries, entry.OfHeight 0) (i : Nat) :
    hdr.view.tuples[i]? = hdr.getLeafEntry i := by
  unfold storedEntries at hkind
  unfold getLeafEntry
  show (hdr.slots.filterMap Slot.tuple?)[i]? = _
  generalize hdr.slots = slots at hkind ⊢
  induction slots generalizing i with
  | nil => rfl
  | cons slot slots ih =>
      have hrest := fun i => ih i fun entry hentry => hkind entry (List.mem_cons_of_mem _ hentry)
      obtain ⟨offset, t | e⟩ := slot
      · cases i with
        | zero => rfl
        | succ i => exact hrest i
      · exact absurd rfl (hkind (.index e) List.mem_cons_self)

theorem length_view_pivots (hpos : h ≠ 0)
    (hkind : ∀ entry ∈ hdr.storedEntries, entry.OfHeight h) :
    hdr.view.pivots.length = hdr.slots.length := by
  have hlength := congrArg List.length (children_eq hpos hkind)
  rw [List.length_map, List.length_map] at hlength
  rw [hlength]
  exact List.length_map _

theorem length_view_tuples (hkind : ∀ entry ∈ hdr.storedEntries, entry.OfHeight 0) :
    hdr.view.tuples.length = hdr.slots.length := by
  have hlength := congrArg List.length (storedEntries_of_leaf hkind)
  rw [List.length_map] at hlength
  rw [← hlength]
  exact List.length_map _

variable [LinearOrder K]

theorem childIndex_view (hheight : hdr.height = h) (hpos : h ≠ 0)
    (hkind : ∀ entry ∈ hdr.storedEntries, entry.OfHeight h) (target : Key K) :
    hdr.childIndex target = Btree.childIndex hdr.view target := by
  have hnum : hdr.view.numEntries = hdr.slots.length := by
    unfold Node.numEntries
    have hindex : ¬ hdr.view.height = 0 := by
      rw [show hdr.view.height = h from hheight]
      exact hpos
    rw [if_neg hindex, length_view_pivots hpos hkind]
  have hfind : hdr.findPivot target = Btree.findPivot hdr.view target := by
    have hcompare : (fun i => (hdr.getIndexEntry i).elim .gt fun e => cmp e.pivot target) =
        fun i => ((hdr.view.pivots.map IndexEntry.pivot)[i]?).elim .gt fun k => cmp k target := by
      funext i
      rw [List.getElem?_map, view_pivots_getElem hpos hkind]
      cases hdr.getIndexEntry i <;> rfl
    unfold findPivot Btree.findPivot findKey
    rw [hcompare, List.length_map, length_view_pivots hpos hkind]
    rfl
  unfold childIndex Btree.childIndex
  rw [hfind, hnum]
  by_cases htop : target = ⊤
  · rw [if_pos htop, if_pos htop]
    show hdr.slots.length - 1 = ((hdr.slots.length : Int) - 1).toNat
    omega
  · rw [if_neg htop, if_neg htop]

theorem findTuple_view (hkind : ∀ entry ∈ hdr.storedEntries, entry.OfHeight 0) (target : Key K) :
    hdr.findTuple target = findKey (hdr.view.tuples.map fun t => Key.user t.key) target := by
  have hcompare : (fun i => (hdr.getLeafEntry i).elim .gt fun e => cmp (Key.user e.key) target) =
      fun i => ((hdr.view.tuples.map fun t => Key.user t.key)[i]?).elim .gt fun k =>
        cmp k target := by
    funext i
    rw [List.getElem?_map, view_tuples_getElem hkind]
    cases hdr.getLeafEntry i <;> rfl
  unfold findTuple findKey
  rw [hcompare, List.length_map, length_view_tuples hkind]
  rfl

end Page

/-! ## The way down -/

theorem rankInLeaf_eq [LinearOrder K] {keys : List (Key K)} (h : keys.Pairwise (· < ·))
    (x : Key K) :
    (if (findKey keys x).2 = true then (findKey keys x).1 else (findKey keys x).1 + 1).toNat =
      keys.countP fun k => decide (k < x) := by
  have hone := countP_le_le h x
  have hmono : keys.countP (fun k => decide (k < x)) ≤ keys.countP fun k => decide (k ≤ x) := by
    refine List.countP_mono_left fun k _ hk => ?_
    exact decide_eq_true (of_decide_eq_true hk).le
  rw [findKey_eq h x]
  dsimp only
  by_cases hlt : keys.countP (fun k => decide (k < x)) < keys.countP fun k => decide (k ≤ x)
  · rw [if_pos (decide_eq_true hlt)]
    omega
  · rw [if_neg (by rw [decide_eq_true_eq]; exact hlt)]
    omega

theorem take_childrenBefore {pages : Nat → Node K} {rootAddr h p k a : Nat}
    (hlt : h < (pages rootAddr).height)
    (hnode : (nodesOfHeight pages rootAddr (h + 1))[p]? = some a)
    (hk : k ≤ (pages a).pivots.length) :
    (nodesOfHeight pages rootAddr h).take (LevelShaped.childrenBefore pages rootAddr h p + k) =
      ((nodesOfHeight pages rootAddr (h + 1)).take p).flatMap
          (fun a => (pages a).pivots.map IndexEntry.childAddr) ++
        ((pages a).pivots.map IndexEntry.childAddr).take k := by
  obtain ⟨hp, hget⟩ := List.getElem?_eq_some_iff.mp hnode
  unfold LevelShaped.childrenBefore Lib.offset
  rw [nodesOfHeight_eq hlt]
  generalize nodesOfHeight pages rootAddr (h + 1) = nodes at *
  have hsplit : nodes = nodes.take p ++ a :: nodes.drop (p + 1) := by
    rw [← hget, List.getElem_cons_drop, List.take_append_drop]
  have hflat : nodes.flatMap (fun a => (pages a).pivots.map IndexEntry.childAddr) =
      (nodes.take p).flatMap (fun a => (pages a).pivots.map IndexEntry.childAddr) ++
        ((pages a).pivots.map IndexEntry.childAddr ++
          (nodes.drop (p + 1)).flatMap fun a => (pages a).pivots.map IndexEntry.childAddr) := by
    conv_lhs => rw [hsplit, List.flatMap_append, List.flatMap_cons]
  rw [← List.map_take, ← List.flatMap_def, hflat, List.take_length_add_append,
    List.take_append_of_le_length]
  rw [List.length_map]
  exact hk

/-! ## The sums of a descent -/

namespace LevelPages

variable {cfg : Config K} {pages : Nat → Page K} {rootAddr top : Nat} {nodes : Nat → List Nat}
  {tuples : List (Tuple K)} (s : LevelPages cfg pages rootAddr top nodes tuples)

def tuplesBefore (pages : Nat → Page K) (nodes : Nat → List Nat) (h p : Nat) : List (Tuple K) :=
  ((nodes h).take p).flatMap (tuplesBelow pages h)

/-- A descent is at a node of a height: the lookup goes on there, and the sums are those of the
tuples to the left. -/
structure DescentAt [LinearOrder K] (cfg : Config K) (pages : Nat → Page K) (rootAddr : Nat)
    (nodes : Nat → List Nat) (x : Key K) (h : Nat) (found : Found) : Prop where
  at_node : ∃ p, LevelShaped.FoundAt (fun a => (pages a).view) rootAddr h x p found.addr.toNat ∧
    found.stats = countTuples cfg (tuplesBefore pages nodes h p)

include s

theorem fits_before {h : Nat} (hle : h ≤ top) (hfits : Fits cfg tuples) (p : Nat) :
    Fits cfg (tuplesBefore pages nodes h p) := by
  have hall := s.tuplesBelow_eq h hle
  rw [← List.take_append_drop p (nodes h), List.flatMap_append] at hall
  rw [← hall] at hfits
  exact hfits.left

theorem tuplesBefore_children {h : Nat} (hlt : h < top) {p k a : Nat}
    (hnode : (nodes (h + 1))[p]? = some a) (hk : k ≤ (pages a).view.pivots.length) :
    tuplesBefore pages nodes h
        (LevelShaped.childrenBefore (fun a => (pages a).view) rootAddr h p + k) =
      tuplesBefore pages nodes (h + 1) p ++
        ((pages a).storedEntries.take k).flatMap (entryTuples pages h) := by
  have hroot : ((fun a => (pages a).view) rootAddr).height = top := s.height_root
  have ha := List.mem_of_getElem? hnode
  have hkind := s.ofHeight (h + 1) hlt a ha
  have hup := s.nodesOfHeight_eq (top - (h + 1)) (h := h + 1) (by omega)
  have hdown := s.nodesOfHeight_eq (top - h) (h := h) (by omega)
  have htake := @take_childrenBefore K (fun a => (pages a).view) rootAddr h p k a
    (by rw [hroot]; exact hlt) (by rw [hup]; exact hnode) hk
  rw [hup, hdown] at htake
  have hentries : (((pages a).view.pivots.map IndexEntry.childAddr).take k).flatMap
      (tuplesBelow pages h) = ((pages a).storedEntries.take k).flatMap (entryTuples pages h) := by
    rw [Page.children_eq (Nat.succ_ne_zero h) hkind, ← List.map_take, List.flatMap_map]
    refine List.flatMap_congr fun entry hentry => ?_
    obtain ⟨e, rfl, -, -⟩ := s.link_of_entry hlt ha (List.mem_of_mem_take hentry)
    rfl
  unfold tuplesBefore
  rw [htake, List.flatMap_append, List.flatMap_assoc]
  show _ ++ (((pages a).view.pivots.map IndexEntry.childAddr).take k).flatMap
    (tuplesBelow pages h) = _
  rw [hentries]
  rfl

theorem turn_spec [LinearOrder K] (hasc : tuples.Pairwise fun t t' => t.key < t'.key)
    (hfits : Fits cfg tuples)
    {h : Nat} (hlt : h < top) {x : Key K} {found : Found}
    (hat : DescentAt cfg pages rootAddr nodes x (h + 1) found) :
    ∃ entry, (pages found.addr.toNat).getIndexEntry
        ((pages found.addr.toNat).childIndex x) = some entry ∧
      ∀ isWarm, DescentAt cfg pages rootAddr nodes x h ⟨entry.maskedChildAddr,
        accumulateNodeRanks cfg (pages found.addr.toNat)
          ((pages found.addr.toNat).childIndex x) found.stats, isWarm⟩ := by
  have hshaped := s.levelShaped hasc
  have hroot : ((fun a => (pages a).view) rootAddr).height = top := s.height_root
  have hnodes : ∀ i, i ≤ top → nodesOfHeight (fun a => (pages a).view) rootAddr i = nodes i :=
    fun i hi => s.nodesOfHeight_eq (top - i) (by omega)
  obtain ⟨p, hfound, hstats⟩ := hat
  have hlt' : h < ((fun a => (pages a).view) rootAddr).height := by
    rw [hroot]
    exact hlt
  obtain ⟨hbound, hchild⟩ := hshaped.foundAt_childIndex hlt' hfound
  have hnode := hfound.node
  have hmem := List.mem_of_getElem? hnode
  rw [hnodes (h + 1) hlt] at hmem
  have hkind := s.ofHeight (h + 1) hlt _ hmem
  have hindex := Page.childIndex_view (s.height_eq (h + 1) hlt _ hmem) (Nat.succ_ne_zero h) hkind x
  have hpivot := Page.view_pivots_getElem (Nat.succ_ne_zero h) hkind
    (childIndex (pages found.addr.toNat).view x)
  rw [List.getElem?_eq_getElem hbound] at hpivot
  obtain ⟨entry, hentry, hview⟩ := Option.map_eq_some_iff.mp hpivot.symm
  rw [hindex]
  refine ⟨entry, hentry, fun isWarm => ⟨_, by
    have haddr : childAddr (pages found.addr.toNat).view
        (childIndex (pages found.addr.toNat).view x) = entry.maskedChildAddr.toNat := by
      unfold childAddr
      rw [List.getElem?_eq_getElem hbound, ← hview]
      rfl
    rw [← haddr]
    exact hchild, ?_⟩⟩
  have hbefore := s.tuplesBefore_children hlt (by rw [← hnodes (h + 1) hlt]; exact hnode) hbound.le
  have hfits' := s.fits_before hlt.le hfits
    (LevelShaped.childrenBefore (fun a => (pages a).view) rootAddr h p +
      childIndex (pages found.addr.toNat).view x)
  rw [hbefore] at hfits' ⊢
  rw [hstats]
  apply accumulateNodeRanks_index
  · rw [s.height_eq (h + 1) hlt _ hmem]
    exact Nat.succ_ne_zero h
  · intro entry hentry
    obtain ⟨e, he, -, -⟩ := s.link_of_entry hlt hmem hentry
    exact ⟨e, he⟩
  · intro entry hentry
    exact s.counts_of_entry hfits hlt hmem hentry
  · exact hfits'

omit s in
theorem resetStaleCounts_memtable (pages : Addr → Page K) (child : Addr)
    (childInCache internal : Bool) :
    resetStaleCounts .memtable pages child childInCache internal = pages := by
  unfold resetStaleCounts
  simp

theorem turns_spec [LinearOrder K] (hasc : tuples.Pairwise fun t t' => t.key < t'.key)
    (hfits : Fits cfg tuples) (outcomes : LookupOutcomes) (x : Key K) (n : Nat) :
    ∀ (found : Found) (r : Reader K), n ≤ top → r.pages = (fun a => pages a.toNat) →
      DescentAt cfg pages rootAddr nodes x n found →
      ∃ found' r', lookupTurns cfg outcomes .memtable x 0 n found r = some (found', r') ∧
        r'.pages = (fun a => pages a.toNat) ∧ DescentAt cfg pages rootAddr nodes x 0 found' := by
  induction n with
  | zero => exact fun found r _ hpages hat => ⟨found, r, rfl, hpages, hat⟩
  | succ n ih =>
      intro found r hle hpages hat
      obtain ⟨entry, hentry, hnext⟩ := s.turn_spec hasc hfits hle hat
      unfold lookupTurns
      rw [hpages]
      dsimp only
      rw [hentry]
      dsimp only
      rw [resetStaleCounts_memtable]
      exact ih _ _ (by omega) rfl (hnext _)

theorem leaf_ascending [LinearOrder K] (hasc : tuples.Pairwise fun t t' => t.key < t'.key) {a : Nat}
    (ha : a ∈ nodes 0) : (pages a).view.tuples.Pairwise fun t t' => t.key < t'.key := by
  obtain ⟨before, after, hsplit⟩ := List.append_of_mem ha
  rw [← s.tuplesBelow_eq 0 (Nat.zero_le top), hsplit, List.flatMap_append, List.flatMap_cons]
    at hasc
  exact (List.pairwise_append.mp (List.pairwise_append.mp hasc).2.1).1

theorem filter_at_leaf [LinearOrder K] (hasc : tuples.Pairwise fun t t' => t.key < t'.key)
    {x : Key K} {p a : Nat}
    (hfound : LevelShaped.FoundAt (fun a => (pages a).view) rootAddr 0 x p a) :
    tuplesBefore pages nodes 0 p ++ (pages a).view.tuples.take
        (((pages a).view.tuples.map fun t => Key.user t.key).countP fun k => decide (k < x)) =
      tuples.filter fun t => decide (Key.user t.key < x) := by
  have hnodes := s.nodesOfHeight_eq top (h := 0) (by omega)
  have hkeys : ∀ b ∈ nodes 0, (pages b).view.keys = (pages b).view.tuples.map fun t =>
      Key.user t.key := fun b hb => Page.keys_of_leaf (s.height_eq 0 (Nat.zero_le top) b hb)
  have hnode := hfound.node
  rw [hnodes] at hnode
  have hchunk : ∀ i b : Nat, (nodes 0)[i]? = some b →
      (keyChunks (fun a => (pages a).view) rootAddr 0)[i]? =
        some ((pages b).view.tuples.map fun t => Key.user t.key) := by
    intro i b hb
    unfold keyChunks
    rw [hnodes, List.getElem?_map, hb, ← hkeys b (List.mem_of_getElem? hb)]
    rfl
  obtain ⟨hp, hget⟩ := List.getElem?_eq_some_iff.mp hnode
  have hsplit : nodes 0 = (nodes 0).take p ++ a :: (nodes 0).drop (p + 1) := by
    rw [← hget, List.getElem_cons_drop, List.take_append_drop]
  have htuples := s.tuplesBelow_eq 0 (Nat.zero_le top)
  rw [hsplit, List.flatMap_append, List.flatMap_cons] at htuples
  have hleafAsc := s.leaf_ascending hasc (List.mem_of_getElem? hnode)
  -- All tuples to the left are below the target, and none to the right is.
  have hleft : (tuplesBefore pages nodes 0 p).filter (fun t => decide (Key.user t.key < x)) =
      tuplesBefore pages nodes 0 p := by
    rw [List.filter_eq_self]
    intro t ht
    obtain ⟨b, hb, htb⟩ := List.mem_flatMap.mp ht
    obtain ⟨i, hi⟩ := List.getElem?_of_mem hb
    rw [List.getElem?_take] at hi
    by_cases hip : i < p
    · rw [if_pos hip] at hi
      exact decide_eq_true (hfound.before i _ hip (hchunk i b hi) _
        (List.mem_map.mpr ⟨t, htb, rfl⟩))
    · rw [if_neg hip] at hi
      cases hi
  have hright : (((nodes 0).drop (p + 1)).flatMap (tuplesBelow pages 0)).filter
      (fun t => decide (Key.user t.key < x)) = [] := by
    rw [List.filter_eq_nil_iff]
    intro t ht
    obtain ⟨b, hb, htb⟩ := List.mem_flatMap.mp ht
    obtain ⟨i, hi⟩ := List.getElem?_of_mem hb
    rw [List.getElem?_drop] at hi
    have hlt := hfound.after (p + 1 + i) _ (by omega) (hchunk _ b hi) _
      (List.mem_map.mpr ⟨t, htb, rfl⟩)
    rw [decide_eq_true_eq, not_lt]
    exact hlt.le
  have hleaf : (tuplesBelow pages 0 a).filter (fun t => decide (Key.user t.key < x)) =
      (pages a).view.tuples.take
        (((pages a).view.tuples.map fun t => Key.user t.key).countP fun k => decide (k < x)) := by
    have hinitial : Lib.Initial (fun t : Tuple K => decide (Key.user t.key < x))
        (pages a).view.tuples := by
      refine .of_pairwise hleafAsc fun t t' htt' ht' => ?_
      rw [decide_eq_true_eq] at ht' ⊢
      exact lt_trans (WithBot.coe_lt_coe.mpr (WithTop.coe_lt_coe.mpr htt')) ht'
    rw [List.countP_map]
    exact hinitial.filter_eq
  rw [← htuples, List.filter_append, List.filter_append, hright, hleaf, List.append_nil]
  show _ = (tuplesBefore pages nodes 0 p).filter _ ++ _
  rw [hleft]

/-- **The rank of a key** in a packed tree counts the tuples below it, whatever the pivot tracking
does, and changes only borrowed bytes. -/
theorem getRank_spec [LinearOrder K] (hasc : tuples.Pairwise fun t t' => t.key < t'.key)
    (hfits : Fits cfg tuples) (outcomes : LookupOutcomes) {root : Addr}
    (hroot : root.toNat = rootAddr) (x : Key K) {r : Reader K}
    (hsame : SamePages (fun a => pages a.toNat) r.pages) :
    ∃ r', btreeGetRank cfg outcomes root x r =
        some (countTuples cfg (tuples.filter fun t => decide (Key.user t.key < x)), r') ∧
      SamePages (fun a => pages a.toNat) r'.pages := by
  have hheight : (pages rootAddr).height = top := s.height_root
  -- The same lookup without tracking.
  have hstart : DescentAt cfg pages rootAddr nodes x top ⟨root, ⟨0, 0, 0⟩, true⟩ := by
    have hfirst := @LevelShaped.foundAt_root K (fun a => (pages a).view) rootAddr _ x
    rw [show ((fun a => (pages a).view) rootAddr).height = top from s.height_root] at hfirst
    refine ⟨0, ?_, rfl⟩
    rw [show (⟨root, ⟨0, 0, 0⟩, true⟩ : Found).addr.toNat = rootAddr from hroot]
    exact hfirst
  obtain ⟨found, r₁, hturns, hpages, p, hfound, hstats⟩ :=
    s.turns_spec hasc hfits outcomes x top ⟨root, ⟨0, 0, 0⟩, true⟩
      ⟨fun a => pages a.toNat, [.get root true]⟩ (le_refl top) rfl hstart
  have hmemtable : btreeLookupNode cfg outcomes .memtable root x 0 ⟨fun a => pages a.toNat, []⟩ =
      some (found, r₁) := by
    unfold btreeLookupNode
    dsimp only
    rw [hroot, hheight]
    exact hturns
  obtain ⟨hread, hkeeps⟩ := @btreeLookupNode_agree K cfg _ outcomes outcomes .branch .memtable root x
    0 r ⟨fun a => pages a.toNat, []⟩ hsame.symm
  rw [hmemtable, Option.map_some] at hread
  obtain ⟨⟨found', r₂⟩, hlookup, hseen⟩ := Option.map_eq_some_iff.mp hread
  have hsame₂ := hsame.trans (hkeeps _ hlookup)
  have haddr : found'.addr = found.addr := congrArg Prod.fst hseen
  have hstats' : found'.stats = found.stats := congrArg (fun seen => seen.2.1) hseen
  -- What is read of the leaf is the same, too.
  have hleaf : SamePage (r₂.pages found.addr) (pages found.addr.toNat) := hsame₂.symm found.addr
  have hfind : (r₂.pages found.addr).findTuple x = (pages found.addr.toNat).findTuple x :=
    hleaf.congr (f := fun p => p.findTuple x) fun p => p.findTuple_eraseMeta x
  have hranks : ∀ upto stats, accumulateNodeRanks cfg (r₂.pages found.addr) upto stats =
      accumulateNodeRanks cfg (pages found.addr.toNat) upto stats := fun upto stats =>
    hleaf.congr (f := fun p => accumulateNodeRanks cfg p upto stats) fun p =>
      accumulateNodeRanks_eraseMeta cfg p upto stats
  have hnode := hfound.node
  rw [s.nodesOfHeight_eq top (h := 0) (by omega)] at hnode
  have hmem := List.mem_of_getElem? hnode
  have hkind := s.ofHeight 0 (Nat.zero_le top) _ hmem
  have hzero := s.height_eq 0 (Nat.zero_le top) _ hmem
  have hsorted : ((pages found.addr.toNat).view.tuples.map fun t => Key.user t.key).Pairwise
      (· < ·) :=
    List.pairwise_map.mpr ((s.leaf_ascending hasc hmem).imp fun hlt =>
      WithBot.coe_lt_coe.mpr (WithTop.coe_lt_coe.mpr hlt))
  have hfilter := s.filter_at_leaf hasc hfound
  have hfits' := hfits.filter fun t => decide (Key.user t.key < x)
  refine ⟨{ r₂ with calls := .unget found'.addr :: r₂.calls }, ?_, hsame₂⟩
  unfold btreeGetRank
  rw [hlookup]
  show some (accumulateNodeRanks cfg (r₂.pages found'.addr) _ found'.stats, _) = _
  rw [haddr, hstats', hranks, hfind, Page.findTuple_view hkind, rankInLeaf_eq hsorted, hstats]
  rw [← hfilter] at hfits' ⊢
  have hle : ((pages found.addr.toNat).view.tuples.map fun t => Key.user t.key).countP
      (fun k => decide (k < x)) ≤ (pages found.addr.toNat).view.tuples.length := by
    rw [← List.length_map (f := fun t : Tuple K => Key.user t.key)]
    exact List.countP_le_length
  rw [accumulateNodeRanks_leaf hzero (Page.storedEntries_of_leaf hkind) hle _ hfits']

end LevelPages

/-! ## Ranges -/

section Ranges

variable [LinearOrder K] {cfg : Config K}

def tuplesIn (tuples : List (Tuple K)) (minKey maxKey : Key K) : List (Tuple K) :=
  tuples.filter fun t => decide (minKey ≤ Key.user t.key) && decide (Key.user t.key < maxKey)

theorem countTuples_range {tuples : List (Tuple K)} {minKey maxKey : Key K}
    (hle : minKey ≤ maxKey) :
    countTuples cfg (tuples.filter fun t => decide (Key.user t.key < maxKey)) =
      countTuples cfg ((tuples.filter fun t => decide (Key.user t.key < minKey)) ++
        tuplesIn tuples minKey maxKey) := by
  have hsplit : countTuples cfg (tuples.filter fun t => decide (Key.user t.key < maxKey)) = _ :=
    countTuples_filter (fun t => decide (Key.user t.key < minKey)) _
  rw [hsplit, List.filter_filter, List.filter_filter]
  unfold tuplesIn
  congr 2
  · refine List.filter_congr fun t _ => ?_
    by_cases hlt : Key.user t.key < minKey
    · rw [decide_eq_true hlt, decide_eq_true (lt_of_lt_of_le hlt hle)]
      rfl
    · rw [decide_eq_false hlt]
      rfl
  · refine List.filter_congr fun t _ => ?_
    by_cases hlt : Key.user t.key < minKey
    · rw [decide_eq_true hlt, decide_eq_false (not_le.mpr hlt)]
      rfl
    · rw [decide_eq_false hlt, decide_eq_true (not_lt.mp hlt)]
      rfl

theorem subUint32_add {a b : Nat} (h : a + b < 2147483648) : subUint32 (a + b) a = b := by
  unfold subUint32
  omega

theorem difference_eq {tuples : List (Tuple K)} (hfits : Fits cfg tuples) (minKey maxKey : Key K) :
    (if (countTuples cfg (tuples.filter fun t => decide (Key.user t.key < minKey))).numKvs <
        (countTuples cfg (tuples.filter fun t => decide (Key.user t.key < maxKey))).numKvs then
      ⟨subUint32
          (countTuples cfg (tuples.filter fun t => decide (Key.user t.key < maxKey))).numKvs
          (countTuples cfg (tuples.filter fun t => decide (Key.user t.key < minKey))).numKvs,
        subUint32
          (countTuples cfg (tuples.filter fun t => decide (Key.user t.key < maxKey))).keyBytes
          (countTuples cfg (tuples.filter fun t => decide (Key.user t.key < minKey))).keyBytes,
        subUint32
          (countTuples cfg (tuples.filter fun t => decide (Key.user t.key < maxKey))).messageBytes
          (countTuples cfg (tuples.filter fun t => decide (Key.user t.key < minKey))).messageBytes⟩
    else statsZero) = countTuples cfg (tuplesIn tuples minKey maxKey) := by
  by_cases hle : minKey ≤ maxKey
  · obtain ⟨hnum, hkey, hmessage⟩ := hfits.filter fun t => decide (Key.user t.key < maxKey)
    rw [countTuples_range hle, countTuples_append] at hnum hkey hmessage
    rw [countTuples_range hle, countTuples_append]
    dsimp only at hnum hkey hmessage ⊢
    by_cases hlt : 0 < (countTuples cfg (tuplesIn tuples minKey maxKey)).numKvs
    · rw [if_pos (by omega), subUint32_add hnum, subUint32_add hkey, subUint32_add hmessage]
    · -- No tuple is in the range.
      rw [if_neg (by omega)]
      have hlength : (tuplesIn tuples minKey maxKey).length = 0 := Nat.eq_zero_of_not_pos hlt
      rw [List.eq_nil_of_length_eq_zero hlength]
      rfl
  · have hback : maxKey ≤ minKey := (not_le.mp hle).le
    have hempty : tuplesIn tuples minKey maxKey = [] := by
      unfold tuplesIn
      rw [List.filter_eq_nil_iff]
      intro t _ ht
      rw [Bool.and_eq_true, decide_eq_true_eq, decide_eq_true_eq] at ht
      exact hle (lt_of_le_of_lt ht.1 ht.2).le
    have hmono : (countTuples cfg (tuples.filter fun t => decide (Key.user t.key < maxKey))).numKvs ≤
        (countTuples cfg (tuples.filter fun t => decide (Key.user t.key < minKey))).numKvs := by
      rw [countTuples_range hback, countTuples_append]
      exact Nat.le_add_right _ _
    rw [if_neg (by omega), hempty]
    rfl

end Ranges

end Btree
end TreePass
