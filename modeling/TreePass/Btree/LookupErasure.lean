import TreePass.Btree.InsertErasure
import TreePass.Btree.TrackedLookup

/-!
# Lookups do not see the borrowed bytes

The pivot tracking of a lookup changes nothing but the borrowed bytes, and what a lookup finds does
not depend on them.  So a lookup that counts its accesses finds the same node, rank and message as
one that does not, whatever the results of the warmth tests are and whatever is in the cache.
-/

namespace TreePass
namespace Btree

variable {K : Type}

def SamePages (pages pages' : Addr → Page K) : Prop := ∀ addr, SamePage (pages addr) (pages' addr)

theorem SamePages.refl (pages : Addr → Page K) : SamePages pages pages := fun _ => rfl

theorem SamePages.trans {pages pages' pages'' : Addr → Page K} (h : SamePages pages pages')
    (h' : SamePages pages' pages'') : SamePages pages pages'' := fun addr => (h addr).trans (h' addr)

theorem SamePages.symm {pages pages' : Addr → Page K} (h : SamePages pages pages') :
    SamePages pages' pages := fun addr => (h addr).symm

theorem samePages_of_update {pages : Addr → Page K} {addr : Addr} {hdr : Page K}
    (h : SamePage (pages addr) hdr) : SamePages pages (Function.update pages addr hdr) := by
  intro addr'
  by_cases heq : addr' = addr
  · subst heq
    rw [Function.update_self]
    exact h
  · rw [Function.update_of_ne heq]
    exact rfl

/-! ## The pivot tracking -/

namespace Page

variable (hdr : Page K)

theorem eraseMeta_pivotSetCount (k count : Nat) :
    (hdr.pivotSetCount k count).eraseMeta = hdr.eraseMeta := by
  rw [pivotSetCount]
  cases hdr.getIndexEntry k with
  | none => rfl
  | some e => exact hdr.eraseMeta_pivotMetaAccess k _

theorem eraseMeta_pivotCntInc (k : Nat) : (hdr.pivotCntInc k).eraseMeta = hdr.eraseMeta := by
  rw [pivotCntInc]
  cases hdr.getIndexEntry k with
  | none => rfl
  | some e => exact hdr.eraseMeta_pivotMetaAccess k _

theorem eraseMeta_updateByHits (tests : WarmthTests) (k hits : Nat) :
    (hdr.updateByHits tests k hits).1.eraseMeta = hdr.eraseMeta := by
  rw [updateByHits]
  by_cases hzero : hits = 0
  · rw [if_pos hzero]
    exact hdr.eraseMeta_pivotCntInc k
  rw [if_neg hzero]
  by_cases hei : tests.ei = 0
  · rw [if_pos hei]
  rw [if_neg hei]
  by_cases hwithin : tests.within hits = true
  · rw [if_pos hwithin]
    exact hdr.eraseMeta_pivotMetaAccess k _
  rw [if_neg hwithin]
  by_cases hfull : pivotCntOverflowThreshold ≤ hits
  · rw [if_pos hfull]
    exact hdr.eraseMeta_resetCounts
  · rw [if_neg hfull]
    exact hdr.eraseMeta_pivotCntInc k

/-- **The update of a pivot's counter** changes nothing but borrowed bytes, whatever the tests
say. -/
theorem eraseMeta_updatePivotCntAndIsWarm (tests : WarmthTests) (k : Nat)
    (entry : OndiskIndexEntry K) :
    (hdr.updatePivotCntAndIsWarm tests k entry).1.eraseMeta = hdr.eraseMeta := by
  have hcleared : (if entry.isSpecial = true then hdr.pivotMetaAccess k .clearSpecial
      else hdr).eraseMeta = hdr.eraseMeta := by
    by_cases hspecial : entry.isSpecial = true
    · rw [if_pos hspecial]
      exact hdr.eraseMeta_pivotMetaAccess k _
    · rw [if_neg hspecial]
  rw [updatePivotCntAndIsWarm]
  generalize (if entry.isSpecial = true then hdr.pivotMetaAccess k .clearSpecial else hdr) =
    cleared at hcleared ⊢
  by_cases hready : tests.evictIntervalNotReady = true
  · rw [if_pos hready]
    exact (cleared.eraseMeta_pivotMetaAccess k _).trans hcleared
  rw [if_neg hready]
  by_cases hcold : tests.entryTime = 0
  · rw [if_pos hcold]
    exact hcleared
  rw [if_neg hcold]
  by_cases hcompensate : entry.isSpecial = true ∧ 0 < tests.ei ∧ tests.multPositive = true ∧
      0 < tests.eiMult ∧ entry.hits < maxHits tests
  · rw [if_pos hcompensate]
    exact ((eraseMeta_updateByHits _ tests k _).trans
      (cleared.eraseMeta_pivotSetCount k _)).trans hcleared
  · rw [if_neg hcompensate]
    exact (eraseMeta_updateByHits _ tests k _).trans hcleared

end Page

theorem trackPivot_samePages (outcomes : LookupOutcomes) (type : PageType) (pages : Addr → Page K)
    (addr : Addr) (h k : Nat) (entry : OndiskIndexEntry K) (isWarm : Bool) :
    SamePages pages (trackPivot outcomes type pages addr h k entry isWarm).2.1 := by
  cases type with
  | memtable => exact SamePages.refl pages
  | branch =>
      rw [trackPivot]
      by_cases hpresent : isWarm = true ∧ outcomes.present h = true
      · rw [if_pos hpresent]
        exact SamePages.refl pages
      rw [if_neg hpresent]
      by_cases hwarm : isWarm = true
      · rw [if_pos hwarm]
        exact samePages_of_update ((pages addr).eraseMeta_updatePivotCntAndIsWarm _ k entry).symm
      · rw [if_neg hwarm]
        exact SamePages.refl pages

theorem resetStaleCounts_samePages (type : PageType) (pages : Addr → Page K) (child : Addr)
    (childInCache internal : Bool) :
    SamePages pages (resetStaleCounts type pages child childInCache internal) := by
  rw [resetStaleCounts]
  by_cases h : (!childInCache && internal && decide (type = .branch)) = true
  · rw [if_pos h]
    exact samePages_of_update (pages child).eraseMeta_resetCounts.symm
  · rw [if_neg h]
    exact SamePages.refl pages

/-! ## The descent -/

def Found.Seen (found found' : Found) : Prop :=
  found.addr = found'.addr ∧ found.stats = found'.stats

variable (cfg : Config K)

private theorem accumulateEntry_eraseMeta (stats : PivotStats) (entry : Entry K) :
    accumulateEntry cfg stats entry.eraseMeta = accumulateEntry cfg stats entry := by
  cases entry <;> rfl

theorem accumulateNodeRanks_eraseMeta (hdr : Page K) (upto : Nat) (stats : PivotStats) :
    accumulateNodeRanks cfg hdr.eraseMeta upto stats = accumulateNodeRanks cfg hdr upto stats := by
  have hsums : ∀ (slots : List (Slot K)) (stats : PivotStats),
      (slots.map Slot.eraseMeta).foldl (fun sums slot => accumulateEntry cfg sums slot.entry) stats =
        slots.foldl (fun sums slot => accumulateEntry cfg sums slot.entry) stats := by
    intro slots stats
    rw [List.foldl_map]
    congr 1
    funext sums slot
    exact accumulateEntry_eraseMeta cfg sums slot.entry
  rw [accumulateNodeRanks, accumulateNodeRanks, Page.slots_eraseMeta, ← List.map_take, hsums,
    Page.height_eraseMeta]

variable [LinearOrder K]

theorem childIndex_eraseMeta (hdr : Page K) (target : Key K) :
    hdr.eraseMeta.childIndex target = hdr.childIndex target := by
  rw [Page.childIndex, Page.childIndex, Page.numEntries_eraseMeta, Page.findPivot_eraseMeta]

theorem lookupTurns_agree (outcomes outcomes' : LookupOutcomes) (type type' : PageType)
    (target : Key K) (stopAtHeight n : Nat) {found found' : Found} {s s' : Reader K}
    (hfound : found.Seen found') (hpages : SamePages s.pages s'.pages) :
    (lookupTurns cfg outcomes type target stopAtHeight n found s = none ∧
        lookupTurns cfg outcomes' type' target stopAtHeight n found' s' = none) ∨
      ∃ r r', lookupTurns cfg outcomes type target stopAtHeight n found s = some r ∧
        lookupTurns cfg outcomes' type' target stopAtHeight n found' s' = some r' ∧
        r.1.Seen r'.1 ∧ SamePages s.pages r.2.pages ∧ SamePages s'.pages r'.2.pages := by
  induction n generalizing found found' s s' with
  | zero =>
      exact .inr ⟨(found, s), (found', s'), rfl, rfl, hfound, SamePages.refl _, SamePages.refl _⟩
  | succ n ih =>
      obtain ⟨haddr, hstats⟩ := hfound
      have hsame : SamePage (s.pages found.addr) (s'.pages found'.addr) := by
        rw [← haddr]
        exact hpages found.addr
      have hindex : (s.pages found.addr).childIndex target = (s'.pages found'.addr).childIndex target :=
        hsame.congr (f := fun p => p.childIndex target) fun p => childIndex_eraseMeta p target
      rw [lookupTurns, lookupTurns, hindex]
      rcases hsame.getIndexEntry ((s'.pages found'.addr).childIndex target) with
        ⟨h, h'⟩ | ⟨e, e', h, h', heq⟩
      · rw [h, h']
        exact .inl ⟨rfl, rfl⟩
      · rw [h, h']
        dsimp only
        generalize hk : (s'.pages found'.addr).childIndex target = k
        have htracked := trackPivot_samePages outcomes type s.pages found.addr
          (stopAtHeight + n + 1) k e found.isWarm
        have htracked' := trackPivot_samePages outcomes' type' s'.pages found'.addr
          (stopAtHeight + n + 1) k e' found'.isWarm
        generalize trackPivot outcomes type s.pages found.addr (stopAtHeight + n + 1) k e
          found.isWarm = tracked at htracked ⊢
        generalize trackPivot outcomes' type' s'.pages found'.addr (stopAtHeight + n + 1) k e'
          found'.isWarm = tracked' at htracked' ⊢
        have hreset := htracked.trans
          (resetStaleCounts_samePages type tracked.2.1 e.maskedChildAddr tracked.1 (decide (0 < n)))
        have hreset' := htracked'.trans (resetStaleCounts_samePages type' tracked'.2.1
          e'.maskedChildAddr tracked'.1 (decide (0 < n)))
        have hranks : accumulateNodeRanks cfg (s.pages found.addr) k found.stats =
            accumulateNodeRanks cfg (s'.pages found'.addr) k found'.stats := by
          rw [hstats]
          exact hsame.congr (f := fun p => accumulateNodeRanks cfg p k found'.stats) fun p =>
            accumulateNodeRanks_eraseMeta cfg p k _
        have hnext : SamePages _ _ := hreset.symm.trans (hpages.trans hreset')
        rcases @ih ⟨e.maskedChildAddr, _, tracked.2.2⟩ ⟨e'.maskedChildAddr, _, tracked'.2.2⟩
            ⟨_, releaseCall type found.addr found.isWarm :: .get _ tracked.2.2 :: s.calls⟩
            ⟨_, releaseCall type' found'.addr found'.isWarm :: .get _ tracked'.2.2 :: s'.calls⟩
            ⟨(same_of_eraseMeta_eq heq).2.1, hranks⟩ hnext with ⟨hnone, hnone'⟩ | hsome
        · exact .inl ⟨hnone, hnone'⟩
        · obtain ⟨r, r', hr, hr', hseen, hrest, hrest'⟩ := hsome
          exact .inr ⟨r, r', hr, hr', hseen, hreset.trans hrest, hreset'.trans hrest'⟩

/-- The message at the node a lookup has found, and the node without its references. -/
def Found.read (found : Found) (pages : Addr → Page K) (target : Key K) :
    Addr × PivotStats × Option Message :=
  let hdr := pages found.addr
  let place := hdr.findTuple target
  (found.addr, found.stats,
    if place.2 then (hdr.getLeafEntry place.1.toNat).map Tuple.msg else none)

theorem Found.read_eq {found found' : Found} {pages pages' : Addr → Page K}
    (hseen : found.Seen found') (hpages : SamePages pages pages') (target : Key K) :
    found.read pages target = found'.read pages' target := by
  obtain ⟨haddr, hstats⟩ := hseen
  have hfind : (pages found.addr).findTuple target = (pages' found.addr).findTuple target :=
    (hpages found.addr).congr (f := fun p => p.findTuple target) fun p => p.findTuple_eraseMeta target
  have hget : ∀ k, (pages found.addr).getLeafEntry k = (pages' found.addr).getLeafEntry k := fun k =>
    (hpages found.addr).congr (f := fun p => p.getLeafEntry k) fun p => p.getLeafEntry_eraseMeta k
  rw [read, read, ← haddr, ← hstats, hfind, hget]

theorem btreeLookupNode_agree (outcomes outcomes' : LookupOutcomes) (type type' : PageType)
    (rootAddr : Addr) (target : Key K) (stopAtHeight : Nat) {s s' : Reader K}
    (hpages : SamePages s.pages s'.pages) :
    (btreeLookupNode cfg outcomes type rootAddr target stopAtHeight s).map
        (fun r => r.1.read r.2.pages target) =
      (btreeLookupNode cfg outcomes' type' rootAddr target stopAtHeight s').map
        (fun r => r.1.read r.2.pages target) ∧
    ∀ r, btreeLookupNode cfg outcomes type rootAddr target stopAtHeight s = some r →
      SamePages s.pages r.2.pages := by
  rw [btreeLookupNode, btreeLookupNode, (hpages rootAddr).height]
  have hstart : Found.Seen ⟨rootAddr, ⟨0, 0, 0⟩, true⟩ ⟨rootAddr, ⟨0, 0, 0⟩, true⟩ := ⟨rfl, rfl⟩
  rcases @lookupTurns_agree K cfg _ outcomes outcomes' type type' target stopAtHeight
      ((s'.pages rootAddr).height - stopAtHeight) _ _ { s with calls := .get rootAddr true :: s.calls }
      { s' with calls := .get rootAddr true :: s'.calls } hstart hpages with ⟨h, h'⟩ | hsome
  · rw [h, h']
    exact ⟨rfl, fun r hr => Option.noConfusion rfl (heq_of_eq hr)⟩
  · obtain ⟨r, r', hr, hr', hseen, hrest, hrest'⟩ := hsome
    rw [hr, hr']
    refine ⟨congrArg some ?_, fun r₁ hr₁ => ?_⟩
    · exact Found.read_eq hseen (hrest.symm.trans (hpages.trans hrest')) target
    · rw [← Option.some.inj hr₁]
      exact hrest

end Btree
end TreePass
