import TreePass.Btree.Incorporate
import TreePass.Btree.PivotMeta

/-!
# Pages without the borrowed byte

Every function on a page gives the same answer, and the same page up to the borrowed bytes, if the
bytes are erased first: the readers mask the address, and the writers take it from a reader or
from the allocator.  The lemmas follow the order of the definitions.
-/

namespace TreePass
namespace Btree

variable {K : Type} (cfg : Config K)

@[simp] theorem Entry.sizeof_eraseMeta (entry : Entry K) :
    entry.eraseMeta.sizeof cfg = entry.sizeof cfg := by
  cases entry <;> rfl

@[simp] theorem Slot.offset_eraseMeta (slot : Slot K) : slot.eraseMeta.offset = slot.offset := rfl

@[simp] theorem Slot.entry_eraseMeta (slot : Slot K) :
    slot.eraseMeta.entry = slot.entry.eraseMeta := rfl

namespace Page

variable (hdr : Page K)

@[simp] theorem slots_eraseMeta : hdr.eraseMeta.slots = hdr.slots.map Slot.eraseMeta := rfl

@[simp] theorem nextEntry_eraseMeta : hdr.eraseMeta.nextEntry = hdr.nextEntry := rfl

@[simp] theorem height_eraseMeta : hdr.eraseMeta.height = hdr.height := rfl

@[simp] theorem numEntries_eraseMeta : hdr.eraseMeta.numEntries = hdr.numEntries :=
  List.length_map _

/-! ## Readers -/

theorem getLeafEntry_eraseMeta (k : Nat) : hdr.eraseMeta.getLeafEntry k = hdr.getLeafEntry k := by
  rw [getLeafEntry, getLeafEntry, slots_eraseMeta, List.getElem?_map]
  cases hdr.slots[k]? with
  | none => rfl
  | some slot => rcases slot with ⟨offset, e | e⟩ <;> rfl

theorem getIndexEntry_eraseMeta (k : Nat) :
    hdr.eraseMeta.getIndexEntry k = (hdr.getIndexEntry k).map OndiskIndexEntry.eraseMeta := by
  rw [getIndexEntry, getIndexEntry, slots_eraseMeta, List.getElem?_map]
  cases hdr.slots[k]? with
  | none => rfl
  | some slot => rcases slot with ⟨offset, e | e⟩ <;> rfl

section Search

variable [LinearOrder K]

theorem findPivot_eraseMeta (target : Key K) :
    hdr.eraseMeta.findPivot target = hdr.findPivot target := by
  rw [findPivot, findPivot, numEntries_eraseMeta]
  congr 1
  funext i
  rw [getIndexEntry_eraseMeta]
  cases hdr.getIndexEntry i <;> rfl

theorem findTuple_eraseMeta (target : Key K) :
    hdr.eraseMeta.findTuple target = hdr.findTuple target := by
  rw [findTuple, findTuple, numEntries_eraseMeta]
  congr 1
  funext i
  rw [getLeafEntry_eraseMeta]

end Search

/-! ## Writers -/

theorem placeEntry_eraseMeta (k : Nat) (entry : Entry K) :
    hdr.eraseMeta.placeEntry cfg k entry.eraseMeta = (hdr.placeEntry cfg k entry).map eraseMeta := by
  rw [placeEntry, placeEntry]
  simp only [numEntries_eraseMeta, nextEntry_eraseMeta, Entry.sizeof_eraseMeta]
  by_cases hroom : hdr.nextEntry <
      offsetsEnd (if k < hdr.numEntries then hdr.numEntries else k + 1) + entry.sizeof cfg
  · rw [if_pos hroom, if_pos hroom]
    rfl
  · rw [if_neg hroom, if_neg hroom]
    by_cases hk : k < hdr.numEntries
    · simp only [hk, if_true, Option.map_some, eraseMeta, List.map_set]
      rfl
    · simp only [hk, if_false, Option.map_some, eraseMeta, List.map_append, List.map_cons,
        List.map_nil]
      rfl

theorem overwriteEntry_eraseMeta (k : Nat) (entry : Entry K) :
    hdr.eraseMeta.overwriteEntry k entry.eraseMeta = (hdr.overwriteEntry k entry).eraseMeta := by
  rw [overwriteEntry, overwriteEntry, eraseMeta, eraseMeta]
  congr 1
  refine List.ext_getElem? fun i => ?_
  rw [List.getElem?_modify, List.getElem?_map, List.getElem?_map, List.getElem?_modify]
  cases hdr.slots[i]? with
  | none => rfl
  | some slot =>
      change some _ = some _
      dsimp only
      by_cases h : k = i
      · rw [if_pos h, if_pos h]
        rfl
      · rw [if_neg h, if_neg h]

theorem setIndexEntry_eraseMeta (k : Nat) (newPivotKey : Key K) (newAddr : Addr)
    (stats : PivotStats) :
    hdr.eraseMeta.setIndexEntry cfg k newPivotKey (withByte0 newAddr 0) stats =
      (hdr.setIndexEntry cfg k newPivotKey newAddr stats).map eraseMeta := by
  have hentry : Entry.index ⟨⟨withByte0 newAddr 0, stats⟩, newPivotKey⟩ =
      (Entry.index ⟨⟨newAddr, stats⟩, newPivotKey⟩ : Entry K).eraseMeta := rfl
  have hplace := hdr.placeEntry_eraseMeta cfg k (Entry.index ⟨⟨newAddr, stats⟩, newPivotKey⟩)
  rw [setIndexEntry, setIndexEntry, hentry, slots_eraseMeta, List.getElem?_map]
  cases hdr.slots[k]? with
  | none => exact hplace
  | some old =>
      simp only [Option.map_some, numEntries_eraseMeta, nextEntry_eraseMeta, Slot.offset_eraseMeta,
        Slot.entry_eraseMeta, Entry.sizeof_eraseMeta]
      by_cases hfirst : hdr.nextEntry = old.offset ∧ offsetsEnd hdr.numEntries +
          (Entry.index ⟨⟨newAddr, stats⟩, newPivotKey⟩ : Entry K).sizeof cfg ≤
            hdr.nextEntry + old.entry.sizeof cfg
      · rw [if_pos hfirst, if_pos hfirst]
        exact placeEntry_eraseMeta cfg { hdr with nextEntry := hdr.nextEntry + old.entry.sizeof cfg }
          k (Entry.index ⟨⟨newAddr, stats⟩, newPivotKey⟩)
      rw [if_neg hfirst, if_neg hfirst]
      by_cases hfits : (Entry.index ⟨⟨newAddr, stats⟩, newPivotKey⟩ : Entry K).sizeof cfg ≤
          old.entry.sizeof cfg
      · rw [if_pos hfits, if_pos hfits, overwriteEntry_eraseMeta]
        rfl
      · rw [if_neg hfits, if_neg hfits]
        exact hplace

theorem moveLastTo_eraseMeta (k : Nat) :
    hdr.eraseMeta.moveLastTo k = (hdr.moveLastTo k).eraseMeta := by
  have hlast : (hdr.slots.map Slot.eraseMeta).getLast?.toList =
      hdr.slots.getLast?.toList.map Slot.eraseMeta := by
    rw [List.getLast?_map]
    cases hdr.slots.getLast? <;> rfl
  rw [moveLastTo, moveLastTo, eraseMeta, eraseMeta]
  simp only [hlast, List.map_append, List.map_take, List.map_drop, List.map_dropLast]

theorem insertIndexEntry_eraseMeta (k : Nat) (newPivotKey : Key K) (newAddr : Addr)
    (stats : PivotStats) :
    hdr.eraseMeta.insertIndexEntry cfg k newPivotKey (withByte0 newAddr 0) stats =
      (hdr.insertIndexEntry cfg k newPivotKey newAddr stats).map eraseMeta := by
  rw [insertIndexEntry, insertIndexEntry, numEntries_eraseMeta, setIndexEntry_eraseMeta,
    Option.map_map, Option.map_map]
  congr 1
  funext h
  exact h.moveLastTo_eraseMeta k

private theorem any_fits_eraseMeta (k size : Nat) :
    (hdr.eraseMeta.slots[k]?).any (fun old => decide (size ≤ old.entry.sizeof cfg)) =
      (hdr.slots[k]?).any fun old => decide (size ≤ old.entry.sizeof cfg) := by
  rw [slots_eraseMeta, List.getElem?_map]
  cases hdr.slots[k]? with
  | none => rfl
  | some slot => simp only [Option.map_some, Option.any_some, Slot.entry_eraseMeta,
      Entry.sizeof_eraseMeta]

theorem canSetLeafEntry_eraseMeta (k : Nat) (newKey : K) (newMessage : Message) :
    hdr.eraseMeta.canSetLeafEntry cfg k newKey newMessage =
      hdr.canSetLeafEntry cfg k newKey newMessage := by
  rw [canSetLeafEntry, canSetLeafEntry, any_fits_eraseMeta, numEntries_eraseMeta, nextEntry_eraseMeta]

theorem setLeafEntry_eraseMeta (k : Nat) (newKey : K) (newMessage : Message) :
    hdr.eraseMeta.setLeafEntry cfg k newKey newMessage =
      (hdr.setLeafEntry cfg k newKey newMessage).map eraseMeta := by
  rw [setLeafEntry, setLeafEntry, any_fits_eraseMeta]
  by_cases hfits : ((hdr.slots[k]?).any fun old =>
      decide ((Entry.leaf ⟨newKey, newMessage⟩).sizeof cfg ≤ old.entry.sizeof cfg)) = true
  · rw [if_pos hfits, if_pos hfits]
    exact congrArg some (overwriteEntry_eraseMeta hdr k (.leaf ⟨newKey, newMessage⟩))
  · rw [if_neg hfits, if_neg hfits]
    exact placeEntry_eraseMeta cfg hdr k (.leaf ⟨newKey, newMessage⟩)

theorem insertLeafEntry_eraseMeta (k : Nat) (newKey : K) (newMessage : Message) :
    hdr.eraseMeta.insertLeafEntry cfg k newKey newMessage =
      (hdr.insertLeafEntry cfg k newKey newMessage).map eraseMeta := by
  rw [insertLeafEntry, insertLeafEntry, numEntries_eraseMeta, setLeafEntry_eraseMeta,
    Option.map_map, Option.map_map]
  congr 1
  funext h
  exact h.moveLastTo_eraseMeta k

/-! ## Index pages -/

private theorem lowest_map (slots : List (Slot K)) (low : Nat) :
    (slots.map Slot.eraseMeta).foldl (fun low slot => min slot.offset low) low =
      slots.foldl (fun low slot => min slot.offset low) low := by
  rw [List.foldl_map]
  rfl

theorem lowestOffset_eraseMeta (targetEntries : Nat) :
    hdr.eraseMeta.lowestOffset cfg targetEntries = hdr.lowestOffset cfg targetEntries := by
  rw [lowestOffset, lowestOffset, slots_eraseMeta, ← List.map_take, lowest_map]

theorem liveBytes_eraseMeta (slots : List (Slot K)) :
    liveBytes cfg (slots.map Slot.eraseMeta) = liveBytes cfg slots := by
  rw [liveBytes, liveBytes, List.map_map]
  congr 1
  refine List.map_congr_left fun slot _ => ?_
  exact slot.entry.sizeof_eraseMeta cfg

theorem setIndexEntries_eraseMeta (slots : List (Slot K)) (i : Nat) (hdr : Page K) :
    setIndexEntries cfg i hdr.eraseMeta (slots.map Slot.eraseMeta) =
      (setIndexEntries cfg i hdr slots).map eraseMeta := by
  induction slots generalizing i hdr with
  | nil => rfl
  | cons slot rest ih =>
      rcases slot with ⟨offset, e | e⟩
      · rfl
      · have hset : hdr.eraseMeta.setIndexEntry cfg i e.pivot e.eraseMeta.maskedChildAddr
            e.pivotData.stats =
              (hdr.setIndexEntry cfg i e.pivot e.maskedChildAddr e.pivotData.stats).map eraseMeta := by
          rw [← setIndexEntry_eraseMeta, e.maskedChildAddr_eraseMeta, OndiskIndexEntry.maskedChildAddr,
            withByte0_of_masked]
        change (hdr.eraseMeta.setIndexEntry cfg i e.pivot e.eraseMeta.maskedChildAddr
          e.pivotData.stats).bind _ = Option.map _ (Option.bind _ _)
        rw [hset, Option.bind_map, Option.map_bind]
        congr 1
        funext h
        exact ih (i + 1) h

theorem defragmentIndex_eraseMeta :
    hdr.eraseMeta.defragmentIndex cfg = (hdr.defragmentIndex cfg).map eraseMeta :=
  setIndexEntries_eraseMeta cfg hdr.slots 0 (hdr.resetNodeEntries cfg)

theorem truncateIndex_eraseMeta (targetEntries : Nat) :
    hdr.eraseMeta.truncateIndex cfg targetEntries =
      (hdr.truncateIndex cfg targetEntries).map eraseMeta := by
  have htruncated : ({ hdr.eraseMeta with
      slots := hdr.eraseMeta.slots.take targetEntries
      nextEntry := hdr.lowestOffset cfg targetEntries
      generation := hdr.eraseMeta.generation + 1 } : Page K) =
        Page.eraseMeta { hdr with
          slots := hdr.slots.take targetEntries
          nextEntry := hdr.lowestOffset cfg targetEntries
          generation := hdr.generation + 1 } := by
    rw [slots_eraseMeta, ← List.map_take]
    rfl
  rw [truncateIndex, truncateIndex, lowestOffset_eraseMeta, htruncated]
  by_cases hlow : hdr.lowestOffset cfg targetEntries < defragmentThreshold cfg
  · rw [if_pos hlow, if_pos hlow, defragmentIndex_eraseMeta]
  · rw [if_neg hlow, if_neg hlow]
    rfl

theorem indexIsFull_eraseMeta : hdr.eraseMeta.indexIsFull cfg = hdr.indexIsFull cfg := by
  rw [indexIsFull, indexIsFull, numEntries_eraseMeta, nextEntry_eraseMeta]

private theorem countLeftEntries_eraseMeta (half : Nat) (slots : List (Slot K)) (bytes : Nat) :
    countLeftEntries cfg half bytes (slots.map Slot.eraseMeta) =
      countLeftEntries cfg half bytes slots := by
  induction slots generalizing bytes with
  | nil => rfl
  | cons slot rest ih =>
      rw [List.map_cons, countLeftEntries, countLeftEntries, Slot.entry_eraseMeta,
        Entry.sizeof_eraseMeta, ih]

theorem chooseIndexSplit_eraseMeta :
    hdr.eraseMeta.chooseIndexSplit cfg = hdr.chooseIndexSplit cfg := by
  rw [chooseIndexSplit, chooseIndexSplit, slots_eraseMeta, liveBytes_eraseMeta,
    countLeftEntries_eraseMeta]

theorem splitIndexBuildRightNode_eraseMeta (targetLeftEntries : Nat) :
    hdr.eraseMeta.splitIndexBuildRightNode cfg targetLeftEntries =
      (hdr.splitIndexBuildRightNode cfg targetLeftEntries).map eraseMeta := by
  rw [splitIndexBuildRightNode, splitIndexBuildRightNode, slots_eraseMeta, ← List.map_drop]
  exact setIndexEntries_eraseMeta cfg (hdr.slots.drop targetLeftEntries) 0
    ({ hdr with generation := hdr.generation + 1 }.resetNodeEntries cfg)

/-! ## Leaves -/

theorem createLeafIncorporateSpec_eraseMeta [LinearOrder K] (initialized : Bool)
    (merge : K → Message → Message → Option Message) (tupleKey : K) (msg : Message) :
    hdr.eraseMeta.createLeafIncorporateSpec initialized merge tupleKey msg =
      hdr.createLeafIncorporateSpec initialized merge tupleKey msg := by
  simp only [createLeafIncorporateSpec, findTuple_eraseMeta, getLeafEntry_eraseMeta]

theorem canPerformLeafIncorporateSpec_eraseMeta (spec : LeafIncorporateSpec K) :
    hdr.eraseMeta.canPerformLeafIncorporateSpec cfg spec =
      hdr.canPerformLeafIncorporateSpec cfg spec := by
  simp only [canPerformLeafIncorporateSpec, canSetLeafEntry_eraseMeta, numEntries_eraseMeta]

theorem tryPerformLeafIncorporateSpec_eraseMeta (spec : LeafIncorporateSpec K) :
    hdr.eraseMeta.tryPerformLeafIncorporateSpec cfg spec =
      (hdr.tryPerformLeafIncorporateSpec cfg spec).map fun r => (r.1.eraseMeta, r.2) := by
  simp only [tryPerformLeafIncorporateSpec, setLeafEntry_eraseMeta, insertLeafEntry_eraseMeta]
  cases spec.oldEntryState <;> simp only [Option.map_map] <;> rfl

theorem keptSlots_eraseMeta (spec : LeafIncorporateSpec K) (slots : List (Slot K)) (i : Nat) :
    keptSlots spec i (slots.map Slot.eraseMeta) = (keptSlots spec i slots).map Slot.eraseMeta := by
  induction slots generalizing i with
  | nil => rfl
  | cons slot rest ih =>
      rw [List.map_cons, keptSlots, keptSlots, ih]
      by_cases h : spec.oldEntryState = .stillExists ∧ spec.idx = i
      · rw [if_pos h, if_pos h]
      · rw [if_neg h, if_neg h, List.map_cons]

theorem setLeafEntries_eraseMeta (slots : List (Slot K)) (dstIdx : Nat) (hdr : Page K) :
    setLeafEntries cfg dstIdx hdr.eraseMeta (slots.map Slot.eraseMeta) =
      (setLeafEntries cfg dstIdx hdr slots).eraseMeta := by
  induction slots generalizing dstIdx hdr with
  | nil => rfl
  | cons slot rest ih =>
      rcases slot with ⟨offset, e | e⟩
      · have hset : (hdr.eraseMeta.setLeafEntry cfg dstIdx e.key e.msg).getD hdr.eraseMeta =
            ((hdr.setLeafEntry cfg dstIdx e.key e.msg).getD hdr).eraseMeta := by
          rw [setLeafEntry_eraseMeta]
          cases hdr.setLeafEntry cfg dstIdx e.key e.msg <;> rfl
        change setLeafEntries cfg (dstIdx + 1)
          ((hdr.eraseMeta.setLeafEntry cfg dstIdx e.key e.msg).getD hdr.eraseMeta) _ = _
        rw [hset, ih]
        rfl
      · exact ih (dstIdx + 1) hdr

theorem defragmentLeaf_eraseMeta (spec : LeafIncorporateSpec K) :
    hdr.eraseMeta.defragmentLeaf cfg spec =
      ((hdr.defragmentLeaf cfg spec).1.eraseMeta, (hdr.defragmentLeaf cfg spec).2) := by
  rw [defragmentLeaf, defragmentLeaf, slots_eraseMeta, keptSlots_eraseMeta, numEntries_eraseMeta]
  exact congrArg (·, spec.afterDropping 0 hdr.numEntries)
    (setLeafEntries_eraseMeta cfg (keptSlots spec 0 hdr.slots) 0 (hdr.resetNodeEntries cfg))

theorem truncateLeaf_eraseMeta (targetEntries : Nat) :
    hdr.eraseMeta.truncateLeaf cfg targetEntries = (hdr.truncateLeaf cfg targetEntries).eraseMeta := by
  rw [truncateLeaf, truncateLeaf, lowestOffset_eraseMeta, slots_eraseMeta, ← List.map_take]
  rfl

private theorem planMoveMoreEntriesToLeft_eraseMeta (totalBytes : Nat) (slots : List (Slot K))
    (leftBytes splitIdx : Nat) :
    planMoveMoreEntriesToLeft cfg totalBytes leftBytes splitIdx (slots.map Slot.eraseMeta) =
      planMoveMoreEntriesToLeft cfg totalBytes leftBytes splitIdx slots := by
  induction slots generalizing leftBytes splitIdx with
  | nil => rfl
  | cons slot rest ih =>
      rw [List.map_cons, planMoveMoreEntriesToLeft, planMoveMoreEntriesToLeft,
        Slot.entry_eraseMeta, Entry.sizeof_eraseMeta, ih]

theorem buildLeafSplittingPlan_eraseMeta (spec : LeafIncorporateSpec K) :
    hdr.eraseMeta.buildLeafSplittingPlan cfg spec = hdr.buildLeafSplittingPlan cfg spec := by
  simp only [buildLeafSplittingPlan, slots_eraseMeta, keptSlots_eraseMeta, liveBytes_eraseMeta,
    numEntries_eraseMeta, ← List.map_take, ← List.map_drop, planMoveMoreEntriesToLeft_eraseMeta]

theorem splittingPivot_eraseMeta (spec : LeafIncorporateSpec K) (plan : LeafSplittingPlan) :
    hdr.eraseMeta.splittingPivot spec plan = hdr.splittingPivot spec plan := by
  simp only [splittingPivot, getLeafEntry_eraseMeta]

theorem splitLeafRightEntries_eraseMeta (leftAddr : Addr) (spec : LeafIncorporateSpec K)
    (plan : LeafSplittingPlan) :
    hdr.eraseMeta.splitLeafRightEntries cfg leftAddr spec plan =
      (hdr.splitLeafRightEntries cfg leftAddr spec plan).eraseMeta := by
  rw [splitLeafRightEntries, splitLeafRightEntries, slots_eraseMeta, ← List.map_drop,
    keptSlots_eraseMeta]
  exact setLeafEntries_eraseMeta cfg _ 0
    ({ hdr with generation := hdr.generation + 1, prevAddr := leftAddr }.resetNodeEntries cfg)

theorem splitLeafBuildRightNode_eraseMeta (leftAddr : Addr) (spec : LeafIncorporateSpec K)
    (plan : LeafSplittingPlan) :
    hdr.eraseMeta.splitLeafBuildRightNode cfg leftAddr spec plan =
      (hdr.splitLeafBuildRightNode cfg leftAddr spec plan).map
        fun r => (r.1.eraseMeta, r.2) := by
  rw [splitLeafBuildRightNode, splitLeafBuildRightNode]
  dsimp only
  rw [splitLeafRightEntries_eraseMeta, numEntries_eraseMeta]
  by_cases hleft : plan.insertionGoesLeft = true
  · rw [if_pos hleft, if_pos hleft]
    rfl
  · rw [if_neg hleft, if_neg hleft, tryPerformLeafIncorporateSpec_eraseMeta, Option.map_map,
      Option.map_map]
    rfl

theorem splitLeafLeftEntries_eraseMeta (plan : LeafSplittingPlan) (rightAddr : Addr) :
    hdr.eraseMeta.splitLeafLeftEntries cfg plan rightAddr =
      (hdr.splitLeafLeftEntries cfg plan rightAddr).eraseMeta := by
  have htruncated := truncateLeaf_eraseMeta cfg { hdr with nextAddr := rightAddr } plan.splitIdx
  change { Page.truncateLeaf cfg (eraseMeta { hdr with nextAddr := rightAddr }) plan.splitIdx with
    generation := hdr.generation + 1 } = _
  rw [htruncated]
  rfl

theorem splitLeafCleanupLeftNode_eraseMeta (spec : LeafIncorporateSpec K)
    (plan : LeafSplittingPlan) (rightAddr : Addr) :
    hdr.eraseMeta.splitLeafCleanupLeftNode cfg spec plan rightAddr =
      ((hdr.splitLeafCleanupLeftNode cfg spec plan rightAddr).1.eraseMeta,
        (hdr.splitLeafCleanupLeftNode cfg spec plan rightAddr).2) := by
  rw [splitLeafCleanupLeftNode, splitLeafCleanupLeftNode, splitLeafLeftEntries_eraseMeta,
    canPerformLeafIncorporateSpec_eraseMeta]
  by_cases hleft : plan.insertionGoesLeft = true ∧
      (!(hdr.splitLeafLeftEntries cfg plan rightAddr).canPerformLeafIncorporateSpec cfg spec) = true
  · rw [if_pos hleft, if_pos hleft, defragmentLeaf_eraseMeta]
  · rw [if_neg hleft, if_neg hleft]

theorem totalSpaceRequired_eraseMeta (spec : LeafIncorporateSpec K) :
    hdr.eraseMeta.totalSpaceRequired cfg spec = hdr.totalSpaceRequired cfg spec := by
  rw [totalSpaceRequired, totalSpaceRequired, slots_eraseMeta, keptSlots_eraseMeta,
    liveBytes_eraseMeta, numEntries_eraseMeta]

end Page
end Btree
end TreePass
