import TreePass.Btree.Iterator
import TreePass.Btree.LookupErasure

/-!
# What an iterator sees of the borrowed bytes

The pages of a tree as an iterator reads them (`viewPages`), and which part of them it uses:

* to move it uses keys, child addresses, links and generations, but not the `pivot_data` it hands
  out (`init_core`, `next_core`, `prev_core`), so its positions do not depend on borrowed bytes;
* what it returns at a position above the leaves is the `pivot_data` itself, with byte 0 of the
  child address as it is stored (`curr_view_iff`).
-/

namespace TreePass
namespace Btree

variable {K : Type}

/-! ## The view of a page -/

def littleEndian (count value : Nat) : List UInt8 :=
  (List.range count).map fun i => UInt8.ofNat (value / 256 ^ i)

/-- The bytes of a `btree_pivot_data`. -/
def PivotData.bytes (data : PivotData) : List UInt8 :=
  littleEndian 8 data.childAddr.toNat ++ littleEndian 4 data.stats.numKvs ++
    littleEndian 4 data.stats.keyBytes ++ littleEndian 4 data.stats.messageBytes

/-- An index entry as a reader sees it: the address masked, the `pivot_data` as it is stored. -/
def OndiskIndexEntry.view (e : OndiskIndexEntry K) : IndexEntry K :=
  ⟨e.pivot, e.maskedChildAddr.toNat, e.pivotData.bytes⟩

def Slot.tuple? (slot : Slot K) : Option (Tuple K) :=
  match slot.entry with
  | .leaf e => some e
  | .index _ => none

def Slot.pivot? (slot : Slot K) : Option (OndiskIndexEntry K) :=
  match slot.entry with
  | .leaf _ => none
  | .index e => some e

def Page.ondiskPivots (hdr : Page K) : List (OndiskIndexEntry K) := hdr.slots.filterMap Slot.pivot?

def Page.view (hdr : Page K) : Node K where
  height := hdr.height
  generation := hdr.generation
  nextAddr := hdr.nextAddr.toNat
  prevAddr := hdr.prevAddr.toNat
  tuples := hdr.slots.filterMap Slot.tuple?
  pivots := hdr.ondiskPivots.map OndiskIndexEntry.view

def viewPages (pages : Addr → Page K) : Nat → Node K := fun addr =>
  (pages (BitVec.ofNat 64 addr)).view

/-! ## The part that decides where an iterator goes -/

/-- A node without the `pivot_data` of its entries. -/
def Node.core (hdr : Node K) : Node K :=
  { hdr with pivots := hdr.pivots.map fun e => { e with pivotData := [] } }

/-- The nodes of a tree without their `pivot_data`. -/
def corePages (pages : Nat → Node K) : Nat → Node K := fun addr => (pages addr).core

section Core

variable (hdr : Node K) (pages : Nat → Node K)

@[simp] theorem Node.numEntries_core : hdr.core.numEntries = hdr.numEntries := by
  rw [numEntries, numEntries, core, List.length_map]

theorem childAddr_core (idx : Nat) : childAddr hdr.core idx = childAddr hdr idx := by
  rw [childAddr, childAddr, Node.core, List.getElem?_map]
  cases hdr.pivots[idx]? <;> rfl

theorem Iterator.firstKey_core (itor : Iterator K) : itor.firstKey hdr.core = itor.firstKey hdr := by
  rw [firstKey, firstKey, Node.core, List.head?_map]
  cases hdr.pivots.head? <;> rfl

variable [LinearOrder K]

theorem findPivot_core (target : Key K) : findPivot hdr.core target = findPivot hdr target := by
  rw [findPivot, findPivot, Node.core, List.map_map]
  rfl

theorem findTuple_core (target : Key K) : findTuple hdr.core target = findTuple hdr target := rfl

theorem childIndex_core (target : Key K) : childIndex hdr.core target = childIndex hdr target := by
  rw [childIndex, childIndex, Node.numEntries_core, findPivot_core]

theorem descend_core (target : Key K) (n addr : Nat) :
    descend (corePages pages) target n addr = descend pages target n addr := by
  induction n generalizing addr with
  | zero => rfl
  | succ n ih =>
      rw [descend, descend, ih]
      dsimp only [corePages]
      rw [childIndex_core, childAddr_core]

theorem lookupNode_core (rootAddr : Nat) (target : Key K) (stopAtHeight : Nat) :
    lookupNode (corePages pages) rootAddr target stopAtHeight =
      lookupNode pages rootAddr target stopAtHeight := by
  rw [lookupNode, lookupNode, descend_core]
  rfl

namespace Iterator

variable (itor : Iterator K)

theorem findKeyInNode_core (target : Key K) (positionRule : Comparison) :
    itor.findKeyInNode hdr.core target positionRule = itor.findKeyInNode hdr target positionRule := by
  rw [findKeyInNode, findKeyInNode, findPivot_core, findTuple_core]
  rfl

theorem findEnd_core : itor.findEnd (corePages pages) = itor.findEnd pages := by
  rw [findEnd, findEnd, lookupNode_core]
  dsimp only [corePages]
  rw [findKeyInNode_core, Node.numEntries_core]
  rfl

private theorem whileLoop_congr {σ : Type} {cond cond' : σ → Bool} {body body' : σ → σ}
    (hcond : cond = cond') (hbody : body = body') (fuel : Nat) (s : σ) :
    whileLoop cond body fuel s = whileLoop cond' body' fuel s := by
  rw [hcond, hbody]

theorem nextLeaf_core (fuel : Nat) : itor.nextLeaf (corePages pages) fuel = itor.nextLeaf pages fuel := by
  rw [nextLeaf, nextLeaf]
  refine whileLoop_congr rfl ?_ fuel _
  funext it
  exact it.findEnd_core pages

theorem prevLeaf_core (fuel : Nat) : itor.prevLeaf (corePages pages) fuel = itor.prevLeaf pages fuel := by
  rw [prevLeaf, prevLeaf]
  dsimp only [corePages]
  simp only [firstKey_core, findTuple_core, findPivot_core, Node.numEntries_core]
  rfl

theorem next_core (fuel : Nat) : itor.next (corePages pages) fuel = itor.next pages fuel := by
  rw [next, next, nextLeaf_core]
  simp only [corePages, Node.numEntries_core]

theorem prev_core (fuel : Nat) : itor.prev (corePages pages) fuel = itor.prev pages fuel := by
  rw [prev, prev, prevLeaf_core]

theorem moveToNeighbour_core (fuel : Nat) :
    itor.moveToNeighbour (corePages pages) fuel = itor.moveToNeighbour pages fuel := by
  rw [moveToNeighbour, moveToNeighbour]
  simp only [nextLeaf_core, prevLeaf_core, corePages, Node.numEntries_core]

theorem init_core (fuel rootAddr : Nat) (minKey maxKey startKey : Key K) (startType : Comparison)
    (height : Nat) :
    init (corePages pages) fuel rootAddr minKey maxKey startKey startType height =
      init pages fuel rootAddr minKey maxKey startKey startType height := by
  rw [init, init, findNodeAndGetIdxBounds, findNodeAndGetIdxBounds]
  simp only [lookupNode_core, findEnd_core, moveToNeighbour_core]
  dsimp only [corePages]
  simp only [findKeyInNode_core]
  rfl

end Iterator
end Core

/-! ## Two trees that are equal up to the borrowed bytes -/

theorem ondiskPivots_eraseMeta (hdr : Page K) :
    hdr.eraseMeta.ondiskPivots = hdr.ondiskPivots.map OndiskIndexEntry.eraseMeta := by
  rw [Page.ondiskPivots, Page.ondiskPivots, Page.slots_eraseMeta, List.filterMap_map,
    List.map_filterMap]
  congr 1
  funext slot
  rcases slot with ⟨offset, e | e⟩ <;> rfl

theorem view_tuples_eraseMeta (hdr : Page K) : hdr.eraseMeta.view.tuples = hdr.view.tuples := by
  change hdr.eraseMeta.slots.filterMap Slot.tuple? = hdr.slots.filterMap Slot.tuple?
  rw [Page.slots_eraseMeta, List.filterMap_map]
  congr 1
  funext slot
  rcases slot with ⟨offset, e | e⟩ <;> rfl

theorem view_core_eraseMeta (hdr : Page K) : hdr.eraseMeta.view.core = hdr.view.core := by
  have hpivots : (hdr.ondiskPivots.map OndiskIndexEntry.eraseMeta).map
      (fun e => ({ e.view with pivotData := [] } : IndexEntry K)) =
        hdr.ondiskPivots.map fun e => { e.view with pivotData := [] } := by
    rw [List.map_map]
    refine List.map_congr_left fun e _ => ?_
    exact congrArg (fun addr : Addr => (⟨e.pivot, addr.toNat, []⟩ : IndexEntry K))
      e.maskedChildAddr_eraseMeta
  have htuples := view_tuples_eraseMeta hdr
  simp only [Page.view, Node.core, List.map_map] at htuples ⊢
  rw [htuples, ondiskPivots_eraseMeta]
  rw [List.map_map] at hpivots
  simp only [List.map_map, Function.comp_def] at hpivots ⊢
  rw [hpivots]
  rfl

section Same

variable {pages pages' : Addr → Page K}

theorem SamePages.core_eq (h : SamePages pages pages') :
    corePages (viewPages pages) = corePages (viewPages pages') := by
  funext addr
  exact (h (BitVec.ofNat 64 addr)).congr (f := fun p => p.view.core) view_core_eraseMeta

def Iterator.pivot? (itor : Iterator K) (pages : Addr → Page K) : Option (OndiskIndexEntry K) :=
  if itor.idx < 0 then none else (pages (BitVec.ofNat 64 itor.curr)).ondiskPivots[itor.idx.toNat]?

/-- The pivot at the position of an iterator, if it is above the leaves, has the same borrowed byte
in both trees. -/
def Iterator.SameByte (itor : Iterator K) (pages pages' : Addr → Page K) : Prop :=
  (pages (BitVec.ofNat 64 itor.curr)).height = 0 ∨
    (itor.pivot? pages).map OndiskIndexEntry.pivotMeta =
      (itor.pivot? pages').map OndiskIndexEntry.pivotMeta

private theorem byte0_of_bytes_eq {data data' : PivotData} (h : data.bytes = data'.bytes) :
    byte0 data.childAddr = byte0 data'.childAddr := by
  have hhead : UInt8.ofNat (data.childAddr.toNat / 256 ^ 0) =
      UInt8.ofNat (data'.childAddr.toNat / 256 ^ 0) := Option.some.inj (congrArg List.head? h)
  have hmod := congrArg UInt8.toNat hhead
  rw [UInt8.toNat_ofNat', UInt8.toNat_ofNat', pow_zero, Nat.div_one, Nat.div_one] at hmod
  refine BitVec.eq_of_toNat_eq ?_
  rw [byte0, byte0, BitVec.toNat_setWidth, BitVec.toNat_setWidth]
  exact hmod

theorem bytes_eq_iff {e e' : OndiskIndexEntry K} (h : e.eraseMeta = e'.eraseMeta) :
    e.pivotData.bytes = e'.pivotData.bytes ↔ e.pivotMeta = e'.pivotMeta := by
  refine ⟨byte0_of_bytes_eq, fun hbyte => ?_⟩
  have haddr : e.pivotData.childAddr = e'.pivotData.childAddr :=
    eq_of_byte0_eq (congrArg (fun e => e.pivotData.childAddr) h) hbyte
  rw [PivotData.bytes, PivotData.bytes, haddr, (same_of_eraseMeta_eq h).2.2]

/-- **What an iterator returns.**  On two trees that are equal up to the borrowed bytes it is the
same if and only if the iterator is at a leaf or the pivot has the same byte in both. -/
theorem curr_view_iff (h : SamePages pages pages') (itor : Iterator K) :
    itor.curr? (viewPages pages) = itor.curr? (viewPages pages') ↔ itor.SameByte pages pages' := by
  have hsame := h (BitVec.ofNat 64 itor.curr)
  have htuples : (viewPages pages itor.curr).tuples = (viewPages pages' itor.curr).tuples :=
    hsame.congr (f := fun p => p.view.tuples) view_tuples_eraseMeta
  rw [Iterator.curr?, Iterator.curr?, Iterator.SameByte, Iterator.pivot?, Iterator.pivot?]
  by_cases hidx : itor.idx < 0
  · simp only [hidx, if_true, Option.map_none, or_true]
  simp only [hidx, if_false]
  have hheight : (viewPages pages' itor.curr).height = (viewPages pages itor.curr).height :=
    hsame.height.symm
  rw [hheight]
  by_cases hleaf : (viewPages pages itor.curr).height = 0
  · rw [if_pos hleaf, if_pos hleaf, Node.entries, Node.entries, htuples]
    exact iff_of_true rfl (.inl hleaf)
  rw [if_neg hleaf, if_neg hleaf, or_iff_right (show ¬ (pages (BitVec.ofNat 64 itor.curr)).height = 0
    from hleaf)]
  have hpivots : ((pages (BitVec.ofNat 64 itor.curr)).ondiskPivots.map OndiskIndexEntry.eraseMeta) =
      (pages' (BitVec.ofNat 64 itor.curr)).ondiskPivots.map OndiskIndexEntry.eraseMeta := by
    rw [← ondiskPivots_eraseMeta, hsame, ondiskPivots_eraseMeta]
  have hget : ((pages (BitVec.ofNat 64 itor.curr)).ondiskPivots[itor.idx.toNat]?).map
      OndiskIndexEntry.eraseMeta =
        ((pages' (BitVec.ofNat 64 itor.curr)).ondiskPivots[itor.idx.toNat]?).map
          OndiskIndexEntry.eraseMeta := by
    rw [← List.getElem?_map, hpivots, List.getElem?_map]
  simp only [viewPages, Page.view, List.getElem?_map]
  cases he : (pages (BitVec.ofNat 64 itor.curr)).ondiskPivots[itor.idx.toNat]? with
  | none =>
      rw [he, Option.map_none, eq_comm, Option.map_eq_none_iff] at hget
      rw [hget]
      exact iff_of_true rfl rfl
  | some e =>
      rw [he] at hget
      obtain ⟨e', he', heq⟩ := Option.map_eq_some_iff.mp hget.symm
      rw [he']
      simp only [Option.map_some, Option.some.injEq, OndiskIndexEntry.view, Prod.mk.injEq,
        Message.mk.injEq, true_and]
      rw [bytes_eq_iff heq.symm]
      exact and_iff_right (same_of_eraseMeta_eq heq.symm).1

end Same

/-! ## Moves -/

/-- A move of an iterator. -/
inductive Move where
  | next
  | prev
  deriving DecidableEq, Repr

variable [LinearOrder K]

def Move.apply (pages : Nat → Node K) (fuel : Nat) (itor : Iterator K) :
    Move → Option (Iterator K)
  | .next => itor.next pages fuel
  | .prev => itor.prev pages fuel

section SameMoves

variable {pages pages' : Addr → Page K}

theorem SamePages.init_eq (h : SamePages pages pages') (fuel rootAddr : Nat)
    (minKey maxKey startKey : Key K) (startType : Comparison) (height : Nat) :
    Iterator.init (viewPages pages) fuel rootAddr minKey maxKey startKey startType height =
      Iterator.init (viewPages pages') fuel rootAddr minKey maxKey startKey startType height := by
  rw [← Iterator.init_core, h.core_eq, Iterator.init_core]

theorem SamePages.move_eq (h : SamePages pages pages') (fuel : Nat) (itor : Iterator K)
    (move : Move) :
    move.apply (viewPages pages) fuel itor = move.apply (viewPages pages') fuel itor := by
  cases move with
  | next =>
      rw [Move.apply, Move.apply, ← itor.next_core, h.core_eq, itor.next_core]
  | prev =>
      rw [Move.apply, Move.apply, ← itor.prev_core, h.core_eq, itor.prev_core]

end SameMoves

end Btree
end TreePass
