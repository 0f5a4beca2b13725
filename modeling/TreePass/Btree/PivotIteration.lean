import TreePass.Btree.Iterator
import TreePass.Btree.Levels

/-!
# Iterators above the leaves

An iterator of a height `h > 0` goes through the pivots of this height.  `find_key_in_node` searches
the lower bound of the iterator also where it is given the upper one, so the index where the
iteration ends is that of the lower bound in the last node.

* `drive` is a caller that reads and moves on for as long as the iterator can.
* `init_drive` says which pivots it gets: those from the lower bound to the last node.
* `init_drive_iff` is the exact condition for these to be the pivots of the range.
-/

namespace TreePass
namespace Btree

variable {K : Type}

/-! ## Pivots of a height -/

/-- The pivots of a node, as `btree_iterator_curr` returns them. -/
def Node.pivotItems (hdr : Node K) : List (Key K × Message) :=
  hdr.pivots.map fun e => (e.pivot, ⟨.pivotData, e.pivotData⟩)

@[simp] theorem Node.length_pivotItems (hdr : Node K) : hdr.pivotItems.length = hdr.pivots.length :=
  List.length_map ..

theorem Node.map_fst_pivotItems (hdr : Node K) :
    hdr.pivotItems.map Prod.fst = hdr.pivots.map IndexEntry.pivot := by
  rw [pivotItems, List.map_map]
  rfl

def pivotsOfHeight (pages : Nat → Node K) (rootAddr h : Nat) : List (Key K × Message) :=
  (nodesOfHeight pages rootAddr h).flatMap fun addr => (pages addr).pivotItems

variable [LinearOrder K]

/-- `iterator_curr` and `iterator_next` for as long as the iterator can move on, with a number of
turns that bounds the loop. -/
def Iterator.drive (pages : Nat → Node K) (fuel : Nat) :
    Nat → Iterator K → Option (List (Key K × Message))
  | 0, itor => if itor.canNext then none else some []
  | turns + 1, itor =>
      if itor.canNext then do
        let item ← itor.curr? pages
        let itor ← itor.next pages fuel
        let items ← drive pages fuel turns itor
        some (item :: items)
      else some []

variable {pages : Nat → Node K} {rootAddr h : Nat}

/-- The pivots of a height with keys in `[minKey, maxKey)`. -/
def pivotsIn (pages : Nat → Node K) (rootAddr h : Nat) (minKey maxKey : Key K) :
    List (Key K × Message) :=
  (pivotsOfHeight pages rootAddr h).filter fun kv =>
    decide (minKey ≤ kv.1) && decide (kv.1 < maxKey)

def keysBelow (hdr : Node K) (x : Key K) : Nat := hdr.keys.countP fun k => decide (k < x)

private theorem countP_between {minKey maxKey : Key K} (hbounds : minKey ≤ maxKey)
    (keys : List (Key K)) :
    keys.countP (fun k => decide (k < maxKey)) = keys.countP (fun k => decide (k < minKey)) +
      keys.countP fun k => decide (minKey ≤ k) && decide (k < maxKey) := by
  induction keys with
  | nil => rfl
  | cons k keys ih =>
      rw [List.countP_cons, List.countP_cons, List.countP_cons, ih]
      rcases lt_or_ge k minKey with hlt | hge
      · simp only [hlt, hlt.trans_le hbounds, hlt.not_ge, decide_true, decide_false,
          Bool.false_and, if_true, Bool.false_eq_true, if_false]
        omega
      · simp only [hge, hge.not_gt, decide_true, decide_false, Bool.true_and, Bool.false_eq_true,
          if_false]
        omega

theorem keysBelow_eq_iff {minKey maxKey : Key K} (hbounds : minKey ≤ maxKey) (hdr : Node K) :
    keysBelow hdr minKey = keysBelow hdr maxKey ↔
      ∀ k ∈ hdr.keys, ¬ (minKey ≤ k ∧ k < maxKey) := by
  unfold keysBelow
  rw [countP_between hbounds, Nat.left_eq_add, List.countP_eq_zero]
  simp only [Bool.and_eq_true, decide_eq_true_eq]

theorem keysBelow_le (hdr : Node K) (x : Key K) : keysBelow hdr x ≤ hdr.keys.length :=
  List.countP_le_length

namespace LevelShaped

variable (s : LevelShaped pages rootAddr) (hpos : 0 < h) (hle : h ≤ (pages rootAddr).height)

include s hpos hle

theorem length_pivotItems {addr : Nat} (hmem : addr ∈ nodesOfHeight pages rootAddr h) :
    (pages addr).pivotItems.length = (pages addr).keys.length := by
  rw [Node.length_pivotItems, s.keys_eq hpos hle hmem, List.length_map]

theorem map_fst_pivotsOfHeight :
    (pivotsOfHeight pages rootAddr h).map Prod.fst = keysOfHeight pages rootAddr h := by
  unfold pivotsOfHeight keysOfHeight keyChunks
  rw [List.map_flatMap, ← List.flatMap_def]
  refine List.flatMap_congr fun addr haddr => ?_
  rw [Node.map_fst_pivotItems, s.keys_eq hpos hle haddr]

theorem offset_eq (p : Nat) :
    Lib.offset ((nodesOfHeight pages rootAddr h).map fun a => (pages a).pivotItems) p =
      Lib.offset (keyChunks pages rootAddr h) p := by
  unfold Lib.offset keyChunks
  rw [← List.map_take, ← List.map_take, List.length_flatten, List.length_flatten, List.map_map,
    List.map_map]
  congr 1
  exact List.map_congr_left fun a ha => s.length_pivotItems hpos hle (List.mem_of_mem_take ha)

theorem getElem?_pivotsOfHeight {j addr i : Nat}
    (hj : (nodesOfHeight pages rootAddr h)[j]? = some addr)
    (hi : i < (pages addr).pivotItems.length) :
    (pivotsOfHeight pages rootAddr h)[Lib.offset (keyChunks pages rootAddr h) j + i]? =
      (pages addr).pivotItems[i]? := by
  have hat : ((nodesOfHeight pages rootAddr h).map fun a => (pages a).pivotItems)[j]? =
      some (pages addr).pivotItems := by
    rw [List.getElem?_map, hj]
    rfl
  rw [← s.offset_eq hpos hle, pivotsOfHeight, List.flatMap_def, Lib.getElem?_flatten hat hi]

omit s hpos hle in
theorem FoundAt.countP_lt {x : Key K} {p addr : Nat} (hfound : FoundAt pages rootAddr h x p addr) :
    (keysOfHeight pages rootAddr h).countP (fun k => decide (k < x)) =
      Lib.offset (keyChunks pages rootAddr h) p + keysBelow (pages addr) x := by
  refine Lib.countP_flatten (keyChunks_getElem hfound.node) ?_ ?_
  · intro i c hi hc k hk
    exact decide_eq_true (hfound.before i c hi hc k hk)
  · intro i c hi hc k hk
    exact decide_eq_false (hfound.after i c hi hc k hk).not_gt

theorem findPivot_eq {addr : Nat} (hmem : addr ∈ nodesOfHeight pages rootAddr h) (x : Key K) :
    Comparison.adjust .greaterThanOrEqual (findPivot (pages addr) x).1
      (findPivot (pages addr) x).2 = (keysBelow (pages addr) x : Int) := by
  obtain ⟨j, hj⟩ := List.mem_iff_getElem?.mp hmem
  have hsorted : (pages addr).keys.Pairwise (· < ·) :=
    (List.pairwise_flatten.mp (s.keys_ascending h hle)).1 _
      (List.mem_of_getElem? (keyChunks_getElem hj))
  have hcount := countP_le_le hsorted x
  have hmono : (pages addr).keys.countP (fun k => decide (k < x)) ≤
      (pages addr).keys.countP fun k => decide (k ≤ x) :=
    List.countP_mono_left fun k _ hk => decide_eq_true (of_decide_eq_true hk).le
  unfold findPivot Comparison.adjust keysBelow
  rw [← s.keys_eq hpos hle hmem, findKey_eq hsorted]
  simp only [decide_eq_true_eq]
  split <;> omega

omit hpos in
theorem found_mono {minKey maxKey : Key K} (hbounds : minKey ≤ maxKey) {p q addr addr' : Nat}
    (hmin : FoundAt pages rootAddr h minKey p addr)
    (hmax : FoundAt pages rootAddr h maxKey q addr') : p ≤ q := by
  by_contra hlt
  obtain ⟨k, rest, hkeys⟩ := List.exists_cons_of_ne_nil
    (s.nonempty h hle addr (List.mem_of_getElem? hmin.node))
  have hfirst := hmin.first (by omega) k (by rw [hkeys]; rfl)
  have hafter := hmax.after p _ (by omega) (keyChunks_getElem hmin.node) k
    (by rw [hkeys]; exact List.mem_cons_self)
  exact absurd (hafter.trans_le (hfirst.trans hbounds)) (lt_irrefl _)

/-! ## Moving on -/

omit s hpos hle in
/-- The iterator is at index `idx` of node `j`, and ends before entry `endIdx` of node `q`. -/
structure IterOn (pages : Nat → Node K) (rootAddr h : Nat) (q endIdx j idx : Nat)
    (itor : Iterator K) : Prop where
  height_eq : itor.height = h
  curr_eq : (nodesOfHeight pages rootAddr h)[j]? = some itor.curr
  end_eq : (nodesOfHeight pages rootAddr h)[q]? = some itor.endAddr
  endIdx_eq : itor.endIdx = endIdx
  endIdx_le : endIdx ≤ (pages itor.endAddr).keys.length
  generation_eq : itor.endGeneration = (pages itor.endAddr).generation
  idx_eq : itor.idx = idx
  currMinIdx_le : itor.currMinIdx ≤ idx

omit s hpos hle in
/-- The iterator stands at entry `idx` of node `j`, or at its end. -/
structure IterAt (pages : Nat → Node K) (rootAddr h : Nat) (q endIdx j idx : Nat)
    (itor : Iterator K) : Prop extends IterOn pages rootAddr h q endIdx j idx itor where
  place : j = q ∨ j < q ∧ idx < (pages itor.curr).keys.length

variable {q endIdx j idx : Nat} {itor : Iterator K}

omit hpos in
theorem canNext_iff (hat : IterAt pages rootAddr h q endIdx j idx itor) :
    itor.canNext = true ↔ Lib.offset (keyChunks pages rootAddr h) j + idx <
      Lib.offset (keyChunks pages rootAddr h) q + endIdx := by
  unfold Iterator.canNext
  rcases hat.place with rfl | ⟨hlt, hidx⟩
  · have hsame : itor.curr = itor.endAddr := Option.some.inj (hat.curr_eq.symm.trans hat.end_eq)
    have hmin := hat.currMinIdx_le
    rw [hsame, hat.idx_eq, hat.endIdx_eq]
    simp only [bne_self_eq_false, Bool.false_or, Bool.and_eq_true, decide_eq_true_eq, bne_iff_ne,
      ne_eq]
    omega
  · have hne : itor.curr ≠ itor.endAddr := by
      intro heq
      have hcurr := hat.curr_eq
      rw [heq] at hcurr
      have := (s.linked h hle).injective (s.addr_ne_zero h hle) hcurr hat.end_eq
      omega
    have hoffset := Lib.offset_succ (keyChunks_getElem hat.curr_eq)
    have hmono := Lib.offset_le_of_le (keyChunks pages rootAddr h) (show j + 1 ≤ q from hlt)
    refine iff_of_true ?_ (by omega)
    rw [bne_iff_ne.mpr hne, Bool.true_or]

theorem curr_eq (hat : IterAt pages rootAddr h q endIdx j idx itor)
    (hbound : Lib.offset (keyChunks pages rootAddr h) j + idx <
      Lib.offset (keyChunks pages rootAddr h) q + endIdx) :
    ∃ item, itor.curr? pages = some item ∧ (pivotsOfHeight pages rootAddr h)[
      Lib.offset (keyChunks pages rootAddr h) j + idx]? = some item := by
  have hmem := List.mem_of_getElem? hat.curr_eq
  have hidx : idx < (pages itor.curr).keys.length := by
    rcases hat.place with rfl | ⟨-, hidx⟩
    · have hsame : itor.curr = itor.endAddr := Option.some.inj (hat.curr_eq.symm.trans hat.end_eq)
      have hend := hat.endIdx_le
      rw [hsame]
      omega
    · exact hidx
  have hitem : idx < (pages itor.curr).pivotItems.length := by
    rw [s.length_pivotItems hpos hle hmem]
    exact hidx
  refine ⟨(pages itor.curr).pivotItems[idx], ?_, ?_⟩
  · have hheight := s.height_eq h hle _ hmem
    unfold Iterator.curr?
    rw [hat.idx_eq, if_neg (by omega), if_neg (by omega), Int.toNat_natCast]
    have hget := List.getElem?_eq_getElem hitem
    unfold Node.pivotItems at hget ⊢
    rw [List.getElem?_map] at hget
    exact hget
  · rw [s.getElem?_pivotsOfHeight hpos hle hat.curr_eq hitem, List.getElem?_eq_getElem hitem]

omit hpos in
theorem nextLeaf_at (hat : IterOn pages rootAddr h q endIdx j idx itor) (hlt : j < q)
    {i : Int} (fuel : Nat) :
    ∃ itor', Iterator.nextLeaf pages fuel { itor with idx := i } = some itor' ∧
      IterAt pages rootAddr h q endIdx (j + 1) 0 itor' ∧ itor'.currMinIdx = -1 := by
  obtain ⟨hbound, -⟩ := List.getElem?_eq_some_iff.mp hat.end_eq
  have hsucc : j + 1 < (nodesOfHeight pages rootAddr h).length := by omega
  have hnext : (pages itor.curr).nextAddr = (nodesOfHeight pages rootAddr h)[j + 1] := by
    rw [(s.linked h hle).nextAddr hat.curr_eq, List.getElem?_eq_getElem hsucc]
    rfl
  refine ⟨{ itor with
    curr := (nodesOfHeight pages rootAddr h)[j + 1]
    idx := 0
    currMinIdx := -1 }, ?_, ?_, rfl⟩
  · unfold Iterator.nextLeaf
    rw [← hnext]
    refine whileLoop_of_not ?_ _ fuel
    -- The end node has not changed since the iterator was opened.
    show ((pages itor.curr).nextAddr == itor.endAddr &&
      (pages (pages itor.curr).nextAddr).generation != itor.endGeneration) = false
    by_cases hend : (pages itor.curr).nextAddr = itor.endAddr
    · rw [hend, hat.generation_eq]
      simp
    · rw [beq_false_of_ne hend, Bool.false_and]
  · refine ⟨⟨hat.height_eq, List.getElem?_eq_getElem hsucc, hat.end_eq, hat.endIdx_eq,
      hat.endIdx_le, hat.generation_eq, rfl, show (-1 : Int) ≤ 0 by decide⟩, ?_⟩
    rcases Nat.lt_or_eq_of_le hlt with hlt' | heq
    · exact Or.inr ⟨hlt', List.length_pos_iff.mpr (s.nonempty h hle _ (List.getElem_mem hsucc))⟩
    · exact Or.inl heq

omit hpos in
theorem next_at (hat : IterAt pages rootAddr h q endIdx j idx itor)
    (hbound : Lib.offset (keyChunks pages rootAddr h) j + idx <
      Lib.offset (keyChunks pages rootAddr h) q + endIdx) (fuel : Nat) :
    ∃ itor' j' idx', itor.next pages fuel = some itor' ∧
      IterAt pages rootAddr h q endIdx j' idx' itor' ∧
      Lib.offset (keyChunks pages rootAddr h) j' + idx' =
        Lib.offset (keyChunks pages rootAddr h) j + idx + 1 := by
  have hmem := List.mem_of_getElem? hat.curr_eq
  have hnum : (pages itor.curr).numEntries = (pages itor.curr).keys.length := by
    rw [Node.length_keys]
  have hmin := hat.currMinIdx_le
  unfold Iterator.next
  rcases hat.place with rfl | ⟨hlt, hidx⟩
  · -- In the last node the iterator only counts.
    have hsame : itor.curr = itor.endAddr := Option.some.inj (hat.curr_eq.symm.trans hat.end_eq)
    have hmoved : IterAt pages rootAddr h j endIdx j (idx + 1) { itor with idx := itor.idx + 1 } :=
      ⟨⟨hat.height_eq, hat.curr_eq, hat.end_eq, hat.endIdx_eq, hat.endIdx_le, hat.generation_eq,
        by show itor.idx + 1 = _; rw [hat.idx_eq]; rfl, by show itor.currMinIdx ≤ _; omega⟩,
        Or.inl rfl⟩
    refine ⟨{ itor with idx := itor.idx + 1 }, j, idx + 1, ?_, hmoved, by omega⟩
    refine if_neg ?_
    rintro ⟨hlast, hcan⟩
    have hcan' := (s.canNext_iff hle hmoved).mp hcan
    have hend := hat.endIdx_le
    rw [hsame] at hnum hlast
    rw [hat.idx_eq, hnum] at hlast
    omega
  · by_cases hlast : idx + 1 = (pages itor.curr).keys.length
    · obtain ⟨itor', hnext, hat', -⟩ :=
        s.nextLeaf_at hle hat.toIterOn hlt (i := itor.idx + 1) fuel
      refine ⟨itor', j + 1, 0, ?_, hat', ?_⟩
      · rw [if_pos, hnext]
        refine ⟨by rw [hat.idx_eq, hnum]; omega, ?_⟩
        unfold Iterator.canNext
        have hne : itor.curr ≠ itor.endAddr := by
          intro heq
          have hcurr := hat.curr_eq
          rw [heq] at hcurr
          have := (s.linked h hle).injective (s.addr_ne_zero h hle) hcurr hat.end_eq
          omega
        show (itor.curr != itor.endAddr || _) = true
        rw [bne_iff_ne.mpr hne, Bool.true_or]
      · rw [Lib.offset_succ (keyChunks_getElem hat.curr_eq)]
        omega
    · refine ⟨{ itor with idx := itor.idx + 1 }, j, idx + 1, ?_, ?_, by omega⟩
      · refine if_neg fun hand => hlast ?_
        have := hand.1
        rw [hat.idx_eq, hnum] at this
        omega
      · exact ⟨⟨hat.height_eq, hat.curr_eq, hat.end_eq, hat.endIdx_eq, hat.endIdx_le,
          hat.generation_eq, by show itor.idx + 1 = _; rw [hat.idx_eq]; rfl,
          by show itor.currMinIdx ≤ _; omega⟩, Or.inr ⟨hlt, by
            show idx + 1 < (pages itor.curr).keys.length
            omega⟩⟩

theorem drive_eq (fuel turns : Nat) : ∀ {j idx : Nat} {itor : Iterator K},
    IterAt pages rootAddr h q endIdx j idx itor →
    Lib.offset (keyChunks pages rootAddr h) q + endIdx ≤
      Lib.offset (keyChunks pages rootAddr h) j + idx + turns →
    itor.drive pages fuel turns = some (((pivotsOfHeight pages rootAddr h).take
      (Lib.offset (keyChunks pages rootAddr h) q + endIdx)).drop
        (Lib.offset (keyChunks pages rootAddr h) j + idx)) := by
  induction turns with
  | zero =>
      intro j idx itor hat hturns
      have hnot : ¬ itor.canNext = true := fun hcan => by
        have := (s.canNext_iff hle hat).mp hcan
        omega
      unfold Iterator.drive
      rw [if_neg hnot, List.drop_eq_nil_of_le]
      exact (List.length_take_le ..).trans (by omega)
  | succ turns ih =>
      intro j idx itor hat hturns
      unfold Iterator.drive
      by_cases hcan : itor.canNext = true
      · have hbound := (s.canNext_iff hle hat).mp hcan
        obtain ⟨item, hcurr, hget⟩ := s.curr_eq hpos hle hat hbound
        obtain ⟨itor', j', idx', hnext, hat', hrank⟩ := s.next_at hle hat hbound fuel
        have hrest := ih hat' (by omega)
        rw [if_pos hcan, hcurr, hnext]
        show (itor'.drive pages fuel turns).bind _ = _
        rw [hrest, hrank]
        obtain ⟨hlt, hitem⟩ := List.getElem?_eq_some_iff.mp hget
        have hlt' : Lib.offset (keyChunks pages rootAddr h) j + idx <
            ((pivotsOfHeight pages rootAddr h).take
              (Lib.offset (keyChunks pages rootAddr h) q + endIdx)).length := by
          rw [List.length_take]
          omega
        rw [List.drop_eq_getElem_cons hlt', List.getElem_take, hitem]
        rfl
      · have hnot := mt (s.canNext_iff hle hat).mpr hcan
        rw [if_neg hcan, List.drop_eq_nil_of_le]
        exact (List.length_take_le ..).trans (by omega)

/-! ## Opening an iterator -/

theorem findKeyInNode_eq (hheight : itor.height = h) {addr : Nat}
    (hmem : addr ∈ nodesOfHeight pages rootAddr h) (target : Key K) :
    itor.findKeyInNode (pages addr) target .greaterThanOrEqual =
      (itor, (keysBelow (pages addr) itor.minKey : Int),
        (findPivot (pages addr) itor.minKey).2) := by
  have hnode := s.height_eq h hle addr hmem
  rw [← s.findPivot_eq hpos hle hmem]
  unfold Iterator.findKeyInNode
  rw [if_neg (by omega), if_neg (by omega)]

omit s hpos hle in
/-- Where an iterator of a height above the leaves ends in its last node. -/
def endIdxOf (hdr : Node K) (minKey maxKey : Key K) : Nat :=
  if maxKey = ⊤ then hdr.keys.length else keysBelow hdr minKey

theorem findEnd_eq (itor : Iterator K) (hheight : itor.height = h)
    (hroot : itor.rootAddr = rootAddr) {addr : Nat}
    (hmax : FoundAt pages rootAddr h itor.maxKey q addr)
    (haddr : addr = lookupNode pages rootAddr itor.maxKey h) :
    itor.findEnd pages = { itor with
      endAddr := addr
      endGeneration := (pages addr).generation
      endIdx := endIdxOf (pages addr) itor.minKey itor.maxKey } := by
  have hmem := List.mem_of_getElem? hmax.node
  have hlookup : lookupNode pages itor.rootAddr itor.maxKey itor.height = addr := by
    rw [hheight, hroot, haddr]
  unfold Iterator.findEnd endIdxOf
  rw [hlookup]
  by_cases htop : itor.maxKey = ⊤
  · simp only [htop, if_true, Node.length_keys]
  · have hended : ({ itor with
        endAddr := addr
        endGeneration := (pages addr).generation } : Iterator K).height = h := hheight
    have hfind := s.findKeyInNode_eq hpos hle hended hmem itor.maxKey
    simp only [htop, if_false, hfind]

theorem findNode_eq (itor : Iterator K) (hheight : itor.height = h)
    (hroot : itor.rootAddr = rootAddr) {first : Nat}
    (hmem : first ∈ nodesOfHeight pages rootAddr h)
    (hfirst : first = lookupNode pages rootAddr itor.minKey h) {ended : Iterator K}
    (hend : Iterator.findEnd pages { itor with curr := first } = ended) (hcurr : ended.curr = first)
    (hmin : ended.minKey = itor.minKey) (hheight' : ended.height = h) (fuel : Nat) :
    ∃ low : Int, low ≤ keysBelow (pages first) itor.minKey ∧
      itor.findNodeAndGetIdxBounds pages fuel itor.minKey .greaterThanOrEqual =
        Iterator.moveToNeighbour pages fuel
          { ended with currMinIdx := low, idx := keysBelow (pages first) itor.minKey } := by
  have hlookup : lookupNode pages itor.rootAddr itor.minKey itor.height = first := by
    rw [hheight, hroot, hfirst]
  let tmp : Int := keysBelow (pages first) itor.minKey
  let minIdx : Int :=
    if !(findPivot (pages first) itor.minKey).2 ∧ tmp = 0 then tmp - 1 else tmp
  let low : Int := if minIdx = -1 ∧ (pages first).prevAddr = 0 then 0 else minIdx
  refine ⟨low, ?_, ?_⟩
  · have hminIdx : minIdx ≤ tmp := by
      show (if !(findPivot (pages first) itor.minKey).2 ∧ tmp = 0 then tmp - 1 else tmp) ≤ tmp
      split <;> omega
    have htmp : 0 ≤ tmp := Int.natCast_nonneg _
    show (if minIdx = -1 ∧ (pages first).prevAddr = 0 then 0 else minIdx) ≤ tmp
    split <;> omega
  · have hlow := s.findKeyInNode_eq hpos hle hheight' hmem itor.minKey
    have hmoved : ({ ended with currMinIdx := low } : Iterator K).height = h := hheight'
    have htarget : Iterator.findKeyInNode { ended with currMinIdx := low } (pages first) itor.minKey
        .greaterThanOrEqual = ({ ended with currMinIdx := low }, tmp,
          (findPivot (pages first) itor.minKey).2) := by
      have hsame : ({ ended with currMinIdx := low } : Iterator K).minKey = itor.minKey := hmin
      rw [s.findKeyInNode_eq hpos hle hmoved hmem itor.minKey, hsame]
    rw [hmin] at hlow
    unfold Iterator.findNodeAndGetIdxBounds
    dsimp only
    rw [hlookup, hend, hcurr, hmin, hlow]
    dsimp only
    rw [htarget]
    dsimp only
    rw [hcurr, hmin]

theorem init_at {minKey maxKey : Key K} (hbounds : minKey ≤ maxKey) {p : Nat}
    (hmin : FoundAt pages rootAddr h minKey p (lookupNode pages rootAddr minKey h))
    (hmax : FoundAt pages rootAddr h maxKey q (lookupNode pages rootAddr maxKey h)) (fuel : Nat) :
    ∃ itor j idx, Iterator.init pages fuel rootAddr minKey maxKey minKey .greaterThanOrEqual h =
        some itor ∧
      IterAt pages rootAddr h q
        (endIdxOf (pages (lookupNode pages rootAddr maxKey h)) minKey maxKey) j idx itor ∧
      Lib.offset (keyChunks pages rootAddr h) j + idx =
        Lib.offset (keyChunks pages rootAddr h) p +
          keysBelow (pages (lookupNode pages rootAddr minKey h)) minKey := by
  have hmem := List.mem_of_getElem? hmin.node
  have hpq := s.found_mono hle hbounds hmin hmax
  have hclamp : Iterator.clampKey minKey maxKey minKey = minKey := by
    unfold Iterator.clampKey
    simp only [lt_irrefl, if_false, gt_iff_lt, if_neg hbounds.not_gt]
  let start : Iterator K :=
    { rootAddr := rootAddr, height := h, minKey := minKey, maxKey := maxKey
      curr := 0, idx := 0, currMinIdx := 0, endAddr := 0
      endIdx := 0, endGeneration := 0 }
  let ended : Iterator K := { start with
    curr := lookupNode pages rootAddr minKey h
    endAddr := lookupNode pages rootAddr maxKey h
    endGeneration := (pages (lookupNode pages rootAddr maxKey h)).generation
    endIdx := endIdxOf (pages (lookupNode pages rootAddr maxKey h)) minKey maxKey }
  have hend : Iterator.findEnd pages { start with curr := lookupNode pages rootAddr minKey h } =
      ended := s.findEnd_eq hpos hle { start with
        curr := lookupNode pages rootAddr minKey h } rfl rfl hmax rfl
  obtain ⟨low, hlow, hopen⟩ := s.findNode_eq hpos hle start rfl rfl hmem rfl hend rfl rfl
    rfl fuel
  have hinit : Iterator.init pages fuel rootAddr minKey maxKey minKey .greaterThanOrEqual h =
      start.findNodeAndGetIdxBounds pages fuel minKey .greaterThanOrEqual := by
    unfold Iterator.init
    simp only [hclamp, gt_iff_lt, if_neg hbounds.not_gt]
    rfl
  rw [hinit, hopen]
  have hbelow := keysBelow_le (pages (lookupNode pages rootAddr minKey h)) minKey
  have hnum := Node.length_keys (pages (lookupNode pages rootAddr minKey h))
  have hendIdx : endIdxOf (pages (lookupNode pages rootAddr maxKey h)) minKey maxKey ≤
      (pages (lookupNode pages rootAddr maxKey h)).keys.length := by
    unfold endIdxOf
    split
    · exact le_refl _
    · exact keysBelow_le ..
  let opened : Iterator K := { ended with
    currMinIdx := low
    idx := keysBelow (pages (lookupNode pages rootAddr minKey h)) minKey }
  have hon : IterOn pages rootAddr h q
      (endIdxOf (pages (lookupNode pages rootAddr maxKey h)) minKey maxKey) p
      (keysBelow (pages (lookupNode pages rootAddr minKey h)) minKey) opened :=
    ⟨rfl, hmin.node, hmax.node, rfl, hendIdx, rfl, rfl, hlow⟩
  have hleft : ¬ (opened.currMinIdx = -1 ∧ opened.idx = -1) := by
    rintro ⟨-, hidx⟩
    have hidx' : (keysBelow (pages (lookupNode pages rootAddr minKey h)) minKey : Int) = -1 := hidx
    omega
  by_cases hmove : opened.curr ≠ opened.endAddr ∧
      opened.idx = ((pages opened.curr).numEntries : Int)
  · -- All pivots of the first node are below the lower bound.
    obtain ⟨hne, hlast⟩ := hmove
    have hlast' : keysBelow (pages (lookupNode pages rootAddr minKey h)) minKey =
        (pages (lookupNode pages rootAddr minKey h)).keys.length := by
      rw [hnum]
      exact Int.natCast_inj.mp hlast
    have hlt : p < q := by
      refine lt_of_le_of_ne hpq fun heq => hne ?_
      subst heq
      exact Option.some.inj (hmin.node.symm.trans hmax.node)
    obtain ⟨itor', hnext, hat', -⟩ := s.nextLeaf_at hle hon hlt (i := opened.idx) fuel
    refine ⟨{ itor' with currMinIdx := 0 }, p + 1, 0, ?_, ?_, ?_⟩
    · show Iterator.moveToNeighbour pages fuel opened = _
      unfold Iterator.moveToNeighbour
      rw [if_pos ⟨hne, hlast⟩]
      show ((Iterator.nextLeaf pages fuel opened).map fun itor =>
        { itor with currMinIdx := 0 }).bind _ = _
      rw [show Iterator.nextLeaf pages fuel opened = some itor' from hnext]
      rfl
    · exact ⟨⟨hat'.height_eq, hat'.curr_eq, hat'.end_eq, hat'.endIdx_eq, hat'.endIdx_le,
        hat'.generation_eq, hat'.idx_eq, le_refl _⟩, hat'.place⟩
    · rw [Lib.offset_succ (keyChunks_getElem hmin.node), hlast', Nat.add_zero]
  · refine ⟨opened, p, _, ?_, ⟨hon, ?_⟩, rfl⟩
    · show Iterator.moveToNeighbour pages fuel opened = some opened
      unfold Iterator.moveToNeighbour
      rw [if_neg hmove]
      show (if opened.currMinIdx = -1 ∧ opened.idx = -1 then _ else some opened) = _
      rw [if_neg hleft]
    · rcases Nat.lt_or_eq_of_le hpq with hlt | heq
      · refine Or.inr ⟨hlt, lt_of_le_of_ne hbelow fun heq => hmove ⟨?_, ?_⟩⟩
        · intro hsame
          have hend' := hmax.node
          rw [← show lookupNode pages rootAddr minKey h = lookupNode pages rootAddr maxKey h from
            hsame] at hend'
          have := (s.linked h hle).injective (s.addr_ne_zero h hle) hmin.node hend'
          omega
        · show ((keysBelow _ _ : Nat) : Int) = _
          rw [heq, ← hnum]
      · exact Or.inl heq

/-! ## Whole iterations -/

omit s hpos hle in
private theorem take_drop_eq_iff {α : Type*} {l : List α} {lo hi hi' : Nat} (hlo : lo ≤ hi)
    (hhi : hi ≤ hi') (hlen : hi' ≤ l.length) :
    (l.take hi).drop lo = (l.take hi').drop lo ↔ hi = hi' := by
  constructor
  · intro heq
    have hlength := congrArg List.length heq
    rw [List.length_drop, List.length_drop, List.length_take, List.length_take] at hlength
    omega
  · rintro rfl
    rfl

theorem pivotsIn_eq (minKey maxKey : Key K) :
    pivotsIn pages rootAddr h minKey maxKey = ((pivotsOfHeight pages rootAddr h).take
      ((keysOfHeight pages rootAddr h).countP fun k => decide (k < maxKey))).drop
        ((keysOfHeight pages rootAddr h).countP fun k => decide (k < minKey)) := by
  have hkeys := s.map_fst_pivotsOfHeight hpos hle
  have hsorted := s.keys_ascending h hle
  rw [← hkeys, List.pairwise_map] at hsorted
  have hinitial : ∀ x : Key K, Lib.Initial (fun kv : Key K × Message => decide (kv.1 < x))
      (pivotsOfHeight pages rootAddr h) := fun x =>
    .of_pairwise hsorted fun a b hab hb => by
      rw [decide_eq_true_eq] at hb ⊢
      exact hab.trans hb
  have hcount : ∀ x : Key K, (keysOfHeight pages rootAddr h).countP (fun k => decide (k < x)) =
      (pivotsOfHeight pages rootAddr h).countP fun kv => decide (kv.1 < x) := fun x => by
    rw [← hkeys, List.countP_map]
    rfl
  rw [hcount, hcount, ← (hinitial minKey).filter_between (hinitial maxKey)]
  unfold pivotsIn
  refine List.filter_congr fun kv _ => ?_
  simp only [← decide_not, not_lt]

/-- **The exact condition.**  An iterator of a height above the leaves goes through the pivots of
its range exactly when it has no upper bound, or the last node that it looks up has no pivot in the
range. -/
theorem init_drive_iff {minKey maxKey : Key K} (hbounds : minKey ≤ maxKey) (fuel : Nat)
    {turns : Nat} (hturns : (pivotsOfHeight pages rootAddr h).length ≤ turns) :
    ((Iterator.init pages fuel rootAddr minKey maxKey minKey .greaterThanOrEqual h).bind
        fun itor => itor.drive pages fuel turns) = some (pivotsIn pages rootAddr h minKey maxKey) ↔
      maxKey = ⊤ ∨ ∀ kv ∈ (pages (lookupNode pages rootAddr maxKey h)).pivotItems,
        ¬ (minKey ≤ kv.1 ∧ kv.1 < maxKey) := by
  obtain ⟨p, hmin⟩ := s.lookupNode_spec hle minKey
  obtain ⟨q, hmax⟩ := s.lookupNode_spec hle maxKey
  have hpq := s.found_mono hle hbounds hmin hmax
  have hmem := List.mem_of_getElem? hmax.node
  have hrankMin := hmin.countP_lt
  have hrankMax := hmax.countP_lt
  obtain ⟨itor, j, idx, hinit, hat, hrank⟩ := s.init_at hpos hle hbounds hmin hmax fuel
  have hitems := s.map_fst_pivotsOfHeight hpos hle
  have hlen : (pivotsOfHeight pages rootAddr h).length =
      (keysOfHeight pages rootAddr h).length := by
    rw [← hitems, List.length_map]
  have hcount : (keysOfHeight pages rootAddr h).countP (fun k => decide (k < maxKey)) ≤
      (keysOfHeight pages rootAddr h).length := List.countP_le_length
  -- The bounds on the index where the iteration ends.
  have hlow : keysBelow (pages (lookupNode pages rootAddr maxKey h)) minKey ≤
      endIdxOf (pages (lookupNode pages rootAddr maxKey h)) minKey maxKey := by
    unfold endIdxOf
    split
    · exact keysBelow_le ..
    · exact le_refl _
  have hstop : endIdxOf (pages (lookupNode pages rootAddr maxKey h)) minKey maxKey ≤
      keysBelow (pages (lookupNode pages rootAddr maxKey h)) maxKey := by
    unfold endIdxOf
    split
    · rename_i htop
      refine le_of_eq (List.countP_eq_length.mpr fun k hk => ?_).symm
      rw [htop]
      exact decide_eq_true (s.keys_lt_top h hle k (List.mem_flatten.mpr
        ⟨_, List.mem_of_getElem? (keyChunks_getElem hmax.node), hk⟩))
    · exact List.countP_mono_left fun k _ hk =>
        decide_eq_true ((of_decide_eq_true hk).trans_le hbounds)
  have hfirst : Lib.offset (keyChunks pages rootAddr h) p +
      keysBelow (pages (lookupNode pages rootAddr minKey h)) minKey ≤
        Lib.offset (keyChunks pages rootAddr h) q +
          endIdxOf (pages (lookupNode pages rootAddr maxKey h)) minKey maxKey := by
    rcases Nat.lt_or_eq_of_le hpq with hlt | rfl
    · have hsucc := Lib.offset_succ (keyChunks_getElem hmin.node)
      have hoffset := Lib.offset_le_of_le (keyChunks pages rootAddr h) (show p + 1 ≤ q from hlt)
      have hbelow := keysBelow_le (pages (lookupNode pages rootAddr minKey h)) minKey
      omega
    · rw [Option.some.inj (hmin.node.symm.trans hmax.node)]
      omega
  have hdrive := s.drive_eq hpos hle fuel turns hat (by omega)
  rw [hinit]
  show itor.drive pages fuel turns = _ ↔ _
  rw [hdrive, hrank, s.pivotsIn_eq hpos hle, Option.some_inj, ← hrankMin,
    take_drop_eq_iff (by omega) (by omega) (by omega), hrankMax, Nat.add_left_cancel_iff]
  unfold endIdxOf at hstop ⊢
  by_cases htop : maxKey = ⊤
  · rw [if_pos htop] at hstop ⊢
    exact iff_of_true (le_antisymm hstop (keysBelow_le ..)) (Or.inl htop)
  · rw [if_neg htop, keysBelow_eq_iff hbounds, s.keys_eq hpos hle hmem, ← Node.map_fst_pivotItems,
      List.forall_mem_map]
    exact (or_iff_right htop).symm

end LevelShaped
end Btree
end TreePass
