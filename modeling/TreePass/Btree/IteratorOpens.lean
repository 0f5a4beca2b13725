import TreePass.Btree.IteratorCursor

/-!
# Which ranges open as cursors

The exact condition under which `btree_iterator_init` opens a range as a cursor over its entries.
The register equations of `Start` reduce both directions to arithmetic of ranks: where the
condition holds the iterator stands at the rank the start key asks for, and where it fails the
iterator, or the one reached from it by one `btree_iterator_prev`, shows something else.
-/

namespace TreePass
namespace Btree

variable {K : Type} [LinearOrder K] {pages : Nat → Node K} {rootAddr : Nat}
  {minKey maxKey target startKey : Key K} {startType : Comparison} {e j : Nat} {base : Iterator K}

/-! ## Counting an equal key -/

theorem countBefore_of_not_key {l : List (Key K × Message)} {x : Key K}
    (hkey : startType.passesEqual = true → ∀ kv ∈ l, kv.1 ≠ x) :
    countBefore startType x l = countBefore .lessThan x l := by
  refine List.countP_congr fun kv hkv => ?_
  cases startType with
  | lessThan => rfl
  | greaterThanOrEqual => rfl
  | lessThanOrEqual =>
      simp only [Comparison.before, decide_eq_true_eq]
      exact (lt_iff_le_and_ne.trans (and_iff_left (hkey rfl kv hkv))).symm
  | greaterThan =>
      simp only [Comparison.before, decide_eq_true_eq]
      exact (lt_iff_le_and_ne.trans (and_iff_left (hkey rfl kv hkv))).symm

private theorem countBefore_of_passesEqual (hpass : startType.passesEqual = true) (x : Key K)
    (l : List (Key K × Message)) : countBefore startType x l = countBefore .greaterThan x l := by
  cases startType with
  | lessThan => cases hpass
  | greaterThanOrEqual => cases hpass
  | lessThanOrEqual => rfl
  | greaterThan => rfl

theorem countBefore_of_key {l : List (Key K × Message)} (hsorted : l.Pairwise fun x y => x.1 < y.1)
    {x : Key K} (hpass : startType.passesEqual = true) (hkey : ∃ kv ∈ l, kv.1 = x) :
    countBefore startType x l = countBefore .lessThan x l + 1 := by
  have hle := countP_le_le (List.pairwise_map.mpr hsorted) x
  rw [List.countP_map, List.countP_map] at hle
  change countBefore .greaterThan x l ≤ countBefore .lessThan x l + 1 at hle
  have hsame := countBefore_of_passesEqual hpass x l
  obtain ⟨kv, hmem, rfl⟩ := hkey
  obtain ⟨i, hi⟩ := List.mem_iff_getElem?.mp hmem
  have hgt := ((initial_before hsorted .greaterThan kv.1).getElem_iff hi).mp
    (by simp [Comparison.before])
  have hlt := mt ((initial_before hsorted .lessThan kv.1).getElem_iff hi).mpr
    (by simp [Comparison.before])
  simp only [countBefore] at hsame hle hgt hlt ⊢
  omega

/-! ## Where the start leaf leads -/

namespace Iterator

theorem Start.rank_eq (hs : Start pages rootAddr minKey maxKey target startType e j base) :
    Lib.offset (chunks pages rootAddr) j + base.idx =
      (countBefore startType target (contents pages rootAddr) : Int) - startType.back := by
  have htotal := hs.endsIn_target.countBefore_eq (chunk_of_leaf hs.leaf) startType
  have hidx := hs.idx
  omega

theorem Start.curr_eq_end_iff (h : WellShaped pages rootAddr)
    (hs : Start pages rootAddr minKey maxKey target startType e j base) :
    base.curr = base.endAddr ↔ j = e := by
  constructor
  · intro heq
    exact h.leaf_injective hs.leaf (heq ▸ hs.endLeaf)
  · rintro rfl
    have hleaf := hs.leaf
    rw [hs.endLeaf] at hleaf
    exact (Option.some.inj hleaf).symm

theorem moveToNeighbour_stay (h : WellShaped pages rootAddr)
    (hleaf : (leaves pages rootAddr)[j]? = some base.curr)
    (hnext : base.curr ≠ base.endAddr → base.idx ≠ (pages base.curr).entries.length)
    (hprev : ¬ (base.currMinIdx = -1 ∧ base.idx = -1)) (fuel : Nat) :
    base.moveToNeighbour pages fuel = some base := by
  rw [moveToNeighbour, h.leaf_numEntries hleaf, if_neg fun hcon => hnext hcon.1 hcon.2]
  simp only [Option.bind_eq_bind, Option.bind_some]
  rw [if_neg hprev]

theorem moveToNeighbour_prev (h : WellShaped pages rootAddr)
    (hleaf : (leaves pages rootAddr)[j]? = some base.curr)
    (hprev : base.currMinIdx = -1 ∧ base.idx = -1) (fuel : Nat) :
    base.moveToNeighbour pages fuel = base.prevLeaf pages fuel := by
  rw [moveToNeighbour, h.leaf_numEntries hleaf, if_neg fun hcon => by omega]
  simp only [Option.bind_eq_bind, Option.bind_some]
  rw [if_pos hprev]

theorem moveToNeighbour_next (h : WellShaped pages rootAddr)
    (hleaf : (leaves pages rootAddr)[j]? = some base.curr) (hne : base.curr ≠ base.endAddr)
    (hidx : base.idx = (pages base.curr).entries.length) {fuel : Nat} {itor : Iterator K}
    (hnext : base.nextLeaf pages fuel = some itor) :
    base.moveToNeighbour pages fuel = some { itor with currMinIdx := 0 } := by
  rw [moveToNeighbour, h.leaf_numEntries hleaf, if_pos ⟨hne, hidx⟩, hnext]
  simp

theorem Start.atRank (h : WellShaped pages rootAddr)
    (hs : Start pages rootAddr minKey maxKey target startType e j base)
    (hlow : rank pages rootAddr minKey ≤ countBefore startType target (contents pages rootAddr))
    (hupp : (countBefore startType target (contents pages rootAddr) : Int) - startType.back ≤
      rank pages rootAddr maxKey)
    (hcross : base.curr ≠ base.endAddr → base.idx = (pages base.curr).entries.length →
      countBefore .lessThan minKey (pages base.curr).entries = (pages base.curr).entries.length)
    (fuel : Nat) :
    ∃ j' itor, base.moveToNeighbour pages fuel = some itor ∧
      AtRank pages rootAddr minKey maxKey e j'
        (countBefore startType target (contents pages rootAddr) - (startType.back : Int)) itor := by
  have hrank := hs.rank_eq
  have hend := hs.curr_eq_end_iff h
  have hback : startType.back ≤ 1 := by cases startType <;> decide
  by_cases hnext : base.curr ≠ base.endAddr ∧ base.idx = (pages base.curr).entries.length
  · obtain ⟨hne, hidx⟩ := hnext
    have hlt : j < e := lt_of_le_of_ne hs.le_end (mt hend.mpr hne)
    have hoff := Lib.offset_succ (chunk_of_leaf hs.leaf)
    have hcount := countBefore_chunk h (chunk_of_leaf hs.leaf) minKey
    have hlen := h.leaf_nonempty hlt.ne' (List.getElem?_eq_some_iff.mp hs.endLeaf).1 hs.leaf
    have hall := hcross hne hidx
    have hidx' := hs.idx
    have hcountle := countBefore_le_length startType target (pages base.curr).entries
    obtain ⟨itor, hitor, -, hat⟩ := hs.toBounded.nextLeaf_atRank h hs.leaf hlt (by omega) fuel
    refine ⟨j + 1, _, moveToNeighbour_next h hs.leaf hne hidx hitor, ?_⟩
    have hg : ((Lib.offset (chunks pages rootAddr) (j + 1) : Nat) : Int) =
        countBefore startType target (contents pages rootAddr) - (startType.back : Int) := by omega
    rw [← hg]
    exact ⟨hat.toBounded.move itor.curr itor.idx 0, hat.leaf, hat.rank_eq, hat.le_end, hat.inLeaf,
      hat.lower, hat.upper, Or.inr ⟨le_refl _, by change (0 : Int) = _; omega⟩⟩
  · have hstay : base.curr ≠ base.endAddr → base.idx ≠ (pages base.curr).entries.length :=
      fun hne hidx => hnext ⟨hne, hidx⟩
    by_cases hprev : base.currMinIdx = -1 ∧ base.idx = -1
    · rcases hs.minIdx with ⟨-, hpos, -, -, hoff⟩ | hmin
      · obtain ⟨itor, hitor, hat⟩ := hs.toBounded.prevLeaf_atRank h hs.leaf hpos hs.le_end hoff fuel
        refine ⟨j - 1, itor, (moveToNeighbour_prev h hs.leaf hprev fuel).trans hitor, ?_⟩
        have hg : (Lib.offset (chunks pages rootAddr) j : Int) - 1 =
            countBefore startType target (contents pages rootAddr) - (startType.back : Int) := by omega
        rw [← hg]
        exact hat
      · omega
    · refine ⟨j, base, moveToNeighbour_stay h hs.leaf hstay hprev fuel,
        ⟨hs.toBounded, hs.leaf, hrank.symm, hs.le_end, ?_, by omega, hupp, ?_⟩⟩
      · intro hlt
        have hne := hstay (mt hend.mp hlt.ne)
        have hidx := hs.idx
        have hcountle := countBefore_le_length startType target (pages base.curr).entries
        omega
      · have hidx := hs.idx
        rcases hs.minIdx with ⟨hmark, hpos, -, -, hoff⟩ | hmin
        · exact Or.inl ⟨hmark, hpos, by omega, hoff⟩
        · exact Or.inr hmin.2

end Iterator

/-! ## The rank a start key asks for -/

theorem rank_le_countBefore (pages : Nat → Node K) (rootAddr : Nat) (startType : Comparison) (x : Key K) :
    rank pages rootAddr x ≤ countBefore startType x (contents pages rootAddr) :=
  List.countP_mono_left fun kv _ hkv => by
    cases startType <;> simp only [Comparison.before, decide_eq_true_eq] at hkv ⊢ <;> order

theorem countBefore_mono (startType : Comparison) {x y : Key K} (hxy : x ≤ y)
    (l : List (Key K × Message)) : countBefore startType x l ≤ countBefore startType y l :=
  List.countP_mono_left fun kv _ hkv => by
    cases startType <;> simp only [Comparison.before, decide_eq_true_eq] at hkv ⊢ <;> order

theorem countBefore_le_rank (pages : Nat → Node K) (rootAddr : Nat) (startType : Comparison) {x y : Key K} (hxy : x < y) :
    countBefore startType x (contents pages rootAddr) ≤ rank pages rootAddr y :=
  List.countP_mono_left fun kv _ hkv => by
    cases startType <;> simp only [Comparison.before, decide_eq_true_eq] at hkv ⊢ <;> order

theorem clampKey_of_lt (hle : minKey ≤ maxKey) (hlt : startKey < minKey) :
    Iterator.clampKey minKey maxKey startKey = minKey := by
  simp only [Iterator.clampKey, hlt, if_true]
  exact if_neg (not_lt.mpr hle)

theorem clampKey_of_ge (hle : minKey ≤ maxKey) (hge : maxKey ≤ startKey) :
    Iterator.clampKey minKey maxKey startKey = maxKey := by
  simp only [Iterator.clampKey, if_neg (not_lt.mpr (hle.trans hge))]
  split
  · rfl
  · order

theorem countBefore_clampKey (hle : minKey ≤ maxKey)
    (hmoved : ¬ MovedOntoKey pages rootAddr minKey maxKey startKey startType) :
    rank pages rootAddr minKey ≤
        countBefore startType (Iterator.clampKey minKey maxKey startKey) (contents pages rootAddr) ∧
      countBefore startType (Iterator.clampKey minKey maxKey startKey) (contents pages rootAddr) ≤
        rank pages rootAddr maxKey ∧
      min (countBefore startType startKey (contents pages rootAddr) - rank pages rootAddr minKey)
          (rank pages rootAddr maxKey - rank pages rootAddr minKey) =
        countBefore startType (Iterator.clampKey minKey maxKey startKey) (contents pages rootAddr) -
          rank pages rootAddr minKey := by
  have hmono := rank_mono pages rootAddr hle
  by_cases hlow : startKey < minKey
  · have hkey : countBefore startType minKey (contents pages rootAddr) = rank pages rootAddr minKey :=
      countBefore_of_not_key fun hpass kv hkv heq => hmoved ⟨hpass, Or.inl ⟨hlow, kv, hkv, heq⟩⟩
    have hstart := countBefore_le_rank pages rootAddr startType hlow
    rw [clampKey_of_lt hle hlow, hkey]
    omega
  · by_cases hupp : maxKey ≤ startKey
    · have hkey : countBefore startType maxKey (contents pages rootAddr) = rank pages rootAddr maxKey :=
        countBefore_of_not_key fun hpass kv hkv heq => hmoved ⟨hpass, Or.inr ⟨hupp, kv, hkv, heq⟩⟩
      have hstart := countBefore_mono startType hupp (contents pages rootAddr)
      rw [clampKey_of_ge hle hupp, hkey]
      omega
    · have hclamp : Iterator.clampKey minKey maxKey startKey = startKey := by
        simp only [Iterator.clampKey, if_neg hlow]
        exact if_neg fun hcon => hupp (le_of_lt hcon)
      have hfirst := rank_mono pages rootAddr (not_lt.mp hlow)
      have hsecond := rank_le_countBefore pages rootAddr startType startKey
      have hthird := countBefore_le_rank pages rootAddr startType
        (not_le.mp hupp)
      rw [hclamp]
      omega

/-! ## What a cursor shows after one move -/

theorem BehavesAs.shows {fuel : Nat} {itor : Iterator K} {c : Lib.Cursor (Key K × Message)}
    (h : BehavesAs pages fuel itor c) : Shows pages itor c :=
  (h [] itor Lib.System.Run.nil).1

theorem BehavesAs.shows_prev {fuel : Nat} {itor : Iterator K} {c : Lib.Cursor (Key K × Message)}
    (h : BehavesAs pages fuel itor c) (hcan : itor.canPrev = true)
    (hstay : ¬ (itor.currMinIdx = -1 ∧ itor.idx - 1 = -1)) :
    Shows pages { itor with idx := itor.idx - 1 } c.prev := by
  have hmove : iteratorMove pages fuel itor false = some { itor with idx := itor.idx - 1 } := by
    rw [iteratorMove, if_neg Bool.false_ne_true, if_pos hcan, Iterator.prev]
    exact if_neg hstay
  have hrun : (Lib.System.ofFun (fun _ => True) (iteratorMove pages fuel)).Run itor
      ([] ++ [(itor, false)]) { itor with idx := itor.idx - 1 } := .snoc .nil hmove
  exact (h _ _ hrun).1

/-! ## Ranges that are not empty -/

section NonEmpty

variable (h : WellShaped pages rootAddr) (hle : minKey ≤ maxKey)
  (hne : rank pages rootAddr minKey < rank pages rootAddr maxKey)

include h hne

private theorem startCursor_pos (startKey : Key K) (startType : Comparison) :
    ((startCursor pages rootAddr minKey maxKey startKey startType).items.length : Int) =
        rank pages rootAddr maxKey - rank pages rootAddr minKey ∧
      (startCursor pages rootAddr minKey maxKey startKey startType).pos =
        (min (countBefore startType startKey (contents pages rootAddr) - rank pages rootAddr minKey)
          (rank pages rootAddr maxKey - rank pages rootAddr minKey) : Nat) - (startType.back : Int) := by
  refine ⟨?_, position_eq h startKey startType⟩
  have hlen := length_entriesIn h minKey maxKey
  simp only [startCursor]
  omega

include hle

theorem opens_of_not (hmoved : ¬ MovedOntoKey pages rootAddr minKey maxKey startKey startType)
    (hleaf : ¬ LeavesLeafBehind pages rootAddr minKey maxKey startKey startType)
    (hs : Iterator.Start pages rootAddr minKey maxKey (Iterator.clampKey minKey maxKey startKey)
      startType e j base) (fuel : Nat) :
    ∃ itor, base.moveToNeighbour pages fuel = some itor ∧
      BehavesAs pages fuel itor (startCursor pages rootAddr minKey maxKey startKey startType) := by
  obtain ⟨hlow, hupp, hpos⟩ := countBefore_clampKey hle hmoved
  obtain ⟨-, hcursor⟩ := startCursor_pos h hne startKey startType
  have hback : startType.back ≤ 1 := by cases startType <;> decide
  have hcross : base.curr ≠ base.endAddr → base.idx = (pages base.curr).entries.length →
      countBefore .lessThan minKey (pages base.curr).entries =
        (pages base.curr).entries.length := by
    intro hcurr hidx
    by_contra hcon
    have hcount := countBefore_le_length startType (Iterator.clampKey minKey maxKey startKey)
      (pages base.curr).entries
    have hidx' := hs.idx
    refine hleaf ⟨by omega, ?_, ?_, ?_⟩
    · rw [← hs.curr_eq, ← hs.end_eq]
      exact hcurr
    · rw [← hs.curr_eq]
      exact List.countP_eq_length.mp (show countBefore startType _ _ = _ by omega)
    · rw [← hs.curr_eq]
      by_contra hnone
      refine hcon (List.countP_eq_length.mpr fun kv hkv => ?_)
      simp only [Comparison.before, decide_eq_true_eq]
      exact not_le.mp fun hge => hnone ⟨kv, hkv, hge⟩
  obtain ⟨j', itor, hitor, hat⟩ := hs.atRank h hlow (by omega) hcross fuel
  have hg : (rank pages rootAddr minKey : Int) +
      (startCursor pages rootAddr minKey maxKey startKey startType).pos =
      countBefore startType (Iterator.clampKey minKey maxKey startKey) (contents pages rootAddr) -
        (startType.back : Int) := by
    rw [hcursor, hpos]
    omega
  exact ⟨itor, hitor, StandsAt.behavesAs h hne ⟨rfl, e, j', hg ▸ hat⟩ fuel⟩

private theorem not_behavesAs_of_upper (hpass : startType.passesEqual = true)
    (hge : maxKey ≤ startKey) (hkey : ∃ kv ∈ contents pages rootAddr, kv.1 = maxKey)
    (hs : Iterator.Start pages rootAddr minKey maxKey (Iterator.clampKey minKey maxKey startKey)
      startType e j base) {fuel : Nat} {itor : Iterator K}
    (hitor : base.moveToNeighbour pages fuel = some itor) :
    ¬ BehavesAs pages fuel itor (startCursor pages rootAddr minKey maxKey startKey startType) := by
  intro hbeh
  obtain ⟨hlen, hcursor⟩ := startCursor_pos h hne startKey startType
  have hrank := hs.rank_eq
  have hback : startType.back ≤ 1 := by cases startType <;> decide
  rw [clampKey_of_ge hle hge, countBefore_of_key h.ascending hpass hkey] at hrank
  change _ = ((rank pages rootAddr maxKey + 1 : Nat) : Int) - _ at hrank
  have hstart := countBefore_mono startType hge (contents pages rootAddr)
  rw [countBefore_of_key h.ascending hpass hkey] at hstart
  change rank pages rootAddr maxKey + 1 ≤ _ at hstart
  have hcurr : base.curr = base.endAddr := by
    rw [hs.curr_eq, hs.end_eq, clampKey_of_ge hle hge]
  obtain rfl := (hs.curr_eq_end_iff h).mp hcurr
  have hend := hs.endIdx
  have hend' := hs.toBounded.endIdx_bounds.1
  obtain rfl : base = itor := by
    rw [Iterator.moveToNeighbour_stay h hs.leaf (fun hcon => absurd hcurr hcon) (by omega)] at hitor
    exact Option.some.inj hitor
  have hcanNext : ∀ idx : Int, base.endIdx ≤ idx →
      Iterator.canNext { base with idx := idx } = false := by
    intro idx hidx
    simp only [Iterator.canNext, hcurr, bne_self_eq_false, Bool.false_or, Bool.and_eq_false_iff,
      decide_eq_false_iff_not]
    omega
  have hshows := hbeh.shows
  by_cases hzero : startType.back = 0
  · -- Past the upper bound by one: one step back is not enough.
    have hcprev := (cursor_canPrev_iff (startCursor pages rootAddr minKey maxKey startKey startType)
      (by omega)).mpr (by omega)
    have hshows' := hbeh.shows_prev (hshows.canPrev.trans hcprev) (by omega)
    have hcnext := cursor_canNext_iff (startCursor pages rootAddr minKey maxKey startKey startType).prev
      (by rw [Lib.Cursor.prev_items]; omega)
    rw [Lib.Cursor.prev_pos hcprev, Lib.Cursor.prev_items] at hcnext
    have hnext := hshows'.canNext
    rw [hcanNext _ (by omega)] at hnext
    have := hcnext.mpr (by omega)
    rw [← hnext] at this
    cases this
  · have hcnext := (cursor_canNext_iff (startCursor pages rootAddr minKey maxKey startKey startType)
      (by omega)).mpr (by omega)
    have hnext := hshows.canNext
    rw [show base.canNext = false from hcanNext base.idx (by omega), hcnext] at hnext
    cases hnext

omit hne hle in
private theorem getElem?_of_curr {itor : Iterator K} {kv : Key K × Message}
    (hleaf : (leaves pages rootAddr)[j]? = some itor.curr) (hidx : 0 ≤ itor.idx)
    (hcurr : itor.curr? pages = some kv) :
    (contents pages rootAddr)[Lib.offset (chunks pages rootAddr) j + itor.idx.toNat]? = some kv := by
  rw [Iterator.curr?, if_neg (not_lt.mpr hidx), if_pos (h.leaf_height hleaf)] at hcurr
  rw [contents, Lib.getElem?_flatten (chunk_of_leaf hleaf) (List.getElem?_eq_some_iff.mp hcurr).1,
    hcurr]

private theorem not_behavesAs_of_lower (hpass : startType.passesEqual = true)
    (hlt : startKey < minKey) (hkey : ∃ kv ∈ contents pages rootAddr, kv.1 = minKey)
    (hs : Iterator.Start pages rootAddr minKey maxKey (Iterator.clampKey minKey maxKey startKey)
      startType e j base) {fuel : Nat} {itor : Iterator K}
    (hitor : base.moveToNeighbour pages fuel = some itor) :
    ¬ BehavesAs pages fuel itor (startCursor pages rootAddr minKey maxKey startKey startType) := by
  intro hbeh
  obtain ⟨hlen, hcursor⟩ := startCursor_pos h hne startKey startType
  have hback : startType.back ≤ 1 := by cases startType <;> decide
  have hrank := hs.rank_eq
  rw [clampKey_of_lt hle hlt] at hs
  rw [clampKey_of_lt hle hlt, countBefore_of_key h.ascending hpass hkey] at hrank
  change _ = ((rank pages rootAddr minKey + 1 : Nat) : Int) - _ at hrank
  have hstart := countBefore_le_rank pages rootAddr startType hlt
  have hidx := hs.idx
  have hcount := countBefore_le_length startType minKey (pages base.curr).entries
  have hlow := hs.endsIn_target.countBefore_eq (chunk_of_leaf hs.leaf) .lessThan
  change rank pages rootAddr minKey = _ at hlow
  have hmin : 0 ≤ base.currMinIdx ∧ base.currMinIdx =
      (rank pages rootAddr minKey : Int) - Lib.offset (chunks pages rootAddr) j := by
    rcases hs.minIdx with ⟨-, -, -, hnone, hoff⟩ | hmin
    · have hsame := countBefore_of_passesEqual hpass minKey (pages base.curr).entries
      omega
    · exact hmin.2
  have hend := hs.curr_eq_end_iff h
  have hshows := hbeh.shows
  by_cases hzero : startType.back = 0
  · -- The cursor is at the first item, the iterator at the rank of the second.
    have hcnext := (cursor_canNext_iff (startCursor pages rootAddr minKey maxKey startKey startType)
      (by omega)).mpr (by omega)
    have hcprev := (cursor_canPrev_iff (startCursor pages rootAddr minKey maxKey startKey startType)
      (by omega)).mpr (by omega)
    have hcurr := hshows.curr (by rw [Lib.Cursor.canCurr, hcnext, hcprev]; rfl)
    have hpos : (startCursor pages rootAddr minKey maxKey startKey startType).pos.toNat = 0 := by
      omega
    have hfirst := getElem?_entriesIn h minKey maxKey (i := 0)
      (by simp only [startCursor] at hlen; omega)
    have hlt' : rank pages rootAddr minKey < (contents pages rootAddr).length :=
      hne.trans_le (rank_le_length pages rootAddr maxKey)
    rw [Lib.Cursor.curr, if_pos (by omega), hpos] at hcurr
    change itor.curr? pages = (entriesIn pages rootAddr minKey maxKey)[0]? at hcurr
    rw [hfirst, Nat.add_zero, List.getElem?_eq_getElem hlt'] at hcurr
    obtain ⟨j', hleaf, hidx', hg⟩ : ∃ j', (leaves pages rootAddr)[j']? = some itor.curr ∧
        0 ≤ itor.idx ∧ Lib.offset (chunks pages rootAddr) j' + itor.idx.toNat =
          rank pages rootAddr minKey + 1 := by
      by_cases hnext : base.curr ≠ base.endAddr ∧ base.idx = (pages base.curr).entries.length
      · have hlt'' : j < e := lt_of_le_of_ne hs.le_end (mt hend.mpr hnext.1)
        have hoff := Lib.offset_succ (chunk_of_leaf hs.leaf)
        obtain ⟨addr, haddr, hitor'⟩ := hs.toBounded.nextLeaf_eq h hs.leaf hlt'' fuel
        rw [Iterator.moveToNeighbour_next h hs.leaf hnext.1 hnext.2 hitor'] at hitor
        obtain rfl := Option.some.inj hitor
        exact ⟨j + 1, haddr, le_refl _, by simp only [Int.toNat_zero]; omega⟩
      · rw [Iterator.moveToNeighbour_stay h hs.leaf (fun hne' hidx' => hnext ⟨hne', hidx'⟩)
          (by omega)] at hitor
        obtain rfl := Option.some.inj hitor
        exact ⟨j, hs.leaf, by omega, by omega⟩
    have hsecond := getElem?_of_curr h hleaf hidx' hcurr
    rw [hg] at hsecond
    obtain ⟨hlt'', heq⟩ := List.getElem?_eq_some_iff.mp hsecond
    have hsorted := List.pairwise_iff_getElem.mp h.ascending _ _ hlt' hlt'' (Nat.lt_succ_self _)
    rw [heq] at hsorted
    exact lt_irrefl _ hsorted
  · -- The cursor is before the first item, the iterator at it.
    have hstay : base.currMinIdx ≠ -1 := by omega
    rw [Iterator.moveToNeighbour_stay h hs.leaf (fun _ => by omega) (fun hcon => hstay hcon.1)]
      at hitor
    obtain rfl := Option.some.inj hitor
    have hcan : base.canPrev = true := by
      simp only [Iterator.canPrev, Bool.and_eq_true, decide_eq_true_eq, Bool.or_eq_true, bne_iff_ne,
        ne_eq]
      refine ⟨by omega, ?_⟩
      by_cases hcurr : base.curr = base.endAddr
      · obtain rfl := hend.mp hcurr
        have hendIdx := hs.endIdx
        exact Or.inl (by omega)
      · exact Or.inr hcurr
    rw [hshows.canPrev] at hcan
    have := (cursor_canPrev_iff (startCursor pages rootAddr minKey maxKey startKey startType)
      (by omega)).mp hcan
    omega

private theorem not_behavesAs_of_left_behind
    (hmoved : ¬ MovedOntoKey pages rootAddr minKey maxKey startKey startType)
    (hleaf : LeavesLeafBehind pages rootAddr minKey maxKey startKey startType)
    (hs : Iterator.Start pages rootAddr minKey maxKey (Iterator.clampKey minKey maxKey startKey)
      startType e j base) {fuel : Nat} {itor : Iterator K}
    (hitor : base.moveToNeighbour pages fuel = some itor) :
    ¬ BehavesAs pages fuel itor (startCursor pages rootAddr minKey maxKey startKey startType) := by
  intro hbeh
  obtain ⟨hlow, hupp, hpos⟩ := countBefore_clampKey hle hmoved
  obtain ⟨hlen, hcursor⟩ := startCursor_pos h hne startKey startType
  obtain ⟨hback, hfirst, hall, kv, hkv, hge⟩ := hleaf
  rw [← hs.curr_eq] at hfirst hall hkv
  rw [← hs.end_eq] at hfirst
  have hidx := hs.idx
  have hrank := hs.rank_eq
  have hfull : countBefore startType (Iterator.clampKey minKey maxKey startKey)
      (pages base.curr).entries = (pages base.curr).entries.length :=
    List.countP_eq_length.mpr hall
  have hlt : j < e := lt_of_le_of_ne hs.le_end (mt (hs.curr_eq_end_iff h).mpr hfirst)
  have hoff := Lib.offset_succ (chunk_of_leaf hs.leaf)
  have hcount := countBefore_chunk h (chunk_of_leaf hs.leaf) minKey
  have hless : countBefore .lessThan minKey (pages base.curr).entries <
      (pages base.curr).entries.length := by
    refine lt_of_le_of_ne (countBefore_le_length ..) fun hcon => ?_
    have := List.countP_eq_length.mp hcon kv hkv
    simp only [Comparison.before, decide_eq_true_eq] at this
    exact absurd hge (not_le.mpr this)
  obtain ⟨addr, -, hitor'⟩ := hs.toBounded.nextLeaf_eq h hs.leaf hlt fuel
  rw [Iterator.moveToNeighbour_next h hs.leaf hfirst (by omega) hitor'] at hitor
  obtain rfl := Option.some.inj hitor
  have hcprev := (cursor_canPrev_iff (startCursor pages rootAddr minKey maxKey startKey startType)
    (by omega)).mpr (by omega)
  have hshows := hbeh.shows_prev (hbeh.shows.canPrev.trans hcprev) (by simp)
  have hcprev' := (cursor_canPrev_iff
    (startCursor pages rootAddr minKey maxKey startKey startType).prev
    (by rw [Lib.Cursor.prev_items]; omega)).mpr (by rw [Lib.Cursor.prev_pos hcprev]; omega)
  rw [← hshows.canPrev] at hcprev'
  simp [Iterator.canPrev] at hcprev'

end NonEmpty

/-! ## Empty ranges -/

section Empty

variable (h : WellShaped pages rootAddr)
  (heq : rank pages rootAddr minKey = rank pages rootAddr maxKey)
  (hs : Iterator.Start pages rootAddr minKey maxKey target startType e j base)

include h heq hs

private theorem showsEmpty_of_cannot_move {fuel : Nat} {itor : Iterator K}
    (hitor : base.moveToNeighbour pages fuel = some itor) (hnext : itor.canNext = false)
    (hprev : itor.canPrev = false) :
    if base.curr = base.endAddr then
      (pages base.endAddr).prevAddr = 0 ∨ ∃ kv ∈ (pages base.endAddr).entries, kv.1 ≤ minKey
    else startType.back = 0 := by
  have hidx := hs.idx
  have hcount := countBefore_le_length startType target (pages base.curr).entries
  have hback : startType.back ≤ 1 := by cases startType <;> decide
  have hbefore : base.currMinIdx = -1 → base.idx = -1 → False := by
    intro hmark hidx'
    rcases hs.minIdx with ⟨-, hpos, -, -, hoff⟩ | hmin
    · obtain ⟨itor', hitor', hat⟩ := hs.toBounded.prevLeaf_atRank h hs.leaf hpos hs.le_end hoff fuel
      rw [Iterator.moveToNeighbour_prev h hs.leaf ⟨hmark, hidx'⟩, hitor'] at hitor
      obtain rfl := Option.some.inj hitor
      have hcurr : itor'.curr ≠ itor'.endAddr := fun hcon => by
        have := (hat.curr_eq_end_iff h).mp hcon
        have := hs.le_end
        omega
      simp [Iterator.canNext, hcurr] at hnext
    · omega
  split
  · rename_i hcurr
    by_contra hcon
    obtain ⟨hprevAddr, habove⟩ := not_or.mp hcon
    obtain rfl := (hs.curr_eq_end_iff h).mp hcurr
    have hnone : countBefore .greaterThan minKey (pages base.curr).entries = 0 := by
      rw [countBefore, List.countP_eq_zero]
      intro kv hkv hle
      simp only [Comparison.before, decide_eq_true_eq] at hle
      exact habove ⟨kv, hcurr ▸ hkv, hle⟩
    rcases hs.minIdx with ⟨hmark, hpos, -, -, hoff⟩ | ⟨hfirst, -⟩
    · have hend := hs.toBounded.endIdx_bounds.1
      have hendIdx := hs.endIdx
      by_cases hidx' : base.idx = -1
      · exact hbefore hmark hidx'
      · rw [Iterator.moveToNeighbour_stay h hs.leaf (fun hcon => absurd hcurr hcon)
          (fun hcon => hidx' hcon.2)] at hitor
        obtain rfl := Option.some.inj hitor
        simp only [Iterator.canPrev, Bool.and_eq_false_iff, decide_eq_false_iff_not,
          Bool.or_eq_false_iff, bne_eq_false_iff_eq] at hprev
        omega
    · rcases hfirst with rfl | hpos
      · exact hprevAddr (by rw [← hcurr, h.linked.prevAddr hs.leaf, if_pos rfl])
      · omega
  · rename_i hcurr
    by_contra hcon
    by_cases hprev' : base.currMinIdx = -1 ∧ base.idx = -1
    · exact hbefore hprev'.1 hprev'.2
    · rw [Iterator.moveToNeighbour_stay h hs.leaf (fun _ => by omega) hprev'] at hitor
      obtain rfl := Option.some.inj hitor
      simp [Iterator.canNext, hcurr] at hnext

private theorem cannot_move_of_showsEmpty (hmin : minKey ≤ target)
    (hshow : if base.curr = base.endAddr then
      (pages base.endAddr).prevAddr = 0 ∨ ∃ kv ∈ (pages base.endAddr).entries, kv.1 ≤ minKey
    else startType.back = 0) (fuel : Nat) :
    ∃ itor, base.moveToNeighbour pages fuel = some itor ∧ itor.canNext = false ∧
      itor.canPrev = false := by
  have hendIdx := hs.endIdx
  split at hshow
  · rename_i hcurr
    obtain rfl := (hs.curr_eq_end_iff h).mp hcurr
    have hsame : 0 ≤ base.currMinIdx ∧ base.currMinIdx = base.endIdx := by
      rcases hs.minIdx with ⟨-, hpos, -, hnone, -⟩ | hmin'
      · exfalso
        rcases hshow with hprevAddr | ⟨kv, hkv, hle⟩
        · obtain ⟨hlen, -⟩ := List.getElem?_eq_some_iff.mp hs.leaf
          obtain ⟨prev, hprev⟩ : ∃ prev, (leaves pages rootAddr)[j - 1]? = some prev :=
            ⟨_, List.getElem?_eq_getElem (by omega)⟩
          rw [← hcurr, h.linked.prevAddr hs.leaf, if_neg (by omega), hprev, Option.getD_some]
            at hprevAddr
          exact h.ne_zero_of_getElem hprev hprevAddr
        · have := List.countP_eq_zero.mp hnone kv (hcurr ▸ hkv)
          simp only [Comparison.before, decide_eq_true_eq] at this
          exact this hle
      · omega
    refine ⟨base, Iterator.moveToNeighbour_stay h hs.leaf (fun hcon => absurd hcurr hcon)
      (fun hcon => by omega) fuel, ?_, ?_⟩
    · simp [Iterator.canNext, hcurr, hsame.2]
    · simp [Iterator.canPrev, hcurr, hsame.2]
  · rename_i hcurr
    have hlt : j < e := lt_of_le_of_ne hs.le_end (mt (hs.curr_eq_end_iff h).mpr hcurr)
    have hend := hs.toBounded.endIdx_bounds
    -- Every leaf before the last lies below the range, so below the target.
    have hbelow : ∀ {i : Nat} {c : List (Key K × Message)}, (chunks pages rootAddr)[i]? = some c →
        ∀ n, n < c.length → Lib.offset (chunks pages rootAddr) i + n < rank pages rootAddr minKey →
        ∃ kv ∈ c, kv.1 < minKey := by
      intro i c hc n hn hlt'
      have hcount := countBefore_chunk h hc minKey
      have hpos : 0 < countBefore .lessThan minKey c := by omega
      obtain ⟨kv, hkv, hkey⟩ := List.countP_pos_iff.mp hpos
      exact ⟨kv, hkv, by simpa [Comparison.before] using hkey⟩
    have hoff := Lib.offset_succ (chunk_of_leaf hs.leaf)
    have hmono := Lib.offset_le_of_le (chunks pages rootAddr) (show j + 1 ≤ e from hlt)
    have hcount := countBefore_chunk h (chunk_of_leaf hs.leaf) minKey
    have hle := countBefore_le_length startType target (pages base.curr).entries
    have hidx : base.idx = (pages base.curr).entries.length := by
      have hfull : countBefore .lessThan minKey (pages base.curr).entries ≤
          countBefore startType target (pages base.curr).entries :=
        List.countP_mono_left fun kv _ hkv => by
          cases startType <;> simp only [Comparison.before, decide_eq_true_eq] at hkv ⊢ <;> order
      have := hs.idx
      omega
    obtain ⟨addr, haddr, hnext⟩ := hs.toBounded.nextLeaf_eq h hs.leaf hlt fuel
    have hafter : ∀ {i : Nat} {c : List (Key K × Message)}, j < i →
        (chunks pages rootAddr)[i]? = some c → 0 < c.length →
        rank pages rootAddr minKey ≤ Lib.offset (chunks pages rootAddr) i := by
      intro i c hji hc hpos
      by_contra hcon
      obtain ⟨kv, hkv, hkey⟩ := hbelow hc 0 hpos (by omega)
      exact absurd (hs.endsIn_target.after i c hji hc kv hkv) (not_lt.mpr (hkey.le.trans hmin))
    have hlast : j + 1 = e := by
      by_contra hcon
      have hlen := h.leaf_nonempty (i := e) (Ne.symm hcon)
        (List.getElem?_eq_some_iff.mp hs.endLeaf).1 haddr
      have hrank : rank pages rootAddr minKey ≤ Lib.offset (chunks pages rootAddr) (j + 1) :=
        hafter (Nat.lt_succ_self j) (chunk_of_leaf haddr) hlen
      have hoff' := Lib.offset_succ (chunk_of_leaf haddr)
      have hmono' := Lib.offset_le_of_le (chunks pages rootAddr) (show j + 1 + 1 ≤ e by omega)
      omega
    have hzero : base.endIdx = 0 := by
      by_contra hcon
      have hrank := hafter hlt (chunk_of_leaf hs.endLeaf) (by omega)
      omega
    subst hlast
    obtain rfl : addr = base.endAddr := Option.some.inj (haddr.symm.trans hs.endLeaf)
    refine ⟨_, Iterator.moveToNeighbour_next h hs.leaf hcurr hidx hnext, ?_, ?_⟩
    · simp [Iterator.canNext, hzero]
    · simp [Iterator.canPrev, hzero]

end Empty

/-! ## Exactly which ranges open as cursors -/

theorem entriesIn_eq_nil_iff (h : WellShaped pages rootAddr) (hle : minKey ≤ maxKey) :
    entriesIn pages rootAddr minKey maxKey = [] ↔
      rank pages rootAddr minKey = rank pages rootAddr maxKey := by
  have hlen := length_entriesIn h minKey maxKey
  have hmono := rank_mono pages rootAddr hle
  rw [← List.length_eq_zero_iff]
  omega

/-- **The bidirectional cursor.**  On a well-shaped quiescent tree, `btree_iterator_init` at
height 0 opens a range as a cursor over its entries exactly under the condition
`OpensAsCursor`. -/
theorem init_behavesAs_iff (h : WellShaped pages rootAddr) (hle : minKey ≤ maxKey) (fuel : Nat)
    (startKey : Key K) (startType : Comparison) :
    (∃ itor, Iterator.init pages fuel rootAddr minKey maxKey startKey startType 0 = some itor ∧
      BehavesAs pages fuel itor (startCursor pages rootAddr minKey maxKey startKey startType)) ↔
    OpensAsCursor pages rootAddr minKey maxKey startKey startType := by
  obtain ⟨e, j, base, hs, -, -, hinit⟩ := Iterator.init_start h hle fuel startKey startType
  rw [hinit, OpensAsCursor]
  by_cases hempty : entriesIn pages rootAddr minKey maxKey = []
  · have heq := (entriesIn_eq_nil_iff h hle).mp hempty
    rw [if_pos hempty, ShowsEmpty, ← hs.curr_eq, ← hs.end_eq]
    constructor
    · rintro ⟨itor, hitor, hbeh⟩
      have hshows := hbeh.shows
      refine showsEmpty_of_cannot_move h heq hs hitor ?_ ?_
      · rw [hshows.canNext]
        simp [Lib.Cursor.canNext, startCursor, hempty]
      · rw [hshows.canPrev]
        simp [Lib.Cursor.canPrev, startCursor, hempty]
    · intro hshow
      obtain ⟨itor, hitor, hnext, hprev⟩ :=
        cannot_move_of_showsEmpty h heq hs (Iterator.clampKey_bounds hle startKey).1 hshow fuel
      exact ⟨itor, hitor, behavesAs_of_empty hempty hnext hprev fuel⟩
  · have hne := lt_of_le_of_ne (rank_mono pages rootAddr hle)
      (mt (entriesIn_eq_nil_iff h hle).mpr hempty)
    rw [if_neg hempty]
    constructor
    · rintro ⟨itor, hitor, hbeh⟩
      have hmoved : ¬ MovedOntoKey pages rootAddr minKey maxKey startKey startType := by
        rintro ⟨hpass, ⟨hlt, hkey⟩ | ⟨hge, hkey⟩⟩
        · exact not_behavesAs_of_lower h hle hne hpass hlt hkey hs hitor hbeh
        · exact not_behavesAs_of_upper h hle hne hpass hge hkey hs hitor hbeh
      exact ⟨hmoved, fun hleaf => not_behavesAs_of_left_behind h hle hne hmoved hleaf hs hitor hbeh⟩
    · rintro ⟨hmoved, hleaf⟩
      exact opens_of_not h hle hne hmoved hleaf hs fuel

/-- A tree with the keys 1, 2 in one leaf and 5, 6 in the next. -/
def twoLeafPages : Nat → Node Nat
  | 1 => ⟨1, 0, 0, 0, [], [⟨Key.user 1, 2, []⟩, ⟨Key.user 5, 3, []⟩]⟩
  | 2 => ⟨0, 0, 3, 0, [⟨1, ⟨.insert, []⟩⟩, ⟨2, ⟨.insert, []⟩⟩], []⟩
  | 3 => ⟨0, 0, 0, 2, [⟨5, ⟨.insert, []⟩⟩, ⟨6, ⟨.insert, []⟩⟩], []⟩
  | _ => ⟨0, 0, 0, 0, [], []⟩

theorem twoLeafPages_wellShaped : WellShaped twoLeafPages 1 := by
  have hleaves : leaves twoLeafPages 1 = [2, 3] := rfl
  refine ⟨⟨rfl, by simp [twoLeafPages], ?_, ?_, ?_⟩, ?_, ?_, ?_, ?_⟩
  · simp [Separated, entriesUnder, leavesUnder, twoLeafPages, Node.entries]
    decide
  · intro _
    simp [PivotsAreFirstKeys, twoLeafPages, Node.entries]
  · simp [twoLeafPages, SubtreeShaped]
  · simp [hleaves, twoLeafPages, Node.entries]
  · simp [hleaves, Linked, twoLeafPages]
  · simp [hleaves]
  · change ([(Key.user 1, _), (Key.user 2, _), (Key.user 5, _), (Key.user 6, _)] :
      List (Key Nat × Message)).Pairwise _
    simp
    decide

/-- The whole of that tree, opened at its key 2, behaves as a cursor. -/
theorem init_behavesAs_at_key :
    ∃ itor, Iterator.init twoLeafPages 0 1 ⊥ ⊤ (Key.user 2) .greaterThanOrEqual 0 = some itor ∧
      BehavesAs twoLeafPages 0 itor
        (startCursor twoLeafPages 1 ⊥ ⊤ (Key.user 2) .greaterThanOrEqual) := by
  refine (init_behavesAs_iff twoLeafPages_wellShaped bot_le 0 _ _).mpr ?_
  rw [OpensAsCursor, if_neg (by decide)]
  refine ⟨fun hmoved => absurd hmoved.1 (by decide), fun hleaf => ?_⟩
  -- The key 2 itself is not left behind.
  exact absurd (hleaf.2.2.1 (Key.user 2, ⟨.insert, []⟩) (by decide)) (by decide)

/-- Opened at the absent key 3, it starts at the key 5 and cannot go back to the key 2. -/
theorem init_not_behavesAs_between_leaves :
    WellShaped twoLeafPages 1 ∧
      ¬ ∃ itor, Iterator.init twoLeafPages 0 1 ⊥ ⊤ (Key.user 3) .greaterThanOrEqual 0 = some itor ∧
        BehavesAs twoLeafPages 0 itor
          (startCursor twoLeafPages 1 ⊥ ⊤ (Key.user 3) .greaterThanOrEqual) := by
  refine ⟨twoLeafPages_wellShaped, ?_⟩
  rintro ⟨itor, hitor, hbeh⟩
  have hinit : Iterator.init twoLeafPages 0 1 ⊥ ⊤ (Key.user 3) .greaterThanOrEqual 0 =
      some ⟨1, 0, ⊥, ⊤, 3, 0, 0, 3, 2, 0⟩ := rfl
  obtain rfl := Option.some.inj (hitor.symm.trans hinit)
  have hshows := hbeh.shows_prev (by decide) (by decide)
  have hprev := hshows.canPrev
  revert hprev
  decide

end Btree
end TreePass
