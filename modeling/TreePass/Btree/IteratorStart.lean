import TreePass.Btree.IteratorMoves
import TreePass.Lib.Cursor
import TreePass.Lib.Transition
import Mathlib.Tactic.Order

/-!
# The B-tree iterator as a cursor

A range `[min, max)` of a tree is a list of entries, and an iterator over it should behave as a
cursor over that list.  `btree_iterator_init` does not always open it so: `OpensAsCursor` says
exactly when it does.
-/

namespace TreePass
namespace Btree

variable {K : Type} [LinearOrder K]

namespace Iterator

/-! ## The leaf an iterator starts in -/

/-- The registers before `btree_iterator_init` turns to a neighbour: the iterator stands in leaf
`j`, where the keys below the target end, at the index the start type asks for. -/
structure Start (pages : Nat → Node K) (rootAddr : Nat) (minKey maxKey target : Key K)
    (startType : Comparison) (e j : Nat) (itor : Iterator K) : Prop
    extends Bounded pages rootAddr minKey maxKey e itor where
  curr_eq : itor.curr = lookupNode pages rootAddr target 0
  end_eq : itor.endAddr = lookupNode pages rootAddr maxKey 0
  leaf : (leaves pages rootAddr)[j]? = some itor.curr
  endsIn_target : EndsIn (chunks pages rootAddr) target j
  le_end : j ≤ e
  idx : itor.idx = (countBefore startType target (pages itor.curr).entries : Int) - startType.back
  /-- Either the leaf lies above the lower bound and has a predecessor, or `curr_min_idx` is where
  the range begins. -/
  minIdx : (itor.currMinIdx = -1 ∧ 0 < j ∧ 0 < (pages itor.curr).entries.length ∧
      countBefore .greaterThan minKey (pages itor.curr).entries = 0 ∧
      rank pages rootAddr minKey ≤ Lib.offset (chunks pages rootAddr) j) ∨
    ((j = 0 ∨ 0 < countBefore .greaterThan minKey (pages itor.curr).entries) ∧
      0 ≤ itor.currMinIdx ∧
      itor.currMinIdx = (rank pages rootAddr minKey : Int) - Lib.offset (chunks pages rootAddr) j)

variable {pages : Nat → Node K} {rootAddr : Nat} {minKey maxKey target : Key K}
  {startType : Comparison} {e j : Nat} {itor : Iterator K}

theorem findKeyInNode_of_height_zero (hheight : itor.height = 0) (hdr : Node K) (x : Key K)
    (rule : Comparison) :
    itor.findKeyInNode hdr x rule =
      (itor, rule.adjust (findTuple hdr x).1 (findTuple hdr x).2, (findTuple hdr x).2) :=
  if_pos hheight

private theorem countBefore_top (hdr : Node K) :
    countBefore .lessThan ⊤ hdr.entries = hdr.entries.length := by
  rw [countBefore, List.countP_eq_length]
  intro kv hkv
  obtain ⟨t, -, rfl⟩ := List.mem_map.mp hkv
  simp [Comparison.before, Key.user, WithBot.coe_lt_coe, ← WithBot.coe_top]

theorem findEnd_eq (h : WellShaped pages rootAddr) (hroot : itor.rootAddr = rootAddr)
    (hheight : itor.height = 0)
    (hleaf : (leaves pages rootAddr)[e]? = some (lookupNode pages rootAddr itor.maxKey 0))
    (hends : EndsIn (chunks pages rootAddr) itor.maxKey e) :
    itor.findEnd pages = { itor with
      endAddr := lookupNode pages rootAddr itor.maxKey 0
      endIdx := (rank pages rootAddr itor.maxKey : Int) - Lib.offset (chunks pages rootAddr) e
      endGeneration := (pages (lookupNode pages rootAddr itor.maxKey 0)).generation } := by
  have hrank := hends.countBefore_eq (chunk_of_leaf hleaf) .lessThan
  have hchunk := h.chunk_ascending (chunk_of_leaf hleaf)
  obtain ⟨root, height, minKey, maxKey, curr, idx, currMinIdx, endAddr, endIdx, endGeneration⟩ := itor
  obtain rfl : root = rootAddr := hroot
  obtain rfl : height = 0 := hheight
  simp only at hrank hleaf hchunk
  rw [findEnd, rank, hrank]
  by_cases htop : maxKey = ⊤
  · subst htop
    have hnum := h.leaf_numEntries hleaf
    have hcount := countBefore_top (pages (lookupNode pages root ⊤ 0))
    simp only [if_true, hnum, hcount, Iterator.mk.injEq, true_and, and_true]
    omega
  · have hadjust := adjust_findTuple hchunk maxKey .greaterThanOrEqual
    have hsame : countBefore .greaterThanOrEqual maxKey (pages (lookupNode pages root maxKey 0)).entries =
      countBefore .lessThan maxKey (pages (lookupNode pages root maxKey 0)).entries := rfl
    simp only [htop, if_false, findKeyInNode_of_height_zero, hadjust, hsame, Comparison.back,
      Iterator.mk.injEq, true_and, and_true]
    omega

private theorem currMinIdx_spec (h : WellShaped pages rootAddr) {addr : Nat}
    (hleaf : (leaves pages rootAddr)[j]? = some addr)
    (hupper : rank pages rootAddr minKey ≤
      Lib.offset (chunks pages rootAddr) j + (pages addr).entries.length) {tmp m m' : Int}
    (htmp : tmp = countBefore .lessThan minKey (pages addr).entries)
    (hm : m = if (findTuple (pages addr) minKey).2 = false ∧ tmp = 0 then tmp - 1 else tmp)
    (hm' : m' = if m = -1 ∧ (pages addr).prevAddr = 0 then 0 else m) :
    (m' = -1 ∧ 0 < j ∧ 0 < (pages addr).entries.length ∧
      countBefore .greaterThan minKey (pages addr).entries = 0 ∧
      rank pages rootAddr minKey ≤ Lib.offset (chunks pages rootAddr) j) ∨
    ((j = 0 ∨ 0 < countBefore .greaterThan minKey (pages addr).entries) ∧
      0 ≤ m' ∧ m' = (rank pages rootAddr minKey : Int) - Lib.offset (chunks pages rootAddr) j) := by
  have hchunk := chunk_of_leaf hleaf
  have hcount := countBefore_chunk h hchunk minKey
  have hfind := congrArg Prod.snd (findTuple_eq (h.chunk_ascending hchunk) minKey)
  simp only at hfind
  by_cases hgt : countBefore .greaterThan minKey (pages addr).entries = 0
  · -- No key of the leaf is at or below the lower bound.
    have hzero : countBefore .lessThan minKey (pages addr).entries = 0 := by
      have hmono : countBefore .lessThan minKey (pages addr).entries ≤
          countBefore .greaterThan minKey (pages addr).entries :=
        List.countP_mono_left fun kv _ hkv => by
          simp only [Comparison.before, decide_eq_true_eq] at hkv ⊢
          exact hkv.le
      omega
    have hmark : m = -1 := by
      rw [hm, htmp, hzero, hfind, hzero, hgt]
      rfl
    by_cases hj : j = 0
    · have hprev : (pages addr).prevAddr = 0 := by rw [h.linked.prevAddr hleaf, if_pos hj]
      rw [hj, Lib.offset_zero] at hcount hupper ⊢
      rw [hm', if_pos ⟨hmark, hprev⟩]
      omega
    · have hprev : (pages addr).prevAddr ≠ 0 := by
        obtain ⟨hlen, -⟩ := List.getElem?_eq_some_iff.mp hleaf
        obtain ⟨prev, hprev⟩ : ∃ prev, (leaves pages rootAddr)[j - 1]? = some prev :=
          ⟨_, List.getElem?_eq_getElem (by omega)⟩
        rw [h.linked.prevAddr hleaf, if_neg hj, hprev, Option.getD_some]
        exact h.ne_zero_of_getElem hprev
      have hpos := h.leaf_nonempty (Ne.symm hj) (by
        have := (List.getElem?_eq_some_iff.mp hleaf).1
        omega) hleaf
      rw [hm', if_neg (fun hcon => hprev hcon.2)]
      omega
  · have hpos : 0 < (pages addr).entries.length := by
      have := countBefore_le_length .greaterThan minKey (pages addr).entries
      omega
    have hfirst := (initial_before (h.chunk_ascending hchunk) .greaterThan minKey).getElem_iff
      (List.getElem?_eq_getElem hpos)
    have hle : ((pages addr).entries[0]).1 ≤ minKey := by
      have := hfirst.mpr (Nat.pos_of_ne_zero hgt)
      simpa [Comparison.before] using this
    have hlower := offset_le_rank h hchunk (List.getElem?_eq_getElem hpos) hle
    have hmid : m = countBefore .lessThan minKey (pages addr).entries := by
      rw [hm, if_neg, htmp]
      rintro ⟨hnot, hzero⟩
      rw [hfind, decide_eq_false_iff_not] at hnot
      omega
    rw [hm', if_neg (by omega)]
    omega

theorem clampKey_bounds (hle : minKey ≤ maxKey) (startKey : Key K) :
    minKey ≤ clampKey minKey maxKey startKey ∧
      clampKey minKey maxKey startKey ≤ maxKey := by
  simp only [clampKey]
  split <;> split <;> constructor <;> order

theorem findNode_start (h : WellShaped pages rootAddr) (itor : Iterator K)
    (hroot : itor.rootAddr = rootAddr) (hheight : itor.height = 0) (hlow : itor.minKey ≤ target) (hupp : target ≤ itor.maxKey)
    (fuel : Nat) :
    ∃ e j base, Start pages rootAddr itor.minKey itor.maxKey target startType e j base ∧
      base.rootAddr = rootAddr ∧ base.maxKey = itor.maxKey ∧
      itor.findNodeAndGetIdxBounds pages fuel target startType = base.moveToNeighbour pages fuel := by
  obtain ⟨root, height, minKey, maxKey, curr, idx, currMinIdx, endAddr, endIdx, endGeneration⟩ := itor
  obtain rfl : root = rootAddr := hroot
  obtain rfl : height = 0 := hheight
  obtain ⟨e, hend, hendsMax⟩ := h.lookupNode_spec maxKey
  obtain ⟨j, hleaf, hends⟩ := h.lookupNode_spec target
  have hsorted := h.chunk_ascending (chunk_of_leaf hleaf)
  have hupper : rank pages root minKey ≤ Lib.offset (chunks pages root) j +
      (pages (lookupNode pages root target 0)).entries.length := by
    have hmono := rank_mono pages root hlow
    have hrank := hends.countBefore_eq (chunk_of_leaf hleaf) .lessThan
    have hcount := countBefore_le_length .lessThan target
      (pages (lookupNode pages root target 0)).entries
    simp only [rank] at hmono ⊢
    omega
  rw [findNodeAndGetIdxBounds]
  simp only
  rw [findEnd_eq h rfl rfl hend hendsMax]
  simp only [findKeyInNode_of_height_zero, adjust_findTuple hsorted]
  refine ⟨e, j, _, ?_, rfl, rfl, rfl⟩
  refine ⟨⟨rfl, rfl, hendsMax, hend, rfl, rfl⟩, rfl, rfl, hleaf, hends, ?_, rfl, ?_⟩
  · exact h.lookupNode_mono hupp hleaf hend
  · refine currMinIdx_spec h hleaf hupper rfl ?_ rfl
    have hback : (countBefore .greaterThanOrEqual minKey
        (pages (lookupNode pages root target 0)).entries : Int) -
          Comparison.greaterThanOrEqual.back =
        countBefore .lessThan minKey (pages (lookupNode pages root target 0)).entries :=
      Int.sub_zero _
    simp only [hback, Bool.not_eq_true']

theorem init_start (h : WellShaped pages rootAddr) (hle : minKey ≤ maxKey) (fuel : Nat)
    (startKey : Key K) (startType : Comparison) :
    ∃ e j base, Start pages rootAddr minKey maxKey (clampKey minKey maxKey startKey) startType e j
        base ∧ base.rootAddr = rootAddr ∧ base.maxKey = maxKey ∧
      init pages fuel rootAddr minKey maxKey startKey startType 0 =
        base.moveToNeighbour pages fuel := by
  obtain ⟨hlow, hupp⟩ := clampKey_bounds hle startKey
  rw [init, if_neg (not_lt.mpr hle)]
  exact findNode_start h ⟨rootAddr, 0, minKey, maxKey, 0, 0, 0, 0, 0, 0⟩ rfl rfl hlow hupp fuel

end Iterator
end Btree
end TreePass
