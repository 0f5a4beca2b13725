import TreePass.Btree.Iterator
import TreePass.Btree.Shape

/-!
# Moves of the B-tree iterator

The rank of a key is the number of keys of the tree below it.  A range `[min, max)` is the segment
of the entries between the ranks of its bounds.  `AtRank` says what the registers of an iterator
have to be at a position of that segment, or just outside it; moves keep it and change the rank by
one, whatever leaves are crossed.
-/

namespace TreePass
namespace Btree

variable {K : Type} [LinearOrder K]

/-! ## Ranks -/

/-- The keys a position rule leaves behind on its way to the first entry it may stand on, or, for
the two rules that look backwards, to the one after it. -/
def Comparison.before (rule : Comparison) (x k : Key K) : Bool :=
  match rule with
  | .lessThan | .greaterThanOrEqual => decide (k < x)
  | .lessThanOrEqual | .greaterThan => decide (k ≤ x)

def Comparison.back (rule : Comparison) : Nat :=
  match rule with
  | .lessThan | .lessThanOrEqual => 1
  | .greaterThanOrEqual | .greaterThan => 0

def countBefore (rule : Comparison) (x : Key K) (l : List (Key K × Message)) : Nat :=
  l.countP fun kv => rule.before x kv.1

theorem countBefore_le_length (rule : Comparison) (x : Key K) (l : List (Key K × Message)) :
    countBefore rule x l ≤ l.length := List.countP_le_length

theorem initial_before {l : List (Key K × Message)} (h : l.Pairwise fun x y => x.1 < y.1)
    (rule : Comparison) (x : Key K) : Lib.Initial (fun kv => rule.before x kv.1) l :=
  .of_pairwise h fun a b hab hb => by
    cases rule <;> simp only [Comparison.before, decide_eq_true_eq] at hb ⊢ <;>
      first
      | exact hab.trans hb
      | exact hab.le.trans hb

variable {pages : Nat → Node K} {rootAddr : Nat}

theorem EndsIn.countBefore_eq {x : Key K} {j : Nat} {c : List (Key K × Message)}
    (h : EndsIn (chunks pages rootAddr) x j) (hc : (chunks pages rootAddr)[j]? = some c)
    (rule : Comparison) :
    countBefore rule x (contents pages rootAddr) =
      Lib.offset (chunks pages rootAddr) j + countBefore rule x c := by
  refine Lib.countP_flatten hc (fun i c' hi hc' kv hkv => ?_) (fun i c' hi hc' kv hkv => ?_)
  · have hlt := h.before i c' hi hc' kv hkv
    cases rule <;> simp [Comparison.before, hlt, hlt.le]
  · have hlt := h.after i c' hi hc' kv hkv
    cases rule <;> simp [Comparison.before, hlt, hlt.le]

/-- The number of keys of the tree below `x`. -/
def rank (pages : Nat → Node K) (rootAddr : Nat) (x : Key K) : Nat :=
  countBefore .lessThan x (contents pages rootAddr)

theorem rank_mono (pages : Nat → Node K) (rootAddr : Nat) {x y : Key K} (hxy : x ≤ y) :
    rank pages rootAddr x ≤ rank pages rootAddr y :=
  List.countP_mono_left fun kv _ hkv => by
    simp only [Comparison.before, decide_eq_true_eq] at hkv ⊢
    exact hkv.trans_le hxy

section Ranks

variable (h : WellShaped pages rootAddr) {j : Nat} {c : List (Key K × Message)}

include h

theorem countBefore_chunk (hc : (chunks pages rootAddr)[j]? = some c) (x : Key K) :
    countBefore .lessThan x c =
      min (rank pages rootAddr x - Lib.offset (chunks pages rootAddr) j) c.length := by
  have hiff : ∀ i, i < c.length →
      (i < countBefore .lessThan x c ↔
        Lib.offset (chunks pages rootAddr) j + i < rank pages rootAddr x) := by
    intro i hi
    have hget := Lib.getElem?_flatten hc hi
    rw [List.getElem?_eq_getElem hi] at hget
    rw [countBefore, ← (initial_before (h.chunk_ascending hc) .lessThan x).getElem_iff
      (List.getElem?_eq_getElem hi), (initial_before h.ascending .lessThan x).getElem_iff hget]
    rfl
  have hle := countBefore_le_length .lessThan x c
  have hlast := hiff (countBefore .lessThan x c - 1)
  have hnext := hiff (countBefore .lessThan x c)
  omega

theorem offset_le_rank {entries : List (Key K × Message)}
    (hc : (chunks pages rootAddr)[j]? = some entries) {kv : Key K × Message}
    (hfirst : entries[0]? = some kv) {x : Key K} (hle : kv.1 ≤ x) :
    Lib.offset (chunks pages rootAddr) j ≤ rank pages rootAddr x := by
  by_contra hcon
  obtain ⟨hpos, -⟩ := List.getElem?_eq_some_iff.mp hfirst
  have hget := Lib.getElem?_flatten hc hpos
  rw [hfirst, Nat.add_zero, ← contents] at hget
  obtain ⟨hlt, hkv⟩ := List.getElem?_eq_some_iff.mp hget
  have hlen : Lib.offset (chunks pages rootAddr) j - 1 < (contents pages rootAddr).length := by
    omega
  -- The entry just before the leaf would not be below `x`, but its key is below the first one.
  have hbefore := List.pairwise_iff_getElem.mp h.ascending
    (Lib.offset (chunks pages rootAddr) j - 1) _ hlen hlt (by omega)
  rw [hkv] at hbefore
  have hrank := mt ((initial_before h.ascending .lessThan x).getElem_iff
    (List.getElem?_eq_getElem hlen)).mp (by change ¬ _ < rank pages rootAddr x; omega)
  simp only [Comparison.before, decide_eq_true_eq] at hrank
  exact hrank (hbefore.trans_le hle)

end Ranks

theorem findTuple_eq {hdr : Node K} (hsorted : hdr.entries.Pairwise fun x y => x.1 < y.1) (x : Key K) :
    findTuple hdr x = ((countBefore .greaterThan x hdr.entries : Int) - 1,
      decide (countBefore .lessThan x hdr.entries < countBefore .greaterThan x hdr.entries)) := by
  rw [findTuple, findKey_eq (List.pairwise_map.mpr hsorted), List.countP_map, List.countP_map]
  rfl

theorem adjust_findTuple {hdr : Node K} (hsorted : hdr.entries.Pairwise fun x y => x.1 < y.1)
    (x : Key K) (rule : Comparison) :
    rule.adjust (findTuple hdr x).1 (findTuple hdr x).2 =
      (countBefore rule x hdr.entries : Int) - rule.back := by
  have hle := countP_le_le (List.pairwise_map.mpr hsorted) x
  rw [List.countP_map, List.countP_map] at hle
  change countBefore .greaterThan x hdr.entries ≤ countBefore .lessThan x hdr.entries + 1 at hle
  have hmono : countBefore .lessThan x hdr.entries ≤ countBefore .greaterThan x hdr.entries :=
    List.countP_mono_left fun kv _ hkv => by
      simp only [Comparison.before, decide_eq_true_eq] at hkv ⊢
      exact hkv.le
  have hge : countBefore .greaterThanOrEqual x hdr.entries = countBefore .lessThan x hdr.entries := rfl
  have hleq : countBefore .lessThanOrEqual x hdr.entries = countBefore .greaterThan x hdr.entries := rfl
  rw [findTuple_eq hsorted]
  cases rule <;> simp only [Comparison.adjust, Comparison.back, decide_eq_true_eq, hge, hleq] <;>
    omega

namespace Iterator

/-! ## Positions -/

/-- The registers that stay as they are while the iterator moves: the bounds of the range and
the place where it ends, which is in leaf `e`. -/
structure Bounded (pages : Nat → Node K) (rootAddr : Nat) (minKey maxKey : Key K) (e : Nat)
    (itor : Iterator K) : Prop where
  height : itor.height = 0
  minKey_eq : itor.minKey = minKey
  endsIn : EndsIn (chunks pages rootAddr) maxKey e
  endLeaf : (leaves pages rootAddr)[e]? = some itor.endAddr
  endIdx : itor.endIdx =
    (rank pages rootAddr maxKey : Int) - Lib.offset (chunks pages rootAddr) e
  generation : itor.endGeneration = (pages itor.endAddr).generation

/-- The iterator stands in leaf `j` at the entry of rank `g`, or next to the range. -/
structure AtRank (pages : Nat → Node K) (rootAddr : Nat) (minKey maxKey : Key K) (e j : Nat) (g : Int)
    (itor : Iterator K) : Prop extends Bounded pages rootAddr minKey maxKey e itor where
  leaf : (leaves pages rootAddr)[j]? = some itor.curr
  rank_eq : g = Lib.offset (chunks pages rootAddr) j + itor.idx
  le_end : j ≤ e
  /-- Only in the last leaf of the range may the index be past the entries. -/
  inLeaf : j < e → itor.idx < (pages itor.curr).entries.length
  lower : (rank pages rootAddr minKey : Int) - 1 ≤ g
  upper : g ≤ rank pages rootAddr maxKey
  /-- Either the range begins in an earlier leaf, or `curr_min_idx` is where it begins. -/
  minIdx : (itor.currMinIdx = -1 ∧ 0 < j ∧ 0 ≤ itor.idx ∧
      rank pages rootAddr minKey ≤ Lib.offset (chunks pages rootAddr) j) ∨
    (0 ≤ itor.currMinIdx ∧
      itor.currMinIdx = (rank pages rootAddr minKey : Int) - Lib.offset (chunks pages rootAddr) j)

section Moves

variable {minKey maxKey : Key K} {e j k : Nat} {g : Int} {itor : Iterator K}

theorem Bounded.endIdx_bounds (hat : Bounded pages rootAddr minKey maxKey e itor) :
    0 ≤ itor.endIdx ∧ itor.endIdx ≤ (pages itor.endAddr).entries.length := by
  have hrank := hat.endsIn.countBefore_eq (chunk_of_leaf hat.endLeaf) .lessThan
  have hle := countBefore_le_length .lessThan maxKey (pages itor.endAddr).entries
  have hend := hat.endIdx
  rw [rank, hrank] at hend
  omega

theorem Bounded.move (hat : Bounded pages rootAddr minKey maxKey e itor) (curr : Nat)
    (idx currMinIdx : Int) :
    Bounded pages rootAddr minKey maxKey e
      { itor with curr := curr, idx := idx, currMinIdx := currMinIdx } :=
  ⟨hat.height, hat.minKey_eq, hat.endsIn, hat.endLeaf, hat.endIdx, hat.generation⟩

theorem Bounded.nextLeaf_eq (h : WellShaped pages rootAddr)
    (hat : Bounded pages rootAddr minKey maxKey e itor)
    (hleaf : (leaves pages rootAddr)[j]? = some itor.curr) (hlt : j < e) (fuel : Nat) :
    ∃ addr, (leaves pages rootAddr)[j + 1]? = some addr ∧
      itor.nextLeaf pages fuel = some { itor with curr := addr, idx := 0, currMinIdx := -1 } := by
  obtain ⟨hlen, -⟩ := List.getElem?_eq_some_iff.mp hat.endLeaf
  have hnext := h.linked.nextAddr hleaf
  rw [List.getElem?_eq_getElem (by omega), Option.getD_some] at hnext
  refine ⟨_, List.getElem?_eq_getElem (by omega), ?_⟩
  rw [nextLeaf, hnext]
  refine whileLoop_of_not ?_ _ fuel
  -- The end was computed for the page as it is, so its generation is the page's.
  simp only [Bool.and_eq_false_iff, beq_eq_false_iff_ne, bne_eq_false_iff_eq, ne_eq]
  by_cases heq : (leaves pages rootAddr)[j + 1] = itor.endAddr
  · exact Or.inr (heq ▸ hat.generation.symm)
  · exact Or.inl heq

/-- `btree_iterator_prev_leaf` goes to the last entry of the previous leaf, and finds out where
in that leaf the range begins. -/
theorem Bounded.prevLeaf_eq (h : WellShaped pages rootAddr)
    (hat : Bounded pages rootAddr minKey maxKey e itor)
    (hleaf : (leaves pages rootAddr)[j]? = some itor.curr) (hpos : 0 < j)
    (hoff : rank pages rootAddr minKey ≤ Lib.offset (chunks pages rootAddr) j) (fuel : Nat) :
    ∃ addr m, (leaves pages rootAddr)[j - 1]? = some addr ∧
      itor.prevLeaf pages fuel = some { itor with
        curr := addr, idx := (pages addr).entries.length - 1, currMinIdx := m } ∧
      ((m = -1 ∧ 0 < j - 1 ∧
          rank pages rootAddr minKey ≤ Lib.offset (chunks pages rootAddr) (j - 1)) ∨
        (0 ≤ m ∧
          m = (rank pages rootAddr minKey : Int) - Lib.offset (chunks pages rootAddr) (j - 1))) := by
  obtain rfl := hat.minKey_eq
  have hsucc : j - 1 + 1 = j := by omega
  obtain ⟨hlen, -⟩ := List.getElem?_eq_some_iff.mp hleaf
  obtain ⟨addr, haddr⟩ : ∃ addr, (leaves pages rootAddr)[j - 1]? = some addr :=
    ⟨_, List.getElem?_eq_getElem (by omega)⟩
  have hprevAddr : (pages itor.curr).prevAddr = addr := by
    rw [h.linked.prevAddr hleaf, if_neg (by omega), haddr, Option.getD_some]
  have hnextAddr : (pages addr).nextAddr = itor.curr := by
    rw [h.linked.nextAddr haddr, hsucc, hleaf, Option.getD_some]
  have hnonempty := h.leaf_nonempty (i := j) (by omega) hlen haddr
  have hchunk := chunk_of_leaf haddr
  have hstart := Lib.offset_succ hchunk
  have hcount := countBefore_chunk h hchunk itor.minKey
  rw [hsucc] at hstart
  obtain ⟨first, hfirst⟩ : ∃ first, (pages addr).entries[0]? = some first :=
    ⟨_, List.getElem?_eq_getElem hnonempty⟩
  have hwalk : whileLoop (fun addr => (pages addr).nextAddr != itor.curr)
      (fun addr => (pages addr).nextAddr) fuel (pages itor.curr).prevAddr = some addr := by
    rw [hprevAddr]
    exact whileLoop_of_not (by simp [hnextAddr]) _ fuel
  have hkey : itor.firstKey (pages addr) = some first.1 := by
    rw [firstKey, if_pos hat.height, List.head?_eq_getElem?, hfirst]
    rfl
  have hfound : (if (findTuple (pages addr) itor.minKey).2 = true
      then (findTuple (pages addr) itor.minKey).1 else (findTuple (pages addr) itor.minKey).1 + 1) =
      (countBefore .lessThan itor.minKey (pages addr).entries : Int) :=
    (adjust_findTuple (h.chunk_ascending hchunk) itor.minKey .greaterThanOrEqual).trans
      (Int.sub_zero _)
  simp only [prevLeaf, hwalk, hkey, if_pos hat.height, h.leaf_numEntries haddr, hfound,
    Option.bind_eq_bind, Option.bind_some, Option.pure_def]
  refine ⟨addr, _, haddr, rfl, ?_⟩
  by_cases hbelow : itor.minKey < first.1
  · -- The whole leaf lies in the range.
    have hzero : countBefore .lessThan itor.minKey (pages addr).entries = 0 := by
      have hiff := (initial_before (h.chunk_ascending hchunk) .lessThan itor.minKey).getElem_iff hfirst
      simp only [Comparison.before, decide_eq_true_eq] at hiff
      exact Nat.eq_zero_of_not_pos fun hcon => lt_asymm hbelow (hiff.mpr hcon)
    simp only [hbelow, if_true]
    by_cases hzeroth : j - 1 = 0
    · rw [if_pos ⟨by rw [h.linked.prevAddr haddr, if_pos hzeroth], trivial⟩]
      rw [hzeroth, Lib.offset_zero] at hcount ⊢
      omega
    · rw [if_neg]
      · exact Or.inl ⟨rfl, by omega, by omega⟩
      · rintro ⟨hcon, -⟩
        obtain ⟨prev, hprev⟩ : ∃ prev, (leaves pages rootAddr)[j - 1 - 1]? = some prev :=
          ⟨_, List.getElem?_eq_getElem (by omega)⟩
        rw [h.linked.prevAddr haddr, if_neg hzeroth, hprev, Option.getD_some] at hcon
        exact h.ne_zero_of_getElem hprev hcon
  · have hrank := offset_le_rank h hchunk hfirst (not_lt.mp hbelow)
    simp only [hbelow, if_false]
    rw [if_neg (by omega)]
    exact Or.inr (by omega)

theorem Bounded.nextLeaf_atRank (h : WellShaped pages rootAddr)
    (hat : Bounded pages rootAddr minKey maxKey e itor)
    (hleaf : (leaves pages rootAddr)[j]? = some itor.curr) (hlt : j < e)
    (hoff : rank pages rootAddr minKey ≤ Lib.offset (chunks pages rootAddr) (j + 1)) (fuel : Nat) :
    ∃ itor', itor.nextLeaf pages fuel = some itor' ∧ itor'.idx = 0 ∧
      AtRank pages rootAddr minKey maxKey e (j + 1) (Lib.offset (chunks pages rootAddr) (j + 1))
        itor' := by
  obtain ⟨addr, haddr, hnext⟩ := hat.nextLeaf_eq h hleaf hlt fuel
  have hend := hat.endIdx_bounds.1
  have hmono : Lib.offset (chunks pages rootAddr) (j + 1) ≤ Lib.offset (chunks pages rootAddr) e :=
    Lib.offset_le_of_le _ hlt
  rw [hat.endIdx] at hend
  refine ⟨_, hnext, rfl, ⟨hat.move addr 0 (-1), haddr, (Int.add_zero _).symm, hlt, ?_, ?_, ?_,
    Or.inl ⟨rfl, Nat.succ_pos j, le_refl _, hoff⟩⟩⟩
  · intro hlt'
    have hpos := h.leaf_nonempty hlt'.ne' (List.getElem?_eq_some_iff.mp hat.endLeaf).1 haddr
    exact Int.natCast_pos.mpr hpos
  · omega
  · omega

theorem Bounded.prevLeaf_atRank (h : WellShaped pages rootAddr)
    (hat : Bounded pages rootAddr minKey maxKey e itor)
    (hleaf : (leaves pages rootAddr)[j]? = some itor.curr) (hpos : 0 < j) (hle : j ≤ e)
    (hoff : rank pages rootAddr minKey ≤ Lib.offset (chunks pages rootAddr) j) (fuel : Nat) :
    ∃ itor', itor.prevLeaf pages fuel = some itor' ∧
      AtRank pages rootAddr minKey maxKey e (j - 1) (Lib.offset (chunks pages rootAddr) j - 1)
        itor' := by
  obtain ⟨addr, m, haddr, hprev, hmin⟩ := hat.prevLeaf_eq h hleaf hpos hoff fuel
  have hsucc : j - 1 + 1 = j := by omega
  have hstart := Lib.offset_succ (chunk_of_leaf haddr)
  have hlen := h.leaf_nonempty (i := j) (by omega) (List.getElem?_eq_some_iff.mp hleaf).1 haddr
  have hend := hat.endIdx_bounds.1
  have hmono := Lib.offset_le_of_le (chunks pages rootAddr) hle
  rw [hsucc] at hstart
  rw [hat.endIdx] at hend
  refine ⟨_, hprev, ⟨hat.move addr _ m, haddr, ?_, by omega, fun _ => ?_, by omega, by omega, ?_⟩⟩
  · change (Lib.offset (chunks pages rootAddr) j : Int) - 1 =
      Lib.offset (chunks pages rootAddr) (j - 1) + ((pages addr).entries.length - 1)
    omega
  · change ((pages addr).entries.length - 1 : Int) < (pages addr).entries.length
    omega
  · rcases hmin with ⟨hmark, hpos', hoff'⟩ | hidx
    · refine Or.inl ⟨hmark, hpos', ?_, hoff'⟩
      change (0 : Int) ≤ (pages addr).entries.length - 1
      omega
    · exact Or.inr hidx

namespace AtRank

variable (h : WellShaped pages rootAddr) (hat : AtRank pages rootAddr minKey maxKey e j g itor)

include h hat

theorem curr_eq_end_iff : itor.curr = itor.endAddr ↔ j = e := by
  constructor
  · intro heq
    exact h.leaf_injective hat.leaf (heq ▸ hat.endLeaf)
  · rintro rfl
    have hleaf := hat.leaf
    rw [hat.endLeaf] at hleaf
    exact (Option.some.inj hleaf).symm

theorem idx_le : itor.idx ≤ (pages itor.curr).entries.length := by
  by_cases hlt : j < e
  · exact (hat.inLeaf hlt).le
  · obtain rfl : j = e := le_antisymm hat.le_end (not_lt.mp hlt)
    have hcurr := (hat.curr_eq_end_iff h).mpr rfl
    have hend := hat.toBounded.endIdx_bounds
    have hrank := hat.rank_eq
    have hupper := hat.upper
    have hidx := hat.endIdx
    rw [hcurr]
    omega

omit h in
theorem lt_end_rank (hlt : j < e) : g < rank pages rootAddr maxKey := by
  have hrank := hat.rank_eq
  have hidx := hat.inLeaf hlt
  have hoff := Lib.offset_succ (chunk_of_leaf hat.leaf)
  have hmono := Lib.offset_le_of_le (chunks pages rootAddr) (Nat.succ_le_of_lt hlt)
  have hend := hat.toBounded.endIdx_bounds.1
  rw [hat.endIdx] at hend
  rw [Nat.succ_eq_add_one, hoff] at hmono
  omega

theorem canNext_iff (hne : rank pages rootAddr minKey < rank pages rootAddr maxKey) :
    itor.canNext = true ↔ g < rank pages rootAddr maxKey := by
  have hcurr := hat.curr_eq_end_iff h
  have hrank := hat.rank_eq
  have hend := hat.endIdx
  have hmin := hat.minIdx
  have hbounds := hat.toBounded.endIdx_bounds.1
  simp only [canNext, Bool.or_eq_true, Bool.and_eq_true, bne_iff_ne, ne_eq, decide_eq_true_eq, hcurr]
  by_cases hj : j = e
  · subst hj
    omega
  · have hlt := hat.lt_end_rank (lt_of_le_of_ne hat.le_end hj)
    simp [hj, hlt]

theorem canPrev_iff (hne : rank pages rootAddr minKey < rank pages rootAddr maxKey) :
    itor.canPrev = true ↔ (rank pages rootAddr minKey : Int) ≤ g := by
  have hcurr := hat.curr_eq_end_iff h
  have hrank := hat.rank_eq
  have hend := hat.endIdx
  have hmin := hat.minIdx
  have hbounds := hat.toBounded.endIdx_bounds.1
  simp only [canPrev, Bool.or_eq_true, Bool.and_eq_true, bne_iff_ne, ne_eq, decide_eq_true_eq, hcurr]
  by_cases hj : j = e
  · subst hj
    omega
  · simp only [hj, not_false_eq_true, or_true, and_true]
    omega

theorem curr_eq (hlow : (rank pages rootAddr minKey : Int) ≤ g)
    (hupp : g < rank pages rootAddr maxKey) :
    itor.curr? pages = (contents pages rootAddr)[g.toNat]? := by
  have hrank := hat.rank_eq
  have hmin := hat.minIdx
  have hidx : 0 ≤ itor.idx := by omega
  have hlen : itor.idx < (pages itor.curr).entries.length := by
    by_cases hlt : j < e
    · exact hat.inLeaf hlt
    · obtain rfl : j = e := le_antisymm hat.le_end (not_lt.mp hlt)
      have hcurr := (hat.curr_eq_end_iff h).mpr rfl
      have hend := hat.toBounded.endIdx_bounds
      have hendIdx := hat.endIdx
      rw [hcurr]
      omega
  have hat' : g.toNat = Lib.offset (chunks pages rootAddr) j + itor.idx.toNat := by omega
  rw [curr?, if_neg (by omega), if_pos (h.leaf_height hat.leaf), hat', contents,
    Lib.getElem?_flatten (chunk_of_leaf hat.leaf) (by omega)]

omit h in
theorem setIdx {idx g' : Int} (hrank : g' - g = idx - itor.idx)
    (hleaf : j < e → idx < (pages itor.curr).entries.length)
    (hlower : (rank pages rootAddr minKey : Int) - 1 ≤ g') (hupper : g' ≤ rank pages rootAddr maxKey)
    (hmin : itor.currMinIdx = -1 → 0 ≤ idx) :
    AtRank pages rootAddr minKey maxKey e j g' { itor with idx := idx } := by
  have hold := hat.rank_eq
  refine ⟨hat.toBounded.move itor.curr idx itor.currMinIdx, hat.leaf, ?_, hat.le_end, hleaf, hlower,
    hupper, ?_⟩
  · change g' = Lib.offset (chunks pages rootAddr) j + idx
    omega
  · rcases hat.minIdx with ⟨hmark, hpos, -, hoff⟩ | hidx
    · exact Or.inl ⟨hmark, hpos, hmin hmark, hoff⟩
    · exact Or.inr hidx

theorem next (hupp : g < rank pages rootAddr maxKey) (fuel : Nat) :
    ∃ j' itor', itor.next pages fuel = some itor' ∧
      AtRank pages rootAddr minKey maxKey e j' (g + 1) itor' := by
  have hrank := hat.rank_eq
  have hlower := hat.lower
  have hmin := hat.minIdx
  have hidx := hat.idx_le h
  have hbounded := hat.toBounded.move itor.curr (itor.idx + 1) itor.currMinIdx
  rw [Iterator.next]
  simp only [h.leaf_numEntries hat.leaf]
  by_cases hlt : j < e
  · by_cases hlast : itor.idx + 1 = (pages itor.curr).entries.length
    · have hne : itor.curr ≠ itor.endAddr := fun heq => hlt.ne ((hat.curr_eq_end_iff h).mp heq)
      have hoff := Lib.offset_succ (chunk_of_leaf hat.leaf)
      obtain ⟨itor', hnext, -, hat'⟩ := hbounded.nextLeaf_atRank h hat.leaf hlt (by omega) fuel
      have hg : ((Lib.offset (chunks pages rootAddr) (j + 1) : Nat) : Int) = g + 1 := by omega
      rw [if_pos ⟨hlast, by simp [canNext, hne]⟩]
      exact ⟨j + 1, itor', hnext, hg ▸ hat'⟩
    · have hinside := hat.inLeaf hlt
      rw [if_neg (fun hcon => hlast hcon.1)]
      exact ⟨j, _, rfl, hat.setIdx (by omega) (fun _ => by omega) (by omega) (by omega)
        (fun _ => by omega)⟩
  · obtain rfl : j = e := le_antisymm hat.le_end (not_lt.mp hlt)
    have hcurr := (hat.curr_eq_end_iff h).mpr rfl
    have hend := hat.toBounded.endIdx_bounds
    have hendIdx := hat.endIdx
    rw [if_neg]
    · exact ⟨j, _, rfl, hat.setIdx (by omega) (fun hcon => absurd hcon hlt) (by omega) (by omega)
        (fun _ => by omega)⟩
    · rintro ⟨hlast, hcan⟩
      simp only [canNext, hcurr, bne_self_eq_false, Bool.false_or, Bool.and_eq_true,
        decide_eq_true_eq] at hcan
      rw [hcurr] at hlast
      omega

theorem prev (hlow : (rank pages rootAddr minKey : Int) ≤ g) (fuel : Nat) :
    ∃ j' itor', itor.prev pages fuel = some itor' ∧
      AtRank pages rootAddr minKey maxKey e j' (g - 1) itor' := by
  have hrank := hat.rank_eq
  have hupper := hat.upper
  have hmin := hat.minIdx
  have hidx := hat.idx_le h
  have hbounded := hat.toBounded.move itor.curr (itor.idx - 1) itor.currMinIdx
  rw [Iterator.prev]
  by_cases hcross : itor.currMinIdx = -1 ∧ itor.idx - 1 = -1
  · rw [if_pos hcross]
    obtain ⟨-, hpos, -, hoff⟩ | hcon := hmin
    · obtain ⟨itor', hprev, hat'⟩ := hbounded.prevLeaf_atRank h hat.leaf hpos hat.le_end hoff fuel
      have hg : (Lib.offset (chunks pages rootAddr) j : Int) - 1 = g - 1 := by omega
      exact ⟨j - 1, itor', hprev, hg ▸ hat'⟩
    · omega
  · rw [if_neg hcross]
    refine ⟨j, _, rfl, hat.setIdx (by omega) (fun hlt => ?_) (by omega) (by omega)
      (fun _ => by omega)⟩
    have := hat.inLeaf hlt
    omega

end AtRank
end Moves

end Iterator
end Btree
end TreePass
