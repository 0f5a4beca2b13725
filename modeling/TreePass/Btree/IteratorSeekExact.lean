import TreePass.Btree.IteratorSeek

/-!
# Which seeks are like a new iterator

The registers of every iterator that was opened and then moved and sought with in any way:
`InLeaf` holds after each of these, also after a seek that went wrong.  On the fast path the leaf
is the one a new iterator would look up, and the index is its index; what may differ is
`curr_min_idx`, which the fast path keeps from the past.
-/

namespace TreePass
namespace Btree

variable {K : Type} [LinearOrder K] {pages : Nat → Node K} {fuel rootAddr : Nat}
  {minKey maxKey target seekKey : Key K} {seekType : Comparison} {e j : Nat} {itor : Iterator K}

namespace Iterator

/-- The registers of an iterator over `[minKey, maxKey)` in leaf `j`, whatever its index.  The
third case of `minIdx` is an iterator that came from a leaf it took for irrelevant. -/
structure InLeaf (pages : Nat → Node K) (rootAddr : Nat) (minKey maxKey : Key K) (e j : Nat)
    (itor : Iterator K) : Prop extends Bounded pages rootAddr minKey maxKey e itor where
  rootAddr_eq : itor.rootAddr = rootAddr
  maxKey_eq : itor.maxKey = maxKey
  end_eq : itor.endAddr = lookupNode pages rootAddr maxKey 0
  leaf : (leaves pages rootAddr)[j]? = some itor.curr
  le_end : j ≤ e
  reaches : rank pages rootAddr minKey ≤
    Lib.offset (chunks pages rootAddr) j + (pages itor.curr).entries.length
  minIdx : (itor.currMinIdx = -1 ∧ 0 < j ∧
      rank pages rootAddr minKey ≤ Lib.offset (chunks pages rootAddr) j) ∨
    (0 ≤ itor.currMinIdx ∧
      itor.currMinIdx = (rank pages rootAddr minKey : Int) - Lib.offset (chunks pages rootAddr) j) ∨
    (itor.currMinIdx = 0 ∧ 0 < j ∧
      rank pages rootAddr minKey < Lib.offset (chunks pages rootAddr) j)

namespace InLeaf

variable (h : WellShaped pages rootAddr)

theorem setIdx (hat : InLeaf pages rootAddr minKey maxKey e j itor) (idx : Int) :
    InLeaf pages rootAddr minKey maxKey e j { itor with idx := idx } :=
  ⟨hat.toBounded.move itor.curr idx itor.currMinIdx, hat.rootAddr_eq, hat.maxKey_eq, hat.end_eq,
    hat.leaf, hat.le_end, hat.reaches, hat.minIdx⟩

include h

theorem curr_eq_end_iff (hat : InLeaf pages rootAddr minKey maxKey e j itor) :
    itor.curr = itor.endAddr ↔ j = e := by
  constructor
  · intro heq
    exact h.leaf_injective hat.leaf (heq ▸ hat.endLeaf)
  · rintro rfl
    have hleaf := hat.leaf
    rw [hat.endLeaf] at hleaf
    exact (Option.some.inj hleaf).symm

theorem nextLeaf (hat : InLeaf pages rootAddr minKey maxKey e j itor)
    (hne : itor.curr ≠ itor.endAddr) (fuel : Nat) :
    ∃ itor', itor.nextLeaf pages fuel = some itor' ∧ itor'.idx = 0 ∧
      InLeaf pages rootAddr minKey maxKey e (j + 1) itor' ∧
      InLeaf pages rootAddr minKey maxKey e (j + 1) { itor' with currMinIdx := 0 } := by
  have hlt : j < e := lt_of_le_of_ne hat.le_end (mt (hat.curr_eq_end_iff h).mpr hne)
  obtain ⟨addr, haddr, hnext⟩ := hat.toBounded.nextLeaf_eq h hat.leaf hlt fuel
  have hoff := Lib.offset_succ (chunk_of_leaf hat.leaf)
  have hreach := hat.reaches
  refine ⟨_, hnext, rfl, ⟨hat.toBounded.move addr 0 (-1), hat.rootAddr_eq, hat.maxKey_eq, hat.end_eq,
    haddr, hlt, ?_, Or.inl ⟨rfl, Nat.succ_pos j, ?_⟩⟩, ⟨hat.toBounded.move addr 0 0, hat.rootAddr_eq,
    hat.maxKey_eq, hat.end_eq, haddr, hlt, ?_, Or.inr ?_⟩⟩
  · omega
  · omega
  · change rank pages rootAddr minKey ≤
      Lib.offset (chunks pages rootAddr) (j + 1) + (pages addr).entries.length
    omega
  · change (0 ≤ (0 : Int) ∧ (0 : Int) = _) ∨ ((0 : Int) = 0 ∧ _)
    omega

theorem prevLeaf (hat : InLeaf pages rootAddr minKey maxKey e j itor)
    (hmark : itor.currMinIdx = -1) (fuel : Nat) :
    ∃ itor', itor.prevLeaf pages fuel = some itor' ∧
      InLeaf pages rootAddr minKey maxKey e (j - 1) itor' := by
  obtain ⟨hpos, hoff⟩ : 0 < j ∧ rank pages rootAddr minKey ≤ Lib.offset (chunks pages rootAddr) j := by
    have hmin := hat.minIdx
    omega
  obtain ⟨addr, m, haddr, hprev, hmin⟩ := hat.toBounded.prevLeaf_eq h hat.leaf hpos hoff fuel
  have hstart := Lib.offset_succ (chunk_of_leaf haddr)
  have hsucc : j - 1 + 1 = j := by omega
  rw [hsucc] at hstart
  refine ⟨_, hprev, ⟨hat.toBounded.move addr _ m, hat.rootAddr_eq, hat.maxKey_eq, hat.end_eq, haddr,
    (Nat.sub_le j 1).trans hat.le_end, ?_, ?_⟩⟩
  · change rank pages rootAddr minKey ≤
      Lib.offset (chunks pages rootAddr) (j - 1) + (pages addr).entries.length
    omega
  · rcases hmin with hmin | hmin
    · exact Or.inl hmin
    · exact Or.inr (Or.inl hmin)

theorem move (hat : InLeaf pages rootAddr minKey maxKey e j itor) {forwards : Bool}
    {itor' : Iterator K} (hmove : iteratorMove pages fuel itor forwards = some itor') :
    ∃ j', InLeaf pages rootAddr minKey maxKey e j' itor' := by
  cases forwards with
  | true =>
      rw [iteratorMove, if_pos rfl] at hmove
      split at hmove
      · rw [next] at hmove
        split at hmove
        · rename_i hcond
          obtain ⟨hidx, hcan⟩ := hcond
          have hne : itor.curr ≠ itor.endAddr := by
            intro heq
            have hend := hat.toBounded.endIdx_bounds
            rw [heq, h.leaf_numEntries hat.endLeaf] at hidx
            simp only [canNext, heq, bne_self_eq_false, Bool.false_or, Bool.and_eq_true,
              decide_eq_true_eq] at hcan
            omega
          obtain ⟨itor'', hnext, -, hat', -⟩ := (hat.setIdx (itor.idx + 1)).nextLeaf h hne fuel
          obtain rfl := Option.some.inj (hnext.symm.trans hmove)
          exact ⟨_, hat'⟩
        · obtain rfl := Option.some.inj hmove
          exact ⟨j, hat.setIdx _⟩
      · cases hmove
  | false =>
      rw [iteratorMove, if_neg Bool.false_ne_true] at hmove
      split at hmove
      · simp only [prev] at hmove
        split at hmove
        · rename_i hcond
          obtain ⟨itor'', hprev, hat'⟩ := (hat.setIdx (itor.idx - 1)).prevLeaf h hcond.1 fuel
          obtain rfl := Option.some.inj (hprev.symm.trans hmove)
          exact ⟨_, hat'⟩
        · obtain rfl := Option.some.inj hmove
          exact ⟨j, hat.setIdx _⟩
      · cases hmove

theorem moveToNeighbour (hat : InLeaf pages rootAddr minKey maxKey e j itor) {itor' : Iterator K}
    (hmove : itor.moveToNeighbour pages fuel = some itor') :
    ∃ j', InLeaf pages rootAddr minKey maxKey e j' itor' := by
  by_cases hnext : itor.curr ≠ itor.endAddr ∧ itor.idx = (pages itor.curr).entries.length
  · obtain ⟨hne, hidx⟩ := hnext
    obtain ⟨itor'', hnext, -, -, hat'⟩ := hat.nextLeaf h hne fuel
    rw [moveToNeighbour_next h hat.leaf hne hidx hnext] at hmove
    obtain rfl := Option.some.inj hmove
    exact ⟨_, hat'⟩
  · by_cases hprev : itor.currMinIdx = -1 ∧ itor.idx = -1
    · obtain ⟨itor'', hprev', hat'⟩ := hat.prevLeaf h hprev.1 fuel
      rw [moveToNeighbour_prev h hat.leaf hprev, hprev'] at hmove
      obtain rfl := Option.some.inj hmove
      exact ⟨_, hat'⟩
    · rw [moveToNeighbour_stay h hat.leaf (fun hne hidx => hnext ⟨hne, hidx⟩) hprev] at hmove
      obtain rfl := Option.some.inj hmove
      exact ⟨j, hat⟩

end InLeaf

theorem Start.inLeaf (hs : Start pages rootAddr minKey maxKey target seekType e j itor)
    (hroot : itor.rootAddr = rootAddr) (hmax : itor.maxKey = maxKey) (hle : minKey ≤ target) :
    InLeaf pages rootAddr minKey maxKey e j itor := by
  refine ⟨hs.toBounded, hroot, hmax, hs.end_eq, hs.leaf, hs.le_end, ?_, ?_⟩
  · have hmono := rank_mono pages rootAddr hle
    have hrank := hs.endsIn_target.countBefore_eq (chunk_of_leaf hs.leaf) .lessThan
    have hcount := countBefore_le_length .lessThan target (pages itor.curr).entries
    simp only [rank] at hmono ⊢
    omega
  · rcases hs.minIdx with ⟨hmark, hpos, -, -, hoff⟩ | ⟨-, hmin⟩
    · exact Or.inl ⟨hmark, hpos, hoff⟩
    · exact Or.inr (Or.inl hmin)

end Iterator

/-! ## The iterators over a range -/

/-- An iterator over `[minKey, maxKey)`, opened and then used in any way. -/
structure HeldIterator.Opened (pages : Nat → Node K) (rootAddr : Nat) (minKey maxKey : Key K)
    (it : HeldIterator K) : Prop where
  le : minKey ≤ maxKey
  held_ne_nil : it.held ≠ []
  inLeaf : ∃ e j, Iterator.InLeaf pages rootAddr minKey maxKey e j it.itor

theorem Iterator.init_upper (startKey : Key K) (startType : Comparison) :
    Iterator.init pages fuel rootAddr minKey maxKey startKey startType 0 =
      Iterator.init pages fuel rootAddr minKey (maxKey ⊔ minKey) startKey startType 0 := by
  rw [init, init]
  by_cases hlt : maxKey < minKey
  · rw [if_pos hlt, sup_eq_right.mpr hlt.le, if_neg (lt_irrefl minKey)]
  · rw [if_neg hlt, sup_eq_left.mpr (not_lt.mp hlt), if_neg hlt]

namespace HeldIterator

variable (h : WellShaped pages rootAddr) {it it' : HeldIterator K}

omit [LinearOrder K] in
theorem follow_itor (it : HeldIterator K) (itor : Iterator K) : (it.follow itor).itor = itor := by
  rw [follow]
  split <;> rfl

omit [LinearOrder K] in
theorem follow_held_ne_nil (hheld : it.held ≠ []) (itor : Iterator K) :
    (it.follow itor).held ≠ [] := by
  rw [follow]
  split
  · exact hheld
  · exact List.cons_ne_nil _ _

include h

theorem opened_of_init {startKey : Key K} {startType : Comparison}
    (hinit : HeldIterator.init pages fuel rootAddr minKey maxKey startKey startType = some it) :
    Opened pages rootAddr minKey (maxKey ⊔ minKey) it := by
  obtain ⟨itor, hitor, rfl⟩ := Option.map_eq_some_iff.mp hinit
  have hle : minKey ≤ maxKey ⊔ minKey := le_sup_right
  rw [Iterator.init_upper] at hitor
  obtain ⟨e, j, base, hs, hroot, hmax, hmove⟩ := Iterator.init_start h hle fuel startKey startType
  rw [hmove] at hitor
  have hin := hs.inLeaf hroot hmax (Iterator.clampKey_bounds hle startKey).1
  exact ⟨hle, List.cons_ne_nil _ _, e, hin.moveToNeighbour h hitor⟩

theorem opened_of_slow {itor : Iterator K} (hit : Opened pages rootAddr minKey maxKey it)
    (hlow : minKey ≤ seekKey) (hupp : seekKey ≤ maxKey)
    (hfind : it.itor.findNodeAndGetIdxBounds pages fuel seekKey seekType = some itor)
    (hheld : it'.held ≠ []) (heq : it'.itor = itor) : Opened pages rootAddr minKey maxKey it' := by
  obtain ⟨hle, -, e, j, hin⟩ := hit
  have hlow' : it.itor.minKey ≤ seekKey := by rw [hin.minKey_eq]; exact hlow
  have hupp' : seekKey ≤ it.itor.maxKey := by rw [hin.maxKey_eq]; exact hupp
  obtain ⟨e', j', base, hs, hroot, hmax, hmove⟩ :=
    Iterator.findNode_start h it.itor hin.rootAddr_eq hin.height hlow' hupp' fuel
  rw [hin.minKey_eq, hin.maxKey_eq] at hs
  rw [hmove] at hfind
  have hbase := hs.inLeaf hroot (hmax.trans hin.maxKey_eq) hlow
  exact ⟨hle, hheld, e', heq ▸ hbase.moveToNeighbour h hfind⟩

theorem Opened.seek (hit : Opened pages rootAddr minKey maxKey it) {status : SeekStatus}
    (hseek : it.seek pages fuel seekKey seekType = some (status, it')) :
    Opened pages rootAddr minKey maxKey it' := by
  obtain ⟨hle, hheld, e, j, hin⟩ := id hit
  simp only [HeldIterator.seek] at hseek
  split at hseek
  · obtain ⟨-, rfl⟩ := Prod.mk.inj (Option.some.inj hseek)
    exact hit
  · rename_i hrange
    obtain ⟨hlow, hupp⟩ := not_or.mp hrange
    rw [not_lt, hin.minKey_eq] at hlow
    rw [not_lt, hin.maxKey_eq] at hupp
    simp only [Option.bind_eq_bind, Option.bind_eq_some_iff] at hseek
    obtain ⟨firstKey, -, lastKey, -, hseek⟩ := hseek
    split at hseek
    · rw [Iterator.findKeyInNode_of_height_zero hin.height] at hseek
      simp only at hseek
      split at hseek
      · obtain ⟨-, rfl⟩ := Prod.mk.inj (Option.some.inj hseek)
        exact ⟨hle, hheld, e, j, hin.setIdx _⟩
      · cases hseek
    · obtain ⟨itor, hfind, heq⟩ := Option.map_eq_some_iff.mp hseek
      obtain ⟨-, rfl⟩ := Prod.mk.inj heq
      exact opened_of_slow h hit hlow hupp hfind (List.cons_ne_nil _ _) rfl

theorem opened_of_reachable
    (hreach : (system pages fuel rootAddr minKey maxKey).Reachable it) :
    Opened pages rootAddr minKey (maxKey ⊔ minKey) it := by
  refine hreach.invariant (fun it hinit => ?_) (fun it a it' hit hstep => ?_)
  · obtain ⟨startKey, startType, hinit⟩ := hinit
    exact opened_of_init h hinit
  · change it.act pages fuel a = some it' at hstep
    cases a with
    | move forwards =>
        obtain ⟨itor, hmove, rfl⟩ := Option.map_eq_some_iff.mp hstep
        obtain ⟨hle, hheld, e, j, hin⟩ := hit
        exact ⟨hle, follow_held_ne_nil hheld itor, e, (follow_itor it itor).symm ▸ hin.move h hmove⟩
    | seek seekKey seekType =>
        obtain ⟨⟨status, it''⟩, hseek, rfl⟩ := Option.map_eq_some_iff.mp hstep
        exact hit.seek h hseek

end HeldIterator

/-! ## The fast path -/

section FastPath

variable {i : Nat} {first last : Key K × Message}

theorem leaf_eq_of_between {j' : Nat} {c : List (Key K × Message)}
    (hc : (chunks pages rootAddr)[j]? = some c) (hfirst : first ∈ c) (hlow : first.1 ≤ seekKey)
    (hlast : last ∈ c) (hupp : seekKey ≤ last.1)
    (hends : EndsIn (chunks pages rootAddr) seekKey j') : j' = j := by
  rcases lt_trichotomy j j' with hlt | heq | hgt
  · exact absurd (hends.before j c hlt hc last hlast) (not_lt.mpr hupp)
  · exact heq.symm
  · exact absurd (hends.after j c hgt hc first hfirst) (not_lt.mpr hlow)

theorem lt_maxKey_of_last (h : WellShaped pages rootAddr)
    (hat : Iterator.InLeaf pages rootAddr minKey maxKey e j itor)
    (hidx : itor.endIdx = i + 1) (hlast : (pages itor.curr).entries[i]? = some last) :
    last.1 < maxKey := by
  rcases hat.le_end.lt_or_eq with hlt | rfl
  · exact hat.endsIn.before j _ hlt (chunk_of_leaf hat.leaf) last (List.mem_of_getElem? hlast)
  · have hend := hat.endIdx
    have hcount := countBefore_chunk h (chunk_of_leaf hat.leaf) maxKey
    have hlen := (List.getElem?_eq_some_iff.mp hlast).1
    have hbelow := ((initial_before (h.chunk_ascending (chunk_of_leaf hat.leaf)) .lessThan
      maxKey).getElem_iff hlast).mpr (by change i < countBefore .lessThan maxKey _; omega)
    simpa only [Comparison.before, decide_eq_true_eq] using hbelow

theorem rank_lt_of_last (h : WellShaped pages rootAddr)
    (hat : Iterator.InLeaf pages rootAddr minKey maxKey e j itor)
    (hidx : itor.endIdx = i + 1) (hlast : (pages itor.curr).entries[i]? = some last)
    (hlow : minKey ≤ last.1) : rank pages rootAddr minKey < rank pages rootAddr maxKey := by
  have hlt := lt_maxKey_of_last h hat hidx hlast
  have hget := Lib.getElem?_flatten (chunk_of_leaf hat.leaf) (List.getElem?_eq_some_iff.mp hlast).1
  rw [hlast, ← contents] at hget
  have hmax := ((initial_before h.ascending .lessThan maxKey).getElem_iff hget).mp
    (by simpa [Comparison.before] using hlt)
  have hmin := mt ((initial_before h.ascending .lessThan minKey).getElem_iff hget).mpr
    (by simpa [Comparison.before] using hlow)
  change _ < rank pages rootAddr maxKey at hmax
  change ¬ _ < rank pages rootAddr minKey at hmin
  omega

/-- An iterator whose current leaf the seek key is in, as the fast path sees it. -/
structure Between (pages : Nat → Node K) (rootAddr : Nat) (minKey maxKey seekKey : Key K) (e j i : Nat)
    (first last : Key K × Message) (itor : Iterator K) : Prop
    extends Iterator.InLeaf pages rootAddr minKey maxKey e j itor where
  first_eq : (pages itor.curr).entries[0]? = some first
  first_le : first.1 ≤ seekKey
  endIdx_eq : itor.endIdx = i + 1
  last_eq : (pages itor.curr).entries[i]? = some last
  le_last : seekKey ≤ last.1
  min_le : minKey ≤ seekKey
  endsIn_seek : EndsIn (chunks pages rootAddr) seekKey j

def seekIdx (seekType : Comparison) (seekKey : Key K) (hdr : Node K) : Int :=
  (countBefore seekType seekKey hdr.entries : Int) - seekType.back

theorem Between.init_start (h : WellShaped pages rootAddr)
    (hb : Between pages rootAddr minKey maxKey seekKey e j i first last itor)
    (hle : minKey ≤ maxKey) (hupp : seekKey ≤ maxKey) (seekType : Comparison) (fuel : Nat) :
    ∃ base, Iterator.Start pages rootAddr minKey maxKey seekKey seekType e j base ∧
      base.curr = itor.curr ∧ base.endAddr = itor.endAddr ∧ base.endIdx = itor.endIdx ∧
      Iterator.init pages fuel rootAddr minKey maxKey seekKey seekType 0 =
        base.moveToNeighbour pages fuel := by
  obtain ⟨e', j', base, hs, -, -, hinit⟩ := Iterator.init_start h hle fuel seekKey seekType
  have hclamp : Iterator.clampKey minKey maxKey seekKey = seekKey := by
    rw [Iterator.clampKey, if_neg (not_lt.mpr hb.min_le)]
    exact if_neg (not_lt.mpr hupp)
  rw [hclamp] at hs
  have hend : base.endAddr = itor.endAddr := hs.end_eq.trans hb.end_eq.symm
  obtain rfl : e' = e := h.leaf_injective hs.endLeaf (hend ▸ hb.endLeaf)
  obtain rfl : j' = j := leaf_eq_of_between (chunk_of_leaf hb.leaf) (List.mem_of_getElem? hb.first_eq)
    hb.first_le (List.mem_of_getElem? hb.last_eq) hb.le_last hs.endsIn_target
  have hcurr : base.curr = itor.curr := Option.some.inj (hs.leaf.symm.trans hb.leaf)
  exact ⟨base, hs, hcurr, hend, hs.endIdx.trans hb.endIdx.symm, hinit⟩

theorem Between.seekIdx_nonneg_iff (h : WellShaped pages rootAddr)
    (hb : Between pages rootAddr minKey maxKey seekKey e j i first last itor)
    (seekType : Comparison) :
    0 ≤ seekIdx seekType seekKey (pages itor.curr) ↔ (seekType = .lessThan → first.1 ≠ seekKey) := by
  have hiff := (initial_before (h.chunk_ascending (chunk_of_leaf hb.leaf)) seekType
    seekKey).getElem_iff hb.first_eq
  change _ ↔ 0 < countBefore seekType seekKey (pages itor.curr).entries at hiff
  have hle := hb.first_le
  cases seekType with
  | lessThan =>
      simp only [Comparison.before, decide_eq_true_eq] at hiff
      simp only [seekIdx, Comparison.back, forall_const]
      rw [← hle.lt_iff_ne, hiff]
      omega
  | lessThanOrEqual =>
      simp only [Comparison.before, decide_eq_true_eq] at hiff
      have hpos := hiff.mp hle
      simp only [seekIdx, Comparison.back, reduceCtorEq, false_implies, iff_true]
      omega
  | greaterThanOrEqual => simp [seekIdx, Comparison.back]
  | greaterThan => simp [seekIdx, Comparison.back]

theorem Between.seekIdx_lt (hb : Between pages rootAddr minKey maxKey seekKey e j i first last itor)
    (hstays : seekType = .greaterThan → ∃ kv ∈ (pages itor.curr).entries, seekKey < kv.1) :
    seekIdx seekType seekKey (pages itor.curr) < (pages itor.curr).entries.length := by
  have hcount := countBefore_le_length seekType seekKey (pages itor.curr).entries
  have hpos := (List.getElem?_eq_some_iff.mp hb.first_eq).1
  have hsome : seekType.back = 0 →
      countBefore seekType seekKey (pages itor.curr).entries ≠ (pages itor.curr).entries.length := by
    intro hback hall
    have hall' := List.countP_eq_length.mp hall
    cases seekType with
    | lessThan => cases hback
    | lessThanOrEqual => cases hback
    | greaterThanOrEqual =>
        have hlt := hall' last (List.mem_of_getElem? hb.last_eq)
        simp only [Comparison.before, decide_eq_true_eq] at hlt
        exact absurd hb.le_last (not_le.mpr hlt)
    | greaterThan =>
        obtain ⟨kv, hkv, hgt⟩ := hstays rfl
        have hle := hall' kv hkv
        simp only [Comparison.before, decide_eq_true_eq] at hle
        exact absurd hgt (not_lt.mpr hle)
  rw [seekIdx]
  omega

theorem Between.atRank (h : WellShaped pages rootAddr)
    (hb : Between pages rootAddr minKey maxKey seekKey e j i first last itor) {itor' : Iterator K}
    (hat : Iterator.Bounded pages rootAddr minKey maxKey e itor') (hcurr : itor'.curr = itor.curr)
    (hidx : itor'.idx = seekIdx seekType seekKey (pages itor.curr)) (hnonneg : 0 ≤ itor'.idx)
    (hstays : seekType = .greaterThan → itor.curr ≠ itor.endAddr →
      ∃ kv ∈ (pages itor.curr).entries, seekKey < kv.1)
    (hmin : (itor'.currMinIdx = -1 ∧ 0 < j ∧
        rank pages rootAddr minKey ≤ Lib.offset (chunks pages rootAddr) j) ∨
      (0 ≤ itor'.currMinIdx ∧ itor'.currMinIdx =
        (rank pages rootAddr minKey : Int) - Lib.offset (chunks pages rootAddr) j)) :
    Iterator.AtRank pages rootAddr minKey maxKey e j
      (Lib.offset (chunks pages rootAddr) j + itor'.idx) itor' := by
  have hback : seekType.back ≤ 1 := by cases seekType <;> decide
  have hrank := hb.endsIn_seek.countBefore_eq (chunk_of_leaf hb.leaf) seekType
  have hlow := rank_le_countBefore pages rootAddr seekType seekKey
  have hmono := rank_mono pages rootAddr hb.min_le
  have hlt := lt_maxKey_of_last h hb.toInLeaf hb.endIdx_eq hb.last_eq
  have hupp := countBefore_le_rank pages rootAddr seekType (hb.le_last.trans_lt hlt)
  rw [seekIdx] at hidx
  refine ⟨hat, hcurr ▸ hb.leaf, rfl, hb.le_end, fun hlt => ?_, by omega, by omega, ?_⟩
  · have hne : itor.curr ≠ itor.endAddr := fun heq => by
      have := (hb.toInLeaf.curr_eq_end_iff h).mp heq
      omega
    have hin := hb.seekIdx_lt fun htype => hstays htype hne
    rw [seekIdx] at hin
    rw [hcurr]
    omega
  · rcases hmin with ⟨hmark, hpos, hoff⟩ | hmin
    · exact Or.inl ⟨hmark, hpos, hnonneg, hoff⟩
    · exact Or.inr hmin

theorem behavesAs_of_atRank (h : WellShaped pages rootAddr)
    (hne : rank pages rootAddr minKey < rank pages rootAddr maxKey) {g : Int}
    (hat : Iterator.AtRank pages rootAddr minKey maxKey e j g itor) (fuel : Nat) :
    ∃ c, BehavesAs pages fuel itor c ∧ 0 < c.items.length ∧
      c.pos = g - (rank pages rootAddr minKey : Int) ∧
      c.items = entriesIn pages rootAddr minKey maxKey := by
  have hlen := length_entriesIn h minKey maxKey
  have hlow := hat.lower
  have hupp := hat.upper
  let c : Lib.Cursor (Key K × Message) :=
    ⟨entriesIn pages rootAddr minKey maxKey, g - rank pages rootAddr minKey, by omega, by omega⟩
  have hpos : (rank pages rootAddr minKey : Int) + c.pos = g := by
    change (rank pages rootAddr minKey : Int) + (g - rank pages rootAddr minKey) = g
    omega
  have hstands : StandsAt pages rootAddr minKey maxKey itor c := ⟨rfl, e, j, hpos ▸ hat⟩
  exact ⟨c, hstands.behavesAs h hne fuel, by change 0 < (entriesIn ..).length; omega, rfl, rfl⟩

section Results

variable (h : WellShaped pages rootAddr)
  (hb : Between pages rootAddr minKey maxKey seekKey e j i first last itor)
  (hle : minKey ≤ maxKey) (hupp : seekKey ≤ maxKey)

include h hb hle hupp

theorem Between.init_atRank (hnonneg : 0 ≤ seekIdx seekType seekKey (pages itor.curr))
    (hstays : seekType = .greaterThan → itor.curr ≠ itor.endAddr →
      ∃ kv ∈ (pages itor.curr).entries, seekKey < kv.1) (fuel : Nat) :
    ∃ fresh, Iterator.init pages fuel rootAddr minKey maxKey seekKey seekType 0 = some fresh ∧
      Iterator.AtRank pages rootAddr minKey maxKey e j
        (Lib.offset (chunks pages rootAddr) j + seekIdx seekType seekKey (pages itor.curr))
        fresh := by
  obtain ⟨base, hs, hcurr, hend, -, hinit⟩ := hb.init_start h hle hupp seekType fuel
  have hidx : base.idx = seekIdx seekType seekKey (pages itor.curr) := by
    rw [hs.idx, hcurr, seekIdx]
  refine ⟨base, ?_, ?_⟩
  · rw [hinit]
    refine Iterator.moveToNeighbour_stay h hs.leaf (fun hne hlen => ?_) (fun hcon => ?_) fuel
    · rw [hcurr, hend] at hne
      have hlt : seekIdx seekType seekKey (pages itor.curr) < (pages itor.curr).entries.length :=
        hb.seekIdx_lt fun htype => hstays htype hne
      rw [hcurr] at hlen
      omega
    · omega
  · rw [← hidx]
    refine hb.atRank h hs.toBounded hcurr hidx (by omega) hstays ?_
    rcases hs.minIdx with ⟨hmark, hpos, -, -, hoff⟩ | ⟨-, hmin⟩
    · exact Or.inl ⟨hmark, hpos, hoff⟩
    · exact Or.inr hmin

/-- **The fast path is right** where it stays in the leaf and `curr_min_idx` hides nothing. -/
theorem Between.sameObservable (hnonneg : 0 ≤ seekIdx seekType seekKey (pages itor.curr))
    (hstays : seekType = .greaterThan → itor.curr ≠ itor.endAddr →
      ∃ kv ∈ (pages itor.curr).entries, seekKey < kv.1)
    (hstart : ¬ (itor.currMinIdx = 0 ∧ 0 < j ∧
      rank pages rootAddr minKey < Lib.offset (chunks pages rootAddr) j)) (fuel : Nat) :
    ∃ fresh, Iterator.init pages fuel rootAddr minKey maxKey seekKey seekType 0 = some fresh ∧
      SameObservable pages fuel
        { itor with idx := seekIdx seekType seekKey (pages itor.curr) } fresh := by
  have hne := rank_lt_of_last h hb.toInLeaf hb.endIdx_eq hb.last_eq (hb.min_le.trans hb.le_last)
  obtain ⟨fresh, hinit, hfresh⟩ := hb.init_atRank h hle hupp hnonneg hstays fuel
  refine ⟨fresh, hinit, ?_⟩
  have hold := hb.atRank h (hb.toBounded.move itor.curr
    (seekIdx seekType seekKey (pages itor.curr)) itor.currMinIdx) rfl rfl hnonneg hstays (by
      rcases hb.minIdx with hmin | hmin | hmin
      · exact Or.inl hmin
      · exact Or.inr hmin
      · exact absurd hmin hstart)
  obtain ⟨c, hbeh, -, hpos, hitems⟩ := behavesAs_of_atRank h hne hfresh fuel
  obtain ⟨c', hbeh', -, hpos', hitems'⟩ := behavesAs_of_atRank h hne hold fuel
  have hsame : c' = c := by
    cases c
    cases c'
    simp only [Lib.Cursor.mk.injEq]
    exact ⟨hitems'.trans hitems.symm, hpos'.trans hpos.symm⟩
  exact sameObservable_of_behavesAs (hsame ▸ hbeh') hbeh

theorem Between.not_sameObservable_of_leaves (htype : seekType = .greaterThan)
    (hne : itor.curr ≠ itor.endAddr) (hall : ∀ kv ∈ (pages itor.curr).entries, kv.1 ≤ seekKey)
    {fresh : Iterator K}
    (hinit : Iterator.init pages fuel rootAddr minKey maxKey seekKey seekType 0 = some fresh) :
    ¬ SameObservable pages fuel
      { itor with idx := seekIdx seekType seekKey (pages itor.curr) } fresh := by
  intro hsame
  subst htype
  obtain ⟨base, hs, hcurr, hend, -, hinit'⟩ := hb.init_start h hle hupp .greaterThan fuel
  have hfull : seekIdx .greaterThan seekKey (pages itor.curr) = (pages itor.curr).entries.length := by
    have hcount : countBefore .greaterThan seekKey (pages itor.curr).entries =
        (pages itor.curr).entries.length :=
      List.countP_eq_length.mpr fun kv hkv => decide_eq_true (hall kv hkv)
    rw [seekIdx, hcount]
    exact Int.sub_zero _
  have hidx : base.idx = (pages base.curr).entries.length := by
    rw [hs.idx, hcurr, ← hfull, seekIdx]
  have hne' : base.curr ≠ base.endAddr := by rwa [hcurr, hend]
  have hlt : j < e := lt_of_le_of_ne hs.le_end (mt (hs.curr_eq_end_iff h).mpr hne')
  obtain ⟨addr, haddr, hnext⟩ := hs.toBounded.nextLeaf_eq h hs.leaf hlt fuel
  rw [hinit', Iterator.moveToNeighbour_next h hs.leaf hne' hidx hnext] at hinit
  obtain rfl := Option.some.inj hinit
  have hview := hsame []
  simp only [Iterator.viewAfter, List.foldlM_nil, Option.pure_def, Option.map_some,
    Option.some.injEq, Iterator.view, Prod.mk.injEq] at hview
  obtain ⟨hcn, hcp, hcurr'⟩ := hview
  have hcan : ({ itor with idx := seekIdx .greaterThan seekKey (pages itor.curr) } :
      Iterator K).canNext = true := by simp [Iterator.canNext, hne]
  have hcan' : ({ itor with idx := seekIdx .greaterThan seekKey (pages itor.curr) } :
      Iterator K).canPrev = true := by
    have hmin := hb.minIdx
    have hreach := hb.reaches
    simp only [Iterator.canPrev, hne, bne_iff_ne, ne_eq, not_false_eq_true, or_true, and_true,
      Bool.and_eq_true, Bool.or_eq_true, decide_eq_true_eq]
    omega
  rw [← hcn, ← hcp, hcan, hcan'] at hcurr'
  simp only [Bool.and_true, if_true, Option.some.injEq] at hcurr'
  have hpast : Iterator.curr? pages
      { itor with idx := seekIdx .greaterThan seekKey (pages itor.curr) } = none := by
    simp only [Iterator.curr?, hfull, h.leaf_height hb.leaf, if_true, Int.toNat_natCast]
    rw [if_neg (by omega), List.getElem?_eq_none (le_refl _)]
  have hpos := h.leaf_nonempty (Nat.succ_ne_self j).symm
    (List.getElem?_eq_some_iff.mp hs.leaf).1 haddr
  rw [hpast] at hcurr'
  simp [Iterator.curr?, h.leaf_height haddr, List.getElem?_eq_getElem hpos] at hcurr'

theorem Between.not_sameObservable_of_hidden
    (hnonneg : 0 ≤ seekIdx seekType seekKey (pages itor.curr))
    (hstays : seekType = .greaterThan → itor.curr ≠ itor.endAddr →
      ∃ kv ∈ (pages itor.curr).entries, seekKey < kv.1)
    (hmin : itor.currMinIdx = 0)
    (hhidden : rank pages rootAddr minKey < Lib.offset (chunks pages rootAddr) j)
    {fresh : Iterator K}
    (hinit : Iterator.init pages fuel rootAddr minKey maxKey seekKey seekType 0 = some fresh) :
    ¬ SameObservable pages fuel
      { itor with idx := seekIdx seekType seekKey (pages itor.curr) } fresh := by
  intro hsame
  have hne := rank_lt_of_last h hb.toInLeaf hb.endIdx_eq hb.last_eq (hb.min_le.trans hb.le_last)
  obtain ⟨fresh', hinit', hfresh⟩ := hb.init_atRank h hle hupp hnonneg hstays fuel
  obtain rfl := Option.some.inj (hinit'.symm.trans hinit)
  obtain ⟨c, hbeh, hitems, hpos, -⟩ := behavesAs_of_atRank h hne hfresh fuel
  have hend := hb.endIdx_eq
  obtain ⟨n, hn⟩ : ∃ n : Nat, seekIdx seekType seekKey (pages itor.curr) + 1 = n :=
    ⟨(seekIdx seekType seekKey (pages itor.curr)).toNat + 1, by omega⟩
  have hviews := hsame (List.replicate n false)
  obtain ⟨back, hfold, hcan⟩ := hbeh.prevs (n := n) hitems (by omega)
  have hold : (List.replicate n false).foldlM (iteratorMove pages fuel)
      { itor with idx := seekIdx seekType seekKey (pages itor.curr) } =
      some { itor with idx := -1 } :=
    prevs_in_leaf hmin (by change itor.endIdx ≠ 0; omega) hn
  rw [Iterator.viewAfter, Iterator.viewAfter, hfold, hold] at hviews
  simp only [Option.map_some, Option.some.injEq, Iterator.view, Prod.mk.injEq] at hviews
  obtain ⟨-, hcp, -⟩ := hviews
  rw [hcan] at hcp
  simp [Iterator.canPrev, hmin] at hcp

end Results

/-! ## Exactly which seeks are like a new iterator -/

theorem nothing_before_iff (h : WellShaped pages rootAddr)
    (hat : Iterator.InLeaf pages rootAddr minKey maxKey e j itor)
    (hfirst : (pages itor.curr).entries[0]? = some first) :
    (∀ kv ∈ contents pages rootAddr, minKey ≤ kv.1 →
      ∃ kv₀ ∈ (pages itor.curr).entries, kv₀.1 ≤ kv.1) ↔
    Lib.offset (chunks pages rootAddr) j ≤ rank pages rootAddr minKey := by
  have hget : ∀ i, i < (pages itor.curr).entries.length →
      (contents pages rootAddr)[Lib.offset (chunks pages rootAddr) j + i]? =
        (pages itor.curr).entries[i]? := fun i hi =>
    Lib.getElem?_flatten (chunk_of_leaf hat.leaf) hi
  have hpos := (List.getElem?_eq_some_iff.mp hfirst).1
  have hmono : ∀ {i k : Nat} {x y : Key K × Message}, (contents pages rootAddr)[i]? = some x →
      (contents pages rootAddr)[k]? = some y → i < k → x.1 < y.1 := by
    intro i k x y hx hy hik
    obtain ⟨hi, rfl⟩ := List.getElem?_eq_some_iff.mp hx
    obtain ⟨hk, rfl⟩ := List.getElem?_eq_some_iff.mp hy
    exact List.pairwise_iff_getElem.mp h.ascending i k hi hk hik
  have hrank : ∀ {i : Nat} {x : Key K × Message}, (contents pages rootAddr)[i]? = some x →
      (x.1 < minKey ↔ i < rank pages rootAddr minKey) := by
    intro i x hx
    have hiff : Comparison.lessThan.before minKey x.1 = true ↔ i < rank pages rootAddr minKey :=
      (initial_before h.ascending .lessThan minKey).getElem_iff hx
    rwa [Comparison.before, decide_eq_true_eq] at hiff
  constructor
  · intro hall
    by_contra hcon
    -- The entry just before the leaf is in the range and below every key of the leaf.
    have hstart := hget 0 hpos
    rw [hfirst, Nat.add_zero] at hstart
    obtain ⟨hlen, -⟩ := List.getElem?_eq_some_iff.mp hstart
    obtain ⟨kv, hkv⟩ : ∃ kv, (contents pages rootAddr)[Lib.offset (chunks pages rootAddr) j - 1]? =
        some kv := ⟨_, List.getElem?_eq_getElem (by omega)⟩
    have hge : minKey ≤ kv.1 := not_lt.mp (mt (hrank hkv).mp (by omega))
    obtain ⟨kv₀, hmem, hle⟩ := hall kv (List.mem_of_getElem? hkv) hge
    obtain ⟨i, hi⟩ := List.mem_iff_getElem?.mp hmem
    have hkv₀ := (hget i (List.getElem?_eq_some_iff.mp hi).1).trans hi
    exact absurd hle (not_le.mpr (hmono hkv hkv₀ (by omega)))
  · intro hoff kv hkv hge
    obtain ⟨i, hi⟩ := List.mem_iff_getElem?.mp hkv
    have hidx := mt (hrank hi).mpr (not_lt.mpr hge)
    refine ⟨first, List.mem_of_getElem? hfirst, ?_⟩
    have hstart := hget 0 hpos
    rw [hfirst, Nat.add_zero] at hstart
    by_contra hcon
    rcases (show Lib.offset (chunks pages rootAddr) j ≤ i by omega).lt_or_eq with hlt | heq
    · exact hcon (hmono hstart hi hlt).le
    · rw [heq, hi] at hstart
      exact hcon (Option.some.inj hstart ▸ le_refl _)

omit [LinearOrder K] in
theorem Iterator.keyAt_of_height_zero (hheight : itor.height = 0) (hdr : Node K) (i : Nat) :
    itor.keyAt hdr (i : Int) = hdr.entries[i]?.map Prod.fst := by
  rw [keyAt, if_neg (by omega), if_pos hheight, Int.toNat_natCast]

variable {it it' : HeldIterator K}

theorem HeldIterator.seek_fast (h : WellShaped pages rootAddr)
    (hb : Between pages rootAddr minKey maxKey seekKey e j i first last it.itor)
    (hupp : seekKey ≤ maxKey) (hnonneg : 0 ≤ seekIdx seekType seekKey (pages it.itor.curr)) :
    it.seek pages fuel seekKey seekType =
      some (.ok, ⟨{ it.itor with idx := seekIdx seekType seekKey (pages it.itor.curr) },
        it.held⟩) := by
  have hrange : ¬ (seekKey < it.itor.minKey ∨ it.itor.maxKey < seekKey) := by
    rw [hb.minKey_eq, hb.maxKey_eq]
    exact not_or.mpr ⟨not_lt.mpr hb.min_le, not_lt.mpr hupp⟩
  have hfirst : it.itor.keyAt (pages it.itor.curr) 0 = some first.1 := by
    have hread := it.itor.keyAt_of_height_zero hb.height (pages it.itor.curr) 0
    rwa [hb.first_eq] at hread
  have hlast : it.itor.keyAt (pages it.itor.curr) (it.itor.endIdx - 1) = some last.1 := by
    have hread := it.itor.keyAt_of_height_zero hb.height (pages it.itor.curr) i
    rw [hb.last_eq] at hread
    rw [hb.endIdx_eq, Int.add_sub_cancel]
    exact hread
  have hidx := adjust_findTuple (h.chunk_ascending (chunk_of_leaf hb.leaf)) seekKey seekType
  rw [HeldIterator.seek, if_neg hrange, hfirst, hlast]
  simp only [Option.bind_eq_bind, Option.bind_some]
  rw [if_pos ⟨hb.first_le, hb.le_last⟩, Iterator.findKeyInNode_of_height_zero hb.height]
  simp only [hidx]
  exact if_pos hnonneg

theorem HeldIterator.fast_of_seek (h : WellShaped pages rootAddr)
    (hat : Iterator.InLeaf pages rootAddr minKey maxKey e j it.itor) (hlow : minKey ≤ seekKey)
    (hupp : seekKey ≤ maxKey) (hheld : it.held ≠ [])
    (hseek : it.seek pages fuel seekKey seekType = some (.ok, it'))
    (hone : it'.held = [it'.itor.curr]) :
    ∃ i first last,
      Between pages rootAddr minKey maxKey seekKey e j i first last it.itor ∧
        0 ≤ seekIdx seekType seekKey (pages it.itor.curr) ∧
        it' = ⟨{ it.itor with idx := seekIdx seekType seekKey (pages it.itor.curr) }, it.held⟩ := by
  have hrange : ¬ (seekKey < it.itor.minKey ∨ it.itor.maxKey < seekKey) := by
    rw [hat.minKey_eq, hat.maxKey_eq]
    exact not_or.mpr ⟨not_lt.mpr hlow, not_lt.mpr hupp⟩
  have hidx := adjust_findTuple (h.chunk_ascending (chunk_of_leaf hat.leaf)) seekKey seekType
  rw [HeldIterator.seek, if_neg hrange] at hseek
  simp only [Option.bind_eq_bind, Option.bind_eq_some_iff] at hseek
  obtain ⟨firstKey, hfirst, lastKey, hlast, hseek⟩ := hseek
  split at hseek
  · rename_i hbetween
    rw [Iterator.findKeyInNode_of_height_zero hat.height] at hseek
    simp only [hidx] at hseek
    split at hseek
    · rename_i hnonneg
      obtain ⟨i, hi⟩ : ∃ i : Nat, it.itor.endIdx - 1 = i := by
        by_contra hcon
        rw [Iterator.keyAt, if_pos (by_contra fun hneg => hcon ⟨_, (Int.toNat_of_nonneg
          (not_lt.mp hneg)).symm⟩)] at hlast
        cases hlast
      have hzero : it.itor.keyAt (pages it.itor.curr) 0 =
          (pages it.itor.curr).entries[0]?.map Prod.fst :=
        it.itor.keyAt_of_height_zero hat.height _ 0
      rw [hi, Iterator.keyAt_of_height_zero hat.height] at hlast
      rw [hzero] at hfirst
      obtain ⟨first, hfirst', rfl⟩ := Option.map_eq_some_iff.mp hfirst
      obtain ⟨last, hlast', rfl⟩ := Option.map_eq_some_iff.mp hlast
      obtain ⟨j', -, hends⟩ := h.lookupNode_spec seekKey
      obtain rfl := leaf_eq_of_between (chunk_of_leaf hat.leaf) (List.mem_of_getElem? hfirst')
        hbetween.1 (List.mem_of_getElem? hlast') hbetween.2 hends
      exact ⟨i, first, last, ⟨hat, hfirst', hbetween.1, by omega, hlast', hbetween.2, hlow, hends⟩,
        hnonneg, (Prod.mk.inj (Option.some.inj hseek)).2.symm⟩
    · cases hseek
  · -- The slow path keeps what was held besides the new leaf.
    obtain ⟨itor, -, heq⟩ := Option.map_eq_some_iff.mp hseek
    obtain ⟨-, rfl⟩ := Prod.mk.inj heq
    obtain ⟨-, hnil⟩ := List.cons_eq_cons.mp hone
    exact absurd hnil hheld

end FastPath

/-- **Seeking.**  An iterator on a well-shaped quiescent tree that was opened at height 0 and used
in any way is left by a seek within its bounds in the observable state of a new iterator, holding
just its current leaf, exactly under the condition `SeeksInLeaf`. -/
theorem seeksLikeInit_iff (h : WellShaped pages rootAddr) {it : HeldIterator K}
    (hreach : (HeldIterator.system pages fuel rootAddr minKey maxKey).Reachable it)
    (hlow : it.itor.minKey ≤ seekKey) (hupp : seekKey ≤ it.itor.maxKey) (seekType : Comparison) :
    SeeksLikeInit pages fuel it seekKey seekType ↔ SeeksInLeaf pages it seekKey seekType := by
  obtain ⟨hle, hheld, e, j, hat⟩ := HeldIterator.opened_of_reachable h hreach
  rw [hat.minKey_eq] at hlow
  rw [hat.maxKey_eq] at hupp
  rw [SeeksLikeInit, hat.rootAddr_eq, hat.minKey_eq, hat.maxKey_eq, hat.height]
  constructor
  · rintro ⟨it', fresh, hseek, hinit, hsame, hone⟩
    obtain ⟨i, first, last, hb, hnonneg, rfl⟩ :=
      HeldIterator.fast_of_seek h hat hlow hupp hheld hseek hone
    have hstays : seekType = .greaterThan → it.itor.curr ≠ it.itor.endAddr →
        ∃ kv ∈ (pages it.itor.curr).entries, seekKey < kv.1 := by
      intro htype hne
      by_contra hcon
      simp only [not_exists, not_and, not_lt] at hcon
      exact hb.not_sameObservable_of_leaves h hle hupp htype hne hcon hinit hsame
    refine ⟨hone, ⟨first, hb.first_eq, hb.first_le, (hb.seekIdx_nonneg_iff h seekType).mp hnonneg⟩,
      ⟨i, hb.endIdx_eq, last, hb.last_eq, hb.le_last⟩, hstays, fun hmin => ?_⟩
    rw [hat.rootAddr_eq, hat.minKey_eq, nothing_before_iff h hat hb.first_eq]
    by_contra hcon
    exact hb.not_sameObservable_of_hidden h hle hupp hnonneg hstays hmin (not_le.mp hcon) hinit hsame
  · rintro ⟨hone, ⟨first, hfirst, hfirstle, hless⟩, ⟨i, hend, last, hlast, hlastle⟩, hstays, hstart⟩
    obtain ⟨j', hleaf, hends⟩ := h.lookupNode_spec seekKey
    obtain rfl := leaf_eq_of_between (chunk_of_leaf hat.leaf) (List.mem_of_getElem? hfirst) hfirstle
      (List.mem_of_getElem? hlast) hlastle hends
    have hb : Between pages rootAddr minKey (maxKey ⊔ minKey) seekKey e j' i first last it.itor :=
      ⟨hat, hfirst, hfirstle, hend, hlast, hlastle, hlow, hends⟩
    have hnonneg := (hb.seekIdx_nonneg_iff h seekType).mpr hless
    have hvisible : ¬ (it.itor.currMinIdx = 0 ∧ 0 < j' ∧
        rank pages rootAddr minKey < Lib.offset (chunks pages rootAddr) j') := by
      rintro ⟨hmin, -, hlt⟩
      have hall := hstart hmin
      rw [hat.rootAddr_eq, hat.minKey_eq, nothing_before_iff h hat hfirst] at hall
      omega
    obtain ⟨fresh, hinit, hsame⟩ := hb.sameObservable h hle hupp hnonneg hstays hvisible fuel
    exact ⟨_, fresh, HeldIterator.seek_fast h hb hupp hnonneg, hinit, hsame, hone⟩

/-- The tree with the keys 1, 2 and 5, 6, opened at its first key. -/
def openedAtOne : HeldIterator Nat := ⟨⟨1, 0, ⊥, ⊤, 2, 0, 0, 3, 2, 0⟩, [2]⟩

private theorem openedAtOne_reachable :
    (HeldIterator.system twoLeafPages 0 1 ⊥ ⊤).Reachable openedAtOne :=
  ⟨openedAtOne, [], ⟨Key.user 1, .greaterThanOrEqual, rfl⟩, .nil⟩

/-- A seek inside that leaf, to the key 2. -/
theorem seeksLikeInit_in_leaf :
    SeeksLikeInit twoLeafPages 0 openedAtOne (Key.user 2) .greaterThanOrEqual := by
  refine (seeksLikeInit_iff twoLeafPages_wellShaped openedAtOne_reachable bot_le le_top _).mpr ?_
  refine ⟨rfl, ⟨_, rfl, by decide, ?_⟩, ⟨1, rfl, _, rfl, le_refl _⟩, ?_,
    fun _ kv hkv _ => ⟨_, List.mem_cons_self, ?_⟩⟩
  · intro hcon
    cases hcon
  · intro hcon
    cases hcon
  have hall : ∀ kv ∈ contents twoLeafPages 1, Key.user 1 ≤ kv.1 := by decide
  exact hall kv hkv

/-- A seek to the next leaf, to the key 5, ends with references on both leaves. -/
theorem seek_keeps_old_leaf :
    WellShaped twoLeafPages 1 ∧
      (HeldIterator.system twoLeafPages 0 1 ⊥ ⊤).Reachable openedAtOne ∧
      openedAtOne.itor.minKey ≤ Key.user 5 ∧ Key.user 5 ≤ openedAtOne.itor.maxKey ∧
      ¬ SeeksLikeInit twoLeafPages 0 openedAtOne (Key.user 5) .greaterThanOrEqual := by
  refine ⟨twoLeafPages_wellShaped, openedAtOne_reachable, bot_le, le_top, ?_⟩
  rintro ⟨it', fresh, hseek, -, -, hone⟩
  have hslow : openedAtOne.seek twoLeafPages 0 (Key.user 5) .greaterThanOrEqual =
      some (.ok, ⟨⟨1, 0, ⊥, ⊤, 3, 0, -1, 3, 2, 0⟩, [3, 2]⟩) := rfl
  obtain ⟨-, rfl⟩ := Prod.mk.inj (Option.some.inj (hseek.symm.trans hslow))
  cases hone

end Btree
end TreePass
