import TreePass.Filter.EstimateCollect

/-!
# When the estimate is right

The collected pieces are strictly sorted, so the rounds of the merge count their union.

* `countUnique_spec` is the merge over the positions of the array.
* `mem_collectedOf`: a piece has the fingerprints of the lowest sixteenth of a filter.
* `estimate_iff`: the estimate is sixteen times the number of distinct fingerprints exactly when the
  array of starts has an element for every filter and one more, the words fit into the buffer, and
  the product fits into 32 bits.
* `estimate_out_of_bounds` has as many filters as `MAX_FILTERS`.
-/

namespace TreePass
namespace Filter

open Lib

/-! ## The merge of the pieces -/

def PieceAt (fpArr fpStart idx : List Nat) (i : Nat) (seg : List Nat) : Prop :=
  ∃ k stop, idx[i]? = some k ∧ fpStart[i + 1]? = some stop ∧ k ≤ stop ∧ stop ≤ fpArr.length ∧
    (fpArr.take stop).drop k = seg

/-- What is left of the pieces from `i` on. -/
def PiecesAt (fpArr fpStart idx : List Nat) (i : Nat) (segs : List (List Nat)) : Prop :=
  ∀ (j : Nat) (seg : List Nat), segs[j]? = some seg → PieceAt fpArr fpStart idx (i + j) seg

theorem PiecesAt.head {fpArr fpStart idx : List Nat} {i : Nat} {seg : List Nat}
    {segs : List (List Nat)} (h : PiecesAt fpArr fpStart idx i (seg :: segs)) :
    PieceAt fpArr fpStart idx i seg :=
  h 0 seg rfl

theorem PiecesAt.tail {fpArr fpStart idx : List Nat} {i : Nat} {seg : List Nat}
    {segs : List (List Nat)} (h : PiecesAt fpArr fpStart idx i (seg :: segs)) :
    PiecesAt fpArr fpStart idx (i + 1) segs := by
  intro j seg' hseg
  have hpiece := h (j + 1) seg' hseg
  rwa [show i + (j + 1) = i + 1 + j by omega] at hpiece

theorem head_of_piece {fpArr : List Nat} {k stop : Nat} {seg : List Nat} (hle : k ≤ stop)
    (hstop : stop ≤ fpArr.length) (h : (fpArr.take stop).drop k = seg) :
    (k = stop ∧ seg = []) ∨ ∃ fp rest, k ≠ stop ∧ seg = fp :: rest ∧ fpArr[k]? = some fp ∧
      (fpArr.take stop).drop (k + 1) = rest := by
  have hlength : seg.length = stop - k := by
    rw [← h, List.length_drop, List.length_take, Nat.min_eq_left hstop]
  cases seg with
  | nil =>
      rw [List.length_nil] at hlength
      exact Or.inl ⟨by omega, rfl⟩
  | cons fp rest =>
      rw [List.length_cons] at hlength
      refine Or.inr ⟨fp, rest, by omega, rfl, ?_, ?_⟩
      · have hget : (fpArr.take stop)[k]? = some fp := by
          rw [← List.head?_drop, h]
          rfl
        rwa [List.getElem?_take_of_lt (by omega)] at hget
      · rw [← List.tail_drop, h]
        rfl

theorem minFp_spec {fpArr fpStart idx : List Nat} (segs : List (List Nat)) :
    ∀ {i m : Nat}, PiecesAt fpArr fpStart idx i segs →
      minFp fpArr fpStart idx segs.length i m = some (leastHead m segs) := by
  induction segs with
  | nil =>
      intro i m _
      rfl
  | cons seg segs ih =>
      intro i m h
      obtain ⟨k, stop, hk, hstop, hle, hbound, hpiece⟩ := h.head
      rw [List.length_cons]
      unfold minFp
      rw [hk, hstop]
      dsimp only
      rcases head_of_piece hle hbound hpiece with ⟨heq, hnil⟩ | ⟨fp, rest, hne, hcons, hget, _⟩
      · subst hnil
        rw [if_neg (by simpa using heq)]
        exact ih h.tail
      · subst hcons
        rw [if_pos hne, hget]
        exact ih h.tail

theorem advanceIdx_spec {fpArr fpStart : List Nat} {m : Nat} (segs : List (List Nat)) :
    ∀ {i : Nat} {idx : List Nat}, PiecesAt fpArr fpStart idx i segs →
      ∃ idx', advanceIdx fpArr fpStart m segs.length i idx = some idx' ∧
        PiecesAt fpArr fpStart idx' i (segs.map (dropHead m)) ∧
        ∀ k, k < i → idx'[k]? = idx[k]? := by
  induction segs with
  | nil =>
      intro i idx _
      exact ⟨idx, rfl, by intro j seg h; simp at h, fun _ _ => rfl⟩
  | cons seg segs ih =>
      intro i idx h
      obtain ⟨k, stop, hk, hstop, hle, hbound, hpiece⟩ := h.head
      rw [List.length_cons]
      unfold advanceIdx
      rw [hk, hstop]
      dsimp only
      -- The rest of the positions, and the piece at `i` in the new ones.
      have hassemble : ∀ idx₁ idx' : List Nat, PieceAt fpArr fpStart idx₁ i (dropHead m seg) →
          PiecesAt fpArr fpStart idx' (i + 1) (segs.map (dropHead m)) →
          (∀ k, k < i + 1 → idx'[k]? = idx₁[k]?) →
          PiecesAt fpArr fpStart idx' i ((seg :: segs).map (dropHead m)) := by
        intro idx₁ idx' hfirst hrest hbefore j seg' hseg
        cases j with
        | zero =>
            obtain rfl : dropHead m seg = seg' := by simpa using hseg
            obtain ⟨k₁, stop₁, hk₁, hstart⟩ := hfirst
            exact ⟨k₁, stop₁, by rw [Nat.add_zero, hbefore i (Nat.lt_succ_self i)]; exact hk₁,
              hstart⟩
        | succ j =>
            have hpiece := hrest j seg' (by simpa using hseg)
            rwa [show i + 1 + j = i + (j + 1) by omega] at hpiece
      rcases head_of_piece hle hbound hpiece with ⟨heq, hnil⟩ | ⟨fp, rest, hne, hcons, hget, hnext⟩
      · subst hnil
        rw [if_neg (by simpa using heq)]
        obtain ⟨idx', hrun, hpieces, hbefore⟩ := ih h.tail
        exact ⟨idx', hrun, hassemble idx idx' h.head hpieces hbefore,
          fun k hk => hbefore k (by omega)⟩
      · subst hcons
        rw [if_pos hne, hget]
        dsimp only
        by_cases hfp : fp = m
        · -- The position moves behind the head.
          rw [if_pos hfp]
          have hlength : i < idx.length := (List.getElem?_eq_some_iff.mp hk).1
          have htail : PiecesAt fpArr fpStart (idx.set i (k + 1)) (i + 1) segs := by
            intro j seg' hseg
            obtain ⟨k₁, stop₁, hk₁, hstart⟩ := h.tail j seg' hseg
            exact ⟨k₁, stop₁, by rw [List.getElem?_set_ne (by omega)]; exact hk₁, hstart⟩
          have hfirst : PieceAt fpArr fpStart (idx.set i (k + 1)) i (dropHead m (fp :: rest)) := by
            rw [dropHead_cons, if_pos hfp]
            exact ⟨k + 1, stop, List.getElem?_set_self hlength, hstop, by omega, hbound, hnext⟩
          obtain ⟨idx', hrun, hpieces, hbefore⟩ := ih htail
          refine ⟨idx', hrun, hassemble _ idx' hfirst hpieces hbefore, ?_⟩
          intro k hk
          rw [hbefore k (by omega), List.getElem?_set_ne (by omega)]
        · rw [if_neg hfp]
          have hfirst : PieceAt fpArr fpStart idx i (dropHead m (fp :: rest)) := by
            rw [dropHead_cons, if_neg hfp]
            exact h.head
          obtain ⟨idx', hrun, hpieces, hbefore⟩ := ih h.tail
          exact ⟨idx', hrun, hassemble idx idx' hfirst hpieces hbefore,
            fun k hk => hbefore k (by omega)⟩

theorem countUnique_spec {fpArr fpStart : List Nat} (rounds : Nat) :
    ∀ {idx : List Nat} {numUnique : Nat} {segs : List (List Nat)},
      (∀ seg ∈ segs, seg.Pairwise (· < ·)) → (∀ seg ∈ segs, ∀ a ∈ seg, a < uint32Max) →
      PiecesAt fpArr fpStart idx 0 segs → (unionOf segs).card < rounds → numUnique < 2 ^ 32 →
      countUnique fpArr fpStart segs.length rounds idx numUnique =
        some ((numUnique + (unionOf segs).card) % 2 ^ 32) := by
  induction rounds with
  | zero =>
      intro idx numUnique segs _ _ _ hrounds _
      omega
  | succ rounds ih =>
      intro idx numUnique segs hsorted hbelow hpieces hrounds hnum
      unfold countUnique
      rw [minFp_spec segs hpieces]
      dsimp only
      by_cases htop : leastHead uint32Max segs = uint32Max
      · rw [if_pos htop, unionOf_eq_empty hbelow htop, Finset.card_empty, Nat.add_zero,
          Nat.mod_eq_of_lt hnum]
      · rw [if_neg htop]
        obtain ⟨idx', hrun, hpieces', _⟩ := advanceIdx_spec (m := leastHead uint32Max segs)
          segs hpieces
        rw [hrun]
        dsimp only
        have hcard := card_dropHeads hsorted htop
        have hnext := @ih idx' ((numUnique + 1) % 2 ^ 32)
          (segs.map (dropHead (leastHead uint32Max segs)))
          (by
            intro seg hseg
            obtain ⟨seg', hseg', rfl⟩ := List.mem_map.mp hseg
            exact dropHead_sorted _ (hsorted seg' hseg'))
          (by
            intro seg hseg a ha
            obtain ⟨seg', hseg', rfl⟩ := List.mem_map.mp hseg
            have hheads := (leastHead_le segs uint32Max).2 seg' hseg'
            exact hbelow seg' hseg' a ((mem_dropHead (hsorted seg' hseg') hheads).mp ha).1)
          hpieces' (by omega) (Nat.mod_lt _ (by decide))
        rw [List.length_map] at hnext
        rw [hnext, Nat.mod_add_mod, hcard]
        congr 2
        omega

/-! ## The lowest sixteenth -/

theorem sizes_eq {cfg : RoutingConfig} {f : RoutingFilter} (hf : Estimable cfg f) :
    ∃ e d, cfg.remainderSize f.numFingerprints + cfg.logIndexSize = e ∧
      cfg.numIndices f.numFingerprints = 2 ^ (d + 4) ∧ cfg.fingerprintSize = e + d + 4 := by
  obtain ⟨hcomplete, hsixteen⟩ := hf
  have hwidth := hcomplete.holds.width
  have hlog := cfg.logIndexSize_le f.numFingerprints
  unfold RoutingConfig.numIndices at hsixteen ⊢
  have hfour : 4 ≤ cfg.logNumBuckets f.numFingerprints - cfg.logIndexSize := by
    rw [show 16 = 2 ^ 4 from rfl] at hsixteen
    exact (Nat.pow_le_pow_iff_right (by decide)).mp hsixteen
  refine ⟨_, cfg.logNumBuckets f.numFingerprints - cfg.logIndexSize - 4, rfl, ?_, ?_⟩
  · congr 1
    omega
  · unfold RoutingConfig.remainderSize
    omega

theorem low_iff {cfg : RoutingConfig} {f : RoutingFilter} (hf : Estimable cfg f) {q : Nat} :
    q >>> (cfg.remainderSize f.numFingerprints + cfg.logIndexSize) <
        cfg.numIndices f.numFingerprints / 16 ↔ 16 * q < 2 ^ cfg.fingerprintSize := by
  obtain ⟨e, d, he, hnum, hsize⟩ := sizes_eq hf
  have hdiv : 2 ^ (d + 4) / 16 = 2 ^ d := by
    rw [Nat.pow_add]
    exact Nat.mul_div_cancel _ (by decide)
  have hpow : 2 ^ (e + d + 4) = 16 * (2 ^ d * 2 ^ e) := by
    rw [Nat.pow_add, Nat.pow_add, Nat.mul_comm (2 ^ e), Nat.mul_comm _ (2 ^ 4)]
  rw [he, hnum, hsize, hdiv, hpow, Nat.shiftRight_eq_div_pow,
    Nat.div_lt_iff_lt_mul (Nat.two_pow_pos e)]
  omega

theorem BlockHolds.fingerprint_index {cfg : RoutingConfig} {n valueSize j : Nat}
    {block : IndexBlock} {fps : List Nat}
    (h : BlockHolds cfg (cfg.remainderAndValueSize n valueSize) j block fps) {q : Nat}
    (hq : q ∈ fps.map (· >>> valueSize)) :
    q >>> (cfg.remainderSize n + cfg.logIndexSize) = j := by
  obtain ⟨w, hw, rfl⟩ := List.mem_map.mp hq
  have hbucket := h.bucket w hw
  rw [← Nat.succ_mul] at hbucket
  rw [← wordIndex_eq]
  exact Nat.le_antisymm (bucket_lt_iff.mp hbucket.2) (le_bucket_iff.mp hbucket.1)

theorem collectedAt_spec {cfg : RoutingConfig} {f : RoutingFilter} (hf : Estimable cfg f) {j : Nat}
    (hj : j < cfg.numIndices f.numFingerprints / 16) :
    (collectedAt cfg f j).Pairwise (· < ·) ∧
      (∀ q ∈ collectedAt cfg f j, 16 * q < 2 ^ cfg.fingerprintSize ∧
        q >>> (cfg.remainderSize f.numFingerprints + cfg.logIndexSize) = j) ∧
      ∀ q, q ∈ collectedAt cfg f j ↔ q ∈ ((f.indices[j]?.map fun block =>
        (blockWords cfg (cfg.remainderAndValueSize f.numFingerprints f.valueSize) j block).map
          (· >>> f.valueSize)).getD []).toFinset := by
  have hlt : j < f.indices.length := by
    rw [hf.1.length]
    omega
  have hget := List.getElem?_eq_getElem hlt
  obtain ⟨fps, hholds⟩ := hf.1.holds.holds j _ hget
  unfold collectedAt
  rw [hget, Option.map_some, Option.getD_some, Option.map_some, Option.getD_some,
    hholds.blockWords_eq]
  have hindex : ∀ q ∈ fps.map (· >>> f.valueSize),
      q >>> (cfg.remainderSize f.numFingerprints + cfg.logIndexSize) = j :=
    fun q hq => hholds.fingerprint_index hq
  have hlow : ∀ q ∈ fps.map (· >>> f.valueSize), 16 * q < 2 ^ cfg.fingerprintSize := by
    intro q hq
    exact (low_iff hf).mp (by rw [hindex q hq]; exact hj)
  have hpow : 2 ^ cfg.fingerprintSize ≤ 2 ^ 32 := by
    have hfits := hf.1.holds.fits
    exact Nat.pow_le_pow_right (by decide) (by omega)
  have hne : ∀ q ∈ fps.map (· >>> f.valueSize), q ≠ uint32Max := by
    intro q hq
    have := hlow q hq
    unfold uint32Max
    omega
  have hsorted : (fps.map (· >>> f.valueSize)).Pairwise (· ≤ ·) := by
    rw [List.pairwise_map]
    exact hholds.sorted.imp fun h => shiftRight_mono h _
  obtain ⟨hpair, hmem⟩ := keepNew_start hne hsorted
  refine ⟨hpair, fun q hq => ?_, fun q => ?_⟩
  · exact ⟨hlow q ((hmem q).mp hq), hindex q ((hmem q).mp hq)⟩
  · rw [hmem, List.mem_toFinset]

theorem collectedFrom_spec {cfg : RoutingConfig} {f : RoutingFilter} (hf : Estimable cfg f)
    (left : Nat) : ∀ {j : Nat}, j + left ≤ cfg.numIndices f.numFingerprints / 16 →
    (collectedFrom cfg f left j).Pairwise (· < ·) ∧
      ∀ q, q ∈ collectedFrom cfg f left j ↔
        ∃ i, j ≤ i ∧ i < j + left ∧ q ∈ collectedAt cfg f i := by
  induction left with
  | zero =>
      intro j _
      refine ⟨List.Pairwise.nil, fun q => ?_⟩
      constructor
      · intro hq
        cases hq
      · rintro ⟨i, h1, h2, _⟩
        omega
  | succ left ih =>
      intro j hj
      obtain ⟨hsorted, hmem⟩ := ih (show j + 1 + left ≤ _ by omega)
      obtain ⟨hfirst, hindex, _⟩ := collectedAt_spec hf (show j < _ by omega)
      constructor
      · apply List.pairwise_append.mpr
        refine ⟨hfirst, hsorted, ?_⟩
        intro q hq q' hq'
        obtain ⟨i, hi, hlt, hmem'⟩ := (hmem q').mp hq'
        obtain ⟨_, hindex', _⟩ := collectedAt_spec hf (show i < _ by omega)
        have h1 := (hindex q hq).2
        have h2 := (hindex' q' hmem').2
        rcases Nat.lt_or_ge q q' with hlt' | hge
        · exact hlt'
        · have := shiftRight_mono hge (cfg.remainderSize f.numFingerprints + cfg.logIndexSize)
          omega
      · intro q
        show q ∈ collectedAt cfg f j ++ collectedFrom cfg f left (j + 1) ↔ _
        rw [List.mem_append, hmem]
        constructor
        · rintro (hq | ⟨i, h1, h2, hq⟩)
          · exact ⟨j, Nat.le_refl _, by omega, hq⟩
          · exact ⟨i, by omega, by omega, hq⟩
        · rintro ⟨i, h1, h2, hq⟩
          rcases Nat.eq_or_lt_of_le h1 with rfl | hlt
          · exact Or.inl hq
          · exact Or.inr ⟨i, by omega, by omega, hq⟩

theorem mem_collectedOf {cfg : RoutingConfig} {f : RoutingFilter} (hf : Estimable cfg f) {q : Nat} :
    q ∈ collectedOf cfg f ↔
      q ∈ storedFingerprints cfg f ∧ 16 * q < 2 ^ cfg.fingerprintSize := by
  obtain ⟨_, hmem⟩ := collectedFrom_spec hf (cfg.numIndices f.numFingerprints / 16)
    (show 0 + _ ≤ _ by omega)
  unfold collectedOf storedFingerprints
  rw [hmem, Finset.mem_biUnion]
  constructor
  · rintro ⟨i, _, hi, hq⟩
    obtain ⟨_, hindex, hiff⟩ := collectedAt_spec hf (show i < _ by omega)
    refine ⟨⟨i, ?_, (hiff q).mp hq⟩, (hindex q hq).1⟩
    rw [Finset.mem_range, hf.1.length]
    omega
  · rintro ⟨⟨i, hi, hq⟩, hlow⟩
    -- The index of the fingerprint is in the lowest sixteenth.
    have hget := List.getElem?_eq_getElem (Finset.mem_range.mp hi)
    obtain ⟨fps, hholds⟩ := hf.1.holds.holds i _ hget
    have hindex : q >>> (cfg.remainderSize f.numFingerprints + cfg.logIndexSize) = i := by
      rw [hget, Option.map_some, Option.getD_some, hholds.blockWords_eq] at hq
      exact hholds.fingerprint_index (List.mem_toFinset.mp hq)
    have hlt := (low_iff hf).mpr hlow
    rw [hindex] at hlt
    obtain ⟨_, _, hiff⟩ := collectedAt_spec hf hlt
    exact ⟨i, Nat.zero_le _, by omega, (hiff q).mpr hq⟩

/-- **The filters that chains of adds build** are complete, as soon as they have indices. -/
theorem FilterChain.complete {cfg : RoutingConfig} {f : RoutingFilter} (h : FilterChain cfg f)
    (hindices : f.indices ≠ []) : Complete cfg f := by
  cases h with
  | null => exact absurd rfl hindices
  | @add memory old f newFpArr value hchain hbits hadd =>
      obtain ⟨hpresent, fps, hbuilds⟩ := routingFilterAdd_spec hchain.holds hbits hadd
      refine ⟨hpresent, hbuilds.filterHolds, ?_⟩
      have hlength := hbuilds.length
      have hpos : 0 < cfg.numIndices f.numFingerprints / oldNumIndices cfg old := by
        apply Nat.pos_of_ne_zero
        intro hzero
        rw [hzero, Nat.mul_zero] at hlength
        exact hindices (List.length_eq_zero_iff.mp hlength)
      rw [hlength]
      apply Nat.mul_div_cancel'
      by_cases hold : old.present = true
      · have hnum : oldNumIndices cfg old = cfg.numIndices old.numFingerprints := if_pos hold
        have hle := (Nat.div_pos_iff.mp hpos).2
        rw [hnum] at hle ⊢
        unfold RoutingConfig.numIndices at hle ⊢
        exact Nat.pow_dvd_pow 2 ((Nat.pow_le_pow_iff_right (by decide)).mp hle)
      · have hnum : oldNumIndices cfg old = 1 := if_neg hold
        rw [hnum]
        exact Nat.one_dvd _

/-! ## The estimate -/

/-- **The distinct fingerprints in the lowest sixteenth** of the fingerprint space, of all
filters. -/
def lowFingerprints (cfg : RoutingConfig) (filters : List RoutingFilter) : Finset Nat :=
  (filters.foldr (fun f union => storedFingerprints cfg f ∪ union) ∅).filter
    fun q => 16 * q < 2 ^ cfg.fingerprintSize

theorem unionOf_collected {cfg : RoutingConfig} {filters : List RoutingFilter}
    (hfilters : ∀ f ∈ filters, Estimable cfg f) :
    unionOf (filters.map (collectedOf cfg)) = lowFingerprints cfg filters := by
  have hfold : ∀ q, q ∈ filters.foldr (fun f union => storedFingerprints cfg f ∪ union) ∅ ↔
      ∃ f ∈ filters, q ∈ storedFingerprints cfg f := by
    intro q
    clear hfilters
    induction filters with
    | nil => simp
    | cons f filters ih => simp [ih]
  ext q
  rw [mem_unionOf, lowFingerprints, Finset.mem_filter, hfold]
  constructor
  · rintro ⟨seg, hseg, hq⟩
    obtain ⟨f, hf, rfl⟩ := List.mem_map.mp hseg
    obtain ⟨hstored, hlow⟩ := (mem_collectedOf (hfilters f hf)).mp hq
    exact ⟨⟨f, hf, hstored⟩, hlow⟩
  · rintro ⟨⟨f, hf, hstored⟩, hlow⟩
    exact ⟨_, List.mem_map_of_mem hf, (mem_collectedOf (hfilters f hf)).mpr ⟨hstored, hlow⟩⟩

theorem piecesAt_start {cfg : RoutingConfig} {filters : List RoutingFilter}
    {fpArr fpStart : List Nat} {dst : Nat}
    (hout : fpArr.take dst = (filters.map (collectedOf cfg)).flatten)
    (hstarts : StartsAt cfg filters 0 0 fpStart) :
    PiecesAt fpArr fpStart fpStart 0 (filters.map (collectedOf cfg)) := by
  intro j seg hseg
  rw [List.getElem?_map, Option.map_eq_some_iff] at hseg
  obtain ⟨f, hf, rfl⟩ := hseg
  have hj : j < filters.length := (List.getElem?_eq_some_iff.mp hf).1
  have hk := hstarts j (Nat.le_of_lt hj)
  have hstop := hstarts (j + 1) hj
  have htake : filters.take (j + 1) = filters.take j ++ [f] := by
    rw [List.take_add_one, hf]
    rfl
  rw [Nat.zero_add, Nat.zero_add] at hk hstop
  rw [htake, List.map_append, List.flatten_append, List.length_append] at hstop
  have hsplit : (filters.map (collectedOf cfg)).flatten =
      ((filters.take j).map (collectedOf cfg)).flatten ++ (collectedOf cfg f ++
        ((filters.drop (j + 1)).map (collectedOf cfg)).flatten) := by
    conv_lhs => rw [← List.take_append_drop (j + 1) filters, htake]
    simp
  have hlength : ((filters.take j).map (collectedOf cfg)).flatten.length +
      (collectedOf cfg f).length ≤ (fpArr.take dst).length := by
    rw [hout, hsplit, List.length_append, List.length_append]
    omega
  have hdst : (fpArr.take dst).length ≤ fpArr.length := by
    rw [List.length_take]
    exact Nat.min_le_right _ _
  refine ⟨_, _, by rw [Nat.zero_add]; exact hk, by rw [Nat.zero_add]; exact hstop, ?_, ?_, ?_⟩
  · exact Nat.le_add_right _ _
  · simp only [List.map_cons, List.map_nil, List.flatten_cons, List.flatten_nil, List.append_nil]
    omega
  · simp only [List.map_cons, List.map_nil, List.flatten_cons, List.flatten_nil, List.append_nil]
    have hcut : fpArr.take (((filters.take j).map (collectedOf cfg)).flatten.length +
        (collectedOf cfg f).length) =
        ((filters.take j).map (collectedOf cfg)).flatten ++ collectedOf cfg f := by
      have hcutDst : fpArr.take (((filters.take j).map (collectedOf cfg)).flatten.length +
          (collectedOf cfg f).length) =
          (fpArr.take dst).take (((filters.take j).map (collectedOf cfg)).flatten.length +
            (collectedOf cfg f).length) := by
        rw [List.take_take, Nat.min_eq_left]
        rw [List.length_take] at hlength
        omega
      rw [hcutDst, hout, hsplit, ← List.append_assoc]
      exact List.take_left' List.length_append
    rw [hcut]
    exact List.drop_left

theorem totalNumFp_lt (filters : List RoutingFilter) : totalNumFp filters < 2 ^ 32 := by
  unfold totalNumFp
  rcases List.eq_nil_or_concat filters with rfl | ⟨rest, f, rfl⟩
  · decide
  · rw [List.concat_eq_append, List.foldl_append]
    exact Nat.mod_lt _ (by decide)

/-- **When the estimate is right**, for complete filters of sixteen indices or more: the starts fit
into their array, the buffers are there, the words of the lowest sixteenths fit into a twelfth of
the total, and the product fits into 32 bits. -/
theorem estimate_iff {cfg : RoutingConfig} {memory : Bool} {filters : List RoutingFilter}
    (hlength : filters.length ≤ maxFilters) (hfilters : ∀ f ∈ filters, Estimable cfg f) :
    routingFilterEstimateUniqueFp cfg memory filters =
        some (16 * (lowFingerprints cfg filters).card) ↔
      (filters = [] ∨ (memory = true ∧ filters.length < maxFilters)) ∧
        lowWords cfg filters ≤ totalNumFp filters / 12 ∧
        16 * (lowFingerprints cfg filters).card < 2 ^ 32 := by
  unfold routingFilterEstimateUniqueFp
  rw [if_pos hlength]
  dsimp only
  have htotal := totalNumFp_lt filters
  rcases collectFilters_cases cfg memory filters 0 []
    (s := { fpArr := List.replicate (totalNumFp filters / 12) 0
            srcFpNo := 0
            dstFpNo := 0
            lastFp := uint32Max
            fpStart := List.replicate maxFilters 0 }) hfilters
    ⟨rfl, by simp, Nat.le_refl _, Nat.zero_le _⟩ (by simp [maxFilters]) with
    ⟨⟨hfits, hwords⟩, s', hrun, hend, hlen, hstarts, _⟩ | ⟨hfull, hnone⟩
  · dsimp only at hfits hwords hlen hstarts
    rw [List.length_replicate] at hfits hwords hlen
    rw [Nat.zero_add] at hfits hwords
    rw [hrun]
    dsimp only
    have hpieces := piecesAt_start (by rw [hend.out, List.nil_append]) hstarts
    have hsorted : ∀ seg ∈ filters.map (collectedOf cfg), seg.Pairwise (· < ·) := by
      intro seg hseg
      obtain ⟨f, hf, rfl⟩ := List.mem_map.mp hseg
      exact (collectedFrom_spec (hfilters f hf) _ (show 0 + _ ≤ _ by omega)).1
    have hbelow : ∀ seg ∈ filters.map (collectedOf cfg), ∀ a ∈ seg, a < uint32Max := by
      intro seg hseg a ha
      obtain ⟨f, hf, rfl⟩ := List.mem_map.mp hseg
      have hlow := ((mem_collectedOf (hfilters f hf)).mp ha).2
      have hpow : 2 ^ cfg.fingerprintSize ≤ 2 ^ 32 := by
        have hfits := (hfilters f hf).1.holds.fits
        exact Nat.pow_le_pow_right (by decide) (by omega)
      unfold uint32Max
      omega
    have hcard : (unionOf (filters.map (collectedOf cfg))).card ≤ totalNumFp filters / 12 := by
      apply Nat.le_trans (List.toFinset_card_le _)
      rw [← hlen]
      have hout := congrArg List.length hend.out
      rw [List.nil_append, List.length_take] at hout
      omega
    have hcount := countUnique_spec (totalNumFp filters / 12 + 1) hsorted hbelow hpieces
      (by omega) (show 0 < 2 ^ 32 by decide)
    rw [List.length_map, Nat.zero_add, Nat.mod_eq_of_lt (by omega),
      unionOf_collected hfilters] at hcount
    rw [hcount]
    simp only [Option.some.injEq]
    constructor
    · intro heq
      have hlt := Nat.mod_lt ((lowFingerprints cfg filters).card * 16) (show 0 < 2 ^ 32 by decide)
      exact ⟨hfits, hwords, by omega⟩
    · rintro ⟨_, _, hlt⟩
      rw [Nat.mod_eq_of_lt (by omega), Nat.mul_comm]
  · rw [hnone]
    constructor
    · intro h
      cases h
    · rintro ⟨hfits, hwords, _⟩
      exfalso
      apply hfull
      constructor
      · simpa using hfits
      · simpa using hwords

private def sixteenIndices : RoutingFilter where
  present := true
  numFingerprints := 16
  numUnique := 16
  valueSize := 0
  indices := List.replicate 16
    { numRemainders := 1
      encoding := false :: List.replicate 31 true
      remainders := [0] }

private theorem sixteenIndices_estimable : Estimable byteFingerprints sixteenIndices := by
  have hadded : routingFilterAdd byteFingerprints true nullRoutingFilter
      ((List.range 16).map fun i => UInt32.ofNat (i * 2 ^ 28)) 0 = some (.ok sixteenIndices) := by
    decide +kernel
  have hchain : FilterChain byteFingerprints sixteenIndices :=
    .add .null (fun h => Bool.noConfusion h) hadded
  exact ⟨hchain.complete (by decide), by decide⟩

/-- One filter, whose estimate is right. -/
theorem estimate_iff_one :
    routingFilterEstimateUniqueFp byteFingerprints true [sixteenIndices] =
        some (16 * (lowFingerprints byteFingerprints [sixteenIndices]).card) ↔
      ([sixteenIndices] = [] ∨ (true = true ∧ [sixteenIndices].length < maxFilters)) ∧
        lowWords byteFingerprints [sixteenIndices] ≤ totalNumFp [sixteenIndices] / 12 ∧
        16 * (lowFingerprints byteFingerprints [sixteenIndices]).card < 2 ^ 32 :=
  estimate_iff (by decide) (fun f hf => by
    obtain rfl := List.mem_singleton.mp hf
    exact sixteenIndices_estimable)

/-- **With `MAX_FILTERS` filters the last start is written behind its array.** -/
theorem estimate_out_of_bounds :
    ¬ ∀ filters : List RoutingFilter, filters.length ≤ maxFilters →
      (∀ f ∈ filters, Estimable byteFingerprints f) →
      routingFilterEstimateUniqueFp byteFingerprints true filters =
        some (16 * (lowFingerprints byteFingerprints filters).card) := by
  intro h
  have hnone : routingFilterEstimateUniqueFp byteFingerprints true
      (List.replicate maxFilters sixteenIndices) = none := by
    decide +kernel
  have hsome := h (List.replicate maxFilters sixteenIndices) (by simp) (fun f hf => by
    obtain rfl := List.eq_of_mem_replicate hf
    exact sixteenIndices_estimable)
  rw [hnone] at hsome
  cases hsome

end Filter
end TreePass
