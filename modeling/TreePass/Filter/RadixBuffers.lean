import TreePass.Filter.Radix

/-!
# The radix sort on its buffers

`RadixSort` works on a caller's matrix of counters and on two arrays that change places after
every round, so the result is in one or the other.  This is the function with all of that: the
32-bit counters, the indices that replace the counts in place, and every assertion.

* `countBytes_spec` and `generateHistograms_spec` are the counts of all rounds, from one pass.
* `convertRow_spec` turns the counts of a row into the places to start at.
* `moveWords_spec` is a round: the stable buckets of one byte.
* `radixSortBuffers_sorts` is the function, and `radixSort_of_buffers` says that `radixSort`, which
  the model of the filter uses, gives what it leaves in the reported array.
-/

namespace TreePass
namespace Filter

open Lib

/-! ## The function -/

/-- The counters of `RadixSort` by row and column. -/
abbrev IndexMatrix := Nat → Nat → Nat

/-- `mIndex[j][c] = n`. -/
def IndexMatrix.put (mIndex : IndexMatrix) (j c n : Nat) : IndexMatrix :=
  Function.update mIndex j (Function.update (mIndex j) c n)

/-- The inner loop of the histograms: the bytes of one word are counted. -/
def countBytes (count rounds u : Nat) (mIndex : IndexMatrix) : Option IndexMatrix :=
  (List.range rounds).foldlM (fun mIndex j =>
    let n := (mIndex j (byteAt j u) + 1) % 2 ^ 32
    if n ≤ count then some (IndexMatrix.put mIndex j (byteAt j u) n) else none) mIndex

def generateHistograms (count rounds : Nat) : List Nat → IndexMatrix → Option IndexMatrix
  | [], mIndex => some mIndex
  | u :: data, mIndex =>
      if u < 2 ^ (8 * rounds) then
        (countBytes count rounds u mIndex).bind (generateHistograms count rounds data)
      else none

def convertRow (count : Nat) (row : Nat → Nat) : Option (Nat → Nat) :=
  ((List.range matrixCols).foldlM (fun (s : (Nat → Nat) × Nat) i =>
    if s.2 ≤ count then some (Function.update s.1 i s.2, (s.2 + s.1 i) % 2 ^ 32)
    else none) (row, 0)).map Prod.fst

def convertToIndices (count rounds : Nat) (mIndex : IndexMatrix) : Option IndexMatrix :=
  (List.range rounds).foldlM (fun mIndex j =>
    (convertRow count (mIndex j)).map fun row => Function.update mIndex j row) mIndex

/-- One round: every word of the source goes to the place of its byte. -/
def moveWords (count j : Nat) : (Nat → Nat) → List Nat → List Nat → Option (List Nat)
  | _, [], dst => some dst
  | row, u :: src, dst =>
      if row (byteAt j u) < count then
        moveWords count j
          (Function.update row (byteAt j u) ((row (byteAt j u) + 1) % 2 ^ 32)) src
          (dst.set (row (byteAt j u)) u)
      else none

/-- The two arrays.  `inTemp` says which of the caller's arrays `src` is. -/
structure RadixArrays where
  src : List Nat
  dst : List Nat
  inTemp : Bool

def sortRounds (count : Nat) (mIndex : IndexMatrix) : Nat → Nat → RadixArrays → Option RadixArrays
  | 0, _, arrays => some arrays
  | rounds + 1, j, arrays =>
      (moveWords count j (mIndex j) (arrays.src.take count) arrays.dst).bind fun dst =>
        sortRounds count mIndex rounds (j + 1) ⟨dst, arrays.src, !arrays.inTemp⟩

/-- The rounds for a size of fingerprints, computed in 32 bits. -/
def radixRoundsOf (fpSize : Nat) : Nat :=
  ((if fpSize = 0 then 1 else fpSize) + 7) % 2 ^ 32 / 8

/-- `RadixSort`: the array that is returned (as `src`) and the other one, or `none` where an
assertion fails. -/
def radixSortBuffers (pData : List Nat) (mBuf : IndexMatrix) (pTemp : List Nat)
    (count fpSize : Nat) : Option RadixArrays :=
  let rounds := radixRoundsOf fpSize
  if rounds ≤ matrixRows ∧ ∀ i < matrixRows, ∀ j < matrixCols, mBuf i j = 0 then
    (generateHistograms count rounds (pData.take count) mBuf).bind fun mIndex =>
      (convertToIndices count rounds mIndex).bind fun mIndex =>
        sortRounds count mIndex rounds 0 ⟨pData, pTemp, false⟩
  else none

/-! ## The counts -/

theorem byteAt_lt (j u : Nat) : byteAt j u < matrixCols := Nat.mod_lt _ (by decide)

/-- Every row counts the bytes of its round in a part of the words. -/
def Counts (rounds : Nat) (done : List Nat) (mIndex : IndexMatrix) : Prop :=
  ∀ j < rounds, ∀ c < matrixCols, mIndex j c = keyCount (byteAt j) done c

private theorem keyCount_snoc (key : Nat → Nat) (done : List Nat) (u c : Nat) :
    keyCount key (done ++ [u]) c = keyCount key done c + if key u = c then 1 else 0 := by
  unfold keyCount
  rw [List.countP_append]
  by_cases h : key u = c
  · simp [h]
  · simp [h]

theorem countBytes_spec {count rounds : Nat} (u : Nat) {done : List Nat} {mIndex : IndexMatrix}
    (hcount : count < 2 ^ 32) (hroom : done.length < count) (h : Counts rounds done mIndex) :
    ∃ mIndex', countBytes count rounds u mIndex = some mIndex' ∧
      Counts rounds (done ++ [u]) mIndex' := by
  -- The rows before `n` have the word counted, the others do not have it yet.
  have hrows : ∀ n ≤ rounds, ∃ mIndex', countBytes count n u mIndex = some mIndex' ∧
      ∀ j < rounds, ∀ c < matrixCols, mIndex' j c =
        if j < n then keyCount (byteAt j) (done ++ [u]) c else keyCount (byteAt j) done c := by
    intro n
    induction n with
    | zero =>
        intro _
        refine ⟨mIndex, rfl, ?_⟩
        intro j hj c hc
        rw [if_neg (Nat.not_lt_zero j)]
        exact h j hj c hc
    | succ n ih =>
        intro hn
        obtain ⟨before, hbefore, hvals⟩ := ih (Nat.le_of_succ_le hn)
        have hcell := hvals n hn _ (byteAt_lt n u)
        rw [if_neg (Nat.lt_irrefl n)] at hcell
        have hle : keyCount (byteAt n) done (byteAt n u) ≤ done.length := List.countP_le_length
        have hnext : (before n (byteAt n u) + 1) % 2 ^ 32 =
            keyCount (byteAt n) done (byteAt n u) + 1 := by
          rw [hcell]
          exact Nat.mod_eq_of_lt (by omega)
        refine ⟨IndexMatrix.put before n (byteAt n u)
          (keyCount (byteAt n) done (byteAt n u) + 1), ?_, ?_⟩
        · unfold countBytes at hbefore ⊢
          rw [List.range_succ, List.foldlM_append, hbefore]
          simp only [Option.bind_eq_bind, Option.bind_some, List.foldlM_cons, List.foldlM_nil,
            hnext]
          rw [if_pos (by omega)]
          rfl
        · intro j hj c hc
          unfold IndexMatrix.put
          by_cases hjn : j = n
          · subst hjn
            rw [Function.update_self, if_pos (Nat.lt_succ_self j), keyCount_snoc]
            by_cases hbyte : byteAt j u = c
            · subst hbyte
              rw [Function.update_self, if_pos rfl]
            · rw [Function.update_of_ne (Ne.symm hbyte), if_neg hbyte, hvals j hj c hc,
                if_neg (Nat.lt_irrefl j)]
              rfl
          · rw [Function.update_of_ne hjn, hvals j hj c hc]
            by_cases hlt : j < n
            · rw [if_pos hlt, if_pos (Nat.lt_succ_of_lt hlt)]
            · rw [if_neg hlt, if_neg (by omega)]
  obtain ⟨mIndex', hrun, hvals⟩ := hrows rounds (Nat.le_refl _)
  refine ⟨mIndex', hrun, ?_⟩
  intro j hj c hc
  rw [hvals j hj c hc, if_pos hj]

theorem generateHistograms_spec {count rounds : Nat} (hcount : count < 2 ^ 32) (data : List Nat) :
    ∀ (done : List Nat) (mIndex : IndexMatrix), done.length + data.length ≤ count →
      (∀ u ∈ data, u < 2 ^ (8 * rounds)) → Counts rounds done mIndex →
      ∃ mIndex', generateHistograms count rounds data mIndex = some mIndex' ∧
        Counts rounds (done ++ data) mIndex' := by
  induction data with
  | nil =>
      intro done mIndex _ _ h
      refine ⟨mIndex, rfl, ?_⟩
      rw [List.append_nil]
      exact h
  | cons u data ih =>
      intro done mIndex hlen hwords h
      rw [List.length_cons] at hlen
      obtain ⟨middle, hmiddle, hcounts⟩ :=
        countBytes_spec u hcount (by omega) h
      obtain ⟨mIndex', hrun, hall⟩ := ih (done ++ [u]) middle
        (by rw [List.length_append, List.length_singleton]; omega)
        (fun v hv => hwords v (List.mem_cons_of_mem u hv)) hcounts
      refine ⟨mIndex', ?_, ?_⟩
      · unfold generateHistograms
        rw [if_pos (hwords u List.mem_cons_self), hmiddle]
        exact hrun
      · rw [List.append_cons]
        exact hall

/-! ## The places to start at -/

theorem convertRow_spec {count : Nat} {key : Nat → Nat} {data : List Nat} {row : Nat → Nat}
    (hcount : count < 2 ^ 32) (hlen : data.length ≤ count)
    (h : ∀ c < matrixCols, row c = keyCount key data c) :
    ∃ row', convertRow count row = some row' ∧
      ∀ c < matrixCols, row' c = keysBelow key data c := by
  -- The columns before `n` are converted, and the sum stands at column `n`.
  have hcols : ∀ n ≤ matrixCols, ∃ row', (List.range n).foldlM
      (fun (s : (Nat → Nat) × Nat) i =>
        if s.2 ≤ count then some (Function.update s.1 i s.2, (s.2 + s.1 i) % 2 ^ 32) else none)
      (row, 0) = some (row', keysBelow key data n) ∧
      ∀ c < matrixCols, row' c =
        if c < n then keysBelow key data c else keyCount key data c := by
    intro n
    induction n with
    | zero =>
        intro _
        refine ⟨row, by simp [keysBelow], ?_⟩
        intro c hc
        rw [if_neg (Nat.not_lt_zero c)]
        exact h c hc
    | succ n ih =>
        intro hn
        obtain ⟨before, hbefore, hvals⟩ := ih (Nat.le_of_succ_le hn)
        have hcell := hvals n hn
        rw [if_neg (Nat.lt_irrefl n)] at hcell
        have hsum : keysBelow key data n + keyCount key data n ≤ count := by
          rw [← keysBelow_succ]
          exact Nat.le_trans (keysBelow_le_length key data _) hlen
        refine ⟨Function.update before n (keysBelow key data n), ?_, ?_⟩
        · rw [List.range_succ, List.foldlM_append, hbefore]
          simp only [Option.bind_eq_bind, Option.bind_some, List.foldlM_cons, List.foldlM_nil]
          rw [if_pos (by omega), hcell, Nat.mod_eq_of_lt (by omega), keysBelow_succ]
          rfl
        · intro c hc
          by_cases hcn : c = n
          · subst hcn
            rw [Function.update_self, if_pos (Nat.lt_succ_self c)]
          · rw [Function.update_of_ne hcn, hvals c hc]
            by_cases hlt : c < n
            · rw [if_pos hlt, if_pos (Nat.lt_succ_of_lt hlt)]
            · rw [if_neg hlt, if_neg (by omega)]
  obtain ⟨row', hrun, hvals⟩ := hcols matrixCols (Nat.le_refl _)
  refine ⟨row', ?_, ?_⟩
  · unfold convertRow
    rw [hrun]
    rfl
  · intro c hc
    rw [hvals c hc, if_pos hc]

/-- Every row has the place where the words with a byte start. -/
def Starts (rounds : Nat) (data : List Nat) (mIndex : IndexMatrix) : Prop :=
  ∀ j < rounds, ∀ c < matrixCols, mIndex j c = keysBelow (byteAt j) data c

theorem convertToIndices_spec {count rounds : Nat} {data : List Nat} {mIndex : IndexMatrix}
    (hcount : count < 2 ^ 32) (hlen : data.length ≤ count) (h : Counts rounds data mIndex) :
    ∃ mIndex', convertToIndices count rounds mIndex = some mIndex' ∧
      Starts rounds data mIndex' := by
  have hrows : ∀ n ≤ rounds, ∃ mIndex', convertToIndices count n mIndex = some mIndex' ∧
      Starts n data mIndex' ∧ ∀ j, n ≤ j → mIndex' j = mIndex j := by
    intro n
    induction n with
    | zero =>
        intro _
        exact ⟨mIndex, rfl, fun j hj => absurd hj (Nat.not_lt_zero j), fun _ _ => rfl⟩
    | succ n ih =>
        intro hn
        obtain ⟨before, hbefore, hstarts, hlater⟩ := ih (Nat.le_of_succ_le hn)
        have hcounts : ∀ c < matrixCols, before n c = keyCount (byteAt n) data c := by
          intro c hc
          rw [hlater n (Nat.le_refl n)]
          exact h n hn c hc
        obtain ⟨row, hrow, hvals⟩ := convertRow_spec hcount hlen hcounts
        refine ⟨Function.update before n row, ?_, ?_, ?_⟩
        · unfold convertToIndices at hbefore ⊢
          rw [List.range_succ, List.foldlM_append, hbefore]
          simp only [Option.bind_eq_bind, Option.bind_some, List.foldlM_cons, List.foldlM_nil, hrow,
            Option.map_some]
          rfl
        · intro j hj c hc
          by_cases hjn : j = n
          · subst hjn
            rw [Function.update_self]
            exact hvals c hc
          · rw [Function.update_of_ne hjn]
            exact hstarts j (by omega) c hc
        · intro j hj
          rw [Function.update_of_ne (by omega)]
          exact hlater j (by omega)
  obtain ⟨mIndex', hrun, hstarts, -⟩ := hrows rounds (Nat.le_refl _)
  exact ⟨mIndex', hrun, hstarts⟩

/-! ## The rounds -/

theorem moveWords_eq {count j : Nat} (hcount : count < 2 ^ 32) (src : List Nat) :
    ∀ (row : Nat → Nat) (dst : List Nat) {out : List Nat},
      scatterFrom (byteAt j) count row src (dst.take count) = some out →
      ∃ dst', moveWords count j row src dst = some dst' ∧ dst'.take count = out ∧
        dst'.length = dst.length := by
  induction src with
  | nil =>
      intro row dst out h
      exact ⟨dst, rfl, Option.some.inj h, rfl⟩
  | cons u src ih =>
      intro row dst out h
      unfold scatterFrom at h
      unfold moveWords
      by_cases hplace : row (byteAt j u) < count
      · rw [if_pos hplace, ← List.take_set] at h
        rw [if_pos hplace, Nat.mod_eq_of_lt (by omega)]
        obtain ⟨dst', hrun, htake, hlen⟩ := ih _ _ h
        refine ⟨dst', hrun, htake, ?_⟩
        rw [hlen, List.length_set]
      · rw [if_neg hplace] at h
        cases h

theorem moveWords_spec {count j : Nat} {row : Nat → Nat} {src dst : List Nat}
    (hcount : count < 2 ^ 32) (hsrc : src.length = count) (hdst : count ≤ dst.length)
    (hrow : ∀ c < matrixCols, row c = keysBelow (byteAt j) src c) :
    ∃ dst', moveWords count j row src dst = some dst' ∧
      dst'.take count = buckets (byteAt j) matrixCols src ∧ dst'.length = dst.length := by
  apply moveWords_eq hcount
  rw [← hsrc]
  apply scatterFrom_eq_buckets (byteAt j) (fun u _ => byteAt_lt j u) hrow
  rw [List.length_take, hsrc]
  exact Nat.min_eq_left hdst

theorem sortRounds_spec {count total : Nat} {data : List Nat} {mIndex : IndexMatrix}
    (hcount : count < 2 ^ 32) (hstarts : Starts total data mIndex)
    (rounds : Nat) : ∀ (j : Nat) (arrays : RadixArrays), j + rounds ≤ total →
      count ≤ arrays.src.length → count ≤ arrays.dst.length →
      (arrays.src.take count).Perm data →
      ((arrays.src.take count).Pairwise fun a b => a % matrixCols ^ j ≤ b % matrixCols ^ j) →
      ∃ out, sortRounds count mIndex rounds j arrays = some out ∧
        (out.src.take count).Perm data ∧
        ((out.src.take count).Pairwise fun a b =>
          a % matrixCols ^ (j + rounds) ≤ b % matrixCols ^ (j + rounds)) ∧
        out.inTemp = (arrays.inTemp != decide (rounds % 2 = 1)) := by
  induction rounds with
  | zero =>
      intro j arrays _ _ _ hperm hpair
      refine ⟨arrays, rfl, hperm, hpair, ?_⟩
      simp
  | succ rounds ih =>
      intro j arrays htotal hsrc hdst hperm hpair
      have hlen : (arrays.src.take count).length = count := by
        rw [List.length_take]
        exact Nat.min_eq_left hsrc
      have hrow : ∀ c < matrixCols,
          mIndex j c = keysBelow (byteAt j) (arrays.src.take count) c := by
        intro c hc
        rw [hstarts j (by omega) c hc]
        exact (hperm.countP_eq _).symm
      obtain ⟨dst, hmove, htake, hdstlen⟩ := moveWords_spec hcount hlen hdst hrow
      have hbuckets : (buckets (byteAt j) matrixCols (arrays.src.take count)).Perm
          (arrays.src.take count) := perm_buckets (byteAt j) fun u _ => byteAt_lt j u
      obtain ⟨out, hrun, houtperm, houtpair, hwhere⟩ :=
        ih (j + 1) ⟨dst, arrays.src, !arrays.inTemp⟩ (by omega) (hdstlen ▸ hdst) hsrc
          (by rw [htake]; exact hbuckets.trans hperm)
          (by rw [htake]; exact pairwise_mod_buckets hpair)
      refine ⟨out, ?_, houtperm, ?_, ?_⟩
      · unfold sortRounds
        rw [hmove]
        exact hrun
      · rw [show j + (rounds + 1) = j + 1 + rounds by omega]
        exact houtpair
      · rw [hwhere]
        have hparity : decide ((rounds + 1) % 2 = 1) = !decide (rounds % 2 = 1) := by
          rcases Nat.mod_two_eq_zero_or_one rounds with h | h <;> simp [Nat.add_mod, h]
        rw [hparity]
        cases arrays.inTemp <;> cases decide (rounds % 2 = 1) <;> rfl

section Sorts

variable {pData pTemp : List Nat} {mBuf : IndexMatrix} {count fpSize : Nat}

/-- **`RadixSort` sorts.**  On a zeroed matrix and words that fit the rounds no assertion fails;
the array that is reported, the second one after an odd number of rounds, holds the words in
order. -/
theorem radixSortBuffers_sorts (hcount : count < 2 ^ 32) (hdata : count ≤ pData.length)
    (htemp : count ≤ pTemp.length)
    (hzero : ∀ i < matrixRows, ∀ j < matrixCols, mBuf i j = 0)
    (hrounds : radixRoundsOf fpSize ≤ matrixRows)
    (hwords : ∀ u ∈ pData.take count, u < 2 ^ (8 * radixRoundsOf fpSize)) :
    ∃ out, radixSortBuffers pData mBuf pTemp count fpSize = some out ∧
      out.inTemp = decide (radixRoundsOf fpSize % 2 = 1) ∧
      (out.src.take count).Perm (pData.take count) ∧
      (out.src.take count).Pairwise (· ≤ ·) := by
  have hlen : (pData.take count).length = count := by
    rw [List.length_take]
    exact Nat.min_eq_left hdata
  have hempty : Counts (radixRoundsOf fpSize) [] mBuf := by
    intro j hj c hc
    rw [hzero j (by omega) c hc]
    rfl
  obtain ⟨histograms, hhist, hcounts⟩ := generateHistograms_spec hcount (pData.take count) [] mBuf
    (by rw [hlen, List.length_nil]; omega) hwords hempty
  obtain ⟨mIndex, hconvert, hstarts⟩ := convertToIndices_spec hcount (Nat.le_of_eq hlen) hcounts
  obtain ⟨out, hrun, hperm, hpair, hwhere⟩ := sortRounds_spec hcount hstarts
    (radixRoundsOf fpSize) 0 ⟨pData, pTemp, false⟩ (by omega) hdata htemp (List.Perm.refl _)
    (by simp [Nat.mod_one, List.pairwise_iff_forall_sublist])
  refine ⟨out, ?_, ?_, hperm, ?_⟩
  · unfold radixSortBuffers
    dsimp only
    rw [if_pos ⟨hrounds, hzero⟩, hhist]
    change (convertToIndices count (radixRoundsOf fpSize) histograms).bind _ = _
    rw [hconvert]
    exact hrun
  · rw [hwhere]
    exact Bool.false_xor _
  · -- The words have no further bytes.
    have hword : ∀ u ∈ out.src.take count,
        u % matrixCols ^ (0 + radixRoundsOf fpSize) = u := by
      intro u hu
      apply Nat.mod_eq_of_lt
      have hlt := hwords u (hperm.mem_iff.mp hu)
      rwa [Nat.zero_add, show matrixCols = 2 ^ 8 from rfl, ← Nat.pow_mul]
    apply hpair.imp_of_mem
    intro a b ha hb hab
    rwa [hword a ha, hword b hb] at hab

/-- Four words of two bytes: after two rounds they are in the first array again. -/
theorem radixSortBuffers_sorts_fourWords :
    ∃ out, radixSortBuffers [513, 3, 258, 0] (fun _ _ => 0) [9, 9, 9, 9, 9] 4 10 = some out ∧
      out.inTemp = false ∧ (out.src.take 4).Perm [513, 3, 258, 0] ∧
      (out.src.take 4).Pairwise (· ≤ ·) :=
  radixSortBuffers_sorts (by decide) (by decide) (by decide) (fun _ _ _ _ => rfl) (by decide)
    (by decide)

theorem radixSort_of_buffers (hcount : count < 2 ^ 32) (hdata : count ≤ pData.length)
    (htemp : count ≤ pTemp.length)
    (hzero : ∀ i < matrixRows, ∀ j < matrixCols, mBuf i j = 0) (hsize : fpSize ≤ 32)
    (hwords : ∀ u ∈ pData.take count, u < 2 ^ fpSize) :
    ∃ out, radixSortBuffers pData mBuf pTemp count fpSize = some out ∧
      radixSort (pData.take count) (pTemp.take count) fpSize = some (out.src.take count) := by
  have hrounds : radixRoundsOf fpSize = ((if fpSize = 0 then 1 else fpSize) + 7) / 8 := by
    unfold radixRoundsOf
    split <;> omega
  have hrows : radixRoundsOf fpSize ≤ matrixRows := by
    rw [hrounds]
    unfold matrixRows
    split <;> omega
  have hfits : ∀ u ∈ pData.take count, u < 2 ^ (8 * radixRoundsOf fpSize) := by
    intro u hu
    apply Nat.lt_of_lt_of_le (hwords u hu)
    apply Nat.pow_le_pow_right (by decide)
    rw [hrounds]
    split <;> omega
  obtain ⟨out, hrun, -, hperm, hsorted⟩ :=
    radixSortBuffers_sorts hcount hdata htemp hzero hrows hfits
  refine ⟨out, hrun, radixSort_eq_some hsize hwords ?_ hperm hsorted⟩
  rw [List.length_take, List.length_take, Nat.min_eq_left hdata, Nat.min_eq_left htemp]

end Sorts

end Filter
end TreePass
