import TreePass.Filter.AddRuns
import Mathlib.Algebra.BigOperators.Group.Finset.Piecewise
import Mathlib.Algebra.BigOperators.Group.Finset.Sigma
import Mathlib.Algebra.Order.BigOperators.Group.Finset

/-!
# The number of distinct fingerprints of a filter

`routing_filter_add` counts a word of an index before it looks whether the word is still in the
index. The old word at which an index ends early is therefore counted there, and once more in the
index it belongs to. Against this stands a word whose fingerprint is all ones, in a filter whose
fingerprints and values fill a word: as the first one of an index it equals the initial value of
`last_fp_added`, and is not counted.

* `FilterChain` are the filters that chains of adds build.
* `num_unique_iff`: the count is the number of distinct fingerprints exactly when the indices that
  end early are as many as those that begin with the initial value.
* `num_unique_counts_twice` is an add of one fingerprint to a filter with one, which counts three.
-/

namespace TreePass
namespace Filter

open Lib

/-! ## The new words -/

theorem dropRepeats_from (fps : List Nat) : ∀ (dst : List Nat),
    (dst ++ fps).Pairwise (· ≤ ·) →
    (fps.foldl (fun dst fp => if dst.getLast? = some fp then dst else dst ++ [fp]) dst).Pairwise
        (· ≤ ·) ∧
      ∀ fp, fp ∈ fps.foldl
        (fun dst fp => if dst.getLast? = some fp then dst else dst ++ [fp]) dst ↔
          fp ∈ dst ∨ fp ∈ fps := by
  induction fps with
  | nil =>
      intro dst h
      exact ⟨by simpa using h, by simp⟩
  | cons a fps ih =>
      intro dst h
      rw [List.foldl_cons]
      by_cases hlast : dst.getLast? = some a
      · rw [if_pos hlast]
        have hmem := List.mem_of_getLast? hlast
        have hsub : (dst ++ fps).Pairwise (· ≤ ·) :=
          h.sublist (List.Sublist.append_left (List.sublist_cons_self a fps) dst)
        obtain ⟨hsorted, hiff⟩ := ih dst hsub
        refine ⟨hsorted, fun fp => ?_⟩
        rw [hiff, List.mem_cons]
        constructor
        · rintro (h | h)
          · exact Or.inl h
          · exact Or.inr (Or.inr h)
        · rintro (h | rfl | h)
          · exact Or.inl h
          · exact Or.inl hmem
          · exact Or.inr h
      · rw [if_neg hlast]
        obtain ⟨hsorted, hiff⟩ := ih (dst ++ [a]) (by simpa using h)
        refine ⟨hsorted, fun fp => ?_⟩
        rw [hiff, List.mem_append, List.mem_singleton, List.mem_cons, or_assoc]

theorem dropRepeats_spec {fps : List Nat} (h : fps.Pairwise (· ≤ ·)) :
    (dropRepeats fps).Pairwise (· ≤ ·) ∧ ∀ fp, fp ∈ dropRepeats fps ↔ fp ∈ fps := by
  obtain ⟨hsorted, hiff⟩ := dropRepeats_from fps [] h
  exact ⟨hsorted, fun fp => by rw [dropRepeats, hiff]; simp⟩

theorem valueSizeOf_spec (value : UInt16) : value.toNat < 2 ^ valueSizeOf value := by
  unfold valueSizeOf
  by_cases h : value = 0
  · subst h
    decide
  · rw [if_neg h]
    exact Nat.lt_log2_self

def fingerprintOf (cfg : RoutingConfig) (fp : UInt32) : Nat :=
  fp.toNat >>> (32 - cfg.fingerprintSize)

theorem fingerprintOf_lt {cfg : RoutingConfig} (hsize : cfg.fingerprintSize ≤ 32) (fp : UInt32) :
    fingerprintOf cfg fp < 2 ^ cfg.fingerprintSize := by
  unfold fingerprintOf
  rw [Nat.shiftRight_eq_div_pow]
  apply Nat.div_lt_of_lt_mul
  rw [← Nat.pow_add, Nat.sub_add_cancel hsize]
  exact fp.toNat_lt

theorem prepareFps_spec {cfg : RoutingConfig} {newFpArr : List UInt32} {value : UInt16}
    {fps : List Nat} (hsize : cfg.fingerprintSize ≤ 32)
    (h : prepareFps cfg newFpArr value (valueSizeOf value) = some fps) :
    fps.Pairwise (· ≤ ·) ∧ ∀ w, w ∈ fps ↔ ∃ fp ∈ newFpArr,
      w = fingerprintOf cfg fp <<< valueSizeOf value + value.toNat := by
  have hlt := valueSizeOf_spec value
  unfold prepareFps at h
  dsimp only at h
  have hsort : radixSort (newFpArr.map fun fp => fp.toNat >>> (32 - cfg.fingerprintSize))
      (List.replicate newFpArr.length 0) cfg.fingerprintSize =
      some ((newFpArr.map (fingerprintOf cfg)).insertionSort (· ≤ ·)) := by
    apply radixSort_eq_some hsize
    · intro u hu
      obtain ⟨fp, _, rfl⟩ := List.mem_map.mp hu
      exact fingerprintOf_lt hsize fp
    · simp
    · exact List.perm_insertionSort _ _
    · exact List.pairwise_insertionSort _ _
  rw [hsort] at h
  dsimp only at h
  obtain rfl := Option.some.inj h
  have hword : ∀ fp, fp <<< valueSizeOf value ||| value.toNat =
      fp <<< valueSizeOf value + value.toNat :=
    fun fp => (Nat.shiftLeft_add_eq_or_of_lt hlt fp).symm
  have hsorted : (((newFpArr.map (fingerprintOf cfg)).insertionSort (· ≤ ·)).map fun fp =>
      fp <<< valueSizeOf value ||| value.toNat).Pairwise (· ≤ ·) := by
    rw [List.pairwise_map]
    apply (List.pairwise_insertionSort (· ≤ ·) _).imp
    intro a b hab
    rw [hword, hword, Nat.shiftLeft_eq, Nat.shiftLeft_eq]
    exact Nat.add_le_add_right (Nat.mul_le_mul_right _ hab) _
  obtain ⟨hpair, hiff⟩ := dropRepeats_spec hsorted
  refine ⟨hpair, fun w => ?_⟩
  rw [hiff, List.mem_map]
  constructor
  · rintro ⟨q, hq, rfl⟩
    have hmem := (List.perm_insertionSort (· ≤ ·) _).mem_iff.mp hq
    obtain ⟨fp, hfp, rfl⟩ := List.mem_map.mp hmem
    exact ⟨fp, hfp, hword _⟩
  · rintro ⟨fp, hfp, rfl⟩
    refine ⟨fingerprintOf cfg fp, ?_, hword _⟩
    exact (List.perm_insertionSort (· ≤ ·) _).mem_iff.mpr (List.mem_map_of_mem hfp)

theorem routingGetIndex_eq {fp bits : Nat} (h : fp < 2 ^ 32) :
    routingGetIndex fp bits = fp >>> bits := by
  unfold routingGetIndex
  by_cases hbits : bits = 32
  · subst hbits
    rw [if_pos rfl, Nat.shiftRight_eq_div_pow, Nat.div_eq_of_lt h]
  · rw [if_neg hbits]

theorem indexCounts_spec {cfg : RoutingConfig} {bits : Nat} {new : List Nat}
    (hnew : new.Pairwise (· ≤ ·)) (hfits : ∀ fp ∈ new, fp < 2 ^ 32) (left : Nat) :
    ∀ {start i count : Nat},
      (indexCounts (bits + cfg.logIndexSize) left start (wordsFrom cfg bits start new))[i]? =
        some count → count = (wordsAt cfg bits (start + i) new).length := by
  induction left with
  | zero =>
      intro start i count h
      simp [indexCounts] at h
  | succ left ih =>
      intro start i count h
      have hrun : ((wordsFrom cfg bits start new).takeWhile fun fp =>
          decide (routingGetIndex fp (bits + cfg.logIndexSize) = start)) =
          wordsAt cfg bits start new := by
        have htest : ((wordsFrom cfg bits start new).takeWhile fun fp =>
            decide (routingGetIndex fp (bits + cfg.logIndexSize) = start)) =
            (wordsFrom cfg bits start new).takeWhile fun fp =>
              decide (wordIndex cfg bits fp = start) := by
          apply takeWhile_congr
          intro fp hfp
          rw [routingGetIndex_eq (hfits fp (mem_wordsFrom.mp hfp).1)]
          rfl
        rw [htest, takeWhile_run (wordIndex cfg bits)
          (sorted_wordIndex (wordsFrom_sorted hnew)) (fun fp hfp => (mem_wordsFrom.mp hfp).2)]
        unfold wordsFrom wordsAt
        rw [List.filter_filter]
        apply List.filter_congr
        intro fp _
        rw [← Bool.decide_and, decide_eq_decide]
        omega
      unfold indexCounts at h
      dsimp only at h
      rw [hrun, drop_wordsFrom hnew] at h
      cases i with
      | zero =>
          simp only [List.getElem?_cons_zero, Option.some.injEq] at h
          exact h.symm
      | succ i =>
          rw [List.getElem?_cons_succ] at h
          have := ih h
          rwa [show start + (i + 1) = start + 1 + i by omega]

/-! ## What an add returns -/

/-- **What an add builds**, for the sorted new words: the words of every index and their count. -/
structure AddBuilds (cfg : RoutingConfig) (old : RoutingFilter) (newFpArr : List UInt32)
    (value : UInt16) (fps : List Nat) (f : RoutingFilter) : Prop where
  fits : cfg.fingerprintSize + f.valueSize ≤ 32
  width : cfg.logNumBuckets f.numFingerprints ≤ cfg.fingerprintSize
  bound : f.numFingerprints < 2 ^ 32
  valueSize : f.valueSize = valueSizeOf value
  numFingerprints : f.numFingerprints = newNumFingerprints old newFpArr
  prepared : prepareFps cfg newFpArr value f.valueSize = some fps
  sorted : fps.Pairwise (· ≤ ·)
  oldValue : old.present = true → old.valueSize ≤ f.valueSize
  length : f.indices.length = oldNumIndices cfg old *
    (cfg.numIndices f.numFingerprints / oldNumIndices cfg old)
  numUnique : f.numUnique = (∑ j ∈ Finset.range f.indices.length,
    newCountAt cfg old f.numFingerprints f.valueSize fps j) % 2 ^ 32
  holds : ∀ j block, f.indices[j]? = some block →
    BlockHolds cfg (cfg.remainderAndValueSize f.numFingerprints f.valueSize) j block
      (newWordsAt cfg old f.numFingerprints f.valueSize fps j)

theorem AddBuilds.filterHolds {cfg : RoutingConfig} {old f : RoutingFilter}
    {newFpArr : List UInt32} {value : UInt16} {fps : List Nat}
    (h : AddBuilds cfg old newFpArr value fps f) : FilterHolds cfg f :=
  ⟨h.fits, h.width, fun j block hblock => ⟨_, h.holds j block hblock⟩⟩

theorem routingFilterAdd_spec {cfg : RoutingConfig} {memory : Bool} {old f : RoutingFilter}
    {newFpArr : List UInt32} {value : UInt16} (hold : old.present = true → FilterHolds cfg old)
    (hbits : old.present = true →
      cfg.remainderAndValueSize old.numFingerprints old.valueSize ≠ 0)
    (h : routingFilterAdd cfg memory old newFpArr value = some (.ok f)) :
    f.present = true ∧ ∃ fps, AddBuilds cfg old newFpArr value fps f := by
  unfold routingFilterAdd at h
  dsimp only at h
  split at h
  case isFalse => cases h
  case isTrue hdefined =>
    obtain ⟨_, _, _, hfits, hwidth, _, hvalue⟩ := hdefined
    cases memory with
    | false => cases h
    | true =>
        rw [if_pos rfl] at h
        cases hprepare : prepareFps cfg newFpArr value (valueSizeOf value) with
        | none => simp [hprepare] at h
        | some fps =>
            rw [hprepare] at h
            dsimp only at h
            obtain ⟨hsorted, hmem⟩ := prepareFps_spec (by omega) hprepare
            have hlt : ∀ w ∈ fps, w < 2 ^ 32 := by
              intro w hw
              obtain ⟨fp, _, rfl⟩ := (hmem w).mp hw
              have hfp : fingerprintOf cfg fp < 2 ^ cfg.fingerprintSize :=
                fingerprintOf_lt (by omega) fp
              have hv := valueSizeOf_spec value
              calc fingerprintOf cfg fp <<< valueSizeOf value + value.toNat
                  < (fingerprintOf cfg fp + 1) * 2 ^ valueSizeOf value := by
                    rw [Nat.shiftLeft_eq, Nat.succ_mul]
                    omega
                _ ≤ 2 ^ cfg.fingerprintSize * 2 ^ valueSizeOf value :=
                    Nat.mul_le_mul_right _ hfp
                _ = 2 ^ (cfg.fingerprintSize + valueSizeOf value) := (Nat.pow_add _ _ _).symm
                _ ≤ 2 ^ 32 := Nat.pow_le_pow_right (by decide) hfits
            have hall : wordsFrom cfg
                (cfg.remainderAndValueSize (newNumFingerprints old newFpArr) (valueSizeOf value))
                0 fps = fps := by
              unfold wordsFrom
              rw [List.filter_eq_self]
              intro fp _
              simp
            have hcounts : CountsOf cfg
                (cfg.remainderAndValueSize (newNumFingerprints old newFpArr) (valueSizeOf value))
                fps (indexCounts
                  (cfg.remainderAndValueSize (newNumFingerprints old newFpArr)
                    (valueSizeOf value) + cfg.logIndexSize)
                  (cfg.numIndices (newNumFingerprints old newFpArr)) 0 fps) := by
              intro j count hget
              rw [← hall] at hget
              have hspec := indexCounts_spec hsorted hlt _ hget
              rwa [Nat.zero_add] at hspec
            generalize hrun : addOldIndices cfg old (valueSizeOf value) _ _ _ _ 0 _ _ = ran at h
            cases ran with
            | none => cases h
            | some s =>
                cases h
                have hbuilt := addOldIndices_spec hold hbits (fun hp => (hvalue hp).2) hwidth
                  hsorted hcounts (oldNumIndices cfg old)
                  ⟨by rw [Nat.zero_mul]; exact hall.symm, rfl, by simp, by simp, by simp⟩ hrun
                rw [Nat.zero_add] at hbuilt
                refine ⟨rfl, fps, hfits, hwidth, Nat.mod_lt _ (by decide), rfl, rfl, hprepare,
                  hsorted, fun hp => (hvalue hp).2, hbuilt.length, ?_, hbuilt.holds⟩
                show s.numUnique = _
                rw [hbuilt.numUnique]
                show _ = (∑ j ∈ Finset.range s.indices.length, _) % 2 ^ 32
                rw [hbuilt.length]

/-! ## Counting an index -/

/-- Old words of the same old index are left at the end of a new index. -/
def endsEarly (cfg : RoutingConfig) (old : RoutingFilter) (n valueSize j : Nat) : Bool :=
  !(wordsFrom cfg (cfg.remainderAndValueSize n valueSize) (j + 1)
    (oldWordsAt cfg old valueSize (j / (cfg.numIndices n / oldNumIndices cfg old)))).isEmpty

/-- The first word that is looked at for a new index has the fingerprint of the initial
`last_fp_added`. -/
def startsAtInitial (cfg : RoutingConfig) (old : RoutingFilter) (n valueSize : Nat)
    (fps : List Nat) (j : Nat) : Bool :=
  (nextFp
    (wordsFrom cfg (cfg.remainderAndValueSize n valueSize) j
      (oldWordsAt cfg old valueSize (j / (cfg.numIndices n / oldNumIndices cfg old))))
    (wordsAt cfg (cfg.remainderAndValueSize n valueSize) j fps)).any fun choice =>
      decide (uint32Max >>> valueSize = choice.2.1 >>> valueSize)

theorem wordIndex_eq (cfg : RoutingConfig) (n valueSize fp : Nat) :
    wordIndex cfg (cfg.remainderAndValueSize n valueSize) fp =
      (fp >>> valueSize) >>> (cfg.remainderSize n + cfg.logIndexSize) := by
  unfold wordIndex RoutingConfig.remainderAndValueSize
  rw [Nat.add_assoc, Nat.shiftRight_add]

theorem head_indexWords {cfg : RoutingConfig} {bits j : Nat} {old new : List Nat}
    (hold : old.Pairwise (· ≤ ·)) (hnew : new.Pairwise (· ≤ ·)) :
    (indexWords cfg bits old new j ++ (wordsFrom cfg bits (j + 1) old).take 1).head? =
      (nextFp (wordsFrom cfg bits j old) (wordsAt cfg bits j new)).map (·.2.1) := by
  have hsplit : wordsFrom cfg bits j old =
      wordsAt cfg bits j old ++ wordsFrom cfg bits (j + 1) old :=
    filter_le_eq (wordIndex cfg bits) (sorted_wordIndex hold) j
  have holdAt : (wordsAt cfg bits j old).Pairwise (· ≤ ·) := wordsAt_sorted hold
  have hnewAt : (wordsAt cfg bits j new).Pairwise (· ≤ ·) := wordsAt_sorted hnew
  have hlater : ∀ r ∈ wordsFrom cfg bits (j + 1) old, ∀ n ∈ wordsAt cfg bits j new, ¬ r ≤ n := by
    intro r hr n hn hle
    have h1 := (mem_wordsFrom.mp hr).2
    have h2 := (mem_wordsAt.mp hn).2
    have h3 := wordIndex_mono cfg bits hle
    omega
  unfold indexWords
  rw [hsplit]
  generalize wordsAt cfg bits j old = here at *
  generalize wordsFrom cfg bits (j + 1) old = later at *
  generalize wordsAt cfg bits j new = new' at *
  cases here with
  | nil =>
      cases new' with
      | nil => cases later <;> simp [nextFp]
      | cons n new' =>
          rw [mergeWords_new (by simp)]
          cases later with
          | nil => simp [nextFp]
          | cons r later =>
              have hgt := hlater r List.mem_cons_self n List.mem_cons_self
              simp [nextFp, hgt]
  | cons a here =>
      cases new' with
      | nil =>
          rw [mergeWords_old (by simp)]
          simp [nextFp]
      | cons n new' =>
          by_cases hle : a ≤ n
          · rw [mergeWords_old (le_of_head hnewAt (by simpa using hle))]
            simp [nextFp, hle]
          · rw [mergeWords_new (fun o ho h => hle (Nat.le_trans (le_of_head holdAt
              (by simp) o ho) h))]
            simp [nextFp, hle]

/-- **The count of one index** is its number of distinct fingerprints, one more when it ends early,
and one less when it starts at the initial value. -/
theorem newCountAt_add {cfg : RoutingConfig} {old : RoutingFilter} {n valueSize : Nat}
    {fps : List Nat} (hold : old.present = true → FilterHolds cfg old)
    (hvalue : old.present = true → old.valueSize ≤ valueSize) (hnew : fps.Pairwise (· ≤ ·))
    (j : Nat) :
    newCountAt cfg old n valueSize fps j +
        (if startsAtInitial cfg old n valueSize fps j then 1 else 0) =
      ((newWordsAt cfg old n valueSize fps j).map (· >>> valueSize)).toFinset.card +
        if endsEarly cfg old n valueSize j then 1 else 0 := by
  have hsortedOld := oldWordsAt_sorted hold hvalue
    (j / (cfg.numIndices n / oldNumIndices cfg old))
  unfold newCountAt newWordsAt startsAtInitial endsEarly indexCount
  generalize oldWordsAt cfg old valueSize (j / (cfg.numIndices n / oldNumIndices cfg old)) = L at *
  have hhead := @head_indexWords cfg (cfg.remainderAndValueSize n valueSize) j L fps
    hsortedOld hnew
  have hwords := @indexWords_sorted cfg (cfg.remainderAndValueSize n valueSize) j L fps
    hsortedOld hnew
  have hindex : ∀ w ∈ indexWords cfg (cfg.remainderAndValueSize n valueSize) L fps j,
      wordIndex cfg (cfg.remainderAndValueSize n valueSize) w = j :=
    fun w hw => wordIndex_of_mem_indexWords hw
  have hlater : ∀ r ∈ wordsFrom cfg (cfg.remainderAndValueSize n valueSize) (j + 1) L,
      j < wordIndex cfg (cfg.remainderAndValueSize n valueSize) r :=
    fun r hr => (mem_wordsFrom.mp hr).2
  generalize indexWords cfg (cfg.remainderAndValueSize n valueSize) L fps j = W at *
  generalize wordsFrom cfg (cfg.remainderAndValueSize n valueSize) (j + 1) L = R at *
  have hpair : ((W ++ R.take 1).map (· >>> valueSize)).Pairwise (· ≤ ·) := by
    rw [List.pairwise_map, List.pairwise_append]
    refine ⟨hwords.imp fun h => shiftRight_mono h _, ?_, ?_⟩
    · cases R <;> simp
    · intro w hw r hr
      have h1 := hindex w hw
      have h2 := hlater r (List.mem_of_mem_take hr)
      rcases Nat.le_total w r with hle | hle
      · exact shiftRight_mono hle _
      · have h3 := wordIndex_mono cfg (cfg.remainderAndValueSize n valueSize) hle
        omega
  have hchanges := changes_add_eq_card hpair (uint32Max >>> valueSize)
  rw [List.head?_map, hhead] at hchanges
  have hstarts : (if (Option.map (fun x => x >>> valueSize)
      (Option.map (fun x => x.2.1) (nextFp
        (wordsFrom cfg (cfg.remainderAndValueSize n valueSize) j L)
        (wordsAt cfg (cfg.remainderAndValueSize n valueSize) j fps)))) =
          some (uint32Max >>> valueSize) then 1 else 0) =
      if ((nextFp (wordsFrom cfg (cfg.remainderAndValueSize n valueSize) j L)
          (wordsAt cfg (cfg.remainderAndValueSize n valueSize) j fps)).any fun choice =>
            decide (uint32Max >>> valueSize = choice.2.1 >>> valueSize)) = true
      then 1 else 0 := by
    cases nextFp (wordsFrom cfg (cfg.remainderAndValueSize n valueSize) j L)
        (wordsAt cfg (cfg.remainderAndValueSize n valueSize) j fps) with
    | none => simp
    | some choice => simp [eq_comm]
  rw [hstarts] at hchanges
  rw [hchanges]
  cases R with
  | nil => simp
  | cons r R =>
      -- The old word behind the index has a fingerprint of its own.
      have hnot : r >>> valueSize ∉ (W.map (· >>> valueSize)).toFinset := by
        intro hmem
        obtain ⟨w, hw, heq⟩ := List.mem_map.mp (List.mem_toFinset.mp hmem)
        have h1 := hindex w hw
        have h2 := hlater r List.mem_cons_self
        rw [wordIndex_eq] at h1 h2
        rw [← heq, h1] at h2
        exact Nat.lt_irrefl _ h2
      have hset : ((W ++ (r :: R).take 1).map (· >>> valueSize)).toFinset =
          insert (r >>> valueSize) (W.map (· >>> valueSize)).toFinset := by
        ext x
        simp
      rw [hset, Finset.card_insert_of_notMem hnot]
      simp

/-! ## The count of a filter -/

/-- **The distinct fingerprints a filter stores**, at the size of the configuration. -/
def storedFingerprints (cfg : RoutingConfig) (f : RoutingFilter) : Finset Nat :=
  (Finset.range f.indices.length).biUnion fun j =>
    ((f.indices[j]?.map fun block =>
      (blockWords cfg (cfg.remainderAndValueSize f.numFingerprints f.valueSize) j block).map
        (· >>> f.valueSize)).getD []).toFinset

theorem AddBuilds.stored {cfg : RoutingConfig} {old f : RoutingFilter} {newFpArr : List UInt32}
    {value : UInt16} {fps : List Nat} (h : AddBuilds cfg old newFpArr value fps f) :
    storedFingerprints cfg f = (Finset.range f.indices.length).biUnion fun j =>
      ((newWordsAt cfg old f.numFingerprints f.valueSize fps j).map
        (· >>> f.valueSize)).toFinset := by
  unfold storedFingerprints
  apply Finset.biUnion_congr rfl
  intro j hj
  have hget := List.getElem?_eq_getElem (Finset.mem_range.mp hj)
  rw [hget, Option.map_some, (h.holds j _ hget).blockWords_eq]
  rfl

theorem AddBuilds.card_stored {cfg : RoutingConfig} {old f : RoutingFilter}
    {newFpArr : List UInt32} {value : UInt16} {fps : List Nat}
    (h : AddBuilds cfg old newFpArr value fps f) :
    (storedFingerprints cfg f).card = ∑ j ∈ Finset.range f.indices.length,
      ((newWordsAt cfg old f.numFingerprints f.valueSize fps j).map
        (· >>> f.valueSize)).toFinset.card := by
  rw [h.stored, Finset.card_biUnion]
  intro i _ j _ hij
  rw [Function.onFun, Finset.disjoint_left]
  intro q hi hj
  obtain ⟨w, hw, rfl⟩ := List.mem_map.mp (List.mem_toFinset.mp hi)
  obtain ⟨w', hw', heq⟩ := List.mem_map.mp (List.mem_toFinset.mp hj)
  have h1 := wordIndex_of_mem_indexWords hw
  have h2 := wordIndex_of_mem_indexWords hw'
  rw [wordIndex_eq] at h1 h2
  rw [heq, h1] at h2
  exact hij h2

def earlyEnds (cfg : RoutingConfig) (old : RoutingFilter) (newFpArr : List UInt32)
    (value : UInt16) : Nat :=
  let n := newNumFingerprints old newFpArr
  ((Finset.range (oldNumIndices cfg old * (cfg.numIndices n / oldNumIndices cfg old))).filter
    fun j => endsEarly cfg old n (valueSizeOf value) j = true).card

/-- The new indices of an add that start at the initial value of `last_fp_added`. -/
def initialStarts (cfg : RoutingConfig) (old : RoutingFilter) (newFpArr : List UInt32)
    (value : UInt16) : Nat :=
  let n := newNumFingerprints old newFpArr
  ((Finset.range (oldNumIndices cfg old * (cfg.numIndices n / oldNumIndices cfg old))).filter
    fun j => startsAtInitial cfg old n (valueSizeOf value)
      ((prepareFps cfg newFpArr value (valueSizeOf value)).getD []) j = true).card

/-- The words of a filter have low bits, which its blocks store. -/
def HasRemainders (cfg : RoutingConfig) (f : RoutingFilter) : Prop :=
  f.present = true → cfg.remainderAndValueSize f.numFingerprints f.valueSize ≠ 0

/-- **The filters of chains of adds**, each to the filter of the add before. -/
inductive FilterChain (cfg : RoutingConfig) : RoutingFilter → Prop
  | null : FilterChain cfg nullRoutingFilter
  | add {memory : Bool} {old f : RoutingFilter} {newFpArr : List UInt32} {value : UInt16} :
      FilterChain cfg old → HasRemainders cfg old →
        routingFilterAdd cfg memory old newFpArr value = some (.ok f) → FilterChain cfg f

theorem FilterChain.holds {cfg : RoutingConfig} {f : RoutingFilter} (h : FilterChain cfg f) :
    f.present = true → FilterHolds cfg f := by
  induction h with
  | null =>
      intro h
      cases h
  | add _ hbits hadd ih =>
      intro _
      obtain ⟨_, fps, hbuilds⟩ := routingFilterAdd_spec ih hbits hadd
      exact hbuilds.filterHolds

theorem AddBuilds.numUnique_add {cfg : RoutingConfig} {old f : RoutingFilter}
    {newFpArr : List UInt32} {value : UInt16} {fps : List Nat}
    (hold : old.present = true → FilterHolds cfg old)
    (h : AddBuilds cfg old newFpArr value fps f) :
    (∑ j ∈ Finset.range f.indices.length,
        newCountAt cfg old f.numFingerprints f.valueSize fps j) +
        initialStarts cfg old newFpArr value =
      (storedFingerprints cfg f).card + earlyEnds cfg old newFpArr value := by
  have hprepared := h.prepared
  rw [h.valueSize] at hprepared
  unfold initialStarts earlyEnds
  rw [hprepared, Option.getD_some, ← h.numFingerprints, ← h.valueSize]
  dsimp only
  rw [← h.length, Finset.card_filter, Finset.card_filter, h.card_stored, ← Finset.sum_add_distrib,
    ← Finset.sum_add_distrib]
  apply Finset.sum_congr rfl
  intro j _
  exact newCountAt_add hold h.oldValue h.sorted j

theorem AddBuilds.indices_le {cfg : RoutingConfig} {old f : RoutingFilter}
    {newFpArr : List UInt32} {value : UInt16} {fps : List Nat}
    (h : AddBuilds cfg old newFpArr value fps f) :
    earlyEnds cfg old newFpArr value < 2 ^ 32 ∧ initialStarts cfg old newFpArr value < 2 ^ 32 := by
  have hlog : cfg.logNumBuckets f.numFingerprints < 32 := by
    have hconfig := cfg.logIndexSize_lt
    unfold RoutingConfig.logNumBuckets
    by_cases hzero : f.numFingerprints = 0
    · rw [hzero]
      split
      · exact hconfig
      · decide
    · have hlt := (Nat.log2_lt hzero).mpr h.bound
      split
      · exact hconfig
      · exact hlt
  have hcount : oldNumIndices cfg old * (cfg.numIndices (newNumFingerprints old newFpArr) /
      oldNumIndices cfg old) < 2 ^ 32 := by
    rw [← h.numFingerprints]
    apply Nat.lt_of_le_of_lt (Nat.mul_div_le _ _)
    unfold RoutingConfig.numIndices
    exact Nat.pow_lt_pow_right (by decide) (by omega)
  constructor
  · apply Nat.lt_of_le_of_lt (Finset.card_filter_le _ _)
    rwa [Finset.card_range]
  · apply Nat.lt_of_le_of_lt (Finset.card_filter_le _ _)
    rwa [Finset.card_range]

/-- **When the unique count of a filter is right.** For the last add of a chain: its new indices
that end early are as many as those that start at the initial value, and the fingerprints can be
counted in 32 bits. -/
theorem num_unique_iff {cfg : RoutingConfig} {memory : Bool} {old f : RoutingFilter}
    {newFpArr : List UInt32} {value : UInt16} (hchain : FilterChain cfg old)
    (hbits : HasRemainders cfg old)
    (hadd : routingFilterAdd cfg memory old newFpArr value = some (.ok f)) :
    f.numUnique = (storedFingerprints cfg f).card ↔
      earlyEnds cfg old newFpArr value = initialStarts cfg old newFpArr value ∧
        (storedFingerprints cfg f).card < 2 ^ 32 := by
  obtain ⟨_, fps, hbuilds⟩ := routingFilterAdd_spec hchain.holds hbits hadd
  have hsum := hbuilds.numUnique_add hchain.holds
  obtain ⟨hearly, hinitial⟩ := hbuilds.indices_le
  rw [hbuilds.numUnique]
  generalize (∑ j ∈ Finset.range f.indices.length,
    newCountAt cfg old f.numFingerprints f.valueSize fps j) = total at hsum ⊢
  constructor
  · intro heq
    have hlt := Nat.mod_lt total (show 0 < 2 ^ 32 by decide)
    omega
  · rintro ⟨heq, hlt⟩
    rw [show total = (storedFingerprints cfg f).card by omega]
    exact Nat.mod_eq_of_lt hlt

private theorem noIndexBits : 0 < 32 := by decide

def byteFingerprints : RoutingConfig where
  fingerprintSize := 8
  logIndexSize := 0
  pageSize := 4096
  pagesPerExtent := 32
  logIndexSize_lt := noIndexBits

private def oneWord (remainder : Nat) : IndexBlock where
  numRemainders := 1
  encoding := false :: List.replicate 31 true
  remainders := [remainder]

/-- The filter with the fingerprint `0x80`. -/
private def oneFingerprint : RoutingFilter where
  present := true
  numFingerprints := 1
  numUnique := 1
  valueSize := 0
  indices := [oneWord 128]

/-- The filter with the fingerprints `0x00` and `0x80`, in an index each. -/
private def twoFingerprints : RoutingFilter where
  present := true
  numFingerprints := 2
  numUnique := 3
  valueSize := 1
  indices := [oneWord 1, oneWord 0]

private theorem oneFingerprint_added :
    routingFilterAdd byteFingerprints true nullRoutingFilter [0x80000000] 0 =
      some (.ok oneFingerprint) := by
  decide +kernel

private theorem twoFingerprints_added :
    routingFilterAdd byteFingerprints true oneFingerprint [0] 1 = some (.ok twoFingerprints) := by
  decide +kernel

/-- A second add to a chain. -/
theorem num_unique_iff_two :
    twoFingerprints.numUnique = (storedFingerprints byteFingerprints twoFingerprints).card ↔
      earlyEnds byteFingerprints oneFingerprint [0] 1 =
          initialStarts byteFingerprints oneFingerprint [0] 1 ∧
        (storedFingerprints byteFingerprints twoFingerprints).card < 2 ^ 32 :=
  num_unique_iff (.add .null (fun h => Bool.noConfusion h) oneFingerprint_added)
    (fun _ => by decide) twoFingerprints_added

/-- **The old fingerprint at which an index ends is counted twice.** -/
theorem num_unique_counts_twice :
    ¬ ∀ f, FilterChain byteFingerprints f →
      f.numUnique = (storedFingerprints byteFingerprints f).card := by
  intro h
  have hone : FilterChain byteFingerprints oneFingerprint :=
    .add .null (fun h => Bool.noConfusion h) oneFingerprint_added
  have htwo : FilterChain byteFingerprints twoFingerprints :=
    .add hone (fun _ => by decide) twoFingerprints_added
  have hcard : (storedFingerprints byteFingerprints twoFingerprints).card = 2 := by
    decide +kernel
  have heq := h _ htwo
  rw [hcard] at heq
  exact absurd heq (by decide)

end Filter
end TreePass
