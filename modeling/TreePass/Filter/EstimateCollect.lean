import TreePass.Filter.Estimate

/-!
# What the estimate collects

The loops over the filters keep the front of the array for what they have collected and its rest
for words that are still to be read: `Collected`. Each either collects all words of the lowest
sixteenth or does not find room for them, `collectIndex_cases` for one index and
`collectFilters_cases` for all filters.
-/

namespace TreePass
namespace Filter

open Lib

/-! ## Keeping what is new -/

/-- The elements that differ from the one before, which for the first is given. -/
def keepNew : Nat → List Nat → List Nat
  | _, [] => []
  | last, a :: l => if a = last then keepNew last l else a :: keepNew a l

theorem keepNew_cons (last a : Nat) (l : List Nat) :
    keepNew last (a :: l) = if a = last then keepNew last l else a :: keepNew a l := rfl

theorem keepNew_append (l₁ l₂ : List Nat) : ∀ (last : Nat),
    keepNew last (l₁ ++ l₂) = keepNew last l₁ ++ keepNew (l₁.getLast?.getD last) l₂ := by
  induction l₁ with
  | nil =>
      intro last
      rfl
  | cons a l ih =>
      intro last
      rw [List.cons_append, keepNew_cons, keepNew_cons, List.getLast?_cons, Option.getD_some]
      by_cases h : a = last
      · subst h
        rw [if_pos rfl, if_pos rfl, ih]
      · rw [if_neg h, if_neg h, ih, List.cons_append]

theorem mem_keepNew {l : List Nat} {b : Nat} : ∀ {last : Nat},
    b ∈ keepNew last l ∨ b = last ↔ b ∈ l ∨ b = last := by
  induction l with
  | nil => simp [keepNew]
  | cons a l ih =>
      intro last
      rw [keepNew_cons]
      by_cases h : a = last
      · subst h
        rw [if_pos rfl, ih, List.mem_cons, or_assoc]
        constructor
        · rintro (h | h)
          · exact Or.inr (Or.inl h)
          · exact Or.inl h
        · rintro (h | h | h)
          · exact Or.inr h
          · exact Or.inl h
          · exact Or.inr h
      · rw [if_neg h, List.mem_cons, List.mem_cons, or_comm (a := b = a), ih, or_comm (a := b ∈ l)]

theorem keepNew_sorted {l : List Nat} : ∀ {last : Nat}, (last :: l).Pairwise (· ≤ ·) →
    (keepNew last l).Pairwise (· < ·) ∧ ∀ b ∈ keepNew last l, last < b := by
  induction l with
  | nil =>
      intro last _
      exact ⟨List.Pairwise.nil, by simp [keepNew]⟩
  | cons a l ih =>
      intro last hl
      have hfirst := List.pairwise_cons.mp hl
      rw [keepNew_cons]
      by_cases h : a = last
      · subst h
        rw [if_pos rfl]
        exact ih hfirst.2
      · rw [if_neg h]
        obtain ⟨hsorted, hgt⟩ := ih hfirst.2
        have hlt : last < a := by
          have := hfirst.1 a List.mem_cons_self
          omega
        refine ⟨List.pairwise_cons.mpr ⟨hgt, hsorted⟩, ?_⟩
        intro b hb
        rcases List.mem_cons.mp hb with rfl | hmem
        · exact hlt
        · exact Nat.lt_trans hlt (hgt b hmem)

theorem keepNew_start {l : List Nat} {last : Nat} (h : ∀ b ∈ l, b ≠ last)
    (hl : l.Pairwise (· ≤ ·)) :
    (keepNew last l).Pairwise (· < ·) ∧ ∀ b, b ∈ keepNew last l ↔ b ∈ l := by
  cases l with
  | nil => exact ⟨List.Pairwise.nil, by simp [keepNew]⟩
  | cons a l =>
      rw [keepNew_cons, if_neg (h a List.mem_cons_self)]
      obtain ⟨hsorted, hgt⟩ := keepNew_sorted hl
      refine ⟨List.pairwise_cons.mpr ⟨hgt, hsorted⟩, fun b => ?_⟩
      have hmem : b ∈ keepNew a l ∨ b = a ↔ b ∈ l ∨ b = a := mem_keepNew
      rw [List.mem_cons, List.mem_cons, or_comm, hmem, or_comm]

/-! ## The words of an index -/

/-- **Where the collecting loops stand**: the front of the array is what is collected, the part
from the read position on is still to be read. -/
structure Collected (out rest : List Nat) (s : EstimateState) : Prop where
  out : s.fpArr.take s.dstFpNo = out
  rest : s.fpArr.drop s.srcFpNo = rest
  le : s.dstFpNo ≤ s.srcFpNo
  bound : s.srcFpNo ≤ s.fpArr.length

/-- What one loop does not touch, and how far it reads. -/
structure Moves (count : Nat) (s s' : EstimateState) : Prop where
  src : s'.srcFpNo = s.srcFpNo + count
  length : s'.fpArr.length = s.fpArr.length
  fpStart : s'.fpStart = s.fpStart

theorem Moves.trans {m n : Nat} {s s₁ s₂ : EstimateState} (h₁ : Moves m s s₁)
    (h₂ : Moves n s₁ s₂) : Moves (m + n) s s₂ := by
  constructor
  · rw [h₂.src, h₁.src, Nat.add_assoc]
  · rw [h₂.length, h₁.length]
  · rw [h₂.fpStart, h₁.fpStart]

theorem collectFp_spec (bits valueSize bucket : Nat) {word : Nat} {out rest : List Nat}
    {s : EstimateState} (h : Collected out (word :: rest) s) :
    ∃ s', collectFp bits valueSize bucket s = some s' ∧
      Collected (out ++ keepNew s.lastFp [(word ||| bucket <<< bits) >>> valueSize]) rest s' ∧
      s'.lastFp = (word ||| bucket <<< bits) >>> valueSize ∧ Moves 1 s s' := by
  have hlt : s.srcFpNo < s.fpArr.length := by
    have hlen := congrArg List.length h.rest
    simp at hlen
    omega
  have hget : s.fpArr[s.srcFpNo]? = some word := by
    rw [← List.head?_drop, h.rest]
    rfl
  have hrest : s.fpArr.drop (s.srcFpNo + 1) = rest := by
    rw [← List.tail_drop, h.rest]
    rfl
  have hle := h.le
  unfold collectFp
  rw [hget]
  dsimp only
  generalize (word ||| bucket <<< bits) >>> valueSize = fp
  by_cases hfp : fp = s.lastFp
  · rw [if_pos hfp, keepNew_cons, if_pos hfp]
    refine ⟨_, rfl, ⟨?_, ?_, ?_, ?_⟩, hfp.symm, ⟨rfl, by simp, rfl⟩⟩
    · show (s.fpArr.set s.srcFpNo fp).take s.dstFpNo = _
      rw [List.take_set_of_le hle, h.out]
      simp [keepNew]
    · show (s.fpArr.set s.srcFpNo fp).drop (s.srcFpNo + 1) = _
      rw [List.drop_set_of_lt (Nat.lt_succ_self _), hrest]
    · exact Nat.le_succ_of_le hle
    · simp
      omega
  · rw [if_neg hfp, if_pos (by rw [List.length_set]; omega), keepNew_cons, if_neg hfp]
    refine ⟨_, rfl, ⟨?_, ?_, ?_, ?_⟩, rfl, ⟨rfl, by simp, rfl⟩⟩
    · show ((s.fpArr.set s.srcFpNo fp).set s.dstFpNo fp).take (s.dstFpNo + 1) = _
      rw [List.take_add_one, List.take_set_of_le (Nat.le_refl _), List.take_set_of_le hle, h.out,
        List.getElem?_set_self (by rw [List.length_set]; omega)]
      simp [keepNew]
    · show ((s.fpArr.set s.srcFpNo fp).set s.dstFpNo fp).drop (s.srcFpNo + 1) = _
      rw [List.drop_set_of_lt (by omega), List.drop_set_of_lt (Nat.lt_succ_self _), hrest]
    · exact Nat.succ_le_succ hle
    · simp
      omega

theorem collectBucket_spec (bits valueSize bucket : Nat) (words : List Nat) :
    ∀ {out rest : List Nat} {s : EstimateState}, Collected out (words ++ rest) s →
    ∃ s', collectBucket bits valueSize bucket words.length s = some s' ∧
      Collected (out ++ keepNew s.lastFp
        (words.map fun word => (word ||| bucket <<< bits) >>> valueSize)) rest s' ∧
      s'.lastFp = ((words.map fun word => (word ||| bucket <<< bits) >>> valueSize).getLast?.getD
        s.lastFp) ∧ Moves words.length s s' := by
  induction words with
  | nil =>
      intro out rest s h
      exact ⟨s, rfl, by simpa [keepNew] using h, rfl, ⟨rfl, rfl, rfl⟩⟩
  | cons word words ih =>
      intro out rest s h
      obtain ⟨s₁, hstep, hcollected, hlast, hmoves⟩ := collectFp_spec bits valueSize bucket h
      obtain ⟨s', hrun, hcollected', hlast', hmoves'⟩ := ih hcollected
      refine ⟨s', ?_, ?_, ?_, ?_⟩
      · rw [List.length_cons]
        unfold collectBucket
        rw [hstep]
        exact hrun
      · have happend := keepNew_append [(word ||| bucket <<< bits) >>> valueSize]
          (words.map fun word => (word ||| bucket <<< bits) >>> valueSize) s.lastFp
        rw [List.map_cons, ← List.singleton_append, happend, ← List.append_assoc]
        rw [hlast] at hcollected'
        exact hcollected'
      · rw [hlast', List.map_cons, List.getLast?_cons, Option.getD_some, hlast]
      · rw [List.length_cons, Nat.add_comm]
        exact hmoves.trans hmoves'

theorem collectBuckets_spec (bits valueSize size : Nat) :
    ∀ {start : Nat} {fps out rest : List Nat} {s : EstimateState},
    (fps.Pairwise fun a b => a >>> bits ≤ b >>> bits) →
    (∀ fp ∈ fps, start ≤ fp >>> bits ∧ fp >>> bits < start + size) →
    Collected out (fps.map (· &&& (2 ^ bits - 1)) ++ rest) s →
    ∃ s', collectBuckets bits valueSize start (bucketCounts (fps.map (· >>> bits)) size start) s =
        some s' ∧
      Collected (out ++ keepNew s.lastFp (fps.map (· >>> valueSize))) rest s' ∧
      Moves fps.length s s' := by
  induction size with
  | zero =>
      intro start fps out rest s _ hrange h
      cases fps with
      | nil => exact ⟨s, rfl, by simpa [keepNew] using h, ⟨rfl, rfl, rfl⟩⟩
      | cons fp fps =>
          have := hrange fp List.mem_cons_self
          omega
  | succ size ih =>
      intro start fps out rest s hsorted hrange h
      have hge : ∀ fp ∈ fps, start ≤ fp >>> bits := fun fp hfp => (hrange fp hfp).1
      have hsplit := split_run (· >>> bits) hsorted hge
      obtain ⟨hcount, hlater⟩ := bucketCounts_split bits start size fps
      have hrun : ((fps.filter fun fp => decide (fp >>> bits = start)).map
          fun fp => ((fp &&& (2 ^ bits - 1)) ||| start <<< bits) >>> valueSize) =
          (fps.filter fun fp => decide (fp >>> bits = start)).map (· >>> valueSize) := by
        apply List.map_congr_left
        intro fp hfp
        have hbucket := of_decide_eq_true (List.mem_filter.mp hfp).2
        rw [← hbucket, remainder_or_bucket]
      have hlaterRange : ∀ fp ∈ fps.filter (fun fp => decide (start < fp >>> bits)),
          start + 1 ≤ fp >>> bits ∧ fp >>> bits < start + 1 + size := by
        intro fp hfp
        have hmem := List.mem_filter.mp hfp
        have hlt := of_decide_eq_true hmem.2
        have := hrange fp hmem.1
        omega
      have hlaterSorted := hsorted.filter fun fp => decide (start < fp >>> bits)
      rw [bucketCounts_succ, hcount, hlater]
      generalize (fps.filter fun fp => decide (fp >>> bits = start)) = run at *
      generalize (fps.filter fun fp => decide (start < fp >>> bits)) = later at *
      rw [hsplit, List.map_append, List.append_assoc] at h
      obtain ⟨s₁, hbucket, hcollected, hlast, hmoves⟩ := collectBucket_spec
        bits valueSize start _ h
      rw [List.map_map] at hcollected hlast
      rw [List.length_map] at hbucket hmoves
      change Collected (out ++ keepNew s.lastFp (run.map fun fp =>
        ((fp &&& (2 ^ bits - 1)) ||| start <<< bits) >>> valueSize)) _ s₁ at hcollected
      change s₁.lastFp = ((run.map fun fp =>
        ((fp &&& (2 ^ bits - 1)) ||| start <<< bits) >>> valueSize).getLast?.getD s.lastFp) at hlast
      rw [hrun] at hcollected hlast
      obtain ⟨s', hbuckets, hcollected', hmoves'⟩ := ih hlaterSorted hlaterRange hcollected
      refine ⟨s', ?_, ?_, ?_⟩
      · unfold collectBuckets
        rw [hbucket]
        exact hbuckets
      · rw [hsplit, List.map_append, keepNew_append, ← hlast, ← List.append_assoc]
        exact hcollected'
      · rw [hsplit, List.length_append]
        exact hmoves.trans hmoves'

/-! ## The indices and the filters -/

def wordsOfIndices (f : RoutingFilter) : Nat → Nat → Nat
  | 0, _ => 0
  | left + 1, j =>
      (f.indices[j]?.map (·.numRemainders)).getD 0 + wordsOfIndices f left (j + 1)

def collectedAt (cfg : RoutingConfig) (f : RoutingFilter) (j : Nat) : List Nat :=
  keepNew uint32Max
    (((f.indices[j]?.map fun block =>
      blockWords cfg (cfg.remainderAndValueSize f.numFingerprints f.valueSize) j block).getD
        []).map (· >>> f.valueSize))

/-- **A filter with all its indices**, each with sorted words. -/
structure Complete (cfg : RoutingConfig) (f : RoutingFilter) : Prop where
  present : f.present = true
  holds : FilterHolds cfg f
  length : f.indices.length = cfg.numIndices f.numFingerprints

theorem BlockHolds.unpack {cfg : RoutingConfig} {bits indexNo room : Nat} {block : IndexBlock}
    {fps : List Nat} (h : BlockHolds cfg bits indexNo block fps) (hroom : fps.length ≤ room) :
    packedArrayUnpack bits block.remainders (List.replicate room 0) =
      fps.map (· &&& (2 ^ bits - 1)) ++ List.replicate (room - fps.length) 0 := by
  unfold packedArrayUnpack
  by_cases hbits : bits = 0
  · subst hbits
    have hmap : fps.map (· &&& (2 ^ 0 - 1)) = List.replicate fps.length 0 := by
      rw [List.eq_replicate_iff]
      simp
    rw [if_pos rfl, hmap, ← List.replicate_add, Nat.add_sub_cancel' hroom]
  · rw [if_neg hbits, h.remainders, List.length_map, List.drop_replicate]

theorem collectIndex_cases {cfg : RoutingConfig} {f : RoutingFilter} (hf : Complete cfg f)
    {j : Nat} (hj : j < f.indices.length) {out : List Nat} {s : EstimateState}
    (h : Collected out (List.replicate (s.fpArr.length - s.srcFpNo) 0) s) :
    (s.srcFpNo + wordsOfIndices f 1 j ≤ s.fpArr.length ∧ ∃ s', collectIndex cfg f j s = some s' ∧
      Collected (out ++ collectedAt cfg f j)
        (List.replicate (s'.fpArr.length - s'.srcFpNo) 0) s' ∧
      Moves (wordsOfIndices f 1 j) s s') ∨
    (s.fpArr.length < s.srcFpNo + wordsOfIndices f 1 j ∧ collectIndex cfg f j s = none) := by
  have hget := List.getElem?_eq_getElem hj
  obtain ⟨fps, hholds⟩ := hf.holds.holds j _ hget
  have hcollected : collectedAt cfg f j = keepNew uint32Max (fps.map (· >>> f.valueSize)) := by
    unfold collectedAt
    rw [hget, Option.map_some, Option.getD_some, hholds.blockWords_eq]
  have hwords : wordsOfIndices f 1 j = fps.length := by
    unfold wordsOfIndices wordsOfIndices
    rw [hget, Option.map_some, Option.getD_some, hholds.count, Nat.add_zero]
  have hcount := hholds.count
  rw [hcollected, hwords]
  unfold collectIndex
  dsimp only
  rw [hget]
  dsimp only
  rw [hholds.encoding]
  dsimp only
  rcases Nat.lt_or_ge s.fpArr.length (s.srcFpNo + fps.length) with hfull | hroom
  · exact Or.inr ⟨hfull, if_neg (by omega)⟩
  · refine Or.inl ⟨hroom, ?_⟩
    rw [if_pos (by omega)]
    by_cases hzero : f.indices[j].numRemainders = 0
    · have hnil : fps = [] := List.length_eq_zero_iff.mp (by omega)
      rw [if_pos hzero, hnil]
      exact ⟨s, rfl, by simpa [keepNew] using h, ⟨rfl, rfl, rfl⟩⟩
    · rw [if_neg hzero, h.rest, hholds.unpack (by omega)]
      have hbound := h.bound
      have hstart : Collected out (fps.map (· &&& (2 ^ cfg.remainderAndValueSize
          f.numFingerprints f.valueSize - 1)) ++
          List.replicate (s.fpArr.length - s.srcFpNo - fps.length) 0)
          { s with
            fpArr := s.fpArr.take s.srcFpNo ++ (fps.map (· &&& (2 ^ cfg.remainderAndValueSize
              f.numFingerprints f.valueSize - 1)) ++
              List.replicate (s.fpArr.length - s.srcFpNo - fps.length) 0)
            lastFp := uint32Max } := by
        have hlen : (s.fpArr.take s.srcFpNo).length = s.srcFpNo := by
          rw [List.length_take]
          omega
        constructor
        · show (s.fpArr.take s.srcFpNo ++ _).take s.dstFpNo = out
          rw [List.take_append_of_le_length (by rw [hlen]; exact h.le), List.take_take,
            Nat.min_eq_left h.le, h.out]
        · exact List.drop_left' hlen
        · exact h.le
        · show s.srcFpNo ≤ (s.fpArr.take s.srcFpNo ++ _).length
          rw [List.length_append, hlen]
          exact Nat.le_add_right _ _
      obtain ⟨s', hrun, hend, hmoves⟩ := collectBuckets_spec _ f.valueSize
        cfg.indexSize (hholds.sorted.imp fun hle => shiftRight_mono hle _) hholds.bucket hstart
      have hlength : s'.fpArr.length = s.fpArr.length := by
        rw [hmoves.length]
        simp
        omega
      have hsrc : s'.srcFpNo = s.srcFpNo + fps.length := hmoves.src
      refine ⟨s', hrun, ?_, ⟨hsrc, hlength, hmoves.fpStart⟩⟩
      rw [hlength, hsrc, Nat.sub_add_eq]
      exact hend

/-- The fingerprints that are collected for some indices of a filter, from one on. -/
def collectedFrom (cfg : RoutingConfig) (f : RoutingFilter) : Nat → Nat → List Nat
  | 0, _ => []
  | left + 1, j => collectedAt cfg f j ++ collectedFrom cfg f left (j + 1)

theorem collectIndices_cases {cfg : RoutingConfig} {f : RoutingFilter} (hf : Complete cfg f)
    (left : Nat) : ∀ {j : Nat} {out : List Nat} {s : EstimateState}, j + left ≤ f.indices.length →
    Collected out (List.replicate (s.fpArr.length - s.srcFpNo) 0) s →
    (s.srcFpNo + wordsOfIndices f left j ≤ s.fpArr.length ∧
      ∃ s', collectIndices cfg f left j s = some s' ∧
        Collected (out ++ collectedFrom cfg f left j)
          (List.replicate (s'.fpArr.length - s'.srcFpNo) 0) s' ∧
        Moves (wordsOfIndices f left j) s s') ∨
    (s.fpArr.length < s.srcFpNo + wordsOfIndices f left j ∧
      collectIndices cfg f left j s = none) := by
  induction left with
  | zero =>
      intro j out s _ h
      refine Or.inl ⟨h.bound, s, rfl, ?_, ⟨rfl, rfl, rfl⟩⟩
      simpa [collectedFrom] using h
  | succ left ih =>
      intro j out s hj h
      have hsum : wordsOfIndices f (left + 1) j =
          wordsOfIndices f 1 j + wordsOfIndices f left (j + 1) := rfl
      rw [hsum]
      unfold collectIndices
      rcases collectIndex_cases hf (show j < f.indices.length by omega) h with
        ⟨hroom, s₁, hstep, hcollected, hmoves⟩ | ⟨hfull, hnone⟩
      · rw [hstep]
        dsimp only
        have hsrc := hmoves.src
        have hlength := hmoves.length
        rcases ih (show j + 1 + left ≤ f.indices.length by omega) hcollected with
          ⟨hroom', s', hrun, hend, hmoves'⟩ | ⟨hfull', hnone'⟩
        · refine Or.inl ⟨by omega, s', hrun, ?_, hmoves.trans hmoves'⟩
          rw [List.append_assoc] at hend
          exact hend
        · exact Or.inr ⟨by omega, hnone'⟩
      · rw [hnone]
        exact Or.inr ⟨by omega, rfl⟩

/-- The words in the lowest sixteenth of a filter, as often as they have different values. -/
def lowWordsOf (cfg : RoutingConfig) (f : RoutingFilter) : Nat :=
  wordsOfIndices f (cfg.numIndices f.numFingerprints / 16) 0

def lowWords (cfg : RoutingConfig) : List RoutingFilter → Nat
  | [] => 0
  | f :: filters => lowWordsOf cfg f + lowWords cfg filters

def collectedOf (cfg : RoutingConfig) (f : RoutingFilter) : List Nat :=
  collectedFrom cfg f (cfg.numIndices f.numFingerprints / 16) 0

/-- **The filters of an estimate** are complete and have sixteen indices at least. -/
def Estimable (cfg : RoutingConfig) (f : RoutingFilter) : Prop :=
  Complete cfg f ∧ 16 ≤ cfg.numIndices f.numFingerprints

theorem collectFilter_cases {cfg : RoutingConfig} (memory : Bool) {f : RoutingFilter}
    (hf : Estimable cfg f) {out : List Nat} {s : EstimateState}
    (h : Collected out (List.replicate (s.fpArr.length - s.srcFpNo) 0) s) :
    ((memory = true ∧ s.srcFpNo + lowWordsOf cfg f ≤ s.fpArr.length) ∧
      ∃ s', collectFilter cfg memory f s = some s' ∧
        Collected (out ++ collectedOf cfg f)
          (List.replicate (s'.fpArr.length - s'.srcFpNo) 0) s' ∧
        Moves (lowWordsOf cfg f) s s') ∨
    (¬ (memory = true ∧ s.srcFpNo + lowWordsOf cfg f ≤ s.fpArr.length) ∧
      collectFilter cfg memory f s = none) := by
  obtain ⟨hcomplete, hsixteen⟩ := hf
  unfold collectFilter
  rw [if_pos hcomplete.present, if_pos hcomplete.holds.fits, if_pos hsixteen]
  cases memory with
  | false => exact Or.inr ⟨by simp, rfl⟩
  | true =>
      rw [if_pos rfl]
      have hle : 0 + cfg.numIndices f.numFingerprints / 16 ≤ f.indices.length := by
        rw [hcomplete.length]
        omega
      rcases collectIndices_cases hcomplete _ hle h with
        ⟨hroom, s', hrun, hend, hmoves⟩ | ⟨hfull, hnone⟩
      · exact Or.inl ⟨⟨rfl, hroom⟩, s', hrun, hend, hmoves⟩
      · refine Or.inr ⟨?_, hnone⟩
        rintro ⟨_, hroom⟩
        exact absurd hroom (Nat.not_le_of_lt hfull)

theorem Collected.dst_eq {out rest : List Nat} {s : EstimateState} (h : Collected out rest s) :
    s.dstFpNo = out.length := by
  have hle := h.le
  have hbound := h.bound
  rw [← h.out, List.length_take]
  omega

def CollectFits (cfg : RoutingConfig) (memory : Bool) (filters : List RoutingFilter) (i : Nat)
    (s : EstimateState) : Prop :=
  (filters = [] ∨ (memory = true ∧ i + filters.length < s.fpStart.length)) ∧
    s.srcFpNo + lowWords cfg filters ≤ s.fpArr.length

/-- The starts of the pieces, from piece `i` on. -/
def StartsAt (cfg : RoutingConfig) (filters : List RoutingFilter) (i dst : Nat)
    (fpStart : List Nat) : Prop :=
  ∀ k, k ≤ filters.length →
    fpStart[i + k]? = some (dst + (((filters.take k).map (collectedOf cfg)).flatten).length)

/-- **The loop over the filters** collects a piece for each filter, or runs out of an array. -/
theorem collectFilters_cases (cfg : RoutingConfig) (memory : Bool) (filters : List RoutingFilter) :
    ∀ (i : Nat) (out : List Nat) {s : EstimateState}, (∀ f ∈ filters, Estimable cfg f) →
    Collected out (List.replicate (s.fpArr.length - s.srcFpNo) 0) s →
    s.fpStart[i]? = some s.dstFpNo →
    (CollectFits cfg memory filters i s ∧ ∃ s', collectFilters cfg memory filters i s = some s' ∧
      Collected (out ++ (filters.map (collectedOf cfg)).flatten)
        (List.replicate (s'.fpArr.length - s'.srcFpNo) 0) s' ∧
      s'.fpArr.length = s.fpArr.length ∧ StartsAt cfg filters i s.dstFpNo s'.fpStart ∧
      ∀ k, k ≤ i → s'.fpStart[k]? = s.fpStart[k]?) ∨
    (¬ CollectFits cfg memory filters i s ∧ collectFilters cfg memory filters i s = none) := by
  induction filters with
  | nil =>
      intro i out s _ h hstart
      refine Or.inl ⟨⟨Or.inl rfl, h.bound⟩, s, rfl, by simpa using h, rfl, ?_, fun _ _ => rfl⟩
      intro k hk
      obtain rfl : k = 0 := Nat.le_zero.mp hk
      simpa using hstart
  | cons f filters ih =>
      intro i out s hfilters h hstart
      have hf := hfilters f List.mem_cons_self
      have hrest : ∀ f ∈ filters, Estimable cfg f :=
        fun g hg => hfilters g (List.mem_cons_of_mem _ hg)
      unfold collectFilters
      rcases collectFilter_cases memory hf h with
        ⟨⟨hmemory, hroom⟩, s₁, hstep, hcollected, hmoves⟩ | ⟨hfull, hnone⟩
      · rw [hstep]
        dsimp only
        have hsrc := hmoves.src
        have hlength := hmoves.length
        have hstarts := hmoves.fpStart
        by_cases hi : i + 1 < s₁.fpStart.length
        · rw [if_pos hi]
          have hnext : (s₁.fpStart.set (i + 1) s₁.dstFpNo)[i + 1]? = some s₁.dstFpNo :=
            List.getElem?_set_self hi
          rcases ih (i + 1) _ (s := { s₁ with fpStart := s₁.fpStart.set (i + 1) s₁.dstFpNo }) hrest
            ⟨hcollected.out, hcollected.rest, hcollected.le, hcollected.bound⟩ hnext with
            ⟨⟨hfits, hwords⟩, s', hrun, hend, hlength', hstarts', hbefore⟩ | ⟨hfull, hnone⟩
          · dsimp only at hfits hwords hlength' hbefore
            rw [List.length_set] at hfits
            refine Or.inl ⟨⟨Or.inr ⟨hmemory, ?_⟩, ?_⟩, s', hrun, ?_, ?_, ?_, ?_⟩
            · rw [hstarts] at hfits hi
              rcases hfits with rfl | hfits
              · exact hi
              · rw [List.length_cons]
                omega
            · show s.srcFpNo + (lowWordsOf cfg f + lowWords cfg filters) ≤ s.fpArr.length
              omega
            · rw [List.map_cons, List.flatten_cons, ← List.append_assoc]
              exact hend
            · rw [hlength', hlength]
            · intro k hk
              cases k with
              | zero =>
                  rw [Nat.add_zero, hbefore i (Nat.le_succ i),
                    List.getElem?_set_ne (Nat.succ_ne_self i), hstarts, hstart]
                  simp
              | succ k =>
                  have hk' := hstarts' k (by simpa using hk)
                  rw [show i + (k + 1) = i + 1 + k by omega, hk']
                  have hdst := h.dst_eq
                  have hdst₁ := hcollected.dst_eq
                  rw [List.length_append] at hdst₁
                  congr 1
                  simp only [List.take_succ_cons, List.map_cons, List.flatten_cons,
                    List.length_append]
                  omega
            · intro k hk
              rw [hbefore k (by omega), List.getElem?_set_ne (by omega), hstarts]
          · refine Or.inr ⟨?_, hnone⟩
            rintro ⟨hfits, hwords⟩
            apply hfull
            obtain ⟨_, hlt⟩ := hfits.resolve_left (by simp)
            rw [List.length_cons] at hlt
            constructor
            · right
              refine ⟨hmemory, ?_⟩
              show i + 1 + filters.length < (s₁.fpStart.set (i + 1) s₁.dstFpNo).length
              rw [List.length_set, hstarts]
              omega
            · show s₁.srcFpNo + lowWords cfg filters ≤ s₁.fpArr.length
              change s.srcFpNo + (lowWordsOf cfg f + lowWords cfg filters) ≤ _ at hwords
              omega
        · rw [if_neg hi]
          refine Or.inr ⟨?_, rfl⟩
          rintro ⟨hfits, _⟩
          obtain ⟨_, hlt⟩ := hfits.resolve_left (by simp)
          rw [hstarts] at hi
          rw [List.length_cons] at hlt
          omega
      · rw [hnone]
        refine Or.inr ⟨?_, rfl⟩
        rintro ⟨hfits, hwords⟩
        apply hfull
        obtain ⟨hmemory, _⟩ := hfits.resolve_left (by simp)
        change s.srcFpNo + (lowWordsOf cfg f + lowWords cfg filters) ≤ _ at hwords
        exact ⟨hmemory, by omega⟩

end Filter
end TreePass
