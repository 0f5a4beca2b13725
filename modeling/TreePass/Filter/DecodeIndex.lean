import TreePass.Filter.Decode

/-!
# The encodings of a filter, decoded

Every index that `routing_filter_add` writes has an encoding of `encoding_size` bytes, and the ones
in it say how many words it wrote for each bucket.  So the decoders can be compared with the writer.

* `routingFilterAdd_sized` is the length of the encodings.
* `DecodersAgree` says that both decoders give what was written, and read nothing else.
* `bucket_decoders_iff` says when they do.
-/

namespace TreePass
namespace Filter

open Lib

/-! ## The length of an encoding -/

/-- The encoding buffer has its size, and the encodings that were stored have theirs. -/
structure Sized (cfg : RoutingConfig) (s : AddState) : Prop where
  buffer : s.encoding.length = routingFpsPerPage
  blocks : ∀ block ∈ s.indices,
    block.encoding.length = 8 * encodingSize cfg block.numRemainders ∧
      block.encoding.length ≤ routingFpsPerPage

theorem mergeIndex_length {valueSize bits endBucket : Nat} (rounds : Nat) :
    ∀ {old new rest : List Nat} {s s' : MergeState},
      mergeIndex valueSize bits endBucket rounds old new s = some (rest, s') →
        s'.encoding.length = s.encoding.length := by
  induction rounds with
  | zero =>
      intro old new rest s s' h
      obtain ⟨-, rfl⟩ := Prod.mk.inj (Option.some.inj h)
      rfl
  | succ rounds ih =>
      intro old new rest s s' h
      unfold mergeIndex at h
      cases hnext : nextFp old new with
      | none =>
          rw [hnext] at h
          obtain ⟨-, rfl⟩ := Prod.mk.inj (Option.some.inj h)
          rfl
      | some next =>
          obtain ⟨isOld, fp, old', new'⟩ := next
          rw [hnext] at h
          dsimp only at h
          by_cases hend : endBucket ≤ fp >>> bits
          · rw [if_pos hend] at h
            cases isOld with
            | false => cases h
            | true =>
                obtain ⟨-, rfl⟩ := Prod.mk.inj (Option.some.inj h)
                rw [countFp_encoding]
          · rw [if_neg hend] at h
            cases happend : appendFp bits (countFp valueSize s fp) fp with
            | none => simp [happend] at h
            | some s₁ =>
                rw [happend] at h
                rw [ih h, (appendFp_length happend).1, countFp_encoding]

theorem Sized.addIndex {cfg : RoutingConfig} {valueSize bits indexNo : Nat} {counts : List Nat}
    {s s' : AddState} (h : Sized cfg s)
    (hrun : Filter.addIndex cfg valueSize bits counts indexNo s = some s') : Sized cfg s' := by
  unfold Filter.addIndex at hrun
  cases hcount : counts[indexNo]? with
  | none => simp [hcount] at hrun
  | some count =>
      rw [hcount] at hrun
      dsimp only at hrun
      split at hrun
      · cases hrun
      · rename_i old m hmerge
        have hlen := mergeIndex_length _ hmerge
        dsimp only at hlen
        rw [h.buffer] at hlen
        split at hrun
        · rename_i hfits
          obtain ⟨-, hroom, -⟩ := hfits
          obtain rfl := Option.some.inj hrun
          constructor
          · dsimp only
            rw [List.length_append, List.length_replicate, List.length_drop, hlen]
            omega
          · intro block hblock
            rcases List.mem_append.mp hblock with hold | hnew
            · exact h.blocks block hold
            · obtain rfl := List.mem_singleton.mp hnew
              dsimp only
              rw [List.length_take, hlen, Nat.min_eq_left hroom]
              exact ⟨rfl, hroom⟩
        · cases hrun

theorem Sized.addIndices {cfg : RoutingConfig} {valueSize bits : Nat} {counts : List Nat}
    (left : Nat) : ∀ {indexNo : Nat} {s s' : AddState}, Sized cfg s →
      Filter.addIndices cfg valueSize bits counts left indexNo s = some s' → Sized cfg s' := by
  induction left with
  | zero =>
      intro indexNo s s' h hrun
      obtain rfl := Option.some.inj hrun
      exact h
  | succ left ih =>
      intro indexNo s s' h hrun
      unfold Filter.addIndices at hrun
      cases hstep : Filter.addIndex cfg valueSize bits counts indexNo s with
      | none => simp [hstep] at hrun
      | some s₁ =>
          rw [hstep] at hrun
          exact ih (h.addIndex hstep) hrun

theorem Sized.addOldIndices {cfg : RoutingConfig} {old : RoutingFilter} {valueSize bits ratio : Nat}
    {counts : List Nat} (left : Nat) :
    ∀ {o : Nat} {buffer : List Nat} {s s' : AddState}, Sized cfg s →
      Filter.addOldIndices cfg old valueSize bits counts ratio left o buffer s = some s' →
      Sized cfg s' := by
  induction left with
  | zero =>
      intro o buffer s s' h hrun
      obtain rfl := Option.some.inj hrun
      exact h
  | succ left ih =>
      intro o buffer s s' h hrun
      unfold Filter.addOldIndices at hrun
      split at hrun
      · cases hrun
      · split at hrun
        · cases hrun
        · rename_i hstep
          refine ih (Sized.addIndices ratio ?_ hstep) hrun
          exact ⟨h.buffer, h.blocks⟩

theorem routingFilterAdd_sized {cfg : RoutingConfig} {memory : Bool} {old f : RoutingFilter}
    {newFpArr : List UInt32} {value : UInt16}
    (hadd : routingFilterAdd cfg memory old newFpArr value = some (.ok f)) {block : IndexBlock}
    (hblock : block ∈ f.indices) :
    block.encoding.length = 8 * encodingSize cfg block.numRemainders ∧
      block.encoding.length ≤ routingFpsPerPage := by
  unfold routingFilterAdd at hadd
  dsimp only at hadd
  split at hadd
  · split at hadd
    · split at hadd
      · cases hadd
      · split at hadd
        · cases hadd
        · rename_i s hrun
          obtain rfl := Except.ok.inj (Option.some.inj hadd)
          refine (Sized.addOldIndices _ ?_ hrun).blocks block hblock
          refine ⟨List.length_replicate, ?_⟩
          intro b hb
          cases hb
    · cases hadd
  · cases hadd

/-! ## What was written -/

theorem sum_bucketCounts (buckets : List Nat) (size : Nat) : ∀ start,
    (bucketCounts buckets size start).sum =
      buckets.countP fun b => decide (start ≤ b ∧ b < start + size) := by
  induction size with
  | zero =>
      intro start
      symm
      rw [bucketCounts, List.sum_nil, List.countP_eq_zero]
      intro b _
      rw [decide_eq_true_eq]
      omega
  | succ size ih =>
      intro start
      rw [bucketCounts_succ, List.sum_cons, ih]
      clear ih
      induction buckets with
      | nil => rfl
      | cons b buckets hbuckets =>
          rw [List.countP_cons, List.countP_cons, List.countP_cons, ← hbuckets]
          rcases Nat.lt_trichotomy b start with hlt | rfl | hgt
          · simp [Nat.ne_of_lt hlt, show ¬ start + 1 ≤ b by omega, show ¬ start ≤ b by omega]
          · simp
            omega
          · simp [Nat.ne_of_gt hgt, Nat.succ_le_of_lt hgt, Nat.le_of_lt hgt,
              show start + (size + 1) = start + 1 + size by omega]
            omega

theorem takeBucket_append {bits : List Bool} {found : Nat × List Bool} (tail : List Bool)
    (h : takeBucket bits = some found) :
    takeBucket (bits ++ tail) = some (found.1, found.2 ++ tail) := by
  induction bits generalizing found with
  | nil => cases h
  | cons b bits ih =>
      cases b with
      | true =>
          obtain rfl := Option.some.inj h
          rfl
      | false =>
          unfold takeBucket at h
          obtain ⟨found', hrec, rfl⟩ := Option.map_eq_some_iff.mp h
          rw [List.cons_append]
          unfold takeBucket
          rw [ih hrec]
          rfl

theorem getBucketCounts_append {size : Nat} {bits : List Bool} {counts : List Nat}
    (tail : List Bool) (h : getBucketCounts size bits = some counts) :
    getBucketCounts size (bits ++ tail) = some counts := by
  induction size generalizing bits counts with
  | zero => exact h
  | succ size ih =>
      unfold getBucketCounts at h ⊢
      cases htake : takeBucket bits with
      | none => simp [htake] at h
      | some found =>
          rw [htake] at h
          obtain ⟨counts', hrec, rfl⟩ := Option.map_eq_some_iff.mp h
          rw [takeBucket_append tail htake]
          dsimp only
          rw [ih hrec]
          rfl

/-- The words that an add writes to an index: those of the old filter and the new ones. -/
def writtenWords (cfg : RoutingConfig) (old : RoutingFilter) (newFpArr : List UInt32)
    (value : UInt16) (j : Nat) : List Nat :=
  newWordsAt cfg old (newNumFingerprints old newFpArr) (valueSizeOf value)
    ((prepareFps cfg newFpArr value (valueSizeOf value)).getD []) j

def writtenCounts (cfg : RoutingConfig) (old : RoutingFilter) (newFpArr : List UInt32)
    (value : UInt16) (j : Nat) : List Nat :=
  bucketCounts ((writtenWords cfg old newFpArr value j).map
      (· >>> cfg.remainderAndValueSize (newNumFingerprints old newFpArr) (valueSizeOf value)))
    cfg.indexSize (j * cfg.indexSize)

/-! ## When the decoders agree -/

/-- The bounds of every bucket are the sums of the counts, whatever length the caller gives that
has the bytes in use, and nothing outside the encoding is read. -/
def BoundsAgree (cfg : RoutingConfig) (encoding : List Bool) (counts : List Nat) : Prop :=
  ∀ len, (counts.sum + cfg.indexSize - 1) / 8 + 1 ≤ len → ∀ b < cfg.indexSize,
    routingGetBucketBounds encoding len b =
      some ((counts.take b).sum, (counts.take (b + 1)).sum)

/-- **Both decoders give what was written** and read nothing outside the encoding. -/
structure DecodersAgree (cfg : RoutingConfig) (encoding : List Bool) (counts : List Nat) :
    Prop where
  total : routingGetBucketCounts cfg encoding = some counts
  bounds : BoundsAgree cfg encoding counts

section Decode

variable {cfg : RoutingConfig} {encoding : List Bool} {counts : List Nat}

theorem onePos_last (hlen : counts.length = cfg.indexSize) :
    onePos counts (counts.length - 1) = counts.sum + cfg.indexSize - 1 := by
  have hpos := cfg.indexSize_pos
  unfold onePos
  rw [Nat.sub_add_cancel (by omega), List.take_length]
  omega

theorem routingGetBucketCounts_spec (hscan : getBucketCounts cfg.indexSize encoding = some counts)
    (hsmall : encoding.length < 2 ^ 32) :
    ((counts.sum + cfg.indexSize - 1) / 64 < encoding.length / 64 →
      routingGetBucketCounts cfg encoding = some counts) ∧
    (encoding.length / 64 ≤ (counts.sum + cfg.indexSize - 1) / 64 →
      routingGetBucketCounts cfg encoding = none) := by
  obtain ⟨hlen, hones, -⟩ := onesAt_of_getBucketCounts _ hscan
  have hpos := cfg.indexSize_pos
  have hreads := readWord_reads (show 0 < 64 by decide) encoding
  unfold routingGetBucketCounts
  by_cases hword : 0 < encoding.length / 64
  · obtain ⟨word, hfirst, hwordOf⟩ := hreads.word 0 hword
    have hstart : ∀ b < counts.length, bitOf encoding (64 * 0 + 0 + onePos counts b) = true ∧
        rank (bitOf encoding) (64 * 0 + 0 + onePos counts b) = 0 + b := by
      intro b hb
      simpa using hones b hb
    obtain ⟨hdone, hfails⟩ := countBuckets_spec hreads (by omega)
      (Nat.div_le_self encoding.length 64) counts 0 0 0 word hstart hword
      (hwordOf.rest (Nat.zero_le _)) (by simp [rank]) (Nat.zero_le _) (Nat.zero_le _)
    simp only [Nat.mul_zero, Nat.zero_add] at hdone hfails
    rw [onePos_last hlen] at hdone hfails
    rw [hlen] at hdone hfails
    rw [hfirst]
    refine ⟨fun h => hdone (Or.inr h), hfails ?_⟩
    rintro rfl
    rw [List.length_nil] at hlen
    omega
  · -- The first word is not there already.
    rw [hreads.none 0 (by omega)]
    refine ⟨fun h => ?_, fun _ => rfl⟩
    omega

theorem boundsAgree_of_scan (hscan : getBucketCounts cfg.indexSize encoding = some counts)
    (hroom : (counts.sum + cfg.indexSize - 1) / 32 < encoding.length / 32)
    (hsmall : encoding.length < 2 ^ 32) : BoundsAgree cfg encoding counts := by
  obtain ⟨hlen, hones, -⟩ := onesAt_of_getBucketCounts _ hscan
  intro len hbytes b hb
  apply routingGetBucketBounds_spec hones
  · rw [onePos_last hlen]
    exact hroom
  · rw [onePos_last hlen]
    intro word hword
    omega
  · omega
  · omega

end Decode

/-- **When the decoders agree.**  For every index of a filter that an add of a chain has written:
both decoders agree with what was written if and only if the bits in use end in the second half of
a word of 64 bits.  The bounds agree in any case; the counts are right as well if a further four
bytes behind the encoding can be read. -/
theorem bucket_decoders_iff {cfg : RoutingConfig} {memory : Bool} {old f : RoutingFilter}
    {newFpArr : List UInt32} {value : UInt16} (hchain : FilterChain cfg old)
    (hbits : HasRemainders cfg old)
    (hadd : routingFilterAdd cfg memory old newFpArr value = some (.ok f)) {j : Nat}
    {block : IndexBlock} (hblock : f.indices[j]? = some block) :
    (DecodersAgree cfg block.encoding (writtenCounts cfg old newFpArr value j) ↔
      32 ≤ ((writtenWords cfg old newFpArr value j).length + cfg.indexSize - 1) % 64) ∧
    BoundsAgree cfg block.encoding (writtenCounts cfg old newFpArr value j) ∧
    ∀ behind : List Bool, behind.length = 32 →
      routingGetBucketCounts cfg (block.encoding ++ behind) =
        some (writtenCounts cfg old newFpArr value j) := by
  obtain ⟨-, fps, hbuilds⟩ := routingFilterAdd_spec hchain.holds hbits hadd
  obtain ⟨hsize, hroom⟩ := routingFilterAdd_sized hadd (List.mem_of_getElem? hblock)
  have hprepared := hbuilds.prepared
  rw [hbuilds.valueSize] at hprepared
  have hholds := hbuilds.holds j block hblock
  have hwords : newWordsAt cfg old f.numFingerprints f.valueSize fps j =
      writtenWords cfg old newFpArr value j := by
    unfold writtenWords
    rw [hprepared, Option.getD_some, hbuilds.numFingerprints, hbuilds.valueSize]
  rw [hwords, hbuilds.numFingerprints, hbuilds.valueSize] at hholds
  have hscan : getBucketCounts cfg.indexSize block.encoding =
      some (writtenCounts cfg old newFpArr value j) := hholds.encoding
  have hsum : (writtenCounts cfg old newFpArr value j).sum =
      (writtenWords cfg old newFpArr value j).length := by
    unfold writtenCounts
    rw [sum_bucketCounts, List.countP_eq_length.mpr, List.length_map]
    intro b hb
    obtain ⟨fp, hfp, rfl⟩ := List.mem_map.mp hb
    simpa using hholds.bucket fp hfp
  have hpos := cfg.indexSize_pos
  rw [hholds.count] at hsize
  unfold encodingSize at hsize
  unfold routingFpsPerPage at hroom
  generalize (writtenWords cfg old newFpArr value j).length = words at *
  have hbounds : BoundsAgree cfg block.encoding (writtenCounts cfg old newFpArr value j) :=
    boundsAgree_of_scan hscan (by omega) (by omega)
  obtain ⟨hdone, hfails⟩ := routingGetBucketCounts_spec hscan (by omega)
  rw [hsum] at hdone hfails
  refine ⟨?_, hbounds, ?_⟩
  · constructor
    · rintro ⟨htotal, -⟩
      by_contra hlow
      rw [hfails (by omega)] at htotal
      cases htotal
    · intro hhigh
      exact ⟨hdone (by omega), hbounds⟩
  · intro behind hbehind
    have htail := (routingGetBucketCounts_spec (getBucketCounts_append behind hscan)
      (by rw [List.length_append]; omega)).1
    apply htail
    rw [hsum, List.length_append]
    omega

private theorem fiveIndexBits : 5 < 32 := by decide

/-- Fingerprints of eight bits, and thirty-two buckets in each index. -/
def wideIndex : RoutingConfig where
  fingerprintSize := 8
  logIndexSize := 5
  pageSize := 4096
  pagesPerExtent := 32
  logIndexSize_lt := fiveIndexBits

/-- The block of a filter with the fingerprint `0x80`, which is in bucket 16. -/
def wideBlock : IndexBlock where
  numRemainders := 1
  encoding := List.replicate 16 true ++ false :: List.replicate 47 true
  remainders := [0]

private theorem wideBlock_added :
    routingFilterAdd wideIndex true nullRoutingFilter [0x80000000] 0 =
      some (.ok
        { present := true, numFingerprints := 1, numUnique := 1, valueSize := 0,
          indices := [wideBlock] }) := by
  decide +kernel

/-- Thirty-three bits are in use, so both decoders agree. -/
theorem bucket_decoders_iff_wideBlock :
    DecodersAgree wideIndex wideBlock.encoding
      (writtenCounts wideIndex nullRoutingFilter [0x80000000] 0 0) := by
  refine (@bucket_decoders_iff wideIndex true nullRoutingFilter _ [0x80000000] 0 .null
    (fun h => Bool.noConfusion h) wideBlock_added 0 wideBlock rfl).1.mpr ?_
  have hold : oldWordsAt wideIndex nullRoutingFilter (valueSizeOf 0) 0 = [] := rfl
  unfold writtenWords newWordsAt indexWords mergeWords
  rw [Nat.zero_div, hold]
  unfold wordsAt
  rw [List.filter_nil, List.nil_merge]
  decide +kernel

/-- The block of the same fingerprint where every bucket is an index. -/
def narrowBlock : IndexBlock where
  numRemainders := 1
  encoding := false :: List.replicate 31 true
  remainders := [128]

private theorem narrowBlock_added :
    routingFilterAdd byteFingerprints true nullRoutingFilter [0x80000000] 0 =
      some (.ok
        { present := true, numFingerprints := 1, numUnique := 1, valueSize := 0,
          indices := [narrowBlock] }) := by
  decide +kernel

/-- **An encoding of four bytes** is read with a word of eight. -/
theorem bucket_counts_read_behind :
    routingGetBucketCounts byteFingerprints narrowBlock.encoding = none ∧
    ¬ ∀ (cfg : RoutingConfig) (old f : RoutingFilter) (newFpArr : List UInt32) (value : UInt16),
        FilterChain cfg old → HasRemainders cfg old →
        routingFilterAdd cfg true old newFpArr value = some (.ok f) →
        ∀ (j : Nat) (block : IndexBlock), f.indices[j]? = some block →
          DecodersAgree cfg block.encoding (writtenCounts cfg old newFpArr value j) := by
  have hnone : routingGetBucketCounts byteFingerprints narrowBlock.encoding = none := by
    decide +kernel
  refine ⟨hnone, fun hagree => ?_⟩
  have htotal := (hagree byteFingerprints nullRoutingFilter _ [0x80000000] 0 .null
    (fun h => Bool.noConfusion h) narrowBlock_added 0 narrowBlock rfl).total
  rw [hnone] at htotal
  cases htotal

end Filter
end TreePass
