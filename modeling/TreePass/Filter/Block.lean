import TreePass.Filter.Radix
import TreePass.Lib.SortedRuns

/-!
# The blocks of a routing filter

A routing filter stores fingerprints, each shifted to the left by the width of the values and
combined with the value it was added with. The high bits of such a word are its bucket; the buckets
are grouped into indices, and an index has one block on a filter page.

* `RoutingConfig` and the widths that follow from it and from the number of fingerprints.
* `IndexBlock`: a header whose bits give the number of words in every bucket, and the packed low
  bits of the words. In the bits every word is a zero, and a one ends each bucket.
* `getBucketCounts` and `addBuckets` read a block, and `BlockHolds` says which words it holds:
  `BlockHolds.read`.
-/

namespace TreePass
namespace Filter

open Lib

/-! ## The configuration and the widths -/

/-- `ROUTING_FPS_PER_PAGE`: the words of a fingerprint buffer, and the bits of the encoding
buffer. -/
def routingFpsPerPage : Nat := 4096

/-- `routing_config` with the sizes of the cache it refers to. The index size is the power of two
that `routing_config_init` computes in 32 bits. -/
structure RoutingConfig where
  fingerprintSize : Nat
  logIndexSize : Nat
  pageSize : Nat
  pagesPerExtent : Nat
  logIndexSize_lt : logIndexSize < 32

namespace RoutingConfig

variable (cfg : RoutingConfig)

/-- `index_size`: the buckets of an index. -/
def indexSize : Nat := 2 ^ cfg.logIndexSize

/-- `log_num_buckets`: the binary logarithm of the number of fingerprints, and that of the index
size at least. -/
def logNumBuckets (numFingerprints : Nat) : Nat :=
  if Nat.log2 numFingerprints < cfg.logIndexSize then cfg.logIndexSize
  else Nat.log2 numFingerprints

/-- `num_indices`. -/
def numIndices (numFingerprints : Nat) : Nat :=
  2 ^ (cfg.logNumBuckets numFingerprints - cfg.logIndexSize)

/-- `remainder_size`. -/
def remainderSize (numFingerprints : Nat) : Nat :=
  cfg.fingerprintSize - cfg.logNumBuckets numFingerprints

/-- `remainder_and_value_size`. -/
def remainderAndValueSize (numFingerprints valueSize : Nat) : Nat :=
  valueSize + cfg.remainderSize numFingerprints

theorem logIndexSize_le (n : Nat) : cfg.logIndexSize ≤ cfg.logNumBuckets n := by
  unfold logNumBuckets
  split <;> omega

theorem indexSize_pos : 0 < cfg.indexSize := Nat.two_pow_pos _

end RoutingConfig

/-! ## Blocks -/

/-- `routing_hdr` with the block behind it. -/
structure IndexBlock where
  numRemainders : Nat
  encoding : List Bool
  remainders : List Nat
  deriving DecidableEq, Repr

/-- The zeros before the next one, and the bits behind it. There is no value when the bits end. -/
def takeBucket : List Bool → Option (Nat × List Bool)
  | [] => none
  | true :: bits => some (0, bits)
  | false :: bits => (takeBucket bits).map fun s => (s.1 + 1, s.2)

/-- `routing_get_bucket_counts`, which scans the encoding for ones. -/
def getBucketCounts : Nat → List Bool → Option (List Nat)
  | 0, _ => some []
  | size + 1, bits =>
      match takeBucket bits with
      | none => none
      | some (count, rest) => (getBucketCounts size rest).map fun counts => count :: counts

/-- `PackedArray_unpack` into a buffer. There is no case for items without bits, so these leave the
buffer as it is. -/
def packedArrayUnpack (bitsPerItem : Nat) (items buffer : List Nat) : List Nat :=
  if bitsPerItem = 0 then buffer else items ++ buffer.drop items.length

/-- Puts the bucket numbers back into the words of a buffer, bucket by bucket. -/
def addBuckets (remainderAndValueSize : Nat) : Nat → List Nat → List Nat → List Nat
  | _, [], fps => fps
  | bucket, count :: counts, fps =>
      (fps.take count).map (fun fp => fp ||| bucket <<< remainderAndValueSize) ++
        addBuckets remainderAndValueSize (bucket + 1) counts (fps.drop count)

/-! ## What the bits say -/

/-- The bits for words of the given buckets, in order, from the end of a bucket `last` on. -/
def bucketBits : Nat → List Nat → List Bool
  | _, [] => []
  | last, bucket :: buckets =>
      List.replicate (bucket - last) true ++ false :: bucketBits bucket buckets

/-- How many words are in each of `size` buckets. -/
def bucketCounts (buckets : List Nat) : Nat → Nat → List Nat
  | 0, _ => []
  | size + 1, bucket =>
      (buckets.countP fun b => decide (b = bucket)) :: bucketCounts buckets size (bucket + 1)

theorem bucketCounts_succ (buckets : List Nat) (size bucket : Nat) :
    bucketCounts buckets (size + 1) bucket =
      (buckets.countP fun b => decide (b = bucket)) :: bucketCounts buckets size (bucket + 1) := rfl

theorem bucketCounts_congr {buckets buckets' : List Nat} (size : Nat) {start : Nat}
    (h : ∀ c, start ≤ c →
      (buckets.countP fun b => decide (b = c)) = buckets'.countP fun b => decide (b = c)) :
    bucketCounts buckets size start = bucketCounts buckets' size start := by
  induction size generalizing start with
  | zero => rfl
  | succ size ih =>
      rw [bucketCounts_succ, bucketCounts_succ, h start (Nat.le_refl _)]
      rw [ih fun c hc => h c (by omega)]

theorem bucketCounts_cons_lt {bucket : Nat} (buckets : List Nat) (size start : Nat)
    (hlt : bucket < start) :
    bucketCounts (bucket :: buckets) size start = bucketCounts buckets size start := by
  apply bucketCounts_congr
  intro c hc
  have hne : bucket ≠ c := by omega
  exact List.countP_cons_of_neg (by simpa using hne)

theorem getBucketCounts_false {size : Nat} {bits : List Bool} {count : Nat} {counts : List Nat}
    (h : getBucketCounts (size + 1) bits = some (count :: counts)) :
    getBucketCounts (size + 1) (false :: bits) = some ((count + 1) :: counts) := by
  unfold getBucketCounts at h ⊢
  unfold takeBucket
  cases hbits : takeBucket bits with
  | none => simp [hbits] at h
  | some s =>
      obtain ⟨c, rest⟩ := s
      rw [hbits] at h
      simp only [Option.map_some, Option.map_eq_some_iff, List.cons.injEq] at h ⊢
      obtain ⟨counts', hcounts, hc, htail⟩ := h
      exact ⟨counts', hcounts, by rw [hc], htail⟩

theorem getBucketCounts_bits (n : Nat) : ∀ (size start ones : Nat) (buckets : List Nat),
    buckets.length + size = n → buckets.Pairwise (· ≤ ·) →
    (∀ b ∈ buckets, start ≤ b ∧ b < start + size) →
    n ≤ (bucketBits start buckets).length + ones →
    getBucketCounts size (bucketBits start buckets ++ List.replicate ones true) =
      some (bucketCounts buckets size start) := by
  induction n with
  | zero =>
      intro size start ones buckets hn _ _ _
      obtain rfl : size = 0 := by omega
      rfl
  | succ n ih =>
      intro size start ones buckets hn hsorted hrange hlength
      cases buckets with
      | nil =>
          -- Only empty buckets are left.
          cases size with
          | zero => rfl
          | succ size =>
              simp only [bucketBits, List.length_nil, List.nil_append] at hlength hn ⊢
              obtain ⟨ones, rfl⟩ : ∃ m, ones = m + 1 := ⟨ones - 1, by omega⟩
              have hrec := ih size (start + 1) ones [] (by simp; omega) List.Pairwise.nil
                (by simp) (by simp [bucketBits]; omega)
              simp only [bucketBits, List.nil_append] at hrec
              unfold getBucketCounts bucketCounts
              simp [List.replicate_succ, takeBucket, hrec]
      | cons b buckets =>
          have hb := hrange b List.mem_cons_self
          have hrest := List.pairwise_cons.mp hsorted
          obtain ⟨size, rfl⟩ : ∃ m, size = m + 1 := ⟨size - 1, by omega⟩
          simp only [List.length_cons] at hn
          by_cases hstart : b = start
          · -- A word of the first bucket.
            subst hstart
            have hrec := ih (size + 1) b ones buckets (by omega) hrest.2
              (fun c hc => ⟨hrest.1 c hc, (hrange c (List.mem_cons_of_mem _ hc)).2⟩)
              (by simp [bucketBits] at hlength; omega)
            have hbits : bucketBits b (b :: buckets) = false :: bucketBits b buckets := by
              simp [bucketBits]
            rw [hbits, List.cons_append]
            rw [bucketCounts_succ] at hrec
            rw [getBucketCounts_false hrec, bucketCounts_succ]
            rw [bucketCounts_cons_lt _ _ _ (Nat.lt_succ_self b), List.countP_cons_of_pos (by simp)]
          · -- The first bucket is empty, and its one comes first.
            have hlt : start < b := by omega
            have hbits : bucketBits start (b :: buckets) =
                true :: bucketBits (start + 1) (b :: buckets) := by
              unfold bucketBits
              rw [show b - start = b - (start + 1) + 1 by omega, List.replicate_succ]
              rfl
            rw [hbits] at hlength ⊢
            have hrec := ih size (start + 1) ones (b :: buckets) (by simp; omega) hsorted
              (fun c hc => by
                have hc' := hrange c hc
                have hbc : b ≤ c := by
                  rcases List.mem_cons.mp hc with rfl | hmem
                  · exact Nat.le_refl _
                  · exact hrest.1 c hmem
                omega)
              (by simp only [List.length_cons] at hlength; omega)
            have hzero : ((b :: buckets).countP fun c => decide (c = start)) = 0 := by
              rw [List.countP_eq_zero]
              intro c hc
              have hbc : b ≤ c := by
                rcases List.mem_cons.mp hc with rfl | hmem
                · exact Nat.le_refl _
                · exact hrest.1 c hmem
              simp
              omega
            rw [List.cons_append]
            unfold getBucketCounts bucketCounts
            simp [takeBucket, hrec, hzero]

theorem length_bucketBits (last top : Nat) {buckets : List Nat}
    (hsorted : buckets.Pairwise (· ≤ ·)) (hge : ∀ b ∈ buckets, last ≤ b)
    (htop : ∀ b ∈ buckets, b ≤ top) (hlast : last ≤ top) :
    (bucketBits last buckets).length ≤ buckets.length + (top - last) := by
  induction buckets generalizing last with
  | nil => simp [bucketBits]
  | cons b buckets ih =>
      have hrest := List.pairwise_cons.mp hsorted
      have hlb := hge b List.mem_cons_self
      have hbt := htop b List.mem_cons_self
      have hrec := ih b hrest.2 hrest.1 (fun c hc => htop c (List.mem_cons_of_mem _ hc)) hbt
      simp only [bucketBits, List.length_append, List.length_replicate, List.length_cons]
      omega

/-! ## Reading a block -/

theorem remainder_or_bucket (fp bits : Nat) :
    fp &&& (2 ^ bits - 1) ||| (fp >>> bits) <<< bits = fp := by
  apply Nat.eq_of_testBit_eq
  intro i
  simp only [Nat.testBit_or, Nat.testBit_and, Nat.testBit_two_pow_sub_one, Nat.testBit_shiftLeft,
    Nat.testBit_shiftRight]
  by_cases h : i < bits
  · simp [h, show ¬ bits ≤ i by omega]
  · simp [h, show bits ≤ i by omega, show bits + (i - bits) = i by omega]

theorem bucketCounts_split (bits start size : Nat) (fps : List Nat) :
    ((fps.map (· >>> bits)).countP fun b => decide (b = start)) =
        (fps.filter fun fp => decide (fp >>> bits = start)).length ∧
      bucketCounts (fps.map (· >>> bits)) size (start + 1) =
        bucketCounts ((fps.filter fun fp => decide (start < fp >>> bits)).map (· >>> bits))
          size (start + 1) := by
  constructor
  · rw [List.countP_map, ← List.countP_eq_length_filter]
    rfl
  · apply bucketCounts_congr
    intro c hc
    rw [List.countP_map, List.countP_map, List.countP_filter]
    apply List.countP_congr
    intro fp _
    simp only [Function.comp, decide_eq_true_eq, Bool.and_eq_true]
    constructor
    · intro heq
      exact ⟨heq, by omega⟩
    · exact fun h => h.1

theorem addBuckets_eq (bits size : Nat) : ∀ (start : Nat) (fps tail : List Nat),
    (fps.Pairwise fun a b => a >>> bits ≤ b >>> bits) →
    (∀ fp ∈ fps, start ≤ fp >>> bits ∧ fp >>> bits < start + size) →
    addBuckets bits start (bucketCounts (fps.map (· >>> bits)) size start)
      (fps.map (· &&& (2 ^ bits - 1)) ++ tail) = fps ++ tail := by
  induction size with
  | zero =>
      intro start fps tail _ hrange
      cases fps with
      | nil => rfl
      | cons fp fps =>
          have := hrange fp List.mem_cons_self
          omega
  | succ size ih =>
      intro start fps tail hsorted hrange
      have hge : ∀ fp ∈ fps, start ≤ fp >>> bits := fun fp hfp => (hrange fp hfp).1
      have htake := take_run (· >>> bits) hsorted hge
      have hdrop := drop_run (· >>> bits) hsorted hge
      have hsplit := split_run (· >>> bits) hsorted hge
      obtain ⟨hcount, hlater⟩ := bucketCounts_split bits start size fps
      rw [← List.countP_eq_length_filter] at hcount
      have hle : (fps.countP fun fp => decide (fp >>> bits = start)) ≤
          (fps.map (· &&& (2 ^ bits - 1))).length := by
        rw [List.length_map]
        exact List.countP_le_length
      have hrec := ih (start + 1) (fps.filter fun fp => decide (start < fp >>> bits)) tail
        (hsorted.filter _) (by
          intro fp hfp
          have hmem := List.mem_filter.mp hfp
          have hlt := of_decide_eq_true hmem.2
          have := hrange fp hmem.1
          omega)
      rw [bucketCounts_succ, hcount]
      unfold addBuckets
      rw [List.take_append_of_le_length hle, List.drop_append_of_le_length hle, ← List.map_take,
        ← List.map_drop, htake, hdrop, hlater, hrec, List.map_map]
      have hrun : ((fps.filter fun fp => decide (fp >>> bits = start)).map
          ((fun fp => fp ||| start <<< bits) ∘ (· &&& (2 ^ bits - 1)))) =
          fps.filter fun fp => decide (fp >>> bits = start) := by
        conv_rhs => rw [← List.map_id (fps.filter fun fp => decide (fp >>> bits = start))]
        apply List.map_congr_left
        intro fp hfp
        have hbucket := of_decide_eq_true (List.mem_filter.mp hfp).2
        show (fp &&& (2 ^ bits - 1)) ||| start <<< bits = fp
        rw [← hbucket]
        exact remainder_or_bucket fp bits
      rw [hrun, ← List.append_assoc, ← hsplit]

/-- **A block holds a sorted list of words**: all are in the buckets of its index, the header says
how many are in which bucket, and the remainders are their low bits. -/
structure BlockHolds (cfg : RoutingConfig) (bits indexNo : Nat) (block : IndexBlock)
    (fps : List Nat) : Prop where
  sorted : fps.Pairwise (· ≤ ·)
  bucket : ∀ fp ∈ fps, indexNo * cfg.indexSize ≤ fp >>> bits ∧
    fp >>> bits < indexNo * cfg.indexSize + cfg.indexSize
  count : block.numRemainders = fps.length
  fits : fps.length ≤ routingFpsPerPage
  encoding : getBucketCounts cfg.indexSize block.encoding =
    some (bucketCounts (fps.map (· >>> bits)) cfg.indexSize (indexNo * cfg.indexSize))
  remainders : block.remainders = fps.map (· &&& (2 ^ bits - 1))

theorem shiftRight_mono {a b : Nat} (h : a ≤ b) (bits : Nat) : a >>> bits ≤ b >>> bits := by
  rw [Nat.shiftRight_eq_div_pow, Nat.shiftRight_eq_div_pow]
  exact Nat.div_le_div_right h

theorem BlockHolds.read {cfg : RoutingConfig} {bits indexNo : Nat} {block : IndexBlock}
    {fps : List Nat} (h : BlockHolds cfg bits indexNo block fps) (hbits : bits ≠ 0)
    (buffer : List Nat) :
    addBuckets bits (indexNo * cfg.indexSize)
        (bucketCounts (fps.map (· >>> bits)) cfg.indexSize (indexNo * cfg.indexSize))
        (packedArrayUnpack bits block.remainders buffer) =
      fps ++ buffer.drop fps.length := by
  unfold packedArrayUnpack
  rw [if_neg hbits, h.remainders, List.length_map]
  exact addBuckets_eq bits cfg.indexSize _ fps _
    (h.sorted.imp fun hle => shiftRight_mono hle bits) h.bucket

/-- **The words a block stores**: what reading it into an empty buffer gives. -/
def blockWords (cfg : RoutingConfig) (bits indexNo : Nat) (block : IndexBlock) : List Nat :=
  match getBucketCounts cfg.indexSize block.encoding with
  | none => []
  | some counts =>
      (addBuckets bits (indexNo * cfg.indexSize) counts
        (packedArrayUnpack bits block.remainders (List.replicate routingFpsPerPage 0))).take
        block.numRemainders

theorem BlockHolds.blockWords_eq {cfg : RoutingConfig} {bits indexNo : Nat} {block : IndexBlock}
    {fps : List Nat} (h : BlockHolds cfg bits indexNo block fps) :
    blockWords cfg bits indexNo block = fps := by
  unfold blockWords
  rw [h.encoding]
  dsimp only
  by_cases hbits : bits = 0
  · -- Without low bits every remainder is zero, as the buffer is.
    subst hbits
    have hzero : packedArrayUnpack 0 block.remainders (List.replicate routingFpsPerPage 0) =
        fps.map (· &&& (2 ^ 0 - 1)) ++ List.replicate (routingFpsPerPage - fps.length) 0 := by
      have hmap : fps.map (· &&& (2 ^ 0 - 1)) = List.replicate fps.length 0 := by
        rw [List.eq_replicate_iff]
        simp
      have hfits := h.fits
      rw [hmap, ← List.replicate_add, Nat.add_sub_cancel' hfits]
      rfl
    rw [hzero, addBuckets_eq 0 cfg.indexSize _ fps _
      (h.sorted.imp fun hle => shiftRight_mono hle 0) h.bucket, h.count]
    exact List.take_left
  · rw [h.read hbits, h.count]
    exact List.take_left

end Filter
end TreePass
