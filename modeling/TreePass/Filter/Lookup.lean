import TreePass.Filter.DecodeIndex
import TreePass.Lib.Ranks
import Mathlib.Data.Nat.Log

/-!
# Looking a key up in a routing filter

`routing_filter_lookup` reads one bucket of one index, compares the remainders of its words with
that of the key, and returns a word with a bit for the value of every match.

* `routingFilterLookup` is the function, from the hash of the key on.
* `AddedTo` are the filters of chains of adds, together with what was added.
* `Stores` says which words the indices hold: one for every fingerprint and value that was added,
  however often the filter has been read back, widened and merged since.
* `routing_filter_lookup_exact`: a lookup returns exactly the values that were added with the
  fingerprint of the key.
-/

namespace TreePass
namespace Filter

open Lib

/-! ## The code -/

/-- `routing_filter_get_remainder_and_value`: items without bits are zero. -/
def getRemainderAndValue (bits : Nat) (remainders : List Nat) (pos : Nat) : Option Nat :=
  if bits = 0 then some 0 else remainders[pos]?

/-- `remainder_and_value_size` of a filter. -/
abbrev RoutingFilter.bits (filter : RoutingFilter) (cfg : RoutingConfig) : Nat :=
  cfg.remainderAndValueSize filter.numFingerprints filter.valueSize

/-- The loop over the words of a bucket, from the last one to the one at `start`.  There is no
result where the assertion on the value fails. -/
def scanBucket (valueSize bits remainder : Nat) (remainders : List Nat) (start : Nat) :
    Nat → BitVec 64 → Option (BitVec 64)
  | 0, foundValues => some foundValues
  | left + 1, foundValues => do
      let found ← getRemainderAndValue bits remainders (start + left)
      if found >>> valueSize = remainder then
        let foundValue := (found &&& (2 ^ valueSize - 1)) % 2 ^ 16
        if foundValue < 64 then
          scanBucket valueSize bits remainder remainders start left
            (foundValues ||| BitVec.twoPow 64 foundValue)
        else none
      else scanBucket valueSize bits remainder remainders start left foundValues

/-- **`routing_filter_lookup`** of a key with the given hash.  There is no result without an index
entry, or where the encoding cannot be read. -/
def routingFilterLookup (cfg : RoutingConfig) (filter : RoutingFilter) (hash : UInt32) :
    Option (BitVec 64) :=
  if filter.present then do
    let fp := fingerprintOf cfg hash
    let word := (fp <<< filter.valueSize) % 2 ^ 32
    let bits := filter.bits cfg
    let bucketOff := (word >>> bits) % cfg.indexSize
    let remainder := fp &&& (2 ^ cfg.remainderSize filter.numFingerprints - 1)
    let hdr ← filter.indices[routingGetIndex word (bits + cfg.logIndexSize)]?
    let (start, stop) ← routingGetBucketBounds hdr.encoding
      (encodingSize cfg hdr.numRemainders + 2) bucketOff
    if start = stop then some 0#64
    else scanBucket filter.valueSize bits remainder hdr.remainders start (stop - start) 0#64
  else some 0#64

/-! ## What was added -/

/-- **Chains of adds** and what was added: lists of fingerprints, each with its value.  The number
of fingerprints stays a 32-bit number. -/
inductive AddedTo (cfg : RoutingConfig) : RoutingFilter → List (List UInt32 × UInt16) → Prop
  | null : AddedTo cfg nullRoutingFilter []
  | add {memory : Bool} {old f : RoutingFilter} {newFpArr : List UInt32} {value : UInt16}
      {adds : List (List UInt32 × UInt16)} :
      AddedTo cfg old adds → HasRemainders cfg old →
        newFpArr.length + old.numFingerprints < 2 ^ 32 →
          routingFilterAdd cfg memory old newFpArr value = some (.ok f) →
            AddedTo cfg f (adds ++ [(newFpArr, value)])

def WordOfAdds (cfg : RoutingConfig) (valueSize : Nat) (adds : List (List UInt32 × UInt16))
    (w : Nat) : Prop :=
  ∃ a ∈ adds, ∃ fp ∈ a.1, w = fingerprintOf cfg fp <<< valueSize + a.2.toNat

/-- **What a filter stores**: for every index, the words of what was added that belong there. -/
structure Stores (cfg : RoutingConfig) (f : RoutingFilter) (adds : List (List UInt32 × UInt16)) :
    Prop where
  fits : cfg.fingerprintSize + f.valueSize ≤ 32
  width : cfg.logNumBuckets f.numFingerprints ≤ cfg.fingerprintSize
  length : f.indices.length = cfg.numIndices f.numFingerprints
  values : ∀ a ∈ adds, a.2.toNat < 2 ^ f.valueSize
  sized : ∀ block ∈ f.indices, block.encoding.length = 8 * encodingSize cfg block.numRemainders ∧
    block.encoding.length ≤ routingFpsPerPage
  words : ∀ j block, f.indices[j]? = some block → ∃ fps,
    BlockHolds cfg (f.bits cfg) j block fps ∧
      ∀ w, w ∈ fps ↔ WordOfAdds cfg f.valueSize adds w ∧
        wordIndex cfg (f.bits cfg) w = j

/-- The new indices divide the old ones evenly. -/
theorem indices_ratio (cfg : RoutingConfig) {old : RoutingFilter} {n : Nat}
    (hle : old.numFingerprints ≤ n) :
    0 < cfg.numIndices n / oldNumIndices cfg old ∧
      oldNumIndices cfg old * (cfg.numIndices n / oldNumIndices cfg old) = cfg.numIndices n := by
  unfold oldNumIndices
  by_cases hpresent : old.present = true
  · have hmono : cfg.logNumBuckets old.numFingerprints ≤ cfg.logNumBuckets n := by
      have hlog : Nat.log2 old.numFingerprints ≤ Nat.log2 n := by
        rw [Nat.log2_eq_log_two, Nat.log2_eq_log_two]
        exact Nat.log_mono_right hle
      unfold RoutingConfig.logNumBuckets
      split <;> split <;> omega
    have hsize := cfg.logIndexSize_le old.numFingerprints
    rw [if_pos hpresent, numIndices_div hmono]
    refine ⟨Nat.two_pow_pos _, ?_⟩
    unfold RoutingConfig.numIndices
    rw [← Nat.pow_add]
    congr 1
    omega
  · rw [if_neg hpresent, Nat.div_one, Nat.one_mul]
    exact ⟨Nat.two_pow_pos _, rfl⟩

namespace Stores

variable {cfg : RoutingConfig} {f : RoutingFilter} {adds : List (List UInt32 × UInt16)}

theorem holds (h : Stores cfg f adds) : FilterHolds cfg f :=
  ⟨h.fits, h.width, fun j block hblock => (h.words j block hblock).imp fun _ hfps => hfps.1⟩

theorem index_lt (h : Stores cfg f adds) {q v : Nat} (hq : q < 2 ^ cfg.fingerprintSize)
    (hv : v < 2 ^ f.valueSize) :
    wordIndex cfg (f.bits cfg) (q <<< f.valueSize + v) < f.indices.length := by
  have hle := cfg.logIndexSize_le f.numFingerprints
  have hwidth := h.width
  rw [h.length, wordIndex_eq, Nat.shiftLeft_eq, Nat.shiftRight_eq_div_pow _ f.valueSize,
    Nat.add_comm (q * _), Nat.add_mul_div_right _ _ (Nat.two_pow_pos _), Nat.div_eq_of_lt hv,
    Nat.zero_add, Nat.shiftRight_eq_div_pow]
  apply Nat.div_lt_of_lt_mul
  unfold RoutingConfig.numIndices RoutingConfig.remainderSize
  rw [← Nat.pow_add]
  exact Nat.lt_of_lt_of_le hq (Nat.pow_le_pow_right (by decide) (by omega))

theorem mem_oldWords (h : Stores cfg f adds) (hpresent : f.present = true) {valueSize : Nat}
    (hvalue : f.valueSize ≤ valueSize) (hfp : cfg.fingerprintSize ≤ 32) {w o : Nat} :
    w ∈ oldWordsAt cfg f valueSize o ↔ ∃ a ∈ adds, ∃ fp ∈ a.1,
      w = fingerprintOf cfg fp <<< valueSize + a.2.toNat ∧
        wordIndex cfg (f.bits cfg)
          (fingerprintOf cfg fp <<< f.valueSize + a.2.toNat) = o := by
  have hwiden : ∀ a ∈ adds, ∀ q, widenValue f.valueSize valueSize (q <<< f.valueSize + a.2.toNat) =
      q <<< valueSize + a.2.toNat := by
    intro a ha q
    have hlt := h.values a ha
    rw [widenValue_eq hvalue, Nat.shiftLeft_eq, Nat.shiftLeft_eq, Nat.shiftRight_eq_div_pow,
      Nat.add_comm (q * 2 ^ f.valueSize), Nat.add_mul_div_right _ _ (Nat.two_pow_pos _),
      Nat.add_mul_mod_self_right, Nat.div_eq_of_lt hlt, Nat.mod_eq_of_lt hlt, Nat.zero_add]
  unfold oldWordsAt
  rw [if_pos hpresent]
  cases hblock : f.indices[o]? with
  | none =>
      refine iff_of_false List.not_mem_nil ?_
      rintro ⟨a, ha, fp, -, -, rfl⟩
      have hlt := h.index_lt (fingerprintOf_lt hfp fp) (h.values a ha)
      rw [List.getElem?_eq_getElem hlt] at hblock
      cases hblock
  | some block =>
      obtain ⟨fps, hholds, hmem⟩ := h.words o block hblock
      dsimp only
      rw [hholds.blockWords_eq, List.mem_map]
      constructor
      · rintro ⟨u, hu, rfl⟩
        obtain ⟨⟨a, ha, fp, hmemfp, rfl⟩, hindex⟩ := (hmem u).mp hu
        exact ⟨a, ha, fp, hmemfp, hwiden a ha _, hindex⟩
      · rintro ⟨a, ha, fp, hmemfp, rfl, hindex⟩
        exact ⟨_, (hmem _).mpr ⟨⟨a, ha, fp, hmemfp, rfl⟩, hindex⟩, hwiden a ha _⟩

theorem add {old : RoutingFilter} {memory : Bool} {newFpArr : List UInt32} {value : UInt16}
    (hold : old.present = true → Stores cfg old adds) (hnull : old.present = false → adds = [])
    (hbits : HasRemainders cfg old) (hcount : newFpArr.length + old.numFingerprints < 2 ^ 32)
    (hadd : routingFilterAdd cfg memory old newFpArr value = some (.ok f)) :
    Stores cfg f (adds ++ [(newFpArr, value)]) := by
  obtain ⟨-, fps, hbuilds⟩ := routingFilterAdd_spec (fun hp => (hold hp).holds) hbits hadd
  have hfits := hbuilds.fits
  have hnum : f.numFingerprints = newFpArr.length + old.numFingerprints := by
    rw [hbuilds.numFingerprints, newNumFingerprints, Nat.mod_eq_of_lt hcount]
  have hprepared := hbuilds.prepared
  rw [hbuilds.valueSize] at hprepared
  obtain ⟨-, hmemNew⟩ := prepareFps_spec (by omega) hprepared
  rw [← hbuilds.valueSize] at hmemNew
  have hratio := indices_ratio cfg (show old.numFingerprints ≤ f.numFingerprints by omega)
  refine ⟨hfits, hbuilds.width, hbuilds.length.trans hratio.2, ?_,
    fun block hblock => routingFilterAdd_sized hadd hblock, ?_⟩
  · intro a ha
    rcases List.mem_append.mp ha with hmem | hmem
    · cases hpresent : old.present with
      | false =>
          rw [hnull hpresent] at hmem
          cases hmem
      | true =>
          exact Nat.lt_of_lt_of_le ((hold hpresent).values a hmem)
            (Nat.pow_le_pow_right (by decide) (hbuilds.oldValue hpresent))
    · obtain rfl := List.mem_singleton.mp hmem
      rw [hbuilds.valueSize]
      exact valueSizeOf_spec value
  · intro j block hblock
    refine ⟨_, hbuilds.holds j block hblock, fun w => ?_⟩
    have hwords : w ∈ newWordsAt cfg old f.numFingerprints f.valueSize fps j ↔
        (w ∈ oldWordsAt cfg old f.valueSize
            (j / (cfg.numIndices f.numFingerprints / oldNumIndices cfg old)) ∨ w ∈ fps) ∧
          wordIndex cfg (f.bits cfg) w = j := by
      unfold newWordsAt indexWords
      rw [mem_mergeWords, mem_wordsAt, mem_wordsAt, ← or_and_right]
    rw [hwords]
    refine and_congr_left fun hindex => ?_
    have hsplit : WordOfAdds cfg f.valueSize (adds ++ [(newFpArr, value)]) w ↔
        WordOfAdds cfg f.valueSize adds w ∨ w ∈ fps := by
      unfold WordOfAdds
      simp only [List.mem_append, List.mem_singleton, or_and_right, exists_or, exists_eq_left,
        hmemNew]
    rw [hsplit]
    refine or_congr_left ?_
    cases hpresent : old.present with
    | false =>
        rw [hnull hpresent]
        unfold oldWordsAt WordOfAdds
        simp [hpresent]
    | true =>
        -- What the old filter had in the index that `j` comes from goes to `j`.
        have hvalue := hbuilds.oldValue hpresent
        constructor
        · intro hmem
          obtain ⟨a, ha, fp, hfp, heq, -⟩ :=
            ((hold hpresent).mem_oldWords hpresent hvalue (by omega)).mp hmem
          exact ⟨a, ha, fp, hfp, heq⟩
        · rintro ⟨a, ha, fp, hfp, rfl⟩
          have hmem := ((hold hpresent).mem_oldWords hpresent hvalue (by omega)).mpr
            ⟨a, ha, fp, hfp, rfl, rfl⟩
          have hplace := oldIndex_of_mem (fun hp => (hold hp).holds) (fun _ => hvalue)
            hbuilds.width hratio.1 hmem
          rw [hindex] at hplace
          rwa [hplace]

end Stores

theorem AddedTo.stores {cfg : RoutingConfig} {f : RoutingFilter}
    {adds : List (List UInt32 × UInt16)} (h : AddedTo cfg f adds) :
    (f.present = true → Stores cfg f adds) ∧ (f.present = false → adds = []) := by
  induction h with
  | null => exact ⟨nofun, fun _ => rfl⟩
  | add _ hbits hcount hadd ih =>
      have hstores := Stores.add ih.1 ih.2 hbits hcount hadd
      obtain ⟨hpresent, -⟩ := routingFilterAdd_spec (fun hp => (ih.1 hp).holds) hbits hadd
      refine ⟨fun _ => hstores, fun hnull => ?_⟩
      rw [hpresent] at hnull
      cases hnull

/-! ## What a lookup reads -/

section Bucket

variable {cfg : RoutingConfig} {bits indexNo : Nat} {block : IndexBlock} {fps : List Nat}

theorem take_bucketCounts (buckets : List Nat) (size : Nat) : ∀ start b, b ≤ size →
    (bucketCounts buckets size start).take b = bucketCounts buckets b start := by
  induction size with
  | zero =>
      intro start b hb
      obtain rfl := Nat.le_zero.mp hb
      rfl
  | succ size ih =>
      intro start b hb
      cases b with
      | zero => rfl
      | succ b => rw [bucketCounts_succ, List.take_succ_cons, ih _ _ (by omega), bucketCounts_succ]

def wordsBelow (bits : Nat) (fps : List Nat) (c : Nat) : Nat :=
  fps.countP fun w => decide (w >>> bits < c)

theorem BlockHolds.sum_counts (h : BlockHolds cfg bits indexNo block fps) {b : Nat}
    (hb : b ≤ cfg.indexSize) :
    ((bucketCounts (fps.map (· >>> bits)) cfg.indexSize (indexNo * cfg.indexSize)).take b).sum =
      wordsBelow bits fps (indexNo * cfg.indexSize + b) := by
  rw [wordsBelow, take_bucketCounts _ _ _ _ hb, sum_bucketCounts, List.countP_map]
  apply List.countP_congr
  intro w hw
  have hlow := (h.bucket w hw).1
  simp [hlow]

theorem BlockHolds.below_iff (h : BlockHolds cfg bits indexNo block fps) {pos w : Nat}
    (hpos : fps[pos]? = some w) (c : Nat) : w >>> bits < c ↔ pos < wordsBelow bits fps c := by
  have hinit : Initial (fun w => decide (w >>> bits < c)) fps :=
    Initial.of_pairwise h.sorted fun _ _ hle hlt => by
      rw [decide_eq_true_eq] at hlt ⊢
      exact Nat.lt_of_le_of_lt (shiftRight_mono hle bits) hlt
  have hiff := hinit.getElem_iff hpos
  rwa [decide_eq_true_eq] at hiff

theorem BlockHolds.bounds (h : BlockHolds cfg bits indexNo block fps)
    (hsize : block.encoding.length = 8 * encodingSize cfg block.numRemainders)
    (hroom : block.encoding.length ≤ routingFpsPerPage) {b : Nat} (hb : b < cfg.indexSize) :
    routingGetBucketBounds block.encoding (encodingSize cfg block.numRemainders + 2) b =
      some (wordsBelow bits fps (indexNo * cfg.indexSize + b),
        wordsBelow bits fps (indexNo * cfg.indexSize + (b + 1))) := by
  have hpos := cfg.indexSize_pos
  have hsum : (bucketCounts (fps.map (· >>> bits)) cfg.indexSize
      (indexNo * cfg.indexSize)).sum = fps.length := by
    rw [sum_bucketCounts, List.countP_eq_length.mpr, List.length_map]
    intro c hc
    obtain ⟨w, hw, rfl⟩ := List.mem_map.mp hc
    simpa using h.bucket w hw
  unfold encodingSize at hsize ⊢
  unfold routingFpsPerPage at hroom
  rw [h.count] at hsize ⊢
  rw [boundsAgree_of_scan h.encoding (by omega) (by omega) _ (by omega) b hb,
    h.sum_counts hb.le, h.sum_counts hb]

theorem BlockHolds.mem_bucket (h : BlockHolds cfg bits indexNo block fps) (c w : Nat) :
    (∃ pos, wordsBelow bits fps c ≤ pos ∧ pos < wordsBelow bits fps (c + 1) ∧
        fps[pos]? = some w) ↔ w ∈ fps ∧ w >>> bits = c := by
  constructor
  · rintro ⟨pos, hge, hlt, hpos⟩
    have hupper := (h.below_iff hpos (c + 1)).mpr hlt
    have hlower := mt (h.below_iff hpos c).mp (Nat.not_lt.mpr hge)
    exact ⟨List.mem_of_getElem? hpos, by omega⟩
  · rintro ⟨hmem, hbucket⟩
    obtain ⟨pos, hpos⟩ := List.mem_iff_getElem?.mp hmem
    exact ⟨pos, Nat.not_lt.mp (mt (h.below_iff hpos c).mpr (by omega)),
      (h.below_iff hpos (c + 1)).mp (by omega), hpos⟩

theorem BlockHolds.getRemainder (h : BlockHolds cfg bits indexNo block fps) {pos w : Nat}
    (hpos : fps[pos]? = some w) :
    getRemainderAndValue bits block.remainders pos = some (w % 2 ^ bits) := by
  unfold getRemainderAndValue
  by_cases hbits : bits = 0
  · subst hbits
    rw [if_pos rfl, Nat.pow_zero, Nat.mod_one]
  · rw [if_neg hbits, h.remainders, List.getElem?_map, hpos, Option.map_some,
      Nat.and_two_pow_sub_one_eq_mod]

theorem BlockHolds.scanBucket_spec (h : BlockHolds cfg bits indexNo block fps)
    (valueSize remainder : Nat) {start : Nat} (left : Nat)
    (hvalues : ∀ w ∈ fps, w % 2 ^ bits % 2 ^ valueSize < 64) (hle : start + left ≤ fps.length) :
    ∀ foundValues : BitVec 64, ∃ found,
      scanBucket valueSize bits remainder block.remainders start left foundValues = some found ∧
        ∀ v, v < 64 → (found.getLsbD v = true ↔ foundValues.getLsbD v = true ∨
          ∃ pos, start ≤ pos ∧ pos < start + left ∧ ∃ w, fps[pos]? = some w ∧
            (w % 2 ^ bits) >>> valueSize = remainder ∧ w % 2 ^ bits % 2 ^ valueSize = v) := by
  induction left with
  | zero =>
      intro foundValues
      refine ⟨foundValues, rfl, fun v _ => (or_iff_left ?_).symm⟩
      rintro ⟨pos, hge, hlt, -⟩
      omega
  | succ left ih =>
      intro foundValues
      have hget := List.getElem?_eq_getElem (show start + left < fps.length by omega)
      generalize fps[start + left] = w at hget
      have hsmall := hvalues w (List.mem_of_getElem? hget)
      -- the last place, or one before it
      have hlast : ∀ p : Nat → Prop, (∃ pos, start ≤ pos ∧ pos < start + (left + 1) ∧
          ∃ w, fps[pos]? = some w ∧ p w) ↔ p w ∨ ∃ pos, start ≤ pos ∧ pos < start + left ∧
            ∃ w, fps[pos]? = some w ∧ p w := by
        intro p
        constructor
        · rintro ⟨pos, hge, hlt, u, hu, hp⟩
          by_cases heq : pos = start + left
          · rw [heq, hget] at hu
            obtain rfl := Option.some.inj hu
            exact Or.inl hp
          · exact Or.inr ⟨pos, hge, by omega, u, hu, hp⟩
        · rintro (hp | ⟨pos, hge, hlt, hrest⟩)
          · exact ⟨start + left, by omega, by omega, w, hget, hp⟩
          · exact ⟨pos, hge, by omega, hrest⟩
      rw [scanBucket, h.getRemainder hget, Option.bind_eq_bind, Option.bind_some]
      have hvalue : (w % 2 ^ bits &&& (2 ^ valueSize - 1)) % 2 ^ 16 =
          w % 2 ^ bits % 2 ^ valueSize := by
        rw [Nat.and_two_pow_sub_one_eq_mod, Nat.mod_eq_of_lt (by omega)]
      by_cases hmatch : (w % 2 ^ bits) >>> valueSize = remainder
      · rw [if_pos hmatch, hvalue, if_pos hsmall]
        obtain ⟨found, hrun, hbitsOf⟩ := ih (by omega)
          (foundValues ||| BitVec.twoPow 64 (w % 2 ^ bits % 2 ^ valueSize))
        refine ⟨found, hrun, fun v hv => ?_⟩
        rw [hbitsOf v hv, getLsbD_insert _ hv, Bool.or_eq_true, decide_eq_true_eq, hlast, or_assoc]
        exact or_congr_right (or_congr_left ⟨fun heq => ⟨hmatch, heq.symm⟩, fun hp => hp.2.symm⟩)
      · rw [if_neg hmatch]
        obtain ⟨found, hrun, hbitsOf⟩ := ih (by omega) foundValues
        refine ⟨found, hrun, fun v hv => ?_⟩
        rw [hbitsOf v hv, hlast]
        exact or_congr_right (or_iff_right fun hp => hmatch hp.1).symm

end Bucket

/-! ## Words of a fingerprint -/

theorem word_parts (cfg : RoutingConfig) (n : Nat) {valueSize q v : Nat} (hv : v < 2 ^ valueSize) :
    let w := q <<< valueSize + v
    let bits := cfg.remainderAndValueSize n valueSize
    w >>> bits = q >>> cfg.remainderSize n ∧
      (w % 2 ^ bits) >>> valueSize = q % 2 ^ cfg.remainderSize n ∧
      w % 2 ^ bits % 2 ^ valueSize = v := by
  have hq : (q <<< valueSize + v) >>> valueSize = q := by
    rw [Nat.shiftLeft_eq, Nat.shiftRight_eq_div_pow, Nat.add_comm,
      Nat.add_mul_div_right _ _ (Nat.two_pow_pos _), Nat.div_eq_of_lt hv, Nat.zero_add]
  unfold RoutingConfig.remainderAndValueSize
  refine ⟨?_, ?_, ?_⟩
  · rw [Nat.shiftRight_add, hq]
  · rw [Nat.shiftRight_eq_div_pow, Nat.pow_add, Nat.mod_mul_right_div_self,
      ← Nat.shiftRight_eq_div_pow, hq]
  · rw [Nat.pow_add, Nat.mod_mul_right_mod, Nat.shiftLeft_eq, Nat.add_comm,
      Nat.add_mul_mod_self_right, Nat.mod_eq_of_lt hv]

/-- **The bucket of a lookup**: the words with the high bits of the fingerprint, in the index of the
fingerprint. -/
theorem Stores.lookup_eq {cfg : RoutingConfig} {f : RoutingFilter}
    {adds : List (List UInt32 × UInt16)} (s : Stores cfg f adds) (hpresent : f.present = true)
    (hash : UInt32) :
    let q := fingerprintOf cfg hash
    let bits := f.bits cfg
    let c := q >>> cfg.remainderSize f.numFingerprints
    ∃ block fps, BlockHolds cfg bits (wordIndex cfg bits (q <<< f.valueSize)) block fps ∧
      (∀ w, w ∈ fps ↔ WordOfAdds cfg f.valueSize adds w ∧
        wordIndex cfg bits w = wordIndex cfg bits (q <<< f.valueSize)) ∧
      routingFilterLookup cfg f hash =
        scanBucket f.valueSize bits (q % 2 ^ cfg.remainderSize f.numFingerprints)
          block.remainders (wordsBelow bits fps c)
          (wordsBelow bits fps (c + 1) - wordsBelow bits fps c) 0#64 := by
  have hfits := s.fits
  have hq : fingerprintOf cfg hash < _ := fingerprintOf_lt (by omega) hash
  unfold routingFilterLookup
  rw [if_pos hpresent]
  generalize fingerprintOf cfg hash = q at hq ⊢
  have hzero : 0 < 2 ^ f.valueSize := Nat.two_pow_pos _
  have hword : (q <<< f.valueSize) % 2 ^ 32 = q <<< f.valueSize := by
    apply Nat.mod_eq_of_lt
    rw [Nat.shiftLeft_eq]
    calc q * 2 ^ f.valueSize < 2 ^ cfg.fingerprintSize * 2 ^ f.valueSize :=
          Nat.mul_lt_mul_of_pos_right hq hzero
      _ = 2 ^ (cfg.fingerprintSize + f.valueSize) := (Nat.pow_add _ _ _).symm
      _ ≤ 2 ^ 32 := Nat.pow_le_pow_right (by decide) hfits
  have hlt := s.index_lt hq hzero
  obtain ⟨hbucket, -, -⟩ := word_parts cfg f.numFingerprints (q := q) hzero
  rw [Nat.add_zero] at hlt hbucket
  dsimp only
  rw [routingGetIndex_eq (Nat.mod_lt _ (by decide)), hword]
  have hblock := List.getElem?_eq_getElem hlt
  obtain ⟨fps, hholds, hmem⟩ := s.words _ _ hblock
  obtain ⟨hsize, hroom⟩ := s.sized _ (List.mem_of_getElem? hblock)
  refine ⟨_, fps, hholds, hmem, ?_⟩
  have hplace : wordIndex cfg (f.bits cfg)
        (q <<< f.valueSize) * cfg.indexSize +
      (q <<< f.valueSize) >>> f.bits cfg % cfg.indexSize =
        q >>> cfg.remainderSize f.numFingerprints := by
    rw [wordIndex, Nat.shiftRight_add, Nat.shiftRight_eq_div_pow _ cfg.logIndexSize, hbucket]
    exact Nat.div_add_mod' _ _
  change (f.indices[wordIndex cfg _ _]? >>= _) = _
  rw [hblock, Option.bind_eq_bind, Option.bind_some,
    hholds.bounds hsize hroom (Nat.mod_lt _ cfg.indexSize_pos), Option.bind_eq_bind,
    Option.bind_some, ← Nat.add_assoc, hplace, Nat.and_two_pow_sub_one_eq_mod]
  dsimp only
  split
  · rename_i heq
    rw [heq, Nat.sub_self]
    rfl
  · rfl

theorem Stores.lookup_spec {cfg : RoutingConfig} {f : RoutingFilter}
    {adds : List (List UInt32 × UInt16)} (s : Stores cfg f adds) (hpresent : f.present = true)
    (hvalues : ∀ a ∈ adds, a.2.toNat < 64) (hash : UInt32) :
    ∃ found, routingFilterLookup cfg f hash = some found ∧
      ∀ v < 64, (found.getLsbD v = true ↔ ∃ a ∈ adds, a.2.toNat = v ∧
        ∃ fp ∈ a.1, fingerprintOf cfg fp = fingerprintOf cfg hash) := by
  obtain ⟨block, fps, hholds, hmem, hlookup⟩ := s.lookup_eq hpresent hash
  rw [hlookup]
  generalize fingerprintOf cfg hash = q at *
  have hparts : ∀ a ∈ adds, ∀ q, _ := fun a ha q =>
    word_parts cfg f.numFingerprints (q := q) (s.values a ha)
  have hmono : wordsBelow (f.bits cfg) fps (q >>> cfg.remainderSize f.numFingerprints) ≤
      wordsBelow (f.bits cfg) fps (q >>> cfg.remainderSize f.numFingerprints + 1) :=
    List.countP_mono_left fun w _ hlt => by
      rw [decide_eq_true_eq] at hlt ⊢
      omega
  obtain ⟨found, hrun, hbits⟩ := hholds.scanBucket_spec f.valueSize
    (q % 2 ^ cfg.remainderSize f.numFingerprints) _ (by
      intro w hw
      obtain ⟨⟨a, ha, fp, -, rfl⟩, -⟩ := (hmem w).mp hw
      obtain ⟨-, -, hvalue⟩ := hparts a ha (fingerprintOf cfg fp)
      rw [hvalue]
      exact hvalues a ha) (by
      rw [Nat.add_sub_cancel' hmono]
      exact List.countP_le_length) 0#64
  refine ⟨found, hrun, fun v hv => ?_⟩
  rw [hbits v hv, Nat.add_sub_cancel' hmono, BitVec.getLsbD_zero, or_iff_right Bool.noConfusion]
  constructor
  · rintro ⟨pos, hge, hlt, w, hpos, hremainder, rfl⟩
    obtain ⟨hw, hhigh⟩ := (hholds.mem_bucket _ w).mp ⟨pos, hge, hlt, hpos⟩
    obtain ⟨⟨a, ha, fp, hfp, rfl⟩, -⟩ := (hmem w).mp hw
    obtain ⟨hbucket, hlow, hvalue⟩ := hparts a ha (fingerprintOf cfg fp)
    refine ⟨a, ha, hvalue.symm, fp, hfp, ?_⟩
    rw [hbucket, Nat.shiftRight_eq_div_pow, Nat.shiftRight_eq_div_pow] at hhigh
    rw [hlow] at hremainder
    rw [← Nat.div_add_mod (fingerprintOf cfg fp), hhigh, hremainder, Nat.div_add_mod]
  · rintro ⟨a, ha, rfl, fp, hfp, rfl⟩
    obtain ⟨hbucket, hlow, hvalue⟩ := hparts a ha (fingerprintOf cfg fp)
    have hindex : wordIndex cfg (f.bits cfg) (fingerprintOf cfg fp <<< f.valueSize + a.2.toNat) =
        wordIndex cfg (f.bits cfg) (fingerprintOf cfg fp <<< f.valueSize) := by
      obtain ⟨hzero, -, -⟩ := word_parts cfg f.numFingerprints (q := fingerprintOf cfg fp)
        (Nat.two_pow_pos f.valueSize)
      rw [Nat.add_zero] at hzero
      rw [wordIndex, wordIndex, Nat.shiftRight_add, Nat.shiftRight_add _ _ cfg.logIndexSize,
        hbucket, hzero]
    obtain ⟨pos, hge, hlt, hpos⟩ := (hholds.mem_bucket _ _).mpr
      ⟨(hmem _).mpr ⟨⟨a, ha, fp, hfp, rfl⟩, hindex⟩, hbucket⟩
    exact ⟨pos, hge, hlt, _, hpos, hlow, hvalue⟩

end Filter
end TreePass
