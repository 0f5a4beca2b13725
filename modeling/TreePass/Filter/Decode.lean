import TreePass.Lib.WordScan
import TreePass.Filter.UniqueCount
import Mathlib.Algebra.GroupWithZero.Nat
import Mathlib.Algebra.BigOperators.Group.List.Basic

/-!
# Decoding the buckets of an index

The header of an index says how many words each bucket has: a zero for every word, and a one at the
end of every bucket.  Two functions read it back, both a word of memory at a time:
`routing_get_bucket_bounds` looks for one bucket in words of 32 bits, `routing_get_bucket_counts`
goes through all buckets in words of 64 bits.  The `n` bits of an encoding are stored in
`(n - 1) / 8 + 4` bytes: enough to read their last word of 32 bits, not always that of 64.

* `OnesAt` says where the ones of an encoding are.
* `routingGetBucketBounds_spec` gives the bounds of a bucket.
* `countBuckets_spec` gives the counts, or no result if the last word cannot be read.
-/

namespace TreePass
namespace Filter

open Lib

/-! ## The decoders -/

def asUint64 (n : Int) : Nat := (n % 2 ^ 64).toNat

def asUint32 (n : Int) : Nat := (n % 2 ^ 32).toNat

/-- A word of the encoding.  There is no value if it is not inside the encoding. -/
def readWord (width : Nat) (encoding : List Bool) (k : Nat) : Option (BitVec width) :=
  if width * (k + 1) ≤ encoding.length then
    some ((BitVec.ofBoolListLE ((encoding.drop (width * k)).take width)).setWidth width)
  else none

/-- The first loop of `routing_get_bucket_bounds`: words that end before the bucket starts. -/
def skipWords (read : Nat → Option (BitVec 32)) (len bucketOffset : Nat) :
    Nat → Nat → Nat → Nat → Option (Nat × Nat)
  | 0, _, _, _ => none
  | fuel + 1, word, bucket, bucketPop =>
      if 4 * word < len ∧ bucket + bucketPop < bucketOffset then
        (read (word + 1)).bind fun encodingWord =>
          skipWords read len bucketOffset fuel (word + 1) (bucket + bucketPop)
            (popcount encodingWord)
      else some (word, bucket)

/-- `routing_get_bucket_bounds`: the start and the end of a bucket. -/
def routingGetBucketBounds (encoding : List Bool) (len bucketOffset : Nat) : Option (Nat × Nat) :=
  let read := readWord 32 encoding
  let fuel := encoding.length
  if bucketOffset = 0 then
    (read 0).bind fun encodingWord =>
      (seek read fuel 0 encodingWord).map fun found =>
        (0, asUint64 (32 * found.1 + ((ffs found.2 : Int) - 1)))
  else
    (read 0).bind fun encodingWord =>
      (skipWords read len bucketOffset fuel 0 0 (popcount encodingWord)).bind fun skipped =>
        (read skipped.1).bind fun encodingWord =>
          -- The ones of the word that belong to earlier buckets are cleared.
          let encodingWord := clearLowest^[bucketOffset - 1 - skipped.2] encodingWord
          let start :=
            asUint64 (32 * skipped.1 + ((ffs encodingWord : Int) - 1) - bucketOffset + 1)
          (seek read fuel skipped.1 (clearLowest encodingWord)).map fun found =>
            (start, asUint64 (32 * found.1 + ((ffs found.2 : Int) - 1) - bucketOffset))

/-- The variables of `routing_get_bucket_counts` in a bucket: its count, the bit after the last one
that was found, and the word. -/
structure CountScan where
  count : Nat
  start : Nat
  cursor : Nat
  word : BitVec 64

/-- The inner loop of `routing_get_bucket_counts`: words without a further one. -/
def skipZeroWords (read : Nat → Option (BitVec 64)) : Nat → CountScan → Option CountScan
  | 0, _ => none
  | fuel + 1, s =>
      if s.word = 0 then
        (read (s.cursor + 1)).bind fun word =>
          skipZeroWords read fuel
            { count := asUint32 (s.count + (64 - s.start : Int))
              start := 0
              cursor := s.cursor + 1
              word := word }
      else some s

/-- The loop of `routing_get_bucket_counts` over the buckets that are left. -/
def countBuckets (read : Nat → Option (BitVec 64)) (fuel : Nat) :
    Nat → Nat → Nat → BitVec 64 → Option (List Nat)
  | 0, _, _, _ => some []
  | size + 1, start, cursor, word =>
      (skipZeroWords read fuel ⟨0, start, cursor, word⟩).bind fun s =>
        let stop := ffs s.word - 1
        (countBuckets read fuel size (stop + 1) s.cursor (clearLowest s.word)).map fun counts =>
          asUint32 (s.count + (stop - s.start : Int)) :: counts

/-- `routing_get_bucket_counts`. -/
def routingGetBucketCounts (cfg : RoutingConfig) (encoding : List Bool) : Option (List Nat) :=
  (readWord 64 encoding 0).bind fun word =>
    countBuckets (readWord 64 encoding) encoding.length cfg.indexSize 0 0 word

/-! ## Reading words -/

def bitOf (encoding : List Bool) (i : Nat) : Bool := encoding.getD i false

theorem readWord_reads {width : Nat} (hwidth : 0 < width) (encoding : List Bool) :
    Reads (bitOf encoding) (encoding.length / width) (readWord width encoding) := by
  constructor
  · intro k hk
    have hle : width * (k + 1) ≤ encoding.length := by
      rw [Nat.mul_comm]
      exact (Nat.le_div_iff_mul_le hwidth).mp hk
    refine ⟨_, if_pos hle, ?_⟩
    intro i hi
    rw [BitVec.getLsbD_setWidth, decide_eq_true hi, Bool.true_and, BitVec.getLsbD_ofBoolListLE]
    unfold bitOf
    rw [List.getD_eq_getElem?_getD, List.getD_eq_getElem?_getD, List.getElem?_take_of_lt hi,
      List.getElem?_drop]
  · intro k hk
    have hlt : ¬ width * (k + 1) ≤ encoding.length := by
      intro hle
      rw [Nat.mul_comm] at hle
      have := (Nat.le_div_iff_mul_le hwidth).mpr hle
      omega
    exact if_neg hlt

/-! ## Where the ones are -/

/-- The position of the one that ends bucket `b`. -/
def onePos (counts : List Nat) (b : Nat) : Nat := (counts.take (b + 1)).sum + b

/-- Every bucket ends with a one, and there are no others before the last of these. -/
def OnesAt (bit : Nat → Bool) (counts : List Nat) : Prop :=
  ∀ b < counts.length, bit (onePos counts b) = true ∧ rank bit (onePos counts b) = b

theorem takeBucket_eq_some : ∀ {bits : List Bool} {count : Nat} {rest : List Bool},
    takeBucket bits = some (count, rest) → bits = List.replicate count false ++ true :: rest := by
  intro bits
  induction bits with
  | nil =>
      intro count rest h
      cases h
  | cons b bits ih =>
      intro count rest h
      cases b with
      | true =>
          obtain ⟨rfl, rfl⟩ := Prod.mk.inj (Option.some.inj h)
          rfl
      | false =>
          unfold takeBucket at h
          obtain ⟨⟨c, rest'⟩, hrec, heq⟩ := Option.map_eq_some_iff.mp h
          obtain ⟨rfl, rfl⟩ := Prod.mk.inj heq
          rw [ih hrec, List.replicate_succ]
          rfl

theorem onePos_cons (count : Nat) (counts : List Nat) (b : Nat) :
    onePos (count :: counts) (b + 1) = count + 1 + onePos counts b := by
  unfold onePos
  rw [List.take_succ_cons, List.sum_cons]
  omega

theorem onesAt_of_getBucketCounts : ∀ (size : Nat) {bits : List Bool} {counts : List Nat},
    getBucketCounts size bits = some counts →
      counts.length = size ∧ OnesAt (bitOf bits) counts ∧ counts.sum + size ≤ bits.length := by
  intro size
  induction size with
  | zero =>
      intro bits counts h
      obtain rfl := Option.some.inj h
      exact ⟨rfl, fun b hb => absurd hb (Nat.not_lt_zero b), Nat.zero_le _⟩
  | succ size ih =>
      intro bits counts h
      unfold getBucketCounts at h
      cases htake : takeBucket bits with
      | none => simp [htake] at h
      | some found =>
          obtain ⟨count, rest⟩ := found
          rw [htake] at h
          obtain ⟨counts', hrec, rfl⟩ := Option.map_eq_some_iff.mp h
          obtain ⟨hlen, hones, hroom⟩ := ih hrec
          obtain rfl := takeBucket_eq_some htake
          -- The zeros of the first bucket and its one stand before the others.
          have hzero : ∀ i < count,
              bitOf (List.replicate count false ++ true :: rest) i = false := by
            intro i hi
            simp [bitOf, List.getElem?_append_left, hi]
          have hone : bitOf (List.replicate count false ++ true :: rest) count = true := by
            simp [bitOf]
          have hlater : ∀ i, bitOf (List.replicate count false ++ true :: rest) (count + 1 + i) =
              bitOf rest i := by
            intro i
            unfold bitOf
            rw [List.getD_eq_getElem?_getD, List.getD_eq_getElem?_getD,
              List.getElem?_append_right (by rw [List.length_replicate]; omega),
              List.length_replicate, show count + 1 + i - count = i + 1 by omega]
            rfl
          have hfirst : rank (bitOf (List.replicate count false ++ true :: rest)) count = 0 := by
            rw [@rank_congr _ (fun _ => false) _ hzero]
            simp [rank]
          refine ⟨by rw [List.length_cons, hlen], ?_, ?_⟩
          · intro b hb
            cases b with
            | zero =>
                have hpos : onePos (count :: counts') 0 = count := by simp [onePos]
                rw [hpos]
                exact ⟨hone, hfirst⟩
            | succ b =>
                obtain ⟨hbit, hrank⟩ := hones b (Nat.lt_of_succ_lt_succ hb)
                rw [onePos_cons, hlater, rank_add, rank_succ, hfirst, if_pos hone]
                refine ⟨hbit, ?_⟩
                rw [rank_congr fun i _ => hlater i, hrank]
                omega
          · rw [List.sum_cons, List.length_append, List.length_replicate, List.length_cons]
            omega

theorem onePos_mono (counts : List Nat) {a b : Nat} (h : a ≤ b) :
    onePos counts a ≤ onePos counts b := by
  unfold onePos
  have hsum : (counts.take (a + 1)).sum ≤ (counts.take (b + 1)).sum := by
    have hsplit := List.take_append_drop (a + 1) (counts.take (b + 1))
    rw [List.take_take, Nat.min_eq_left (by omega)] at hsplit
    rw [← hsplit, List.sum_append]
    exact Nat.le_add_right _ _
  omega

/-! ## The bounds of a bucket -/

theorem skipWords_spec {bit : Nat → Bool} {readable len b s : Nat}
    {read : Nat → Option (BitVec 32)} (hreads : Reads bit readable read) (hs : bit s = true)
    (hrank : rank bit s = b) (hread : s / 32 < readable) (hlen : ∀ word < s / 32, 4 * word < len)
    (fuel : Nat) : ∀ (k : Nat) (w : BitVec 32), k ≤ s / 32 → readable ≤ fuel + k →
      WordOf bit k w →
      skipWords read len (b + 1) fuel k (rank bit (32 * k)) (popcount w) =
        some (s / 32, rank bit (32 * (s / 32))) := by
  induction fuel with
  | zero =>
      intro k w hk hfuel
      omega
  | succ fuel ih =>
      intro k w hk hfuel hword
      unfold skipWords
      rw [rank_add_popcount hword]
      rcases Nat.lt_or_eq_of_le hk with hlt | rfl
      · have hbefore : rank bit (32 * (k + 1)) ≤ b := by
          rw [← hrank]
          exact rank_mono (by omega)
        obtain ⟨w₁, hnext, hword₁⟩ := hreads.word (k + 1) (by omega)
        rw [if_pos ⟨hlen k hlt, by omega⟩, hnext]
        exact ih (k + 1) w₁ hlt (by omega) hword₁
      · -- The one is in this word.
        have hinside := @rank_mono bit (s + 1) (32 * (s / 32 + 1)) (by omega)
        rw [rank_succ, if_pos hs, hrank] at hinside
        rw [if_neg (by omega)]

section Bounds

variable {encoding : List Bool} {counts : List Nat} {len : Nat}

theorem routingGetBucketBounds_spec (hones : OnesAt (bitOf encoding) counts)
    (hread : onePos counts (counts.length - 1) / 32 < encoding.length / 32)
    (hlen : ∀ word < onePos counts (counts.length - 1) / 32, 4 * word < len)
    (hsmall : encoding.length < 2 ^ 64) {b : Nat} (hb : b < counts.length) :
    routingGetBucketBounds encoding len b =
      some ((counts.take b).sum, (counts.take (b + 1)).sum) := by
  have hreads := readWord_reads (show 0 < 32 by decide) encoding
  -- The word of every one that ends a bucket can be read.
  have hinside : ∀ c < counts.length,
      onePos counts c / 32 ≤ onePos counts (counts.length - 1) / 32 := fun c hc =>
    Nat.div_le_div_right (onePos_mono counts (by omega))
  have hfuel : encoding.length / 32 ≤ encoding.length := Nat.div_le_self _ _
  obtain ⟨w₀, hfirst, hword₀⟩ := hreads.word 0 (by omega)
  unfold routingGetBucketBounds
  dsimp only
  rw [hfirst]
  cases b with
  | zero =>
      obtain ⟨hbit, hrank⟩ := hones 0 hb
      have hinside₀ := hinside 0 hb
      obtain ⟨w, hseek, hw, -, hpos⟩ := (seek_spec (by decide) hreads hbit hrank encoding.length 0
        w₀ (by omega) (by omega) (hword₀.rest (Nat.zero_le _)) (by simp [rank])
        (Nat.zero_le _)).1 (by omega)
      have hffs := ffs_ne_zero hw
      rw [if_pos rfl, Option.bind_some, hseek, Option.map_some]
      have hend : asUint64 (32 * (onePos counts 0 / 32 : Nat) + ((ffs w : Int) - 1)) =
          onePos counts 0 := by
        unfold asUint64
        omega
      rw [hend]
      rfl
  | succ b =>
      obtain ⟨hbit, hrank⟩ := hones b (Nat.lt_of_succ_lt hb)
      obtain ⟨hbit', hrank'⟩ := hones (b + 1) hb
      have hinside₀ := hinside b (Nat.lt_of_succ_lt hb)
      have hinside₁ := hinside (b + 1) hb
      have hskip := skipWords_spec hreads hbit hrank (by omega) (fun word hword =>
        hlen word (by omega)) encoding.length 0 w₀ (Nat.zero_le _) (by omega) hword₀
      have hzero : rank (bitOf encoding) (32 * 0) = 0 := by simp [rank]
      rw [hzero] at hskip
      obtain ⟨w, hword, hwordOf⟩ := hreads.word (onePos counts b / 32) (by omega)
      rw [if_neg (Nat.succ_ne_zero b), Option.bind_some, hskip, Option.bind_some]
      dsimp only
      rw [hword, Option.bind_some, Nat.add_sub_cancel]
      -- What is left of the word starts with the one before the bucket.
      have hlow : rank (bitOf encoding) (32 * (onePos counts b / 32)) ≤ b := by
        have hmono := @rank_mono (bitOf encoding) (32 * (onePos counts b / 32)) (onePos counts b)
          (by omega)
        omega
      have hhigh : b + 1 ≤ rank (bitOf encoding) (32 * (onePos counts b / 32 + 1)) := by
        have hmono := @rank_mono (bitOf encoding) (onePos counts b + 1)
          (32 * (onePos counts b / 32 + 1)) (by omega)
        rw [rank_succ, if_pos hbit, hrank] at hmono
        exact hmono
      have hrest := (hwordOf.rest (Nat.le_refl _)).clears (Nat.le_refl _)
        (b - rank (bitOf encoding) (32 * (onePos counts b / 32))) (by omega)
      rw [Nat.add_sub_cancel' hlow] at hrest
      generalize clearLowest^[b - rank (bitOf encoding) (32 * (onePos counts b / 32))] w = v
        at hrest ⊢
      have hv : v ≠ 0 := by
        intro hv
        have := hrest.zero hlow hv
        omega
      obtain ⟨-, hvbit, hvrank⟩ := hrest.lowest hlow hv
      have hvpos := rank_inj hvbit hbit (hvrank.trans hrank.symm)
      have hvffs := ffs_ne_zero hv
      obtain ⟨w', hseek, hw', -, hpos⟩ := (seek_spec (by decide) hreads hbit' hrank'
        encoding.length _ (clearLowest v) (by omega) (by omega) (hrest.clear hlow hv)
        (by omega) hhigh).1 (by omega)
      have hffs := ffs_ne_zero hw'
      rw [hseek, Option.map_some]
      have hstart : asUint64 (32 * (onePos counts b / 32 : Nat) + ((ffs v : Int) - 1) -
          (b + 1 : Nat) + 1) = (counts.take (b + 1)).sum := by
        unfold onePos at *
        unfold asUint64
        omega
      have hend : asUint64 (32 * (onePos counts (b + 1) / 32 : Nat) + ((ffs w' : Int) - 1) -
          (b + 1 : Nat)) = (counts.take (b + 1 + 1)).sum := by
        unfold onePos at *
        unfold asUint64
        omega
      rw [hstart, hend]

end Bounds

/-! ## The counts of all buckets -/

theorem skipZeroWords_spec {read : Nat → Option (BitVec 64)} (fuel : Nat) : ∀ s : CountScan,
    s.start ≤ 64 →
      (seek read fuel s.cursor s.word = none → skipZeroWords read fuel s = none) ∧
      ∀ k w, seek read fuel s.cursor s.word = some (k, w) →
        s.count + 64 * k < 64 * s.cursor + 2 ^ 32 →
        ∃ s', skipZeroWords read fuel s = some s' ∧ s'.cursor = k ∧ s'.word = w ∧
          s'.count + (64 * s.cursor + s.start) = s.count + (64 * k + s'.start) := by
  induction fuel with
  | zero =>
      intro s _
      refine ⟨fun _ => rfl, ?_⟩
      intro k w h
      cases h
  | succ fuel ih =>
      intro s hstart
      unfold seek skipZeroWords
      by_cases hw : s.word = 0
      · rw [if_pos hw, if_pos hw]
        cases hread : read (s.cursor + 1) with
        | none =>
            refine ⟨fun _ => rfl, ?_⟩
            intro k w h
            cases h
        | some word =>
            rw [Option.bind_some, Option.bind_some]
            obtain ⟨hnone, hsome⟩ := ih
              { count := asUint32 (s.count + (64 - s.start : Int))
                start := 0
                cursor := s.cursor + 1
                word := word } (Nat.zero_le _)
            refine ⟨hnone, ?_⟩
            intro k w hseek hsmall
            have hforward := seek_le fuel hseek
            have hcount : asUint32 (s.count + (64 - s.start : Int)) =
                s.count + (64 - s.start) := by
              unfold asUint32
              omega
            dsimp only at hsome
            rw [hcount] at hsome
            obtain ⟨s', hrun, hcursor, hword, hsum⟩ := hsome k w hseek (by omega)
            refine ⟨s', ?_, hcursor, hword, by omega⟩
            rw [hcount]
            exact hrun
      · rw [if_neg hw, if_neg hw]
        constructor
        · intro h
          cases h
        intro k w h _
        obtain ⟨rfl, rfl⟩ := Prod.mk.inj (Option.some.inj h)
        exact ⟨s, rfl, rfl, rfl, rfl⟩

/-- **The counts.**  The loop finds the counts of the buckets that are left if the word of their
last one can be read, and has no result otherwise. -/
theorem countBuckets_spec {bit : Nat → Bool} {readable : Nat} {read : Nat → Option (BitVec 64)}
    (hreads : Reads bit readable read) (hsmall : 64 * readable < 2 ^ 32) {fuel : Nat}
    (hfuel : readable ≤ fuel) (counts : List Nat) : ∀ (r start cursor : Nat) (word : BitVec 64),
      (∀ b < counts.length, bit (64 * cursor + start + onePos counts b) = true ∧
        rank bit (64 * cursor + start + onePos counts b) = r + b) →
      cursor < readable → Rest bit r cursor word → rank bit (64 * cursor) ≤ r →
      r ≤ rank bit (64 * (cursor + 1)) → start ≤ 64 →
      (counts = [] ∨
          (64 * cursor + start + onePos counts (counts.length - 1)) / 64 < readable →
        countBuckets read fuel counts.length start cursor word = some counts) ∧
      (counts ≠ [] →
          readable ≤ (64 * cursor + start + onePos counts (counts.length - 1)) / 64 →
        countBuckets read fuel counts.length start cursor word = none) := by
  induction counts with
  | nil =>
      intro r start cursor word _ _ _ _ _ _
      exact ⟨fun _ => rfl, fun h => absurd rfl h⟩
  | cons count counts ih =>
      intro r start cursor word hones hcursor hrest hlow hhigh hstart
      obtain ⟨hbit, hrank⟩ := hones 0 (Nat.succ_pos _)
      have hfirst : onePos (count :: counts) 0 = count := by simp [onePos]
      rw [hfirst] at hbit hrank
      rw [Nat.add_zero] at hrank
      have hlast : count ≤ onePos (count :: counts) ((count :: counts).length - 1) := by
        have hmono := onePos_mono (count :: counts)
          (Nat.zero_le ((count :: counts).length - 1))
        rwa [hfirst] at hmono
      obtain ⟨hin, hout⟩ := seek_spec (by decide) hreads hbit hrank fuel cursor word hcursor
        (by omega) hrest hlow hhigh
      obtain ⟨hnone, hsome⟩ :=
        @skipZeroWords_spec read fuel ⟨0, start, cursor, word⟩ hstart
      rw [List.length_cons]
      unfold countBuckets
      by_cases hread : (64 * cursor + start + count) / 64 < readable
      · obtain ⟨w, hseek, hw, hrest', hpos⟩ := hin hread
        obtain ⟨s, hrun, hcur, hword, hsum⟩ := hsome _ _ hseek (by dsimp only; omega)
        dsimp only at hsum
        have hffs := ffs_ne_zero hw
        have hbound := (ffs_spec hffs).1
        rw [hrun, Option.bind_some]
        dsimp only
        rw [hcur, hword]
        have hcount : asUint32 (s.count + ((ffs w - 1 : Nat) - s.start : Int)) = count := by
          unfold asUint32
          omega
        rw [hcount]
        have hlow' : rank bit (64 * ((64 * cursor + start + count) / 64)) ≤ r := by
          rw [← hrank]
          exact rank_mono (by omega)
        have hhigh' : r + 1 ≤ rank bit (64 * ((64 * cursor + start + count) / 64 + 1)) := by
          have hmono := @rank_mono bit (64 * cursor + start + count + 1)
            (64 * ((64 * cursor + start + count) / 64 + 1)) (by omega)
          rw [rank_succ, if_pos hbit, hrank] at hmono
          exact hmono
        have hplace : ∀ q, 64 * ((64 * cursor + start + count) / 64) + (ffs w - 1 + 1) + q =
            64 * cursor + start + (count + 1 + q) := by
          intro q
          omega
        obtain ⟨hdone, hfails⟩ := ih (r + 1) (ffs w - 1 + 1)
          ((64 * cursor + start + count) / 64) (clearLowest w)
          (fun b hb => by
            rw [hplace, ← onePos_cons]
            obtain ⟨hb₁, hb₂⟩ := hones (b + 1) (Nat.succ_lt_succ hb)
            exact ⟨hb₁, by rw [hb₂]; omega⟩)
          hread (hrest'.clear hlow' hw) (by omega) hhigh' (by omega)
        rw [hplace] at hdone hfails
        -- The last one of the others is the last one of all.
        have hsame : counts ≠ [] → count + 1 + onePos counts (counts.length - 1) =
            onePos (count :: counts) (counts.length + 1 - 1) := by
          intro hne
          have hlen := List.length_pos_iff.mpr hne
          rw [← onePos_cons, Nat.sub_add_cancel hlen, Nat.add_sub_cancel]
        constructor
        · intro hlt
          have hrec : countBuckets read fuel counts.length (ffs w - 1 + 1)
              ((64 * cursor + start + count) / 64) (clearLowest w) = some counts := by
            apply hdone
            by_cases hne : counts = []
            · exact Or.inl hne
            · rw [hsame hne]
              rcases hlt with hnil | hlt
              · cases hnil
              · exact Or.inr hlt
          rw [hrec]
          rfl
        · intro _ hge
          have hne : counts ≠ [] := by
            rintro rfl
            rw [List.length_nil, Nat.zero_add, Nat.sub_self, hfirst] at hge
            omega
          rw [hsame hne] at hfails
          rw [hfails hne hge]
          rfl
      · rw [hnone (hout (by omega))]
        refine ⟨?_, fun _ _ => rfl⟩
        rintro (hnil | hlt)
        · cases hnil
        · rw [List.length_cons] at hlast
          omega

end Filter
end TreePass
