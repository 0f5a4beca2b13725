import TreePass.Filter.Add

/-!
# What the merge loop does

The loop for an index takes the new words of that index and the old words before its end, both
sorted, and merges them. `mergeIndex_spec` gives the words, the bits of the header and the count of
fingerprints; the count has one more word in it, the old one at which the loop stops.

`addIndex_spec` says the same of a block, which then holds the merged words.
-/

namespace TreePass
namespace Filter

open Lib

/-! ## One round -/

def mergeWords (old new : List Nat) : List Nat := List.merge old new fun a b => decide (a ≤ b)

theorem mergeWords_perm (old new : List Nat) : (mergeWords old new).Perm (old ++ new) :=
  List.merge_perm_append _

theorem mem_mergeWords {old new : List Nat} {fp : Nat} :
    fp ∈ mergeWords old new ↔ fp ∈ old ∨ fp ∈ new := by
  rw [(mergeWords_perm old new).mem_iff, List.mem_append]

theorem mergeWords_sorted {old new : List Nat} (hold : old.Pairwise (· ≤ ·))
    (hnew : new.Pairwise (· ≤ ·)) : (mergeWords old new).Pairwise (· ≤ ·) := by
  have hdecide : ∀ {l : List Nat}, (l.Pairwise fun a b => decide (a ≤ b) = true) ↔
      l.Pairwise (· ≤ ·) := by
    intro l
    simp
  rw [← hdecide]
  apply List.pairwise_merge
  · intro a b c hab hbc
    simp only [decide_eq_true_eq] at hab hbc ⊢
    exact Nat.le_trans hab hbc
  · intro a b
    simpa using Nat.le_total a b
  · exact hdecide.mpr hold
  · exact hdecide.mpr hnew

@[simp] theorem mergeWords_nil : mergeWords [] [] = [] := by
  simp [mergeWords]

theorem mergeWords_old {fp : Nat} {old new : List Nat} (h : ∀ n ∈ new, fp ≤ n) :
    mergeWords (fp :: old) new = fp :: mergeWords old new := by
  unfold mergeWords
  cases new with
  | nil => simp
  | cons n new =>
      rw [List.cons_merge_cons_pos]
      simpa using h n List.mem_cons_self

theorem mergeWords_new {fp : Nat} {old new : List Nat} (h : ∀ o ∈ old, ¬ o ≤ fp) :
    mergeWords old (fp :: new) = fp :: mergeWords old new := by
  unfold mergeWords
  cases old with
  | nil => simp
  | cons o old =>
      rw [List.cons_merge_cons_neg]
      simpa using h o List.mem_cons_self

theorem nextFp_eq_some {old new old' new' : List Nat} {isOld : Bool} {fp : Nat}
    (h : nextFp old new = some (isOld, fp, old', new')) :
    (isOld = true ∧ old = fp :: old' ∧ new = new' ∧ ∀ n ∈ new.head?, fp ≤ n) ∨
      (isOld = false ∧ new = fp :: new' ∧ old = old' ∧ ∀ o ∈ old.head?, ¬ o ≤ fp) := by
  unfold nextFp at h
  cases old with
  | nil =>
      cases new with
      | nil => cases h
      | cons n new =>
          cases h
          exact Or.inr ⟨rfl, rfl, rfl, by simp⟩
  | cons o old =>
      cases new with
      | nil =>
          cases h
          exact Or.inl ⟨rfl, rfl, rfl, by simp⟩
      | cons n new =>
          by_cases hle : o ≤ n
          · simp only [if_pos hle] at h
            cases h
            exact Or.inl ⟨rfl, rfl, rfl, by simpa using hle⟩
          · simp only [if_neg hle] at h
            cases h
            exact Or.inr ⟨rfl, rfl, rfl, by simpa using hle⟩

theorem nextFp_eq_none {old new : List Nat} (h : nextFp old new = none) : old = [] ∧ new = [] := by
  unfold nextFp at h
  cases old with
  | nil =>
      cases new with
      | nil => exact ⟨rfl, rfl⟩
      | cons n new => cases h
  | cons o old =>
      cases new with
      | nil => cases h
      | cons n new =>
          by_cases hle : o ≤ n
          · simp only [if_pos hle] at h
            cases h
          · simp only [if_neg hle] at h
            cases h

theorem le_of_head {l : List Nat} (hl : l.Pairwise (· ≤ ·)) {fp : Nat}
    (h : ∀ n ∈ l.head?, fp ≤ n) : ∀ n ∈ l, fp ≤ n := by
  intro n hn
  cases l with
  | nil => cases hn
  | cons a l =>
      have ha : fp ≤ a := h a rfl
      rcases List.mem_cons.mp hn with rfl | hmem
      · exact ha
      · exact Nat.le_trans ha ((List.pairwise_cons.mp hl).1 n hmem)

theorem set_ones (front : List Bool) (ones d : Nat) (hd : d < ones) :
    (front ++ List.replicate ones true).set (front.length + d) false =
      front ++ List.replicate d true ++ false :: List.replicate (ones - d - 1) true := by
  have hones : List.replicate ones true =
      List.replicate d true ++ true :: List.replicate (ones - d - 1) true := by
    rw [← List.replicate_succ, ← List.replicate_add]
    congr 1
    omega
  rw [hones, List.set_append_right _ _ (Nat.le_add_right _ _)]
  rw [List.set_append_right _ _ (by simp), List.append_assoc]
  simp

/-! ## The loop -/

/-- The words behind the end of an index, which the loop leaves. -/
def wordsBehind (bits endBucket : Nat) (fps : List Nat) : List Nat :=
  fps.filter fun fp => decide (endBucket ≤ fp >>> bits)

def wordsBefore (bits endBucket : Nat) (fps : List Nat) : List Nat :=
  fps.filter fun fp => decide (fp >>> bits < endBucket)

/-- **How the loop ends**, for the words it merged and the old words it left. -/
structure MergeEnds (valueSize bits : Nat) (s : MergeState) (merged rest : List Nat)
    (s' : MergeState) : Prop where
  dst : s'.dst = s.dst ++ merged.map (· &&& (2 ^ bits - 1))
  numUnique : s'.numUnique = (s.numUnique + changes (s.lastFpAdded >>> valueSize)
    ((merged ++ rest.take 1).map (· >>> valueSize))) % 2 ^ 32
  encoding : ∀ front ones, s.encoding = front ++ List.replicate ones true →
    front.length = s.headerBit → ∃ ones', s'.encoding =
      front ++ bucketBits s.lastBucket (merged.map (· >>> bits)) ++ List.replicate ones' true
  length : s'.encoding.length = s.encoding.length
  fits : s'.dst.length ≤ routingFpsPerPage ∨ s'.dst = s.dst

theorem countFp_numUnique (valueSize : Nat) {s : MergeState} (hs : s.numUnique < 2 ^ 32)
    (fp : Nat) : (countFp valueSize s fp).numUnique =
      (s.numUnique + if s.lastFpAdded >>> valueSize = fp >>> valueSize then 0 else 1) % 2 ^ 32 := by
  unfold countFp
  by_cases h : s.lastFpAdded >>> valueSize = fp >>> valueSize
  · rw [if_neg (by simpa using h), if_pos h, Nat.add_zero, Nat.mod_eq_of_lt hs]
  · rw [if_pos h, if_neg h]

theorem countFp_eq (valueSize : Nat) (s : MergeState) (fp : Nat) :
    ∃ count, countFp valueSize s fp = { s with numUnique := count } := by
  unfold countFp
  split
  · exact ⟨_, rfl⟩
  · exact ⟨s.numUnique, rfl⟩

theorem MergeEnds.done {valueSize bits : Nat} {s : MergeState} (hs : s.numUnique < 2 ^ 32) :
    MergeEnds valueSize bits s [] [] s := by
  constructor
  · simp
  · have hmod := Nat.mod_eq_of_lt hs
    simp [changes]
    omega
  · intro front ones hfront _
    exact ⟨ones, by simpa [bucketBits] using hfront⟩
  · rfl
  · exact Or.inr rfl

theorem MergeEnds.early {valueSize bits fp : Nat} {s : MergeState} {rest : List Nat}
    (hs : s.numUnique < 2 ^ 32) :
    MergeEnds valueSize bits s [] (fp :: rest) (countFp valueSize s fp) := by
  have hcount := countFp_numUnique valueSize hs fp
  obtain ⟨count, heq⟩ := countFp_eq valueSize s fp
  constructor
  · rw [heq]
    simp
  · rw [hcount]
    simp [changes]
  · intro front ones hfront _
    rw [heq]
    exact ⟨ones, by simpa [bucketBits] using hfront⟩
  · rw [heq]
  · rw [heq]
    exact Or.inr rfl

theorem MergeEnds.cons {valueSize bits fp : Nat} {s s₁ s' : MergeState} {merged rest : List Nat}
    (hs : s.numUnique < 2 ^ 32) (hfull : s.encoding.length = routingFpsPerPage)
    (happend : appendFp bits (countFp valueSize s fp) fp = some s₁)
    (h : MergeEnds valueSize bits s₁ merged rest s') :
    MergeEnds valueSize bits s (fp :: merged) rest s' := by
  have hcount := countFp_numUnique valueSize hs fp
  obtain ⟨count, heq⟩ := countFp_eq valueSize s fp
  rw [heq] at happend hcount
  unfold appendFp at happend
  dsimp only at happend hcount
  split at happend
  case isFalse => cases happend
  case isTrue hroom =>
    obtain rfl := Option.some.inj happend
    constructor
    · rw [h.dst]
      simp
    · rw [h.numUnique]
      simp only [List.cons_append, List.map_cons, changes]
      rw [hcount, Nat.mod_add_mod, Nat.add_assoc]
    · intro front ones hfront hbit
      have hlen : front.length + ones = routingFpsPerPage := by
        rw [← hfull, hfront, List.length_append, List.length_replicate]
      have hset := set_ones front ones (fp >>> bits - s.lastBucket)
        (by have := hroom.1; omega)
      obtain ⟨ones', hrest⟩ := h.encoding
        (front ++ List.replicate (fp >>> bits - s.lastBucket) true ++ [false])
        (ones - (fp >>> bits - s.lastBucket) - 1)
        (by
          show s.encoding.set (s.headerBit + (fp >>> bits - s.lastBucket)) false = _
          rw [hfront, ← hbit, hset]
          simp)
        (by simp [hbit]; omega)
      refine ⟨ones', ?_⟩
      rw [hrest]
      simp [bucketBits]
    · rw [h.length]
      exact List.length_set
    · left
      rcases h.fits with hfits | hsame
      · exact hfits
      · rw [hsame]
        have := hroom.2
        simp
        omega

theorem countFp_encoding (valueSize : Nat) (s : MergeState) (fp : Nat) :
    (countFp valueSize s fp).encoding = s.encoding := by
  obtain ⟨count, heq⟩ := countFp_eq valueSize s fp
  rw [heq]

theorem appendFp_length {bits fp : Nat} {s s₁ : MergeState} (h : appendFp bits s fp = some s₁) :
    s₁.encoding.length = s.encoding.length ∧ s₁.numUnique = s.numUnique := by
  unfold appendFp at h
  dsimp only at h
  split at h
  · cases h
    exact ⟨List.length_set, rfl⟩
  · cases h

theorem countFp_lt (valueSize : Nat) {s : MergeState} (hs : s.numUnique < 2 ^ 32) (fp : Nat) :
    (countFp valueSize s fp).numUnique < 2 ^ 32 := by
  rw [countFp_numUnique valueSize hs]
  exact Nat.mod_lt _ (by decide)

theorem behind_of_head {bits endBucket fp : Nat} {old : List Nat}
    (hold : (fp :: old).Pairwise (· ≤ ·)) (hbehind : endBucket ≤ fp >>> bits) :
    wordsBehind bits endBucket (fp :: old) = fp :: old ∧
      wordsBefore bits endBucket (fp :: old) = [] := by
  have hall : ∀ o ∈ fp :: old, endBucket ≤ o >>> bits := by
    intro o ho
    rcases List.mem_cons.mp ho with rfl | hmem
    · exact hbehind
    · exact Nat.le_trans hbehind (shiftRight_mono ((List.pairwise_cons.mp hold).1 o hmem) bits)
  constructor
  · unfold wordsBehind
    rw [List.filter_eq_self]
    intro o ho
    simpa using hall o ho
  · unfold wordsBefore
    rw [List.filter_eq_nil_iff]
    intro o ho
    simpa using hall o ho

/-- **The merge loop** merges the old words before the end of the index with the new words. -/
theorem mergeIndex_spec {valueSize bits endBucket : Nat} (rounds : Nat) :
    ∀ {old new old' : List Nat} {s s' : MergeState}, rounds = old.length + new.length →
      old.Pairwise (· ≤ ·) → new.Pairwise (· ≤ ·) → (∀ n ∈ new, n >>> bits < endBucket) →
      s.numUnique < 2 ^ 32 → s.encoding.length = routingFpsPerPage →
      mergeIndex valueSize bits endBucket rounds old new s = some (old', s') →
      old' = wordsBehind bits endBucket old ∧
        MergeEnds valueSize bits s (mergeWords (wordsBefore bits endBucket old) new)
          (wordsBehind bits endBucket old) s' := by
  induction rounds with
  | zero =>
      intro old new old' s s' hrounds _ _ _ hs _ h
      have hold : old = [] := List.length_eq_zero_iff.mp (by omega)
      have hnew : new = [] := List.length_eq_zero_iff.mp (by omega)
      subst hold hnew
      unfold mergeIndex at h
      cases h
      have hnil : mergeWords (wordsBefore bits endBucket []) [] = [] := mergeWords_nil
      rw [hnil]
      exact ⟨rfl, MergeEnds.done hs⟩
  | succ rounds ih =>
      intro old new old' s s' hrounds hold hnew hend hs hfull h
      unfold mergeIndex at h
      cases hnext : nextFp old new with
      | none =>
          obtain ⟨rfl, rfl⟩ := nextFp_eq_none hnext
          simp at hrounds
      | some next =>
          obtain ⟨isOld, fp, oldRest, newRest⟩ := next
          rw [hnext] at h
          dsimp only at h
          rcases nextFp_eq_some hnext with ⟨rfl, rfl, rfl, hhead⟩ | ⟨rfl, rfl, rfl, hhead⟩
          · -- An old word.
            have hle := le_of_head hnew hhead
            have hrest := List.pairwise_cons.mp hold
            by_cases hbehind : endBucket ≤ fp >>> bits
            · rw [if_pos hbehind, if_pos rfl] at h
              obtain ⟨rfl, rfl⟩ := Prod.mk.inj (Option.some.inj h)
              -- No new word is left, since it would be behind the end as well.
              have hnone : new = [] := by
                rw [List.eq_nil_iff_forall_not_mem]
                intro n hn
                have hn1 := hend n hn
                have hn2 := shiftRight_mono (hle n hn) bits
                omega
              obtain ⟨hall, hnil⟩ := behind_of_head hold hbehind
              rw [hall, hnil, hnone, mergeWords_nil]
              exact ⟨rfl, MergeEnds.early hs⟩
            · rw [if_neg hbehind] at h
              cases happend : appendFp bits (countFp valueSize s fp) fp with
              | none => simp [happend] at h
              | some s₁ =>
                  rw [happend] at h
                  obtain ⟨hlen, hnum⟩ := appendFp_length happend
                  have hlt := countFp_lt valueSize hs fp
                  obtain ⟨hold', hends⟩ := ih (by simp at hrounds; omega) hrest.2 hnew hend
                    (by rw [hnum]; exact hlt) (by rw [hlen, countFp_encoding]; exact hfull) h
                  have hbefore : wordsBefore bits endBucket (fp :: oldRest) =
                      fp :: wordsBefore bits endBucket oldRest :=
                    List.filter_cons_of_pos (by simpa using Nat.lt_of_not_le hbehind)
                  have hafter : wordsBehind bits endBucket (fp :: oldRest) =
                      wordsBehind bits endBucket oldRest :=
                    List.filter_cons_of_neg (by simpa using Nat.lt_of_not_le hbehind)
                  rw [hbefore, hafter, mergeWords_old hle]
                  exact ⟨hold', hends.cons hs hfull happend⟩
          · -- A new word, which is before the end.
            have hgt : ∀ o ∈ wordsBefore bits endBucket old, ¬ o ≤ fp := by
              intro o ho
              have hmem := (List.mem_filter.mp ho).1
              have hle : fp + 1 ≤ o :=
                le_of_head hold (fun o ho => by have := hhead o ho; omega) o hmem
              omega
            have hrest := List.pairwise_cons.mp hnew
            have hbefore := hend fp List.mem_cons_self
            rw [if_neg (by omega)] at h
            cases happend : appendFp bits (countFp valueSize s fp) fp with
            | none => simp [happend] at h
            | some s₁ =>
                rw [happend] at h
                obtain ⟨hlen, hnum⟩ := appendFp_length happend
                have hlt := countFp_lt valueSize hs fp
                obtain ⟨hold', hends⟩ := ih (by simp at hrounds; omega) hold hrest.2
                  (fun n hn => hend n (List.mem_cons_of_mem _ hn))
                  (by rw [hnum]; exact hlt) (by rw [hlen, countFp_encoding]; exact hfull) h
                rw [mergeWords_new hgt]
                exact ⟨hold', hends.cons hs hfull happend⟩

/-! ## The block of an index -/

def wordIndex (cfg : RoutingConfig) (bits fp : Nat) : Nat := fp >>> (bits + cfg.logIndexSize)

theorem wordIndex_mono (cfg : RoutingConfig) (bits : Nat) {a b : Nat} (h : a ≤ b) :
    wordIndex cfg bits a ≤ wordIndex cfg bits b :=
  shiftRight_mono h _

theorem sorted_wordIndex {cfg : RoutingConfig} {bits : Nat} {l : List Nat}
    (hl : l.Pairwise (· ≤ ·)) :
    l.Pairwise fun a b => wordIndex cfg bits a ≤ wordIndex cfg bits b :=
  hl.imp fun h => wordIndex_mono cfg bits h

theorem bucket_lt_iff {cfg : RoutingConfig} {bits fp j : Nat} :
    fp >>> bits < (j + 1) * cfg.indexSize ↔ wordIndex cfg bits fp ≤ j := by
  unfold wordIndex
  rw [Nat.shiftRight_add, Nat.shiftRight_eq_div_pow (fp >>> bits)]
  rw [← Nat.lt_succ_iff, Nat.div_lt_iff_lt_mul (Nat.two_pow_pos _)]
  rfl

theorem le_bucket_iff {cfg : RoutingConfig} {bits fp j : Nat} :
    j * cfg.indexSize ≤ fp >>> bits ↔ j ≤ wordIndex cfg bits fp := by
  unfold wordIndex
  rw [Nat.shiftRight_add, Nat.shiftRight_eq_div_pow (fp >>> bits)]
  rw [Nat.le_div_iff_mul_le (Nat.two_pow_pos _)]
  rfl

def wordsAt (cfg : RoutingConfig) (bits j : Nat) (fps : List Nat) : List Nat :=
  fps.filter fun fp => decide (wordIndex cfg bits fp = j)

def wordsFrom (cfg : RoutingConfig) (bits j : Nat) (fps : List Nat) : List Nat :=
  fps.filter fun fp => decide (j ≤ wordIndex cfg bits fp)

theorem wordsAt_sorted {cfg : RoutingConfig} {bits j : Nat} {fps : List Nat}
    (h : fps.Pairwise (· ≤ ·)) : (wordsAt cfg bits j fps).Pairwise (· ≤ ·) :=
  h.filter _

theorem wordsFrom_sorted {cfg : RoutingConfig} {bits j : Nat} {fps : List Nat}
    (h : fps.Pairwise (· ≤ ·)) : (wordsFrom cfg bits j fps).Pairwise (· ≤ ·) :=
  h.filter _

theorem mem_wordsAt {cfg : RoutingConfig} {bits j fp : Nat} {fps : List Nat} :
    fp ∈ wordsAt cfg bits j fps ↔ fp ∈ fps ∧ wordIndex cfg bits fp = j := by
  simp [wordsAt]

theorem mem_wordsFrom {cfg : RoutingConfig} {bits j fp : Nat} {fps : List Nat} :
    fp ∈ wordsFrom cfg bits j fps ↔ fp ∈ fps ∧ j ≤ wordIndex cfg bits fp := by
  simp [wordsFrom]

theorem wordsBehind_eq {cfg : RoutingConfig} {bits j : Nat} (fps : List Nat) :
    wordsBehind bits ((j + 1) * cfg.indexSize) (wordsFrom cfg bits j fps) =
      wordsFrom cfg bits (j + 1) fps := by
  unfold wordsBehind wordsFrom
  rw [List.filter_filter]
  apply List.filter_congr
  intro fp _
  rw [← Bool.decide_and, decide_eq_decide, le_bucket_iff]
  omega

theorem wordsBefore_eq {cfg : RoutingConfig} {bits j : Nat} (fps : List Nat) :
    wordsBefore bits ((j + 1) * cfg.indexSize) (wordsFrom cfg bits j fps) =
      wordsAt cfg bits j fps := by
  unfold wordsBefore wordsFrom wordsAt
  rw [List.filter_filter]
  apply List.filter_congr
  intro fp _
  rw [← Bool.decide_and, decide_eq_decide, bucket_lt_iff]
  omega

theorem take_wordsFrom {cfg : RoutingConfig} {bits j : Nat} {fps : List Nat}
    (hfps : fps.Pairwise (· ≤ ·)) :
    (wordsFrom cfg bits j fps).take (wordsAt cfg bits j fps).length = wordsAt cfg bits j fps := by
  have hsplit := filter_le_eq (wordIndex cfg bits) (sorted_wordIndex hfps) j
  unfold wordsFrom wordsAt
  rw [hsplit]
  exact List.take_left

theorem drop_wordsFrom {cfg : RoutingConfig} {bits j : Nat} {fps : List Nat}
    (hfps : fps.Pairwise (· ≤ ·)) :
    (wordsFrom cfg bits j fps).drop (wordsAt cfg bits j fps).length =
      wordsFrom cfg bits (j + 1) fps := by
  have hsplit := filter_le_eq (wordIndex cfg bits) (sorted_wordIndex hfps) j
  unfold wordsFrom wordsAt
  rw [hsplit]
  exact List.drop_left

/-- **The words of a new index**: those of both streams that belong to it. -/
def indexWords (cfg : RoutingConfig) (bits : Nat) (old new : List Nat) (j : Nat) : List Nat :=
  mergeWords (wordsAt cfg bits j old) (wordsAt cfg bits j new)

theorem wordIndex_of_mem_indexWords {cfg : RoutingConfig} {bits j fp : Nat} {old new : List Nat}
    (h : fp ∈ indexWords cfg bits old new j) : wordIndex cfg bits fp = j := by
  rcases mem_mergeWords.mp h with hmem | hmem
  · exact (mem_wordsAt.mp hmem).2
  · exact (mem_wordsAt.mp hmem).2

theorem indexWords_sorted {cfg : RoutingConfig} {bits j : Nat} {old new : List Nat}
    (hold : old.Pairwise (· ≤ ·)) (hnew : new.Pairwise (· ≤ ·)) :
    (indexWords cfg bits old new j).Pairwise (· ≤ ·) :=
  mergeWords_sorted (wordsAt_sorted hold) (wordsAt_sorted hnew)

/-- What the code counts for a new index: the changes in its words and in the old word behind. -/
def indexCount (cfg : RoutingConfig) (valueSize bits : Nat) (old new : List Nat) (j : Nat) : Nat :=
  changes (uint32Max >>> valueSize)
    ((indexWords cfg bits old new j ++ (wordsFrom cfg bits (j + 1) old).take 1).map
      (· >>> valueSize))

/-- The ones that the encoding buffer has between two indices. -/
def clearEncoding : List Bool := List.replicate routingFpsPerPage true

theorem getBucketCounts_take {cfg : RoutingConfig} {bits j : Nat} {words : List Nat} (ones : Nat)
    (hsorted : words.Pairwise (· ≤ ·)) (hindex : ∀ fp ∈ words, wordIndex cfg bits fp = j)
    (hones : encodingSize cfg words.length * 8 ≤
      (bucketBits (j * cfg.indexSize) (words.map (· >>> bits))).length + ones) :
    (bucketBits (j * cfg.indexSize) (words.map (· >>> bits)) ++ List.replicate ones true).take
        (8 * encodingSize cfg words.length) =
      bucketBits (j * cfg.indexSize) (words.map (· >>> bits)) ++ List.replicate
        (8 * encodingSize cfg words.length -
          (bucketBits (j * cfg.indexSize) (words.map (· >>> bits))).length) true ∧
    getBucketCounts cfg.indexSize
        (bucketBits (j * cfg.indexSize) (words.map (· >>> bits)) ++ List.replicate
          (8 * encodingSize cfg words.length -
            (bucketBits (j * cfg.indexSize) (words.map (· >>> bits))).length) true) =
      some (bucketCounts (words.map (· >>> bits)) cfg.indexSize (j * cfg.indexSize)) := by
  have hsize := cfg.indexSize_pos
  have hrange : ∀ b ∈ words.map (· >>> bits),
      j * cfg.indexSize ≤ b ∧ b < j * cfg.indexSize + cfg.indexSize := by
    intro b hb
    obtain ⟨fp, hfp, rfl⟩ := List.mem_map.mp hb
    have hj := hindex fp hfp
    constructor
    · exact le_bucket_iff.mpr (Nat.le_of_eq hj.symm)
    · rw [← Nat.succ_mul]
      exact bucket_lt_iff.mpr (Nat.le_of_eq hj)
  have hbuckets : (words.map (· >>> bits)).Pairwise (· ≤ ·) := by
    rw [List.pairwise_map]
    exact hsorted.imp fun h => shiftRight_mono h bits
  have hlength := length_bucketBits (j * cfg.indexSize) (j * cfg.indexSize + cfg.indexSize - 1)
    hbuckets (fun b hb => (hrange b hb).1) (fun b hb => by have := hrange b hb; omega) (by omega)
  rw [List.length_map] at hlength
  have hbits : words.length + cfg.indexSize ≤ 8 * encodingSize cfg words.length := by
    unfold encodingSize
    omega
  constructor
  · rw [List.take_append, List.take_of_length_le (by omega), List.take_replicate]
    congr 2
    omega
  · apply getBucketCounts_bits (words.length + cfg.indexSize)
    · rw [List.length_map]
    · exact hbuckets
    · exact hrange
    · omega

end Filter
end TreePass
