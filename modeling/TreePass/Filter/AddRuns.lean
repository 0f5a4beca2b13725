import TreePass.Filter.Merge
import Mathlib.Algebra.BigOperators.Group.Finset.Basic

/-!
# What an add builds

`Built` is the invariant of the loops over the indices: the blocks so far hold the words of their
indices, the new words from here on are left, and the count is the sum over the indices.

* `Built.addIndex` is the step for one index, `Built.addIndices` the run over one old index.
* `FilterHolds` says that every block of a filter holds words; `addOldIndices_spec` takes it from
  the old filter to the new one.
-/

namespace TreePass
namespace Filter

open Lib

/-! ## One index -/

/-- **The invariant of the loops over the indices**, before index `j`. -/
structure Built (cfg : RoutingConfig) (bits : Nat) (new : List Nat) (words : Nat → List Nat)
    (count : Nat → Nat) (j : Nat) (s : AddState) : Prop where
  newFps : s.newFps = wordsFrom cfg bits j new
  encoding : s.encoding = clearEncoding
  numUnique : s.numUnique = (∑ i ∈ Finset.range j, count i) % 2 ^ 32
  length : s.indices.length = j
  holds : ∀ i block, s.indices[i]? = some block → BlockHolds cfg bits i block (words i)

theorem Built.numUnique_lt {cfg : RoutingConfig} {bits j : Nat} {new : List Nat}
    {words : Nat → List Nat} {count : Nat → Nat} {s : AddState}
    (h : Built cfg bits new words count j s) : s.numUnique < 2 ^ 32 := by
  rw [h.numUnique]
  exact Nat.mod_lt _ (by decide)

def CountsOf (cfg : RoutingConfig) (bits : Nat) (new : List Nat) (counts : List Nat) : Prop :=
  ∀ j count, counts[j]? = some count → count = (wordsAt cfg bits j new).length

theorem Built.addIndex {cfg : RoutingConfig} {valueSize bits j : Nat} {old new counts : List Nat}
    {words : Nat → List Nat} {count : Nat → Nat} {s s' : AddState}
    (hold : old.Pairwise (· ≤ ·)) (hnew : new.Pairwise (· ≤ ·))
    (hcounts : CountsOf cfg bits new counts) (hwords : words j = indexWords cfg bits old new j)
    (hcount : count j = indexCount cfg valueSize bits old new j)
    (h : Built cfg bits new words count j s) (holdFps : s.oldFps = wordsFrom cfg bits j old)
    (hadd : Filter.addIndex cfg valueSize bits counts j s = some s') :
    Built cfg bits new words count (j + 1) s' ∧ s'.oldFps = wordsFrom cfg bits (j + 1) old := by
  unfold Filter.addIndex at hadd
  cases hget : counts[j]? with
  | none => simp [hget] at hadd
  | some n =>
      rw [hget] at hadd
      dsimp only at hadd
      have hn := hcounts j n hget
      subst hn
      rw [h.newFps, take_wordsFrom hnew, drop_wordsFrom hnew, holdFps, h.encoding] at hadd
      cases hmerge : mergeIndex valueSize bits ((j + 1) * cfg.indexSize)
          ((wordsFrom cfg bits j old).length + (wordsAt cfg bits j new).length)
          (wordsFrom cfg bits j old) (wordsAt cfg bits j new)
          { numUnique := s.numUnique
            lastBucket := j * cfg.indexSize
            lastFpAdded := uint32Max
            headerBit := 0
            encoding := clearEncoding
            dst := [] } with
      | none => simp [hmerge] at hadd
      | some result =>
          obtain ⟨rest, m⟩ := result
          rw [hmerge] at hadd
          dsimp only at hadd
          obtain ⟨hrest, hends⟩ := mergeIndex_spec _ rfl (wordsFrom_sorted hold)
            (wordsAt_sorted hnew)
            (fun n hn => bucket_lt_iff.mpr (Nat.le_of_eq (mem_wordsAt.mp hn).2))
            h.numUnique_lt (List.length_replicate) hmerge
          rw [wordsBehind_eq] at hrest hends
          rw [wordsBefore_eq] at hends
          change MergeEnds valueSize bits _ (indexWords cfg bits old new j) _ m at hends
          rw [← hwords] at hends
          have hdst : m.dst = (words j).map (· &&& (2 ^ bits - 1)) := by
            rw [hends.dst]
            rfl
          have hlen : m.dst.length = (words j).length := by
            rw [hdst, List.length_map]
          split at hadd
          case isFalse => cases hadd
          case isTrue hroom =>
            obtain rfl := Option.some.inj hadd
            have hsorted : (words j).Pairwise (· ≤ ·) := by
              rw [hwords]
              exact indexWords_sorted hold hnew
            have hindex : ∀ fp ∈ words j, wordIndex cfg bits fp = j := by
              rw [hwords]
              intro fp hfp
              exact wordIndex_of_mem_indexWords hfp
            obtain ⟨ones, hbits⟩ := hends.encoding [] routingFpsPerPage rfl rfl
            rw [List.nil_append] at hbits
            dsimp only at hbits
            have hfull := hends.length
            rw [hbits, List.length_append, List.length_replicate] at hfull
            change _ = (List.replicate routingFpsPerPage true).length at hfull
            rw [List.length_replicate] at hfull
            have hsize := hroom.2.1
            rw [hlen] at hsize
            obtain ⟨htake, hscan⟩ := getBucketCounts_take ones hsorted hindex
              (by omega)
            refine ⟨⟨rfl, ?_, ?_, ?_, ?_⟩, hrest⟩
            · -- The bits that were cleared are set again.
              show List.replicate (8 * encodingSize cfg m.dst.length) true ++
                m.encoding.drop (8 * encodingSize cfg m.dst.length) = clearEncoding
              have hdrop : m.encoding.drop (8 * encodingSize cfg m.dst.length) =
                  List.replicate (routingFpsPerPage - 8 * encodingSize cfg m.dst.length) true := by
                have hle : (bucketBits (j * cfg.indexSize) ((words j).map (· >>> bits))).length ≤
                    8 * encodingSize cfg (words j).length := by
                  have hcut := congrArg List.length htake
                  simp only [List.length_take, List.length_append, List.length_replicate] at hcut
                  omega
                rw [hbits, hlen, List.drop_append, List.drop_of_length_le hle, List.nil_append,
                  List.drop_replicate]
                congr 1
                omega
              rw [hdrop, ← List.replicate_add]
              unfold clearEncoding
              congr 1
              omega
            · show m.numUnique = _
              rw [hends.numUnique, Finset.sum_range_succ, hcount, h.numUnique, hwords]
              unfold indexCount
              rw [Nat.mod_add_mod]
            · show (s.indices ++ [_]).length = j + 1
              rw [List.length_append, h.length]
              rfl
            · intro i block hblock
              change (s.indices ++ [_])[i]? = some block at hblock
              rcases Nat.lt_or_ge i s.indices.length with hi | hi
              · rw [List.getElem?_append_left hi] at hblock
                exact h.holds i block hblock
              · rw [List.getElem?_append_right hi, h.length] at hblock
                obtain hij : i = j := by
                  have := (List.getElem?_eq_some_iff.mp hblock).1
                  simp at this
                  have := h.length
                  omega
                subst hij
                simp only [Nat.sub_self, List.getElem?_cons_zero, Option.some.injEq] at hblock
                subst hblock
                constructor
                · exact hsorted
                · intro fp hfp
                  have hi := hindex fp hfp
                  constructor
                  · exact le_bucket_iff.mpr (Nat.le_of_eq hi.symm)
                  · rw [← Nat.succ_mul]
                    exact bucket_lt_iff.mpr (Nat.le_of_eq hi)
                · exact hlen
                · rcases hends.fits with hfits | hnil
                  · omega
                  · rw [hnil] at hlen
                    have : (words i).length = 0 := hlen.symm
                    omega
                · show getBucketCounts cfg.indexSize
                    (m.encoding.take (8 * encodingSize cfg m.dst.length)) = _
                  rw [hbits, hlen, htake]
                  exact hscan
                · exact hdst

/-! ## The indices of an old index -/

theorem Built.addIndices {cfg : RoutingConfig} {valueSize bits : Nat} {old new counts : List Nat}
    {words : Nat → List Nat} {count : Nat → Nat} (hold : old.Pairwise (· ≤ ·))
    (hnew : new.Pairwise (· ≤ ·)) (hcounts : CountsOf cfg bits new counts) (left : Nat) :
    ∀ {j : Nat} {s s' : AddState},
      (∀ i, j ≤ i → i < j + left → words i = indexWords cfg bits old new i ∧
        count i = indexCount cfg valueSize bits old new i) →
      Built cfg bits new words count j s → s.oldFps = wordsFrom cfg bits j old →
      Filter.addIndices cfg valueSize bits counts left j s = some s' →
      Built cfg bits new words count (j + left) s' := by
  induction left with
  | zero =>
      intro j s s' _ h _ hadd
      unfold Filter.addIndices at hadd
      cases hadd
      exact h
  | succ left ih =>
      intro j s s' hwords h holdFps hadd
      unfold Filter.addIndices at hadd
      cases hstep : Filter.addIndex cfg valueSize bits counts j s with
      | none => simp [hstep] at hadd
      | some s₁ =>
          rw [hstep] at hadd
          dsimp only at hadd
          obtain ⟨hj, hcount⟩ := hwords j (Nat.le_refl _) (by omega)
          obtain ⟨hnext, hrest⟩ := h.addIndex hold hnew hcounts hj hcount holdFps hstep
          have hend := ih (fun i hi hlt => hwords i (by omega) (by omega)) hnext hrest hadd
          rwa [show j + (left + 1) = j + 1 + left by omega]

/-! ## The old words -/

/-- **A filter holds words**: its widths fit a word, and every block holds the words of its
index. -/
structure FilterHolds (cfg : RoutingConfig) (f : RoutingFilter) : Prop where
  fits : cfg.fingerprintSize + f.valueSize ≤ 32
  width : cfg.logNumBuckets f.numFingerprints ≤ cfg.fingerprintSize
  holds : ∀ j block, f.indices[j]? = some block →
    ∃ fps, BlockHolds cfg (cfg.remainderAndValueSize f.numFingerprints f.valueSize) j block fps

/-- The words of an index of the old filter, with values of the new width. -/
def oldWordsAt (cfg : RoutingConfig) (old : RoutingFilter) (valueSize oldIndexNo : Nat) :
    List Nat :=
  if old.present then
    match old.indices[oldIndexNo]? with
    | some block =>
        (blockWords cfg (cfg.remainderAndValueSize old.numFingerprints old.valueSize) oldIndexNo
          block).map (widenValue old.valueSize valueSize)
    | none => []
  else []

theorem widenValue_eq {oldValueSize valueSize : Nat} (h : oldValueSize ≤ valueSize) (fp : Nat) :
    widenValue oldValueSize valueSize fp =
      (fp >>> oldValueSize) * 2 ^ valueSize + fp % 2 ^ oldValueSize := by
  unfold widenValue
  dsimp only
  rw [Nat.and_two_pow_sub_one_eq_mod]
  have hsub : fp - fp % 2 ^ oldValueSize = (fp >>> oldValueSize) <<< oldValueSize := by
    rw [Nat.shiftRight_eq_div_pow, Nat.shiftLeft_eq]
    have := Nat.div_add_mod' fp (2 ^ oldValueSize)
    omega
  rw [hsub, ← Nat.shiftLeft_add, Nat.add_sub_cancel' h]
  have hlt : fp % 2 ^ oldValueSize < 2 ^ valueSize :=
    Nat.lt_of_lt_of_le (Nat.mod_lt _ (Nat.two_pow_pos _)) (Nat.pow_le_pow_right (by decide) h)
  rw [← Nat.shiftLeft_add_eq_or_of_lt hlt, Nat.shiftLeft_eq]

theorem widenValue_self (valueSize fp : Nat) : widenValue valueSize valueSize fp = fp := by
  rw [widenValue_eq (Nat.le_refl _), Nat.shiftRight_eq_div_pow]
  exact Nat.div_add_mod' _ _

theorem widenValue_shiftRight {oldValueSize valueSize : Nat} (h : oldValueSize ≤ valueSize)
    (fp : Nat) : widenValue oldValueSize valueSize fp >>> valueSize = fp >>> oldValueSize := by
  rw [widenValue_eq h, Nat.shiftRight_eq_div_pow _ valueSize]
  have hlt : fp % 2 ^ oldValueSize < 2 ^ valueSize :=
    Nat.lt_of_lt_of_le (Nat.mod_lt _ (Nat.two_pow_pos _)) (Nat.pow_le_pow_right (by decide) h)
  rw [Nat.add_comm, Nat.add_mul_div_right _ _ (Nat.two_pow_pos _), Nat.div_eq_of_lt hlt,
    Nat.zero_add]

theorem widenValue_mono {oldValueSize valueSize a b : Nat} (h : oldValueSize ≤ valueSize)
    (hab : a ≤ b) : widenValue oldValueSize valueSize a ≤ widenValue oldValueSize valueSize b := by
  rw [widenValue_eq h, widenValue_eq h]
  have hlt : a % 2 ^ oldValueSize < 2 ^ valueSize :=
    Nat.lt_of_lt_of_le (Nat.mod_lt _ (Nat.two_pow_pos _)) (Nat.pow_le_pow_right (by decide) h)
  rcases Nat.eq_or_lt_of_le (shiftRight_mono hab oldValueSize) with heq | hgt
  · -- The same fingerprint: the values decide.
    rw [heq]
    apply Nat.add_le_add_left
    rw [Nat.shiftRight_eq_div_pow, Nat.shiftRight_eq_div_pow] at heq
    have ha := Nat.div_add_mod a (2 ^ oldValueSize)
    have hb := Nat.div_add_mod b (2 ^ oldValueSize)
    rw [heq] at ha
    omega
  · calc (a >>> oldValueSize) * 2 ^ valueSize + a % 2 ^ oldValueSize
        ≤ (a >>> oldValueSize + 1) * 2 ^ valueSize := by
          rw [Nat.succ_mul]
          omega
      _ ≤ (b >>> oldValueSize) * 2 ^ valueSize := Nat.mul_le_mul_right _ hgt
      _ ≤ _ := Nat.le_add_right _ _

/-- **Reading an old index** gives its words at the new width, whatever is in the buffer. -/
theorem readOldIndex_eq {cfg : RoutingConfig} {old : RoutingFilter} {valueSize o count : Nat}
    {buffer buffer' : List Nat} (hold : old.present = true → FilterHolds cfg old)
    (hbits : old.present = true →
      cfg.remainderAndValueSize old.numFingerprints old.valueSize ≠ 0)
    (h : readOldIndex cfg old valueSize o buffer = some (buffer', count)) :
    buffer'.take count = oldWordsAt cfg old valueSize o := by
  unfold readOldIndex at h
  unfold oldWordsAt
  by_cases hpresent : old.present = true
  · rw [if_pos hpresent] at h ⊢
    cases hblock : old.indices[o]? with
    | none => simp [hblock] at h
    | some block =>
        obtain ⟨fps, hholds⟩ := (hold hpresent).holds o block hblock
        rw [hblock] at h
        dsimp only at h ⊢
        rw [hholds.encoding] at h
        dsimp only at h
        rw [hholds.blockWords_eq]
        have hcount := hholds.count
        have hfits := hholds.fits
        by_cases hzero : block.numRemainders = 0
        · rw [if_pos hzero] at h
          obtain ⟨rfl, rfl⟩ := Prod.mk.inj (Option.some.inj h)
          have hnil : fps = [] := List.length_eq_zero_iff.mp (by omega)
          simp [hnil]
        · rw [if_neg hzero, if_pos (by omega), hholds.read (hbits hpresent), hcount] at h
          rw [List.take_left, List.drop_left] at h
          by_cases hsize : old.valueSize = valueSize
          · rw [if_neg (by simpa using hsize)] at h
            obtain ⟨rfl, rfl⟩ := Prod.mk.inj (Option.some.inj h)
            have hid : widenValue old.valueSize old.valueSize = id :=
              funext (widenValue_self old.valueSize)
            rw [List.take_left, ← hsize, hid, List.map_id]
          · rw [if_pos hsize] at h
            obtain ⟨rfl, rfl⟩ := Prod.mk.inj (Option.some.inj h)
            exact List.take_left' (by simp)
  · rw [if_neg hpresent] at h ⊢
    obtain ⟨rfl, rfl⟩ := Prod.mk.inj (Option.some.inj h)
    rfl

theorem mem_oldWordsAt {cfg : RoutingConfig} {old : RoutingFilter} {valueSize o : Nat}
    (hold : old.present = true → FilterHolds cfg old) {fp : Nat}
    (h : fp ∈ oldWordsAt cfg old valueSize o) :
    old.present = true ∧ ∃ w, fp = widenValue old.valueSize valueSize w ∧
      wordIndex cfg (cfg.remainderAndValueSize old.numFingerprints old.valueSize) w = o := by
  unfold oldWordsAt at h
  by_cases hpresent : old.present = true
  · rw [if_pos hpresent] at h
    cases hblock : old.indices[o]? with
    | none => simp [hblock] at h
    | some block =>
        obtain ⟨fps, hholds⟩ := (hold hpresent).holds o block hblock
        rw [hblock] at h
        dsimp only at h
        rw [hholds.blockWords_eq] at h
        obtain ⟨w, hw, rfl⟩ := List.mem_map.mp h
        refine ⟨hpresent, w, rfl, ?_⟩
        have hbucket := hholds.bucket w hw
        have hle := le_bucket_iff.mp hbucket.1
        rw [← Nat.succ_mul] at hbucket
        have hge := bucket_lt_iff.mp hbucket.2
        exact Nat.le_antisymm hge hle
  · rw [if_neg hpresent] at h
    cases h

theorem oldWordsAt_sorted {cfg : RoutingConfig} {old : RoutingFilter} {valueSize : Nat}
    (hold : old.present = true → FilterHolds cfg old)
    (hvalue : old.present = true → old.valueSize ≤ valueSize) (o : Nat) :
    (oldWordsAt cfg old valueSize o).Pairwise (· ≤ ·) := by
  unfold oldWordsAt
  by_cases hpresent : old.present = true
  · rw [if_pos hpresent]
    cases hblock : old.indices[o]? with
    | none => exact List.Pairwise.nil
    | some block =>
        obtain ⟨fps, hholds⟩ := (hold hpresent).holds o block hblock
        dsimp only
        rw [hholds.blockWords_eq, List.pairwise_map]
        exact hholds.sorted.imp fun hab => widenValue_mono (hvalue hpresent) hab
  · rw [if_neg hpresent]
    exact List.Pairwise.nil

theorem numIndices_div {cfg : RoutingConfig} {n m : Nat}
    (h : cfg.logNumBuckets m ≤ cfg.logNumBuckets n) :
    cfg.numIndices n / cfg.numIndices m =
      2 ^ (cfg.logNumBuckets n - cfg.logNumBuckets m) := by
  have hm := cfg.logIndexSize_le m
  unfold RoutingConfig.numIndices
  rw [Nat.pow_div (by omega) (by decide)]
  congr 1
  omega

theorem oldIndex_of_mem {cfg : RoutingConfig} {old : RoutingFilter} {n valueSize o : Nat}
    (hold : old.present = true → FilterHolds cfg old)
    (hvalue : old.present = true → old.valueSize ≤ valueSize)
    (hwidth : cfg.logNumBuckets n ≤ cfg.fingerprintSize)
    (hratio : 0 < cfg.numIndices n / oldNumIndices cfg old) {fp : Nat}
    (h : fp ∈ oldWordsAt cfg old valueSize o) :
    wordIndex cfg (cfg.remainderAndValueSize n valueSize) fp /
      (cfg.numIndices n / oldNumIndices cfg old) = o := by
  obtain ⟨hpresent, w, rfl, hw⟩ := mem_oldWordsAt hold h
  have hnum : oldNumIndices cfg old = cfg.numIndices old.numFingerprints := if_pos hpresent
  have hmono : cfg.logNumBuckets old.numFingerprints ≤ cfg.logNumBuckets n := by
    rw [hnum] at hratio
    have hle := (Nat.div_pos_iff.mp hratio).2
    unfold RoutingConfig.numIndices at hle
    have hexp := (Nat.pow_le_pow_iff_right (by decide)).mp hle
    have := cfg.logIndexSize_le old.numFingerprints
    have := cfg.logIndexSize_le n
    omega
  rw [hnum, numIndices_div hmono]
  unfold wordIndex RoutingConfig.remainderAndValueSize RoutingConfig.remainderSize at hw ⊢
  rw [Nat.add_assoc, Nat.shiftRight_add] at hw
  rw [Nat.add_assoc, Nat.shiftRight_add, widenValue_shiftRight (hvalue hpresent)]
  rw [← Nat.shiftRight_eq_div_pow, ← Nat.shiftRight_add, ← hw]
  have := cfg.logIndexSize_le old.numFingerprints
  congr 1
  omega

/-! ## All indices -/

def newWordsAt (cfg : RoutingConfig) (old : RoutingFilter) (n valueSize : Nat) (new : List Nat)
    (j : Nat) : List Nat :=
  indexWords cfg (cfg.remainderAndValueSize n valueSize)
    (oldWordsAt cfg old valueSize (j / (cfg.numIndices n / oldNumIndices cfg old))) new j

def newCountAt (cfg : RoutingConfig) (old : RoutingFilter) (n valueSize : Nat) (new : List Nat)
    (j : Nat) : Nat :=
  indexCount cfg valueSize (cfg.remainderAndValueSize n valueSize)
    (oldWordsAt cfg old valueSize (j / (cfg.numIndices n / oldNumIndices cfg old))) new j

theorem addOldIndices_spec {cfg : RoutingConfig} {old : RoutingFilter} {n valueSize : Nat}
    {new counts : List Nat} (hold : old.present = true → FilterHolds cfg old)
    (hbits : old.present = true →
      cfg.remainderAndValueSize old.numFingerprints old.valueSize ≠ 0)
    (hvalue : old.present = true → old.valueSize ≤ valueSize)
    (hwidth : cfg.logNumBuckets n ≤ cfg.fingerprintSize) (hnew : new.Pairwise (· ≤ ·))
    (hcounts : CountsOf cfg (cfg.remainderAndValueSize n valueSize) new counts) (left : Nat) :
    ∀ {o : Nat} {buffer : List Nat} {s s' : AddState},
      Built cfg (cfg.remainderAndValueSize n valueSize) new (newWordsAt cfg old n valueSize new)
        (newCountAt cfg old n valueSize new)
        (o * (cfg.numIndices n / oldNumIndices cfg old)) s →
      addOldIndices cfg old valueSize (cfg.remainderAndValueSize n valueSize) counts
        (cfg.numIndices n / oldNumIndices cfg old) left o buffer s = some s' →
      Built cfg (cfg.remainderAndValueSize n valueSize) new (newWordsAt cfg old n valueSize new)
        (newCountAt cfg old n valueSize new)
        ((o + left) * (cfg.numIndices n / oldNumIndices cfg old)) s' := by
  induction left with
  | zero =>
      intro o buffer s s' h hadd
      unfold addOldIndices at hadd
      cases hadd
      exact h
  | succ left ih =>
      intro o buffer s s' h hadd
      unfold addOldIndices at hadd
      cases hread : readOldIndex cfg old valueSize o buffer with
      | none => simp [hread] at hadd
      | some read =>
          obtain ⟨buffer', count⟩ := read
          rw [hread] at hadd
          dsimp only at hadd
          rw [readOldIndex_eq hold hbits hread] at hadd
          generalize hratio : cfg.numIndices n / oldNumIndices cfg old = ratio at h hadd ih ⊢
          cases hrun : addIndices cfg valueSize (cfg.remainderAndValueSize n valueSize) counts
              ratio (o * ratio) { s with oldFps := oldWordsAt cfg old valueSize o } with
          | none => simp [hrun] at hadd
          | some s₁ =>
              rw [hrun] at hadd
              dsimp only at hadd
              -- All words of the old index are in the indices from `o * ratio` on.
              have hfrom : oldWordsAt cfg old valueSize o =
                  wordsFrom cfg (cfg.remainderAndValueSize n valueSize) (o * ratio)
                    (oldWordsAt cfg old valueSize o) := by
                symm
                unfold wordsFrom
                rw [List.filter_eq_self]
                intro fp hfp
                rw [decide_eq_true_eq]
                rcases Nat.eq_zero_or_pos ratio with h0 | hpos
                · simp [h0]
                · have hdiv := oldIndex_of_mem hold hvalue hwidth (by rw [hratio]; exact hpos) hfp
                  rw [hratio] at hdiv
                  rw [← hdiv]
                  exact Nat.div_mul_le_self _ _
              have hsame : ∀ i, o * ratio ≤ i → i < o * ratio + ratio → i / ratio = o := by
                intro i hle hlt
                rw [Nat.div_eq_iff (by omega)]
                constructor
                · exact hle
                · omega
              have hstep := Built.addIndices (j := o * ratio)
                (s := { s with oldFps := oldWordsAt cfg old valueSize o })
                (oldWordsAt_sorted hold hvalue o) hnew hcounts ratio
                (fun i hle hlt => by
                  unfold newWordsAt newCountAt
                  rw [hratio, hsame i hle hlt]
                  exact ⟨rfl, rfl⟩)
                ⟨h.newFps, h.encoding, h.numUnique, h.length, h.holds⟩ hfrom hrun
              rw [← Nat.succ_mul] at hstep
              have hend := ih hstep hadd
              rwa [show o + (left + 1) = o + 1 + left by omega]

end Filter
end TreePass
