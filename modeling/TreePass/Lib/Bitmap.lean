import Mathlib.Data.List.Basic
import Mathlib.Tactic.Common

/-!
# Bitmaps of words

A set of numbers as a list of words of one width: number `i` has bit `i % width` of word
`i / width`.

* `testAt` reads a bit, `testAt_set` is the bit after a word was written.
* `getLsbD_clear` and `getLsbD_insert` are the words without and with one bit.
* `ffs` is the position of the first bit that is set, counted from 1, and `clearLowest` the word
  without this bit.
* `clz` counts the zero bits above the highest bit that is set.
* `bitsBelow` lists the bits that are set below a position, the highest first.
-/

namespace TreePass
namespace Lib

variable {width : Nat}

def testAt (words : List (BitVec width)) (i : Nat) : Bool :=
  (words[i / width]?).elim false fun w => w.getLsbD (i % width)

theorem testAt_set {words : List (BitVec width)} {k : Nat} (hk : k < words.length)
    (w : BitVec width) (i : Nat) :
    testAt (words.set k w) i = if i / width = k then w.getLsbD (i % width) else testAt words i := by
  unfold testAt
  by_cases hi : i / width = k
  · rw [if_pos hi, hi, List.getElem?_set_self hk]
    rfl
  · rw [if_neg hi, List.getElem?_set_ne (Ne.symm hi)]

theorem getLsbD_clear (w : BitVec width) {n j : Nat} (hj : j < width) :
    (w &&& ~~~(BitVec.twoPow width n)).getLsbD j = (w.getLsbD j && decide (j ≠ n)) := by
  rw [BitVec.getLsbD_and, BitVec.getLsbD_not, BitVec.getLsbD_twoPow,
    decide_eq_true hj, Bool.true_and]
  by_cases hn : j = n
  · subst hn
    simp [hj]
  · have hne : n ≠ j := Ne.symm hn
    simp [hn, hne]

theorem getLsbD_insert (w : BitVec width) {n j : Nat} (hj : j < width) :
    (w ||| BitVec.twoPow width n).getLsbD j = (w.getLsbD j || decide (j = n)) := by
  rw [BitVec.getLsbD_or, BitVec.getLsbD_twoPow]
  by_cases hn : j = n
  · subst hn
    simp [hj]
  · have hne : n ≠ j := Ne.symm hn
    simp [hn, hne]

/-- The position of the first bit that is set, counted from 1; 0 if there is none. -/
def ffs (w : BitVec width) : Nat :=
  ((List.range width).find? fun i => w.getLsbD i).elim 0 (· + 1)

theorem ffs_eq_zero {w : BitVec width} (h : ffs w = 0) {i : Nat} (hi : i < width) :
    w.getLsbD i = false := by
  unfold ffs at h
  cases hfind : (List.range width).find? fun i => w.getLsbD i with
  | none =>
      have hnone := List.find?_eq_none.mp hfind i (List.mem_range.mpr hi)
      exact Bool.eq_false_iff.mpr hnone
  | some j =>
      rw [hfind] at h
      cases h

theorem ffs_spec {w : BitVec width} (h : ffs w ≠ 0) :
    ffs w - 1 < width ∧ w.getLsbD (ffs w - 1) = true := by
  unfold ffs at h ⊢
  cases hfind : (List.range width).find? fun i => w.getLsbD i with
  | none =>
      rw [hfind] at h
      exact absurd rfl h
  | some j =>
      have hmem := List.mem_of_find?_eq_some hfind
      have hbit := List.find?_some hfind
      exact ⟨List.mem_range.mp hmem, hbit⟩

theorem ffs_lowest {w : BitVec width} {i : Nat} (hi : i < ffs w - 1) : w.getLsbD i = false := by
  unfold ffs at hi
  cases hfind : (List.range width).find? fun i => w.getLsbD i with
  | none =>
      rw [hfind] at hi
      exact absurd hi (Nat.not_lt_zero i)
  | some j =>
      rw [hfind] at hi
      have hbefore := (List.find?_range_eq_some.mp hfind).2.2 i hi
      simpa using hbefore

theorem ffs_ne_zero {w : BitVec width} (hw : w ≠ 0) : ffs w ≠ 0 := by
  intro hffs
  apply hw
  apply BitVec.eq_of_getLsbD_eq
  intro i hi
  rw [ffs_eq_zero hffs hi]
  exact BitVec.getLsbD_zero.symm

/-- `w & (w - 1)`: a word without its lowest bit. -/
def clearLowest (w : BitVec width) : BitVec width := w &&& (w - 1)

theorem getLsbD_clearLowest {w : BitVec width} (hw : w ≠ 0) (i : Nat) :
    (clearLowest w).getLsbD i = (w.getLsbD i && decide (i ≠ ffs w - 1)) := by
  obtain ⟨hlt, hbit⟩ := ffs_spec (ffs_ne_zero hw)
  have hlow : ∀ j, j < ffs w - 1 → w.getLsbD j = false := fun j hj => ffs_lowest hj
  generalize ffs w - 1 = t at hlt hbit hlow
  -- The word is `2 ^ (t + 1) * k + 2 ^ t`, so one less ends in `t` ones.
  obtain ⟨k, hk⟩ : ∃ k, w.toNat = 2 ^ (t + 1) * k + 2 ^ t := by
    refine ⟨w.toNat / 2 ^ (t + 1), ?_⟩
    have hmod : w.toNat % 2 ^ (t + 1) = 2 ^ t := by
      apply Nat.eq_of_testBit_eq
      intro j
      rw [Nat.testBit_mod_two_pow, Nat.testBit_two_pow]
      have hj : w.toNat.testBit j = w.getLsbD j := rfl
      rw [hj]
      rcases Nat.lt_trichotomy j t with hjt | rfl | hjt
      · rw [hlow j hjt]
        simp [Nat.ne_of_gt hjt]
      · simp [hbit]
      · simp [show ¬ j < t + 1 by omega, Nat.ne_of_lt hjt]
    have hsplit := Nat.div_add_mod w.toNat (2 ^ (t + 1))
    omega
  have hpos : 0 < 2 ^ t := Nat.two_pow_pos t
  have hone : (1 : BitVec width).toNat = 1 := by
    change (BitVec.ofNat width 1).toNat = 1
    rw [BitVec.toNat_ofNat]
    exact Nat.mod_eq_of_lt (Nat.one_lt_two_pow (by omega))
  have hpred : (w - 1).toNat = 2 ^ (t + 1) * k + (2 ^ t - 1) := by
    have hle : (1 : BitVec width) ≤ w := by
      rw [BitVec.le_def, hone]
      omega
    rw [BitVec.toNat_sub_of_le hle, hone]
    omega
  have htwo : 2 ^ t < 2 ^ (t + 1) := Nat.pow_lt_pow_right (by decide) (Nat.lt_succ_self t)
  have hbits : ∀ x : BitVec width, x.getLsbD i = x.toNat.testBit i := fun _ => rfl
  unfold clearLowest
  rw [BitVec.getLsbD_and, hbits w, hbits (w - 1), hpred, hk, Nat.testBit_two_pow_mul_add _ htwo,
    Nat.testBit_two_pow_mul_add _ (by omega), Nat.testBit_two_pow, Nat.testBit_two_pow_sub_one]
  by_cases hit : i < t + 1
  · rw [if_pos hit, if_pos hit]
    rcases Nat.lt_or_eq_of_le (Nat.le_of_lt_succ hit) with hlt' | rfl
    · simp [Nat.ne_of_gt hlt']
    · simp
  · rw [if_neg hit, if_neg hit, Bool.and_self, decide_eq_true (by omega), Bool.and_true]

/-- The number of zero bits above the highest bit that is set. -/
def clz (w : BitVec width) : Nat :=
  ((List.range width).find? fun i => w.getLsbD (width - 1 - i)).getD width

theorem clz_spec {w : BitVec width} (hw : w ≠ 0) :
    clz w < width ∧ w.getLsbD (width - 1 - clz w) = true ∧
      ∀ i, width - 1 - clz w < i → w.getLsbD i = false := by
  unfold clz
  cases hfind : (List.range width).find? fun i => w.getLsbD (width - 1 - i) with
  | none =>
      refine absurd (BitVec.eq_of_getLsbD_eq fun i hi => ?_) hw
      have hnone := List.find?_eq_none.mp hfind (width - 1 - i) (List.mem_range.mpr (by omega))
      have hi' : width - 1 - (width - 1 - i) = i := by omega
      rw [hi', Bool.not_eq_true] at hnone
      rw [hnone]
      exact BitVec.getLsbD_zero.symm
  | some j =>
      obtain ⟨hbit, hmem, hbefore⟩ := List.find?_range_eq_some.mp hfind
      have hj := List.mem_range.mp hmem
      refine ⟨hj, hbit, fun i hi => ?_⟩
      -- What lies above has been looked at before.
      by_cases hlt : i < width
      · have hzero := hbefore (width - 1 - i) (by simp only [Option.getD_some] at hi; omega)
        have hi' : width - 1 - (width - 1 - i) = i := by omega
        rw [hi'] at hzero
        simpa using hzero
      · exact BitVec.getLsbD_of_ge w i (by omega)

/-- The bits that are set below a position, from the highest down. -/
def bitsBelow (w : BitVec width) (n : Nat) : List Nat := ((List.range n).filter w.getLsbD).reverse

theorem bitsBelow_succ (w : BitVec width) (n : Nat) :
    bitsBelow w (n + 1) = if w.getLsbD n then n :: bitsBelow w n else bitsBelow w n := by
  unfold bitsBelow
  rw [List.range_succ, List.filter_append, List.reverse_append]
  by_cases hn : w.getLsbD n = true
  · simp [hn]
  · simp [hn]

theorem mem_bitsBelow {w : BitVec width} {n i : Nat} :
    i ∈ bitsBelow w n ↔ i < n ∧ w.getLsbD i = true := by
  unfold bitsBelow
  rw [List.mem_reverse, List.mem_filter, List.mem_range]

theorem length_bitsBelow_le (w : BitVec width) (n : Nat) : (bitsBelow w n).length ≤ n := by
  unfold bitsBelow
  rw [List.length_reverse]
  exact Nat.le_trans (List.length_filter_le _ _) (Nat.le_of_eq List.length_range)

theorem bitsBelow_eq_of_clear {w : BitVec width} {m n : Nat} (hmn : m ≤ n)
    (hclear : ∀ i, m ≤ i → i < n → w.getLsbD i = false) : bitsBelow w n = bitsBelow w m := by
  induction n with
  | zero =>
      obtain rfl : m = 0 := by omega
      rfl
  | succ n ih =>
      by_cases hm : m = n + 1
      · rw [hm]
      · rw [bitsBelow_succ, hclear n (by omega) (by omega), if_neg Bool.false_ne_true]
        exact ih (by omega) fun i hi hlt => hclear i hi (by omega)

theorem bitsBelow_eq_cons {w : BitVec width} {t n : Nat} (hlt : t < n) (ht : w.getLsbD t = true)
    (hclear : ∀ i, t < i → i < n → w.getLsbD i = false) :
    bitsBelow w n = t :: bitsBelow w t := by
  rw [bitsBelow_eq_of_clear (show t + 1 ≤ n from hlt) fun i hi hn => hclear i hi hn,
    bitsBelow_succ, if_pos ht]

theorem bitsBelow_sorted (w : BitVec width) (n : Nat) : (bitsBelow w n).Pairwise (· > ·) := by
  unfold bitsBelow
  rw [List.pairwise_reverse]
  exact List.Pairwise.filter _ List.pairwise_lt_range

end Lib
end TreePass
