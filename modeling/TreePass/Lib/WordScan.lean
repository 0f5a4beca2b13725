import TreePass.Lib.Bitmap
import Mathlib.Data.Nat.Count

/-!
# Finding ones in a memory of words

A sequence of bits that can be read in words of one width.  The ones are numbered from 0 on by
`rank`, the number of ones before a position.

* `exists_of_rank` finds the one with a given number between two positions.
* `Rest` says that a register holds the ones of a word from a given number on; `Rest.clear` clears
  the lowest of them.
* `seek` reads on while the register is zero, and `seek_spec` says where it ends: at the word of the
  next one, if this word can be read.
-/

namespace TreePass
namespace Lib

def rank (bit : Nat → Bool) (p : Nat) : Nat := Nat.count (fun i => bit i = true) p

section Rank

variable {bit : Nat → Bool}

theorem rank_succ (bit : Nat → Bool) (p : Nat) :
    rank bit (p + 1) = rank bit p + if bit p = true then 1 else 0 :=
  Nat.count_succ _ _

theorem rank_mono {p q : Nat} (h : p ≤ q) : rank bit p ≤ rank bit q := Nat.count_monotone _ h

theorem rank_add (bit : Nat → Bool) (a b : Nat) :
    rank bit (a + b) = rank bit a + rank (fun i => bit (a + i)) b :=
  Nat.count_add _ _ _

theorem rank_congr {bit' : Nat → Bool} {p : Nat} (h : ∀ i < p, bit i = bit' i) :
    rank bit p = rank bit' p := by
  apply Nat.le_antisymm
  · apply Nat.count_mono_left
    intro i hi hbit
    rwa [← h i hi]
  · apply Nat.count_mono_left
    intro i hi hbit
    rwa [h i hi]

theorem rank_inj {p q : Nat} (hp : bit p = true) (hq : bit q = true)
    (h : rank bit p = rank bit q) : p = q := Nat.count_injective hp hq h

theorem exists_of_rank {r a : Nat} (ha : rank bit a ≤ r) : ∀ b, r < rank bit b →
    ∃ q, a ≤ q ∧ q < b ∧ bit q = true ∧ rank bit q = r := by
  intro b
  induction b with
  | zero =>
      intro hb
      rw [rank, Nat.count_zero] at hb
      exact absurd hb (Nat.not_lt_zero r)
  | succ b ih =>
      intro hb
      by_cases hlt : r < rank bit b
      · obtain ⟨q, haq, hqb, hq⟩ := ih hlt
        exact ⟨q, haq, Nat.lt_succ_of_lt hqb, hq⟩
      · rw [rank_succ] at hb
        have hbit : bit b = true := by
          by_contra hclear
          rw [if_neg hclear] at hb
          omega
        rw [if_pos hbit] at hb
        refine ⟨b, ?_, Nat.lt_succ_self b, hbit, by omega⟩
        by_contra hab
        have hmono := @rank_mono bit _ _ (show b + 1 ≤ a by omega)
        rw [rank_succ, if_pos hbit] at hmono
        omega

end Rank

variable {width : Nat}

def popcount (w : BitVec width) : Nat := rank w.getLsbD width

def WordOf (bit : Nat → Bool) (k : Nat) (w : BitVec width) : Prop :=
  ∀ i < width, w.getLsbD i = bit (width * k + i)

/-- The ones of a word from number `r` on. -/
def Rest (bit : Nat → Bool) (r k : Nat) (w : BitVec width) : Prop :=
  ∀ i < width, w.getLsbD i = (bit (width * k + i) && decide (r ≤ rank bit (width * k + i)))

section Rest

variable {bit : Nat → Bool} {r k : Nat} {w : BitVec width}

theorem rank_add_popcount (h : WordOf bit k w) :
    rank bit (width * k) + popcount w = rank bit (width * (k + 1)) := by
  have hcount : popcount w = rank (fun i => bit (width * k + i)) width := rank_congr h
  rw [hcount, Nat.mul_succ, rank_add]

theorem WordOf.rest (h : WordOf bit k w) (hr : r ≤ rank bit (width * k)) : Rest bit r k w := by
  intro i hi
  have hle : r ≤ rank bit (width * k + i) := Nat.le_trans hr (rank_mono (Nat.le_add_right _ _))
  rw [h i hi, decide_eq_true hle, Bool.and_true]

theorem Rest.lowest (h : Rest bit r k w) (hr : rank bit (width * k) ≤ r) (hw : w ≠ 0) :
    ffs w - 1 < width ∧ bit (width * k + (ffs w - 1)) = true ∧
      rank bit (width * k + (ffs w - 1)) = r := by
  obtain ⟨hlt, hbit⟩ := ffs_spec (ffs_ne_zero hw)
  have hone := h _ hlt
  rw [hbit, eq_comm, Bool.and_eq_true, decide_eq_true_eq] at hone
  refine ⟨hlt, hone.1, Nat.le_antisymm ?_ hone.2⟩
  -- A one with number `r` before it would be lower.
  by_contra hgt
  obtain ⟨q, hkq, hq, hqbit, hqr⟩ := exists_of_rank hr _ (Nat.lt_of_not_le hgt)
  have hlow := @ffs_lowest _ w (q - width * k) (by omega)
  rw [h _ (by omega), Nat.add_sub_cancel' hkq, hqbit, hqr] at hlow
  simp at hlow

theorem Rest.clear (h : Rest bit r k w) (hr : rank bit (width * k) ≤ r) (hw : w ≠ 0) :
    Rest bit (r + 1) k (clearLowest w) := by
  obtain ⟨hlt, hbit, hrank⟩ := h.lowest hr hw
  intro i hi
  rw [getLsbD_clearLowest hw, h i hi]
  by_cases hone : bit (width * k + i) = true
  · have hiff : (r ≤ rank bit (width * k + i) ∧ i ≠ ffs w - 1) ↔
        r + 1 ≤ rank bit (width * k + i) := by
      constructor
      · rintro ⟨hle, hne⟩
        refine Nat.lt_of_le_of_ne hle fun heq => hne ?_
        have hsame := rank_inj hone hbit (heq.symm.trans hrank.symm)
        omega
      · intro hlt'
        refine ⟨Nat.le_of_succ_le hlt', ?_⟩
        rintro rfl
        omega
    rw [hone, Bool.true_and, Bool.true_and, ← Bool.decide_and]
    exact decide_eq_decide.mpr hiff
  · rw [Bool.not_eq_true] at hone
    rw [hone, Bool.false_and, Bool.false_and, Bool.false_and]

theorem Rest.zero (h : Rest bit r k w) (hr : rank bit (width * k) ≤ r) (hw : w = 0) :
    rank bit (width * (k + 1)) ≤ r := by
  by_contra hgt
  obtain ⟨q, hkq, hq, hbit, hrank⟩ := exists_of_rank hr _ (Nat.lt_of_not_le hgt)
  rw [Nat.mul_succ] at hq
  have hone := h (q - width * k) (by omega)
  rw [Nat.add_sub_cancel' hkq, hbit, hrank, hw] at hone
  simp at hone

theorem Rest.clears (h : Rest bit r k w) (hr : rank bit (width * k) ≤ r) (n : Nat)
    (hn : r + n ≤ rank bit (width * (k + 1))) : Rest bit (r + n) k (clearLowest^[n] w) := by
  induction n with
  | zero => exact h
  | succ n ih =>
      have hbefore := ih (by omega)
      rw [Function.iterate_succ_apply', ← Nat.add_assoc]
      apply hbefore.clear (by omega)
      intro hzero
      have hle := hbefore.zero (by omega) hzero
      omega

end Rest

/-! ## Reading on -/

/-- The first words of the memory can be read, the others cannot. -/
structure Reads (bit : Nat → Bool) (readable : Nat) (read : Nat → Option (BitVec width)) :
    Prop where
  word : ∀ k < readable, ∃ w, read k = some w ∧ WordOf bit k w
  none : ∀ k, readable ≤ k → read k = none

/-- Read on while the register is zero: the word that was read last, and the register. -/
def seek (read : Nat → Option (BitVec width)) : Nat → Nat → BitVec width →
    Option (Nat × BitVec width)
  | 0, _, _ => none
  | fuel + 1, k, w => if w = 0 then (read (k + 1)).bind (seek read fuel (k + 1)) else some (k, w)

section Seek

variable {bit : Nat → Bool} {readable r s : Nat} {read : Nat → Option (BitVec width)}

theorem seek_le (fuel : Nat) : ∀ {k k' : Nat} {w w' : BitVec width},
    seek read fuel k w = some (k', w') → k ≤ k' := by
  induction fuel with
  | zero =>
      intro k k' w w' h
      cases h
  | succ fuel ih =>
      intro k k' w w' h
      unfold seek at h
      by_cases hw : w = 0
      · rw [if_pos hw] at h
        obtain ⟨w₁, -, hrec⟩ := Option.bind_eq_some_iff.mp h
        exact Nat.le_of_succ_le (ih hrec)
      · rw [if_neg hw] at h
        obtain ⟨rfl, -⟩ := Prod.mk.inj (Option.some.inj h)
        exact Nat.le_refl k

/-- **The search for the next one** ends at its word with the ones from it on, and has no result
if this word cannot be read. -/
theorem seek_spec (hwidth : 0 < width) (hreads : Reads bit readable read) (hs : bit s = true)
    (hrank : rank bit s = r) (fuel : Nat) :
    ∀ (k : Nat) (w : BitVec width), k < readable → readable ≤ fuel + k →
      Rest bit r k w → rank bit (width * k) ≤ r → r ≤ rank bit (width * (k + 1)) →
      (s / width < readable → ∃ w', seek read fuel k w = some (s / width, w') ∧ w' ≠ 0 ∧
        Rest bit r (s / width) w' ∧ width * (s / width) + (ffs w' - 1) = s) ∧
      (readable ≤ s / width → seek read fuel k w = none) := by
  induction fuel with
  | zero =>
      intro k w hk hfuel
      omega
  | succ fuel ih =>
      intro k w hk hfuel hrest hlow hhigh
      unfold seek
      by_cases hw : w = 0
      · rw [if_pos hw]
        have hle := hrest.zero hlow hw
        -- The one is behind this word.
        have hbehind : k + 1 ≤ s / width := by
          rw [Nat.le_div_iff_mul_le hwidth, Nat.mul_comm]
          by_contra hlt
          have hmono := @rank_mono bit _ _ (show s + 1 ≤ width * (k + 1) by omega)
          rw [rank_succ, if_pos hs] at hmono
          omega
        by_cases hnext : k + 1 < readable
        · obtain ⟨w₁, hread, hword⟩ := hreads.word (k + 1) hnext
          rw [hread]
          exact ih (k + 1) w₁ hnext (by omega) (hword.rest hhigh) hle
            (Nat.le_trans hhigh (rank_mono (Nat.mul_le_mul_left _ (Nat.le_succ _))))
        · rw [hreads.none (k + 1) (by omega)]
          refine ⟨fun hlt => ?_, fun _ => rfl⟩
          omega
      · rw [if_neg hw]
        obtain ⟨hlt, hbit, hnum⟩ := hrest.lowest hlow hw
        have hpos : width * k + (ffs w - 1) = s := rank_inj hbit hs (hnum.trans hrank.symm)
        have hdiv : s / width = k := by
          rw [← hpos, Nat.mul_add_div hwidth, Nat.div_eq_of_lt hlt, Nat.add_zero]
        rw [hdiv]
        refine ⟨fun _ => ⟨w, rfl, hw, hrest, hpos⟩, fun hge => ?_⟩
        omega

end Seek

end Lib
end TreePass
