import Mathlib.Data.List.Sort
import Mathlib.Order.Defs.LinearOrder

/-!
# Sorting with a comparison function

A sorting routine of a C library takes a function that returns a negative, zero or positive number.
It promises to sort only when the function is consistent on the elements; otherwise it may do
anything.

* `Consistent` is what the function has to meet on the elements of a list.
* `SortsBy` is the promise of the routine.
* `sorts_by_key_iff`: every such routine sorts a list by a key exactly when the function is consistent
  on the list and negative wherever the key is smaller.
-/

namespace TreePass
namespace Lib

variable {α : Type*} {κ : Type*} [LinearOrder κ]

/-- The comparison function is a total preorder on the elements of the list. -/
structure Consistent (cmp : α → α → Int) (l : List α) : Prop where
  symm : ∀ a ∈ l, ∀ b ∈ l, 0 < cmp a b ↔ cmp b a < 0
  trans : ∀ a ∈ l, ∀ b ∈ l, ∀ c ∈ l, cmp a b ≤ 0 → cmp b c ≤ 0 → cmp a c ≤ 0

/-- The routine permutes a list into the order of a consistent comparison function. -/
def SortsBy (sort : (α → α → Int) → List α → List α) : Prop :=
  ∀ cmp l, Consistent cmp l → (sort cmp l).Perm l ∧ (sort cmp l).Pairwise fun a b => cmp a b ≤ 0

variable {cmp : α → α → Int} {l : List α} {a b : α}

theorem Consistent.total (h : Consistent cmp l) (ha : a ∈ l) (hb : b ∈ l) :
    cmp a b ≤ 0 ∨ cmp b a ≤ 0 := by
  have hsymm := h.symm a ha b hb
  omega

open Classical in
/-- The order of the comparison function on the list, and everything else behind it. -/
noncomputable def orderOn (cmp : α → α → Int) (l : List α) (a b : α) : Bool :=
  decide (b ∉ l ∨ a ∈ l ∧ cmp a b ≤ 0)

theorem orderOn_eq_true_iff : orderOn cmp l a b = true ↔ b ∉ l ∨ a ∈ l ∧ cmp a b ≤ 0 := by
  simp only [orderOn, decide_eq_true_eq]

theorem orderOn_iff (ha : a ∈ l) (hb : b ∈ l) : orderOn cmp l a b = true ↔ cmp a b ≤ 0 := by
  rw [orderOn_eq_true_iff]
  exact ⟨fun h => (h.resolve_left (not_not.mpr hb)).2, fun h => Or.inr ⟨ha, h⟩⟩

theorem Consistent.orderOn_trans (h : Consistent cmp l) (a b c : α) (hab : orderOn cmp l a b = true)
    (hbc : orderOn cmp l b c = true) : orderOn cmp l a c = true := by
  rw [orderOn_eq_true_iff] at hab hbc ⊢
  rcases hbc with hc | ⟨hb, hbc⟩
  · exact Or.inl hc
  · by_cases hc : c ∈ l
    · obtain ⟨ha, hab⟩ := hab.resolve_left (not_not.mpr hb)
      exact Or.inr ⟨ha, h.trans a ha b hb c hc hab hbc⟩
    · exact Or.inl hc

theorem Consistent.orderOn_total (h : Consistent cmp l) (a b : α) :
    (orderOn cmp l a b || orderOn cmp l b a) = true := by
  rw [Bool.or_eq_true, orderOn_eq_true_iff, orderOn_eq_true_iff]
  by_cases ha : a ∈ l
  · by_cases hb : b ∈ l
    · rcases h.total ha hb with hle | hle
      · exact Or.inl (Or.inr ⟨ha, hle⟩)
      · exact Or.inr (Or.inr ⟨hb, hle⟩)
    · exact Or.inl (Or.inl hb)
  · exact Or.inr (Or.inl ha)

theorem pairwise_of_orderOn {l' : List α} (hsub : ∀ a ∈ l', a ∈ l)
    (h : l'.Pairwise fun a b => orderOn cmp l a b = true) :
    l'.Pairwise fun a b => cmp a b ≤ 0 :=
  h.imp_of_mem fun ha hb hab => (orderOn_iff (hsub _ ha) (hsub _ hb)).mp hab

open Classical in
/-- A routine that keeps its promise and is free to put `first` in front of its equals; where the
comparison function is not consistent, it loses the list. -/
noncomputable def sortFrom (first : List α) (cmp : α → α → Int) (l : List α) : List α :=
  if Consistent cmp l then
    if first.Perm l then first.mergeSort (orderOn cmp l) else l.mergeSort (orderOn cmp l)
  else []

theorem sortsBy_sortFrom (first : List α) : SortsBy (sortFrom first) := by
  intro cmp l hcons
  rw [sortFrom, if_pos hcons]
  by_cases hfirst : first.Perm l
  · rw [if_pos hfirst]
    have hperm := (List.mergeSort_perm first (orderOn cmp l)).trans hfirst
    exact ⟨hperm, pairwise_of_orderOn (fun a ha => hperm.mem_iff.mp ha)
      (List.pairwise_mergeSort hcons.orderOn_trans hcons.orderOn_total first)⟩
  · rw [if_neg hfirst]
    have hperm := List.mergeSort_perm l (orderOn cmp l)
    exact ⟨hperm, pairwise_of_orderOn (fun a ha => hperm.mem_iff.mp ha)
      (List.pairwise_mergeSort hcons.orderOn_trans hcons.orderOn_total l)⟩

theorem sortFrom_of_not_consistent (h : ¬ Consistent cmp l) (first : List α) :
    sortFrom first cmp l = [] := if_neg h

theorem ne_nil_of_not_consistent (h : ¬ Consistent cmp l) : l ≠ [] := by
  rintro rfl
  exact h ⟨fun a ha => absurd ha List.not_mem_nil, fun a ha => absurd ha List.not_mem_nil⟩

theorem sorts_by_key_iff (key : α → κ) :
    (∀ sort, SortsBy sort → (sort cmp l).Perm l ∧
      (sort cmp l).Pairwise fun a b => key a ≤ key b) ↔
    Consistent cmp l ∧ ∀ a ∈ l, ∀ b ∈ l, key a < key b → cmp a b < 0 := by
  constructor
  · intro h
    have hcons : Consistent cmp l := by
      by_contra hnot
      have hlost := (h _ (sortsBy_sortFrom l)).1
      rw [sortFrom_of_not_consistent hnot] at hlost
      exact ne_nil_of_not_consistent hnot hlost.symm.eq_nil
    refine ⟨hcons, fun a ha b hb hkey => ?_⟩
    by_contra hnot
    have hba : cmp b a ≤ 0 := by
      have hsymm := hcons.symm b hb a ha
      omega
    -- with `b` in front of the list, a stable sort leaves it in front of `a`
    obtain ⟨l₁, l₂, rfl⟩ := List.append_of_mem hb
    have hfirst : (b :: (l₁ ++ l₂)).Perm (l₁ ++ b :: l₂) := List.perm_middle.symm
    have hne : a ≠ b := fun heq => absurd hkey (by rw [heq]; exact lt_irrefl _)
    have hrest : a ∈ l₁ ++ l₂ := by
      have hmem := hfirst.mem_iff.mpr ha
      exact (List.mem_cons.mp hmem).resolve_left hne
    have hsorted := (h _ (sortsBy_sortFrom (b :: (l₁ ++ l₂)))).2
    rw [sortFrom, if_pos hcons, if_pos hfirst] at hsorted
    have hpair : [b, a].Sublist ((b :: (l₁ ++ l₂)).mergeSort (orderOn cmp (l₁ ++ b :: l₂))) :=
      List.pair_sublist_mergeSort hcons.orderOn_trans hcons.orderOn_total
        ((orderOn_iff hb ha).mpr hba) (List.Sublist.cons_cons b (List.singleton_sublist.mpr hrest))
    have hle := List.pairwise_pair.mp (hsorted.sublist hpair)
    exact absurd hkey (not_lt.mpr hle)
  · rintro ⟨hcons, hkey⟩ sort hsort
    obtain ⟨hperm, hsorted⟩ := hsort cmp l hcons
    refine ⟨hperm, hsorted.imp_of_mem fun {a b} ha hb hab => ?_⟩
    by_contra hnot
    have hlt := hkey b (hperm.mem_iff.mp hb) a (hperm.mem_iff.mp ha) (not_le.mp hnot)
    have hsymm := hcons.symm a (hperm.mem_iff.mp ha) b (hperm.mem_iff.mp hb)
    omega

end Lib
end TreePass
