import Mathlib.Data.Finset.Card
import Mathlib.Data.List.Sort
import Mathlib.Tactic.Common

/-!
# Merging sorted lists by their heads

Each round takes the least head of all lists from every list that begins with it. In strictly
sorted lists this removes one element from their union, so the rounds are as many as there are
distinct elements: `card_dropHeads`.
-/

namespace TreePass
namespace Lib

def leastHead : Nat → List (List Nat) → Nat
  | m, [] => m
  | m, [] :: segs => leastHead m segs
  | m, (a :: _) :: segs => leastHead (if a < m then a else m) segs

def dropHead (m : Nat) : List Nat → List Nat
  | [] => []
  | a :: seg => if a = m then seg else a :: seg

theorem dropHead_cons (m a : Nat) (seg : List Nat) :
    dropHead m (a :: seg) = if a = m then seg else a :: seg := rfl

def unionOf (segs : List (List Nat)) : Finset Nat := segs.flatten.toFinset

theorem mem_unionOf {segs : List (List Nat)} {a : Nat} :
    a ∈ unionOf segs ↔ ∃ seg ∈ segs, a ∈ seg := by
  simp [unionOf]

theorem leastHead_le (segs : List (List Nat)) : ∀ (m : Nat), leastHead m segs ≤ m ∧
    ∀ seg ∈ segs, ∀ a ∈ seg.head?, leastHead m segs ≤ a := by
  induction segs with
  | nil =>
      intro m
      exact ⟨Nat.le_refl _, by simp⟩
  | cons seg segs ih =>
      intro m
      cases seg with
      | nil =>
          obtain ⟨hm, hheads⟩ := ih m
          refine ⟨hm, ?_⟩
          intro seg hseg a ha
          rcases List.mem_cons.mp hseg with rfl | hmem
          · cases ha
          · exact hheads seg hmem a ha
      | cons b seg =>
          obtain ⟨hm, hheads⟩ := ih (if b < m then b else m)
          unfold leastHead
          constructor
          · apply Nat.le_trans hm
            split <;> omega
          · intro seg' hseg a ha
            rcases List.mem_cons.mp hseg with rfl | hmem
            · obtain rfl := Option.some.inj ha
              apply Nat.le_trans hm
              split <;> omega
            · exact hheads seg' hmem a ha

theorem leastHead_mem (segs : List (List Nat)) : ∀ (m : Nat), leastHead m segs = m ∨
    ∃ seg ∈ segs, seg.head? = some (leastHead m segs) := by
  induction segs with
  | nil =>
      intro m
      exact Or.inl rfl
  | cons seg segs ih =>
      intro m
      cases seg with
      | nil =>
          rcases ih m with heq | ⟨seg, hseg, hhead⟩
          · exact Or.inl heq
          · exact Or.inr ⟨seg, List.mem_cons_of_mem _ hseg, hhead⟩
      | cons b seg =>
          unfold leastHead
          rcases ih (if b < m then b else m) with heq | ⟨seg', hseg, hhead⟩
          · by_cases hlt : b < m
            · rw [if_pos hlt] at heq ⊢
              exact Or.inr ⟨b :: seg, List.mem_cons_self, by rw [heq]; rfl⟩
            · rw [if_neg hlt] at heq ⊢
              exact Or.inl heq
          · exact Or.inr ⟨seg', List.mem_cons_of_mem _ hseg, hhead⟩

theorem unionOf_eq_empty {segs : List (List Nat)} {top : Nat}
    (hbelow : ∀ seg ∈ segs, ∀ a ∈ seg, a < top) (h : leastHead top segs = top) :
    unionOf segs = ∅ := by
  rw [Finset.eq_empty_iff_forall_notMem]
  intro a ha
  obtain ⟨seg, hseg, hmem⟩ := mem_unionOf.mp ha
  cases seg with
  | nil => cases hmem
  | cons b seg =>
      have hle := (leastHead_le segs top).2 _ hseg b rfl
      have hlt := hbelow _ hseg b List.mem_cons_self
      omega

theorem mem_dropHead {m a : Nat} {seg : List Nat} (hseg : seg.Pairwise (· < ·))
    (hle : ∀ b ∈ seg.head?, m ≤ b) : a ∈ dropHead m seg ↔ a ∈ seg ∧ a ≠ m := by
  cases seg with
  | nil => simp [dropHead]
  | cons b seg =>
      have hrest := List.pairwise_cons.mp hseg
      have hb := hle b rfl
      rw [dropHead_cons]
      by_cases hbm : b = m
      · subst hbm
        rw [if_pos rfl]
        constructor
        · intro ha
          exact ⟨List.mem_cons_of_mem _ ha, (Nat.ne_of_lt (hrest.1 a ha)).symm⟩
        · rintro ⟨ha, hne⟩
          exact (List.mem_cons.mp ha).resolve_left hne
      · rw [if_neg hbm]
        constructor
        · intro ha
          refine ⟨ha, ?_⟩
          rcases List.mem_cons.mp ha with rfl | hmem
          · exact hbm
          · have := hrest.1 a hmem
            omega
        · exact fun h => h.1

theorem dropHead_sorted (m : Nat) {seg : List Nat} (hseg : seg.Pairwise (· < ·)) :
    (dropHead m seg).Pairwise (· < ·) := by
  cases seg with
  | nil => exact List.Pairwise.nil
  | cons b seg =>
      rw [dropHead_cons]
      split
      · exact (List.pairwise_cons.mp hseg).2
      · exact hseg

theorem card_dropHeads {segs : List (List Nat)} {top : Nat}
    (hsorted : ∀ seg ∈ segs, seg.Pairwise (· < ·)) (h : leastHead top segs ≠ top) :
    (unionOf segs).card = (unionOf (segs.map (dropHead (leastHead top segs)))).card + 1 := by
  have hle := (leastHead_le segs top).2
  obtain ⟨seg, hseg, hhead⟩ := (leastHead_mem segs top).resolve_left h
  have hset : unionOf segs =
      insert (leastHead top segs) (unionOf (segs.map (dropHead (leastHead top segs)))) := by
    ext a
    rw [Finset.mem_insert, mem_unionOf, mem_unionOf]
    constructor
    · rintro ⟨seg', hseg', ha⟩
      by_cases heq : a = leastHead top segs
      · exact Or.inl heq
      · refine Or.inr ⟨_, List.mem_map_of_mem hseg', ?_⟩
        exact (mem_dropHead (hsorted seg' hseg') (hle seg' hseg')).mpr ⟨ha, heq⟩
    · rintro (rfl | ⟨rest, hrest, ha⟩)
      · exact ⟨seg, hseg, List.mem_of_mem_head? hhead⟩
      · obtain ⟨seg', hseg', rfl⟩ := List.mem_map.mp hrest
        exact ⟨seg', hseg', ((mem_dropHead (hsorted seg' hseg') (hle seg' hseg')).mp ha).1⟩
  rw [hset, Finset.card_insert_of_notMem]
  intro hmem
  obtain ⟨rest, hrest, ha⟩ := mem_unionOf.mp hmem
  obtain ⟨seg', hseg', rfl⟩ := List.mem_map.mp hrest
  exact ((mem_dropHead (hsorted seg' hseg') (hle seg' hseg')).mp ha).2 rfl

end Lib
end TreePass
