import Mathlib.Algebra.Group.Nat.Defs
import Mathlib.Data.Finset.Card
import Mathlib.Data.List.Sort
import Mathlib.Tactic.Common

/-!
# Runs of equal keys in a sorted list

A list that is sorted by a key is cut at any key: the elements with that key are a front part of
those with at least that key.

* `take_run` and `drop_run` cut at a count, `takeWhile_run` and `dropWhile_run` at a test.
* `changes` counts the elements that differ from the one before; on a sorted list these are its
  distinct elements, `changes_add_eq_card`.
-/

namespace TreePass
namespace Lib

variable {α : Type*} (key : α → Nat)

/-! ## Cutting a sorted list -/

theorem split_run {l : List α} (hl : l.Pairwise fun a b => key a ≤ key b) {c : Nat}
    (hge : ∀ a ∈ l, c ≤ key a) :
    l = (l.filter fun a => decide (key a = c)) ++ l.filter fun a => decide (c < key a) := by
  induction l with
  | nil => rfl
  | cons a l ih =>
      have hrest := List.pairwise_cons.mp hl
      have hgeL : ∀ b ∈ l, c ≤ key b := fun b hb => hge b (List.mem_cons_of_mem _ hb)
      by_cases ha : key a = c
      · have hlt : ¬ c < key a := by omega
        rw [List.filter_cons_of_pos (by simpa using ha),
          List.filter_cons_of_neg (by simpa using hlt)]
        rw [List.cons_append, ← ih hrest.2 hgeL]
      · have hlt : c < key a := by
          have := hge a List.mem_cons_self
          omega
        -- No later element has the key `c`.
        have hnone : (l.filter fun b => decide (key b = c)) = [] := by
          rw [List.filter_eq_nil_iff]
          intro b hb
          have := hrest.1 b hb
          simp
          omega
        have hall : (l.filter fun b => decide (c < key b)) = l := by
          rw [List.filter_eq_self]
          intro b hb
          have := hrest.1 b hb
          simp
          omega
        rw [List.filter_cons_of_neg (by simpa using ha),
          List.filter_cons_of_pos (by simpa using hlt)]
        rw [hnone, hall, List.nil_append]

theorem take_run {l : List α} (hl : l.Pairwise fun a b => key a ≤ key b) {c : Nat}
    (hge : ∀ a ∈ l, c ≤ key a) :
    l.take (l.countP fun a => decide (key a = c)) = l.filter fun a => decide (key a = c) := by
  have hsplit := split_run key hl hge
  rw [List.countP_eq_length_filter]
  calc l.take (l.filter fun a => decide (key a = c)).length
      = ((l.filter fun a => decide (key a = c)) ++ l.filter fun a => decide (c < key a)).take
          (l.filter fun a => decide (key a = c)).length := by rw [← hsplit]
    _ = l.filter fun a => decide (key a = c) := List.take_left

theorem drop_run {l : List α} (hl : l.Pairwise fun a b => key a ≤ key b) {c : Nat}
    (hge : ∀ a ∈ l, c ≤ key a) :
    l.drop (l.countP fun a => decide (key a = c)) = l.filter fun a => decide (c < key a) := by
  have hsplit := split_run key hl hge
  rw [List.countP_eq_length_filter]
  calc l.drop (l.filter fun a => decide (key a = c)).length
      = ((l.filter fun a => decide (key a = c)) ++ l.filter fun a => decide (c < key a)).drop
          (l.filter fun a => decide (key a = c)).length := by rw [← hsplit]
    _ = l.filter fun a => decide (c < key a) := List.drop_left

theorem takeWhile_congr {p q : α → Bool} {l : List α} (h : ∀ a ∈ l, p a = q a) :
    l.takeWhile p = l.takeWhile q := by
  induction l with
  | nil => rfl
  | cons a l ih =>
      rw [List.takeWhile_cons, List.takeWhile_cons, h a List.mem_cons_self,
        ih fun b hb => h b (List.mem_cons_of_mem _ hb)]

theorem takeWhile_run {l : List α} (hl : l.Pairwise fun a b => key a ≤ key b) {c : Nat}
    (hge : ∀ a ∈ l, c ≤ key a) :
    (l.takeWhile fun a => decide (key a = c)) = l.filter fun a => decide (key a = c) := by
  induction l with
  | nil => rfl
  | cons a l ih =>
      have hrest := List.pairwise_cons.mp hl
      by_cases ha : key a = c
      · rw [List.takeWhile_cons_of_pos (by simpa using ha),
          List.filter_cons_of_pos (by simpa using ha)]
        rw [ih hrest.2 fun b hb => hge b (List.mem_cons_of_mem _ hb)]
      · rw [List.takeWhile_cons_of_neg (by simpa using ha),
          List.filter_cons_of_neg (by simpa using ha)]
        symm
        rw [List.filter_eq_nil_iff]
        intro b hb
        have hab := hrest.1 b hb
        have hca := hge a List.mem_cons_self
        simp
        omega

theorem filter_le_eq {l : List α} (hl : l.Pairwise fun a b => key a ≤ key b) (c : Nat) :
    (l.filter fun a => decide (c ≤ key a)) =
      (l.filter fun a => decide (key a = c)) ++ l.filter fun a => decide (c < key a) := by
  have hge : ∀ a ∈ l.filter (fun a => decide (c ≤ key a)), c ≤ key a := by
    intro a ha
    exact of_decide_eq_true (List.mem_filter.mp ha).2
  have hsplit := split_run key (hl.filter fun a => decide (c ≤ key a)) hge
  rw [List.filter_filter, List.filter_filter] at hsplit
  rw [hsplit]
  congr 1
  · apply List.filter_congr
    intro a _
    by_cases h : key a = c
    · simp [h]
    · simp [h]
  · apply List.filter_congr
    intro a _
    by_cases h : c < key a
    · simp [h, Nat.le_of_lt h]
    · simp [h]

/-! ## Counting changes -/

/-- The elements of a list that differ from the element before, which for the first is given. -/
def changes [DecidableEq α] : α → List α → Nat
  | _, [] => 0
  | last, a :: l => (if last = a then 0 else 1) + changes a l

/-- **The changes in a sorted list are its distinct elements**, but for a first element that is
taken for the one before. -/
theorem changes_add_eq_card {l : List Nat} (hl : l.Pairwise (· ≤ ·)) (last : Nat) :
    changes last l + (if l.head? = some last then 1 else 0) = l.toFinset.card := by
  induction l generalizing last with
  | nil => simp [changes]
  | cons a l ih =>
      have hrest := List.pairwise_cons.mp hl
      have hnext := ih hrest.2 a
      have hcard : (a :: l).toFinset.card =
          l.toFinset.card + if l.head? = some a then 0 else 1 := by
        rw [List.toFinset_cons]
        cases l with
        | nil => simp
        | cons b l =>
            by_cases hab : b = a
            · subst hab
              simp
            · -- The element is smaller than all that follow.
              have hnot : a ∉ (b :: l).toFinset := by
                intro hmem
                rcases List.mem_cons.mp (List.mem_toFinset.mp hmem) with rfl | hmem
                · exact hab rfl
                · have h1 := hrest.1 b List.mem_cons_self
                  have h2 := (List.pairwise_cons.mp hrest.2).1 a hmem
                  exact hab (Nat.le_antisymm h2 h1)
              rw [Finset.card_insert_of_notMem hnot]
              simp [hab]
      rw [hcard, ← hnext, changes]
      by_cases hla : last = a
      · subst hla
        simp
        split <;> omega
      · have hal : ¬ a = last := fun h => hla h.symm
        simp [hla, hal]
        split <;> omega

end Lib
end TreePass
