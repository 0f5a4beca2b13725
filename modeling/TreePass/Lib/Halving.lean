import Mathlib.Algebra.GroupWithZero.Nat
import Mathlib.Algebra.BigOperators.Group.List.Basic
import Mathlib.Tactic.Common

/-!
# Cutting a list of weights in half

A scan over a list of weights that takes an item to the left side as long as the middle of the item
lies before the middle of the whole.

* `leftCount_append`: the scan can be run over one part of the list after the other.
* `two_mul_take_sum_le` and `two_mul_drop_sum_le`: neither side is heavier than half of the whole
  and half of the heaviest item.
* `leftCount_lt` and `leftCount_pos`: neither side is empty.
-/

namespace TreePass
namespace Lib

/-- How many items of the list go left; `left` is what is there already. -/
def leftCount (total : Nat) : Nat → List Nat → Nat
  | _, [] => 0
  | left, w :: ws =>
      if left + w < (total + w) / 2 then leftCount total (left + w) ws + 1 else 0

variable {total left m : Nat} {ws : List Nat}

theorem leftCount_cons_of_lt {w : Nat} (h : left + w < (total + w) / 2) :
    leftCount total left (w :: ws) = leftCount total (left + w) ws + 1 := if_pos h

theorem leftCount_cons_of_not_lt {w : Nat} (h : ¬ left + w < (total + w) / 2) :
    leftCount total left (w :: ws) = 0 := if_neg h

theorem leftCount_le (total left : Nat) (ws : List Nat) :
    leftCount total left ws ≤ ws.length := by
  induction ws generalizing left with
  | nil => exact Nat.le_refl _
  | cons w ws ih =>
      rw [leftCount]
      split
      · exact Nat.succ_le_succ (ih _)
      · exact Nat.zero_le _

theorem leftCount_append_of_lt (ws' : List Nat)
    (h : leftCount total left ws < ws.length) :
    leftCount total left (ws ++ ws') = leftCount total left ws := by
  induction ws generalizing left with
  | nil => exact absurd h (Nat.not_lt_zero _)
  | cons w ws ih =>
      rw [List.cons_append]
      by_cases hlt : left + w < (total + w) / 2
      · rw [leftCount_cons_of_lt hlt] at h ⊢
        rw [leftCount_cons_of_lt hlt, ih (Nat.lt_of_succ_lt_succ h)]
      · rw [leftCount_cons_of_not_lt hlt, leftCount_cons_of_not_lt hlt]

theorem leftCount_append_of_eq (ws' : List Nat)
    (h : leftCount total left ws = ws.length) :
    leftCount total left (ws ++ ws') =
      ws.length + leftCount total (left + ws.sum) ws' := by
  induction ws generalizing left with
  | nil =>
      rw [List.nil_append, List.sum_nil, List.length_nil, Nat.zero_add, Nat.add_zero]
  | cons w ws ih =>
      rw [List.cons_append, List.length_cons] at *
      by_cases hlt : left + w < (total + w) / 2
      · rw [leftCount_cons_of_lt hlt] at h ⊢
        rw [ih (Nat.succ.inj h), List.sum_cons, Nat.add_assoc left]
        omega
      · rw [leftCount_cons_of_not_lt hlt] at h
        omega

theorem two_mul_take_sum_le (hm : ∀ w ∈ ws, w ≤ m) (hleft : 2 * left ≤ total + m) :
    2 * (left + (ws.take (leftCount total left ws)).sum) ≤ total + m := by
  induction ws generalizing left with
  | nil => exact hleft
  | cons w ws ih =>
      by_cases hlt : left + w < (total + w) / 2
      · have hw := hm w List.mem_cons_self
        have hrest := ih (fun w' hw' => hm w' (List.mem_cons_of_mem _ hw'))
          (show 2 * (left + w) ≤ total + m by omega)
        rw [leftCount_cons_of_lt hlt, List.take_succ_cons, List.sum_cons]
        omega
      · rw [leftCount_cons_of_not_lt hlt]
        exact hleft

theorem two_mul_drop_sum_le (hm : ∀ w ∈ ws, w ≤ m) (htotal : left + ws.sum = total) :
    2 * (ws.drop (leftCount total left ws)).sum ≤ total + m + 1 := by
  induction ws generalizing left with
  | nil => exact Nat.zero_le _
  | cons w ws ih =>
      rw [List.sum_cons] at htotal
      have hw := hm w List.mem_cons_self
      by_cases hlt : left + w < (total + w) / 2
      · rw [leftCount_cons_of_lt hlt, List.drop_succ_cons]
        exact ih (fun w' hw' => hm w' (List.mem_cons_of_mem _ hw')) (by omega)
      · rw [leftCount_cons_of_not_lt hlt, List.drop_zero, List.sum_cons]
        omega

theorem leftCount_lt (hne : ws ≠ []) (htotal : left + ws.sum = total) :
    leftCount total left ws < ws.length := by
  induction ws generalizing left with
  | nil => exact absurd rfl hne
  | cons w ws ih =>
      rw [List.sum_cons] at htotal
      rw [List.length_cons]
      by_cases hlt : left + w < (total + w) / 2
      · rw [leftCount_cons_of_lt hlt]
        refine Nat.succ_lt_succ (ih ?_ (by omega))
        rintro rfl
        rw [List.sum_nil] at htotal
        omega
      · rw [leftCount_cons_of_not_lt hlt]
        exact Nat.succ_pos _

theorem leftCount_pos (hne : ws ≠ []) (hm : ∀ w ∈ ws, w ≤ m) (htotal : m + 2 ≤ total) :
    0 < leftCount total 0 ws := by
  cases ws with
  | nil => exact absurd rfl hne
  | cons w ws =>
      have hw := hm w List.mem_cons_self
      rw [leftCount_cons_of_lt (by omega)]
      exact Nat.succ_pos _

end Lib
end TreePass
