import Mathlib.Data.List.Basic
import Mathlib.Algebra.Order.Group.Nat
import Mathlib.Tactic.Common

/-!
# Ranks in sorted lists and in lists of chunks

A predicate is initial on a list if it holds of a first part of the list and of nothing after it,
as `· < x` does on a sorted list.  How many elements satisfy it is then the position at which it
stops.  A list cut into chunks has the same elements at the offsets of the chunks.
-/

namespace TreePass
namespace Lib

variable {α : Type*}

/-! ## Initial predicates -/

/-- `p` holds of an initial part of the list only. -/
def Initial (p : α → Bool) (l : List α) : Prop := l.Pairwise fun x y => p y = true → p x = true

theorem Initial.of_pairwise {r : α → α → Prop} {p : α → Bool} {l : List α} (h : l.Pairwise r)
    (hp : ∀ x y, r x y → p y = true → p x = true) : Initial p l :=
  List.Pairwise.imp (fun hxy => hp _ _ hxy) h

private theorem countP_eq_zero_of_initial {p : α → Bool} {x : α} {l : List α}
    (h : Initial p (x :: l)) (hx : p x = false) : l.countP p = 0 := by
  rw [List.countP_eq_zero]
  intro y hy hpy
  have hpx := (List.pairwise_cons.mp h).1 y hy hpy
  rw [hx] at hpx
  cases hpx

theorem Initial.getElem_iff {p : α → Bool} {l : List α} (h : Initial p l) {i : Nat} {x : α}
    (hx : l[i]? = some x) : p x = true ↔ i < l.countP p := by
  induction l generalizing i with
  | nil => simp at hx
  | cons y l ih =>
      have htail : Initial p l := (List.pairwise_cons.mp h).2
      by_cases hy : p y = true
      · rw [List.countP_cons_of_pos hy]
        cases i with
        | zero =>
            obtain rfl : y = x := by simpa using hx
            simp [hy]
        | succ i =>
            rw [ih htail (by simpa using hx)]
            omega
      · have hzero := countP_eq_zero_of_initial h (by simpa using hy)
        rw [List.countP_cons_of_neg hy, hzero]
        have hxmem : x = y ∨ x ∈ l := List.mem_cons.mp (List.mem_of_getElem? hx)
        rcases hxmem with rfl | hmem
        · simp [hy]
        · simpa using List.countP_eq_zero.mp hzero x hmem

theorem Initial.findIdx_eq {p : α → Bool} {l : List α} (h : Initial p l) :
    l.findIdx (fun x => !p x) = l.countP p := by
  induction l with
  | nil => rfl
  | cons y l ih =>
      have htail : Initial p l := (List.pairwise_cons.mp h).2
      by_cases hy : p y = true
      · rw [List.countP_cons_of_pos hy, List.findIdx_cons, ← ih htail]
        simp [hy]
      · rw [List.countP_cons_of_neg hy, countP_eq_zero_of_initial h (by simpa using hy),
          List.findIdx_cons]
        simp [hy]

theorem Initial.filter_eq {p : α → Bool} {l : List α} (h : Initial p l) :
    l.filter p = l.take (l.countP p) := by
  induction l with
  | nil => rfl
  | cons y l ih =>
      have htail : Initial p l := (List.pairwise_cons.mp h).2
      by_cases hy : p y = true
      · rw [List.countP_cons_of_pos hy, List.filter_cons_of_pos hy, List.take_succ_cons, ih htail]
      · have hzero := countP_eq_zero_of_initial h (by simpa using hy)
        rw [List.countP_cons_of_neg hy, List.filter_cons_of_neg hy, hzero, List.take_zero,
          List.filter_eq_nil_iff]
        exact List.countP_eq_zero.mp hzero

theorem Initial.filter_between {p q : α → Bool} {l : List α} (hp : Initial p l)
    (hq : Initial q l) :
    l.filter (fun x => !p x && q x) = (l.take (l.countP q)).drop (l.countP p) := by
  induction l with
  | nil => simp
  | cons y l ih =>
      have hptail : Initial p l := (List.pairwise_cons.mp hp).2
      have hqtail : Initial q l := (List.pairwise_cons.mp hq).2
      by_cases hy : p y = true
      · rw [List.filter_cons_of_neg (by simp [hy]), List.countP_cons_of_pos hy]
        by_cases hqy : q y = true
        · rw [List.countP_cons_of_pos hqy, List.take_succ_cons, List.drop_succ_cons, ih hptail hqtail]
        · have hzero := countP_eq_zero_of_initial hq (by simpa using hqy)
          rw [List.countP_cons_of_neg hqy, hzero, List.take_zero, List.drop_nil, List.filter_eq_nil_iff]
          intro x hx
          simp [List.countP_eq_zero.mp hzero x hx]
      · have hnone : ∀ x ∈ y :: l, (!p x && q x) = q x := by
          intro x hx
          have hpx : p x = false := by
            rcases List.mem_cons.mp hx with rfl | hmem
            · simpa using hy
            · have hzero := countP_eq_zero_of_initial hp (by simpa using hy)
              simpa using List.countP_eq_zero.mp hzero x hmem
          simp [hpx]
        rw [List.filter_congr hnone, hq.filter_eq, List.countP_cons_of_neg hy,
          countP_eq_zero_of_initial hp (by simpa using hy), List.drop_zero]

theorem Initial.countP_segment {p : α → Bool} {l : List α} (h : Initial p l) {a b : Nat}
    (hb : b ≤ l.length) : ((l.take b).drop a).countP p = min (l.countP p - a) (b - a) := by
  have hseg : Initial p ((l.take b).drop a) :=
    h.sublist ((List.drop_sublist _ _).trans (List.take_sublist _ _))
  have hlen : ((l.take b).drop a).length = b - a := by
    rw [List.length_drop, List.length_take, Nat.min_eq_left hb]
  have hle : ((l.take b).drop a).countP p ≤ ((l.take b).drop a).length := List.countP_le_length
  have hiff : ∀ i, i < b - a → (i < ((l.take b).drop a).countP p ↔ a + i < l.countP p) := by
    intro i hi
    have hget : ((l.take b).drop a)[i]? = l[a + i]? := by
      rw [List.getElem?_drop, List.getElem?_take_of_lt (by omega)]
    have hx := List.getElem?_eq_getElem (l := l) (i := a + i) (by omega)
    rw [← hseg.getElem_iff (hget.trans hx), h.getElem_iff hx]
  have hlast := hiff (((l.take b).drop a).countP p - 1)
  have hnext := hiff (((l.take b).drop a).countP p)
  omega

/-! ## Chunks -/

/-- How many elements stand before chunk `j`. -/
def offset (cs : List (List α)) (j : Nat) : Nat := (cs.take j).flatten.length

@[simp] theorem offset_zero (cs : List (List α)) : offset cs 0 = 0 := by
  rw [offset, List.take_zero]
  rfl

theorem offset_succ {cs : List (List α)} {j : Nat} {c : List α} (h : cs[j]? = some c) :
    offset cs (j + 1) = offset cs j + c.length := by
  rw [offset, offset, List.take_add_one, h]
  simp

theorem offset_le_of_le (cs : List (List α)) {i j : Nat} (h : i ≤ j) : offset cs i ≤ offset cs j := by
  rw [offset, offset, ← List.take_append_drop i (cs.take j), List.take_take, Nat.min_eq_left h]
  simp

private theorem flatten_split {cs : List (List α)} {j : Nat} {c : List α} (h : cs[j]? = some c) :
    cs.flatten = (cs.take j).flatten ++ (c ++ (cs.drop (j + 1)).flatten) := by
  obtain ⟨hj, rfl⟩ := List.getElem?_eq_some_iff.mp h
  conv_lhs => rw [← List.take_append_drop j cs, List.drop_eq_getElem_cons hj]
  rw [List.flatten_append, List.flatten_cons]

theorem getElem?_flatten {cs : List (List α)} {j : Nat} {xs : List α} (h : cs[j]? = some xs) {i : Nat}
    (hi : i < xs.length) : cs.flatten[offset cs j + i]? = xs[i]? := by
  rw [flatten_split h, List.getElem?_append_right (by rw [offset]; omega), offset,
    Nat.add_sub_cancel_left, List.getElem?_append_left hi]

theorem countP_flatten {cs : List (List α)} {p : α → Bool} {j : Nat} {c : List α}
    (h : cs[j]? = some c) (hbefore : ∀ i c', i < j → cs[i]? = some c' → ∀ x ∈ c', p x = true)
    (hafter : ∀ i c', j < i → cs[i]? = some c' → ∀ x ∈ c', p x = false) :
    cs.flatten.countP p = offset cs j + c.countP p := by
  have hfront : (cs.take j).flatten.countP p = offset cs j := by
    rw [offset, List.countP_eq_length]
    intro x hx
    obtain ⟨c', hc', hxc⟩ := List.mem_flatten.mp hx
    obtain ⟨i, hi⟩ := List.mem_iff_getElem?.mp hc'
    rw [List.getElem?_take] at hi
    split at hi
    · rename_i hij
      exact hbefore i c' hij hi x hxc
    · cases hi
  have hback : (cs.drop (j + 1)).flatten.countP p = 0 := by
    rw [List.countP_eq_zero]
    intro x hx
    obtain ⟨c', hc', hxc⟩ := List.mem_flatten.mp hx
    obtain ⟨i, hi⟩ := List.mem_iff_getElem?.mp hc'
    rw [List.getElem?_drop] at hi
    simp [hafter (j + 1 + i) c' (by omega) hi x hxc]
  rw [flatten_split h, List.countP_append, List.countP_append, hfront, hback, Nat.add_zero]

end Lib
end TreePass
