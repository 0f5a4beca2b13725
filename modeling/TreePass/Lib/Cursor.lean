import Mathlib.Data.List.Basic
import Mathlib.Tactic.Common

/-!
# Cursors over lists

A bidirectional iterator over `n` items has the positions -1 (before the first item) to `n`
(past the last).  `Cursor` is that abstract object: it carries its bounds, and `remaining` is
what a loop that reads the current item and steps in one direction would still deliver.
-/

namespace TreePass
namespace Lib

/-- A position in a list, from before the first item to past the last. -/
structure Cursor (α : Type*) where
  items : List α
  pos : Int
  lower : -1 ≤ pos
  upper : pos ≤ items.length

namespace Cursor

variable {α : Type*} (c : Cursor α)

/-- There is an item, and the position is not past the last one. -/
def canNext : Bool := decide (0 < c.items.length ∧ c.pos < c.items.length)

/-- There is an item, and the position is not before the first one. -/
def canPrev : Bool := decide (0 < c.items.length ∧ -1 < c.pos)

def canCurr : Bool := c.canNext && c.canPrev

def curr : Option α := if -1 < c.pos then c.items[c.pos.toNat]? else none

def next : Cursor α :=
  if h : c.canNext = true then
    { c with
      pos := c.pos + 1
      lower := by have := c.lower; omega
      upper := by have := (of_decide_eq_true h).2; omega }
  else c

def prev : Cursor α :=
  if h : c.canPrev = true then
    { c with
      pos := c.pos - 1
      lower := by have := (of_decide_eq_true h).2; omega
      upper := by have := c.upper; omega }
  else c

def step (forwards : Bool) : Cursor α := if forwards then c.next else c.prev

/-- What a loop of reads and moves in one direction still delivers. -/
def remaining (forwards : Bool) : List α :=
  match c.curr with
  | none => []
  | some _ =>
      if forwards then c.items.drop c.pos.toNat else (c.items.take (c.pos.toNat + 1)).reverse

def atFirst (items : List α) : Cursor α where
  items := items
  pos := 0
  lower := by decide
  upper := by omega

def atLast (items : List α) : Cursor α where
  items := items
  pos := items.length - 1
  lower := by omega
  upper := by omega

variable {c}

theorem curr_eq_some_iff {x : α} :
    c.curr = some x ↔ -1 < c.pos ∧ c.items[c.pos.toNat]? = some x := by
  rw [curr]
  split
  · rename_i hpos
    simp only [hpos, true_and]
  · rename_i hpos
    simp only [hpos, false_and, reduceCtorEq]

theorem canCurr_iff : c.canCurr = true ↔ c.curr.isSome = true := by
  have hlower := c.lower
  rw [canCurr, canNext, canPrev, curr, Bool.and_eq_true, decide_eq_true_eq, decide_eq_true_eq]
  constructor
  · rintro ⟨⟨-, hlt⟩, -, hpos⟩
    rw [if_pos hpos, List.getElem?_eq_getElem (by omega)]
    rfl
  · intro h
    split at h
    · rename_i hpos
      obtain ⟨x, hx⟩ := Option.isSome_iff_exists.mp h
      obtain ⟨hlt, -⟩ := List.getElem?_eq_some_iff.mp hx
      omega
    · simp at h

@[simp] theorem next_items : c.next.items = c.items := by
  rw [next]
  split <;> rfl

@[simp] theorem prev_items : c.prev.items = c.items := by
  rw [prev]
  split <;> rfl

@[simp] theorem step_items (forwards : Bool) : (c.step forwards).items = c.items := by
  cases forwards
  · exact prev_items
  · exact next_items

theorem next_pos (h : c.canNext = true) : c.next.pos = c.pos + 1 := by
  rw [next, dif_pos h]

theorem prev_pos (h : c.canPrev = true) : c.prev.pos = c.pos - 1 := by
  rw [prev, dif_pos h]

theorem remaining_of_none {forwards : Bool} (h : c.curr = none) : c.remaining forwards = [] := by
  rw [remaining, h]

private theorem remaining_next {x : α} (h : c.curr = some x) :
    c.remaining true = x :: c.next.remaining true := by
  have hcan : c.canCurr = true := canCurr_iff.mpr (by rw [h]; rfl)
  obtain ⟨hnext, -⟩ := Bool.and_eq_true _ _ ▸ hcan
  obtain ⟨hpos, hget⟩ := curr_eq_some_iff.mp h
  have hsucc : (c.pos + 1).toNat = c.pos.toNat + 1 := by omega
  obtain ⟨hlt, hitem⟩ := List.getElem?_eq_some_iff.mp hget
  have hdrop : c.items.drop c.pos.toNat = x :: c.items.drop (c.pos.toNat + 1) := by
    rw [List.drop_eq_getElem_cons hlt, hitem]
  rw [remaining, h]
  simp only [if_true, hdrop, List.cons.injEq, true_and]
  cases hcurr : c.next.curr with
  | none =>
      rw [remaining_of_none hcurr]
      rw [curr, next_pos hnext, if_pos (by omega), next_items, hsucc] at hcurr
      exact List.drop_eq_nil_of_le (List.getElem?_eq_none_iff.mp hcurr)
  | some y => simp [remaining, hcurr, next_pos hnext, hsucc]

private theorem remaining_prev {x : α} (h : c.curr = some x) :
    c.remaining false = x :: c.prev.remaining false := by
  have hcan : c.canCurr = true := canCurr_iff.mpr (by rw [h]; rfl)
  obtain ⟨-, hprev⟩ := Bool.and_eq_true _ _ ▸ hcan
  obtain ⟨hpos, hget⟩ := curr_eq_some_iff.mp h
  obtain ⟨hlt, hitem⟩ := List.getElem?_eq_some_iff.mp hget
  have htake : (c.items.take (c.pos.toNat + 1)).reverse = x :: (c.items.take c.pos.toNat).reverse := by
    rw [List.take_succ_eq_append_getElem hlt, List.reverse_append, hitem]
    rfl
  rw [remaining, h]
  simp only [Bool.false_eq_true, if_false, htake, List.cons.injEq, true_and]
  cases hcurr : c.prev.curr with
  | none =>
      rw [remaining_of_none hcurr]
      by_cases hzero : c.pos = 0
      · simp [hzero]
      · exfalso
        rw [curr, prev_pos hprev, if_pos (by omega), prev_items] at hcurr
        have := List.getElem?_eq_none_iff.mp hcurr
        omega
  | some y =>
      obtain ⟨hpos', -⟩ := curr_eq_some_iff.mp hcurr
      rw [prev_pos hprev] at hpos'
      have hpred : (c.pos - 1).toNat + 1 = c.pos.toNat := by omega
      simp only [remaining, hcurr, prev_pos hprev, prev_items, hpred, Bool.false_eq_true, if_false]

theorem remaining_eq_cons {forwards : Bool} {x : α} (h : c.curr = some x) :
    c.remaining forwards = x :: (c.step forwards).remaining forwards := by
  cases forwards
  · exact remaining_prev h
  · exact remaining_next h

theorem pairwise_remaining {r : α → α → Prop} (h : c.items.Pairwise r) (forwards : Bool) :
    (c.remaining forwards).Pairwise fun x y => if forwards then r x y else r y x := by
  rw [remaining]
  cases c.curr with
  | none => exact List.Pairwise.nil
  | some y =>
      cases forwards
      · simpa using List.pairwise_reverse.mpr (h.sublist (List.take_sublist _ _))
      · simpa using h.sublist (List.drop_sublist _ _)

theorem remaining_atFirst (items : List α) : (atFirst items).remaining true = items := by
  cases items with
  | nil => rfl
  | cons x xs => rfl

theorem remaining_atLast (items : List α) : (atLast items).remaining false = items.reverse := by
  rcases List.eq_nil_or_concat items with rfl | ⟨xs, x, rfl⟩
  · rfl
  · have hcurr : (atLast (xs ++ [x])).curr = some x := by
      rw [curr_eq_some_iff]
      simp only [atLast, List.length_append, List.length_singleton]
      constructor
      · omega
      · simp
    rw [List.concat_eq_append, remaining, hcurr]
    have htake : (xs ++ [x]).take (xs.length + 1) = xs ++ [x] := List.take_of_length_le (by simp)
    simp [atLast, htake]

end Cursor
end Lib
end TreePass
