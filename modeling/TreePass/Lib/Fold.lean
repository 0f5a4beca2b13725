import Mathlib.Data.Option.Basic
import Mathlib.Data.List.Basic

/-!
# Folding a partial associative operation

Values of a type are combined by an operation that may fail and is only well behaved on some of
them.  A list of values is folded from its front, starting from nothing.

* `combine` extends the operation to "nothing there".
* `foldAll` is the fold from the front.
* `foldAll_append`: on well-behaved values a fold may be cut anywhere and the parts combined.
-/

namespace TreePass
namespace Lib

variable {α : Type*}

/-- Combine what has been accumulated with one more value, where either may be absent. -/
def combine (op : α → α → Option α) : Option α → Option α → Option (Option α)
  | acc, none => some acc
  | none, some b => some (some b)
  | some a, some b => (op a b).map some

def foldAll (op : α → α → Option α) (xs : List α) : Option (Option α) :=
  xs.foldlM (fun acc x => combine op acc (some x)) none

/-- The operation is total, closed and associative on the values that satisfy `P`. -/
structure AssocOn (P : α → Prop) (op : α → α → Option α) : Prop where
  total : ∀ a b, P a → P b → ∃ c, op a b = some c ∧ P c
  assoc : ∀ a b c, P a → P b → P c →
    (op a b).bind (fun ab => op ab c) = (op b c).bind fun bc => op a bc

/-- A value, if there is one, satisfies `P`. -/
def AllSome (P : α → Prop) (a : Option α) : Prop := ∀ x, a = some x → P x

variable {P : α → Prop} {op : α → α → Option α}

@[simp] theorem allSome_none : AllSome P none := nofun

@[simp] theorem allSome_some {a : α} : AllSome P (some a) ↔ P a := by
  simp [AllSome]

@[simp] theorem combine_none_right (acc : Option α) : combine op acc none = some acc := by
  cases acc <;> rfl

@[simp] theorem combine_none_left (b : Option α) : combine op none b = some b := by
  cases b <;> rfl

@[simp] theorem combine_some_some (a b : α) :
    combine op (some a) (some b) = (op a b).map some := rfl

@[simp] theorem foldAll_nil : foldAll op [] = some none := rfl

@[simp] theorem foldAll_singleton (a : α) : foldAll op [a] = some (some a) := rfl

theorem combine_total (h : AssocOn P op) {a b : Option α} (ha : AllSome P a) (hb : AllSome P b) :
    ∃ c, combine op a b = some c ∧ AllSome P c := by
  cases a with
  | none => exact ⟨b, combine_none_left b, hb⟩
  | some a =>
      cases b with
      | none => exact ⟨some a, rfl, ha⟩
      | some b =>
          obtain ⟨c, hc, hP⟩ := h.total a b (ha a rfl) (hb b rfl)
          exact ⟨some c, by rw [combine_some_some, hc, Option.map_some], by simpa using hP⟩

theorem combine_assoc (h : AssocOn P op) {a b c : Option α} (ha : AllSome P a) (hb : AllSome P b)
    (hc : AllSome P c) :
    (combine op a b).bind (fun ab => combine op ab c) =
      (combine op b c).bind fun bc => combine op a bc := by
  cases a with
  | none => simp
  | some a =>
      cases b with
      | none => simp
      | some b =>
          cases c with
          | none => simp
          | some c =>
              have hassoc := h.assoc a b c (ha a rfl) (hb b rfl) (hc c rfl)
              have hmap := congrArg (Option.map some) hassoc
              simpa [Option.map_bind, Function.comp_def, Option.bind_map] using hmap

private theorem foldlM_combine (h : AssocOn P op) (ys : List α) :
    ∀ {acc : Option α}, AllSome P acc → (∀ y ∈ ys, P y) →
      (∃ r, foldAll op ys = some r ∧ AllSome P r) ∧
        ys.foldlM (fun acc x => combine op acc (some x)) acc =
          (foldAll op ys).bind fun r => combine op acc r := by
  induction ys with
  | nil =>
      intro acc _ _
      refine ⟨⟨none, rfl, allSome_none⟩, ?_⟩
      rw [foldAll_nil, Option.bind_some, combine_none_right]
      rfl
  | cons y ys ih =>
      intro acc hacc hall
      obtain ⟨hy, hys⟩ := List.forall_mem_cons.mp hall
      have hsingle : AllSome P (some y) := by simpa using hy
      obtain ⟨⟨r, hr, hrP⟩, hfront⟩ := ih hsingle hys
      have hfold : foldAll op (y :: ys) = combine op (some y) r := by
        rw [foldAll, List.foldlM_cons, combine_none_left]
        change ys.foldlM _ (some y) = _
        rw [hfront, hr, Option.bind_some]
      obtain ⟨ab, hab, habP⟩ := combine_total h hacc hsingle
      refine ⟨hfold ▸ combine_total h hsingle hrP, ?_⟩
      rw [hfold, List.foldlM_cons, hab]
      change ys.foldlM _ ab = _
      rw [(ih habP hys).2, hr, Option.bind_some, ← combine_assoc h hacc hsingle hrP, hab,
        Option.bind_some]

theorem foldAll_total (h : AssocOn P op) {xs : List α} (hxs : ∀ x ∈ xs, P x) :
    ∃ r, foldAll op xs = some r ∧ AllSome P r :=
  (foldlM_combine h xs allSome_none hxs).1

theorem foldAll_append (h : AssocOn P op) {xs ys : List α} (hxs : ∀ x ∈ xs, P x)
    (hys : ∀ y ∈ ys, P y) :
    foldAll op (xs ++ ys) =
      (foldAll op xs).bind fun a => (foldAll op ys).bind fun b => combine op a b := by
  obtain ⟨a, ha, haP⟩ := foldAll_total h hxs
  rw [foldAll, List.foldlM_append]
  change (foldAll op xs).bind _ = _
  rw [ha, Option.bind_some, Option.bind_some]
  exact (foldlM_combine h ys haP hys).2

theorem foldAll_append_of (h : AssocOn P op) {xs ys : List α} (hxs : ∀ x ∈ xs, P x)
    (hys : ∀ y ∈ ys, P y) {a b : Option α} (ha : foldAll op xs = some a)
    (hb : foldAll op ys = some b) : foldAll op (xs ++ ys) = combine op a b := by
  rw [foldAll_append h hxs hys, ha, hb, Option.bind_some, Option.bind_some]

end Lib
end TreePass
