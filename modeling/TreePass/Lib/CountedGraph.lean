import Mathlib.Algebra.BigOperators.Group.Finset.Basic
import Mathlib.Algebra.Order.BigOperators.Group.Finset
import Mathlib.Data.Finset.Basic
import Mathlib.Data.List.Count

/-!
# Graphs with counted references

The nodes of a finite graph count the references to them: one for every time they are a child of a
node that is alive, some from outside, and one for every *debt*, a reference that has lost its owner
and is still to be given back.

* `Balanced` says that the counts are right.
* `Balanced.pay` gives a reference back; `Balanced.remove` takes out a node without references and
  makes its references to its children debts.
* `Doomed` are the nodes that lose their last reference once some roots are taken out.
-/

namespace TreePass
namespace Lib

variable {α : Type*} [DecidableEq α]

def childCount (children : α → List α) (alive : Finset α) (a : α) : Nat :=
  ∑ p ∈ alive, (children p).count a

/-- The counts of the nodes that are alive are right. -/
structure Balanced (children : α → List α) (ext count : α → Nat) (alive : Finset α)
    (debts : List α) : Prop where
  count_eq : ∀ a ∈ alive, count a = ext a + childCount children alive a + debts.count a
  closed : ∀ p ∈ alive, ∀ c ∈ children p, c ∈ alive
  owed : ∀ a ∈ debts, a ∈ alive

/-- The nodes that go when the roots go: the roots, and every node all of whose references come from
such nodes. -/
inductive Doomed (children : α → List α) (ext : α → Nat) (alive : Finset α) (root : α → Prop) :
    α → Prop
  | root {a : α} (ha : root a) : Doomed children ext alive root a
  | orphan {a : α} (ha : a ∈ alive) (hext : ext a = 0) (hparent : ∃ p ∈ alive, a ∈ children p)
      (hall : ∀ p ∈ alive, a ∈ children p → Doomed children ext alive root p) :
      Doomed children ext alive root a

section

variable {children : α → List α} {ext count : α → Nat} {alive : Finset α} {debts : List α} {a : α}

theorem childCount_eq_zero_iff :
    childCount children alive a = 0 ↔ ∀ p ∈ alive, a ∉ children p := by
  rw [childCount, Finset.sum_eq_zero_iff]
  exact forall₂_congr fun p _ => List.count_eq_zero

theorem childCount_erase {b : α} (hb : b ∈ alive) : childCount children (alive.erase b) a +
    (children b).count a = childCount children alive a := by
  rw [childCount, childCount, Finset.sum_erase_add _ _ hb]

namespace Balanced

theorem congr (h : Balanced children ext count alive debts) {count' : α → Nat}
    (hsame : ∀ b ∈ alive, count' b = count b) : Balanced children ext count' alive debts where
  count_eq := fun b hb => (hsame b hb).trans (h.count_eq b hb)
  closed := h.closed
  owed := h.owed

theorem count_pos (h : Balanced children ext count alive (a :: debts)) : 0 < count a := by
  rw [h.count_eq a (h.owed a List.mem_cons_self), List.count_cons_self]
  omega

theorem pay (h : Balanced children ext count alive (a :: debts)) :
    Balanced children ext (Function.update count a (count a - 1)) alive debts where
  count_eq := fun b hb => by
    have hcount := h.count_eq b hb
    rw [List.count_cons] at hcount
    by_cases hba : b = a
    · subst hba
      rw [if_pos (beq_self_eq_true b)] at hcount
      rw [Function.update_self]
      omega
    · rw [if_neg fun hbeq => hba (beq_iff_eq.mp hbeq).symm] at hcount
      rw [Function.update_of_ne hba]
      omega
  closed := h.closed
  owed := fun b hb => h.owed b (List.mem_cons_of_mem _ hb)

theorem unreferenced (h : Balanced children ext count alive debts) (ha : a ∈ alive)
    (hzero : count a = 0) : ext a = 0 ∧ (∀ p ∈ alive, a ∉ children p) ∧ a ∉ debts := by
  have hcount := h.count_eq a ha
  exact ⟨by omega, childCount_eq_zero_iff.mp (by omega), List.count_eq_zero.mp (by omega)⟩

theorem remove (h : Balanced children ext count alive debts) (ha : a ∈ alive) (hzero : count a = 0) :
    Balanced children ext count (alive.erase a) (children a ++ debts) := by
  obtain ⟨-, hparents, howed⟩ := h.unreferenced ha hzero
  constructor
  · intro b hb
    rw [h.count_eq b (Finset.mem_of_mem_erase hb), ← childCount_erase ha, List.count_append]
    omega
  · intro p hp c hc
    refine Finset.mem_erase.mpr ⟨?_, h.closed p (Finset.mem_of_mem_erase hp) c hc⟩
    rintro rfl
    exact hparents p (Finset.mem_of_mem_erase hp) hc
  · intro b hb
    rcases List.mem_append.mp hb with hchild | hdebt
    · refine Finset.mem_erase.mpr ⟨?_, h.closed a ha b hchild⟩
      rintro rfl
      exact hparents b ha hchild
    · refine Finset.mem_erase.mpr ⟨?_, h.owed b hdebt⟩
      rintro rfl
      exact howed hdebt

/-- **A node that has lost its last reference is doomed**, if all nodes that are gone are. -/
theorem doomed {all : Finset α} {root : α → Prop} (h : Balanced children ext count alive debts)
    (hsub : alive ⊆ all) (hgone : ∀ b ∈ all, b ∉ alive → Doomed children ext all root b)
    (ha : a ∈ alive) (hzero : count a = 0) (hparent : ∃ p ∈ all, a ∈ children p) :
    Doomed children ext all root a := by
  obtain ⟨hext, hparents, -⟩ := h.unreferenced ha hzero
  refine .orphan (hsub ha) hext hparent fun p hp hchild => hgone p hp fun halive => ?_
  exact hparents p halive hchild

/-- **A doomed node does not survive**: if the roots are gone, and a node without references that is
still there never had a parent. -/
theorem not_mem_of_doomed {all : Finset α} {root : α → Prop}
    (h : Balanced children ext count alive []) (hsub : alive ⊆ all)
    (hroot : ∀ b, root b → b ∉ alive)
    (hleft : ∀ b ∈ alive, count b = 0 → ∀ p ∈ all, b ∉ children p)
    (hdoomed : Doomed children ext all root a) : a ∉ alive := by
  induction hdoomed with
  | root ha => exact hroot _ ha
  | @orphan b hb hext hparent hall ih =>
      intro halive
      obtain ⟨p, hp, hchild⟩ := hparent
      refine hleft b halive ?_ p hp hchild
      have hnone : childCount children alive b = 0 :=
        childCount_eq_zero_iff.mpr fun q hq hqb => ih q (hsub hq) hqb hq
      rw [h.count_eq b halive, hext, hnone, List.count_nil]

end Balanced

end

end Lib
end TreePass
