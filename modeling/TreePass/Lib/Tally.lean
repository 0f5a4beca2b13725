import Mathlib.Algebra.BigOperators.Fin
import Mathlib.Algebra.BigOperators.Group.Finset.Basic
import Mathlib.Algebra.Order.BigOperators.Group.Finset
import Mathlib.Tactic.Abel

/-!
# Tallies

What `n` threads account for together is the sum of what each of them accounts for.  A step of one
thread changes one term of such a sum.
-/

namespace TreePass
namespace Lib

variable {n : Nat} {β : Type*}

theorem tally_update {M : Type*} [AddCommMonoid M] (f : Fin n → β → M) (g : Fin n → β) (t : Fin n)
    (x : β) : ∑ i, f i (Function.update g t x i) + f t (g t) = ∑ i, f i (g i) + f t x := by
  have hrest : ∑ i ∈ Finset.univ.erase t, f i (Function.update g t x i) =
      ∑ i ∈ Finset.univ.erase t, f i (g i) := by
    refine Finset.sum_congr rfl fun i hi => ?_
    rw [Function.update_of_ne (Finset.ne_of_mem_erase hi)]
  have hold := Finset.add_sum_erase Finset.univ (fun i => f i (g i)) (Finset.mem_univ t)
  have hnew := Finset.add_sum_erase Finset.univ (fun i => f i (Function.update g t x i))
    (Finset.mem_univ t)
  rw [Function.update_self, hrest] at hnew
  rw [← hold, ← hnew]
  abel

variable (f : Fin n → β → Nat) (g : Fin n → β)

theorem le_tally (t : Fin n) : f t (g t) ≤ ∑ i, f i (g i) :=
  Finset.single_le_sum (f := fun i => f i (g i)) (fun _ _ => Nat.zero_le _) (Finset.mem_univ t)

theorem add_le_tally {t r : Fin n} (hne : t ≠ r) : f t (g t) + f r (g r) ≤ ∑ i, f i (g i) := by
  have hsplit := Finset.add_sum_erase Finset.univ (fun i => f i (g i)) (Finset.mem_univ t)
  have hmem : r ∈ Finset.univ.erase t := Finset.mem_erase.mpr ⟨hne.symm, Finset.mem_univ r⟩
  have hle : f r (g r) ≤ ∑ i ∈ Finset.univ.erase t, f i (g i) :=
    Finset.single_le_sum (f := fun i => f i (g i)) (fun _ _ => Nat.zero_le _) hmem
  omega

end Lib
end TreePass
