import Mathlib.Tactic.Common

/-!
# Stretches of indices in blocks

Indices fall into blocks of one length, and some of them have a property.  Two indices are on one
stretch if they are in one block and everything from one to the other has the property.

* `Stretch` is an equivalence on the indices with the property.
* `Bounds` are the ends of the stretch of an index, and `Bounds.stretch_iff` says that there is one
  stretch between them.
* `stretch_without_iff`: leaving out other stretches does not change a stretch.
-/

namespace TreePass
namespace Lib

/-- Everything from `p` to `q` is in one block of length `n` and has the property. -/
def Stretch (P : Nat → Prop) (n p q : Nat) : Prop :=
  p / n = q / n ∧ ∀ r, p ≤ r ∧ r ≤ q ∨ q ≤ r ∧ r ≤ p → P r

namespace Stretch

variable {P : Nat → Prop} {n p q r : Nat}

theorem left (h : Stretch P n p q) : P p := by
  apply h.2
  omega

theorem right (h : Stretch P n p q) : P q := by
  apply h.2
  omega

theorem refl (hp : P p) : Stretch P n p p := by
  refine ⟨rfl, ?_⟩
  intro r hr
  obtain rfl : r = p := by omega
  exact hp

theorem symm (h : Stretch P n p q) : Stretch P n q p := by
  refine ⟨h.1.symm, ?_⟩
  intro r hr
  exact h.2 r hr.symm

theorem trans (h : Stretch P n p q) (h' : Stretch P n q r) : Stretch P n p r := by
  refine ⟨h.1.trans h'.1, ?_⟩
  intro x hx
  -- Whatever is between the ends is on one of the two sides of the middle.
  by_cases hleft : p ≤ x ∧ x ≤ q ∨ q ≤ x ∧ x ≤ p
  · exact h.2 x hleft
  · apply h'.2 x
    omega

theorem mono {Q : Nat → Prop} (h : Stretch P n p q) (hPQ : ∀ r, P r → Q r) : Stretch Q n p q :=
  ⟨h.1, fun r hr => hPQ r (h.2 r hr)⟩

theorem between (h : Stretch P n p q) (hr : p ≤ r ∧ r ≤ q ∨ q ≤ r ∧ r ≤ p) : Stretch P n p r := by
  have hblock : p / n = r / n := by
    have hpq := h.1
    rcases hr with ⟨hlo, hhi⟩ | ⟨hlo, hhi⟩
    · have h1 := Nat.div_le_div_right (c := n) hlo
      have h2 := Nat.div_le_div_right (c := n) hhi
      omega
    · have h1 := Nat.div_le_div_right (c := n) hlo
      have h2 := Nat.div_le_div_right (c := n) hhi
      omega
  refine ⟨hblock, ?_⟩
  intro x hx
  apply h.2
  omega

end Stretch

/-! ## The ends of a stretch -/

/-- The property holds from `lo` to `hi`, all in the block of `p`, and no further in it. -/
structure Bounds (P : Nat → Prop) (n p lo hi : Nat) : Prop where
  lo_le : lo ≤ p
  le_hi : p ≤ hi
  inside : ∀ r, lo ≤ r → r ≤ hi → r / n = p / n ∧ P r
  below : ∀ r, r + 1 = lo → r / n = p / n → ¬ P r
  above : (hi + 1) / n = p / n → ¬ P (hi + 1)

theorem Bounds.stretch_iff {P : Nat → Prop} {n p lo hi q : Nat} (h : Bounds P n p lo hi) :
    Stretch P n p q ↔ lo ≤ q ∧ q ≤ hi := by
  have hlo := h.lo_le
  have hhi := h.le_hi
  constructor
  · intro hq
    constructor
    · -- Behind the lower end the stretch would pass the index before it.
      by_contra hlt
      obtain ⟨r, rfl⟩ : ∃ r, lo = r + 1 := ⟨lo - 1, by omega⟩
      have hr := hq.between (r := r) (by omega)
      exact h.below r rfl hr.1.symm hr.right
    · by_contra hlt
      have hr := hq.between (r := hi + 1) (by omega)
      exact h.above hr.1.symm hr.right
  · rintro ⟨hqlo, hqhi⟩
    refine ⟨(h.inside q hqlo hqhi).1.symm, ?_⟩
    intro r hr
    exact (h.inside r (by omega) (by omega)).2

theorem stretch_without_iff {P gone : Nat → Prop} {n p q : Nat}
    (hgone : ∀ r r', gone r → Stretch P n r r' → gone r') (hp : ¬ gone p) :
    Stretch (fun r => P r ∧ ¬ gone r) n p q ↔ Stretch P n p q := by
  constructor
  · intro h
    exact h.mono fun r hr => hr.1
  · intro h
    refine ⟨h.1, ?_⟩
    intro r hr
    have hpr := h.between hr
    exact ⟨hpr.right, fun hg => hp (hgone r p hg hpr.symm)⟩

/-! ## Blocks -/

theorem mod_succ_of_same_block {n p : Nat} (h : p / n = (p + 1) / n) :
    (p + 1) % n = p % n + 1 := by
  have h1 := Nat.div_add_mod p n
  have h2 := Nat.div_add_mod (p + 1) n
  rw [h] at h1
  omega

end Lib
end TreePass
