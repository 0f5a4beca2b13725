import TreePass.Lib.Halving
import TreePass.Btree.Rebuild

/-!
# The plan of a leaf split

`btree_build_leaf_splitting_plan` scans the old entries with the new one between them, and leaves
out the one that is replaced.

* `buildLeafSplittingPlan_eq`: the plan is the scan of `Lib.leftCount` over the list of entries after
  the update.
* The two halves of the plan, with the update, are the two parts of this list.
-/

namespace TreePass
namespace Btree

open Lib

variable {K : Type} {cfg : Config K}

/-- The bytes an entry takes together with its place in the offsets table. -/
def Entry.weight (cfg : Config K) (entry : Entry K) : Nat := sizeofTableEntry + entry.sizeof cfg

namespace LeafIncorporateSpec

variable {spec : LeafIncorporateSpec K}

def behind (spec : LeafIncorporateSpec K) : Nat :=
  if spec.oldEntryState = .stillExists then spec.idx + 1 else spec.idx

theorem idx_le_behind (spec : LeafIncorporateSpec K) : spec.idx ≤ spec.behind := by
  rw [behind]
  split <;> omega

theorem Within.behind_le {n : Nat} (h : spec.Within n) : spec.behind ≤ n := by
  rw [behind]
  split
  next hstill => exact h.2 hstill
  next => exact h.1

theorem applyTo_eq {l : List (Entry K)} (h : spec.Within l.length) :
    spec.applyTo l = l.take spec.idx ++ spec.newEntry :: l.drop spec.behind := by
  rw [applyTo, behind]
  cases hstate : spec.oldEntryState with
  | stillExists =>
      rw [if_pos rfl]
      simp only [Page.setAt]
      rw [if_pos (h.2 hstate), List.set_eq_take_append_cons_drop, if_pos (h.2 hstate)]
  | didNotExist => rfl
  | hasBeenRemoved => rfl

theorem kept_drop {α : Type*} {l : List α} (h : spec.Within l.length) {i : Nat} (hi : i ≤ spec.idx) :
    spec.kept i (l.drop i) = (l.take spec.idx).drop i ++ l.drop spec.behind := by
  have hsplit : l.drop i = (l.take spec.idx).drop i ++ l.drop spec.idx := by
    conv_lhs => rw [← List.take_append_drop spec.idx l]
    rw [List.drop_append_of_le_length (by rw [List.length_take_of_le h.1]; exact hi)]
  have hlen : ((l.take spec.idx).drop i).length = spec.idx - i := by
    rw [List.length_drop, List.length_take_of_le h.1]
  rw [kept, behind]
  by_cases hstill : spec.oldEntryState = .stillExists
  · have hdrop : (l.drop spec.idx).eraseIdx 0 = l.drop (spec.idx + 1) := by
      rw [List.drop_eq_getElem_cons (h.2 hstill), List.eraseIdx_cons_zero]
    rw [if_pos ⟨hstill, hi⟩, if_pos hstill, hsplit, List.eraseIdx_append_of_length_le hlen.le, hlen,
      Nat.sub_self, hdrop]
  · rw [if_neg fun hold => hstill hold.1, if_neg hstill, hsplit]

theorem kept_of_behind_le {α : Type*} {l : List α} {i : Nat} (hi : spec.behind ≤ i) :
    spec.kept i l = l := by
  rw [kept, if_neg]
  rintro ⟨hstill, hle⟩
  rw [behind, if_pos hstill] at hi
  omega

theorem afterDropping_of_behind_le {first n : Nat} (hfirst : spec.behind ≤ first) :
    spec.afterDropping first n = spec := by
  rw [afterDropping, if_neg]
  rintro ⟨hstill, hle, -⟩
  rw [behind, if_pos hstill] at hfirst
  omega

theorem applyTo_kept {l : List (Entry K)} (h : spec.Within l.length) {i : Nat} (hi : i ≤ spec.idx)
    {moved : LeafIncorporateSpec K} (hidx : moved.idx = spec.idx - i)
    (hgone : moved.oldEntryState ≠ .stillExists) (hentry : moved.newEntry = spec.newEntry) :
    moved.applyTo (spec.kept i (l.drop i)) = (spec.applyTo l).drop i := by
  have hlen : ((l.take spec.idx).drop i).length = spec.idx - i := by
    rw [List.length_drop, List.length_take_of_le h.1]
  have hbehind : moved.behind = spec.idx - i := by
    rw [behind, if_neg hgone, hidx]
  have hwithin : moved.Within (spec.kept i (l.drop i)).length :=
    ⟨hidx ▸ spec.le_length_kept hi h, fun hstill => absurd hstill hgone⟩
  rw [applyTo_eq hwithin, applyTo_eq h, hbehind, hidx, hentry, kept_drop h hi,
    List.take_left' hlen, List.drop_left' hlen,
    List.drop_append_of_le_length (by rw [List.length_take_of_le h.1]; exact hi)]

theorem applyTo_take {l : List (Entry K)} (h : spec.Within l.length) {n : Nat}
    (hn : spec.behind + n ≤ l.length) :
    spec.applyTo (l.take (spec.behind + n)) = (spec.applyTo l).take (spec.idx + 1 + n) := by
  have hle := spec.idx_le_behind
  have hwithin : spec.Within (l.take (spec.behind + n)).length := by
    rw [List.length_take_of_le hn]
    refine ⟨by omega, fun hstill => ?_⟩
    rw [behind, if_pos hstill]
    omega
  have hcount : spec.idx + 1 + n = (l.take spec.idx).length + (n + 1) := by
    rw [List.length_take_of_le h.1]
    omega
  rw [applyTo_eq hwithin, applyTo_eq h, hcount, List.take_length_add_append, List.take_succ_cons,
    List.take_take, Nat.min_eq_left (by omega), List.drop_take, Nat.add_sub_cancel_left]

theorem drop_applyTo {l : List (Entry K)} (h : spec.Within l.length) (n : Nat) :
    (spec.applyTo l).drop (spec.idx + 1 + n) = l.drop (spec.behind + n) := by
  have hcount : spec.idx + 1 + n = (l.take spec.idx).length + (n + 1) := by
    rw [List.length_take_of_le h.1]
    omega
  rw [applyTo_eq h, hcount, List.drop_length_add_append, List.drop_succ_cons, List.drop_drop]

theorem take_applyTo {l : List (Entry K)} (h : spec.Within l.length) {n : Nat} (hn : n ≤ spec.idx) :
    (spec.applyTo l).take n = l.take n := by
  rw [applyTo_eq h, List.take_append_of_le_length (by rw [List.length_take_of_le h.1]; exact hn),
    List.take_take, Nat.min_eq_left hn]

theorem getElem?_applyTo {l : List (Entry K)} (h : spec.Within l.length) :
    (spec.applyTo l)[spec.idx]? = some spec.newEntry := by
  have hfront : (l.take spec.idx).length = spec.idx := List.length_take_of_le h.1
  rw [applyTo_eq h, List.getElem?_append_right hfront.le, hfront, Nat.sub_self,
    List.getElem?_cons_zero]

end LeafIncorporateSpec

namespace Page

variable {p : Page K} {spec : LeafIncorporateSpec K}

theorem mostOfEntryIsOnLeftSide_iff {totalBytes leftBytes : Nat} {entry : Entry K} :
    mostOfEntryIsOnLeftSide totalBytes leftBytes (entry.sizeof cfg) = true ↔
      leftBytes + entry.weight cfg < (totalBytes + entry.weight cfg) / 2 := by
  rw [mostOfEntryIsOnLeftSide, decide_eq_true_eq, Entry.weight, ← Nat.add_assoc, ← Nat.add_assoc]

theorem planMoveMoreEntriesToLeft_eq (cfg : Config K) (totalBytes : Nat) (l : List (Slot K)) :
    ∀ leftBytes splitIdx,
      let weights := (l.map Slot.entry).map (Entry.weight cfg)
      planMoveMoreEntriesToLeft cfg totalBytes leftBytes splitIdx l =
        (leftBytes + (weights.take (leftCount totalBytes leftBytes weights)).sum,
          splitIdx + leftCount totalBytes leftBytes weights) := by
  induction l with
  | nil => exact fun _ _ => rfl
  | cons slot l ih =>
      intro leftBytes splitIdx
      have hmost : mostOfEntryIsOnLeftSide totalBytes leftBytes (slot.entry.sizeof cfg) = true ↔
          leftBytes + slot.entry.weight cfg < (totalBytes + slot.entry.weight cfg) / 2 :=
        mostOfEntryIsOnLeftSide_iff
      rw [planMoveMoreEntriesToLeft]
      simp only [List.map_cons]
      by_cases hlt : leftBytes + slot.entry.weight cfg <
          (totalBytes + slot.entry.weight cfg) / 2
      · rw [if_pos (hmost.mpr hlt), leftCount_cons_of_lt hlt, List.take_succ_cons, List.sum_cons]
        have hrest := ih (leftBytes + slot.entry.weight cfg) (splitIdx + 1)
        simp only at hrest
        rw [Entry.weight] at hrest ⊢
        rw [hrest]
        refine Prod.ext ?_ ?_
        · exact Nat.add_assoc _ _ _
        · simp only
          omega
      · rw [if_neg (mt hmost.mp hlt), leftCount_cons_of_not_lt hlt]
        rfl

theorem sum_weights (cfg : Config K) (l : List (Slot K)) :
    ((l.map Slot.entry).map (Entry.weight cfg)).sum =
      sizeofTableEntry * l.length + liveBytes cfg l := by
  induction l with
  | nil => rfl
  | cons slot l ih =>
      rw [List.map_cons, List.map_cons, List.sum_cons, ih, liveBytes_cons, List.length_cons,
        Entry.weight, Nat.mul_succ]
      omega

theorem sum_weights_applyTo (cfg : Config K) (hspec : spec.Within p.numEntries) :
    ((spec.applyTo p.entries).map (Entry.weight cfg)).sum =
      liveBytes cfg (keptSlots spec 0 p.slots) + spec.newEntry.sizeof cfg +
        sizeofTableEntry * (spec.applyTo p.entries).length := by
  have hwithin : spec.Within p.entries.length := by
    rw [length_entries]
    exact hspec
  have hkept : (keptSlots spec 0 p.slots).map Slot.entry =
      p.entries.take spec.idx ++ p.entries.drop spec.behind := by
    rw [keptSlots_eq, spec.map_kept]
    exact LeafIncorporateSpec.kept_drop hwithin (Nat.zero_le _)
  have hbytes := sum_weights cfg (keptSlots spec 0 p.slots)
  rw [hkept, List.map_append, List.sum_append] at hbytes
  have hlen := congrArg List.length hkept
  rw [List.length_map, List.length_append] at hlen
  rw [LeafIncorporateSpec.applyTo_eq hwithin, List.map_append, List.map_cons, List.sum_append,
    List.sum_cons, List.length_append, List.length_cons, Entry.weight]
  rw [hlen] at hbytes
  simp only [sizeofTableEntry] at hbytes ⊢
  omega

theorem length_applyTo (hspec : spec.Within p.numEntries) :
    (spec.applyTo p.entries).length =
      p.numEntries + if spec.oldEntryState = .stillExists then 0 else 1 := by
  have hwithin : spec.Within p.entries.length := by
    rw [length_entries]
    exact hspec
  have hbehind := hspec.behind_le
  have hidx := hspec.1
  rw [LeafIncorporateSpec.applyTo_eq hwithin, List.length_append, List.length_cons,
    List.length_take_of_le hwithin.1, List.length_drop, length_entries]
  rw [LeafIncorporateSpec.behind] at hbehind ⊢
  split <;> rename_i hstill
  · rw [if_pos hstill] at hbehind
    omega
  · rw [if_neg hstill] at hbehind
    omega

/-- How many entries of the list after the update go to the left half. -/
def leftEntries (cfg : Config K) (p : Page K) (spec : LeafIncorporateSpec K) : Nat :=
  let weights := (spec.applyTo p.entries).map (Entry.weight cfg)
  leftCount weights.sum 0 weights

theorem leftEntries_lt (cfg : Config K) (hspec : spec.Within p.numEntries) :
    p.leftEntries cfg spec < (spec.applyTo p.entries).length := by
  have hwithin : spec.Within p.entries.length := by
    rw [length_entries]
    exact hspec
  have hne : (spec.applyTo p.entries).map (Entry.weight cfg) ≠ [] := by
    rw [LeafIncorporateSpec.applyTo_eq hwithin, List.map_append, List.map_cons]
    exact List.append_ne_nil_of_right_ne_nil _ (List.cons_ne_nil _ _)
  rw [← List.length_map (Entry.weight cfg), leftEntries]
  exact leftCount_lt hne (Nat.zero_add _)

theorem buildLeafSplittingPlan_eq (cfg : Config K) (hspec : spec.Within p.numEntries) :
    p.buildLeafSplittingPlan cfg spec =
      if p.leftEntries cfg spec ≤ spec.idx then ⟨p.leftEntries cfg spec, false⟩
      else ⟨spec.behind + (p.leftEntries cfg spec - (spec.idx + 1)), true⟩ := by
  have hwithin : spec.Within p.entries.length := by
    rw [length_entries]
    exact hspec
  have htotal : spec.newEntry.sizeof cfg + liveBytes cfg (keptSlots spec 0 p.slots) +
      (p.numEntries + if spec.oldEntryState = .stillExists then 0 else 1) * sizeofTableEntry =
      ((spec.applyTo p.entries).map (Entry.weight cfg)).sum := by
    rw [sum_weights_applyTo cfg hspec, length_applyTo hspec, Nat.mul_comm sizeofTableEntry]
    omega
  have hparts : (spec.applyTo p.entries).map (Entry.weight cfg) =
      ((p.slots.take spec.idx).map Slot.entry).map (Entry.weight cfg) ++
        (spec.newEntry.weight cfg ::
          ((p.slots.drop spec.behind).map Slot.entry).map (Entry.weight cfg)) := by
    rw [LeafIncorporateSpec.applyTo_eq hwithin, List.map_append, List.map_cons]
    simp only [List.map_take, List.map_drop, entries]
  have hfront : (((p.slots.take spec.idx).map Slot.entry).map (Entry.weight cfg)).length =
      spec.idx := by
    rw [List.length_map, List.length_map]
    exact List.length_take_of_le hspec.1
  have hcode : ∀ total, total = ((spec.applyTo p.entries).map (Entry.weight cfg)).sum →
      p.buildLeafSplittingPlan cfg spec =
        let moved := planMoveMoreEntriesToLeft cfg total 0 0 (p.slots.take spec.idx)
        if moved.2 = spec.idx ∧
            mostOfEntryIsOnLeftSide total moved.1 (spec.newEntry.sizeof cfg) then
          let splitIdx := if spec.oldEntryState = .stillExists then moved.2 + 1 else moved.2
          ⟨(planMoveMoreEntriesToLeft cfg total
            (moved.1 + (sizeofTableEntry + spec.newEntry.sizeof cfg)) splitIdx
            (p.slots.drop splitIdx)).2, true⟩
        else ⟨moved.2, false⟩ := by
    rintro total htotal'
    rw [← htotal] at htotal'
    obtain rfl := htotal'
    rfl
  rw [hcode _ rfl, leftEntries]
  simp only
  generalize ((spec.applyTo p.entries).map (Entry.weight cfg)).sum = total
  rw [hparts, planMoveMoreEntriesToLeft_eq]
  simp only [Nat.zero_add]
  rcases (leftCount_le total 0
    (((p.slots.take spec.idx).map Slot.entry).map (Entry.weight cfg))).lt_or_eq with hlt | heq
  · -- the scan stops in front of the update
    rw [leftCount_append_of_lt _ hlt]
    rw [hfront] at hlt
    rw [if_neg fun hcon => hlt.ne hcon.1, if_pos hlt.le]
  · rw [leftCount_append_of_eq _ heq, heq, hfront, List.take_of_length_le hfront.le, Nat.zero_add]
    generalize (((p.slots.take spec.idx).map Slot.entry).map (Entry.weight cfg)).sum = front
    have hmost : mostOfEntryIsOnLeftSide total front (spec.newEntry.sizeof cfg) = true ↔
        front + spec.newEntry.weight cfg < (total + spec.newEntry.weight cfg) / 2 :=
      mostOfEntryIsOnLeftSide_iff
    by_cases hleft : front + spec.newEntry.weight cfg < (total + spec.newEntry.weight cfg) / 2
    · have hnot : ∀ n, ¬ spec.idx + (n + 1) ≤ spec.idx := fun n => by omega
      rw [leftCount_cons_of_lt hleft, if_pos ⟨rfl, hmost.mpr hleft⟩, if_neg (hnot _)]
      change LeafSplittingPlan.mk (planMoveMoreEntriesToLeft cfg total
        (front + spec.newEntry.weight cfg) spec.behind (p.slots.drop spec.behind)).2 true = _
      rw [planMoveMoreEntriesToLeft_eq]
      simp only
      congr 1
      omega
    · rw [leftCount_cons_of_not_lt hleft, if_neg fun hcon => hleft (hmost.mp hcon.2)]
      exact (if_pos (Nat.le_refl spec.idx)).symm

end Page
end Btree
end TreePass
