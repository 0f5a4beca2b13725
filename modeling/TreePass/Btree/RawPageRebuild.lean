import TreePass.Btree.RawPageHolds

/-!
# Rebuilding a page in memory

The functions that copy entries from one page to another, or cut a page short, on memory that holds
the entries of a page.

* `copyLeafEntries_holds` and `copyIndexEntries_holds` are by induction on the turns of the loop;
  what carries them is that the target has room for everything that is still to come.
* From this follows, for each function, that it leaves memory that holds the result.
-/

namespace TreePass
namespace Btree
namespace RawPage

open Lib

variable {K : Type} {cfg : Config K} {p source : RawPage K} {q qs : Page K}

/-! ## The loops -/

private theorem drop_slots {i : Nat} (hi : i < qs.numEntries) :
    ∃ slot, qs.slots[i]? = some slot ∧ qs.slots.drop i = slot :: qs.slots.drop (i + 1) :=
  ⟨qs.slots[i], List.getElem?_eq_getElem hi, List.drop_eq_getElem_cons hi⟩

theorem Holds.resetNodeEntries (h : p.Holds q) :
    (p.resetNodeEntries cfg).Holds (q.resetNodeEntries cfg) :=
  ⟨h.prevAddr, h.nextAddr, h.nextExtentAddr, h.generation, h.height, rfl, rfl,
    fun _ _ hslot => by cases hslot⟩

theorem Holds.copyLeafEntries (hs : source.Holds qs) (hleaf : qs.IsLeaf)
    (spec : LeafIncorporateSpec K) (turns : Nat) :
    ∀ (i : Nat) {p : RawPage K} {q : Page K}, i + turns = qs.numEntries → p.Holds q →
      q.Placed cfg → q.IsLeaf → Page.HasRoom cfg q (Page.keptSlots spec i (qs.slots.drop i)) →
      ∃ p', source.copyLeafEntries cfg spec turns i q.numEntries p = .ok p' ∧
        p'.Holds (q.setLeafEntries cfg q.numEntries
          (Page.keptSlots spec i (qs.slots.drop i))) := by
  induction turns with
  | zero =>
      intro i p q hi h _ _ _
      have hend : qs.slots.drop i = [] := List.drop_eq_nil_of_le hi.ge
      rw [hend]
      exact ⟨p, rfl, h⟩
  | succ turns ih =>
      intro i p q hi h hq hqleaf hroom
      have hlt : i < qs.numEntries := by omega
      obtain ⟨slot, hslot, hdrop⟩ := drop_slots hlt
      rw [hdrop, Page.keptSlots] at hroom ⊢
      by_cases hskip : spec.oldEntryState = .stillExists ∧ spec.idx = i
      · rw [if_pos hskip] at hroom ⊢
        rw [RawPage.copyLeafEntries, if_pos hskip]
        exact ih (i + 1) (by omega) h hq hqleaf hroom
      · rw [if_neg hskip] at hroom ⊢
        obtain ⟨e, he⟩ := hleaf slot.entry
          (List.mem_map.mpr ⟨slot, List.mem_of_getElem? hslot, rfl⟩)
        obtain ⟨q', hset, hplaced, hentries, hnum, hroom', -⟩ := hroom.setLeafEntry hq he
        obtain ⟨x, hx, hleaves⟩ := h.setLeafEntry hq hqleaf (le_refl _) e.key e.msg
        rw [hset] at hleaves
        obtain ⟨p', rfl, hp'⟩ := hleaves
        have hleaf' : q'.IsLeaf := fun entry hentry => by
          rw [hentries] at hentry
          rcases List.mem_append.mp hentry with hold | hnew
          · exact hqleaf entry hold
          · exact ⟨e, (List.mem_singleton.mp hnew).trans he⟩
        obtain ⟨p'', hloop, hp''⟩ := ih (i + 1) (by omega) hp' hplaced hleaf' hroom'
        refine ⟨p'', ?_, ?_⟩
        · rw [RawPage.copyLeafEntries, if_neg hskip, hs.getLeafEntry hslot he]
          simp only [bind, Except.bind, hx]
          rw [← hnum]
          exact hloop
        · rw [Page.setLeafEntries, he]
          simp only [hset, Option.getD_some]
          rw [← hnum]
          exact hp''

theorem Holds.copyIndexEntries (hs : source.Holds qs) (hindex : qs.IsIndex) (first turns : Nat) :
    ∀ {p : RawPage K} {q : Page K}, first + q.numEntries + turns = qs.numEntries → p.Holds q →
      q.Placed cfg → q.IsIndex → Page.HasRoom cfg q (qs.slots.drop (first + q.numEntries)) →
      ∃ p' q', source.copyIndexEntries cfg turns first q.numEntries p = .ok p' ∧
        q.setIndexEntries cfg q.numEntries (qs.slots.drop (first + q.numEntries)) = some q' ∧
        p'.Holds q' := by
  induction turns with
  | zero =>
      intro p q hi h _ _ _
      have hend : qs.slots.drop (first + q.numEntries) = [] := List.drop_eq_nil_of_le hi.ge
      rw [hend]
      exact ⟨p, q, rfl, rfl, h⟩
  | succ turns ih =>
      intro p q hi h hq hqindex hroom
      have hlt : first + q.numEntries < qs.numEntries := by omega
      obtain ⟨slot, hslot, hdrop⟩ := drop_slots hlt
      rw [hdrop] at hroom ⊢
      obtain ⟨e, he⟩ := hindex slot.entry
        (List.mem_map.mpr ⟨slot, List.mem_of_getElem? hslot, rfl⟩)
      obtain ⟨q', hset, hplaced, hentries, hnum, hroom', -⟩ := hroom.setIndexEntry hq he
      obtain ⟨x, hx, hleaves⟩ := h.setIndexEntry hq hqindex (le_refl _) e.pivot e.maskedChildAddr
        e.pivotData.stats
      rw [hset] at hleaves
      obtain ⟨p', rfl, hp'⟩ := hleaves
      have hindex' : q'.IsIndex := fun entry hentry => by
        rw [hentries] at hentry
        rcases List.mem_append.mp hentry with hold | hnew
        · exact hqindex entry hold
        · rw [List.mem_singleton.mp hnew, he]
          exact ⟨_, rfl⟩
      have hplace : first + q.numEntries + 1 = first + q'.numEntries := by omega
      rw [hplace] at hroom' ⊢
      obtain ⟨p'', q'', hloop, hsome, hp''⟩ := ih (by omega) hp' hplaced hindex' hroom'
      refine ⟨p'', q'', ?_, ?_, hp''⟩
      · rw [RawPage.copyIndexEntries, hs.getIndexEntry hslot he]
        simp only [bind, Except.bind, hx, if_true]
        rw [← hnum]
        exact hloop
      · rw [Page.setIndexEntries, he]
        simp only [hset, Option.bind_some]
        rw [← hnum]
        exact hsome

theorem Holds.lowestOffset (h : p.Holds q) (turns : Nat) : ∀ i low, i + turns ≤ q.numEntries →
    p.lowestOffset turns i low = .ok (((q.slots.drop i).take turns).foldl
      (fun low slot => min slot.offset low) low) := by
  induction turns with
  | zero => exact fun i low _ => rfl
  | succ turns ih =>
      intro i low hi
      have hlt : i < q.numEntries := by omega
      obtain ⟨slot, hslot, hdrop⟩ := drop_slots hlt
      have hmin : (if slot.offset < low then slot.offset else low) = min slot.offset low := by
        rw [min_def]
        split <;> split <;> omega
      rw [RawPage.lowestOffset, h.getOffset hslot, hdrop]
      simp only [bind, Except.bind, hmin]
      rw [ih (i + 1) _ (by omega)]
      rfl

/-! ## Leaves -/

section Leaf

variable (h : p.Holds q) (hq : q.Placed cfg) (hleaf : q.IsLeaf)

include h

omit hq hleaf in
theorem Holds.takeEntries {targetEntries : Nat} (ht : targetEntries ≤ q.numEntries) (low : Nat) :
    Holds { p with numEntries := targetEntries, nextEntry := low }
      { q with slots := q.slots.take targetEntries, nextEntry := low } := by
  refine ⟨h.prevAddr, h.nextAddr, h.nextExtentAddr, h.generation, h.height, rfl, ?_,
    fun i slot hslot => ?_⟩
  · exact (List.length_take_of_le ht).symm
  · obtain ⟨hi, hget⟩ := List.getElem?_eq_some_iff.mp hslot
    have hlt : i < targetEntries := by
      rw [List.length_take_of_le ht] at hi
      exact hi
    rw [List.getElem?_take_of_lt hlt] at hslot
    exact h.slot i slot hslot

omit hq hleaf in
theorem Holds.truncateLeaf (cfg : Config K) {targetEntries : Nat}
    (ht : targetEntries ≤ q.numEntries) :
    ∃ p', p.truncateLeaf cfg targetEntries = .ok p' ∧
      p'.Holds (q.truncateLeaf cfg targetEntries) := by
  have hlow := h.lowestOffset targetEntries 0 cfg.pageSize (by omega)
  refine ⟨_, ?_, h.takeEntries ht (q.lowestOffset cfg targetEntries)⟩
  rw [RawPage.truncateLeaf, hlow]
  rfl

include hq hleaf

theorem Holds.tryPerform {spec : LeafIncorporateSpec K} (hidx : spec.idx ≤ q.numEntries) :
    (∃ p' q' generation, p.tryPerformLeafIncorporateSpec cfg spec = .ok (some generation, p') ∧
      q.tryPerformLeafIncorporateSpec cfg spec = some (q', generation) ∧ p'.Holds q') ∨
    (p.tryPerformLeafIncorporateSpec cfg spec = .ok (none, p) ∧
      q.tryPerformLeafIncorporateSpec cfg spec = none) := by
  have hresult : ∀ {r : Except PageFault (Bool × RawPage K)} {o : Option (Page K)},
      Simulates r p o →
      let raw : Except PageFault (Option Nat × RawPage K) := r.bind fun r =>
        if r.1 then .ok (some r.2.generation, { r.2 with generation := r.2.generation + 1 })
        else .ok (none, r.2)
      let updated : Option (Page K × Nat) :=
        o.map fun h => ({ h with generation := h.generation + 1 }, h.generation)
      (∃ p' q' generation, raw = .ok (some generation, p') ∧ updated = some (q', generation) ∧
        p'.Holds q') ∨ (raw = .ok (none, p) ∧ updated = none) := by
    rintro r o ⟨x, rfl, hx⟩
    cases o with
    | none =>
        obtain rfl := hx
        exact Or.inr ⟨rfl, rfl⟩
    | some q' =>
        obtain ⟨p', rfl, hp'⟩ := hx
        have hgen : ({ p' with generation := p'.generation + 1 } : RawPage K).Holds
            { q' with generation := q'.generation + 1 } :=
          ⟨hp'.prevAddr, hp'.nextAddr, hp'.nextExtentAddr, congrArg Nat.succ hp'.generation,
            hp'.height, hp'.nextEntry, hp'.numEntries, hp'.slot⟩
        refine Or.inl ⟨_, _, q'.generation, ?_, rfl, hgen⟩
        simp only [Except.bind, if_true, hp'.generation]
  rw [RawPage.tryPerformLeafIncorporateSpec, Page.tryPerformLeafIncorporateSpec]
  cases hstate : spec.oldEntryState with
  | stillExists => exact hresult (h.setLeafEntry hq hleaf hidx _ _)
  | didNotExist => exact hresult (h.insertLeafEntry hq hleaf hidx _ _)
  | hasBeenRemoved => exact hresult (h.insertLeafEntry hq hleaf hidx _ _)

omit hq in
theorem Holds.canPerform (spec : LeafIncorporateSpec K) :
    p.canPerformLeafIncorporateSpec cfg spec = .ok (q.canPerformLeafIncorporateSpec cfg spec) := by
  rw [RawPage.canPerformLeafIncorporateSpec, Page.canPerformLeafIncorporateSpec, h.numEntries]
  cases spec.oldEntryState with
  | stillExists => exact h.canSetLeafEntry hleaf _ _ _
  | didNotExist => exact h.canSetLeafEntry hleaf _ _ _
  | hasBeenRemoved => exact h.canSetLeafEntry hleaf _ _ _

theorem Holds.copyToEmpty {p₀ : RawPage K} {q₀ : Page K} (h₀ : p₀.Holds q₀)
    (spec : LeafIncorporateSpec K) {i : Nat} (hi : i ≤ q.numEntries) :
    ∃ p', p.copyLeafEntries cfg spec (p.numEntries - i) i 0 (p₀.resetNodeEntries cfg) = .ok p' ∧
      p'.Holds ((q₀.resetNodeEntries cfg).setLeafEntries cfg 0
        (Page.keptSlots spec i (q.slots.drop i))) := by
  have hempty : (q₀.resetNodeEntries cfg).IsLeaf := fun _ hentry => absurd hentry List.not_mem_nil
  have hturns : i + (p.numEntries - i) = q.numEntries := by
    rw [h.numEntries]
    omega
  exact h.copyLeafEntries hleaf spec _ i hturns h₀.resetNodeEntries (hq.resetNodeEntries q₀) hempty
    (hq.hasRoom_reset (Page.keptSlots_sublist spec q.slots i) q₀)

theorem Holds.defragmentLeaf (spec : LeafIncorporateSpec K) :
    ∃ p', p.defragmentLeaf cfg spec = .ok (p', (q.defragmentLeaf cfg spec).2) ∧
      p'.Holds (q.defragmentLeaf cfg spec).1 := by
  obtain ⟨p', hloop, hp'⟩ := h.copyToEmpty hq hleaf h spec (Nat.zero_le _)
  refine ⟨p', ?_, hp'⟩
  rw [Nat.sub_zero] at hloop
  rw [RawPage.defragmentLeaf, hloop, h.numEntries]
  rfl

theorem Holds.splitLeafRightEntries (memory : PageMemory K) (leftAddr : Addr)
    (spec : LeafIncorporateSpec K) {plan : LeafSplittingPlan}
    (hsplit : plan.splitIdx ≤ q.numEntries) :
    ∃ right,
      p.copyLeafEntries cfg spec (p.numEntries - plan.splitIdx) plan.splitIdx 0
        (({ p with generation := p.generation + 1, prevAddr := leftAddr, memory := memory } :
          RawPage K).resetNodeEntries cfg) = .ok right ∧
      right.Holds (q.splitLeafRightEntries cfg leftAddr spec plan) := by
  let p₀ : RawPage K :=
    { p with generation := p.generation + 1, prevAddr := leftAddr, memory := memory, numEntries := 0 }
  let q₀ : Page K := { q with generation := q.generation + 1, prevAddr := leftAddr, slots := [] }
  have h₀ : p₀.Holds q₀ :=
    ⟨rfl, h.nextAddr, h.nextExtentAddr, congrArg Nat.succ h.generation, h.height, h.nextEntry, rfl,
      fun _ _ hslot => by cases hslot⟩
  exact h.copyToEmpty hq hleaf h₀ spec hsplit

theorem Holds.splitLeafBuildRightNode_left (memory : PageMemory K) (leftAddr : Addr)
    (spec : LeafIncorporateSpec K) {plan : LeafSplittingPlan}
    (hsplit : plan.splitIdx ≤ q.numEntries) (hplan : plan.insertionGoesLeft = true) :
    ∃ p', p.splitLeafBuildRightNode cfg memory leftAddr spec plan =
        .ok (p', spec.afterDropping plan.splitIdx q.numEntries) ∧
      p'.Holds (q.splitLeafRightEntries cfg leftAddr spec plan) := by
  obtain ⟨right, hloop, hheld⟩ := h.splitLeafRightEntries hq hleaf memory leftAddr spec hsplit
  refine ⟨right, ?_, hheld⟩
  simp only [h.numEntries] at hloop
  simp only [RawPage.splitLeafBuildRightNode, bind, Except.bind, h.numEntries, hloop, hplan, if_true]

theorem Holds.splitLeafBuildRightNode_right (memory : PageMemory K) (leftAddr : Addr)
    {spec : LeafIncorporateSpec K} {plan : LeafSplittingPlan}
    (hsplit : plan.splitIdx ≤ spec.idx) (hwithin : spec.Within q.numEntries)
    (hplan : plan.insertionGoesLeft = false) :
    let moved := { spec.afterDropping plan.splitIdx q.numEntries with idx := spec.idx - plan.splitIdx }
    (∃ p' q' generation,
      p.splitLeafBuildRightNode cfg memory leftAddr spec plan = .ok (p', moved) ∧
      (q.splitLeafRightEntries cfg leftAddr spec plan).tryPerformLeafIncorporateSpec cfg moved =
        some (q', generation) ∧ p'.Holds q') ∨
    (p.splitLeafBuildRightNode cfg memory leftAddr spec plan = .error .asserts ∧
      (q.splitLeafRightEntries cfg leftAddr spec plan).tryPerformLeafIncorporateSpec cfg moved =
        none) := by
  obtain ⟨right, hloop, hheld⟩ :=
    h.splitLeafRightEntries hq hleaf memory leftAddr spec (hsplit.trans hwithin.1)
  obtain ⟨hplaced, hentries, -⟩ := hq.splitLeafRightEntries hleaf leftAddr spec plan
  have hrightLeaf : (q.splitLeafRightEntries cfg leftAddr spec plan).IsLeaf := fun entry hentry => by
    rw [hentries] at hentry
    exact hleaf entry (List.mem_of_mem_drop ((spec.kept_sublist _ _).subset hentry))
  have hbound : spec.idx - plan.splitIdx ≤
      (q.splitLeafRightEntries cfg leftAddr spec plan).numEntries := by
    rw [← Page.length_entries, hentries]
    refine spec.le_length_kept hsplit ?_
    rw [Page.length_entries]
    exact hwithin
  have hplace := spec.idx_afterDropping plan.splitIdx q.numEntries
  simp only [h.numEntries] at hloop
  simp only [RawPage.splitLeafBuildRightNode, bind, Except.bind, h.numEntries, hloop, hplan, hplace,
    Bool.false_eq_true, if_false]
  generalize spec.afterDropping plan.splitIdx q.numEntries = dropped
  let moved : LeafIncorporateSpec K := { dropped with idx := spec.idx - plan.splitIdx }
  rcases hheld.tryPerform hplaced hrightLeaf (show moved.idx ≤ _ from hbound) with
    ⟨p', q', generation, hraw, hpage, hp'⟩ | ⟨hraw, hpage⟩
  · refine Or.inl ⟨p', q', generation, ?_, hpage, hp'⟩
    rw [hraw]
  · refine Or.inr ⟨?_, hpage⟩
    rw [hraw]

theorem Holds.splitLeafCleanupLeftNode (spec : LeafIncorporateSpec K) {plan : LeafSplittingPlan}
    (rightAddr : Addr) (hsplit : plan.splitIdx ≤ q.numEntries) :
    ∃ p', p.splitLeafCleanupLeftNode cfg spec plan rightAddr =
        .ok (p', (q.splitLeafCleanupLeftNode cfg spec plan rightAddr).2) ∧
      p'.Holds (q.splitLeafCleanupLeftNode cfg spec plan rightAddr).1 := by
  have hnext : ({ p with nextAddr := rightAddr } : RawPage K).Holds { q with nextAddr := rightAddr } :=
    ⟨h.prevAddr, rfl, h.nextExtentAddr, h.generation, h.height, h.nextEntry, h.numEntries, h.slot⟩
  obtain ⟨p₁, htruncate, hp₁⟩ := hnext.truncateLeaf cfg hsplit
  have hleft : ({ p₁ with generation := p₁.generation + 1 } : RawPage K).Holds
      (q.splitLeafLeftEntries cfg plan rightAddr) :=
    ⟨hp₁.prevAddr, hp₁.nextAddr, hp₁.nextExtentAddr, congrArg Nat.succ hp₁.generation, hp₁.height,
      hp₁.nextEntry, hp₁.numEntries, hp₁.slot⟩
  obtain ⟨hplaced, hentries⟩ := hq.splitLeafLeftEntries plan rightAddr
  have hleftLeaf : (q.splitLeafLeftEntries cfg plan rightAddr).IsLeaf := fun entry hentry => by
    rw [hentries] at hentry
    exact hleaf entry (List.mem_of_mem_take hentry)
  obtain ⟨p₂, hdefragment, hp₂⟩ := hleft.defragmentLeaf hplaced hleftLeaf spec
  simp only [RawPage.splitLeafCleanupLeftNode, Page.splitLeafCleanupLeftNode, bind, Except.bind,
    htruncate, hleft.canPerform hleftLeaf spec]
  cases plan.insertionGoesLeft with
  | false => exact ⟨_, rfl, hleft⟩
  | true =>
      cases hfits : (q.splitLeafLeftEntries cfg plan rightAddr).canPerformLeafIncorporateSpec cfg
          spec with
      | true => exact ⟨_, rfl, hleft⟩
      | false => exact ⟨p₂, hdefragment, hp₂⟩

end Leaf

/-! ## Index nodes -/

section Index

variable (h : p.Holds q) (hq : q.Placed cfg) (hindex : q.IsIndex)

include h hq hindex

theorem Holds.copyIndexToEmpty {p₀ : RawPage K} {q₀ : Page K} (h₀ : p₀.Holds q₀) {first : Nat}
    (hfirst : first ≤ q.numEntries) :
    ∃ p' q', p.copyIndexEntries cfg (p.numEntries - first) first 0 (p₀.resetNodeEntries cfg) = .ok p' ∧
      (q₀.resetNodeEntries cfg).setIndexEntries cfg 0 (q.slots.drop first) = some q' ∧
      p'.Holds q' := by
  have hempty : (q₀.resetNodeEntries cfg).IsIndex := fun _ hentry => absurd hentry List.not_mem_nil
  have hturns : first + 0 + (p.numEntries - first) = q.numEntries := by
    rw [h.numEntries]
    omega
  exact h.copyIndexEntries hindex first _ hturns h₀.resetNodeEntries (hq.resetNodeEntries q₀) hempty
    (hq.hasRoom_reset (List.drop_sublist _ _) q₀)

theorem Holds.defragmentIndex :
    ∃ p' q', p.defragmentIndex cfg = .ok p' ∧ q.defragmentIndex cfg = some q' ∧ p'.Holds q' :=
  h.copyIndexToEmpty hq hindex h (Nat.zero_le _)

theorem Holds.splitIndexBuildRightNode (memory : PageMemory K) {targetLeftEntries : Nat}
    (ht : targetLeftEntries ≤ q.numEntries) :
    ∃ p' q', p.splitIndexBuildRightNode cfg memory targetLeftEntries = .ok p' ∧
      q.splitIndexBuildRightNode cfg targetLeftEntries = some q' ∧ p'.Holds q' := by
  let p₀ : RawPage K :=
    { p with generation := p.generation + 1, memory := memory, numEntries := 0 }
  let q₀ : Page K := { q with generation := q.generation + 1, slots := [] }
  have h₀ : p₀.Holds q₀ :=
    ⟨h.prevAddr, h.nextAddr, h.nextExtentAddr, congrArg Nat.succ h.generation, h.height,
      h.nextEntry, rfl, fun _ _ hslot => by cases hslot⟩
  exact h.copyIndexToEmpty hq hindex h₀ ht

theorem Holds.truncateIndex {targetEntries : Nat} (ht : targetEntries ≤ q.numEntries) :
    ∃ p' q', p.truncateIndex cfg targetEntries = .ok p' ∧
      q.truncateIndex cfg targetEntries = some q' ∧ p'.Holds q' := by
  have hlow := h.lowestOffset targetEntries 0 cfg.pageSize (by omega)
  have htake := h.takeEntries ht (q.lowestOffset cfg targetEntries)
  have hgen : ({ p with
      numEntries := targetEntries
      nextEntry := q.lowestOffset cfg targetEntries
      generation := p.generation + 1 } : RawPage K).Holds { q with
      slots := q.slots.take targetEntries
      nextEntry := q.lowestOffset cfg targetEntries
      generation := q.generation + 1 } :=
    ⟨h.prevAddr, h.nextAddr, h.nextExtentAddr, congrArg Nat.succ h.generation, h.height, rfl,
      htake.numEntries, htake.slot⟩
  have hplaced := (hq.takeEntries targetEntries).of_eq
    (q := { q with
      slots := q.slots.take targetEntries
      nextEntry := q.lowestOffset cfg targetEntries
      generation := q.generation + 1 }) rfl rfl
  rw [RawPage.truncateIndex, Page.truncateIndex, hlow]
  simp only [bind, Except.bind]
  change ∃ (p' : RawPage K) (q' : Page K), (if q.lowestOffset cfg targetEntries < defragmentThreshold cfg then _ else _) =
    Except.ok p' ∧ (if q.lowestOffset cfg targetEntries < defragmentThreshold cfg then _ else _) =
    some q' ∧ p'.Holds q'
  split
  · refine hgen.defragmentIndex hplaced fun entry hentry => ?_
    rw [Page.entries, List.map_take] at hentry
    exact hindex entry (List.mem_of_mem_take hentry)
  · exact ⟨_, _, rfl, rfl, hgen⟩

end Index

end RawPage
end Btree
end TreePass
