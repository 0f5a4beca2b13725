import TreePass.Btree.Placement
import Mathlib.Algebra.Order.BigOperators.Group.List

/-!
# Rebuilding pages

Defragmentation, truncation and the two halves of a split copy entries to a page that has just been
emptied.

* `setLeafEntries_spec` and `setIndexEntries_spec`: a page takes the entries it has room for, in
  order and without a gap, and an emptied page has room for any part of the entries of a page that
  was `Placed`.
* From this follows what each of the functions makes of the list of entries.
-/

namespace TreePass
namespace Btree

open Lib

variable {K : Type} {cfg : Config K}

/-- Without the entry a specification replaces, if it is in the list; the list begins at place
`i`. -/
def LeafIncorporateSpec.kept {α : Type*} (spec : LeafIncorporateSpec K) (i : Nat) (l : List α) :
    List α :=
  if spec.oldEntryState = .stillExists ∧ i ≤ spec.idx then l.eraseIdx (spec.idx - i) else l

def LeafIncorporateSpec.newEntry (spec : LeafIncorporateSpec K) : Entry K :=
  .leaf ⟨spec.tupleKey, spec.msg⟩

def LeafIncorporateSpec.applyTo (spec : LeafIncorporateSpec K) (l : List (Entry K)) :
    List (Entry K) :=
  match spec.oldEntryState with
  | .stillExists => Page.setAt spec.idx spec.newEntry l
  | _ => l.take spec.idx ++ spec.newEntry :: l.drop spec.idx

/-- An update has a place in a list of `n` entries. -/
def LeafIncorporateSpec.Within (spec : LeafIncorporateSpec K) (n : Nat) : Prop :=
  spec.idx ≤ n ∧ (spec.oldEntryState = .stillExists → spec.idx < n)

theorem LeafIncorporateSpec.map_kept {α β : Type*} (spec : LeafIncorporateSpec K) (f : α → β)
    (i : Nat) (l : List α) : (spec.kept i l).map f = spec.kept i (l.map f) := by
  rw [kept, kept]
  split
  · rw [List.eraseIdx_map]
  · rfl

theorem LeafIncorporateSpec.kept_sublist {α : Type*} (spec : LeafIncorporateSpec K) (i : Nat)
    (l : List α) : (spec.kept i l).Sublist l := by
  rw [kept]
  split
  · exact List.eraseIdx_sublist l _
  · exact List.Sublist.refl l

theorem LeafIncorporateSpec.idx_afterDropping (spec : LeafIncorporateSpec K) (first n : Nat) :
    (spec.afterDropping first n).idx = spec.idx := by
  rw [afterDropping]
  split <;> rfl

theorem LeafIncorporateSpec.newEntry_afterDropping (spec : LeafIncorporateSpec K) (first n : Nat) :
    (spec.afterDropping first n).newEntry = spec.newEntry := by
  rw [afterDropping]
  split <;> rfl

theorem LeafIncorporateSpec.Within.afterDropping_ne_stillExists {spec : LeafIncorporateSpec K}
    {first n : Nat} (hspec : spec.Within n) (hfirst : first ≤ spec.idx) :
    (spec.afterDropping first n).oldEntryState ≠ .stillExists := by
  intro hafter
  rw [afterDropping] at hafter
  split at hafter
  next => cases hafter
  next hnot => exact hnot ⟨hafter, hfirst, hspec.2 hafter⟩

theorem LeafIncorporateSpec.le_length_kept {α : Type*} (spec : LeafIncorporateSpec K) {i : Nat}
    {l : List α} (hlow : i ≤ spec.idx) (hwithin : spec.Within l.length) :
    spec.idx - i ≤ (spec.kept i (l.drop i)).length := by
  have hidx := hwithin.1
  rw [kept]
  split
  next hold =>
    have hlt := hwithin.2 hold.1
    have hdrop : spec.idx - i < (l.drop i).length := by
      rw [List.length_drop]
      omega
    rw [List.length_eraseIdx_of_lt hdrop]
    omega
  next =>
    rw [List.length_drop]
    omega

namespace Page

variable {p p' : Page K}

theorem keptSlots_eq (spec : LeafIncorporateSpec K) (l : List (Slot K)) :
    ∀ i, keptSlots spec i l = spec.kept i l := by
  have hkeep : ∀ (l : List (Slot K)) i, ¬ (spec.oldEntryState = .stillExists ∧ i ≤ spec.idx) →
      keptSlots spec i l = l := by
    intro l
    induction l with
    | nil => exact fun i _ => rfl
    | cons slot rest ih =>
        intro i hnot
        rw [keptSlots, if_neg fun hcon => hnot ⟨hcon.1, hcon.2.ge⟩,
          ih (i + 1) fun hcon => hnot ⟨hcon.1, by omega⟩]
  induction l with
  | nil =>
      intro i
      rw [LeafIncorporateSpec.kept, keptSlots]
      split <;> rfl
  | cons slot rest ih =>
      intro i
      rw [LeafIncorporateSpec.kept, keptSlots]
      by_cases hidx : spec.oldEntryState = .stillExists ∧ spec.idx = i
      · rw [if_pos hidx, if_pos ⟨hidx.1, hidx.2.ge⟩, hidx.2, Nat.sub_self, List.eraseIdx_cons_zero]
        exact hkeep rest (i + 1) fun hcon => by omega
      · rw [if_neg hidx, ih, LeafIncorporateSpec.kept]
        by_cases hle : spec.oldEntryState = .stillExists ∧ i ≤ spec.idx
        · have hlt : i + 1 ≤ spec.idx := by
            have hne : spec.idx ≠ i := fun heq => hidx ⟨hle.1, heq⟩
            omega
          have hsucc : spec.idx - i = (spec.idx - (i + 1)) + 1 := by omega
          rw [if_pos ⟨hle.1, hlt⟩, if_pos hle, hsucc, List.eraseIdx_cons_succ]
        · rw [if_neg fun hcon => hle ⟨hcon.1, by omega⟩, if_neg hle]

theorem keptSlots_sublist (spec : LeafIncorporateSpec K) (l : List (Slot K)) (i : Nat) :
    (keptSlots spec i (l.drop i)).Sublist l := by
  rw [keptSlots_eq]
  exact (spec.kept_sublist _ _).trans (List.drop_sublist _ _)

theorem map_keptSlots (spec : LeafIncorporateSpec K) (p : Page K) (i : Nat) :
    (keptSlots spec i (p.slots.drop i)).map Slot.entry = spec.kept i (p.entries.drop i) := by
  rw [keptSlots_eq, spec.map_kept, List.map_drop]
  rfl

/-! ## Copying entries -/

theorem liveBytes_cons (slot : Slot K) (l : List (Slot K)) :
    liveBytes cfg (slot :: l) = slot.entry.sizeof cfg + liveBytes cfg l := by
  rw [liveBytes, liveBytes, List.map_cons, List.sum_cons]

theorem liveBytes_sublist (cfg : Config K) {l l' : List (Slot K)} (h : l.Sublist l') :
    liveBytes cfg l ≤ liveBytes cfg l' :=
  (h.map _).sum_le_sum fun _ _ => Nat.zero_le _

def HasRoom (cfg : Config K) (p : Page K) (l : List (Slot K)) : Prop :=
  offsetsEnd (p.numEntries + l.length) + liveBytes cfg l ≤ p.nextEntry

theorem Placed.hasRoom_reset (h : p.Placed cfg) {l : List (Slot K)} (hl : l.Sublist p.slots)
    (q : Page K) : HasRoom cfg (q.resetNodeEntries cfg) l := by
  have hlive := h.liveBytes_le
  have hbytes := liveBytes_sublist cfg hl
  have hoffsets : offsetsEnd (0 + l.length) ≤ offsetsEnd p.numEntries :=
    offsetsEnd_mono (by rw [Nat.zero_add]; exact hl.length_le)
  have htable := h.table
  change offsetsEnd (0 + l.length) + liveBytes cfg l ≤ cfg.pageSize
  omega

theorem HasRoom.placeEntry {slot : Slot K} {l : List (Slot K)} (h : p.Placed cfg)
    (hroom : HasRoom cfg p (slot :: l)) {entry : Entry K}
    (hsize : entry.sizeof cfg = slot.entry.sizeof cfg) :
    ∃ p', p.placeEntry cfg p.numEntries entry = some p' ∧ p'.Placed cfg ∧
      p'.entries = p.entries ++ [entry] ∧ HasRoom cfg p' l ∧
      p' = { p with slots := p'.slots, nextEntry := p'.nextEntry } := by
  rw [HasRoom, liveBytes_cons, List.length_cons] at hroom
  have hafter : p.numEntriesAfter p.numEntries = p.numEntries + 1 := if_neg (lt_irrefl _)
  have hmono : offsetsEnd (p.numEntries + 1) ≤ offsetsEnd (p.numEntries + (l.length + 1)) :=
    offsetsEnd_mono (by omega)
  have hspace : offsetsEnd (p.numEntriesAfter p.numEntries) + entry.sizeof cfg ≤ p.nextEntry := by
    rw [hafter]
    omega
  have hsome := placeEntry_eq_some hspace
  obtain ⟨hplaced, hentries⟩ := h.placeEntry (le_refl _) hsome
  rw [setAt_numEntries] at hentries
  refine ⟨_, hsome, hplaced, hentries, ?_, rfl⟩
  have hlen := congrArg List.length hentries
  rw [List.length_append, length_entries, length_entries, List.length_singleton] at hlen
  rw [HasRoom, hlen, Nat.add_assoc, Nat.add_comm 1]
  change _ ≤ p.nextEntry - entry.sizeof cfg
  omega

theorem HasRoom.setLeafEntry {slot : Slot K} {l : List (Slot K)} {e : Tuple K} (h : p.Placed cfg)
    (hroom : HasRoom cfg p (slot :: l)) (he : slot.entry = .leaf e) :
    ∃ p', p.setLeafEntry cfg p.numEntries e.key e.msg = some p' ∧ p'.Placed cfg ∧
      p'.entries = p.entries ++ [slot.entry] ∧ p'.numEntries = p.numEntries + 1 ∧
      HasRoom cfg p' l ∧ SameHeader p p' := by
  obtain ⟨p', hp', hplaced, hentries, hroom', hheader⟩ :=
    hroom.placeEntry h (rfl : slot.entry.sizeof cfg = slot.entry.sizeof cfg)
  have hlen := congrArg List.length hentries
  rw [List.length_append, length_entries, length_entries, List.length_singleton] at hlen
  refine ⟨p', ?_, hplaced, hentries, hlen, hroom', hheader⟩
  rw [Page.setLeafEntry, getElem?_numEntries]
  rw [he] at hp'
  exact hp'

theorem HasRoom.setIndexEntry {slot : Slot K} {l : List (Slot K)} {e : OndiskIndexEntry K}
    (h : p.Placed cfg) (hroom : HasRoom cfg p (slot :: l)) (he : slot.entry = .index e) :
    ∃ p', p.setIndexEntry cfg p.numEntries e.pivot e.maskedChildAddr e.pivotData.stats = some p' ∧
      p'.Placed cfg ∧ p'.entries = p.entries ++ [slot.entry.maskAddr] ∧
      p'.numEntries = p.numEntries + 1 ∧ HasRoom cfg p' l ∧ SameHeader p p' := by
  obtain ⟨p', hp', hplaced, hentries, hroom', hheader⟩ :=
    hroom.placeEntry h (Entry.sizeof_maskAddr cfg slot.entry)
  have hlen := congrArg List.length hentries
  rw [List.length_append, length_entries, length_entries, List.length_singleton] at hlen
  refine ⟨p', ?_, hplaced, hentries, hlen, hroom', hheader⟩
  rw [he] at hp'
  simp only [Page.setIndexEntry, getElem?_numEntries]
  exact hp'

theorem SameHeader.trans {q r : Page K} (h : SameHeader p q) (h' : SameHeader q r) :
    SameHeader p r := by
  rw [SameHeader] at h h' ⊢
  rw [h', h]

theorem setLeafEntries_spec {l rest : List (Slot K)} : ∀ {p : Page K}, p.Placed cfg →
    HasRoom cfg p (l ++ rest) → (∀ slot ∈ l, ∃ e, slot.entry = .leaf e) →
    (p.setLeafEntries cfg p.numEntries l).Placed cfg ∧
      (p.setLeafEntries cfg p.numEntries l).entries = p.entries ++ l.map Slot.entry ∧
      HasRoom cfg (p.setLeafEntries cfg p.numEntries l) rest ∧
      SameHeader p (p.setLeafEntries cfg p.numEntries l) := by
  induction l with
  | nil =>
      intro p h hroom _
      exact ⟨h, (List.append_nil _).symm, hroom, rfl⟩
  | cons slot l ih =>
      intro p h hroom hleaf
      obtain ⟨e, he⟩ := hleaf slot List.mem_cons_self
      obtain ⟨p', hset, hplaced, hentries, hnum, hroom', hheader⟩ := hroom.setLeafEntry h he
      have hloop : p.setLeafEntries cfg p.numEntries (slot :: l) =
          p'.setLeafEntries cfg p'.numEntries l := by
        rw [setLeafEntries, he, hnum]
        simp only [hset, Option.getD_some]
      obtain ⟨hdone, hlist, hrest, hsame⟩ := ih hplaced hroom' fun slot hslot =>
        hleaf slot (List.mem_cons_of_mem _ hslot)
      rw [hloop]
      refine ⟨hdone, ?_, hrest, hheader.trans hsame⟩
      rw [hlist, hentries, List.append_assoc]
      rfl

theorem setIndexEntries_spec {l : List (Slot K)} : ∀ {p : Page K}, p.Placed cfg → HasRoom cfg p l →
    (∀ slot ∈ l, ∃ e, slot.entry = .index e) →
    ∃ p', p.setIndexEntries cfg p.numEntries l = some p' ∧ p'.Placed cfg ∧
      p'.entries = p.entries ++ l.map (fun slot => slot.entry.maskAddr) ∧ SameHeader p p' := by
  induction l with
  | nil =>
      intro p h _ _
      exact ⟨p, rfl, h, (List.append_nil _).symm, rfl⟩
  | cons slot l ih =>
      intro p h hroom hindex
      obtain ⟨e, he⟩ := hindex slot List.mem_cons_self
      obtain ⟨p', hset, hplaced, hentries, hnum, hroom', hheader⟩ := hroom.setIndexEntry h he
      obtain ⟨p'', hloop, hdone, hlist, hsame⟩ := ih hplaced hroom' fun slot hslot =>
        hindex slot (List.mem_cons_of_mem _ hslot)
      refine ⟨p'', ?_, hdone, ?_, hheader.trans hsame⟩
      · rw [setIndexEntries, he]
        simp only [hset, Option.bind_some]
        rw [← hnum]
        exact hloop
      · rw [hlist, hentries, List.append_assoc]
        rfl

/-! ## Leaves -/

def IsLeaf (p : Page K) : Prop := ∀ entry ∈ p.entries, ∃ e, entry = .leaf e

def IsIndex (p : Page K) : Prop := ∀ entry ∈ p.entries, ∃ e, entry = .index e

theorem IsLeaf.of_sublist (h : p.IsLeaf) {l : List (Slot K)} (hl : l.Sublist p.slots) :
    ∀ slot ∈ l, ∃ e, slot.entry = .leaf e := fun slot hslot =>
  h slot.entry (List.mem_map.mpr ⟨slot, hl.subset hslot, rfl⟩)

theorem IsIndex.of_sublist (h : p.IsIndex) {l : List (Slot K)} (hl : l.Sublist p.slots) :
    ∀ slot ∈ l, ∃ e, slot.entry = .index e := fun slot hslot =>
  h slot.entry (List.mem_map.mpr ⟨slot, hl.subset hslot, rfl⟩)

theorem Placed.copyLeaf (h : p.Placed cfg) (hleaf : p.IsLeaf) {l : List (Slot K)}
    (hl : l.Sublist p.slots) (q : Page K) :
    ((q.resetNodeEntries cfg).setLeafEntries cfg 0 l).Placed cfg ∧
      ((q.resetNodeEntries cfg).setLeafEntries cfg 0 l).entries = l.map Slot.entry ∧
      SameHeader q ((q.resetNodeEntries cfg).setLeafEntries cfg 0 l) := by
  have hroom : HasRoom cfg (q.resetNodeEntries cfg) (l ++ []) := by
    rw [List.append_nil]
    exact h.hasRoom_reset hl q
  obtain ⟨hplaced, hentries, -, hheader⟩ :=
    setLeafEntries_spec (h.resetNodeEntries q) hroom (hleaf.of_sublist hl)
  exact ⟨hplaced, hentries, hheader⟩

theorem Placed.hasRoom_copyLeaf (h : p.Placed cfg) (hleaf : p.IsLeaf) {l : List (Slot K)}
    (hl : l.Sublist p.slots) (q : Page K) {entry : Entry K}
    (hbytes : offsetsEnd (l.length + 1) + (liveBytes cfg l + entry.sizeof cfg) ≤ cfg.pageSize) :
    HasRoom cfg ((q.resetNodeEntries cfg).setLeafEntries cfg 0 l) [⟨0, entry⟩] := by
  have hroom : HasRoom cfg (q.resetNodeEntries cfg) (l ++ [⟨0, entry⟩]) := by
    have hlive : liveBytes cfg (l ++ [⟨0, entry⟩]) = liveBytes cfg l + entry.sizeof cfg := by
      rw [liveBytes, liveBytes, List.map_append, List.sum_append]
      rfl
    rw [HasRoom, hlive, List.length_append, List.length_singleton]
    change offsetsEnd (0 + (l.length + 1)) + _ ≤ cfg.pageSize
    rw [Nat.zero_add]
    exact hbytes
  exact (setLeafEntries_spec (h.resetNodeEntries q) hroom (hleaf.of_sublist hl)).2.2.1

theorem HasRoom.tryPerform {spec : LeafIncorporateSpec K} (h : p.Placed cfg)
    (hroom : HasRoom cfg p [⟨0, spec.newEntry⟩]) (hgone : spec.oldEntryState ≠ .stillExists) :
    ∃ r, p.tryPerformLeafIncorporateSpec cfg spec = some r := by
  obtain ⟨p', hset, -⟩ := hroom.setLeafEntry h rfl
  have hinsert : p.insertLeafEntry cfg spec.idx spec.tupleKey spec.msg =
      some (p'.moveLastTo spec.idx) := by
    rw [Page.insertLeafEntry, hset]
    rfl
  rw [tryPerformLeafIncorporateSpec]
  cases hstate : spec.oldEntryState with
  | stillExists => exact absurd hstate hgone
  | didNotExist =>
      simp only [hinsert]
      exact ⟨_, rfl⟩
  | hasBeenRemoved =>
      simp only [hinsert]
      exact ⟨_, rfl⟩

theorem Placed.defragmentLeaf (h : p.Placed cfg) (hleaf : p.IsLeaf) (spec : LeafIncorporateSpec K) :
    (p.defragmentLeaf cfg spec).1.Placed cfg ∧
      (p.defragmentLeaf cfg spec).1.entries = spec.kept 0 p.entries ∧
      SameHeader p (p.defragmentLeaf cfg spec).1 := by
  obtain ⟨hplaced, hentries, hheader⟩ := h.copyLeaf hleaf (keptSlots_sublist spec p.slots 0) p
  exact ⟨hplaced, hentries.trans (map_keptSlots spec p 0), hheader⟩

theorem Placed.splitLeafRightEntries (h : p.Placed cfg) (hleaf : p.IsLeaf) (leftAddr : Addr)
    (spec : LeafIncorporateSpec K) (plan : LeafSplittingPlan) :
    (p.splitLeafRightEntries cfg leftAddr spec plan).Placed cfg ∧
      (p.splitLeafRightEntries cfg leftAddr spec plan).entries =
        spec.kept plan.splitIdx (p.entries.drop plan.splitIdx) ∧
      SameHeader { p with generation := p.generation + 1, prevAddr := leftAddr }
        (p.splitLeafRightEntries cfg leftAddr spec plan) := by
  obtain ⟨hplaced, hentries, hheader⟩ :=
    h.copyLeaf hleaf (keptSlots_sublist spec p.slots plan.splitIdx)
      { p with generation := p.generation + 1, prevAddr := leftAddr }
  exact ⟨hplaced, hentries.trans (map_keptSlots spec p plan.splitIdx), hheader⟩

theorem Placed.truncateLeaf (h : p.Placed cfg) (targetEntries : Nat) :
    (p.truncateLeaf cfg targetEntries).Placed cfg ∧
      (p.truncateLeaf cfg targetEntries).entries = p.entries.take targetEntries :=
  ⟨h.takeEntries targetEntries, List.map_take⟩

theorem Placed.splitLeafLeftEntries (h : p.Placed cfg) (plan : LeafSplittingPlan)
    (rightAddr : Addr) :
    (p.splitLeafLeftEntries cfg plan rightAddr).Placed cfg ∧
      (p.splitLeafLeftEntries cfg plan rightAddr).entries = p.entries.take plan.splitIdx := by
  obtain ⟨⟨htable, hnext, hinside, hapart⟩, hentries⟩ := h.truncateLeaf plan.splitIdx
  exact ⟨⟨htable, hnext, hinside, hapart⟩, hentries⟩

theorem Placed.of_eq {q : Page K} (h : p.Placed cfg) (hslots : q.slots = p.slots)
    (hnext : q.nextEntry = p.nextEntry) : q.Placed cfg := by
  obtain ⟨htable, hlow, hinside, hapart⟩ := h
  refine ⟨?_, hnext ▸ hlow, ?_, hslots ▸ hapart⟩
  · rw [numEntries, hslots, hnext]
    exact htable
  · rw [hslots, hnext]
    exact hinside

theorem Placed.tryPerform (h : p.Placed cfg) {spec : LeafIncorporateSpec K} {generation : Nat}
    (hidx : spec.oldEntryState = .stillExists → spec.idx < p.numEntries)
    (hp' : p.tryPerformLeafIncorporateSpec cfg spec = some (p', generation)) :
    p'.Placed cfg ∧ p'.entries = spec.applyTo p.entries ∧ generation = p.generation ∧
      SameHeader { p with generation := p.generation + 1 } p' := by
  obtain ⟨q, hq, heq⟩ := Option.map_eq_some_iff.mp hp'
  obtain ⟨rfl, rfl⟩ := Prod.mk.inj heq
  have hplaced : q.Placed cfg ∧ q.entries = spec.applyTo p.entries ∧ SameHeader p q := by
    rw [LeafIncorporateSpec.applyTo]
    cases hstate : spec.oldEntryState with
    | stillExists =>
        rw [hstate] at hq
        obtain ⟨hplaced, hentries⟩ := h.setLeafEntry (hidx hstate).le hq
        exact ⟨hplaced, hentries, sameHeader_of_setLeafEntry hq⟩
    | didNotExist =>
        rw [hstate] at hq
        obtain ⟨hplaced, hentries⟩ := h.insertLeafEntry hq
        exact ⟨hplaced, hentries, sameHeader_of_insertLeafEntry hq⟩
    | hasBeenRemoved =>
        rw [hstate] at hq
        obtain ⟨hplaced, hentries⟩ := h.insertLeafEntry hq
        exact ⟨hplaced, hentries, sameHeader_of_insertLeafEntry hq⟩
  obtain ⟨hq', hentries, hsame⟩ := hplaced
  refine ⟨hq'.of_eq rfl rfl, hentries, hsame.generation_eq, ?_⟩
  rw [SameHeader] at hsame ⊢
  rw [hsame]

theorem canPerform_iff {spec : LeafIncorporateSpec K}
    (hidx : spec.oldEntryState = .stillExists → spec.idx < p.numEntries) :
    p.canPerformLeafIncorporateSpec cfg spec = true ↔
      ∃ r, p.tryPerformLeafIncorporateSpec cfg spec = some r := by
  have hinsert : p.canSetLeafEntry cfg p.numEntries spec.tupleKey spec.msg = true ↔
      ∃ q, p.insertLeafEntry cfg spec.idx spec.tupleKey spec.msg = some q := by
    rw [canSetLeafEntry_iff (le_refl _)]
    simp [Page.insertLeafEntry]
  have hset : ∀ {o : Option (Page K)}, (∃ r, (o.map fun h : Page K =>
      (({ h with generation := h.generation + 1 } : Page K), h.generation)) = some r) ↔ ∃ q, o = some q := by
    intro o
    cases o <;> simp
  cases hstate : spec.oldEntryState with
  | stillExists =>
      simp only [canPerformLeafIncorporateSpec, tryPerformLeafIncorporateSpec, hstate]
      rw [hset, canSetLeafEntry_iff (hidx hstate).le]
  | didNotExist =>
      simp only [canPerformLeafIncorporateSpec, tryPerformLeafIncorporateSpec, hstate]
      rw [hset, hinsert]
  | hasBeenRemoved =>
      simp only [canPerformLeafIncorporateSpec, tryPerformLeafIncorporateSpec, hstate]
      rw [hset, hinsert]

/-! ## Index nodes -/

theorem Placed.copyIndex (h : p.Placed cfg) (hindex : p.IsIndex) {l : List (Slot K)}
    (hl : l.Sublist p.slots) (q : Page K) :
    ∃ p', (q.resetNodeEntries cfg).setIndexEntries cfg 0 l = some p' ∧ p'.Placed cfg ∧
      p'.entries = (l.map Slot.entry).map Entry.maskAddr ∧ SameHeader q p' := by
  obtain ⟨p', hp', hplaced, hentries, hheader⟩ :=
    setIndexEntries_spec (h.resetNodeEntries q) (h.hasRoom_reset hl q) (hindex.of_sublist hl)
  exact ⟨p', hp', hplaced, by rw [hentries, List.map_map]; rfl, hheader⟩

theorem Placed.defragmentIndex (h : p.Placed cfg) (hindex : p.IsIndex) :
    ∃ p', p.defragmentIndex cfg = some p' ∧ p'.Placed cfg ∧
      p'.entries = p.entries.map Entry.maskAddr ∧ SameHeader p p' :=
  h.copyIndex hindex (List.Sublist.refl _) p

theorem Placed.splitIndexBuildRightNode (h : p.Placed cfg) (hindex : p.IsIndex)
    (targetLeftEntries : Nat) :
    ∃ p', p.splitIndexBuildRightNode cfg targetLeftEntries = some p' ∧ p'.Placed cfg ∧
      p'.entries = (p.entries.drop targetLeftEntries).map Entry.maskAddr ∧
      SameHeader { p with generation := p.generation + 1 } p' := by
  obtain ⟨p', hp', hplaced, hentries, hheader⟩ := h.copyIndex hindex
    (List.drop_sublist targetLeftEntries _) { p with generation := p.generation + 1 }
  exact ⟨p', hp', hplaced, by rw [hentries, List.map_drop]; rfl, hheader⟩

theorem Placed.truncateIndex (h : p.Placed cfg) (hindex : p.IsIndex) (targetEntries : Nat) :
    ∃ p', p.truncateIndex cfg targetEntries = some p' ∧ p'.Placed cfg ∧
      p'.entries.map Entry.maskAddr = (p.entries.take targetEntries).map Entry.maskAddr ∧
      SameHeader { p with generation := p.generation + 1 } p' := by
  let q : Page K := { p with
    slots := p.slots.take targetEntries
    nextEntry := p.lowestOffset cfg targetEntries
    generation := p.generation + 1 }
  have hq : q.Placed cfg := (h.takeEntries targetEntries).of_eq rfl rfl
  have hentries : q.entries = p.entries.take targetEntries := List.map_take
  have hqindex : q.IsIndex := fun entry hentry =>
    hindex entry (List.mem_of_mem_take (hentries ▸ hentry))
  by_cases hlow : p.lowestOffset cfg targetEntries < defragmentThreshold cfg
  · obtain ⟨p', hp', hplaced, hmasked, hheader⟩ := hq.defragmentIndex hqindex
    refine ⟨p', (if_pos hlow).trans hp', hplaced, ?_, ?_⟩
    · rw [hmasked, hentries, List.map_map]
      refine List.map_congr_left fun entry _ => ?_
      exact Entry.maskAddr_maskAddr entry
    · rw [SameHeader] at hheader ⊢
      rw [hheader]
  · exact ⟨q, if_neg hlow, hq, by rw [hentries], rfl⟩

end Page
end Btree
end TreePass
