import TreePass.Lib.Regions
import TreePass.Btree.Incorporate

/-!
# Where the entries of a page lie

* `Placed cfg p`: the offsets table of `p` ends at or before `next_entry`, the entries lie between
  `next_entry` and the end of the page, and no two of them overlap.
* Setting, inserting and truncating keep this, and do to the list of entries what the function of
  lists with that name does.
* `canSetLeafEntry_iff`: `btree_can_set_leaf_entry` says what `btree_set_leaf_entry` will return.
-/

namespace TreePass
namespace Btree

open Lib

variable {K : Type} (cfg : Config K)

/-- An index entry with the low bits of the child address cut off, as it is copied. -/
def Entry.maskAddr : Entry K → Entry K
  | .leaf e => .leaf e
  | .index e => .index ⟨⟨e.maskedChildAddr, e.pivotData.stats⟩, e.pivot⟩

@[simp] theorem Entry.sizeof_maskAddr (entry : Entry K) :
    entry.maskAddr.sizeof cfg = entry.sizeof cfg := by
  cases entry <;> rfl

@[simp] theorem Entry.maskAddr_maskAddr (entry : Entry K) :
    entry.maskAddr.maskAddr = entry.maskAddr := by
  cases entry with
  | leaf e => rfl
  | index e =>
      have hmask : (e.pivotData.childAddr &&& ~~~(0xFFF : Addr)) &&& ~~~(0xFFF : Addr) =
          e.pivotData.childAddr &&& ~~~(0xFFF : Addr) := by
        rw [BitVec.and_assoc, BitVec.and_self]
      simp only [maskAddr, OndiskIndexEntry.maskedChildAddr, hmask]

theorem Entry.sizeof_pos (entry : Entry K) : 0 < entry.sizeof cfg := by
  cases entry with
  | leaf e =>
      rw [Entry.sizeof, leafEntryRequiredCapacity, sizeofLeafEntryHeader]
      omega
  | index e =>
      rw [Entry.sizeof, indexEntryRequiredCapacity, sizeofIndexEntryHeader]
      omega

def Slot.region (slot : Slot K) : Region := ⟨slot.offset, slot.entry.sizeof cfg⟩

namespace Page

def entries (p : Page K) : List (Entry K) := p.slots.map Slot.entry

/-- The entries of a page lie where they should. -/
structure Placed (p : Page K) : Prop where
  table : offsetsEnd p.numEntries ≤ p.nextEntry
  nextEntry_le : p.nextEntry ≤ cfg.pageSize
  inside : ∀ slot ∈ p.slots, p.nextEntry ≤ slot.offset ∧ (slot.region cfg).last ≤ cfg.pageSize
  apart : p.slots.Pairwise fun a b => (a.region cfg).Apart (b.region cfg)

variable {cfg} {p p' : Page K}

@[simp] theorem length_entries (p : Page K) : p.entries.length = p.numEntries :=
  List.length_map _

theorem getElem?_numEntries (p : Page K) : p.slots[p.numEntries]? = none :=
  List.getElem?_eq_none (le_refl _)

theorem offsetsEnd_mono {m n : Nat} (h : m ≤ n) : offsetsEnd m ≤ offsetsEnd n :=
  Nat.add_le_add_left (Nat.mul_le_mul_left _ h) _

theorem placed_init (hpage : sizeofHdr ≤ cfg.pageSize) : (init cfg : Page K).Placed cfg where
  table := hpage
  nextEntry_le := Nat.le_refl _
  inside := fun _ h => absurd h List.not_mem_nil
  apart := List.Pairwise.nil

theorem Placed.resetNodeEntries (h : p.Placed cfg) (q : Page K) : (q.resetNodeEntries cfg).Placed cfg where
  table := Nat.le_trans (offsetsEnd_mono (Nat.zero_le _)) (Nat.le_trans h.table h.nextEntry_le)
  nextEntry_le := Nat.le_refl _
  inside := fun _ hmem => absurd hmem List.not_mem_nil
  apart := List.Pairwise.nil

theorem Placed.apart_of_ne (h : p.Placed cfg) {i j : Nat} {a b : Slot K} (hne : i ≠ j)
    (ha : p.slots[i]? = some a) (hb : p.slots[j]? = some b) : (a.region cfg).Apart (b.region cfg) := by
  obtain ⟨hi, rfl⟩ := List.getElem?_eq_some_iff.mp ha
  obtain ⟨hj, rfl⟩ := List.getElem?_eq_some_iff.mp hb
  rcases Nat.lt_or_gt_of_ne hne with hlt | hgt
  · exact List.pairwise_iff_getElem.mp h.apart i j hi hj hlt
  · exact (List.pairwise_iff_getElem.mp h.apart j i hj hi hgt).symm

theorem Placed.liveBytes_le (h : p.Placed cfg) : p.nextEntry + liveBytes cfg p.slots ≤ cfg.pageSize := by
  have hsum := Region.sum_size_le (l := p.slots.map (Slot.region cfg))
    (List.pairwise_map.mpr h.apart) h.nextEntry_le fun r hr => by
      obtain ⟨slot, hslot, rfl⟩ := List.mem_map.mp hr
      exact h.inside slot hslot
  rw [List.map_map] at hsum
  exact hsum

/-! ## One entry -/

/-- The table after an entry has been set at `k`. -/
def setAt {α : Type*} (k : Nat) (a : α) (l : List α) : List α :=
  if k < l.length then l.set k a else l ++ [a]

theorem length_setAt {α : Type*} {k : Nat} {a : α} {l : List α} (hk : k ≤ l.length) :
    (setAt k a l).length = if k < l.length then l.length else k + 1 := by
  unfold setAt
  split
  · exact List.length_set
  · rw [List.length_append, List.length_singleton]
    omega

theorem map_setAt {α β : Type*} (f : α → β) (k : Nat) (a : α) (l : List α) :
    (setAt k a l).map f = setAt k (f a) (l.map f) := by
  unfold setAt
  rw [List.length_map]
  split
  · exact List.map_set
  · rw [List.map_append, List.map_singleton]

theorem setAt_numEntries (p : Page K) (entry : Entry K) :
    setAt p.numEntries entry p.entries = p.entries ++ [entry] :=
  if_neg (by rw [length_entries]; exact lt_irrefl _)

/-- The number of entries after one has been set at `k`. -/
def numEntriesAfter (p : Page K) (k : Nat) : Nat := if k < p.numEntries then p.numEntries else k + 1

theorem numEntries_le_after (p : Page K) (k : Nat) : p.numEntries ≤ p.numEntriesAfter k := by
  unfold numEntriesAfter
  split <;> omega

theorem placeEntry_eq_none_iff {k : Nat} {entry : Entry K} :
    p.placeEntry cfg k entry = none ↔
      p.nextEntry < offsetsEnd (p.numEntriesAfter k) + entry.sizeof cfg := by
  unfold placeEntry numEntriesAfter
  simp only
  split <;> simp [*]

theorem placeEntry_eq_some {k : Nat} {entry : Entry K}
    (hspace : offsetsEnd (p.numEntriesAfter k) + entry.sizeof cfg ≤ p.nextEntry) :
    p.placeEntry cfg k entry = some { p with
      slots := setAt k ⟨p.nextEntry - entry.sizeof cfg, entry⟩ p.slots
      nextEntry := p.nextEntry - entry.sizeof cfg } := by
  exact if_neg (Nat.not_lt.mpr hspace)

theorem getElem?_setAt_self {α : Type*} {k : Nat} {a : α} {l : List α} (hk : k ≤ l.length) :
    (setAt k a l)[k]? = some a := by
  unfold setAt
  split
  next hlt => rw [List.getElem?_set_self hlt]
  next hnot =>
    obtain rfl : k = l.length := Nat.le_antisymm hk (Nat.not_lt.mp hnot)
    rw [List.getElem?_concat_length]

theorem getElem?_setAt_of_ne {α : Type*} {i k : Nat} {a : α} {l : List α} (hk : k ≤ l.length)
    (hne : i ≠ k) : (setAt k a l)[i]? = l[i]? := by
  unfold setAt
  split
  next => rw [List.getElem?_set_ne hne.symm]
  next hnot =>
    obtain rfl : k = l.length := Nat.le_antisymm hk (Nat.not_lt.mp hnot)
    by_cases hlt : i < l.length
    · rw [List.getElem?_append_left hlt]
    · rw [List.getElem?_eq_none (by rw [List.length_append, List.length_singleton]; omega),
        List.getElem?_eq_none (by omega)]

/-- **A new entry** is placed in the empty space, whatever it replaces.  It is enough that the
entries that stay are `Placed`. -/
theorem Placed.place {k : Nat} {entry : Entry K} (hk : k ≤ p.numEntries)
    (hlow : p.nextEntry ≤ cfg.pageSize)
    (hspace : offsetsEnd (p.numEntriesAfter k) + entry.sizeof cfg ≤ p.nextEntry)
    (hinside : ∀ i slot, i ≠ k → p.slots[i]? = some slot →
      p.nextEntry ≤ slot.offset ∧ (slot.region cfg).last ≤ cfg.pageSize)
    (hapart : ∀ i j a b, i ≠ k → j ≠ k → i ≠ j → p.slots[i]? = some a → p.slots[j]? = some b →
      (a.region cfg).Apart (b.region cfg)) :
    Placed cfg { p with
      slots := setAt k ⟨p.nextEntry - entry.sizeof cfg, entry⟩ p.slots
      nextEntry := p.nextEntry - entry.sizeof cfg } := by
  have hnew : ∀ i, (setAt k (⟨p.nextEntry - entry.sizeof cfg, entry⟩ : Slot K) p.slots)[i]? =
      if i = k then some ⟨p.nextEntry - entry.sizeof cfg, entry⟩ else p.slots[i]? := by
    intro i
    by_cases hik : i = k
    · subst hik
      rw [if_pos rfl, getElem?_setAt_self hk]
    · rw [if_neg hik, getElem?_setAt_of_ne hk hik]
  refine ⟨?_, ?_, fun slot hslot => ?_, ?_⟩
  · have hlen := length_setAt (a := (⟨p.nextEntry - entry.sizeof cfg, entry⟩ : Slot K)) hk
    change offsetsEnd (setAt k _ p.slots).length ≤ p.nextEntry - entry.sizeof cfg
    rw [hlen]
    change offsetsEnd (p.numEntriesAfter k) ≤ _
    omega
  · exact Nat.le_trans (Nat.sub_le _ _) hlow
  · obtain ⟨i, hi⟩ := List.mem_iff_getElem?.mp hslot
    change (setAt k _ p.slots)[i]? = some slot at hi
    change p.nextEntry - entry.sizeof cfg ≤ _ ∧ _
    rw [hnew i] at hi
    split at hi
    · obtain rfl := Option.some.inj hi
      refine ⟨Nat.le_refl _, ?_⟩
      change p.nextEntry - entry.sizeof cfg + entry.sizeof cfg ≤ cfg.pageSize
      omega
    next hik =>
      obtain ⟨hlo, hhi⟩ := hinside i slot hik hi
      exact ⟨by omega, hhi⟩
  · rw [List.pairwise_iff_getElem]
    intro i j hi hj hij
    have ha := List.getElem?_eq_getElem hi
    have hb := List.getElem?_eq_getElem hj
    generalize (setAt k (⟨p.nextEntry - entry.sizeof cfg, entry⟩ : Slot K) p.slots)[i] = a at ha
    generalize (setAt k (⟨p.nextEntry - entry.sizeof cfg, entry⟩ : Slot K) p.slots)[j] = b at hb
    rw [hnew] at ha hb
    -- A new entry ends where the old entries begin.
    have hbelow : ∀ {l : Nat} {c : Slot K}, l ≠ k → p.slots[l]? = some c →
        p.nextEntry - entry.sizeof cfg + entry.sizeof cfg ≤ c.offset := by
      intro l c hl hc
      have hoffset := (hinside l c hl hc).1
      omega
    split at ha
    next hik =>
      obtain rfl := Option.some.inj ha
      split at hb
      next hjk => omega
      next hjk => exact Or.inl (hbelow hjk hb)
    next hik =>
      split at hb
      next hjk =>
        obtain rfl := Option.some.inj hb
        exact Or.inr (hbelow hik ha)
      next hjk => exact hapart i j a b hik hjk (Nat.ne_of_lt hij) ha hb

theorem Placed.placeEntry (h : p.Placed cfg) {k : Nat} {entry : Entry K} (hk : k ≤ p.numEntries)
    (hp' : p.placeEntry cfg k entry = some p') :
    p'.Placed cfg ∧ p'.entries = setAt k entry p.entries := by
  have hspace : ¬ p.nextEntry < offsetsEnd (p.numEntriesAfter k) + entry.sizeof cfg := fun hlt => by
    rw [placeEntry_eq_none_iff.mpr hlt] at hp'
    cases hp'
  rw [placeEntry_eq_some (not_lt.mp hspace)] at hp'
  obtain rfl := Option.some.inj hp'
  refine ⟨Placed.place hk h.nextEntry_le (not_lt.mp hspace) (fun i slot _ hi => ?_)
    (fun i j a b _ _ hne ha hb => h.apart_of_ne hne ha hb), map_setAt Slot.entry k _ p.slots⟩
  exact h.inside slot (List.mem_of_getElem? hi)

theorem Placed.overwriteEntry (h : p.Placed cfg) {k : Nat} {old : Slot K} {entry : Entry K}
    (hold : p.slots[k]? = some old) (hsize : entry.sizeof cfg ≤ old.entry.sizeof cfg) :
    (p.overwriteEntry k entry).Placed cfg ∧
      (p.overwriteEntry k entry).entries = setAt k entry p.entries := by
  obtain ⟨hk, rfl⟩ := List.getElem?_eq_some_iff.mp hold
  have hslots : (p.overwriteEntry k entry).slots = p.slots.set k ⟨p.slots[k].offset, entry⟩ := by
    rw [Page.overwriteEntry, List.modify_eq_set_getElem? ]
    simp [List.getElem?_eq_getElem hk]
  have hregion : ((⟨p.slots[k].offset, entry⟩ : Slot K).region cfg) =
      ⟨(p.slots[k].region cfg).base, entry.sizeof cfg⟩ := rfl
  have hinside := h.inside p.slots[k] (List.getElem_mem hk)
  refine ⟨⟨?_, h.nextEntry_le, fun slot hslot => ?_, ?_⟩, ?_⟩
  · rw [numEntries, hslots, List.length_set]
    exact h.table
  · rw [hslots] at hslot
    rcases List.mem_or_eq_of_mem_set hslot with hslot | rfl
    · exact h.inside slot hslot
    · refine ⟨hinside.1, ?_⟩
      have hlast : p.slots[k].offset + p.slots[k].entry.sizeof cfg ≤ cfg.pageSize := hinside.2
      change p.slots[k].offset + entry.sizeof cfg ≤ cfg.pageSize
      omega
  · rw [hslots]
    refine Lib.pairwise_set (fun hab => hab.symm) h.apart fun i b hne hb => ?_
    rw [hregion]
    exact (h.apart_of_ne hne.symm (List.getElem?_eq_getElem hk) hb).shrink hsize
  · rw [entries, hslots, List.map_set, setAt, if_pos (by rw [length_entries]; exact hk)]
    rfl

theorem Placed.moveLastTo (h : p.Placed cfg) {l : List (Entry K)} {entry : Entry K}
    (hentries : p.entries = l ++ [entry]) (k : Nat) :
    (p.moveLastTo k).Placed cfg ∧ (p.moveLastTo k).entries = l.take k ++ entry :: l.drop k := by
  obtain ⟨front, last, hfront, hlast, hslots⟩ : ∃ front last, front.map Slot.entry = l ∧
      Slot.entry last = entry ∧ p.slots = front ++ [last] := by
    obtain ⟨front, back, hsplit, hfront, hback⟩ := List.map_eq_append_iff.mp hentries
    obtain ⟨last, rfl, hlast⟩ := List.map_eq_singleton_iff.mp hback
    exact ⟨front, last, hfront, hlast, hsplit⟩
  have hmoved : (p.moveLastTo k).slots = front.take k ++ [last] ++ front.drop k := by
    rw [Page.moveLastTo, hslots, List.dropLast_concat, List.getLast?_concat]
    rfl
  have hperm : (p.moveLastTo k).slots.Perm p.slots := by
    rw [hmoved, hslots, List.append_assoc]
    refine (List.perm_append_comm_assoc _ _ _).trans ?_
    rw [List.take_append_drop]
    exact List.perm_append_comm
  refine ⟨⟨?_, h.nextEntry_le, fun slot hslot => h.inside slot (hperm.mem_iff.mp hslot), ?_⟩, ?_⟩
  · rw [numEntries, hperm.length_eq]
    exact h.table
  · exact (hperm.pairwise_iff fun hab => hab.symm).mpr h.apart
  · rw [entries, hmoved, ← hfront, ← hlast]
    simp

/-! ## Leaf entries -/

theorem canSetLeafEntry_iff {k : Nat} (hk : k ≤ p.numEntries) (newKey : K) (newMessage : Message) :
    p.canSetLeafEntry cfg k newKey newMessage = true ↔
      ∃ p', p.setLeafEntry cfg k newKey newMessage = some p' := by
  rw [canSetLeafEntry, setLeafEntry, if_neg (not_lt.mpr hk)]
  change (if (p.slots[k]?).any (fun old => decide ((Entry.leaf ⟨newKey, newMessage⟩).sizeof cfg ≤
    old.entry.sizeof cfg)) = true then _ else _) = true ↔ _
  split
  · simp
  · rw [← Option.isSome_iff_exists, ← not_iff_not, Option.not_isSome_iff_eq_none,
      placeEntry_eq_none_iff]
    simp [numEntriesAfter, Entry.sizeof]

theorem Placed.setLeafEntry (h : p.Placed cfg) {k : Nat} (hk : k ≤ p.numEntries) {newKey : K}
    {newMessage : Message} (hp' : p.setLeafEntry cfg k newKey newMessage = some p') :
    p'.Placed cfg ∧ p'.entries = setAt k (.leaf ⟨newKey, newMessage⟩) p.entries := by
  simp only [Page.setLeafEntry] at hp'
  split at hp'
  next hany =>
    obtain ⟨old, hold, hsize⟩ := (Option.any_eq_true _ _).mp hany
    obtain rfl := Option.some.inj hp'
    exact h.overwriteEntry hold (of_decide_eq_true hsize)
  next => exact h.placeEntry hk hp'

theorem Placed.insertLeafEntry (h : p.Placed cfg) {k : Nat} {newKey : K} {newMessage : Message}
    (hp' : p.insertLeafEntry cfg k newKey newMessage = some p') :
    p'.Placed cfg ∧
      p'.entries = p.entries.take k ++ .leaf ⟨newKey, newMessage⟩ :: p.entries.drop k := by
  obtain ⟨q, hq, rfl⟩ := Option.map_eq_some_iff.mp hp'
  obtain ⟨hplaced, hentries⟩ := h.setLeafEntry (le_refl _) hq
  rw [setAt_numEntries] at hentries
  exact hplaced.moveLastTo hentries k

/-! ## Index entries -/

theorem Placed.behind_first (h : p.Placed cfg) {i k : Nat} {old slot : Slot K}
    (hold : p.slots[k]? = some old) (hfirst : p.nextEntry = old.offset) (hne : i ≠ k)
    (hslot : p.slots[i]? = some slot) : p.nextEntry + old.entry.sizeof cfg ≤ slot.offset := by
  have hother := h.inside slot (List.mem_of_getElem? hslot)
  have hpos := Entry.sizeof_pos cfg slot.entry
  rcases h.apart_of_ne hne hslot hold with hbefore | hafter
  · change slot.offset + slot.entry.sizeof cfg ≤ old.offset at hbefore
    have hlow := hother.1
    omega
  · change old.offset + old.entry.sizeof cfg ≤ slot.offset at hafter
    omega

private theorem Placed.placeFirst (h : p.Placed cfg) {k : Nat} {old : Slot K} {entry : Entry K}
    (hold : p.slots[k]? = some old) (hfirst : p.nextEntry = old.offset)
    (hspace : offsetsEnd p.numEntries + entry.sizeof cfg ≤ p.nextEntry + old.entry.sizeof cfg)
    (hp' : { p with nextEntry := p.nextEntry + old.entry.sizeof cfg }.placeEntry cfg k entry =
      some p') : p'.Placed cfg ∧ p'.entries = setAt k entry p.entries := by
  have hk := (List.getElem?_eq_some_iff.mp hold).1
  let q : Page K := { p with nextEntry := p.nextEntry + old.entry.sizeof cfg }
  have hafter : q.numEntriesAfter k = p.numEntries := if_pos hk
  have hend : old.offset + old.entry.sizeof cfg ≤ cfg.pageSize :=
    (h.inside old (List.mem_of_getElem? hold)).2
  have hspace' : offsetsEnd (q.numEntriesAfter k) + entry.sizeof cfg ≤ q.nextEntry := by
    rw [hafter]
    exact hspace
  have hsome : q.placeEntry cfg k entry = some p' := hp'
  rw [placeEntry_eq_some hspace'] at hsome
  obtain rfl := Option.some.inj hsome
  refine ⟨Placed.place hk.le (by change p.nextEntry + _ ≤ _; omega) hspace' (fun i slot hne hi => ?_)
    (fun i j a b _ _ hne ha hb => h.apart_of_ne hne ha hb), map_setAt Slot.entry k _ p.slots⟩
  exact ⟨h.behind_first hold hfirst hne hi, (h.inside slot (List.mem_of_getElem? hi)).2⟩

theorem Placed.setIndexEntry (h : p.Placed cfg) {k : Nat} (hk : k ≤ p.numEntries)
    {newPivotKey : Key K} {newAddr : Addr} {stats : PivotStats}
    (hp' : p.setIndexEntry cfg k newPivotKey newAddr stats = some p') :
    p'.Placed cfg ∧
      p'.entries = setAt k (.index ⟨⟨newAddr, stats⟩, newPivotKey⟩) p.entries := by
  simp only [Page.setIndexEntry] at hp'
  split at hp'
  next old hold =>
    split at hp'
    next hfirst => exact h.placeFirst hold hfirst.1 hfirst.2 hp'
    next =>
      split at hp'
      next hsize =>
        obtain rfl := Option.some.inj hp'
        exact h.overwriteEntry hold hsize
      next => exact h.placeEntry hk hp'
  next => exact h.placeEntry hk hp'

theorem Placed.insertIndexEntry (h : p.Placed cfg) {k : Nat} {newPivotKey : Key K} {newAddr : Addr}
    {stats : PivotStats} (hp' : p.insertIndexEntry cfg k newPivotKey newAddr stats = some p') :
    p'.Placed cfg ∧ p'.entries =
      p.entries.take k ++ .index ⟨⟨newAddr, stats⟩, newPivotKey⟩ :: p.entries.drop k := by
  obtain ⟨q, hq, rfl⟩ := Option.map_eq_some_iff.mp hp'
  obtain ⟨hplaced, hentries⟩ := h.setIndexEntry (le_refl _) hq
  rw [setAt_numEntries] at hentries
  exact hplaced.moveLastTo hentries k

/-! ## What an update leaves alone -/

def SameHeader (p q : Page K) : Prop := q = { p with slots := q.slots, nextEntry := q.nextEntry }

theorem SameHeader.refl (p : Page K) : SameHeader p p := rfl

theorem SameHeader.generation_eq (h : SameHeader p p') : p'.generation = p.generation := by
  rw [h]

theorem sameHeader_of_placeEntry {k : Nat} {entry : Entry K} {q : Page K}
    (hq : SameHeader p q) (hp' : q.placeEntry cfg k entry = some p') : SameHeader p p' := by
  by_cases hlt : q.nextEntry < offsetsEnd (q.numEntriesAfter k) + entry.sizeof cfg
  · rw [placeEntry_eq_none_iff.mpr hlt] at hp'
    cases hp'
  · rw [placeEntry_eq_some (not_lt.mp hlt)] at hp'
    obtain rfl := Option.some.inj hp'
    rw [SameHeader] at hq ⊢
    rw [hq]

theorem sameHeader_of_setLeafEntry {k : Nat} {newKey : K} {newMessage : Message}
    (hp' : p.setLeafEntry cfg k newKey newMessage = some p') : SameHeader p p' := by
  simp only [Page.setLeafEntry] at hp'
  split at hp'
  · obtain rfl := Option.some.inj hp'
    rfl
  · exact sameHeader_of_placeEntry (SameHeader.refl p) hp'

theorem sameHeader_of_insertLeafEntry {k : Nat} {newKey : K} {newMessage : Message}
    (hp' : p.insertLeafEntry cfg k newKey newMessage = some p') : SameHeader p p' := by
  obtain ⟨q, hq, rfl⟩ := Option.map_eq_some_iff.mp hp'
  have hsame : SameHeader p q := sameHeader_of_setLeafEntry hq
  rw [SameHeader] at hsame ⊢
  rw [hsame]
  rfl

/-! ## Truncation -/

theorem lowestOffset_le (cfg : Config K) (p : Page K) (t : Nat) :
    p.lowestOffset cfg t ≤ cfg.pageSize ∧ ∀ slot ∈ p.slots.take t, p.lowestOffset cfg t ≤ slot.offset := by
  have hfold : ∀ (l : List (Slot K)) (low : Nat),
      l.foldl (fun low slot => min slot.offset low) low ≤ low ∧
        ∀ slot ∈ l, l.foldl (fun low slot => min slot.offset low) low ≤ slot.offset := by
    intro l
    induction l with
    | nil => exact fun low => ⟨le_refl _, fun slot hslot => absurd hslot List.not_mem_nil⟩
    | cons first rest ih =>
        intro low
        obtain ⟨hlow, hrest⟩ := ih (min first.offset low)
        refine ⟨hlow.trans (min_le_right _ _), fun slot hslot => ?_⟩
        rcases List.mem_cons.mp hslot with rfl | hslot
        · exact hlow.trans (min_le_left _ _)
        · exact hrest slot hslot
  exact hfold _ _

theorem le_lowestOffset (p : Page K) (t : Nat) {low : Nat} (hpage : low ≤ cfg.pageSize)
    (hslots : ∀ slot ∈ p.slots.take t, low ≤ slot.offset) : low ≤ p.lowestOffset cfg t := by
  have hfold : ∀ (l : List (Slot K)) (init : Nat), low ≤ init → (∀ slot ∈ l, low ≤ slot.offset) →
      low ≤ l.foldl (fun low slot => min slot.offset low) init := by
    intro l
    induction l with
    | nil => exact fun init hinit _ => hinit
    | cons first rest ih =>
        intro init hinit hall
        exact ih _ (le_min (hall first List.mem_cons_self) hinit) fun slot hslot =>
          hall slot (List.mem_cons_of_mem _ hslot)
  exact hfold _ _ hpage hslots

theorem Placed.takeEntries (h : p.Placed cfg) (t : Nat) :
    Placed cfg { p with slots := p.slots.take t, nextEntry := p.lowestOffset cfg t } := by
  have hlow := lowestOffset_le cfg p t
  refine ⟨?_, hlow.1, fun slot hslot => ⟨hlow.2 slot hslot, (h.inside slot
    (List.mem_of_mem_take hslot)).2⟩, h.apart.sublist (List.take_sublist t p.slots)⟩
  have hnext : p.nextEntry ≤ p.lowestOffset cfg t :=
    p.le_lowestOffset t h.nextEntry_le fun slot hslot => (h.inside slot (List.mem_of_mem_take hslot)).1
  have hlen : offsetsEnd (p.slots.take t).length ≤ offsetsEnd p.numEntries :=
    offsetsEnd_mono (List.length_take_le' t p.slots)
  exact hlen.trans (h.table.trans hnext)

end Page
end Btree
end TreePass
