import TreePass.Btree.RawPage

/-!
# The memory of a page holds its entries

`p.Holds q` says that the memory of `p` holds the entries of the page `q` at the offsets of `q`.
As long as `q` is `Placed`, every function on the memory succeeds exactly where the function on `q`
does, reads nothing but whole entries, and leaves memory that holds the result.
-/

namespace TreePass
namespace Btree

open Lib

variable {K : Type} {cfg : Config K}

namespace PageMemory

variable {m : PageMemory K}

/-! ## What a write leaves alone -/

theorem writeEntry_entryAt (m : PageMemory K) (address : Nat) (entry : Entry K) :
    (m.writeEntry cfg address entry).entryAt address = some entry := if_pos rfl

theorem writeOffset_offsets (m : PageMemory K) (k offset : Nat) :
    (m.writeOffset cfg k offset).offsets k = some offset := if_pos rfl

theorem entryOutside_eq {r : Region} {address : Nat} {entry : Entry K}
    (h : m.entryAt address = some entry)
    (hapart : Region.Apart ⟨address, entry.sizeof cfg⟩ r) :
    m.entryOutside cfg r address = some entry := by
  rw [entryOutside, h, Option.filter_some, if_pos (decide_eq_true hapart)]

theorem offsetOutside_eq {r : Region} {i offset : Nat} (h : m.offsets i = some offset)
    (hapart : (tablePlace i).Apart r) : m.offsetOutside r i = some offset := by
  rw [offsetOutside, if_pos hapart, h]

def HoldsSlot (m : PageMemory K) (i : Nat) (slot : Slot K) : Prop :=
  m.offsets i = some slot.offset ∧ m.entryAt slot.offset = some slot.entry

theorem HoldsSlot.writeEntry {i : Nat} {slot : Slot K} (h : m.HoldsSlot i slot) {address : Nat}
    {entry : Entry K} (hapart : (slot.region cfg).Apart ⟨address, entry.sizeof cfg⟩)
    (htable : offsetsEnd (i + 1) ≤ address) :
    (m.writeEntry cfg address entry).HoldsSlot i slot := by
  refine ⟨offsetOutside_eq h.1 (Or.inl htable), ?_⟩
  have hne : slot.offset ≠ address := by
    rintro rfl
    have hold := Entry.sizeof_pos cfg slot.entry
    have hnew := Entry.sizeof_pos cfg entry
    simp only [Slot.region, Region.Apart, Region.last] at hapart
    omega
  exact (if_neg hne).trans (entryOutside_eq h.2 hapart)

theorem HoldsSlot.writeOffset {i k offset : Nat} {slot : Slot K} (h : m.HoldsSlot i slot)
    (hne : i ≠ k) (hbehind : offsetsEnd (k + 1) ≤ slot.offset) :
    (m.writeOffset cfg k offset).HoldsSlot i slot :=
  ⟨(if_neg hne).trans h.1, entryOutside_eq h.2 (Or.inr hbehind)⟩

theorem holdsSlot_write (m : PageMemory K) {k address : Nat} {entry : Entry K}
    (hbehind : offsetsEnd (k + 1) ≤ address) :
    ((m.writeEntry cfg address entry).writeOffset cfg k address).HoldsSlot k ⟨address, entry⟩ :=
  ⟨writeOffset_offsets _ k address,
    entryOutside_eq (writeEntry_entryAt m address entry) (Or.inr hbehind)⟩

end PageMemory

namespace RawPage

/-- The memory of `p` holds the entries of `q`. -/
structure Holds (p : RawPage K) (q : Page K) : Prop where
  prevAddr : p.prevAddr = q.prevAddr
  nextAddr : p.nextAddr = q.nextAddr
  nextExtentAddr : p.nextExtentAddr = q.nextExtentAddr
  generation : p.generation = q.generation
  height : p.height = q.height
  nextEntry : p.nextEntry = q.nextEntry
  numEntries : p.numEntries = q.numEntries
  slot : ∀ i slot, q.slots[i]? = some slot → p.memory.HoldsSlot i slot

/-- What a function that may return `FALSE` leaves: then it is the page as it was. -/
def Leaves (r : Bool × RawPage K) (p : RawPage K) (o : Option (Page K)) : Prop :=
  match o with
  | some q' => ∃ p', r = (true, p') ∧ p'.Holds q'
  | none => r = (false, p)

def Simulates (r : Except PageFault (Bool × RawPage K)) (p : RawPage K) (o : Option (Page K)) :
    Prop := ∃ x, r = .ok x ∧ Leaves x p o

variable {p : RawPage K} {q : Page K}

theorem Holds.newNumEntries (h : p.Holds q) (k : Nat) : p.newNumEntries k = q.numEntriesAfter k := by
  rw [RawPage.newNumEntries, Page.numEntriesAfter, h.numEntries]

theorem Holds.getOffset (h : p.Holds q) {k : Nat} {slot : Slot K} (hslot : q.slots[k]? = some slot) :
    p.getOffset k = .ok slot.offset := by
  rw [RawPage.getOffset, (h.slot k slot hslot).1]
  rfl

theorem Holds.getLeafEntry (h : p.Holds q) {k : Nat} {slot : Slot K} {e : Tuple K}
    (hslot : q.slots[k]? = some slot) (he : slot.entry = .leaf e) :
    p.getLeafEntry k = .ok (slot.offset, e) := by
  have hread := (h.slot k slot hslot).2
  rw [he] at hread
  simp only [RawPage.getLeafEntry, h.getOffset hslot, bind, Except.bind, hread]

theorem Holds.getIndexEntry (h : p.Holds q) {k : Nat} {slot : Slot K} {e : OndiskIndexEntry K}
    (hslot : q.slots[k]? = some slot) (he : slot.entry = .index e) :
    p.getIndexEntry k = .ok (slot.offset, e) := by
  have hread := (h.slot k slot hslot).2
  rw [he] at hread
  simp only [RawPage.getIndexEntry, h.getOffset hslot, bind, Except.bind, hread]

/-! ## Writing one entry -/

theorem Holds.fillEntry (h : p.Holds q) (hq : q.Placed cfg) {k : Nat} {old : Slot K}
    {entry : Entry K} (hold : q.slots[k]? = some old)
    (hsize : entry.sizeof cfg ≤ old.entry.sizeof cfg) :
    (p.fillEntry cfg old.offset entry).Holds (q.overwriteEntry k entry) := by
  obtain ⟨hk, -⟩ := List.getElem?_eq_some_iff.mp hold
  have hlow := (hq.inside old (List.mem_of_getElem? hold)).1
  have htable : ∀ {i : Nat}, i < q.slots.length → offsetsEnd (i + 1) ≤ old.offset := fun hi =>
    (Page.offsetsEnd_mono hi).trans (hq.table.trans hlow)
  refine ⟨h.prevAddr, h.nextAddr, h.nextExtentAddr, h.generation, h.height, h.nextEntry, ?_,
    fun i slot hslot => ?_⟩
  · rw [Page.numEntries, Page.overwriteEntry, List.length_modify]
    exact h.numEntries
  · rw [Page.overwriteEntry, List.getElem?_modify] at hslot
    obtain ⟨slot₀, hslot₀, rfl⟩ := Option.map_eq_some_iff.mp hslot
    have hi := (List.getElem?_eq_some_iff.mp hslot₀).1
    have hheld := h.slot i slot₀ hslot₀
    by_cases hik : k = i
    · subst hik
      obtain rfl := Option.some.inj (hold.symm.trans hslot₀)
      rw [if_pos rfl]
      exact ⟨PageMemory.offsetOutside_eq hheld.1 (Or.inl (htable hi)),
        PageMemory.writeEntry_entryAt _ _ _⟩
    · rw [if_neg hik]
      refine hheld.writeEntry ?_ (htable hi)
      exact ((hq.apart_of_ne hik hold hslot₀).shrink hsize).symm

theorem Holds.addEntry (h : p.Holds q) {k : Nat} (hk : k ≤ q.numEntries) (entry : Entry K)
    (hinside : ∀ i slot, i ≠ k → q.slots[i]? = some slot → q.nextEntry ≤ slot.offset) :
    Leaves (p.addEntry cfg k entry) p (q.placeEntry cfg k entry) := by
  rw [RawPage.addEntry, h.newNumEntries, h.nextEntry]
  by_cases hlt : q.nextEntry < offsetsEnd (q.numEntriesAfter k) + entry.sizeof cfg
  · rw [Page.placeEntry_eq_none_iff.mpr hlt]
    exact if_pos hlt
  · rw [Page.placeEntry_eq_some (not_lt.mp hlt)]
    refine ⟨_, if_neg hlt, h.prevAddr, h.nextAddr, h.nextExtentAddr, h.generation, h.height, rfl, ?_,
      fun i slot hslot => ?_⟩
    · exact (Page.length_setAt hk).symm
    · have hafter : ∀ {i : Nat}, i < q.numEntriesAfter k →
          offsetsEnd (i + 1) ≤ q.nextEntry - entry.sizeof cfg := fun hi => by
        have hmono := Page.offsetsEnd_mono (Nat.succ_le_of_lt hi)
        rw [Nat.succ_eq_add_one] at hmono
        omega
      have hnew : k < q.numEntriesAfter k := by
        rw [Page.numEntriesAfter]
        split <;> omega
      by_cases hik : i = k
      · subst hik
        have hget : (Page.setAt i (⟨q.nextEntry - entry.sizeof cfg, entry⟩ : Slot K) q.slots)[i]? =
            some ⟨q.nextEntry - entry.sizeof cfg, entry⟩ := Page.getElem?_setAt_self hk
        obtain rfl := Option.some.inj (hget.symm.trans hslot)
        exact PageMemory.holdsSlot_write _ (hafter hnew)
      · have hget := (Page.getElem?_setAt_of_ne hk hik).symm.trans hslot
        have hbehind := hinside i slot hik hget
        have hi := (List.getElem?_eq_some_iff.mp hget).1
        refine ((h.slot i slot hget).writeEntry (Or.inr ?_) ?_).writeOffset hik ?_
        · change q.nextEntry - entry.sizeof cfg + entry.sizeof cfg ≤ slot.offset
          omega
        · exact hafter (lt_of_lt_of_le hi (q.numEntries_le_after k))
        · exact (hafter hnew).trans ((Nat.sub_le _ _).trans hbehind)

theorem Holds.moveLastOffset (h : p.Holds q) (hq : q.Placed cfg) {front : List (Slot K)}
    {last : Slot K} (hslots : q.slots = front ++ [last]) {k : Nat} (hk : k ≤ front.length) :
    ∃ p', p.moveLastOffset cfg k = .ok p' ∧ p'.Holds (q.moveLastTo k) := by
  have hnum : p.numEntries = front.length + 1 := by
    rw [h.numEntries, Page.numEntries, hslots, List.length_append, List.length_singleton]
  have hlast : q.slots[front.length]? = some last := by rw [hslots, List.getElem?_concat_length]
  have hread : p.getOffset (p.numEntries - 1) = .ok last.offset := by
    rw [hnum, Nat.add_sub_cancel]
    exact h.getOffset hlast
  have hmoved : (q.moveLastTo k).slots = front.take k ++ last :: front.drop k := by
    rw [Page.moveLastTo, hslots, List.dropLast_concat, List.getLast?_concat, Option.toList_some,
      List.append_assoc, List.singleton_append]
  -- Where the slot at place `i` of the moved table stood before.
  have hfrom : ∀ {i : Nat} {slot : Slot K}, (q.moveLastTo k).slots[i]? = some slot →
      q.slots[if i < k then i else if i = k then front.length else i - 1]? = some slot ∧
        i < front.length + 1 := by
    intro i slot hslot
    rw [hmoved] at hslot
    have hi := (List.getElem?_eq_some_iff.mp hslot).1
    rw [List.length_append, List.length_cons, List.length_take, List.length_drop,
      Nat.min_eq_left hk] at hi
    refine ⟨?_, by omega⟩
    have hlen : (front.take k).length = k := by rw [List.length_take, Nat.min_eq_left hk]
    by_cases hlt : i < k
    · rw [if_pos hlt, hslots, List.getElem?_append_left (by omega)]
      rwa [List.getElem?_append_left (by omega), List.getElem?_take_of_lt hlt] at hslot
    · rw [if_neg hlt]
      rw [List.getElem?_append_right (by omega), hlen] at hslot
      by_cases heq : i = k
      · subst heq
        rw [if_pos rfl, hlast]
        rwa [Nat.sub_self, List.getElem?_cons_zero] at hslot
      · obtain ⟨d, rfl⟩ : ∃ d, i = k + 1 + d := ⟨i - (k + 1), by omega⟩
        have hd : k + 1 + d - k = d + 1 := by omega
        have hd' : k + 1 + d - 1 = k + d := by omega
        rw [hd, List.getElem?_cons_succ, List.getElem?_drop] at hslot
        rw [if_neg heq, hd', hslots, List.getElem?_append_left (by omega)]
        exact hslot
  have htable : ∀ {i : Nat} {slot : Slot K}, q.slots[i]? = some slot → offsetsEnd (front.length + 1) ≤ slot.offset := by
    intro i slot hslot
    have hlow := (hq.inside slot (List.mem_of_getElem? hslot)).1
    have hbound := hq.table
    rw [← h.numEntries, hnum] at hbound
    omega
  let moved := (p.memory.moveOffsets cfg k (p.numEntries - k - 1)).writeOffset cfg k last.offset
  refine ⟨{ p with memory := moved }, ?_, h.prevAddr, h.nextAddr, h.nextExtentAddr, h.generation,
    h.height, h.nextEntry, ?_, fun i slot hslot => ?_⟩
  · simp only [RawPage.moveLastOffset, hread, bind, Except.bind]
    exact if_neg (by omega)
  · rw [Page.numEntries, hmoved, List.length_append, List.length_cons, List.length_take,
      List.length_drop, Nat.min_eq_left hk]
    change p.numEntries = _
    omega
  · obtain ⟨hold, hi⟩ := hfrom hslot
    obtain ⟨hoffset, hentry⟩ := h.slot _ slot hold
    have hbehind := htable hold
    refine ⟨?_, ?_⟩
    · change (if i = k then some last.offset else if k < i ∧ i ≤ k + (p.numEntries - k - 1) then
        p.memory.offsets (i - 1) else p.memory.offsets i) = some slot.offset
      by_cases heq : i = k
      · subst heq
        rw [if_neg (lt_irrefl i), if_pos rfl, hlast] at hold
        rw [if_pos rfl, Option.some.inj hold]
      · rw [if_neg heq]
        by_cases hlt : i < k
        · rw [if_pos hlt] at hoffset
          rw [if_neg (by omega)]
          exact hoffset
        · rw [if_neg hlt, if_neg heq] at hoffset
          rw [if_pos (by omega)]
          exact hoffset
    · have hregion : Region.Apart ⟨slot.offset, slot.entry.sizeof cfg⟩
          ⟨offsetsEnd (k + 1), sizeofTableEntry * (p.numEntries - k - 1)⟩ := by
        refine Or.inr ?_
        change offsetsEnd (k + 1) + sizeofTableEntry * (p.numEntries - k - 1) ≤ slot.offset
        simp only [offsetsEnd, sizeofTableEntry] at hbehind ⊢
        omega
      have hplace : Region.Apart ⟨slot.offset, slot.entry.sizeof cfg⟩ (tablePlace k) := by
        refine Or.inr ?_
        change offsetsEnd (k + 1) ≤ slot.offset
        exact (Page.offsetsEnd_mono (by omega)).trans hbehind
      exact PageMemory.entryOutside_eq (PageMemory.entryOutside_eq hentry hregion) hplace

/-! ## Leaf entries -/

private theorem Holds.insert {r : Except PageFault (Bool × RawPage K)}
    {o : Option (Page K)} (entry : Entry K) (hset : Simulates r p o)
    (hnew : ∀ q', o = some q' → q'.Placed cfg ∧ q'.entries = q.entries ++ [entry]) {k : Nat}
    (hk : k ≤ q.numEntries) :
    Simulates (r.bind fun r => if r.1 then (r.2.moveLastOffset cfg k).bind fun moved =>
      .ok (true, moved) else .ok (false, r.2)) p (o.map fun q' => q'.moveLastTo k) := by
  obtain ⟨x, rfl, hx⟩ := hset
  cases o with
  | none =>
      obtain rfl := hx
      exact ⟨_, rfl, rfl⟩
  | some q' =>
      obtain ⟨p', rfl, hp'⟩ := hx
      obtain ⟨hplaced, hentries⟩ := hnew q' rfl
      obtain ⟨front, back, hsplit, hfront, hback⟩ := List.map_eq_append_iff.mp hentries
      obtain ⟨last, rfl, -⟩ := List.map_eq_singleton_iff.mp hback
      have hlen : k ≤ front.length := by
        have hcount := congrArg List.length hfront
        rw [List.length_map, Page.length_entries] at hcount
        omega
      obtain ⟨moved, hmoved, hholds⟩ := hp'.moveLastOffset hplaced hsplit hlen
      refine ⟨(true, moved), ?_, moved, rfl, hholds⟩
      simp only [Except.bind, if_true, hmoved]

section Leaf

variable (h : p.Holds q) (hq : q.Placed cfg) (hleaf : q.IsLeaf)

include h hq hleaf

theorem Holds.setLeafEntry {k : Nat} (hk : k ≤ q.numEntries) (newKey : K) (newMessage : Message) :
    Simulates (p.setLeafEntry cfg k newKey newMessage) p (q.setLeafEntry cfg k newKey newMessage) := by
  have hadd : Leaves (p.addEntry cfg k (.leaf ⟨newKey, newMessage⟩)) p
      (q.placeEntry cfg k (.leaf ⟨newKey, newMessage⟩)) :=
    h.addEntry hk _ fun i slot _ hslot => (hq.inside slot (List.mem_of_getElem? hslot)).1
  rw [RawPage.setLeafEntry, Page.setLeafEntry]
  simp only [h.numEntries]
  by_cases hlt : k < q.numEntries
  · obtain ⟨old, hold⟩ : ∃ old, q.slots[k]? = some old := ⟨_, List.getElem?_eq_getElem hlt⟩
    obtain ⟨e, he⟩ := hleaf old.entry (List.mem_map.mpr ⟨old, List.mem_of_getElem? hold, rfl⟩)
    rw [if_pos hlt, h.getLeafEntry hold he, hold]
    simp only [bind, Except.bind, Option.any_some, decide_eq_true_eq, he]
    split
    next hsize => exact ⟨_, rfl, _, rfl, h.fillEntry hq hold (he ▸ hsize)⟩
    next => exact ⟨_, rfl, hadd⟩
  · obtain rfl : k = q.numEntries := le_antisymm hk (not_lt.mp hlt)
    rw [if_neg hlt, if_neg hlt, Page.getElem?_numEntries]
    exact ⟨_, rfl, hadd⟩

theorem Holds.insertLeafEntry {k : Nat} (hk : k ≤ q.numEntries) (newKey : K)
    (newMessage : Message) :
    Simulates (p.insertLeafEntry cfg k newKey newMessage) p
      (q.insertLeafEntry cfg k newKey newMessage) := by
  have hset := h.setLeafEntry hq hleaf (le_refl _) newKey newMessage
  rw [← h.numEntries] at hset
  refine Holds.insert (.leaf ⟨newKey, newMessage⟩) ?_ (fun q' hq' => ?_) hk
  · rw [h.numEntries] at hset ⊢
    exact hset
  · obtain ⟨hplaced, hentries⟩ := hq.setLeafEntry (le_refl _) hq'
    rw [Page.setAt_numEntries] at hentries
    exact ⟨hplaced, hentries⟩

omit hq in
theorem Holds.canSetLeafEntry (k : Nat) (newKey : K) (newMessage : Message) :
    p.canSetLeafEntry cfg k newKey newMessage = .ok (q.canSetLeafEntry cfg k newKey newMessage) := by
  rw [RawPage.canSetLeafEntry, Page.canSetLeafEntry]
  simp only [h.numEntries, h.nextEntry, h.newNumEntries]
  by_cases hgt : q.numEntries < k
  · rw [if_pos hgt, if_pos hgt]
  · rw [if_neg hgt, if_neg hgt]
    by_cases hlt : k < q.numEntries
    · obtain ⟨old, hold⟩ : ∃ old, q.slots[k]? = some old := ⟨_, List.getElem?_eq_getElem hlt⟩
      obtain ⟨e, he⟩ := hleaf old.entry (List.mem_map.mpr ⟨old, List.mem_of_getElem? hold, rfl⟩)
      rw [if_pos hlt, h.getLeafEntry hold he, hold]
      simp only [bind, Except.bind, Option.any_some, decide_eq_true_eq, he, if_pos hlt,
        Page.numEntriesAfter]
      split <;> rfl
    · obtain rfl : k = q.numEntries := le_antisymm (not_lt.mp hgt) (not_lt.mp hlt)
      rw [if_neg hlt, Page.getElem?_numEntries]
      simp [Page.numEntriesAfter]

end Leaf

/-! ## Index entries -/

section Index

variable (h : p.Holds q) (hq : q.Placed cfg) (hindex : q.IsIndex)

include h hq hindex

theorem Holds.setIndexEntry {k : Nat} (hk : k ≤ q.numEntries) (newPivotKey : Key K) (newAddr : Addr)
    (stats : PivotStats) :
    Simulates (p.setIndexEntry cfg k newPivotKey newAddr stats) p
      (q.setIndexEntry cfg k newPivotKey newAddr stats) := by
  have hadd : Leaves (p.addEntry cfg k (.index ⟨⟨newAddr, stats⟩, newPivotKey⟩)) p
      (q.placeEntry cfg k (.index ⟨⟨newAddr, stats⟩, newPivotKey⟩)) :=
    h.addEntry hk _ fun i slot _ hslot => (hq.inside slot (List.mem_of_getElem? hslot)).1
  rw [RawPage.setIndexEntry, Page.setIndexEntry]
  simp only [h.numEntries, h.nextEntry, h.newNumEntries]
  rw [if_neg (not_lt.mpr hk)]
  by_cases hlt : k < q.numEntries
  · obtain ⟨old, hold⟩ : ∃ old, q.slots[k]? = some old := ⟨_, List.getElem?_eq_getElem hlt⟩
    obtain ⟨e, he⟩ := hindex old.entry (List.mem_map.mpr ⟨old, List.mem_of_getElem? hold, rfl⟩)
    have hafter : q.numEntriesAfter k = q.numEntries := if_pos hlt
    rw [if_pos hlt, h.getIndexEntry hold he, hold, hafter]
    simp only [bind, Except.bind, he]
    split
    next hfirst =>
      -- There is room, so the function does not return `FALSE` after moving `next_entry`.
      let q' : Page K := { q with nextEntry := q.nextEntry + (Entry.index e).sizeof cfg }
      let p' : RawPage K := { p with
        nextEntry := q.nextEntry + (Entry.index e).sizeof cfg
        numEntries := q.numEntries }
      have h' : p'.Holds q' :=
        ⟨h.prevAddr, h.nextAddr, h.nextExtentAddr, h.generation, h.height, rfl, rfl, h.slot⟩
      have hadd' : Leaves (p'.addEntry cfg k (.index ⟨⟨newAddr, stats⟩, newPivotKey⟩)) p'
          (q'.placeEntry cfg k (.index ⟨⟨newAddr, stats⟩, newPivotKey⟩)) := by
        refine h'.addEntry hk _ fun i slot hne hslot => ?_
        have hbehind := hq.behind_first hold hfirst.1 hne hslot
        rw [he] at hbehind
        exact hbehind
      have hroom := hfirst.2
      rw [← hafter] at hroom
      have hsome := Page.placeEntry_eq_some (p := q') hroom
      refine ⟨_, rfl, ?_⟩
      change Leaves (p'.addEntry cfg k _) p (q'.placeEntry cfg k _)
      rw [hsome] at hadd' ⊢
      exact hadd'
    next =>
      split
      next hsize => exact ⟨_, rfl, _, rfl, h.fillEntry hq hold (he ▸ hsize)⟩
      next => exact ⟨_, rfl, hadd⟩
  · obtain rfl : k = q.numEntries := le_antisymm hk (not_lt.mp hlt)
    rw [if_neg hlt, Page.getElem?_numEntries]
    exact ⟨_, rfl, hadd⟩

theorem Holds.insertIndexEntry {k : Nat} (hk : k ≤ q.numEntries) (newPivotKey : Key K)
    (newAddr : Addr) (stats : PivotStats) :
    Simulates (p.insertIndexEntry cfg k newPivotKey newAddr stats) p
      (q.insertIndexEntry cfg k newPivotKey newAddr stats) := by
  have hset := h.setIndexEntry hq hindex (le_refl _) newPivotKey newAddr stats
  rw [← h.numEntries] at hset
  refine Holds.insert (.index ⟨⟨newAddr, stats⟩, newPivotKey⟩) ?_ (fun q' hq' => ?_) hk
  · rw [h.numEntries] at hset ⊢
    exact hset
  · obtain ⟨hplaced, hentries⟩ := hq.setIndexEntry (le_refl _) hq'
    rw [Page.setAt_numEntries] at hentries
    exact ⟨hplaced, hentries⟩

end Index

end RawPage
end Btree
end TreePass
