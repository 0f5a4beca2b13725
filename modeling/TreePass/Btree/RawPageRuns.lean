import TreePass.Btree.PageOps
import TreePass.Lib.Transition

/-!
# Runs of operations on a page

A page that `btree_init_hdr` has started, on memory that may hold anything, and then any sequence of
operations.

* `RawPage.Represents` is the representation invariant, read off the memory: the offsets table leads
  to whole entries that lie behind `next_entry` and share no byte.
* `pageOps_act_on_entries`: it holds after every run, and every operation acts on the list of
  entries as the operation on lists does.
* `defragmentLeaf_drops_old_entry`: `btree_defragment_leaf` is the identity only for a specification
  that replaces nothing.
-/

namespace TreePass
namespace Btree

open Lib

variable {K : Type}

/-! ## The entries of a page, read from memory -/

/-- Place `i` of the offsets table with the entry it leads to. -/
def RawPage.readSlot (hdr : RawPage K) (i : Nat) : Option (Slot K) :=
  (hdr.memory.offsets i).bind fun offset =>
    (hdr.memory.entryAt offset).map fun entry => ⟨offset, entry⟩

def RawPage.readSlots (hdr : RawPage K) : Nat → Option (List (Slot K))
  | 0 => some []
  | n + 1 => (hdr.readSlots n).bind fun slots => (hdr.readSlot n).map fun slot => slots ++ [slot]

/-- The entries of some slots, with the child addresses as they are read. -/
def logicalEntries (slots : List (Slot K)) : List (Entry K) :=
  slots.map fun slot => slot.entry.maskAddr

/-- **The representation invariant.**  The table of a page leads to the given slots, it ends at or
before `next_entry`, and the entries lie between `next_entry` and the end of the page without an
overlap. -/
structure RawPage.Represents (cfg : Config K) (kind : PageKind) (hdr : RawPage K)
    (slots : List (Slot K)) : Prop where
  read : hdr.readSlots hdr.numEntries = some slots
  length : slots.length = hdr.numEntries
  kind : ∀ slot ∈ slots, slot.entry.kind = kind
  table : offsetsEnd hdr.numEntries ≤ hdr.nextEntry
  nextEntry_le : hdr.nextEntry ≤ cfg.pageSize
  inside : ∀ slot ∈ slots, hdr.nextEntry ≤ slot.offset ∧
    slot.offset + slot.entry.sizeof cfg ≤ cfg.pageSize
  apart : slots.Pairwise fun a b => a.offset + a.entry.sizeof cfg ≤ b.offset ∨
    b.offset + b.entry.sizeof cfg ≤ a.offset

/-- What an operation does on memory that represents some slots. -/
inductive PageOp.Does (cfg : Config K) (op : PageOp K) (hdr : RawPage K) (slots : List (Slot K)) :
    Prop
  /-- It succeeds, and acts on the list of entries. -/
  | done {o : Outcome K} {slots' : List (Slot K)} (hrun : op.perform cfg hdr = .ok o)
      (hreturned : o.returned = true) (hrepresents : o.page.Represents cfg op.kind slots')
      (hlist : logicalEntries slots' = op.onEntries o.spec (logicalEntries slots))
  /-- It returns `FALSE`, and the page is as it was. -/
  | refused {o : Outcome K} (hrun : op.perform cfg hdr = .ok o) (hreturned : o.returned = false)
      (hpage : o.page = hdr)
  /-- The update of a split does not fit into the right half. -/
  | overflow (hrun : op.perform cfg hdr = .error .asserts) (hover : op.Overflows cfg hdr)

def pageSystem (cfg : Config K) (kind : PageKind) : System (RawPage K) (PageOp K) where
  init hdr := ∃ memory, hdr = RawPage.initHdr cfg memory
  step hdr op hdr' := op.kind = kind ∧ op.Legal hdr.numEntries ∧
    ∃ o, op.perform cfg hdr = .ok o ∧ o.page = hdr'

/-! ## The invariant -/

variable {cfg : Config K} {kind : PageKind} {p : RawPage K} {q : Page K}

namespace RawPage

theorem Holds.readSlots (h : p.Holds q) {n : Nat} (hn : n ≤ q.slots.length) :
    p.readSlots n = some (q.slots.take n) := by
  induction n with
  | zero => rfl
  | succ n ih =>
      have hslot := List.getElem?_eq_getElem (Nat.lt_of_succ_le hn)
      obtain ⟨hoffset, hentry⟩ := h.slot n _ hslot
      have hread : p.readSlot n = some q.slots[n] := by
        rw [RawPage.readSlot, hoffset, Option.bind_some, hentry]
        rfl
      rw [RawPage.readSlots, ih (Nat.le_of_succ_le hn), hread, List.take_add_one, hslot]
      rfl

theorem Holds.represents (h : p.Holds q) (hq : q.Placed cfg)
    (hkind : ∀ entry ∈ q.entries, entry.kind = kind) : p.Represents cfg kind q.slots where
  read := by
    have hall := h.readSlots (le_refl q.slots.length)
    rw [List.take_length] at hall
    rw [h.numEntries]
    exact hall
  length := h.numEntries.symm
  kind := fun slot hslot => hkind slot.entry (List.mem_map.mpr ⟨slot, hslot, rfl⟩)
  table := by
    rw [h.numEntries, h.nextEntry]
    exact hq.table
  nextEntry_le := by
    rw [h.nextEntry]
    exact hq.nextEntry_le
  inside := by
    rw [h.nextEntry]
    exact hq.inside
  apart := hq.apart

theorem logicalEntries_slots (q : Page K) : logicalEntries q.slots = q.logical := by
  rw [Page.logical, Page.entries, List.map_map]
  rfl

theorem holds_initHdr (cfg : Config K) (memory : PageMemory K) :
    (initHdr cfg memory).Holds (Page.init cfg) :=
  ⟨rfl, rfl, rfl, rfl, rfl, rfl, rfl, fun _ _ hslot => by cases hslot⟩

theorem kind_of_onEntries {op : PageOp K} {after : Option (LeafIncorporateSpec K)} {q' : Page K}
    (hkind : ∀ entry ∈ q.entries, entry.kind = op.kind)
    (hlist : q'.logical = op.onEntries after q.logical) :
    ∀ entry ∈ q'.entries, entry.kind = op.kind := by
  intro entry hentry
  have hlogical : ∀ entry ∈ q.logical, entry.kind = op.kind := fun entry hmem => by
    obtain ⟨old, hold, rfl⟩ := List.mem_map.mp hmem
    rw [Entry.kind_maskAddr]
    exact hkind old hold
  have hmem : entry.maskAddr ∈ q'.logical := List.mem_map.mpr ⟨entry, hentry, rfl⟩
  rw [← Entry.kind_maskAddr]
  exact PageOp.onEntries_kind hlogical _ (hlist ▸ hmem)

end RawPage

theorem reachable_holds (hpage : sizeofHdr ≤ cfg.pageSize)
    (h : (pageSystem cfg kind).Reachable p) :
    ∃ q, p.Holds q ∧ q.Placed cfg ∧ ∀ entry ∈ q.entries, entry.kind = kind := by
  let P : RawPage K → Prop := fun p =>
    ∃ q, p.Holds q ∧ q.Placed cfg ∧ ∀ entry ∈ q.entries, entry.kind = kind
  refine System.Reachable.invariant (P := P) h (fun s hinit => ?_) fun s op s' hinv hstep => ?_
  · obtain ⟨memory, rfl⟩ := hinit
    exact ⟨Page.init cfg, RawPage.holds_initHdr cfg memory, Page.placed_init hpage,
      fun _ hentry => absurd hentry List.not_mem_nil⟩
  · obtain ⟨q, hholds, hplaced, hkind⟩ := hinv
    obtain ⟨rfl, hlegal, o, hrun, rfl⟩ := hstep
    rw [hholds.numEntries] at hlegal
    cases hholds.simulated hplaced hkind hlegal with
    | done hrun' hreturned hholds' hplaced' hlist =>
        obtain rfl := Except.ok.inj (hrun.symm.trans hrun')
        exact ⟨_, hholds', hplaced', RawPage.kind_of_onEntries hkind hlist⟩
    | refused hrun' hreturned hsame =>
        obtain rfl := Except.ok.inj (hrun.symm.trans hrun')
        exact ⟨q, hsame ▸ hholds, hplaced, hkind⟩
    | overflow hrun' hover =>
        rw [hrun] at hrun'
        cases hrun'

/-- **The operations of a page act on its list of entries.**  After every run the page represents
some slots, every operation does what it is for, and `btree_can_set_leaf_entry` says whether
`btree_set_leaf_entry` will succeed. -/
theorem pageOps_act_on_entries (hpage : sizeofHdr ≤ cfg.pageSize)
    (h : (pageSystem cfg kind).Reachable p) :
    ∃ slots, p.Represents cfg kind slots ∧
      (∀ op : PageOp K, op.kind = kind → op.Legal p.numEntries → op.Does cfg p slots) ∧
      (kind = .leaf → ∀ k newKey newMessage,
        p.canSetLeafEntry cfg k newKey newMessage = .ok true ↔
          ∃ p', p.setLeafEntry cfg k newKey newMessage = .ok (true, p')) := by
  obtain ⟨q, hholds, hplaced, hkind⟩ := reachable_holds hpage h
  refine ⟨q.slots, hholds.represents hplaced hkind, ?_, ?_⟩
  · rintro op rfl hlegal
    rw [hholds.numEntries] at hlegal
    cases hholds.simulated hplaced hkind hlegal with
    | done hrun hreturned hholds' hplaced' hlist =>
        refine .done hrun hreturned
          (hholds'.represents hplaced' (RawPage.kind_of_onEntries hkind hlist)) ?_
        rw [RawPage.logicalEntries_slots, RawPage.logicalEntries_slots, hlist]
    | refused hrun hreturned hsame => exact .refused hrun hreturned hsame
    | overflow hrun hover => exact .overflow hrun hover
  · rintro rfl k newKey newMessage
    have hleaf : q.IsLeaf := fun entry hentry => entry.kind_eq_leaf.mp (hkind entry hentry)
    rw [hholds.canSetLeafEntry hleaf]
    by_cases hk : k ≤ q.numEntries
    · rw [Except.ok.injEq, Page.canSetLeafEntry_iff hk]
      obtain ⟨x, hrun, hleaves⟩ := hholds.setLeafEntry hplaced hleaf hk newKey newMessage
      rw [hrun]
      cases hset : q.setLeafEntry cfg k newKey newMessage with
      | none =>
          rw [hset] at hleaves
          obtain rfl := hleaves
          simp
      | some q' =>
          rw [hset] at hleaves
          obtain ⟨p', rfl, -⟩ := hleaves
          simp
    · have hgt := not_le.mp hk
      have hno : q.canSetLeafEntry cfg k newKey newMessage = false := if_pos hgt
      have hasserts : p.setLeafEntry cfg k newKey newMessage = .error .asserts := by
        simp only [RawPage.setLeafEntry, hholds.numEntries]
        rw [if_neg (by omega), if_pos hgt]
      rw [hno, hasserts]
      simp

/-! ## Defragmentation and an update -/

section Example

def exampleConfig : Config Nat := ⟨128, fun _ => 4⟩

def emptyPage : RawPage Nat := RawPage.initHdr exampleConfig ⟨fun _ => none, fun _ => none⟩

def oneEntryPage : RawPage Nat :=
  (emptyPage.addEntry exampleConfig 0 (.leaf ⟨7, ⟨.insert, [1, 2]⟩⟩)).2

def exampleSpec : LeafIncorporateSpec Nat := ⟨7, 0, .stillExists, ⟨.insert, [3, 4, 5]⟩⟩

theorem oneEntryPage_reachable : (pageSystem exampleConfig .leaf).Reachable oneEntryPage := by
  let op : PageOp Nat := .setLeafEntry 0 7 ⟨.insert, [1, 2]⟩
  have hstep : (pageSystem exampleConfig .leaf).step emptyPage op oneEntryPage :=
    ⟨rfl, Nat.le_refl 0, ⟨true, oneEntryPage, none⟩, rfl, rfl⟩
  exact ⟨emptyPage, _, ⟨_, rfl⟩, System.Run.snoc System.Run.nil hstep⟩

theorem pageOps_act_on_entries_oneEntry :
    ∃ slots, oneEntryPage.Represents exampleConfig .leaf slots ∧
      (∀ op : PageOp Nat, op.kind = .leaf → op.Legal oneEntryPage.numEntries →
        op.Does exampleConfig oneEntryPage slots) ∧
      (PageKind.leaf = .leaf → ∀ k newKey newMessage,
        oneEntryPage.canSetLeafEntry exampleConfig k newKey newMessage = .ok true ↔
          ∃ p', oneEntryPage.setLeafEntry exampleConfig k newKey newMessage = .ok (true, p')) :=
  pageOps_act_on_entries (by decide) oneEntryPage_reachable

/-- `btree_defragment_leaf` leaves out the entry that the specification replaces. -/
theorem defragmentLeaf_drops_old_entry :
    ∃ (hdr : RawPage Nat) (o : Outcome Nat), (pageSystem exampleConfig .leaf).Reachable hdr ∧
      (PageOp.defragmentLeaf exampleSpec).perform exampleConfig hdr = .ok o ∧
      (hdr.readSlots hdr.numEntries).map logicalEntries =
        some [.leaf ⟨7, ⟨.insert, [1, 2]⟩⟩] ∧
      (o.page.readSlots o.page.numEntries).map logicalEntries = some [] :=
  ⟨oneEntryPage, ⟨true, oneEntryPage.resetNodeEntries exampleConfig, some _⟩,
    oneEntryPage_reachable, rfl, rfl, rfl⟩

end Example

end Btree
end TreePass
