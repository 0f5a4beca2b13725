import TreePass.Btree.Rebuild

/-!
# The memory of a B-tree page

A page below the model of `Btree.Page`: behind the header there is only memory, in which the
functions find the offsets table and the entries by address.

* `PageMemory` knows which offset stands at each place of the table and which entry stands whole at
  each address.  A write destroys every offset and every entry that it overlaps, so that nothing
  keeps two entries apart but the addresses the code computes.
* `none` is memory that is neither: what was there before, or what a write has destroyed.  To read
  it as an offset or as an entry is a fault, and so is an assertion that fails.
* The functions of `btree.c` on one page are translated over it, line by line.

The addresses are natural numbers: a page has 4096 bytes, so they fit the 16 bits they are stored
in.
-/

namespace TreePass
namespace Btree

open Lib

/-- What stops a function on a page. -/
inductive PageFault where
  /-- An assertion fails. -/
  | asserts
  /-- Memory is read as what it does not hold. -/
  | garbage
  deriving DecidableEq, Repr

/-- The memory behind the header of a page. -/
structure PageMemory (K : Type) where
  offsets : Nat → Option Nat
  entryAt : Nat → Option (Entry K)

/-- `btree_hdr` and the memory behind it. -/
structure RawPage (K : Type) where
  prevAddr : Addr
  nextAddr : Addr
  nextExtentAddr : Addr
  generation : Nat
  height : Nat
  nextEntry : Nat
  numEntries : Nat
  memory : PageMemory K

variable {K : Type} (cfg : Config K)

/-! ## Memory -/

/-- The bytes of place `i` of the offsets table. -/
def tablePlace (i : Nat) : Region := ⟨offsetsEnd i, sizeofTableEntry⟩

instance (r r' : Region) : Decidable (r.Apart r') :=
  inferInstanceAs (Decidable (r.last ≤ r'.base ∨ r'.last ≤ r.base))

namespace PageMemory

variable (m : PageMemory K)

/-- The entry that is left at an address after a write to a region. -/
def entryOutside (r : Region) (address : Nat) : Option (Entry K) :=
  (m.entryAt address).filter fun entry => decide (Region.Apart ⟨address, entry.sizeof cfg⟩ r)

/-- The offset that is left at a place of the table after a write to a region. -/
def offsetOutside (r : Region) (i : Nat) : Option Nat :=
  if (tablePlace i).Apart r then m.offsets i else none

def writeEntry (address : Nat) (entry : Entry K) : PageMemory K where
  offsets := m.offsetOutside ⟨address, entry.sizeof cfg⟩
  entryAt a :=
    if a = address then some entry else m.entryOutside cfg ⟨address, entry.sizeof cfg⟩ a

/-- Write place `k` of the offsets table. -/
def writeOffset (k offset : Nat) : PageMemory K where
  offsets i := if i = k then some offset else m.offsets i
  entryAt := m.entryOutside cfg (tablePlace k)

/-- `memmove` of `count` places of the table from `k` on, one place up. -/
def moveOffsets (k count : Nat) : PageMemory K where
  offsets i := if k < i ∧ i ≤ k + count then m.offsets (i - 1) else m.offsets i
  entryAt := m.entryOutside cfg ⟨offsetsEnd (k + 1), sizeofTableEntry * count⟩

end PageMemory

namespace RawPage

variable (hdr : RawPage K)

/-- `btree_init_hdr`, on memory that may hold anything. -/
def initHdr (memory : PageMemory K) : RawPage K := ⟨0, 0, 0, 0, 0, cfg.pageSize, 0, memory⟩

/-- `btree_reset_node_entries`. -/
def resetNodeEntries : RawPage K := { hdr with numEntries := 0, nextEntry := cfg.pageSize }

/-- `hdr->offsets[k]`. -/
def getOffset (k : Nat) : Except PageFault Nat :=
  (hdr.memory.offsets k).elim (.error .garbage) .ok

/-- `btree_get_leaf_entry`: the address of the entry and the entry. -/
def getLeafEntry (k : Nat) : Except PageFault (Nat × Tuple K) := do
  let offset ← hdr.getOffset k
  match hdr.memory.entryAt offset with
  | some (.leaf e) => .ok (offset, e)
  | _ => .error .garbage

/-- `btree_get_index_entry`. -/
def getIndexEntry (k : Nat) : Except PageFault (Nat × OndiskIndexEntry K) := do
  let offset ← hdr.getOffset k
  match hdr.memory.entryAt offset with
  | some (.index e) => .ok (offset, e)
  | _ => .error .garbage

/-! ## Setting and inserting -/

/-- `btree_fill_leaf_entry` and `btree_fill_index_entry`. -/
def fillEntry (address : Nat) (entry : Entry K) : RawPage K :=
  { hdr with memory := hdr.memory.writeEntry cfg address entry }

/-- The number of entries after one has been set at `k`. -/
def newNumEntries (k : Nat) : Nat := if k < hdr.numEntries then hdr.numEntries else k + 1

/-- The common end of `btree_set_leaf_entry` and `btree_set_index_entry`: a new entry below
`next_entry`. -/
def addEntry (k : Nat) (entry : Entry K) : Bool × RawPage K :=
  if hdr.nextEntry < offsetsEnd (hdr.newNumEntries k) + entry.sizeof cfg then
    (false, hdr)
  else
    let offset := hdr.nextEntry - entry.sizeof cfg
    (true, { hdr with
      memory := (hdr.memory.writeEntry cfg offset entry).writeOffset cfg k offset
      numEntries := hdr.newNumEntries k
      nextEntry := offset })

/-- `btree_set_index_entry`. -/
def setIndexEntry (k : Nat) (newPivotKey : Key K) (newAddr : Addr) (stats : PivotStats) :
    Except PageFault (Bool × RawPage K) := do
  let entry := Entry.index ⟨⟨newAddr, stats⟩, newPivotKey⟩
  if hdr.numEntries < k then
    .error .asserts
  else if k < hdr.numEntries then
    let old ← hdr.getIndexEntry k
    let oldSize := (Entry.index old.2).sizeof cfg
    if hdr.nextEntry = old.1 ∧
        offsetsEnd (hdr.newNumEntries k) + entry.sizeof cfg ≤ hdr.nextEntry + oldSize then
      .ok ({ hdr with nextEntry := hdr.nextEntry + oldSize }.addEntry cfg k entry)
    else if entry.sizeof cfg ≤ oldSize then
      .ok (true, hdr.fillEntry cfg old.1 entry)
    else
      .ok (hdr.addEntry cfg k entry)
  else
    .ok (hdr.addEntry cfg k entry)

/-- The offset written last goes to place `k` of the table, the others move up. -/
def moveLastOffset (k : Nat) : Except PageFault (RawPage K) := do
  let offset ← hdr.getOffset (hdr.numEntries - 1)
  if hdr.numEntries ≤ k then
    .error .garbage
  else
    .ok { hdr with
      memory := (hdr.memory.moveOffsets cfg k (hdr.numEntries - k - 1)).writeOffset cfg k offset }

/-- `btree_insert_index_entry`. -/
def insertIndexEntry (k : Nat) (newPivotKey : Key K) (newAddr : Addr) (stats : PivotStats) :
    Except PageFault (Bool × RawPage K) := do
  let r ← hdr.setIndexEntry cfg hdr.numEntries newPivotKey newAddr stats
  if r.1 then
    let moved ← r.2.moveLastOffset cfg k
    .ok (true, moved)
  else
    .ok (false, r.2)

/-- `btree_can_set_leaf_entry`. -/
def canSetLeafEntry (k : Nat) (newKey : K) (newMessage : Message) : Except PageFault Bool := do
  let size := leafEntryRequiredCapacity cfg newKey newMessage
  if hdr.numEntries < k then
    .ok false
  else if k < hdr.numEntries then
    let old ← hdr.getLeafEntry k
    if size ≤ (Entry.leaf old.2).sizeof cfg then
      .ok true
    else
      .ok (!decide (hdr.nextEntry < offsetsEnd (hdr.newNumEntries k) + size))
  else
    .ok (!decide (hdr.nextEntry < offsetsEnd (hdr.newNumEntries k) + size))

/-- `btree_set_leaf_entry`. -/
def setLeafEntry (k : Nat) (newKey : K) (newMessage : Message) :
    Except PageFault (Bool × RawPage K) := do
  let entry := Entry.leaf ⟨newKey, newMessage⟩
  if k < hdr.numEntries then
    let old ← hdr.getLeafEntry k
    if entry.sizeof cfg ≤ (Entry.leaf old.2).sizeof cfg then
      .ok (true, hdr.fillEntry cfg old.1 entry)
    else
      .ok (hdr.addEntry cfg k entry)
  else if hdr.numEntries < k then
    .error .asserts
  else
    .ok (hdr.addEntry cfg k entry)

/-- `btree_insert_leaf_entry`. -/
def insertLeafEntry (k : Nat) (newKey : K) (newMessage : Message) :
    Except PageFault (Bool × RawPage K) := do
  let r ← hdr.setLeafEntry cfg hdr.numEntries newKey newMessage
  if r.1 then
    let moved ← r.2.moveLastOffset cfg k
    .ok (true, moved)
  else
    .ok (false, r.2)

/-! ## Leaves -/

/-- `btree_can_perform_leaf_incorporate_spec`. -/
def canPerformLeafIncorporateSpec (spec : LeafIncorporateSpec K) : Except PageFault Bool :=
  match spec.oldEntryState with
  | .stillExists => hdr.canSetLeafEntry cfg spec.idx spec.tupleKey spec.msg
  | _ => hdr.canSetLeafEntry cfg hdr.numEntries spec.tupleKey spec.msg

/-- `btree_try_perform_leaf_incorporate_spec`: the generation the update gets, if it fits, and the
page. -/
def tryPerformLeafIncorporateSpec (spec : LeafIncorporateSpec K) :
    Except PageFault (Option Nat × RawPage K) := do
  let r ←
    match spec.oldEntryState with
    | .stillExists => hdr.setLeafEntry cfg spec.idx spec.tupleKey spec.msg
    | _ => hdr.insertLeafEntry cfg spec.idx spec.tupleKey spec.msg
  if r.1 then
    .ok (some r.2.generation, { r.2 with generation := r.2.generation + 1 })
  else
    .ok (none, r.2)

/-- The turns of the loops that copy leaf entries from another page: the number of turns, the place
to read next and the place to set next. -/
def copyLeafEntries (source : RawPage K) (spec : LeafIncorporateSpec K) :
    Nat → Nat → Nat → RawPage K → Except PageFault (RawPage K)
  | 0, _, _, hdr => .ok hdr
  | turns + 1, i, dstIdx, hdr =>
      if spec.oldEntryState = .stillExists ∧ spec.idx = i then
        copyLeafEntries source spec turns (i + 1) dstIdx hdr
      else do
        let e ← source.getLeafEntry i
        let r ← hdr.setLeafEntry cfg dstIdx e.2.key e.2.msg
        copyLeafEntries source spec turns (i + 1) (dstIdx + 1) r.2

/-- `btree_defragment_leaf`. -/
def defragmentLeaf (spec : LeafIncorporateSpec K) :
    Except PageFault (RawPage K × LeafIncorporateSpec K) := do
  let copied ← copyLeafEntries cfg hdr spec hdr.numEntries 0 0 (hdr.resetNodeEntries cfg)
  .ok (copied, spec.afterDropping 0 hdr.numEntries)

/-- The turns of the loops that find the lowest offset, from place `i` on. -/
def lowestOffset : Nat → Nat → Nat → Except PageFault Nat
  | 0, _, low => .ok low
  | turns + 1, i, low => do
      let offset ← hdr.getOffset i
      lowestOffset turns (i + 1) (if offset < low then offset else low)

/-- `btree_truncate_leaf`. -/
def truncateLeaf (targetEntries : Nat) : Except PageFault (RawPage K) := do
  let newNextEntry ← hdr.lowestOffset targetEntries 0 cfg.pageSize
  .ok { hdr with numEntries := targetEntries, nextEntry := newNextEntry }

/-- `btree_split_leaf_build_right_node`, on the memory of the new page: the right page and the
specification afterwards. -/
def splitLeafBuildRightNode (memory : PageMemory K) (leftAddr : Addr)
    (spec : LeafIncorporateSpec K) (plan : LeafSplittingPlan) :
    Except PageFault (RawPage K × LeafIncorporateSpec K) := do
  let right := { hdr with generation := hdr.generation + 1, prevAddr := leftAddr, memory := memory }
  let right ← copyLeafEntries cfg hdr spec (hdr.numEntries - plan.splitIdx) plan.splitIdx 0
    (right.resetNodeEntries cfg)
  let spec := spec.afterDropping plan.splitIdx hdr.numEntries
  if plan.insertionGoesLeft then
    .ok (right, spec)
  else
    let spec := { spec with idx := spec.idx - plan.splitIdx }
    let incorporated ← right.tryPerformLeafIncorporateSpec cfg spec
    match incorporated.1 with
    | some _ => .ok (incorporated.2, spec)
    | none => .error .asserts

/-- `btree_split_leaf_cleanup_left_node`. -/
def splitLeafCleanupLeftNode (spec : LeafIncorporateSpec K) (plan : LeafSplittingPlan)
    (rightAddr : Addr) : Except PageFault (RawPage K × LeafIncorporateSpec K) := do
  let left ← { hdr with nextAddr := rightAddr }.truncateLeaf cfg plan.splitIdx
  let left := { left with generation := left.generation + 1 }
  if plan.insertionGoesLeft then
    let fits ← left.canPerformLeafIncorporateSpec cfg spec
    if fits then .ok (left, spec) else left.defragmentLeaf cfg spec
  else
    .ok (left, spec)

/-! ## Index nodes -/

/-- The turns of the loops that copy index entries from another page; each is asserted to find
room. -/
def copyIndexEntries (source : RawPage K) :
    Nat → Nat → Nat → RawPage K → Except PageFault (RawPage K)
  | 0, _, _, hdr => .ok hdr
  | turns + 1, first, i, hdr => do
      let e ← source.getIndexEntry (first + i)
      let r ← hdr.setIndexEntry cfg i e.2.pivot e.2.maskedChildAddr e.2.pivotData.stats
      if r.1 then copyIndexEntries source turns first (i + 1) r.2 else .error .asserts

/-- `btree_defragment_index`. -/
def defragmentIndex : Except PageFault (RawPage K) :=
  copyIndexEntries cfg hdr hdr.numEntries 0 0 (hdr.resetNodeEntries cfg)

/-- `btree_split_index_build_right_node`, on the memory of the new page. -/
def splitIndexBuildRightNode (memory : PageMemory K) (targetLeftEntries : Nat) :
    Except PageFault (RawPage K) :=
  let right := { hdr with generation := hdr.generation + 1, memory := memory }
  copyIndexEntries cfg hdr (hdr.numEntries - targetLeftEntries) targetLeftEntries 0
    (right.resetNodeEntries cfg)

/-- `btree_truncate_index`. -/
def truncateIndex (targetEntries : Nat) : Except PageFault (RawPage K) := do
  let newNextEntry ← hdr.lowestOffset targetEntries 0 cfg.pageSize
  let truncated := { hdr with
    numEntries := targetEntries
    nextEntry := newNextEntry
    generation := hdr.generation + 1 }
  if newNextEntry < defragmentThreshold cfg then truncated.defragmentIndex cfg else .ok truncated

end RawPage
end Btree
end TreePass
