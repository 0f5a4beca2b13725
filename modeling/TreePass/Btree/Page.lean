import TreePass.Btree.Node
import Mathlib.Data.BitVec

/-!
# Pages of a B-tree

The physical pages behind the nodes: a header, a table of offsets in key order and the entries
that grow from the end of the page towards the table.  The functions of this module read and write
one page; they are pure, and `none` is the result `FALSE`.  An entry is kept together with its
offset in the table, so the free space of a page is what `next_entry` and the length of the table
leave between them.
-/

namespace TreePass
namespace Btree

abbrev Addr := BitVec 64

/-- `btree_config`: the page size and the keys of the application, with their lengths. -/
structure Config (K : Type) where
  pageSize : Nat
  keyLength : K → Nat

/-- `btree_pivot_stats`. -/
structure PivotStats where
  numKvs : Nat
  keyBytes : Nat
  messageBytes : Nat
  deriving DecidableEq, Repr

/-- `BTREE_UNKNOWN_COUNTER`. -/
def unknownCounter : Nat := 0x7fffffff

/-- `BTREE_PIVOT_STATS_UNKNOWN`. -/
def pivotStatsUnknown : PivotStats := ⟨unknownCounter, unknownCounter, unknownCounter⟩

/-- `btree_pivot_data`. -/
structure PivotData where
  childAddr : Addr
  stats : PivotStats
  deriving DecidableEq

/-- `index_entry`, as it is stored. -/
structure OndiskIndexEntry (K : Type) where
  pivotData : PivotData
  pivot : Key K

/-- What an offset leads to: a `leaf_entry` or an `index_entry`. -/
inductive Entry (K : Type) where
  | leaf (entry : Tuple K)
  | index (entry : OndiskIndexEntry K)

/-- One place of the offsets table, with the entry at this offset. -/
structure Slot (K : Type) where
  offset : Nat
  entry : Entry K

/-- `btree_hdr` with its offsets table and the entries of the page. -/
structure Page (K : Type) where
  prevAddr : Addr
  nextAddr : Addr
  nextExtentAddr : Addr
  generation : Nat
  height : Nat
  nextEntry : Nat
  slots : List (Slot K)

variable {K : Type} (cfg : Config K)

/-! ## Sizes -/

/-- `sizeof(btree_hdr)`. -/
def sizeofHdr : Nat := 37

/-- `sizeof(table_entry)`. -/
def sizeofTableEntry : Nat := 2

/-- `sizeof(index_entry)`. -/
def sizeofIndexEntryHeader : Nat := 23

/-- `sizeof(leaf_entry)`. -/
def sizeofLeafEntryHeader : Nat := 6

/-- `key_length`: the infinities have no bytes. -/
def keyLength (key : Key K) : Nat :=
  key.recBotCoe 0 fun k => k.recTopCoe 0 cfg.keyLength

/-- `index_entry_required_capacity`. -/
def indexEntryRequiredCapacity (pivot : Key K) : Nat := sizeofIndexEntryHeader + keyLength cfg pivot

/-- `leaf_entry_required_capacity`. -/
def leafEntryRequiredCapacity (tupleKey : K) (msg : Message) : Nat :=
  sizeofLeafEntryHeader + cfg.keyLength tupleKey + msg.data.length

/-- `sizeof_leaf_entry` and `sizeof_index_entry`. -/
def Entry.sizeof : Entry K → Nat
  | .leaf e => leafEntryRequiredCapacity cfg e.key e.msg
  | .index e => indexEntryRequiredCapacity cfg e.pivot

/-- `diff_ptr(hdr, &hdr->offsets[n])`. -/
def offsetsEnd (n : Nat) : Nat := sizeofHdr + sizeofTableEntry * n

/-- `MAX_INLINE_KEY_SIZE`. -/
def maxInlineKeySize : Nat := cfg.pageSize / 8

/-- `MAX_INLINE_MESSAGE_SIZE`. -/
def maxInlineMessageSize : Nat := 35 * cfg.pageSize / 100

/-- `BTREE_SPLIT_THRESHOLD`. -/
def splitThreshold : Nat := cfg.pageSize / 2

/-- `BTREE_DEFRAGMENT_THRESHOLD`. -/
def defragmentThreshold : Nat := cfg.pageSize / 4

/-! ## Reading a page -/

/-- `index_entry_child_addr`: child addresses are aligned to 4 KiB, and the low bits may hold
other data. -/
def OndiskIndexEntry.maskedChildAddr (e : OndiskIndexEntry K) : Addr :=
  e.pivotData.childAddr &&& ~~~(0xFFF : Addr)

namespace Page

variable (hdr : Page K)

/-- `btree_num_entries`. -/
def numEntries : Nat := hdr.slots.length

/-- `btree_get_leaf_entry`. -/
def getLeafEntry (k : Nat) : Option (Tuple K) :=
  match (hdr.slots[k]?).map Slot.entry with
  | some (.leaf e) => some e
  | _ => none

/-- `btree_get_index_entry`. -/
def getIndexEntry (k : Nat) : Option (OndiskIndexEntry K) :=
  match (hdr.slots[k]?).map Slot.entry with
  | some (.index e) => some e
  | _ => none

section Search

variable [LinearOrder K]

/-- `btree_find_pivot`. -/
def findPivot (target : Key K) : Int × Bool :=
  Lib.search (fun i => (hdr.getIndexEntry i).elim .gt fun e => cmp e.pivot target) hdr.numEntries

/-- `btree_find_tuple`. -/
def findTuple (target : Key K) : Int × Bool :=
  Lib.search (fun i => (hdr.getLeafEntry i).elim .gt fun e => cmp (Key.user e.key) target)
    hdr.numEntries

end Search

/-- `btree_init_hdr`. -/
def init : Page K := ⟨0, 0, 0, 0, 0, cfg.pageSize, []⟩

/-- `btree_reset_node_entries`. -/
def resetNodeEntries : Page K := { hdr with slots := [], nextEntry := cfg.pageSize }

/-! ## Writing entries -/

/-- A new entry in the empty space: the common end of `btree_set_index_entry` and
`btree_set_leaf_entry`. -/
def placeEntry (k : Nat) (entry : Entry K) : Option (Page K) :=
  let newNumEntries := if k < hdr.numEntries then hdr.numEntries else k + 1
  if hdr.nextEntry < offsetsEnd newNumEntries + entry.sizeof cfg then
    none
  else
    let offset := hdr.nextEntry - entry.sizeof cfg
    some { hdr with
      slots := if k < hdr.numEntries then hdr.slots.set k ⟨offset, entry⟩
        else hdr.slots ++ [⟨offset, entry⟩]
      nextEntry := offset }

def overwriteEntry (k : Nat) (entry : Entry K) : Page K :=
  { hdr with slots := hdr.slots.modify k fun slot => { slot with entry := entry } }

/-- `btree_set_index_entry`. -/
def setIndexEntry (k : Nat) (newPivotKey : Key K) (newAddr : Addr) (stats : PivotStats) :
    Option (Page K) :=
  let entry := Entry.index ⟨⟨newAddr, stats⟩, newPivotKey⟩
  match hdr.slots[k]? with
  | some old =>
      if hdr.nextEntry = old.offset ∧
          offsetsEnd hdr.numEntries + entry.sizeof cfg ≤ hdr.nextEntry + old.entry.sizeof cfg then
        -- the old entry is the physically first one: its space goes back to the empty space
        { hdr with nextEntry := hdr.nextEntry + old.entry.sizeof cfg }.placeEntry cfg k entry
      else if entry.sizeof cfg ≤ old.entry.sizeof cfg then
        some (hdr.overwriteEntry k entry)
      else
        hdr.placeEntry cfg k entry
  | none => hdr.placeEntry cfg k entry

/-- The offset written last moves to place `k` of the table. -/
def moveLastTo (k : Nat) : Page K :=
  { hdr with slots := hdr.slots.dropLast.take k ++ hdr.slots.getLast?.toList ++
      hdr.slots.dropLast.drop k }

/-- `btree_insert_index_entry`. -/
def insertIndexEntry (k : Nat) (newPivotKey : Key K) (newAddr : Addr) (stats : PivotStats) :
    Option (Page K) :=
  (hdr.setIndexEntry cfg hdr.numEntries newPivotKey newAddr stats).map fun h => h.moveLastTo k

/-- `btree_can_set_leaf_entry`. -/
def canSetLeafEntry (k : Nat) (newKey : K) (newMessage : Message) : Bool :=
  if hdr.numEntries < k then
    false
  else if (hdr.slots[k]?).any fun old =>
      decide (leafEntryRequiredCapacity cfg newKey newMessage ≤ old.entry.sizeof cfg) then
    true
  else
    let newNumEntries := if k < hdr.numEntries then hdr.numEntries else k + 1
    !decide (hdr.nextEntry <
      offsetsEnd newNumEntries + leafEntryRequiredCapacity cfg newKey newMessage)

/-- `btree_set_leaf_entry`. -/
def setLeafEntry (k : Nat) (newKey : K) (newMessage : Message) : Option (Page K) :=
  let entry := Entry.leaf ⟨newKey, newMessage⟩
  if (hdr.slots[k]?).any fun old => decide (entry.sizeof cfg ≤ old.entry.sizeof cfg) then
    some (hdr.overwriteEntry k entry)
  else
    hdr.placeEntry cfg k entry

/-- `btree_insert_leaf_entry`. -/
def insertLeafEntry (k : Nat) (newKey : K) (newMessage : Message) : Option (Page K) :=
  (hdr.setLeafEntry cfg hdr.numEntries newKey newMessage).map fun h => h.moveLastTo k

/-- The loop that finds the lowest offset among the first entries of a page. -/
def lowestOffset (targetEntries : Nat) : Nat :=
  (hdr.slots.take targetEntries).foldl (fun low slot => min slot.offset low) cfg.pageSize

/-! ## Index pages -/

/-- Writes index entries one after the other from place `i` on, as the loops of
`btree_split_index_build_right_node` and `btree_defragment_index` do. -/
def setIndexEntries : Nat → Page K → List (Slot K) → Option (Page K)
  | _, hdr, [] => some hdr
  | i, hdr, slot :: rest =>
      match slot.entry with
      | .index e =>
          (hdr.setIndexEntry cfg i e.pivot e.maskedChildAddr e.pivotData.stats).bind fun h =>
            setIndexEntries (i + 1) h rest
      | .leaf _ => none

/-- `btree_defragment_index`. -/
def defragmentIndex : Option (Page K) := (hdr.resetNodeEntries cfg).setIndexEntries cfg 0 hdr.slots

/-- `btree_truncate_index`. -/
def truncateIndex (targetEntries : Nat) : Option (Page K) :=
  let newNextEntry := hdr.lowestOffset cfg targetEntries
  let truncated := { hdr with
    slots := hdr.slots.take targetEntries
    nextEntry := newNextEntry
    generation := hdr.generation + 1 }
  if newNextEntry < defragmentThreshold cfg then truncated.defragmentIndex cfg else some truncated

/-- `btree_index_is_full`. -/
def indexIsFull : Bool :=
  decide (hdr.nextEntry <
    offsetsEnd (hdr.numEntries + 2) + sizeofIndexEntryHeader + maxInlineKeySize cfg)

def liveBytes (slots : List (Slot K)) : Nat := (slots.map fun slot => slot.entry.sizeof cfg).sum

/-- The loop of `btree_choose_index_split`. -/
def countLeftEntries (half : Nat) : Nat → List (Slot K) → Nat
  | _, [] => 0
  | newLeftEntryBytes, slot :: rest =>
      if newLeftEntryBytes < half then
        countLeftEntries half (newLeftEntryBytes + slot.entry.sizeof cfg) rest + 1
      else
        0

/-- `btree_choose_index_split`. -/
def chooseIndexSplit : Nat := countLeftEntries cfg (liveBytes cfg hdr.slots / 2) 0 hdr.slots

/-- `btree_split_index_build_right_node`. -/
def splitIndexBuildRightNode (targetLeftEntries : Nat) : Option (Page K) :=
  ({ hdr with generation := hdr.generation + 1 }.resetNodeEntries cfg).setIndexEntries cfg 0
    (hdr.slots.drop targetLeftEntries)

end Page
end Btree
end TreePass
