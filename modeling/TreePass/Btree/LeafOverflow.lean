import TreePass.Btree.SplitPlan

/-!
# A leaf without room for an update

`btree_defragment_or_split_child_leaf` on the pages, without the locks: the leaf is defragmented, or
it is split and the update goes to one of the two halves.

* `ValidLeaf`: the entries are placed, their keys are in order, and no key and no message is longer
  than may be stored inline.
* `createLeafIncorporateSpec_at`: the place of the update that `btree_create_leaf_incorporate_spec`
  finds.
* `defragmentOrSplitLeaf_succeeds`: no assertion fails, and what becomes of the entries.
-/

namespace TreePass
namespace Btree

open Lib

variable {K : Type}

/-- `max_entry_space` of `btree_config_init`. -/
def maxEntrySpace (cfg : Config K) : Nat :=
  sizeofLeafEntryHeader + maxInlineKeySize cfg + maxInlineMessageSize cfg + sizeofTableEntry

def Entry.key : Entry K → Key K
  | .leaf e => Key.user e.key
  | .index e => e.pivot

/-- A leaf that is as the code leaves it. -/
structure Page.ValidLeaf [LinearOrder K] (cfg : Config K) (hdr : Page K) : Prop where
  placed : hdr.Placed cfg
  leaf : hdr.IsLeaf
  ascending : hdr.entries.Pairwise fun a b => a.key < b.key
  inline : ∀ e : Tuple K, Entry.leaf e ∈ hdr.entries →
    cfg.keyLength e.key ≤ maxInlineKeySize cfg ∧ e.msg.data.length ≤ maxInlineMessageSize cfg

/-- What becomes of a leaf without room for an update: the pages, the pivot that goes to the parent
and the generation of the update. -/
inductive OverflowResult (K : Type) where
  | whole (leaf : Page K) (generation : Nat)
  | split (pivot : Key K) (left right : Page K) (generation : Nat)

/-- `btree_split_child_leaf` on the pages; `none` if an assertion fails. -/
def Page.splitLeaf (cfg : Config K) (hdr : Page K) (addr rightAddr : Addr)
    (spec : LeafIncorporateSpec K) : Option (OverflowResult K) := do
  let plan := hdr.buildLeafSplittingPlan cfg spec
  let pivot ← hdr.splittingPivot spec plan
  let right ← hdr.splitLeafBuildRightNode cfg addr spec plan
  let left := hdr.splitLeafCleanupLeftNode cfg right.2.1 plan rightAddr
  if plan.insertionGoesLeft then do
    let incorporated ← left.1.tryPerformLeafIncorporateSpec cfg left.2
    some (.split pivot incorporated.1 right.1 incorporated.2)
  else
    right.2.2.map fun generation => .split pivot left.1 right.1 generation

/-- `btree_defragment_or_split_child_leaf` on the pages. -/
def Page.defragmentOrSplitLeaf (cfg : Config K) (hdr : Page K) (addr rightAddr : Addr)
    (spec : LeafIncorporateSpec K) : Option (OverflowResult K) :=
  if hdr.totalSpaceRequired cfg spec < splitThreshold cfg then
    let defragmented := hdr.defragmentLeaf cfg spec
    (defragmented.1.tryPerformLeafIncorporateSpec cfg defragmented.2).map fun r =>
      .whole r.1 r.2
  else
    hdr.splitLeaf cfg addr rightAddr spec

variable {cfg : Config K} {hdr : Page K} {spec : LeafIncorporateSpec K}

/-! ## Entries that have been copied, with the update -/

namespace Page

private theorem sum_weights_applyTo_of_gone (cfg : Config K) {moved : LeafIncorporateSpec K} {l : List (Entry K)}
    (hwithin : moved.Within l.length) (hgone : moved.oldEntryState ≠ .stillExists) :
    ((moved.applyTo l).map (Entry.weight cfg)).sum =
      (l.map (Entry.weight cfg)).sum + moved.newEntry.weight cfg := by
  have hbehind : moved.behind = moved.idx := if_neg hgone
  have hsplit := congrArg (fun l => (l.map (Entry.weight cfg)).sum) (List.take_append_drop moved.idx l)
  simp only [List.map_append, List.sum_append] at hsplit
  rw [LeafIncorporateSpec.applyTo_eq hwithin, hbehind, List.map_append, List.map_cons,
    List.sum_append, List.sum_cons]
  omega

/-- What an update leaves of a page of the given generation. -/
structure Updated (cfg : Config K) (before : Nat) (l : List (Entry K)) (p' : Page K)
    (generation : Nat) : Prop where
  placed : p'.Placed cfg
  entries : p'.entries = l
  generation : generation = before
  after : p'.generation = before + 1

theorem Placed.updated (h : hdr.Placed cfg) (hspec : spec.Within hdr.numEntries) {p' : Page K}
    {generation : Nat} (hp' : hdr.tryPerformLeafIncorporateSpec cfg spec = some (p', generation)) :
    Updated cfg hdr.generation (spec.applyTo hdr.entries) p' generation := by
  obtain ⟨hplaced, hentries, hgeneration, hheader⟩ := h.tryPerform hspec.2 hp'
  exact ⟨hplaced, hentries, hgeneration, hheader.generation_eq⟩

section Copy

variable (h : hdr.Placed cfg) (hleaf : hdr.IsLeaf) (hspec : spec.Within hdr.numEntries) {i : Nat}
  (hi : i ≤ spec.idx) {moved : LeafIncorporateSpec K} (hidx : moved.idx = spec.idx - i)
  (hgone : moved.oldEntryState ≠ .stillExists) (hentry : moved.newEntry = spec.newEntry)
  (q : Page K)

include h hleaf hspec hi hidx hgone hentry

theorem Placed.updated_copy {p' : Page K} {generation : Nat}
    (hp' : ((q.resetNodeEntries cfg).setLeafEntries cfg 0
      (keptSlots spec i (hdr.slots.drop i))).tryPerformLeafIncorporateSpec cfg moved =
        some (p', generation)) :
    Updated cfg q.generation ((spec.applyTo hdr.entries).drop i) p' generation := by
  have hwithin : spec.Within hdr.entries.length := by
    rw [length_entries]
    exact hspec
  have hsub := keptSlots_sublist spec hdr.slots i
  obtain ⟨hplaced, hentries, hheader⟩ := h.copyLeaf hleaf hsub q
  obtain ⟨hplaced', hentries', hgeneration, hheader'⟩ :=
    hplaced.tryPerform (fun hstill => absurd hstill hgone) hp'
  rw [hheader.generation_eq] at hgeneration
  refine ⟨hplaced', ?_, hgeneration, ?_⟩
  · rw [hentries', hentries, map_keptSlots, LeafIncorporateSpec.applyTo_kept hwithin hi hidx hgone hentry]
  · rw [hheader'.generation_eq, hheader.generation_eq]

theorem Placed.copy_fits
    (hbytes : sizeofHdr + (((spec.applyTo hdr.entries).drop i).map (Entry.weight cfg)).sum ≤
      cfg.pageSize) :
    ∃ r, ((q.resetNodeEntries cfg).setLeafEntries cfg 0
      (keptSlots spec i (hdr.slots.drop i))).tryPerformLeafIncorporateSpec cfg moved = some r := by
  have hwithin : spec.Within hdr.entries.length := by
    rw [length_entries]
    exact hspec
  have hsub := keptSlots_sublist spec hdr.slots i
  have hmoved : moved.Within (spec.kept i (hdr.entries.drop i)).length :=
    ⟨hidx ▸ spec.le_length_kept hi hwithin, fun hstill => absurd hstill hgone⟩
  have hsum := sum_weights_applyTo_of_gone cfg hmoved hgone
  rw [LeafIncorporateSpec.applyTo_kept hwithin hi hidx hgone hentry, ← map_keptSlots, sum_weights] at hsum
  have hfits : offsetsEnd ((keptSlots spec i (hdr.slots.drop i)).length + 1) +
      (liveBytes cfg (keptSlots spec i (hdr.slots.drop i)) + moved.newEntry.sizeof cfg) ≤
      cfg.pageSize := by
    rw [hsum] at hbytes
    simp only [offsetsEnd, sizeofTableEntry, Entry.weight] at hbytes ⊢
    omega
  have hroom := h.hasRoom_copyLeaf hleaf hsub q hfits
  exact hroom.tryPerform (h.copyLeaf hleaf hsub q).1 hgone

end Copy

/-! ## The bytes of the two halves -/

theorem length_le_sum_weights (cfg : Config K) (l : List (Entry K)) :
    (sizeofTableEntry + sizeofLeafEntryHeader) * l.length ≤ (l.map (Entry.weight cfg)).sum := by
  induction l with
  | nil => exact Nat.le_refl _
  | cons entry l ih =>
      have hentry : sizeofTableEntry + sizeofLeafEntryHeader ≤ entry.weight cfg := by
        cases entry with
        | leaf e =>
            simp only [Entry.weight, Entry.sizeof, leafEntryRequiredCapacity]
            omega
        | index e =>
            simp only [Entry.weight, Entry.sizeof, indexEntryRequiredCapacity,
              sizeofLeafEntryHeader, sizeofIndexEntryHeader]
            omega
      rw [List.map_cons, List.sum_cons, List.length_cons, Nat.mul_succ]
      omega

theorem bytes_of_defragment (hpage : 4096 ≤ cfg.pageSize) (hspec : spec.Within hdr.numEntries)
    (hsmall : hdr.totalSpaceRequired cfg spec < splitThreshold cfg) :
    sizeofHdr + ((spec.applyTo hdr.entries).map (Entry.weight cfg)).sum ≤ cfg.pageSize := by
  have hlength := length_le_sum_weights cfg (spec.applyTo hdr.entries)
  rw [sum_weights_applyTo cfg hspec] at hlength ⊢
  have hlive : liveBytes cfg (keptSlots spec 0 hdr.slots) + spec.newEntry.sizeof cfg ≤
      hdr.totalSpaceRequired cfg spec := Nat.le_add_right _ _
  simp only [splitThreshold, sizeofTableEntry, sizeofLeafEntryHeader, sizeofHdr] at *
  omega

section Split

variable [LinearOrder K] (hvalid : hdr.ValidLeaf cfg) (hpage : 4096 ≤ cfg.pageSize)
  (hspec : spec.Within hdr.numEntries) (hkey : cfg.keyLength spec.tupleKey ≤ maxInlineKeySize cfg)
  (hmsg : spec.msg.data.length ≤ maxInlineMessageSize cfg)

include hvalid hspec hkey hmsg

theorem weight_le {entry : Entry K} (hentry : entry ∈ spec.applyTo hdr.entries) :
    entry.weight cfg ≤ maxEntrySpace cfg := by
  have hleaf : ∃ e : Tuple K, entry = .leaf e ∧ cfg.keyLength e.key ≤ maxInlineKeySize cfg ∧
      e.msg.data.length ≤ maxInlineMessageSize cfg := by
    have hold : ∀ entry ∈ hdr.entries, ∃ e : Tuple K, entry = .leaf e ∧
        cfg.keyLength e.key ≤ maxInlineKeySize cfg ∧
        e.msg.data.length ≤ maxInlineMessageSize cfg := fun entry hmem => by
      obtain ⟨e, rfl⟩ := hvalid.leaf entry hmem
      exact ⟨e, rfl, hvalid.inline e hmem⟩
    have hwithin : spec.Within hdr.entries.length := by
      rw [length_entries]
      exact hspec
    rw [LeafIncorporateSpec.applyTo_eq hwithin] at hentry
    rcases List.mem_append.mp hentry with hfront | hrest
    · exact hold entry (List.mem_of_mem_take hfront)
    · rcases List.mem_cons.mp hrest with rfl | hback
      · exact ⟨_, rfl, hkey, hmsg⟩
      · exact hold entry (List.mem_of_mem_drop hback)
  obtain ⟨e, rfl, hkeySize, hmsgSize⟩ := hleaf
  simp only [Entry.weight, Entry.sizeof, leafEntryRequiredCapacity, maxEntrySpace]
  omega

include hpage

theorem bytes_of_split (hlarge : ¬ hdr.totalSpaceRequired cfg spec < splitThreshold cfg) :
    let entries := spec.applyTo hdr.entries
    let c := hdr.leftEntries cfg spec
    0 < c ∧ c < entries.length ∧
      sizeofHdr + ((entries.take c).map (Entry.weight cfg)).sum ≤ cfg.pageSize ∧
      sizeofHdr + ((entries.drop c).map (Entry.weight cfg)).sum ≤ cfg.pageSize := by
  have hmax : ∀ w ∈ (spec.applyTo hdr.entries).map (Entry.weight cfg), w ≤ maxEntrySpace cfg := by
    intro w hw
    obtain ⟨entry, hentry, rfl⟩ := List.mem_map.mp hw
    exact weight_le hvalid hspec hkey hmsg hentry
  have hnew : spec.newEntry.sizeof cfg + sizeofTableEntry ≤ maxEntrySpace cfg := by
    simp only [LeafIncorporateSpec.newEntry, Entry.sizeof, leafEntryRequiredCapacity, maxEntrySpace]
    omega
  have hspace : maxEntrySpace cfg + 4 ≤ (cfg.pageSize - 2 * sizeofHdr) / 2 := by
    simp only [maxEntrySpace, maxInlineKeySize, maxInlineMessageSize, sizeofLeafEntryHeader,
      sizeofTableEntry, sizeofHdr]
    omega
  have htotal := sum_weights_applyTo cfg hspec
  have hlength := length_applyTo hspec
  have hlive := hvalid.placed.liveBytes_le
  have htable := hvalid.placed.table
  have hkept : liveBytes cfg (keptSlots spec 0 hdr.slots) ≤ liveBytes cfg hdr.slots := by
    rw [keptSlots_eq]
    exact liveBytes_sublist cfg (spec.kept_sublist 0 hdr.slots)
  have hrequired : hdr.totalSpaceRequired cfg spec ≤
      liveBytes cfg (keptSlots spec 0 hdr.slots) + spec.newEntry.sizeof cfg +
        sizeofIndexEntryHeader := by
    rw [totalSpaceRequired]
    change _ + spec.newEntry.sizeof cfg + _ ≤ _
    split <;> omega
  have hne : (spec.applyTo hdr.entries).map (Entry.weight cfg) ≠ [] := by
    have hwithin : spec.Within hdr.entries.length := by
      rw [length_entries]
      exact hspec
    rw [LeafIncorporateSpec.applyTo_eq hwithin, List.map_append, List.map_cons]
    exact List.append_ne_nil_of_right_ne_nil _ (List.cons_ne_nil _ _)
  have hpos := List.length_pos_iff.mpr hne
  rw [List.length_map] at hpos
  -- What the entries after the update take: more than any one of them, and not much more than a page.
  have hlow : maxEntrySpace cfg + 2 ≤ ((spec.applyTo hdr.entries).map (Entry.weight cfg)).sum := by
    simp only [splitThreshold, sizeofTableEntry, sizeofIndexEntryHeader, sizeofHdr] at *
    omega
  have hhigh : ((spec.applyTo hdr.entries).map (Entry.weight cfg)).sum + sizeofHdr ≤
      cfg.pageSize + maxEntrySpace cfg := by
    have hcount : (spec.applyTo hdr.entries).length ≤ hdr.numEntries + 1 := by
      rw [hlength]
      split <;> omega
    simp only [offsetsEnd, sizeofTableEntry] at *
    omega
  simp only [List.map_take, List.map_drop, leftEntries]
  rw [← List.length_map (Entry.weight cfg)]
  generalize (spec.applyTo hdr.entries).map (Entry.weight cfg) = weights at *
  have htake : 2 * (0 + (weights.take (leftCount weights.sum 0 weights)).sum) ≤
      weights.sum + maxEntrySpace cfg := two_mul_take_sum_le hmax (Nat.zero_le _)
  have hdrop := two_mul_drop_sum_le hmax (Nat.zero_add weights.sum)
  refine ⟨leftCount_pos hne hmax hlow, leftCount_lt hne (Nat.zero_add _), ?_, ?_⟩
  · rw [Nat.zero_add] at htake
    omega
  · omega

end Split

/-! ## The pages -/

section Pages

variable (h : hdr.Placed cfg) (hleaf : hdr.IsLeaf) (hspec : spec.Within hdr.numEntries)

include h hleaf hspec

private theorem updated_defragmentLeaf {p' : Page K} {generation : Nat}
    (hp' : (hdr.defragmentLeaf cfg spec).1.tryPerformLeafIncorporateSpec cfg
      (hdr.defragmentLeaf cfg spec).2 = some (p', generation)) :
    Updated cfg hdr.generation (spec.applyTo hdr.entries) p' generation :=
  h.updated_copy hleaf hspec (Nat.zero_le _) (spec.idx_afterDropping 0 hdr.numEntries)
    (hspec.afterDropping_ne_stillExists (Nat.zero_le _))
    (spec.newEntry_afterDropping 0 hdr.numEntries) hdr hp'

private theorem defragmentLeaf_fits
    (hbytes : sizeofHdr + ((spec.applyTo hdr.entries).map (Entry.weight cfg)).sum ≤ cfg.pageSize) :
    ∃ r, (hdr.defragmentLeaf cfg spec).1.tryPerformLeafIncorporateSpec cfg
      (hdr.defragmentLeaf cfg spec).2 = some r :=
  h.copy_fits hleaf hspec (Nat.zero_le _) (spec.idx_afterDropping 0 hdr.numEntries)
    (hspec.afterDropping_ne_stillExists (Nat.zero_le _))
    (spec.newEntry_afterDropping 0 hdr.numEntries) hdr hbytes

omit h hleaf hspec in
private theorem splitLeaf_right_eq {c : Nat}
    (hplan : hdr.buildLeafSplittingPlan cfg spec = ⟨c, false⟩) (addr rightAddr : Addr) :
    let moved : LeafIncorporateSpec K := { spec.afterDropping c hdr.numEntries with
      idx := (spec.afterDropping c hdr.numEntries).idx - c }
    hdr.splitLeaf cfg addr rightAddr spec =
      (hdr.splittingPivot spec ⟨c, false⟩).bind fun pivot =>
        ((hdr.splitLeafRightEntries cfg addr spec ⟨c, false⟩).tryPerformLeafIncorporateSpec cfg
          moved).map fun r =>
            .split pivot (hdr.splitLeafLeftEntries cfg ⟨c, false⟩ rightAddr) r.1 r.2 := by
  simp only [splitLeaf, hplan, splitLeafBuildRightNode, Option.bind_eq_bind, Bool.false_eq_true,
    if_false, splitLeafCleanupLeftNode, false_and, Option.bind_map]
  congr 1
  funext pivot
  rw [Option.map_eq_bind]
  rfl

omit h hleaf hspec in
private theorem splitLeaf_left_eq {c : Nat}
    (hplan : hdr.buildLeafSplittingPlan cfg spec = ⟨c, true⟩) (hc : spec.behind ≤ c)
    (addr rightAddr : Addr) :
    let cleaned := hdr.splitLeafCleanupLeftNode cfg spec ⟨c, true⟩ rightAddr
    hdr.splitLeaf cfg addr rightAddr spec =
      (hdr.splittingPivot spec ⟨c, true⟩).bind fun pivot =>
        (cleaned.1.tryPerformLeafIncorporateSpec cfg cleaned.2).map fun r =>
          .split pivot r.1 (hdr.splitLeafRightEntries cfg addr spec ⟨c, true⟩) r.2 := by
  simp only [splitLeaf, hplan, splitLeafBuildRightNode, Option.bind_eq_bind, if_true,
    LeafIncorporateSpec.afterDropping_of_behind_le hc, Option.bind_some]
  congr 1
  funext pivot
  rw [Option.map_eq_bind]
  rfl

private theorem applyTo_splitLeafLeftEntries {n : Nat} (hn : spec.behind + n ≤ hdr.numEntries)
    (rightAddr : Addr) :
    let left := hdr.splitLeafLeftEntries cfg ⟨spec.behind + n, true⟩ rightAddr
    left.Placed cfg ∧ left.IsLeaf ∧ spec.Within left.numEntries ∧
      spec.applyTo left.entries = (spec.applyTo hdr.entries).take (spec.idx + 1 + n) := by
  have hwithin : spec.Within hdr.entries.length := by
    rw [length_entries]
    exact hspec
  have hn' : spec.behind + n ≤ hdr.entries.length := by
    rw [length_entries]
    exact hn
  obtain ⟨hleft, hleftEntries⟩ := h.splitLeafLeftEntries ⟨spec.behind + n, true⟩ rightAddr
  refine ⟨hleft, fun entry hentry => ?_, ?_, ?_⟩
  · rw [hleftEntries] at hentry
    exact hleaf entry (List.mem_of_mem_take hentry)
  · have hle := spec.idx_le_behind
    rw [← length_entries, hleftEntries, List.length_take_of_le hn']
    refine ⟨by omega, fun hstill => ?_⟩
    rw [LeafIncorporateSpec.behind, if_pos hstill]
    omega
  · rw [hleftEntries]
    exact LeafIncorporateSpec.applyTo_take hwithin hn'

private theorem updated_splitLeafCleanupLeftNode {n : Nat}
    (hn : spec.behind + n ≤ hdr.numEntries) (rightAddr : Addr) {p' : Page K} {generation : Nat}
    (hp' : let cleaned := hdr.splitLeafCleanupLeftNode cfg spec ⟨spec.behind + n, true⟩ rightAddr
      cleaned.1.tryPerformLeafIncorporateSpec cfg cleaned.2 = some (p', generation)) :
    Updated cfg (hdr.generation + 1) ((spec.applyTo hdr.entries).take (spec.idx + 1 + n)) p'
      generation := by
  obtain ⟨hleft, hleftLeaf, hleftSpec, happly⟩ :=
    applyTo_splitLeafLeftEntries h hleaf hspec hn rightAddr
  have hgeneration : (hdr.splitLeafLeftEntries cfg ⟨spec.behind + n, true⟩ rightAddr).generation =
      hdr.generation + 1 := rfl
  rw [← happly, ← hgeneration]
  rw [splitLeafCleanupLeftNode] at hp'
  generalize hdr.splitLeafLeftEntries cfg ⟨spec.behind + n, true⟩ rightAddr = left at *
  simp only [true_and, Bool.not_eq_true'] at hp'
  split at hp'
  next => exact updated_defragmentLeaf hleft hleftLeaf hleftSpec hp'
  next => exact hleft.updated hleftSpec hp'

private theorem splitLeafCleanupLeftNode_fits {n : Nat} (hn : spec.behind + n ≤ hdr.numEntries)
    (hbytes : sizeofHdr +
      (((spec.applyTo hdr.entries).take (spec.idx + 1 + n)).map (Entry.weight cfg)).sum ≤
      cfg.pageSize) (rightAddr : Addr) :
    let cleaned := hdr.splitLeafCleanupLeftNode cfg spec ⟨spec.behind + n, true⟩ rightAddr
    ∃ r, cleaned.1.tryPerformLeafIncorporateSpec cfg cleaned.2 = some r := by
  obtain ⟨hleft, hleftLeaf, hleftSpec, happly⟩ :=
    applyTo_splitLeafLeftEntries h hleaf hspec hn rightAddr
  rw [← happly] at hbytes
  rw [splitLeafCleanupLeftNode]
  generalize hdr.splitLeafLeftEntries cfg ⟨spec.behind + n, true⟩ rightAddr = left at *
  simp only [true_and, Bool.not_eq_true']
  split
  next => exact defragmentLeaf_fits hleft hleftLeaf hleftSpec hbytes
  next hfits =>
    rw [Bool.not_eq_false] at hfits
    exact (canPerform_iff hleftSpec.2).mp hfits

private theorem updated_splitLeafRightEntries {c : Nat} (hc : c ≤ spec.idx) (addr : Addr)
    {p' : Page K} {generation : Nat}
    (hp' : (hdr.splitLeafRightEntries cfg addr spec ⟨c, false⟩).tryPerformLeafIncorporateSpec cfg
      { spec.afterDropping c hdr.numEntries with
        idx := (spec.afterDropping c hdr.numEntries).idx - c } = some (p', generation)) :
    Updated cfg (hdr.generation + 1) ((spec.applyTo hdr.entries).drop c) p' generation := by
  let moved : LeafIncorporateSpec K :=
    { spec.afterDropping c hdr.numEntries with idx := (spec.afterDropping c hdr.numEntries).idx - c }
  exact h.updated_copy hleaf hspec hc
    (show moved.idx = spec.idx - c from congrArg (· - c) (spec.idx_afterDropping _ _))
    (show moved.oldEntryState ≠ _ from hspec.afterDropping_ne_stillExists hc)
    (show moved.newEntry = _ from spec.newEntry_afterDropping _ _)
    { hdr with generation := hdr.generation + 1, prevAddr := addr } hp'

private theorem splitLeafRightEntries_fits {c : Nat} (hc : c ≤ spec.idx) (addr : Addr)
    (hbytes : sizeofHdr + (((spec.applyTo hdr.entries).drop c).map (Entry.weight cfg)).sum ≤
      cfg.pageSize) :
    ∃ r, (hdr.splitLeafRightEntries cfg addr spec ⟨c, false⟩).tryPerformLeafIncorporateSpec cfg
      { spec.afterDropping c hdr.numEntries with
        idx := (spec.afterDropping c hdr.numEntries).idx - c } = some r := by
  let moved : LeafIncorporateSpec K :=
    { spec.afterDropping c hdr.numEntries with idx := (spec.afterDropping c hdr.numEntries).idx - c }
  exact h.copy_fits hleaf hspec hc
    (show moved.idx = spec.idx - c from congrArg (· - c) (spec.idx_afterDropping _ _))
    (show moved.oldEntryState ≠ _ from hspec.afterDropping_ne_stillExists hc)
    (show moved.newEntry = _ from spec.newEntry_afterDropping _ _)
    { hdr with generation := hdr.generation + 1, prevAddr := addr } hbytes

end Pages

end Page

/-! ## The place of the update -/

/-- Where an update belongs in a list of entries. -/
structure LeafIncorporateSpec.At [LinearOrder K] (spec : LeafIncorporateSpec K)
    (l : List (Entry K)) : Prop where
  within : spec.Within l.length
  before : ∀ entry ∈ l.take spec.idx, entry.key < Key.user spec.tupleKey
  after : ∀ entry ∈ l.drop spec.behind, Key.user spec.tupleKey < entry.key
  old : spec.oldEntryState = .stillExists →
    ∃ entry, l[spec.idx]? = some entry ∧ entry.key = Key.user spec.tupleKey

section Ordered

variable [LinearOrder K]

namespace Page

theorem findTuple_eq_findKey (hleaf : hdr.IsLeaf) (target : Key K) :
    hdr.findTuple target = findKey (hdr.entries.map Entry.key) target := by
  have hcompare : (fun i => (hdr.getLeafEntry i).elim .gt fun e => cmp (Key.user e.key) target) =
      fun i => ((hdr.entries.map Entry.key)[i]?).elim .gt fun k => cmp k target := by
    funext i
    rw [getLeafEntry, entries, List.getElem?_map, List.getElem?_map]
    cases hslot : hdr.slots[i]? with
    | none => rfl
    | some slot =>
        obtain ⟨e, he⟩ := hleaf slot.entry
          (List.mem_map.mpr ⟨slot, List.mem_of_getElem? hslot, rfl⟩)
        rw [Option.map_some, he, Option.map_some]
        rfl
  rw [findTuple, findKey, hcompare, List.length_map, length_entries]

theorem createLeafIncorporateSpec_at (hleaf : hdr.IsLeaf)
    (hascending : hdr.entries.Pairwise fun a b => a.key < b.key) {initialized : Bool}
    {merge : K → Message → Message → Option Message} {tupleKey : K} {msg : Message}
    (h : hdr.createLeafIncorporateSpec initialized merge tupleKey msg = .ok spec) :
    spec.tupleKey = tupleKey ∧ spec.At hdr.entries := by
  have hsorted : (hdr.entries.map Entry.key).Pairwise (· < ·) := List.pairwise_map.mpr hascending
  have hfind := findTuple_eq_findKey hleaf (Key.user tupleKey)
  rw [findKey_eq hsorted] at hfind
  set below := (hdr.entries.map Entry.key).countP fun k => decide (k < Key.user tupleKey) with hbelow
  set atMost := (hdr.entries.map Entry.key).countP fun k => decide (k ≤ Key.user tupleKey)
    with hatMost
  have hgap : atMost ≤ below + 1 := countP_le_le hsorted _
  have hlen : atMost ≤ hdr.entries.length := by
    rw [hatMost, ← List.length_map (f := Entry.key)]
    exact List.countP_le_length
  have hlt : ∀ {i : Nat} {entry : Entry K}, hdr.entries[i]? = some entry →
      (entry.key < Key.user tupleKey ↔ i < below) := by
    intro i entry hentry
    have hkey : (hdr.entries.map Entry.key)[i]? = some entry.key := by
      rw [List.getElem?_map, hentry]
      rfl
    rw [hbelow, ← (initial_lt hsorted _).getElem_iff hkey, decide_eq_true_eq]
  have hle : ∀ {i : Nat} {entry : Entry K}, hdr.entries[i]? = some entry →
      (entry.key ≤ Key.user tupleKey ↔ i < atMost) := by
    intro i entry hentry
    have hkey : (hdr.entries.map Entry.key)[i]? = some entry.key := by
      rw [List.getElem?_map, hentry]
      rfl
    rw [hatMost, ← (initial_le hsorted _).getElem_iff hkey, decide_eq_true_eq]
  have hbefore : ∀ {n : Nat}, n ≤ below → ∀ entry ∈ hdr.entries.take n,
      entry.key < Key.user tupleKey := by
    intro n hn entry hentry
    obtain ⟨i, hi, hget⟩ := List.mem_take_iff_getElem.mp hentry
    refine (hlt (List.getElem?_eq_some_iff.mpr ⟨by omega, hget⟩)).mpr (by omega)
  have hafter : ∀ entry ∈ hdr.entries.drop atMost, Key.user tupleKey < entry.key := by
    intro entry hentry
    obtain ⟨i, hi, hget⟩ := List.mem_drop_iff_getElem.mp hentry
    have hnot := mt (hle (List.getElem?_eq_some_iff.mpr ⟨by omega, hget⟩)).mp (by omega)
    exact not_le.mp hnot
  rw [createLeafIncorporateSpec, hfind] at h
  simp only [decide_eq_true_eq] at h
  split at h
  next hfound =>
    have hidx : ((atMost : Int) - 1).toNat = below := by omega
    rw [hidx] at h
    split at h
    next old hold =>
      split at h
      next =>
        split at h
        next merged hmerged =>
          obtain rfl := Except.ok.inj h
          have hatOld : hdr.entries.length > below := by omega
          have hget := List.getElem?_eq_getElem hatOld
          refine ⟨rfl, ⟨hatOld.le, fun _ => hatOld⟩, hbefore (le_refl _), ?_, fun _ => ?_⟩
          · have hbehind : atMost = below + 1 := by omega
            rw [hbehind] at hafter
            exact hafter
          · refine ⟨_, hget, ?_⟩
            have hnot := mt (hlt hget).mp (lt_irrefl _)
            exact le_antisymm ((hle hget).mpr hfound) (not_lt.mp hnot)
        next => cases h
      next => cases h
    next => cases h
  next hnot =>
    obtain rfl := Except.ok.inj h
    have hidx : ((atMost : Int) - 1 + 1).toNat = atMost := by omega
    refine ⟨rfl, ⟨?_, fun hstill => by cases hstill⟩, ?_, ?_, fun hstill => by cases hstill⟩
    · simp only [hidx]
      exact hlen
    · simp only [hidx]
      exact hbefore (not_lt.mp hnot)
    · change ∀ entry ∈ hdr.entries.drop ((atMost : Int) - 1 + 1).toNat, _
      rw [hidx]
      exact hafter

end Page

/-- A list of entries with a tuple inserted, or replaced, at the place of its key. -/
def setTuple (e : Tuple K) (l : List (Entry K)) : List (Entry K) :=
  l.filter (fun entry => decide (entry.key < Key.user e.key)) ++
    .leaf e :: l.filter fun entry => decide (Key.user e.key < entry.key)

namespace LeafIncorporateSpec.At

variable {l : List (Entry K)}

theorem applyTo_eq_setTuple (h : spec.At l) :
    spec.applyTo l = setTuple ⟨spec.tupleKey, spec.msg⟩ l := by
  -- What stands between the place of the update and the entries behind it has its key.
  have hmiddle : ∃ middle : List (Entry K), l.drop spec.idx = middle ++ l.drop spec.behind ∧
      ∀ entry ∈ middle, entry.key = Key.user spec.tupleKey := by
    by_cases hstill : spec.oldEntryState = .stillExists
    · obtain ⟨entry, hget, hkey⟩ := h.old hstill
      obtain ⟨hlt, rfl⟩ := List.getElem?_eq_some_iff.mp hget
      refine ⟨[l[spec.idx]], ?_, fun entry hentry => ?_⟩
      · rw [behind, if_pos hstill]
        exact List.drop_eq_getElem_cons hlt
      · rw [List.mem_singleton.mp hentry]
        exact hkey
    · refine ⟨[], ?_, fun entry hentry => absurd hentry List.not_mem_nil⟩
      rw [behind, if_neg hstill]
      rfl
  obtain ⟨middle, hdrop, hkeys⟩ := hmiddle
  have hsplit : l = l.take spec.idx ++ (middle ++ l.drop spec.behind) := by
    rw [← hdrop, List.take_append_drop]
  have hfront : l.filter (fun entry => decide (entry.key < Key.user spec.tupleKey)) =
      l.take spec.idx := by
    conv_lhs => rw [hsplit]
    rw [List.filter_append, List.filter_append,
      List.filter_eq_self.mpr fun entry hentry => decide_eq_true (h.before entry hentry),
      List.filter_eq_nil_iff.mpr, List.filter_eq_nil_iff.mpr, List.append_nil, List.append_nil]
    · intro entry hentry
      rw [decide_eq_true_eq]
      exact (h.after entry hentry).le.not_gt
    · intro entry hentry
      rw [decide_eq_true_eq, hkeys entry hentry]
      exact lt_irrefl _
  have hback : l.filter (fun entry => decide (Key.user spec.tupleKey < entry.key)) =
      l.drop spec.behind := by
    conv_lhs => rw [hsplit]
    rw [List.filter_append, List.filter_append, List.filter_eq_nil_iff.mpr, List.nil_append,
      List.filter_eq_nil_iff.mpr, List.nil_append,
      List.filter_eq_self.mpr fun entry hentry => decide_eq_true (h.after entry hentry)]
    · intro entry hentry
      rw [decide_eq_true_eq, hkeys entry hentry]
      exact lt_irrefl _
    · intro entry hentry
      rw [decide_eq_true_eq]
      exact (h.before entry hentry).le.not_gt
  rw [applyTo_eq h.within, setTuple, hfront, hback]
  rfl

theorem ascending (h : spec.At l) (hl : l.Pairwise fun a b => a.key < b.key) :
    (spec.applyTo l).Pairwise fun a b => a.key < b.key := by
  rw [applyTo_eq h.within, List.pairwise_append, List.pairwise_cons]
  refine ⟨hl.sublist (List.take_sublist _ _), ⟨h.after, hl.sublist (List.drop_sublist _ _)⟩, ?_⟩
  intro a ha b hb
  rcases List.mem_cons.mp hb with rfl | hb
  · exact h.before a ha
  · exact (h.before a ha).trans (h.after b hb)

end LeafIncorporateSpec.At

/-! ## The leaf makes room -/

def OverflowResult.Holds (cfg : Config K) (entries : List (Entry K)) : OverflowResult K → Prop
  | .whole leaf _ => leaf.Placed cfg ∧ leaf.entries = entries
  | .split pivot left right _ => left.Placed cfg ∧ right.Placed cfg ∧
      left.entries ≠ [] ∧ right.entries ≠ [] ∧ left.entries ++ right.entries = entries ∧
      (∀ entry ∈ left.entries, entry.key < pivot) ∧ ∀ entry ∈ right.entries, pivot ≤ entry.key

namespace Page

omit [LinearOrder K] in
private theorem getLeafEntry_key (hleaf : hdr.IsLeaf) {i : Nat} {entry : Entry K}
    (hget : hdr.entries[i]? = some entry) :
    (hdr.getLeafEntry i).map (fun e => Key.user e.key) = some entry.key := by
  obtain ⟨e, rfl⟩ := hleaf entry (List.mem_of_getElem? hget)
  rw [entries, List.getElem?_map] at hget
  simp only [getLeafEntry, hget, Option.map_some]
  rfl

theorem splittingPivot_eq (cfg : Config K) (hleaf : hdr.IsLeaf) (hspec : spec.Within hdr.numEntries)
    (hat : spec.At hdr.entries) {entry : Entry K}
    (hget : (spec.applyTo hdr.entries)[hdr.leftEntries cfg spec]? = some entry) :
    hdr.splittingPivot spec (hdr.buildLeafSplittingPlan cfg spec) = some entry.key := by
  have hfront : (hdr.entries.take spec.idx).length = spec.idx :=
    List.length_take_of_le hat.within.1
  rw [buildLeafSplittingPlan_eq cfg hspec]
  generalize hdr.leftEntries cfg spec = c at hget
  by_cases hc : c ≤ spec.idx
  · rw [if_pos hc, splittingPivot]
    rw [LeafIncorporateSpec.applyTo_eq hat.within] at hget
    rcases hc.lt_or_eq with hlt | rfl
    · rw [if_neg fun hcon => hlt.ne hcon.1]
      rw [List.getElem?_append_left (by omega), List.getElem?_take_of_lt hlt] at hget
      exact getLeafEntry_key hleaf hget
    · rw [List.getElem?_append_right (by omega), hfront, Nat.sub_self, List.getElem?_cons_zero] at hget
      obtain rfl := Option.some.inj hget
      by_cases hstill : spec.oldEntryState = .stillExists
      · obtain ⟨old, hold, hkey⟩ := hat.old hstill
        rw [if_neg fun hcon => hcon.2.1 hstill]
        exact (getLeafEntry_key hleaf hold).trans (congrArg some hkey)
      · rw [if_pos ⟨rfl, hstill, rfl⟩]
        rfl
  · rw [if_neg hc, splittingPivot, if_neg fun hcon => by simp at hcon]
    have hbehind := LeafIncorporateSpec.drop_applyTo hat.within (c - (spec.idx + 1))
    have hplace : spec.idx + 1 + (c - (spec.idx + 1)) = c := by omega
    rw [hplace] at hbehind
    have hold : hdr.entries[spec.behind + (c - (spec.idx + 1))]? = some entry := by
      rw [← Nat.add_zero (spec.behind + _), ← List.getElem?_drop, ← hbehind, List.getElem?_drop,
        Nat.add_zero]
      exact hget
    exact getLeafEntry_key hleaf hold

private theorem cut_ascending {l : List (Entry K)} (hl : l.Pairwise fun a b => a.key < b.key)
    {c : Nat} {entry : Entry K} (hget : l[c]? = some entry) :
    (∀ a ∈ l.take c, a.key < entry.key) ∧ ∀ b ∈ l.drop c, entry.key ≤ b.key := by
  obtain ⟨hc, rfl⟩ := List.getElem?_eq_some_iff.mp hget
  have hcut := List.drop_eq_getElem_cons hc
  have hsplit := hl
  rw [← List.take_append_drop c l, hcut, List.pairwise_append, List.pairwise_cons] at hsplit
  obtain ⟨-, ⟨hback, -⟩, hcross⟩ := hsplit
  refine ⟨fun a ha => hcross a ha _ List.mem_cons_self, fun b hb => ?_⟩
  rw [hcut] at hb
  rcases List.mem_cons.mp hb with rfl | hb
  · exact le_refl _
  · exact (hback b hb).le

/-- What a split leaves of a page of the given generation whose entries after the update of `target`
are `l`; the first `c` of them go left. -/
structure SplitInto (cfg : Config K) (before : Nat) (target : Key K) (l : List (Entry K)) (c : Nat)
    (pivot : Key K) (left right : Page K) (generation : Nat) : Prop where
  placed_left : left.Placed cfg
  placed_right : right.Placed cfg
  entries_left : left.entries = l.take c
  entries_right : right.entries = l.drop c
  below : ∀ entry ∈ left.entries, entry.key < pivot
  above : ∀ entry ∈ right.entries, pivot ≤ entry.key
  generation : generation = before + 1
  generation_left : left.generation = before + 1 + if target < pivot then 1 else 0
  generation_right : right.generation = before + 1 + if target < pivot then 0 else 1

section SplitLeaf

variable (h : hdr.Placed cfg) (hleaf : hdr.IsLeaf) (hat : spec.At hdr.entries)

include h hleaf hat

theorem splitLeaf_into (hascending : hdr.entries.Pairwise fun a b => a.key < b.key)
    {addr rightAddr : Addr} {r : OverflowResult K}
    (hr : hdr.splitLeaf cfg addr rightAddr spec = some r) :
    ∃ pivot left right generation, r = .split pivot left right generation ∧
      SplitInto cfg hdr.generation (Key.user spec.tupleKey) (spec.applyTo hdr.entries)
        (hdr.leftEntries cfg spec) pivot left right generation := by
  have hspec : spec.Within hdr.numEntries := by
    rw [← length_entries]
    exact hat.within
  obtain ⟨entry, hget⟩ : ∃ entry,
      (spec.applyTo hdr.entries)[hdr.leftEntries cfg spec]? = some entry :=
    ⟨_, List.getElem?_eq_getElem (leftEntries_lt cfg hspec)⟩
  have hpivot := splittingPivot_eq cfg hleaf hspec hat hget
  obtain ⟨hbelow, habove⟩ := cut_ascending (hat.ascending hascending) hget
  have hplan := buildLeafSplittingPlan_eq cfg hspec
  have hnew := LeafIncorporateSpec.getElem?_applyTo hat.within
  generalize hdr.leftEntries cfg spec = c at *
  by_cases hc : c ≤ spec.idx
  · rw [if_pos hc] at hplan
    rw [hplan] at hpivot
    rw [splitLeaf_right_eq hplan, hpivot] at hr
    simp only [Option.bind_some] at hr
    obtain ⟨⟨right, generation⟩, htry, rfl⟩ := Option.map_eq_some_iff.mp hr
    have hright := updated_splitLeafRightEntries h hleaf hspec hc addr htry
    obtain ⟨hleft, hleftEntries⟩ := h.splitLeafLeftEntries ⟨c, false⟩ rightAddr
    rw [← LeafIncorporateSpec.take_applyTo hat.within hc] at hleftEntries
    have hnot : ¬ Key.user spec.tupleKey < entry.key := by
      refine not_lt.mpr (habove spec.newEntry (List.mem_of_getElem? (?_ : _[spec.idx - c]? = _)))
      rw [List.getElem?_drop, Nat.add_sub_cancel' hc]
      exact hnew
    refine ⟨entry.key, _, right, generation, rfl, hleft, hright.placed, hleftEntries, hright.entries,
      ?_, ?_, hright.generation, ?_, ?_⟩
    · rw [hleftEntries]
      exact hbelow
    · rw [hright.entries]
      exact habove
    · rw [if_neg hnot]
      rfl
    · rw [if_neg hnot]
      exact hright.after
  · rw [if_neg hc] at hplan
    rw [hplan] at hpivot
    have hplace : spec.idx + 1 + (c - (spec.idx + 1)) = c := by omega
    have hbehind := LeafIncorporateSpec.drop_applyTo hat.within (c - (spec.idx + 1))
    have hfew : spec.behind + (c - (spec.idx + 1)) ≤ hdr.numEntries := by
      have hlen := congrArg List.length hbehind
      have hlt := (List.getElem?_eq_some_iff.mp hget).1
      rw [hplace, List.length_drop, List.length_drop, length_entries] at hlen
      omega
    rw [splitLeaf_left_eq hplan (Nat.le_add_right _ _), hpivot] at hr
    simp only [Option.bind_some] at hr
    obtain ⟨⟨left, generation⟩, htry, rfl⟩ := Option.map_eq_some_iff.mp hr
    have hleft := updated_splitLeafCleanupLeftNode h hleaf hspec hfew rightAddr htry
    obtain ⟨hright, hrightEntries, hheader⟩ :=
      h.splitLeafRightEntries hleaf addr spec ⟨_, true⟩
    rw [LeafIncorporateSpec.kept_of_behind_le (Nat.le_add_right _ _), ← hbehind, hplace]
      at hrightEntries
    rw [hplace] at hleft
    have hlt : Key.user spec.tupleKey < entry.key := by
      refine hbelow spec.newEntry (List.mem_of_getElem? (?_ : _[spec.idx]? = _))
      rw [List.getElem?_take_of_lt (not_le.mp hc)]
      exact hnew
    refine ⟨entry.key, left, _, generation, rfl, hleft.placed, hright, hleft.entries, hrightEntries,
      ?_, ?_, hleft.generation, ?_, ?_⟩
    · rw [hleft.entries]
      exact hbelow
    · rw [hrightEntries]
      exact habove
    · rw [if_pos hlt]
      exact hleft.after
    · rw [if_pos hlt]
      exact hheader.generation_eq

private theorem splitLeaf_fits (addr rightAddr : Addr)
    (hleftBytes : sizeofHdr + (((spec.applyTo hdr.entries).take (hdr.leftEntries cfg spec)).map
      (Entry.weight cfg)).sum ≤ cfg.pageSize)
    (hrightBytes : sizeofHdr + (((spec.applyTo hdr.entries).drop (hdr.leftEntries cfg spec)).map
      (Entry.weight cfg)).sum ≤ cfg.pageSize) :
    ∃ r, hdr.splitLeaf cfg addr rightAddr spec = some r := by
  have hspec : spec.Within hdr.numEntries := by
    rw [← length_entries]
    exact hat.within
  obtain ⟨entry, hget⟩ : ∃ entry,
      (spec.applyTo hdr.entries)[hdr.leftEntries cfg spec]? = some entry :=
    ⟨_, List.getElem?_eq_getElem (leftEntries_lt cfg hspec)⟩
  have hpivot := splittingPivot_eq cfg hleaf hspec hat hget
  have hplan := buildLeafSplittingPlan_eq cfg hspec
  generalize hdr.leftEntries cfg spec = c at *
  by_cases hc : c ≤ spec.idx
  · rw [if_pos hc] at hplan
    rw [hplan] at hpivot
    obtain ⟨right, hright⟩ := splitLeafRightEntries_fits h hleaf hspec hc addr hrightBytes
    refine ⟨.split entry.key (hdr.splitLeafLeftEntries cfg ⟨c, false⟩ rightAddr) right.1 right.2, ?_⟩
    simp only [splitLeaf_right_eq hplan, hpivot, Option.bind_some, hright]
    rfl
  · rw [if_neg hc] at hplan
    rw [hplan] at hpivot
    have hplace : spec.idx + 1 + (c - (spec.idx + 1)) = c := by omega
    have hfew : spec.behind + (c - (spec.idx + 1)) ≤ hdr.numEntries := by
      have hlen := congrArg List.length
        (LeafIncorporateSpec.drop_applyTo hat.within (c - (spec.idx + 1)))
      have hlt := (List.getElem?_eq_some_iff.mp hget).1
      rw [hplace, List.length_drop, List.length_drop, length_entries] at hlen
      omega
    rw [← hplace] at hleftBytes
    obtain ⟨left, hleft⟩ := splitLeafCleanupLeftNode_fits h hleaf hspec hfew hleftBytes rightAddr
    refine ⟨.split entry.key left.1 (hdr.splitLeafRightEntries cfg addr spec
      ⟨spec.behind + (c - (spec.idx + 1)), true⟩) left.2, ?_⟩
    simp only [splitLeaf_left_eq hplan (Nat.le_add_right _ _), hpivot, Option.bind_some, hleft]
    rfl

end SplitLeaf

theorem defragmentOrSplitLeaf_cases (h : hdr.Placed cfg) (hleaf : hdr.IsLeaf)
    (hascending : hdr.entries.Pairwise fun a b => a.key < b.key) (hat : spec.At hdr.entries)
    {addr rightAddr : Addr} {r : OverflowResult K}
    (hr : hdr.defragmentOrSplitLeaf cfg addr rightAddr spec = some r) :
    (hdr.totalSpaceRequired cfg spec < splitThreshold cfg ∧
      ∃ leaf generation, r = .whole leaf generation ∧
        Updated cfg hdr.generation (spec.applyTo hdr.entries) leaf generation) ∨
    (¬ hdr.totalSpaceRequired cfg spec < splitThreshold cfg ∧
      ∃ pivot left right generation, r = .split pivot left right generation ∧
        SplitInto cfg hdr.generation (Key.user spec.tupleKey) (spec.applyTo hdr.entries)
          (hdr.leftEntries cfg spec) pivot left right generation) := by
  have hspec : spec.Within hdr.numEntries := by
    rw [← length_entries]
    exact hat.within
  rw [defragmentOrSplitLeaf] at hr
  by_cases hsmall : hdr.totalSpaceRequired cfg spec < splitThreshold cfg
  · rw [if_pos hsmall] at hr
    obtain ⟨⟨leaf, generation⟩, htry, rfl⟩ := Option.map_eq_some_iff.mp hr
    exact Or.inl ⟨hsmall, leaf, generation, rfl, updated_defragmentLeaf h hleaf hspec htry⟩
  · rw [if_neg hsmall] at hr
    exact Or.inr ⟨hsmall, splitLeaf_into h hleaf hat hascending hr⟩

private theorem splitLeaf_succeeds (hvalid : hdr.ValidLeaf cfg) (hpage : 4096 ≤ cfg.pageSize)
    (hat : spec.At hdr.entries) (hkey : cfg.keyLength spec.tupleKey ≤ maxInlineKeySize cfg)
    (hmsg : spec.msg.data.length ≤ maxInlineMessageSize cfg)
    (hlarge : ¬ hdr.totalSpaceRequired cfg spec < splitThreshold cfg) (addr rightAddr : Addr) :
    ∃ r, hdr.splitLeaf cfg addr rightAddr spec = some r ∧
      r.Holds cfg (spec.applyTo hdr.entries) := by
  have hspec : spec.Within hdr.numEntries := by
    rw [← length_entries]
    exact hat.within
  obtain ⟨hpos, hlt, hleftBytes, hrightBytes⟩ :=
    bytes_of_split hvalid hpage hspec hkey hmsg hlarge
  obtain ⟨r, hr⟩ := splitLeaf_fits hvalid.placed hvalid.leaf hat addr rightAddr hleftBytes hrightBytes
  refine ⟨r, hr, ?_⟩
  obtain ⟨pivot, left, right, generation, rfl, hinto⟩ :=
    splitLeaf_into hvalid.placed hvalid.leaf hat hvalid.ascending hr
  refine ⟨hinto.placed_left, hinto.placed_right, ?_, ?_, ?_, hinto.below, hinto.above⟩
  · rw [hinto.entries_left]
    exact fun hnil => by
      have hlen := congrArg List.length hnil
      rw [List.length_take_of_le hlt.le, List.length_nil] at hlen
      omega
  · rw [hinto.entries_right]
    exact fun hnil => by
      have hlen := congrArg List.length hnil
      rw [List.length_drop, List.length_nil] at hlen
      omega
  · rw [hinto.entries_left, hinto.entries_right, List.take_append_drop]

private def eightByteKeys : Config Nat := ⟨4096, fun _ => 8⟩

private def oneTupleLeaf : Page Nat :=
  ⟨0, 0, 0, 0, 0, 4082, [⟨4082, .leaf ⟨7, ⟨.insert, []⟩⟩⟩]⟩

private theorem oneTupleLeaf_valid : oneTupleLeaf.ValidLeaf eightByteKeys where
  placed := ⟨by decide, by decide, by decide, List.pairwise_singleton _ _⟩
  leaf := fun entry hentry => ⟨_, List.mem_singleton.mp hentry⟩
  ascending := List.pairwise_singleton _ _
  inline := fun e he => by
    obtain rfl := Entry.leaf.inj (List.mem_singleton.mp he)
    decide

private theorem oneTupleLeaf_spec :
    oneTupleLeaf.createLeafIncorporateSpec true (fun _ _ m => some m) 9 ⟨.insert, [1]⟩ =
      .ok ⟨9, 1, .didNotExist, ⟨.insert, [1]⟩⟩ := rfl

end Page

end Ordered

end Btree
end TreePass
