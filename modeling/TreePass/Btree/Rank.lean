import TreePass.Btree.PackTree
import Mathlib.Algebra.GroupWithZero.Nat
import Mathlib.Algebra.BigOperators.Group.List.Basic

/-!
# Ranks in a packed tree

`btree_get_rank` sums up the statistics of the pivots to the left of a lookup, and of the tuples to
the left of its place in the leaf.  `btree_count_in_range` takes the difference of two ranks.

* `countTuples` are the exact totals of some tuples.
* `Counts` says that an entry stands for some tuples: a tuple for itself, a pivot for those that its
  statistics count.
* `LevelPages.nodeStats_eq` is what a pack leaves: the statistics of a node count the tuples below
  it.
-/

namespace TreePass
namespace Btree

variable {K : Type}

/-! ## The code -/

section Code

variable [LinearOrder K] (cfg : Config K)

/-- `btree_get_rank`: how many tuples are below the target, and their sizes. -/
def btreeGetRank (outcomes : LookupOutcomes) (rootAddr : Addr) (target : Key K) (s : Reader K) :
    Option (PivotStats × Reader K) := do
  let r ← btreeLookupNode cfg outcomes .branch rootAddr target 0 s
  let leaf := r.2.pages r.1.addr
  let found := leaf.findTuple target
  let tupleRankInLeaf := if found.2 then found.1 else found.1 + 1
  return (accumulateNodeRanks cfg leaf tupleRankInLeaf.toNat r.1.stats,
    { r.2 with calls := .unget r.1.addr :: r.2.calls })

/-- The difference of two `uint32`. -/
def subUint32 (a b : Nat) : Nat := (a + 2 ^ 32 - b) % 2 ^ 32

/-- **`btree_count_in_range`**, with the answers that its two lookups get from the cache. -/
def btreeCountInRange (outcomes outcomes' : LookupOutcomes) (rootAddr : Addr) (minKey maxKey : Key K)
    (s : Reader K) : Option (PivotStats × Reader K) := do
  let minStats ← btreeGetRank cfg outcomes rootAddr minKey s
  let stats ← btreeGetRank cfg outcomes' rootAddr maxKey minStats.2
  return (if minStats.1.numKvs < stats.1.numKvs then
      ⟨subUint32 stats.1.numKvs minStats.1.numKvs, subUint32 stats.1.keyBytes minStats.1.keyBytes,
        subUint32 stats.1.messageBytes minStats.1.messageBytes⟩
    else statsZero, stats.2)

end Code

/-! ## Exact totals -/

section Totals

variable (cfg : Config K)

def countTuples (ts : List (Tuple K)) : PivotStats where
  numKvs := ts.length
  keyBytes := (ts.map fun t => cfg.keyLength t.key).sum
  messageBytes := (ts.map fun t => t.msg.data.length).sum

/-- The totals are small enough for the counters of a pivot. -/
structure Fits (ts : List (Tuple K)) : Prop where
  numKvs : (countTuples cfg ts).numKvs < 2147483648
  keyBytes : (countTuples cfg ts).keyBytes < 2147483648
  messageBytes : (countTuples cfg ts).messageBytes < 2147483648

variable {cfg}

theorem countTuples_append (ts ts' : List (Tuple K)) :
    countTuples cfg (ts ++ ts') =
      ⟨(countTuples cfg ts).numKvs + (countTuples cfg ts').numKvs,
        (countTuples cfg ts).keyBytes + (countTuples cfg ts').keyBytes,
        (countTuples cfg ts).messageBytes + (countTuples cfg ts').messageBytes⟩ := by
  unfold countTuples
  rw [List.length_append, List.map_append, List.map_append, List.sum_append, List.sum_append]

theorem Fits.left {ts ts' : List (Tuple K)} (h : Fits cfg (ts ++ ts')) : Fits cfg ts := by
  obtain ⟨hnum, hkey, hmessage⟩ := h
  rw [countTuples_append] at hnum hkey hmessage
  dsimp only at hnum hkey hmessage
  exact ⟨by omega, by omega, by omega⟩

theorem Fits.right {ts ts' : List (Tuple K)} (h : Fits cfg (ts ++ ts')) : Fits cfg ts' := by
  obtain ⟨hnum, hkey, hmessage⟩ := h
  rw [countTuples_append] at hnum hkey hmessage
  dsimp only at hnum hkey hmessage
  exact ⟨by omega, by omega, by omega⟩

theorem countTuples_perm {ts ts' : List (Tuple K)} (h : ts.Perm ts') :
    countTuples cfg ts = countTuples cfg ts' := by
  unfold countTuples
  rw [h.length_eq, (h.map _).sum_eq, (h.map fun t => t.msg.data.length).sum_eq]

theorem countTuples_filter (p : Tuple K → Bool) (ts : List (Tuple K)) :
    countTuples cfg ts = countTuples cfg (ts.filter p ++ ts.filter fun t => !p t) :=
  countTuples_perm (List.filter_append_perm p ts).symm

theorem Fits.filter {ts : List (Tuple K)} (h : Fits cfg ts) (p : Tuple K → Bool) :
    Fits cfg (ts.filter p) := by
  have hsplit : countTuples cfg ts = _ := countTuples_filter p ts
  obtain ⟨hnum, hkey, hmessage⟩ := h
  rw [hsplit] at hnum hkey hmessage
  exact Fits.left ⟨hnum, hkey, hmessage⟩

theorem addUnknown_eq {a b : Nat} (h : a + b < 2147483648) : addUnknown a b = a + b := by
  unfold addUnknown unknownCounter
  by_cases hknown : a ≠ 0x7fffffff ∧ b ≠ 0x7fffffff
  · rw [if_pos hknown]
    exact Nat.mod_eq_of_lt (by omega)
  · rw [if_neg hknown]
    omega

variable (cfg)

def Counts : Entry K → List (Tuple K) → Prop
  | .leaf t, ts => ts = [t]
  | .index e, ts => e.pivotData.stats = countTuples cfg ts

variable {cfg}

theorem accumulatePivotStats_eq {e : OndiskIndexEntry K} {acc ts : List (Tuple K)}
    (h : Counts cfg (.index e) ts) (hfits : Fits cfg (acc ++ ts)) :
    accumulatePivotStats (countTuples cfg acc) e.pivotData.stats = countTuples cfg (acc ++ ts) := by
  obtain ⟨hnum, hkey, hmessage⟩ := hfits
  have hstats : e.pivotData.stats = countTuples cfg ts := h
  rw [countTuples_append] at hnum hkey hmessage ⊢
  unfold accumulatePivotStats
  rw [hstats, addUnknown_eq hnum, addUnknown_eq hkey, addUnknown_eq hmessage]

theorem countEntry_eq {entry : Entry K} {acc ts : List (Tuple K)} (h : Counts cfg entry ts)
    (hfits : Fits cfg (acc ++ ts)) :
    countEntry cfg (countTuples cfg acc) entry = countTuples cfg (acc ++ ts) := by
  cases entry with
  | index e => exact accumulatePivotStats_eq h hfits
  | leaf t =>
      obtain rfl : ts = [t] := h
      obtain ⟨hnum, hkey, hmessage⟩ := hfits
      rw [countTuples_append] at hnum hkey hmessage ⊢
      unfold countEntry
      simp only [countTuples, List.length_singleton, List.map_singleton, List.sum_singleton] at *
      rw [Nat.mod_eq_of_lt (by omega), Nat.mod_eq_of_lt (by omega), Nat.mod_eq_of_lt (by omega)]

theorem foldl_countEntry {tuplesOf : Entry K → List (Tuple K)} (entries : List (Entry K)) :
    ∀ acc : List (Tuple K), (∀ entry ∈ entries, Counts cfg entry (tuplesOf entry)) →
      Fits cfg (acc ++ entries.flatMap tuplesOf) →
      entries.foldl (countEntry cfg) (countTuples cfg acc) =
        countTuples cfg (acc ++ entries.flatMap tuplesOf) := by
  induction entries with
  | nil =>
      intro acc _ _
      rw [List.flatMap_nil, List.append_nil]
      rfl
  | cons entry entries ih =>
      intro acc hcounts hfits
      rw [List.flatMap_cons, ← List.append_assoc] at hfits ⊢
      rw [List.foldl_cons, countEntry_eq (hcounts entry List.mem_cons_self) hfits.left]
      exact ih _ (fun e he => hcounts e (List.mem_cons_of_mem entry he)) hfits

theorem foldl_accumulate_leaf (ts : List (Tuple K)) :
    ∀ acc : List (Tuple K), ∀ numKvs, Fits cfg (acc ++ ts) →
      (ts.map Entry.leaf).foldl (accumulateEntry cfg) { countTuples cfg acc with numKvs := numKvs } =
        { countTuples cfg (acc ++ ts) with numKvs := numKvs } := by
  induction ts with
  | nil =>
      intro acc numKvs _
      rw [List.append_nil]
      rfl
  | cons t ts ih =>
      intro acc numKvs hfits
      have hsplit : acc ++ t :: ts = acc ++ [t] ++ ts := by rw [List.append_assoc]; rfl
      rw [hsplit] at hfits ⊢
      rw [List.map_cons, List.foldl_cons, ← ih _ numKvs hfits]
      congr 1
      obtain ⟨-, hkey, hmessage⟩ := hfits.left
      rw [countTuples_append] at hkey hmessage ⊢
      unfold accumulateEntry
      simp only [countTuples, List.map_singleton, List.sum_singleton] at *
      rw [addUnknown_eq hkey, addUnknown_eq hmessage]

end Totals

/-! ## The ranks of a node -/

section Node

variable {cfg : Config K} {hdr : Page K} {h : Nat} {tuplesOf : Entry K → List (Tuple K)}

theorem accumulateNodeRanks_stored (cfg : Config K) (hdr : Page K) (upto : Nat)
    (stats : PivotStats) :
    accumulateNodeRanks cfg hdr upto stats =
      if hdr.height = 0 then
        { (hdr.storedEntries.take upto).foldl (accumulateEntry cfg) stats with
          numKvs := (((hdr.storedEntries.take upto).foldl (accumulateEntry cfg) stats).numKvs +
            upto) % 2 ^ 32 }
      else (hdr.storedEntries.take upto).foldl (accumulateEntry cfg) stats := by
  unfold accumulateNodeRanks Page.storedEntries
  rw [← List.map_take, List.foldl_map]

theorem accumulateNodeRanks_index (hheight : hdr.height ≠ 0)
    (hkind : ∀ entry ∈ hdr.storedEntries, ∃ e, entry = .index e)
    (hcounts : ∀ entry ∈ hdr.storedEntries, Counts cfg entry (tuplesOf entry))
    (upto : Nat) (acc : List (Tuple K))
    (hfits : Fits cfg (acc ++ (hdr.storedEntries.take upto).flatMap tuplesOf)) :
    accumulateNodeRanks cfg hdr upto (countTuples cfg acc) =
      countTuples cfg (acc ++ (hdr.storedEntries.take upto).flatMap tuplesOf) := by
  have hsame : ∀ entries : List (Entry K), (∀ entry ∈ entries, ∃ e, entry = .index e) →
      ∀ stats, entries.foldl (accumulateEntry cfg) stats =
        entries.foldl (countEntry cfg) stats := by
    intro entries hindex
    induction entries with
    | nil => exact fun _ => rfl
    | cons entry entries ih =>
        intro stats
        obtain ⟨e, rfl⟩ := hindex entry List.mem_cons_self
        rw [List.foldl_cons, List.foldl_cons]
        exact ih (fun e' he' => hindex e' (List.mem_cons_of_mem _ he')) _
  rw [accumulateNodeRanks_stored, if_neg hheight,
    hsame _ fun entry hentry => hkind entry (List.mem_of_mem_take hentry)]
  exact foldl_countEntry _ acc (fun entry hentry => hcounts entry (List.mem_of_mem_take hentry))
    hfits

theorem accumulateNodeRanks_leaf (hheight : hdr.height = 0) {ts : List (Tuple K)}
    (hentries : hdr.storedEntries = ts.map Entry.leaf) {upto : Nat} (hupto : upto ≤ ts.length)
    (acc : List (Tuple K)) (hfits : Fits cfg (acc ++ ts.take upto)) :
    accumulateNodeRanks cfg hdr upto (countTuples cfg acc) =
      countTuples cfg (acc ++ ts.take upto) := by
  have hsums := foldl_accumulate_leaf (ts.take upto) acc (countTuples cfg acc).numKvs hfits
  rw [accumulateNodeRanks_stored, if_pos hheight, hentries, ← List.map_take]
  rw [show (countTuples cfg acc) = { countTuples cfg acc with
    numKvs := (countTuples cfg acc).numKvs } from rfl, hsums]
  have hnum := hfits.numKvs
  rw [countTuples_append] at hnum ⊢
  have hlength : (countTuples cfg (ts.take upto)).numKvs = upto := by
    show (ts.take upto).length = upto
    rw [List.length_take]
    omega
  dsimp only at hnum ⊢
  rw [hlength] at hnum ⊢
  rw [Nat.mod_eq_of_lt (by omega)]

end Node

/-! ## The tuples below a node -/

def tuplesBelow (pages : Nat → Page K) : Nat → Nat → List (Tuple K)
  | 0, addr => (pages addr).view.tuples
  | h + 1, addr =>
      ((pages addr).view.pivots.map IndexEntry.childAddr).flatMap (tuplesBelow pages h)

def entryTuples (pages : Nat → Page K) (h : Nat) : Entry K → List (Tuple K)
  | .leaf t => [t]
  | .index e => tuplesBelow pages h e.maskedChildAddr.toNat

namespace LevelPages

variable {cfg : Config K} {pages : Nat → Page K} {rootAddr top : Nat} {nodes : Nat → List Nat}
  {tuples : List (Tuple K)} (s : LevelPages cfg pages rootAddr top nodes tuples)

include s

theorem tuplesBelow_eq (h : Nat) :
    h ≤ top → (nodes h).flatMap (tuplesBelow pages h) = tuples := by
  induction h with
  | zero => exact fun _ => s.tuples_eq
  | succ h ih =>
      intro hle
      show (nodes (h + 1)).flatMap (fun a =>
        ((pages a).view.pivots.map IndexEntry.childAddr).flatMap (tuplesBelow pages h)) = tuples
      rw [← List.flatMap_assoc, s.children_eq hle]
      exact ih (by omega)

theorem link_of_entry {h : Nat} (hlt : h < top) {a : Nat} (ha : a ∈ nodes (h + 1))
    {entry : Entry K} (hentry : entry ∈ (pages a).storedEntries) :
    ∃ e, entry = .index e ∧ e.maskedChildAddr.toNat ∈ nodes h ∧
      e.pivotData.stats = nodeStats cfg (pages e.maskedChildAddr.toNat) := by
  have hmem : PackReq.linkOf entry ∈ (nodes h).map (PackReq.linkTo cfg pages h) := by
    rw [← s.links h hlt]
    exact List.mem_map_of_mem (List.mem_flatMap.mpr ⟨a, ha, hentry⟩)
  obtain ⟨b, hb, hlink⟩ := List.mem_map.mp hmem
  obtain ⟨k, hk, -⟩ := s.firstKey_spec hlt.le hb
  obtain ⟨hbound, haligned⟩ := s.aligned h hlt b hb
  unfold PackReq.linkTo at hlink
  rw [hk] at hlink
  cases entry with
  | leaf t => cases hlink
  | index e =>
      obtain rfl := Option.some.inj hlink
      have hchild : (OndiskIndexEntry.mk ⟨BitVec.ofNat 64 b, nodeStats cfg (pages b)⟩
          k).maskedChildAddr.toNat = b := toNat_masked hbound haligned
      refine ⟨_, rfl, ?_, ?_⟩
      · rw [hchild]
        exact hb
      · rw [hchild]

theorem tuplesBelow_succ {h : Nat} (hlt : h < top) {a : Nat} (ha : a ∈ nodes (h + 1)) :
    tuplesBelow pages (h + 1) a = (pages a).storedEntries.flatMap (entryTuples pages h) := by
  show ((pages a).view.pivots.map IndexEntry.childAddr).flatMap (tuplesBelow pages h) = _
  rw [Page.children_eq (Nat.succ_ne_zero h) (s.ofHeight (h + 1) hlt a ha), List.flatMap_map]
  refine List.flatMap_congr fun entry hentry => ?_
  obtain ⟨e, rfl, -, -⟩ := s.link_of_entry hlt ha hentry
  rfl

theorem fits_below {h : Nat} (hle : h ≤ top) (hfits : Fits cfg tuples) {a : Nat}
    (ha : a ∈ nodes h) : Fits cfg (tuplesBelow pages h a) := by
  obtain ⟨before, after, hsplit⟩ := List.append_of_mem ha
  rw [← s.tuplesBelow_eq h hle, hsplit, List.flatMap_append, List.flatMap_cons] at hfits
  exact hfits.right.left

theorem nodeStats_eq (hfits : Fits cfg tuples) (h : Nat) :
    h ≤ top → ∀ a ∈ nodes h, nodeStats cfg (pages a) = countTuples cfg (tuplesBelow pages h a) := by
  induction h with
  | zero =>
      intro hle a ha
      have hbelow := s.fits_below hle hfits ha
      have hentries := Page.storedEntries_of_leaf (s.ofHeight 0 hle a ha)
      have hleaf : (pages a).storedEntries.flatMap (entryTuples pages 0) =
          tuplesBelow pages 0 a := by
        rw [hentries, List.flatMap_map]
        exact List.flatMap_singleton' _
      have hsum := @foldl_countEntry K cfg (entryTuples pages 0) (pages a).storedEntries [] (by
        intro entry hentry
        rw [hentries] at hentry
        obtain ⟨t, -, rfl⟩ := List.mem_map.mp hentry
        rfl) (by rw [List.nil_append, hleaf]; exact hbelow)
      rw [List.nil_append, hleaf] at hsum
      exact hsum
  | succ h ih =>
      intro hle a ha
      have hbelow := s.fits_below hle hfits ha
      have hchildren := s.tuplesBelow_succ hle ha
      have hsum := @foldl_countEntry K cfg (entryTuples pages h) (pages a).storedEntries [] (by
        intro entry hentry
        obtain ⟨e, rfl, hchild, hstats⟩ := s.link_of_entry hle ha hentry
        rw [ih (by omega) _ hchild] at hstats
        exact hstats) (by rw [List.nil_append, ← hchildren]; exact hbelow)
      rw [List.nil_append, ← hchildren] at hsum
      exact hsum

theorem counts_of_entry (hfits : Fits cfg tuples) {h : Nat} (hlt : h < top) {a : Nat}
    (ha : a ∈ nodes (h + 1)) {entry : Entry K} (hentry : entry ∈ (pages a).storedEntries) :
    Counts cfg entry (entryTuples pages h entry) := by
  obtain ⟨e, rfl, hchild, hstats⟩ := s.link_of_entry hlt ha hentry
  rw [s.nodeStats_eq hfits h hlt.le _ hchild] at hstats
  exact hstats

end LevelPages

end Btree
end TreePass
