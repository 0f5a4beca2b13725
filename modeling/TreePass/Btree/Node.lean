import TreePass.Data
import TreePass.Lib.BinarySearch
import TreePass.Lib.Ranks
import Mathlib.Order.WithBot

/-!
# Nodes of a B-tree

The pages of a B-tree as the readers see them: a header with the height, the generation and the
addresses of the two neighbours, and the entries in the order of the offset table.  The pages are
a function from addresses; a quiescent tree is one such function.
-/

namespace TreePass
namespace Btree

/-- `key`: a user key, or one of the two infinities below and above all of them. -/
abbrev Key (K : Type) := WithBot (WithTop K)

/-- `KEY_CREATE_USER`. -/
@[coe] def Key.user {K : Type} (k : K) : Key K := ((k : WithTop K) : WithBot (WithTop K))

/-- `index_entry`: a pivot, the address of the child below it and the bytes of its
`pivot_data`. -/
structure IndexEntry (K : Type) where
  pivot : Key K
  childAddr : Nat
  pivotData : List UInt8

/-- `btree_hdr` together with the entries it leads to: tuples in a leaf, index entries above. -/
structure Node (K : Type) where
  height : Nat
  generation : Nat
  nextAddr : Nat
  prevAddr : Nat
  tuples : List (Tuple K)
  pivots : List (IndexEntry K)

variable {K : Type}

/-- `btree_num_entries`. -/
def Node.numEntries (hdr : Node K) : Nat :=
  if hdr.height = 0 then hdr.tuples.length else hdr.pivots.length

/-- A tuple of a leaf, as `btree_get_tuple_key` and `btree_get_tuple_message` read it. -/
def Node.entries (hdr : Node K) : List (Key K × Message) :=
  hdr.tuples.map fun t => (Key.user t.key, t.msg)

@[simp] theorem Node.length_entries (hdr : Node K) : hdr.entries.length = hdr.tuples.length := by
  rw [entries, List.length_map]

variable [LinearOrder K]

/-- The loop of `btree_find_pivot` and `btree_find_tuple` over the keys of a node. -/
def findKey (keys : List (Key K)) (target : Key K) : Int × Bool :=
  Lib.search (fun i => (keys[i]?).elim .gt fun k => cmp k target) keys.length

/-- `btree_find_tuple`: the index of the last tuple not above the target, and whether it is the
target. -/
def findTuple (hdr : Node K) (target : Key K) : Int × Bool :=
  findKey (hdr.entries.map Prod.fst) target

/-- `btree_find_pivot`. -/
def findPivot (hdr : Node K) (target : Key K) : Int × Bool :=
  findKey (hdr.pivots.map IndexEntry.pivot) target

/-- The child `btree_lookup_node` descends to: the last one whose pivot is not above the target,
or the first one. -/
def childIndex (hdr : Node K) (target : Key K) : Nat :=
  let childIdx :=
    if target = ⊤ then (hdr.numEntries : Int) - 1 else (findPivot hdr target).1
  childIdx.toNat

def childAddr (hdr : Node K) (idx : Nat) : Nat := (hdr.pivots[idx]?).elim 0 IndexEntry.childAddr

/-- The turns of the loop of `btree_lookup_node`. -/
def descend (pages : Nat → Node K) (target : Key K) : Nat → Nat → Nat
  | 0, addr => addr
  | h + 1, addr => descend pages target h (childAddr (pages addr) (childIndex (pages addr) target))

/-- `btree_lookup_node`: the node of height `stopAtHeight` on the path to the target. -/
def lookupNode (pages : Nat → Node K) (rootAddr : Nat) (target : Key K) (stopAtHeight : Nat) : Nat :=
  descend pages target ((pages rootAddr).height - stopAtHeight) rootAddr

/-! ## Searching sorted keys -/

section Sorted

variable {keys : List (Key K)}

theorem initial_lt (h : keys.Pairwise (· < ·)) (x : Key K) :
    Lib.Initial (fun k => decide (k < x)) keys :=
  .of_pairwise h fun a b hab hb => by
    rw [decide_eq_true_eq] at hb ⊢
    exact hab.trans hb

theorem initial_le (h : keys.Pairwise (· < ·)) (x : Key K) :
    Lib.Initial (fun k => decide (k ≤ x)) keys :=
  .of_pairwise h fun a b hab hb => by
    rw [decide_eq_true_eq] at hb ⊢
    exact hab.le.trans hb

theorem countP_le_le (h : keys.Pairwise (· < ·)) (x : Key K) :
    keys.countP (fun k => decide (k ≤ x)) ≤ keys.countP (fun k => decide (k < x)) + 1 := by
  by_contra hcon
  have hlen : keys.countP (fun k => decide (k ≤ x)) ≤ keys.length := List.countP_le_length
  have hequal : ∀ i (hi : i < keys.length), keys.countP (fun k => decide (k < x)) ≤ i →
      i < keys.countP (fun k => decide (k ≤ x)) → keys[i] = x := by
    intro i hi hlow hupp
    have hle := ((initial_le h x).getElem_iff (List.getElem?_eq_getElem hi)).mpr hupp
    have hnlt := mt ((initial_lt h x).getElem_iff (List.getElem?_eq_getElem hi)).mp (by omega)
    rw [decide_eq_true_eq] at hle hnlt
    exact le_antisymm hle (not_lt.mp hnlt)
  have hfirst := hequal (keys.countP fun k => decide (k < x)) (by omega) (by omega) (by omega)
  have hsecond := hequal (keys.countP (fun k => decide (k < x)) + 1) (by omega) (by omega) (by omega)
  have hlt := List.pairwise_iff_getElem.mp h (keys.countP fun k => decide (k < x))
    (keys.countP (fun k => decide (k < x)) + 1) (by omega) (by omega) (by omega)
  rw [hfirst, hsecond] at hlt
  exact absurd hlt (lt_irrefl x)

/-- **The binary search of a node is exact.**  On strictly increasing keys it finds the last one
not above the target. -/
theorem findKey_eq (h : keys.Pairwise (· < ·)) (x : Key K) :
    findKey keys x = (((keys.countP fun k => decide (k ≤ x) : Nat) : Int) - 1,
      decide (keys.countP (fun k => decide (k < x)) < keys.countP fun k => decide (k ≤ x))) := by
  refine Lib.search_eq ⟨?_, countP_le_le h x, List.countP_le_length, ?_, ?_⟩
  · exact List.countP_mono_left fun k _ hk => by simpa using (of_decide_eq_true hk).le
  · intro i hi
    rw [← (initial_lt h x).getElem_iff (List.getElem?_eq_getElem hi), List.getElem?_eq_getElem hi,
      Option.elim_some, cmp_eq_lt_iff, decide_eq_true_eq]
  · intro i hi
    rw [← not_lt, ← (initial_le h x).getElem_iff (List.getElem?_eq_getElem hi),
      List.getElem?_eq_getElem hi, Option.elim_some, cmp_eq_gt_iff, decide_eq_true_eq, not_le]

end Sorted
end Btree
end TreePass
