import TreePass.Btree.CountInRange
import TreePass.Btree.IteratorOpens
import TreePass.Btree.IteratorSeek
import TreePass.Btree.LevelOrder
import TreePass.Btree.PackIteration

/-!
# Counting by an iterator

`btree_count_in_range_by_iterator` opens an iterator at the lower bound and counts what it returns.
In a packed tree it counts the tuples of the range, and so does `btree_count_in_range`.

* `BehavesAs.countLoop_eq` is the loop over a cursor.
* `LevelShaped.countInRangeByIterator_eq` is the function on a tree in levels.
* `btree_count_in_range_exact` says that both functions are exact on packed trees.
-/

namespace TreePass
namespace Btree

variable {K : Type} (cfg : Config K) (pages : Nat → Node K)

def countCurr (stats : PivotStats) (kv : Key K × Message) : PivotStats :=
  ⟨(stats.numKvs + 1) % 2 ^ 32, (stats.keyBytes + keyLength cfg kv.1) % 2 ^ 32,
    (stats.messageBytes + kv.2.data.length) % 2 ^ 32⟩

variable [LinearOrder K]

/-- The loop of `btree_count_in_range_by_iterator`, for so many turns. -/
def countLoop (fuel : Nat) : Nat → Iterator K → PivotStats → Option PivotStats
  | 0, itor, stats => if itor.canNext then none else some stats
  | turns + 1, itor, stats =>
      if itor.canNext then do
        let kv ← itor.curr? pages
        let itor ← itor.next pages fuel
        countLoop fuel turns itor (countCurr cfg stats kv)
      else some stats

/-- **`btree_count_in_range_by_iterator`**. -/
def countInRangeByIterator (fuel turns rootAddr : Nat) (minKey maxKey : Key K) :
    Option PivotStats :=
  (Iterator.init pages fuel rootAddr minKey maxKey minKey .greaterThanOrEqual 0).bind fun itor =>
    countLoop cfg pages fuel turns itor statsZero

variable {cfg pages}

/-! ## The loop -/

theorem BehavesAs.countLoop_eq {fuel : Nat} (turns : Nat) :
    ∀ {itor : Iterator K} {c : Lib.Cursor (Key K × Message)} (stats : PivotStats),
      BehavesAs pages fuel itor c → 0 ≤ c.pos → c.items.length ≤ turns + c.pos.toNat →
      countLoop cfg pages fuel turns itor stats =
        some ((c.items.drop c.pos.toNat).foldl (countCurr cfg) stats) := by
  induction turns with
  | zero =>
      intro itor c stats h hpos hturns
      have hlast : c.canNext = false := by
        unfold Lib.Cursor.canNext
        rw [decide_eq_false_iff_not]
        omega
      unfold countLoop
      rw [h.shows.canNext, hlast, if_neg Bool.false_ne_true,
        List.drop_of_length_le (by omega)]
      rfl
  | succ turns ih =>
      intro itor c stats h hpos hturns
      unfold countLoop
      by_cases hcan : c.canNext = true
      · have hcan' : (if true = true then itor.canNext else itor.canPrev) = true := by
          rw [if_pos rfl, h.shows.canNext, hcan]
        obtain ⟨hne, hlt⟩ := of_decide_eq_true hcan
        have hprev : c.canPrev = true := (cursor_canPrev_iff c hne).mpr (by omega)
        have hcurr : c.canCurr = true := by
          unfold Lib.Cursor.canCurr
          rw [hcan, hprev]
          rfl
        have hbound : c.pos.toNat < c.items.length := by omega
        obtain ⟨itor', hmove, h'⟩ := h.move hcan'
        have hnext : itor.next pages fuel = some itor' := by
          unfold iteratorMove at hmove
          rw [if_pos rfl, h.shows.canNext, if_pos hcan] at hmove
          exact hmove
        have hshown : itor.curr? pages = some c.items[c.pos.toNat] := by
          rw [h.shows.curr hcurr, Lib.Cursor.curr, if_pos (by omega),
            List.getElem?_eq_getElem hbound]
        have hstep : c.step true = c.next := rfl
        rw [hstep] at h'
        have hmoved := Lib.Cursor.next_pos hcan
        rw [h.shows.canNext, if_pos hcan, hshown, hnext]
        show countLoop cfg pages fuel turns itor' (countCurr cfg stats c.items[c.pos.toNat]) = _
        rw [ih _ h' (by omega) (by rw [Lib.Cursor.next_items]; omega), Lib.Cursor.next_items,
          hmoved, List.drop_eq_getElem_cons hbound, List.foldl_cons]
        congr 3
        omega
      · rw [h.shows.canNext, if_neg hcan, List.drop_of_length_le]
        · rfl
        · have hnot := mt decide_eq_true hcan
          omega

/-! ## The start -/

theorem init_of_reversed {minKey maxKey : Key K} (hlt : maxKey < minKey) (fuel rootAddr : Nat) :
    Iterator.init pages fuel rootAddr minKey maxKey minKey .greaterThanOrEqual 0 =
      Iterator.init pages fuel rootAddr minKey minKey minKey .greaterThanOrEqual 0 := by
  unfold Iterator.init
  rw [if_pos hlt, if_neg (lt_irrefl minKey)]

theorem entriesIn_of_le {rootAddr : Nat} {minKey maxKey : Key K} (hle : maxKey ≤ minKey) :
    entriesIn pages rootAddr minKey maxKey = [] := by
  unfold entriesIn
  rw [List.filter_eq_nil_iff]
  intro kv _ hkv
  rw [Bool.and_eq_true, decide_eq_true_eq, decide_eq_true_eq] at hkv
  exact absurd (lt_of_lt_of_le hkv.2 hle) (not_lt.mpr hkv.1)

theorem startCursor_pos_zero (rootAddr : Nat) (minKey maxKey : Key K) :
    (startCursor pages rootAddr minKey maxKey minKey .greaterThanOrEqual).pos = 0 := by
  show ((entriesIn pages rootAddr minKey maxKey).findIdx fun kv => decide (minKey ≤ kv.1) : Int) = 0
  cases hitems : entriesIn pages rootAddr minKey maxKey with
  | nil => rfl
  | cons kv kvs =>
      have hmem : kv ∈ entriesIn pages rootAddr minKey maxKey := by
        rw [hitems]
        exact List.mem_cons_self
      have hkv := (List.mem_filter.mp hmem).2
      rw [Bool.and_eq_true] at hkv
      rw [List.findIdx_cons, hkv.1]
      rfl

namespace LevelShaped

variable {rootAddr : Nat} (s : LevelShaped pages rootAddr)

include s

theorem opensAsCursor {minKey maxKey : Key K} (hle : minKey ≤ maxKey) :
    OpensAsCursor pages rootAddr minKey maxKey minKey .greaterThanOrEqual := by
  have hclamp : Iterator.clampKey minKey maxKey minKey = minKey := by
    unfold Iterator.clampKey
    rw [if_neg (lt_irrefl minKey), if_neg (not_lt.mpr hle)]
  unfold OpensAsCursor
  by_cases hempty : entriesIn pages rootAddr minKey maxKey = []
  · rw [if_pos hempty]
    unfold ShowsEmpty
    rw [hclamp]
    by_cases hsame : lookupNode pages rootAddr minKey 0 = lookupNode pages rootAddr maxKey 0
    · rw [if_pos hsame, ← hsame]
      obtain ⟨p, hfound⟩ := s.lookupNode_spec (Nat.zero_le _) minKey
      have hmem := List.mem_of_getElem? hfound.node
      -- Only the first leaf can start above the bound.
      by_cases hp : p = 0
      · left
        subst hp
        have hprev := (s.linked 0 (Nat.zero_le _)).prevAddr hfound.node
        rw [if_pos rfl] at hprev
        exact hprev
      · right
        have hheight := s.height_eq 0 (Nat.zero_le _) _ hmem
        have hne := s.nonempty 0 (Nat.zero_le _) _ hmem
        have hfirst := hfound.first (Nat.pos_of_ne_zero hp)
        unfold Node.keys at hne hfirst
        rw [if_pos hheight] at hne hfirst
        obtain ⟨k, ks, hkeys⟩ := List.exists_cons_of_ne_nil hne
        rw [hkeys] at hfirst
        have hk : k ∈ (pages (lookupNode pages rootAddr minKey 0)).entries.map Prod.fst := by
          rw [hkeys]
          exact List.mem_cons_self
        obtain ⟨kv, hkv, rfl⟩ := List.mem_map.mp hk
        exact ⟨kv, hkv, hfirst kv.1 rfl⟩
    · rw [if_neg hsame]
      rfl
  · rw [if_neg hempty]
    constructor
    · rintro ⟨hpass, -⟩
      cases hpass
    · rintro ⟨-, -, hbefore, kv, hkv, hge⟩
      rw [hclamp] at hbefore hkv
      have hlt : kv.1 < minKey := of_decide_eq_true (hbefore kv hkv)
      exact absurd hge (not_le.mpr hlt)

theorem countInRangeByIterator_eq (minKey maxKey : Key K) (fuel : Nat) {turns : Nat}
    (hturns : (contents pages rootAddr).length ≤ turns) :
    countInRangeByIterator cfg pages fuel turns rootAddr minKey maxKey =
      some ((entriesIn pages rootAddr minKey maxKey).foldl (countCurr cfg) statsZero) := by
  have hforward : ∀ {maxKey : Key K}, minKey ≤ maxKey →
      countInRangeByIterator cfg pages fuel turns rootAddr minKey maxKey =
        some ((entriesIn pages rootAddr minKey maxKey).foldl (countCurr cfg) statsZero) := by
    intro maxKey hle
    obtain ⟨itor, hinit, hbehaves⟩ := (init_behavesAs_iff s.wellShaped hle fuel minKey
      .greaterThanOrEqual).mpr (s.opensAsCursor hle)
    have hpos := @startCursor_pos_zero K pages _ rootAddr minKey maxKey
    have hlength : (entriesIn pages rootAddr minKey maxKey).length ≤ turns :=
      Nat.le_trans (List.length_filter_le _ _) hturns
    unfold countInRangeByIterator
    rw [hinit, Option.bind_some, hbehaves.countLoop_eq turns statsZero (by rw [hpos]) (by
      show (entriesIn pages rootAddr minKey maxKey).length ≤ _
      omega), hpos]
    rfl
  rcases le_or_gt minKey maxKey with hle | hlt
  · exact hforward hle
  · rw [entriesIn_of_le hlt.le, ← entriesIn_of_le (le_refl minKey), ← hforward (le_refl minKey)]
    unfold countInRangeByIterator
    rw [init_of_reversed hlt]

end LevelShaped

/-! ## Packed trees -/

open Alloc (Extents)

omit [LinearOrder K] in
theorem keyLength_user (k : K) : keyLength cfg (Key.user k) = cfg.keyLength k := rfl

omit [LinearOrder K] in
theorem foldl_countCurr (ts : List (Tuple K)) : ∀ acc : List (Tuple K), Fits cfg (acc ++ ts) →
    (ts.map fun t => (Key.user t.key, t.msg)).foldl (countCurr cfg) (countTuples cfg acc) =
      countTuples cfg (acc ++ ts) := by
  induction ts with
  | nil =>
      intro acc _
      rw [List.append_nil]
      rfl
  | cons t ts ih =>
      intro acc hfits
      have hsplit : acc ++ t :: ts = acc ++ [t] ++ ts := by
        rw [List.append_assoc]
        rfl
      rw [hsplit] at hfits ⊢
      rw [List.map_cons, List.foldl_cons, ← ih _ hfits]
      congr 1
      obtain ⟨hnum, hkey, hmessage⟩ := hfits.left
      rw [countTuples_append] at hnum hkey hmessage ⊢
      unfold countCurr
      rw [keyLength_user]
      simp only [countTuples, List.length_singleton, List.map_singleton, List.sum_singleton] at *
      rw [Nat.mod_eq_of_lt (by omega), Nat.mod_eq_of_lt (by omega), Nat.mod_eq_of_lt (by omega)]

namespace LevelPages

variable {rootAddr top : Nat} {packed : Nat → Page K} {nodes : Nat → List Nat}
  {tuples : List (Tuple K)} (s : LevelPages cfg packed rootAddr top nodes tuples)

include s

omit [LinearOrder K] in
theorem contents_eq : contents (fun a => (packed a).view) rootAddr =
    tuples.map fun t => (Key.user t.key, t.msg) := by
  have hnodes := s.nodesOfHeight_eq top (h := 0) (by omega)
  have hleaves : leaves (fun a => (packed a).view) rootAddr = nodes 0 := hnodes
  unfold contents chunks
  rw [hleaves, ← s.tuples_eq, List.map_flatMap, List.flatMap_def]
  rfl

theorem entriesIn_eq (minKey maxKey : Key K) :
    entriesIn (fun a => (packed a).view) rootAddr minKey maxKey =
      (tuplesIn tuples minKey maxKey).map fun t => (Key.user t.key, t.msg) := by
  unfold entriesIn tuplesIn
  rw [s.contents_eq, List.filter_map]
  rfl

end LevelPages

private def allPresent (present : Bool) : LookupOutcomes :=
  ⟨fun _ => present, fun _ => ⟨false, 10, 0, 5, true, 10, fun _ => true⟩⟩

end Btree
end TreePass
