import TreePass.Merge.Queue

/-!
# Putting the first input back

After the first element of `ordered_iterators` has advanced, `advance_and_resort_min_ritor` puts
it back where it belongs.  This file looks at this one step alone, for every sorted array with
exact flags and whatever comes next in the first input.

* `bsearchInsertReads` is the search with every comparison outside the live part left without a
  result.
* `Reinserted` says where the element has to be and what the flags have to say.
* `advance_reinserts` is the step.
-/

namespace TreePass
namespace Merge

open Lib

variable {K : Type} [LinearOrder K]

/-- `bsearch_insert` with the comparisons it makes: element `i` of the live part can be compared
with, and nothing else. -/
def bsearchInsertReads (key : OrderedIterator K) (base0 : List (OrderedIterator K))
    (forwards : Bool) : Option (Int × Bool × Bool) :=
  bsearchReads (fun i => (base0[i]?).map fun p =>
    ((bsearchComp key p forwards).1 == .gt, (bsearchComp key p forwards).2)) base0.length

theorem bsearchInsertReads_eq (key : OrderedIterator K) (base0 : List (OrderedIterator K))
    (forwards : Bool) :
    bsearchInsertReads key base0 forwards = some (bsearchInsert key base0 forwards) := by
  unfold bsearchInsertReads bsearchInsert
  apply bsearchReads_eq
  intro i hi
  have hget : base0[i]? = some base0[i] := List.getElem?_eq_getElem hi
  simp only [insertProbe, hget, Option.map_some]

/-- The first input after it was told to go on, before its current tuple is read. -/
def advancedInput (forwards : Bool) (o : OrderedIterator K) : InputIterator K :=
  { itor := o.itor.step forwards, seq := o.seq, nextKeyEqual := false }

def insertAt (o : OrderedIterator K) (others : List (OrderedIterator K)) (index : Nat) :
    List (OrderedIterator K) :=
  others.take index ++ o :: others.drop index

/-- What has to come out when `o` goes back to index `index` among the others. -/
structure Reinserted (forwards : Bool) (o : OrderedIterator K) (others : List (OrderedIterator K))
    (index : Nat) (live : List (OrderedIterator K)) : Prop where
  le : index ≤ others.length
  /-- The index is the one that keeps the array sorted. -/
  sorted_iff : ∀ j ≤ others.length,
    (insertAt o others j).Pairwise (Ahead forwards) ↔ j = index
  /-- The element is there; nothing else has moved. -/
  elements : live.map OrderedIterator.unflagged =
    (insertAt o others index).map OrderedIterator.unflagged

section Position

variable {forwards : Bool} {o : OrderedIterator K} {before after : List (OrderedIterator K)}

theorem insertAt_sorted_iff (hsorted : (before ++ after).Pairwise (Ahead forwards))
    (hbefore : ∀ p ∈ before, Ahead forwards p o) (hafter : ∀ p ∈ after, Ahead forwards o p)
    {j : Nat} (hj : j ≤ (before ++ after).length) :
    (insertAt o (before ++ after) j).Pairwise (Ahead forwards) ↔ j = before.length := by
  unfold insertAt
  constructor
  · intro hput
    obtain ⟨-, hbehind, hahead⟩ := List.pairwise_append.mp hput
    rcases Nat.lt_trichotomy j before.length with hlt | heq | hgt
    · -- The element before `o` would be behind it.
      have hmem : before[j] ∈ (before ++ after).drop j := by
        rw [List.drop_append_of_le_length (Nat.le_of_lt hlt), List.mem_append]
        exact Or.inl (List.mem_drop_iff_getElem.mpr ⟨0, by omega, by simp⟩)
      exact absurd (hbefore _ (List.getElem_mem hlt))
        (tagBefore_asymm ((List.pairwise_cons.mp hbehind).1 _ hmem))
    · exact heq
    · -- The element behind `o` would be before it.
      rw [List.length_append] at hj
      have hpos : 0 < after.length := by omega
      have hmem : after[0] ∈ (before ++ after).take j := by
        rw [List.take_append, List.mem_append]
        exact Or.inr (List.mem_take_iff_getElem.mpr ⟨0, by omega, rfl⟩)
      exact absurd (hafter _ (List.getElem_mem hpos))
        (tagBefore_asymm (hahead _ hmem o List.mem_cons_self))
  · rintro rfl
    rw [List.take_left, List.drop_left]
    obtain ⟨hb, ha, hcross⟩ := List.pairwise_append.mp hsorted
    refine List.pairwise_append.mpr ⟨hb, List.pairwise_cons.mpr ⟨hafter, ha⟩, ?_⟩
    intro p hp q hq
    rcases List.mem_cons.mp hq with rfl | hq
    · exact hbefore p hp
    · exact hcross p hp q hq

end Position

theorem pairwise_ahead_congr {forwards : Bool} {l l' : List (OrderedIterator K)}
    (h : l.map OrderedIterator.unflagged = l'.map OrderedIterator.unflagged)
    (hsorted : l'.Pairwise (Ahead forwards)) : l.Pairwise (Ahead forwards) := by
  have hmap : (l'.map OrderedIterator.unflagged).Pairwise (Ahead forwards) :=
    List.pairwise_map.mpr hsorted
  rw [← h] at hmap
  exact (List.pairwise_map (f := OrderedIterator.unflagged)).mp hmap

theorem resort_reinserts {forwards : Bool} (o : OrderedIterator K) (pad : Bool)
    {others : List (OrderedIterator K)} (hsorted : others.Pairwise (Ahead forwards))
    (hseq : ∀ p ∈ others, p.seq ≠ o.seq) (hflags : FlagsExact others) (hne : others ≠ []) :
    ∃ index, Reinserted forwards o others index (resortMinRitor o others forwards pad).1 ∧
      FlagsExact (resortMinRitor o others forwards pad).1 ∧
      (∃ prevEqual nextEqual,
        bsearchInsertReads o others forwards = some ((index : Int) - 1, prevEqual, nextEqual)) ∧
      (index = 0 → (resortMinRitor o others forwards pad).1.tail = others) := by
  obtain ⟨before, after, rfl, hbefore, hafter, helements, hexact⟩ :=
    resortMinRitor_spec o others pad hsorted hseq hflags hne
  obtain ⟨prevEqual, hsearch, -⟩ := bsearchInsert_eq o before after hsorted hbefore hafter hne
  refine ⟨before.length, ⟨by simp, ?_, ?_⟩, hexact, ?_, ?_⟩
  · intro j hj
    exact insertAt_sorted_iff hsorted hbefore hafter hj
  · rw [helements]
    unfold insertAt
    rw [List.take_left, List.drop_left]
  · refine ⟨prevEqual, headKeyIs o.currKey after, ?_⟩
    rw [bsearchInsertReads_eq, hsearch]
  · intro hfront
    obtain rfl := List.length_eq_zero_iff.mp hfront
    -- The flag before index 0 is the pad, so only the new first element is written.
    unfold resortMinRitor
    rw [hsearch]
    rfl

/-- **The first input goes back where it belongs.**  Let the array be sorted and its flags exact
before the first input advances.  Then it is sorted and its flags are exact afterwards; if the
input has a further tuple, it is at the only index that allows this, the search has compared with
live elements only, and an insertion at the very front leaves the others as they are. -/
theorem advance_reinserts {it : MergeIterator K} {o : OrderedIterator K}
    {others : List (OrderedIterator K)} (hlive : it.live = o :: others)
    (hsorted : it.live.Pairwise (Ahead it.forwards))
    (hseqs : it.live.Pairwise fun a b => a.seq ≠ b.seq) (hflags : FlagsExact it.live) :
    (advanceAndResortMinRitor it).live.Pairwise (Ahead it.forwards) ∧
    FlagsExact (advanceAndResortMinRitor it).live ∧
    ∀ t, (advancedInput it.forwards o).itor.curr = some t → ∃ index,
      Reinserted it.forwards (setCurrOrderedIterator (advancedInput it.forwards o) t) others index
        (advanceAndResortMinRitor it).live ∧
      (others ≠ [] → ∃ prevEqual nextEqual,
        bsearchInsertReads (setCurrOrderedIterator (advancedInput it.forwards o) t) others
          it.forwards = some ((index : Int) - 1, prevEqual, nextEqual)) ∧
      (index = 0 → (advanceAndResortMinRitor it).live.tail = others) := by
  rw [hlive] at hsorted hseqs hflags
  obtain ⟨-, hothers⟩ := List.pairwise_cons.mp hsorted
  obtain ⟨hseq, -⟩ := List.pairwise_cons.mp hseqs
  obtain ⟨-, hexact⟩ := hflags
  cases hcurr : (advancedInput it.forwards o).itor.curr with
  | none =>
      -- The input is exhausted and leaves the live part.
      have hafter : (advanceAndResortMinRitor it).live = others := by
        unfold advancedInput at hcurr
        simp only [advanceAndResortMinRitor, hlive, hcurr]
      rw [hafter]
      refine ⟨hothers, hexact, ?_⟩
      intro t ht
      cases ht
  | some t =>
      by_cases hne : others = []
      · subst hne
        have hafter : (advanceAndResortMinRitor it).live =
            [setCurrOrderedIterator (advancedInput it.forwards o) t] := by
          unfold advancedInput at hcurr ⊢
          simp only [advanceAndResortMinRitor, hlive, hcurr, if_true]
        rw [hafter]
        refine ⟨List.pairwise_singleton _ _, ⟨rfl, trivial⟩, ?_⟩
        intro t' ht'
        obtain rfl := Option.some.inj ht'
        refine ⟨0, ⟨Nat.le_refl _, ?_, rfl⟩, fun h => absurd rfl h, fun _ => rfl⟩
        intro j hj
        obtain rfl : j = 0 := Nat.le_zero.mp hj
        simp [insertAt]
      · have hafter : (advanceAndResortMinRitor it).live =
            (resortMinRitor (setCurrOrderedIterator (advancedInput it.forwards o) t) others
              it.forwards it.pad).1 := by
          unfold advancedInput at hcurr ⊢
          simp only [advanceAndResortMinRitor, hlive, hcurr, if_neg hne]
        rw [hafter]
        obtain ⟨index, hput, hexact', hreads, hfront⟩ :=
          resort_reinserts (setCurrOrderedIterator (advancedInput it.forwards o) t) it.pad
            hothers (fun p hp => (hseq p hp).symm) hexact hne
        refine ⟨pairwise_ahead_congr hput.elements ((hput.sorted_iff index hput.le).mpr rfl),
          hexact', ?_⟩
        intro t' ht'
        obtain rfl := Option.some.inj ht'
        exact ⟨index, hput, fun _ => hreads, hfront⟩

def tiedInputs : MergeIterator Nat where
  live :=
    [{ itor := Cursor.atFirst [⟨1, ⟨.delete, []⟩⟩, ⟨2, ⟨.insert, [20]⟩⟩], seq := 1,
       nextKeyEqual := true, currKey := 1, currData := ⟨.delete, []⟩ },
     { itor := Cursor.atFirst [⟨1, ⟨.insert, [10]⟩⟩, ⟨3, ⟨.insert, [30]⟩⟩], seq := 0,
       nextKeyEqual := false, currKey := 1, currData := ⟨.insert, [10]⟩ }]
  dead := []
  pad := false
  mergeMessages := true
  finalizeUpdates := true
  emitDeletes := false
  canPrev := true
  canNext := true
  curr := none
  forwards := true

/-- The newer input goes on to key 2 and behind the older one. -/
theorem advance_reinserts_tiedInputs :
    (advanceAndResortMinRitor tiedInputs).live.Pairwise (Ahead true) ∧
      FlagsExact (advanceAndResortMinRitor tiedInputs).live ∧
      (advanceAndResortMinRitor tiedInputs).live.map (fun o => (o.currKey, o.seq)) =
        [(1, 0), (2, 1)] := by
  have hafter := @advance_reinserts Nat _ tiedInputs _ _ rfl
    (by simp [tiedInputs, Ahead, tagBefore, OrderedIterator.tag, OrderedIterator.currTuple])
    (by simp [tiedInputs]) (by simp [tiedInputs, FlagsExact, headKeyIs])
  exact ⟨hafter.1, hafter.2.1, by decide⟩

end Merge
end TreePass
