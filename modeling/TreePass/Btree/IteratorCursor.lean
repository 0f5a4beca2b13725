import TreePass.Btree.IteratorStart
import TreePass.Lib.Cursor
import TreePass.Lib.Transition

/-!
# The B-tree iterator as a cursor

A range `[min, max)` of a tree is a list of entries, and an iterator over it should behave as a
cursor over that list.  `btree_iterator_init` does not always open it so: `OpensAsCursor` says
exactly when it does.
-/

namespace TreePass
namespace Btree

variable {K : Type} [LinearOrder K]

/-! ## The cursor an iterator should be -/

/-- The entries of the tree with keys in `[minKey, maxKey)`. -/
def entriesIn (pages : Nat → Node K) (rootAddr : Nat) (minKey maxKey : Key K) :
    List (Key K × Message) :=
  (contents pages rootAddr).filter fun kv => decide (minKey ≤ kv.1) && decide (kv.1 < maxKey)

/-- Where a start key and type put a cursor: on the first entry at or above the key, or above it,
and past the last entry if there is none; on the last entry at or below the key, or below it, and
before the first entry if there is none. -/
def Comparison.position (startType : Comparison) (startKey : Key K)
    (items : List (Key K × Message)) : Int :=
  match startType with
  | .greaterThanOrEqual => items.findIdx fun kv => decide (startKey ≤ kv.1)
  | .greaterThan => items.findIdx fun kv => decide (startKey < kv.1)
  | .lessThanOrEqual => (items.findIdx fun kv => decide (startKey < kv.1) : Int) - 1
  | .lessThan => (items.findIdx fun kv => decide (startKey ≤ kv.1) : Int) - 1

theorem Comparison.position_bounds (startType : Comparison) (startKey : Key K)
    (items : List (Key K × Message)) :
    -1 ≤ startType.position startKey items ∧ startType.position startKey items ≤ items.length := by
  have hle : items.findIdx (fun kv => decide (startKey ≤ kv.1)) ≤ items.length :=
    List.findIdx_le_length
  have hlt : items.findIdx (fun kv => decide (startKey < kv.1)) ≤ items.length :=
    List.findIdx_le_length
  cases startType <;> simp only [position] <;> omega

/-- The cursor over the entries in `[minKey, maxKey)` that a start key and type ask for. -/
def startCursor (pages : Nat → Node K) (rootAddr : Nat) (minKey maxKey startKey : Key K)
    (startType : Comparison) : Lib.Cursor (Key K × Message) where
  items := entriesIn pages rootAddr minKey maxKey
  pos := startType.position startKey (entriesIn pages rootAddr minKey maxKey)
  lower := (startType.position_bounds startKey _).1
  upper := (startType.position_bounds startKey _).2

/-- What a user of an iterator sees of it is what the cursor shows. -/
structure Shows (pages : Nat → Node K) (itor : Iterator K) (c : Lib.Cursor (Key K × Message)) :
    Prop where
  canNext : itor.canNext = c.canNext
  canPrev : itor.canPrev = c.canPrev
  curr : c.canCurr = true → itor.curr? pages = c.curr

/-- The moves of an iterator on a quiescent tree, `true` for `btree_iterator_next` and `false` for
`btree_iterator_prev`, each called only when the iterator says it can. -/
def iteratorMove (pages : Nat → Node K) (fuel : Nat) (itor : Iterator K) (forwards : Bool) :
    Option (Iterator K) :=
  if forwards then (if itor.canNext then itor.next pages fuel else none)
  else (if itor.canPrev then itor.prev pages fuel else none)

/-- The iterator behaves as a cursor: after any moves it shows what the cursor shows, and a move
it can make returns. -/
def BehavesAs (pages : Nat → Node K) (fuel : Nat) (itor : Iterator K)
    (c : Lib.Cursor (Key K × Message)) : Prop :=
  ∀ tr itor', (Lib.System.ofFun (fun _ => True) (iteratorMove pages fuel)).Run itor tr itor' →
    Shows pages itor' ((tr.map Prod.snd).foldl Lib.Cursor.step c) ∧
    ∀ forwards, (if forwards then itor'.canNext else itor'.canPrev) = true →
      (iteratorMove pages fuel itor' forwards).isSome = true

def Comparison.passesEqual (startType : Comparison) : Bool :=
  match startType with
  | .lessThanOrEqual | .greaterThan => true
  | .lessThan | .greaterThanOrEqual => false

/-- A start key that is moved to, or stands at, a bound which is a key of the tree, with a start
type that minds an equal key. -/
def MovedOntoKey (pages : Nat → Node K) (rootAddr : Nat) (minKey maxKey startKey : Key K)
    (startType : Comparison) : Prop :=
  startType.passesEqual = true ∧
    (startKey < minKey ∧ (∃ kv ∈ contents pages rootAddr, kv.1 = minKey) ∨
      maxKey ≤ startKey ∧ ∃ kv ∈ contents pages rootAddr, kv.1 = maxKey)

/-- A forward start type that leaves behind a whole leaf with keys of the range, for a later leaf of
the range. -/
def LeavesLeafBehind (pages : Nat → Node K) (rootAddr : Nat) (minKey maxKey startKey : Key K)
    (startType : Comparison) : Prop :=
  let target := Iterator.clampKey minKey maxKey startKey
  let first := lookupNode pages rootAddr target 0
  startType.back = 0 ∧ first ≠ lookupNode pages rootAddr maxKey 0 ∧
    (∀ kv ∈ (pages first).entries, startType.before target kv.1 = true) ∧
    ∃ kv ∈ (pages first).entries, minKey ≤ kv.1

/-- An empty range that is opened forwards in a leaf before the one where it ends, or opened in
that leaf while the leaf tells that nothing of the range lies before it. -/
def ShowsEmpty (pages : Nat → Node K) (rootAddr : Nat) (minKey maxKey startKey : Key K)
    (startType : Comparison) : Prop :=
  let first := lookupNode pages rootAddr (Iterator.clampKey minKey maxKey startKey) 0
  let last := lookupNode pages rootAddr maxKey 0
  if first = last then (pages last).prevAddr = 0 ∨ ∃ kv ∈ (pages last).entries, kv.1 ≤ minKey
  else startType.back = 0

/-- **When a range opens as a cursor.** -/
def OpensAsCursor (pages : Nat → Node K) (rootAddr : Nat) (minKey maxKey startKey : Key K)
    (startType : Comparison) : Prop :=
  if entriesIn pages rootAddr minKey maxKey = [] then
    ShowsEmpty pages rootAddr minKey maxKey startKey startType
  else
    ¬ MovedOntoKey pages rootAddr minKey maxKey startKey startType ∧
      ¬ LeavesLeafBehind pages rootAddr minKey maxKey startKey startType

section Ranges

variable {pages : Nat → Node K} {rootAddr : Nat} {minKey maxKey : Key K}

/-! ## The entries of a range -/

theorem rank_le_length (pages : Nat → Node K) (rootAddr : Nat) (x : Key K) :
    rank pages rootAddr x ≤ (contents pages rootAddr).length := countBefore_le_length ..

theorem entriesIn_eq (h : WellShaped pages rootAddr) (minKey maxKey : Key K) :
    entriesIn pages rootAddr minKey maxKey =
      ((contents pages rootAddr).take (rank pages rootAddr maxKey)).drop
        (rank pages rootAddr minKey) := by
  rw [rank, rank, countBefore, countBefore, ← (initial_before h.ascending .lessThan minKey).filter_between
    (initial_before h.ascending .lessThan maxKey), entriesIn]
  refine List.filter_congr fun kv _ => ?_
  simp [Comparison.before, ← not_lt]

theorem length_entriesIn (h : WellShaped pages rootAddr) (minKey maxKey : Key K) :
    (entriesIn pages rootAddr minKey maxKey).length =
      rank pages rootAddr maxKey - rank pages rootAddr minKey := by
  rw [entriesIn_eq h, List.length_drop, List.length_take,
    Nat.min_eq_left (rank_le_length pages rootAddr maxKey)]

theorem getElem?_entriesIn (h : WellShaped pages rootAddr) (minKey maxKey : Key K) {i : Nat}
    (hi : i < (entriesIn pages rootAddr minKey maxKey).length) :
    (entriesIn pages rootAddr minKey maxKey)[i]? =
      (contents pages rootAddr)[rank pages rootAddr minKey + i]? := by
  rw [length_entriesIn h] at hi
  rw [entriesIn_eq h, List.getElem?_drop, List.getElem?_take_of_lt (by omega)]

theorem position_eq (h : WellShaped pages rootAddr) (startKey : Key K) (startType : Comparison) :
    startType.position startKey (entriesIn pages rootAddr minKey maxKey) =
      (min (countBefore startType startKey (contents pages rootAddr) - rank pages rootAddr minKey)
        (rank pages rootAddr maxKey - rank pages rootAddr minKey) : Nat) - (startType.back : Int) := by
  have hsorted : (entriesIn pages rootAddr minKey maxKey).Pairwise fun x y => x.1 < y.1 :=
    h.ascending.filter _
  have hcount : countBefore startType startKey (entriesIn pages rootAddr minKey maxKey) =
      min (countBefore startType startKey (contents pages rootAddr) - rank pages rootAddr minKey)
        (rank pages rootAddr maxKey - rank pages rootAddr minKey) := by
    rw [entriesIn_eq h]
    exact (initial_before h.ascending startType startKey).countP_segment
      (rank_le_length pages rootAddr maxKey)
  have hindex := (initial_before hsorted startType startKey).findIdx_eq
  rw [← countBefore, hcount] at hindex
  rw [← hindex]
  cases startType <;>
    simp only [Comparison.position, Comparison.before, Comparison.back, ← decide_not, not_lt, not_le] <;>
    omega

/-! ## Iterators that behave as cursors -/

def StandsAt (pages : Nat → Node K) (rootAddr : Nat) (minKey maxKey : Key K) (itor : Iterator K)
    (c : Lib.Cursor (Key K × Message)) : Prop :=
  c.items = entriesIn pages rootAddr minKey maxKey ∧
    ∃ e j, Iterator.AtRank pages rootAddr minKey maxKey e j (rank pages rootAddr minKey + c.pos) itor

theorem cursor_canNext_iff {α : Type} (c : Lib.Cursor α) (hne : 0 < c.items.length) :
    c.canNext = true ↔ c.pos < c.items.length := by
  simp [Lib.Cursor.canNext, hne]

theorem cursor_canPrev_iff {α : Type} (c : Lib.Cursor α) (hne : 0 < c.items.length) :
    c.canPrev = true ↔ -1 < c.pos := by
  simp [Lib.Cursor.canPrev, hne]

section NonEmpty

variable (h : WellShaped pages rootAddr)
  (hne : rank pages rootAddr minKey < rank pages rootAddr maxKey) {itor : Iterator K}
  {c : Lib.Cursor (Key K × Message)}

include h hne

theorem StandsAt.shows (hat : StandsAt pages rootAddr minKey maxKey itor c) : Shows pages itor c := by
  obtain ⟨hitems, e, j, hrank⟩ := hat
  have hlen : c.items.length = rank pages rootAddr maxKey - rank pages rootAddr minKey := by
    rw [hitems, length_entriesIn h]
  have hnext := hrank.canNext_iff h hne
  have hprev := hrank.canPrev_iff h hne
  have hcnext := cursor_canNext_iff c (by omega)
  have hcprev := cursor_canPrev_iff c (by omega)
  refine ⟨?_, ?_, ?_⟩
  · rw [Bool.eq_iff_iff, hnext, hcnext]
    omega
  · rw [Bool.eq_iff_iff, hprev, hcprev]
    omega
  · intro hcan
    rw [Lib.Cursor.canCurr, Bool.and_eq_true, hcnext, hcprev] at hcan
    have hpos : ((rank pages rootAddr minKey : Int) + c.pos).toNat =
        rank pages rootAddr minKey + c.pos.toNat := by omega
    have hget := getElem?_entriesIn h minKey maxKey (i := c.pos.toNat)
      (by rw [← hitems]; omega)
    rw [hrank.curr_eq h (by omega) (by omega), hpos, Lib.Cursor.curr, if_pos hcan.2, hitems, hget]

theorem StandsAt.move (hat : StandsAt pages rootAddr minKey maxKey itor c) (fuel : Nat)
    (forwards : Bool) (hcan : (if forwards then itor.canNext else itor.canPrev) = true) :
    ∃ itor', iteratorMove pages fuel itor forwards = some itor' ∧
      StandsAt pages rootAddr minKey maxKey itor' (c.step forwards) := by
  have hshows := hat.shows h hne
  obtain ⟨hitems, e, j, hrank⟩ := hat
  cases forwards with
  | true =>
      have hupp := (hrank.canNext_iff h hne).mp hcan
      obtain ⟨j', itor', hnext, hat'⟩ := hrank.next h hupp fuel
      have hcnext : c.canNext = true := by rw [← hshows.canNext]; exact hcan
      refine ⟨itor', ?_, by rw [Lib.Cursor.step_items, hitems], e, j', ?_⟩
      · have hcan' : itor.canNext = true := hcan
        rw [iteratorMove, if_pos rfl, if_pos hcan', hnext]
      · rw [Lib.Cursor.step, if_pos rfl, Lib.Cursor.next_pos hcnext, ← Int.add_assoc]
        exact hat'
  | false =>
      have hlow := (hrank.canPrev_iff h hne).mp hcan
      obtain ⟨j', itor', hprev, hat'⟩ := hrank.prev h hlow fuel
      have hcprev : c.canPrev = true := by rw [← hshows.canPrev]; exact hcan
      refine ⟨itor', ?_, by rw [Lib.Cursor.step_items, hitems], e, j', ?_⟩
      · have hcan' : itor.canPrev = true := hcan
        rw [iteratorMove, if_neg Bool.false_ne_true, if_pos hcan', hprev]
      · rw [Lib.Cursor.step, if_neg Bool.false_ne_true, Lib.Cursor.prev_pos hcprev,
          ← Int.add_sub_assoc]
        exact hat'

theorem StandsAt.behavesAs (hat : StandsAt pages rootAddr minKey maxKey itor c) (fuel : Nat) :
    BehavesAs pages fuel itor c := by
  intro tr itor' hrun
  have hstands : StandsAt pages rootAddr minKey maxKey itor'
      ((tr.map Prod.snd).foldl Lib.Cursor.step c) := by
    refine hrun.trace_invariant (P := fun tr s => StandsAt pages rootAddr minKey maxKey s
      ((tr.map Prod.snd).foldl Lib.Cursor.step c)) hat ?_
    intro tr s forwards s' hs hstep
    have hcan : (if forwards then s.canNext else s.canPrev) = true := by
      by_contra hcon
      have hnone : iteratorMove pages fuel s forwards = none := by
        cases forwards <;> simp_all [iteratorMove]
      change iteratorMove pages fuel s forwards = some s' at hstep
      rw [hnone] at hstep
      cases hstep
    obtain ⟨s'', hmove, hat'⟩ := hs.move h hne fuel forwards hcan
    obtain rfl : s'' = s' := Option.some.inj (hmove.symm.trans hstep)
    rw [List.map_append, List.foldl_append]
    exact hat'
  refine ⟨hstands.shows h hne, fun forwards hcan => ?_⟩
  obtain ⟨itor'', hmove, -⟩ := hstands.move h hne fuel forwards hcan
  rw [hmove]
  rfl

end NonEmpty

theorem behavesAs_of_empty {itor : Iterator K} {c : Lib.Cursor (Key K × Message)}
    (hitems : c.items = []) (hnext : itor.canNext = false) (hprev : itor.canPrev = false) (fuel : Nat) :
    BehavesAs pages fuel itor c := by
  have hcannot : ∀ forwards : Bool, (if forwards then itor.canNext else itor.canPrev) = false := by
    intro forwards
    cases forwards
    · exact hprev
    · exact hnext
  intro tr itor' hrun
  obtain ⟨rfl, rfl⟩ : tr = [] ∧ itor' = itor := by
    refine hrun.trace_invariant (P := fun tr s => tr = [] ∧ s = itor) ⟨rfl, rfl⟩ ?_
    rintro tr s forwards s' ⟨-, rfl⟩ hstep
    change iteratorMove pages fuel s forwards = some s' at hstep
    cases forwards <;> simp [iteratorMove, hnext, hprev] at hstep
  refine ⟨⟨?_, ?_, ?_⟩, fun forwards hcan => ?_⟩
  · simp [Lib.Cursor.canNext, hitems, hnext]
  · simp [Lib.Cursor.canPrev, hitems, hprev]
  · intro hcan
    simp [Lib.Cursor.canCurr, Lib.Cursor.canNext, hitems] at hcan
  · rw [hcannot forwards] at hcan
    cases hcan

end Ranges

end Btree
end TreePass
