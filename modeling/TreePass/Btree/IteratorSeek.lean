import TreePass.Btree.IteratorOpens

/-!
# Seeking with the B-tree iterator

`btree_iterator_seek` moves an iterator to a key.  If the key looks to be inside the current leaf
it only sets the index there; otherwise it looks the leaf up as `btree_iterator_init` does.  An
iterator is here taken together with the references on pages it holds, which the moves of the
other modules leave out: a move to a neighbour gives back the page it leaves and takes the one it
goes to, and a page that is only looked at on the way is given back at once.

`SeeksLikeInit` is what a seek should do, and `SeeksInLeaf` says exactly when it does it.
-/

namespace TreePass
namespace Btree

variable {K : Type}

/-- `btree_iterator` with the pages it holds references on, one list entry for each reference. -/
structure HeldIterator (K : Type) where
  itor : Iterator K
  held : List Nat

/-- What `btree_iterator_seek` returns: `STATUS_OK` or `STATUS_BAD_PARAM`. -/
inductive SeekStatus where
  | ok
  | badParam
  deriving DecidableEq, Repr

/-- The key at an index of a node, by the height of the iterator: `btree_get_tuple_key` or
`btree_get_pivot`.  At an index that is not an entry of the node there is nothing to read. -/
def Iterator.keyAt (itor : Iterator K) (hdr : Node K) (idx : Int) : Option (Key K) :=
  if idx < 0 then none
  else if itor.height = 0 then hdr.entries[idx.toNat]?.map Prod.fst
  else hdr.pivots[idx.toNat]?.map IndexEntry.pivot

variable [LinearOrder K] (pages : Nat → Node K) (fuel : Nat)

namespace HeldIterator

/-- The iterator after a move: when it has gone to another page, it has given back a reference on
the old one and holds one on the new one. -/
def follow (it : HeldIterator K) (itor : Iterator K) : HeldIterator K :=
  if itor.curr = it.itor.curr then ⟨itor, it.held⟩
  else ⟨itor, itor.curr :: it.held.erase it.itor.curr⟩

/-- `btree_iterator_init` at height 0. -/
def init (rootAddr : Nat) (minKey maxKey startKey : Key K) (startType : Comparison) :
    Option (HeldIterator K) :=
  (Iterator.init pages fuel rootAddr minKey maxKey startKey startType 0).map fun itor =>
    ⟨itor, [itor.curr]⟩

/-- `btree_iterator_next` and `btree_iterator_prev`, where the iterator says that it can. -/
def move (it : HeldIterator K) (forwards : Bool) : Option (HeldIterator K) :=
  (iteratorMove pages fuel it.itor forwards).map it.follow

/-- `btree_iterator_seek`.  The slow path takes the page it looks up into `curr` without giving
back the page that was there. -/
def seek (it : HeldIterator K) (seekKey : Key K) (seekType : Comparison) :
    Option (SeekStatus × HeldIterator K) :=
  let hdr := pages it.itor.curr
  if seekKey < it.itor.minKey ∨ it.itor.maxKey < seekKey then some (.badParam, it)
  else do
    let firstKey ← it.itor.keyAt hdr 0
    let lastKey ← it.itor.keyAt hdr (it.itor.endIdx - 1)
    if firstKey ≤ seekKey ∧ seekKey ≤ lastKey then
      let (itor, idx, _) := it.itor.findKeyInNode hdr seekKey seekType
      -- `platform_assert(0 <= itor->idx)`
      if 0 ≤ idx then some (.ok, ⟨{ itor with idx := idx }, it.held⟩) else none
    else
      (it.itor.findNodeAndGetIdxBounds pages fuel seekKey seekType).map fun itor =>
        (.ok, ⟨itor, itor.curr :: it.held⟩)

/-- What a user does with an iterator. -/
inductive Action (K : Type) where
  | move (forwards : Bool)
  | seek (seekKey : Key K) (seekType : Comparison)

def act (it : HeldIterator K) : Action K → Option (HeldIterator K)
  | .move forwards => it.move pages fuel forwards
  | .seek seekKey seekType => (it.seek pages fuel seekKey seekType).map Prod.snd

/-- The iterators over a range of a quiescent tree: opened at any key with any type, then moved
and sought with in any way. -/
def system (rootAddr : Nat) (minKey maxKey : Key K) : Lib.System (HeldIterator K) (Action K) :=
  .ofFun (fun it => ∃ startKey startType,
    HeldIterator.init pages fuel rootAddr minKey maxKey startKey startType = some it)
    (act pages fuel)

end HeldIterator

/-! ## What a user sees -/

/-- What an iterator shows: `can_next`, `can_prev`, and where both hold the current pair. -/
def Iterator.view (itor : Iterator K) : Bool × Bool × Option (Option (Key K × Message)) :=
  (itor.canNext, itor.canPrev,
    if itor.canNext && itor.canPrev then some (itor.curr? pages) else none)

def Iterator.viewAfter (itor : Iterator K) (moves : List Bool) :
    Option (Bool × Bool × Option (Option (Key K × Message))) :=
  (moves.foldlM (iteratorMove pages fuel) itor).map (Iterator.view pages)

/-- Two iterators in the same observable state: no sequence of moves tells them apart. -/
def SameObservable (a b : Iterator K) : Prop :=
  ∀ moves, a.viewAfter pages fuel moves = b.viewAfter pages fuel moves

/-- **What a seek should do**: leave the iterator in the observable state of one that was just
opened at the key, with a reference on its current leaf and no other. -/
def SeeksLikeInit (it : HeldIterator K) (seekKey : Key K) (seekType : Comparison) : Prop :=
  ∃ it' fresh, it.seek pages fuel seekKey seekType = some (.ok, it') ∧
    Iterator.init pages fuel it.itor.rootAddr it.itor.minKey it.itor.maxKey seekKey seekType
      it.itor.height = some fresh ∧
    SameObservable pages fuel it'.itor fresh ∧ it'.held = [it'.itor.curr]

/-- **When a seek does it**: the iterator holds one page, the key is between the first key of the
leaf and the one before `end_idx`, the type does not lead out of the leaf, and a `curr_min_idx` of
0 does not hide keys of the range in earlier leaves. -/
structure SeeksInLeaf (it : HeldIterator K) (seekKey : Key K) (seekType : Comparison) : Prop where
  held : it.held = [it.itor.curr]
  first : ∃ kv, (pages it.itor.curr).entries[0]? = some kv ∧ kv.1 ≤ seekKey ∧
    (seekType = .lessThan → kv.1 ≠ seekKey)
  last : ∃ i : Nat, it.itor.endIdx = i + 1 ∧
    ∃ kv, (pages it.itor.curr).entries[i]? = some kv ∧ seekKey ≤ kv.1
  stays : seekType = .greaterThan → it.itor.curr ≠ it.itor.endAddr →
    ∃ kv ∈ (pages it.itor.curr).entries, seekKey < kv.1
  start : it.itor.currMinIdx = 0 → ∀ kv ∈ contents pages it.itor.rootAddr, it.itor.minKey ≤ kv.1 →
    ∃ kv₀ ∈ (pages it.itor.curr).entries, kv₀.1 ≤ kv.1

variable {pages fuel} {rootAddr : Nat} {minKey maxKey : Key K}

/-! ## Behaving as the same cursor -/

theorem BehavesAs.move {itor : Iterator K} {c : Lib.Cursor (Key K × Message)}
    (h : BehavesAs pages fuel itor c) {forwards : Bool}
    (hcan : (if forwards then itor.canNext else itor.canPrev) = true) :
    ∃ itor', iteratorMove pages fuel itor forwards = some itor' ∧
      BehavesAs pages fuel itor' (c.step forwards) := by
  obtain ⟨itor', hmove⟩ := Option.isSome_iff_exists.mp ((h [] itor Lib.System.Run.nil).2 forwards hcan)
  refine ⟨itor', hmove, fun tr itor'' hrun => ?_⟩
  have hfirst : (Lib.System.ofFun (fun _ => True) (iteratorMove pages fuel)).step itor forwards itor' :=
    hmove
  exact h _ _ (hrun.cons hfirst)

theorem iteratorMove_of_cannot {itor : Iterator K} {forwards : Bool}
    (hcan : (if forwards then itor.canNext else itor.canPrev) ≠ true) :
    iteratorMove pages fuel itor forwards = none := by
  cases forwards <;> simp_all [iteratorMove]

theorem sameObservable_of_behavesAs {a b : Iterator K} {c : Lib.Cursor (Key K × Message)}
    (ha : BehavesAs pages fuel a c) (hb : BehavesAs pages fuel b c) :
    SameObservable pages fuel a b := by
  intro moves
  induction moves generalizing a b c with
  | nil =>
      have hsa := ha.shows
      have hsb := hb.shows
      have hview : ∀ {itor}, Shows pages itor c → Iterator.view pages itor =
          (c.canNext, c.canPrev, if c.canCurr then some c.curr else none) := by
        intro itor hs
        rw [Iterator.view, hs.canNext, hs.canPrev]
        by_cases hcurr : c.canCurr = true
        · rw [hs.curr hcurr]
          rfl
        · have hcurr' : (c.canNext && c.canPrev) ≠ true := hcurr
          rw [if_neg hcurr, if_neg hcurr']
      simp only [Iterator.viewAfter, List.foldlM_nil, Option.pure_def, Option.map_some, hview hsa,
        hview hsb]
  | cons forwards moves ih =>
      have hsame : (if forwards then a.canNext else a.canPrev) =
          if forwards then b.canNext else b.canPrev := by
        rw [ha.shows.canNext, ha.shows.canPrev, hb.shows.canNext, hb.shows.canPrev]
      simp only [Iterator.viewAfter, List.foldlM_cons, Option.bind_eq_bind]
      by_cases hcan : (if forwards then a.canNext else a.canPrev) = true
      · obtain ⟨a', hmovea, ha'⟩ := ha.move hcan
        obtain ⟨b', hmoveb, hb'⟩ := hb.move (hsame ▸ hcan)
        rw [hmovea, hmoveb]
        exact ih ha' hb'
      · rw [iteratorMove_of_cannot hcan, iteratorMove_of_cannot (hsame ▸ hcan)]

theorem BehavesAs.prevs {n : Nat} : ∀ {itor : Iterator K} {c : Lib.Cursor (Key K × Message)},
    BehavesAs pages fuel itor c → 0 < c.items.length → (n : Int) ≤ c.pos →
    ∃ itor', (List.replicate n false).foldlM (iteratorMove pages fuel) itor = some itor' ∧
      itor'.canPrev = true := by
  induction n with
  | zero =>
      intro itor c h hne hpos
      refine ⟨itor, rfl, ?_⟩
      rw [h.shows.canPrev, cursor_canPrev_iff c hne]
      omega
  | succ n ih =>
      intro itor c h hne hpos
      have hcprev : c.canPrev = true := (cursor_canPrev_iff c hne).mpr (by omega)
      have hcan : (if false = true then itor.canNext else itor.canPrev) = true := by
        rw [if_neg Bool.false_ne_true, h.shows.canPrev, hcprev]
      obtain ⟨itor', hmove, h'⟩ := h.move hcan
      have hstep : c.step false = c.prev := rfl
      rw [hstep] at h'
      obtain ⟨itor'', hfold, hlast⟩ := ih h' (by rw [Lib.Cursor.prev_items]; exact hne)
        (by rw [Lib.Cursor.prev_pos hcprev]; omega)
      refine ⟨itor'', ?_, hlast⟩
      rw [List.replicate_succ, List.foldlM_cons, hmove]
      exact hfold

theorem prevs_in_leaf {n : Nat} : ∀ {itor : Iterator K}, itor.currMinIdx = 0 → itor.endIdx ≠ 0 →
    itor.idx + 1 = n →
    (List.replicate n false).foldlM (iteratorMove pages fuel) itor =
      some { itor with idx := -1 } := by
  induction n with
  | zero =>
      intro itor _ _ hidx
      have hidx' : itor.idx = -1 := by omega
      rw [List.replicate_zero, List.foldlM_nil, ← hidx']
      rfl
  | succ n ih =>
      intro itor hmin hend hidx
      have hcan : itor.canPrev = true := by
        simp only [Iterator.canPrev, hmin, Bool.and_eq_true, decide_eq_true_eq, Bool.or_eq_true,
          bne_iff_ne, ne_eq]
        exact ⟨by omega, Or.inl (Ne.symm hend)⟩
      have hmove : iteratorMove pages fuel itor false = some { itor with idx := itor.idx - 1 } := by
        rw [iteratorMove, if_neg Bool.false_ne_true, if_pos hcan, Iterator.prev]
        exact if_neg fun hcon => by
          have hmin' : itor.currMinIdx = -1 := hcon.1
          omega
      have hrest : (List.replicate n false).foldlM (iteratorMove pages fuel)
          { itor with idx := itor.idx - 1 } = some { itor with idx := -1 } :=
        ih hmin hend (by change itor.idx - 1 + 1 = (n : Int); omega)
      rw [List.replicate_succ, List.foldlM_cons, hmove]
      exact hrest

end Btree
end TreePass
