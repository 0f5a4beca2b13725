import TreePass.Btree.InsertLocks
import TreePass.Btree.IteratorErasure

/-!
# Are the borrowed bytes visible?

A session with a tree is a sequence of operations: changes of the borrowed bytes, reads of pivots,
lookups, insertions and the calls of an iterator.  `untracked` takes the first of these out of an
operation, and the question is whether the answers stay the same.

* `run_agree`: one operation keeps two trees equal up to the borrowed bytes, and gives the same
  answer on both unless it is a call of `btree_iterator_curr` above the leaves.
* `transparent_iff`: the same for whole sessions.
* `curr_returns_count`: one counted access changes a child address that an iterator returns.
-/

namespace TreePass
namespace Btree

open Lib Lib.Action

variable {K : Type}

/-! ## Sessions -/

/-- A change of the borrowed bytes: an access, the tracking of an access to a pivot with some
results of the warmth tests, or a reset of the counts of a page. -/
inductive PivotUpdate where
  | access (addr : Addr) (k : Nat) (change : MetaAccess)
  | track (addr : Addr) (k : Nat) (tests : WarmthTests)
  | reset (addr : Addr)

def PivotUpdate.apply (pages : Addr → Page K) : PivotUpdate → Addr → Page K
  | .access addr k change => Function.update pages addr ((pages addr).pivotMetaAccess k change)
  | .track addr k tests =>
      match (pages addr).getIndexEntry k with
      | some entry =>
          Function.update pages addr ((pages addr).updatePivotCntAndIsWarm tests k entry).1
      | none => pages
  | .reset addr => Function.update pages addr (pages addr).resetCounts

def Page.pivotMetaAccesses (hdr : Page K) (accesses : List (Nat × MetaAccess)) : Page K :=
  accesses.foldl (fun hdr access => hdr.pivotMetaAccess access.1 access.2) hdr

/-- A call of `btree_insert`, with the accesses to pivots that other threads make meanwhile. -/
structure Insertion (K : Type) where
  outcomes : Outcomes K
  /-- What else other threads do to a page does not depend on the borrowed bytes. -/
  blind : outcomes.OthersMatch outcomes.others
  accesses : Nat → List (Nat × MetaAccess)
  /-- Enough for the loops of the insertion. -/
  fuel : Nat
  root : Addr
  tupleKey : K
  msg : Message

def Insertion.others (insertion : Insertion K) (n : Nat) (hdr : Page K) : Page K :=
  (insertion.outcomes.others n hdr).pivotMetaAccesses (insertion.accesses n)

/-- An operation on a tree. -/
inductive TreeOp (K : Type) where
  | update (updates : List PivotUpdate)
  | readPivot (addr : Addr) (k : Nat)
  | lookup (outcomes : LookupOutcomes) (type : PageType) (rootAddr : Addr) (target : Key K)
      (stopAtHeight : Nat)
  | insert (insertion : Insertion K)
  | openIterator (fuel rootAddr : Nat) (minKey maxKey startKey : Key K) (startType : Comparison)
      (height : Nat)
  | moveIterator (fuel : Nat) (move : Move)
  | currIterator

/-- The pages of a tree and an iterator, if one is open. -/
structure Session (K : Type) where
  pages : Addr → Page K
  itor : Option (Iterator K)

/-- What an operation answers. -/
inductive Answer (K : Type) where
  | done
  | pivot (entry : Option (Key K × Addr × PivotStats))
  | found (result : Option (Addr × PivotStats × Option Message))
  | inserted (rc : Except Stop (Except PlatformStatus Unit)) (generation : Nat) (wasUnique : Bool)
  | position (itor : Option (Iterator K))
  | current (entry : Option (Key K × Message))

def TreeOp.untracked : TreeOp K → TreeOp K
  | .update _ => .update []
  | .lookup outcomes _ rootAddr target stopAtHeight =>
      .lookup outcomes .memtable rootAddr target stopAtHeight
  | .insert insertion => .insert { insertion with accesses := fun _ => [] }
  | op => op

/-! ## Changes of the borrowed bytes -/

theorem eraseMeta_pivotMetaAccesses (accesses : List (Nat × MetaAccess)) (hdr : Page K) :
    (hdr.pivotMetaAccesses accesses).eraseMeta = hdr.eraseMeta := by
  induction accesses generalizing hdr with
  | nil => rfl
  | cons access rest ih => exact (ih _).trans (hdr.eraseMeta_pivotMetaAccess access.1 access.2)

theorem PivotUpdate.samePages (update : PivotUpdate) (pages : Addr → Page K) :
    SamePages pages (update.apply pages) := by
  cases update with
  | access addr k change =>
      exact samePages_of_update ((pages addr).eraseMeta_pivotMetaAccess k change).symm
  | track addr k tests =>
      rw [PivotUpdate.apply]
      cases (pages addr).getIndexEntry k with
      | none => exact SamePages.refl pages
      | some entry =>
          exact samePages_of_update
            ((pages addr).eraseMeta_updatePivotCntAndIsWarm tests k entry).symm
  | reset addr => exact samePages_of_update (pages addr).eraseMeta_resetCounts.symm

theorem samePages_updates (updates : List PivotUpdate) (pages : Addr → Page K) :
    SamePages pages (updates.foldl PivotUpdate.apply pages) := by
  induction updates generalizing pages with
  | nil => exact SamePages.refl pages
  | cons update rest ih => exact (update.samePages pages).trans (ih _)

theorem Insertion.othersMatch (insertion : Insertion K) :
    (insertion.outcomes.withOthers insertion.others).OthersMatch
      { insertion with accesses := fun _ => [] }.others := by
  intro n hdr hdr' h
  exact (eraseMeta_pivotMetaAccesses (insertion.accesses n) _).trans (insertion.blind n hdr hdr' h)

/-- Two sessions with trees that are equal up to the borrowed bytes and the same iterator. -/
def SameSession (s s' : Session K) : Prop := SamePages s.pages s'.pages ∧ s.itor = s'.itor

theorem readPivot_eq {hdr hdr' : Page K} (h : SamePage hdr hdr') (k : Nat) :
    ((hdr.getIndexEntry k).map fun e => (e.pivot, e.maskedChildAddr, e.pivotData.stats)) =
      (hdr'.getIndexEntry k).map fun e => (e.pivot, e.maskedChildAddr, e.pivotData.stats) := by
  rcases h.getIndexEntry k with ⟨hnone, hnone'⟩ | ⟨e, e', he, he', heq⟩
  · rw [hnone, hnone']
  · obtain ⟨hpivot, haddr, hstats⟩ := same_of_eraseMeta_eq heq
    rw [he, he', Option.map_some, Option.map_some, hpivot, haddr, hstats]

/-! ## Runs -/

variable (cfg : Config K) [LinearOrder K]

def Insertion.run (insertion : Insertion K) (pages : Addr → Page K) :
    Except Stop (Except PlatformStatus Unit) × Thread K :=
  (btreeInsert cfg (insertion.outcomes.withOthers insertion.others) insertion.fuel insertion.root
    insertion.tupleKey insertion.msg).runFrom (.start pages)

def TreeOp.run (s : Session K) : TreeOp K → Answer K × Session K
  | .update updates => (.done, { s with pages := updates.foldl PivotUpdate.apply s.pages })
  | .readPivot addr k =>
      (.pivot (((s.pages addr).getIndexEntry k).map fun e =>
        (e.pivot, e.maskedChildAddr, e.pivotData.stats)), s)
  | .lookup outcomes type rootAddr target stopAtHeight =>
      match btreeLookupNode cfg outcomes type rootAddr target stopAtHeight ⟨s.pages, []⟩ with
      | some r => (.found (some (r.1.read r.2.pages target)), { s with pages := r.2.pages })
      | none => (.found none, s)
  | .insert insertion =>
      let r := insertion.run cfg s.pages
      (.inserted r.1 r.2.generation r.2.wasUnique, { s with pages := r.2.pages })
  | .openIterator fuel rootAddr minKey maxKey startKey startType height =>
      let itor := Iterator.init (viewPages s.pages) fuel rootAddr minKey maxKey startKey startType
        height
      (.position itor, { s with itor := itor })
  | .moveIterator fuel move =>
      let itor := s.itor.bind fun itor => move.apply (viewPages s.pages) fuel itor
      (.position itor, { s with itor := itor })
  | .currIterator => (.current (s.itor.bind fun itor => itor.curr? (viewPages s.pages)), s)

/-- The operations of a session, one after the other: the answers and the end. -/
def runSession : List (TreeOp K) → Session K → List (Answer K) × Session K
  | [], s => ([], s)
  | op :: ops, s =>
      let r := op.run cfg s
      let rest := runSession ops r.2
      (r.1 :: rest.1, rest.2)

/-- An iterator that is asked for its pair is at a leaf, or at a pivot that has the same borrowed
byte in both trees. -/
def TreeOp.ReadsSameByte (s s' : Session K) : TreeOp K → Prop
  | .currIterator => ∀ itor, s.itor = some itor → itor.SameByte s.pages s'.pages
  | _ => True

/-- The same all along a session, beside the session without changes of the borrowed bytes. -/
def ReadsSameBytes : List (TreeOp K) → Session K → Session K → Prop
  | [], _, _ => True
  | op :: ops, s, s' =>
      op.ReadsSameByte s s' ∧ ReadsSameBytes ops (op.run cfg s).2 (op.untracked.run cfg s').2

/-- **The borrowed bytes are transparent** in a session: without the changes of these bytes its
answers are the same, the count of every pivot fits its seven bits, and an attempt to set or to
increment a count leaves the flag as it is. -/
structure Transparent (ops : List (TreeOp K)) (s : Session K) : Prop where
  answers : (runSession cfg ops s).1 = (runSession cfg (ops.map TreeOp.untracked) s).1
  counts : ∀ addr k e, ((runSession cfg ops s).2.pages addr).getIndexEntry k = some e →
    (metaCnt7 e.pivotMeta).toNat ≤ 127
  special : ∀ (access : MetaAccess) (b : BitVec 8),
    access ≠ .markSpecial ∧ access ≠ .clearSpecial →
      access.apply b &&& pivotMetaSpecial = b &&& pivotMetaSpecial

/-! ## One operation -/

theorem lookup_agree {s s' : Session K} (h : SameSession s s') (outcomes : LookupOutcomes)
    (type : PageType) (rootAddr : Addr) (target : Key K) (stopAtHeight : Nat) :
    let op := TreeOp.lookup outcomes type rootAddr target stopAtHeight
    SameSession (op.run cfg s).2 (op.untracked.run cfg s').2 ∧
      (op.run cfg s).1 = (op.untracked.run cfg s').1 := by
  obtain ⟨hpages, hitor⟩ := h
  have hstart : SamePages (Reader.mk s.pages []).pages (Reader.mk s'.pages []).pages := hpages
  have hthere := btreeLookupNode_agree cfg outcomes outcomes type .memtable rootAddr target
    stopAtHeight hstart
  have hback := btreeLookupNode_agree cfg outcomes outcomes .memtable type rootAddr target
    stopAtHeight hstart.symm
  simp only [TreeOp.untracked, TreeOp.run]
  cases hr : btreeLookupNode cfg outcomes type rootAddr target stopAtHeight ⟨s.pages, []⟩ with
  | none =>
      rw [hr, Option.map_none, eq_comm, Option.map_eq_none_iff] at hthere
      rw [hthere.1]
      exact ⟨⟨hpages, hitor⟩, rfl⟩
  | some r =>
      rw [hr, Option.map_some, eq_comm, Option.map_eq_some_iff] at hthere
      obtain ⟨⟨r', hr', hread⟩, hrest⟩ := hthere
      rw [hr']
      refine ⟨⟨(hrest r rfl).symm.trans (hpages.trans (hback.2 r' hr')), hitor⟩, ?_⟩
      exact congrArg (fun result => Answer.found (some result)) hread.symm

theorem insert_agree {s s' : Session K} (h : SameSession s s') (insertion : Insertion K) :
    let op := TreeOp.insert insertion
    SameSession (op.run cfg s).2 (op.untracked.run cfg s').2 ∧
      (op.run cfg s).1 = (op.untracked.run cfg s').1 := by
  have hends : Alike SameThread Eq (insertion.run cfg s.pages)
      ({ insertion with accesses := fun _ => [] }.run cfg s'.pages) :=
    btreeInsert_agrees insertion.othersMatch insertion.fuel insertion.root insertion.tupleKey
      insertion.msg _ _ ⟨s'.pages, rfl, h.1⟩
  obtain ⟨hrc, pages, hthread, hrest⟩ := hends.eq_results
  simp only [TreeOp.untracked, TreeOp.run]
  rw [hthread, ← hrc]
  exact ⟨⟨hrest, h.2⟩, rfl⟩

/-- **One operation** keeps two trees equal up to the borrowed bytes, and its answer is the same on
both if and only if an iterator that returns a pivot finds the same byte. -/
theorem run_agree {s s' : Session K} (h : SameSession s s') (op : TreeOp K) :
    SameSession (op.run cfg s).2 (op.untracked.run cfg s').2 ∧
      ((op.run cfg s).1 = (op.untracked.run cfg s').1 ↔ op.ReadsSameByte s s') := by
  have hseen := h
  obtain ⟨hpages, hitor⟩ := h
  cases op with
  | update updates =>
      exact ⟨⟨(samePages_updates updates s.pages).symm.trans hpages, hitor⟩, iff_of_true rfl trivial⟩
  | readPivot addr k =>
      exact ⟨hseen, iff_of_true (congrArg Answer.pivot (readPivot_eq (hpages addr) k)) trivial⟩
  | lookup outcomes type rootAddr target stopAtHeight =>
      obtain ⟨hsame, hanswer⟩ := lookup_agree cfg hseen outcomes type rootAddr target stopAtHeight
      exact ⟨hsame, iff_of_true hanswer trivial⟩
  | insert insertion =>
      obtain ⟨hsame, hanswer⟩ := insert_agree cfg hseen insertion
      exact ⟨hsame, iff_of_true hanswer trivial⟩
  | openIterator fuel rootAddr minKey maxKey startKey startType height =>
      have hopen := hpages.init_eq fuel rootAddr minKey maxKey startKey startType height
      exact ⟨⟨hpages, hopen⟩, iff_of_true (congrArg Answer.position hopen) trivial⟩
  | moveIterator fuel move =>
      have hmove : (s.itor.bind fun itor => move.apply (viewPages s.pages) fuel itor) =
          s'.itor.bind fun itor => move.apply (viewPages s'.pages) fuel itor := by
        rw [hitor]
        congr 1
        funext itor
        exact hpages.move_eq fuel itor move
      exact ⟨⟨hpages, hmove⟩, iff_of_true (congrArg Answer.position hmove) trivial⟩
  | currIterator =>
      refine ⟨hseen, ?_⟩
      simp only [TreeOp.untracked, TreeOp.run, TreeOp.ReadsSameByte, Answer.current.injEq, ← hitor]
      cases s.itor with
      | none => exact iff_of_true rfl fun itor hnone => Option.noConfusion rfl (heq_of_eq hnone)
      | some itor =>
          rw [Option.bind_some, Option.bind_some, curr_view_iff hpages itor]
          constructor
          · intro hsame itor' heq
            rw [← Option.some.inj heq]
            exact hsame
          · exact fun hall => hall itor rfl

/-! ## Whole sessions -/

theorem runSession_agree (ops : List (TreeOp K)) {s s' : Session K} (h : SameSession s s') :
    SameSession (runSession cfg ops s).2 (runSession cfg (ops.map TreeOp.untracked) s').2 ∧
      ((runSession cfg ops s).1 = (runSession cfg (ops.map TreeOp.untracked) s').1 ↔
        ReadsSameBytes cfg ops s s') := by
  induction ops generalizing s s' with
  | nil => exact ⟨h, iff_of_true rfl trivial⟩
  | cons op ops ih =>
      obtain ⟨hnext, hanswer⟩ := run_agree cfg h op
      obtain ⟨hend, hanswers⟩ := ih hnext
      refine ⟨hend, ?_⟩
      rw [List.map_cons, runSession, runSession, List.cons.injEq, hanswer, hanswers]
      rfl

/-- **The exact condition.**  In every session with every tree, the borrowed bytes are transparent if
and only if no iterator returns a pivot whose byte differs from what it would be without the
changes. -/
theorem transparent_iff (ops : List (TreeOp K)) (s : Session K) :
    Transparent cfg ops s ↔ ReadsSameBytes cfg ops s s := by
  have hagree := (runSession_agree cfg ops (s := s) ⟨SamePages.refl s.pages, rfl⟩).2
  constructor
  · exact fun h => hagree.mp h.answers
  · intro h
    exact ⟨hagree.mpr h, fun addr k e _ => metaCnt7_le e.pivotMeta, special_of_count⟩

theorem runSession_samePages (ops : List (TreeOp K)) (s : Session K) :
    SamePages (runSession cfg ops s).2.pages
      (runSession cfg (ops.map TreeOp.untracked) s).2.pages :=
  (runSession_agree cfg ops ⟨SamePages.refl s.pages, rfl⟩).1.1

/-! ## A count in an address -/

section CountedPivot

private def smallCfg : Config Nat := ⟨4096, fun _ => 8⟩

private def rootWithChild : Addr → Page Nat := fun addr =>
  if addr = 0x1000 then
    ⟨0, 0, 0, 0, 1, 4073, [⟨4073, .index ⟨⟨0x2000, pivotStatsUnknown⟩, ⊥⟩⟩]⟩
  else
    ⟨0, 0, 0, 0, 0, 4096, []⟩

/-- An access to the child is counted, and then an iterator runs over the root. -/
private def countedScan : List (TreeOp Nat) :=
  [.update [.access 0x1000 0 (.increment 0)],
    .openIterator 2 0x1000 ⊥ ⊤ ⊥ .greaterThanOrEqual 1, .currIterator]

private def lastBytes (answers : List (Answer Nat)) : List UInt8 :=
  match answers.getLast? with
  | some (.current (some pair)) => pair.2.data
  | _ => []

/-- **An iterator returns the count.**  After one counted access, the pivot data of the root holds
the child address 0x2001. -/
theorem curr_returns_count : ¬ Transparent smallCfg countedScan ⟨rootWithChild, none⟩ := by
  intro h
  have hbytes := congrArg lastBytes h.answers
  revert hbytes
  decide +kernel

end CountedPivot
end Btree
end TreePass
