import TreePass.Btree.Erasure
import TreePass.Btree.Insert

/-!
# Insertions do not see the borrowed bytes

Two runs of `btree_insert` on trees that are equal up to the borrowed bytes take the same locks, meet
the same outcomes, return the same result and leave trees that are equal up to these bytes.  Each
function of the insertion is compared with itself; `SamePage` is carried along.  What other threads
do to a page may differ in the borrowed bytes (`Outcomes.OthersMatch`).
-/

namespace TreePass
namespace Btree

open Lib Lib.Action

variable {K : Type}

def SamePage (hdr hdr' : Page K) : Prop := hdr.eraseMeta = hdr'.eraseMeta

def SamePage? (hdr hdr' : Option (Page K)) : Prop := hdr.map Page.eraseMeta = hdr'.map Page.eraseMeta

/-- What a thread does is the same, and the pages are equal up to the borrowed bytes. -/
def SameThread (s s' : Thread K) : Prop :=
  ∃ pages, s' = { s with pages := pages } ∧ ∀ addr, SamePage (s.pages addr) (pages addr)

def Outcomes.withOthers (outcomes : Outcomes K) (others : Nat → Page K → Page K) : Outcomes K :=
  { outcomes with others := others }

/-- The other threads treat pages that are equal up to the borrowed bytes alike, up to these. -/
def Outcomes.OthersMatch (outcomes : Outcomes K) (others : Nat → Page K → Page K) : Prop :=
  ∀ n hdr hdr', SamePage hdr hdr' → SamePage (outcomes.others n hdr) (others n hdr')

section Pages

variable {hdr hdr' : Page K}

theorem SamePage.congr (h : SamePage hdr hdr') {α : Type} {f : Page K → α}
    (hf : ∀ p : Page K, f p.eraseMeta = f p) : f hdr = f hdr' := by
  rw [← hf hdr, h, hf hdr']

theorem SamePage.map (h : SamePage hdr hdr') {f : Page K → Page K}
    (hf : ∀ p : Page K, f p.eraseMeta = (f p).eraseMeta) : SamePage (f hdr) (f hdr') := by
  rw [SamePage, ← hf hdr, h, hf hdr']

theorem SamePage.map? (h : SamePage hdr hdr') {f : Page K → Option (Page K)}
    (hf : ∀ p : Page K, f p.eraseMeta = (f p).map Page.eraseMeta) : SamePage? (f hdr) (f hdr') := by
  rw [SamePage?, ← hf hdr, h, hf hdr']

theorem SamePage.height (h : SamePage hdr hdr') : hdr.height = hdr'.height :=
  h.congr fun _ => rfl

theorem SamePage.indexIsFull (h : SamePage hdr hdr') (cfg : Config K) :
    hdr.indexIsFull cfg = hdr'.indexIsFull cfg := h.congr fun p => p.indexIsFull_eraseMeta cfg

theorem SamePage.findPivot [LinearOrder K] (h : SamePage hdr hdr') (target : Key K) :
    hdr.findPivot target = hdr'.findPivot target :=
  h.congr (f := fun p => p.findPivot target) fun p => p.findPivot_eraseMeta target

theorem SamePage.getIndexEntry (h : SamePage hdr hdr') (k : Nat) :
    (hdr.getIndexEntry k = none ∧ hdr'.getIndexEntry k = none) ∨
      ∃ e e', hdr.getIndexEntry k = some e ∧ hdr'.getIndexEntry k = some e' ∧
        e.eraseMeta = e'.eraseMeta := by
  have hmap : (hdr.getIndexEntry k).map OndiskIndexEntry.eraseMeta =
      (hdr'.getIndexEntry k).map OndiskIndexEntry.eraseMeta := by
    rw [← Page.getIndexEntry_eraseMeta, h, Page.getIndexEntry_eraseMeta]
  cases he : hdr.getIndexEntry k with
  | none =>
      rw [he, Option.map_none] at hmap
      exact .inl ⟨rfl, Option.map_eq_none_iff.mp hmap.symm⟩
  | some e =>
      rw [he, Option.map_some] at hmap
      obtain ⟨e', he', heq⟩ := Option.map_eq_some_iff.mp hmap.symm
      exact .inr ⟨e, e', rfl, he', heq.symm⟩

theorem same_of_eraseMeta_eq {e e' : OndiskIndexEntry K} (h : e.eraseMeta = e'.eraseMeta) :
    e.pivot = e'.pivot ∧ e.maskedChildAddr = e'.maskedChildAddr ∧
      e.pivotData.stats = e'.pivotData.stats := by
  have hpivot : e.eraseMeta.pivot = e'.eraseMeta.pivot := congrArg _ h
  have haddr : e.eraseMeta.maskedChildAddr = e'.eraseMeta.maskedChildAddr := congrArg _ h
  have hstats : e.eraseMeta.pivotData.stats = e'.eraseMeta.pivotData.stats :=
    congrArg (fun e => e.pivotData.stats) h
  rw [OndiskIndexEntry.maskedChildAddr_eraseMeta, OndiskIndexEntry.maskedChildAddr_eraseMeta] at haddr
  exact ⟨hpivot, haddr, hstats⟩

theorem SamePage.setIndexEntry (h : SamePage hdr hdr') (cfg : Config K) (k : Nat)
    (newPivotKey : Key K) {newAddr newAddr' : Addr} (stats : PivotStats)
    (haddr : withByte0 newAddr 0 = withByte0 newAddr' 0) :
    SamePage? (hdr.setIndexEntry cfg k newPivotKey newAddr stats)
      (hdr'.setIndexEntry cfg k newPivotKey newAddr' stats) := by
  rw [SamePage?, ← Page.setIndexEntry_eraseMeta, ← Page.setIndexEntry_eraseMeta, h, haddr]

theorem SamePage.insertIndexEntry (h : SamePage hdr hdr') (cfg : Config K) (k : Nat)
    (newPivotKey : Key K) (newAddr : Addr) (stats : PivotStats) :
    SamePage? (hdr.insertIndexEntry cfg k newPivotKey newAddr stats)
      (hdr'.insertIndexEntry cfg k newPivotKey newAddr stats) := by
  rw [SamePage?, ← Page.insertIndexEntry_eraseMeta, ← Page.insertIndexEntry_eraseMeta, h]

theorem SamePage?.getD {o o' : Option (Page K)} (ho : SamePage? o o') (h : SamePage hdr hdr') :
    SamePage (o.getD hdr) (o'.getD hdr') := by
  cases o with
  | none =>
      rw [SamePage?, Option.map_none, eq_comm, Option.map_eq_none_iff] at ho
      rw [ho]
      exact h
  | some p =>
      obtain ⟨p', hp', heq⟩ := Option.map_eq_some_iff.mp ho.symm
      rw [hp']
      exact heq.symm

end Pages

/-! ## The operations on nodes -/

variable {cfg : Config K} {outcomes : Outcomes K} {others : Nat → Page K → Page K}

theorem readPage_agrees (addr : Addr) :
    Agrees SameThread SamePage (readPage addr : Action (Thread K) (Page K)) (readPage addr) := by
  rintro s _ ⟨pages, rfl, hpages⟩
  exact ⟨hpages addr, pages, rfl, hpages⟩

private theorem samePages_update {pages pages' : Addr → Page K}
    (hpages : ∀ addr, SamePage (pages addr) (pages' addr)) {addr : Addr} {hdr hdr' : Page K}
    (h : SamePage hdr hdr') (addr' : Addr) :
    SamePage (Function.update pages addr hdr addr') (Function.update pages' addr hdr' addr') := by
  by_cases heq : addr' = addr
  · subst heq
    rw [Function.update_self, Function.update_self]
    exact h
  · rw [Function.update_of_ne heq, Function.update_of_ne heq]
    exact hpages addr'

theorem writePage_agrees (addr : Addr) {hdr hdr' : Page K} (h : SamePage hdr hdr') :
    Agrees SameThread Eq (writePage addr hdr) (writePage addr hdr') := by
  rintro s _ ⟨pages, rfl, hpages⟩
  exact ⟨rfl, _, rfl, samePages_update hpages h⟩

theorem writePageAsserted_agrees (addr : Addr) {hdr hdr' : Option (Page K)}
    (h : SamePage? hdr hdr') :
    Agrees SameThread Eq (writePageAsserted addr hdr)
      (writePageAsserted addr hdr') := by
  cases hdr with
  | none =>
      rw [SamePage?, Option.map_none, eq_comm, Option.map_eq_none_iff] at h
      rw [h]
      exact Agrees.throw .asserts
  | some p =>
      obtain ⟨p', hp', heq⟩ := Option.map_eq_some_iff.mp h.symm
      rw [hp']
      exact writePage_agrees addr heq.symm

private theorem release_agrees (addr : Addr) (latch : Latch) :
    Agrees SameThread Eq (release addr latch : Action (Thread K) Unit)
      (release addr latch) := by
  rintro s _ ⟨pages, rfl, hpages⟩
  simp only [release, runFrom_bind, runFrom_get]
  by_cases h : (addr, latch) ∈ s.held
  · simp only [h, if_true, runFrom_modify]
    exact ⟨rfl, pages, rfl, hpages⟩
  · simp only [h, if_false, runFrom_throw]
    exact ⟨rfl, pages, rfl, hpages⟩

theorem nodeUnlock_agrees (addr : Addr) : Agrees SameThread Eq
    (nodeUnlock addr : Action (Thread K) Unit) (nodeUnlock addr) := release_agrees addr .write

theorem nodeUnclaim_agrees (addr : Addr) : Agrees SameThread Eq
    (nodeUnclaim addr : Action (Thread K) Unit) (nodeUnclaim addr) := release_agrees addr .claim

theorem nodeUnget_agrees (addr : Addr) : Agrees SameThread Eq
    (nodeUnget addr : Action (Thread K) Unit) (nodeUnget addr) := release_agrees addr .read

theorem nodeFullUnlock_agrees (addr : Addr) : Agrees SameThread Eq
    (nodeFullUnlock addr : Action (Thread K) Unit) (nodeFullUnlock addr) := by
  refine (nodeUnlock_agrees addr).bind_eq fun _ => ?_
  refine (nodeUnclaim_agrees addr).bind_eq fun _ => ?_
  exact nodeUnget_agrees addr

theorem nodeGet_agrees (hothers : outcomes.OthersMatch others) (addr : Addr) :
    Agrees SameThread Eq (nodeGet outcomes addr) (nodeGet (outcomes.withOthers others) addr) := by
  rintro s _ ⟨pages, rfl, hpages⟩
  simp only [nodeGet, runFrom_bind, runFrom_get]
  by_cases hwrite : (addr, Latch.write) ∈ s.held
  · simp only [hwrite, if_true, runFrom_throw]
    exact ⟨rfl, pages, rfl, hpages⟩
  · simp only [hwrite, if_false, runFrom_modify]
    refine ⟨rfl, _, rfl, fun addr' => ?_⟩
    by_cases hread : (addr, Latch.read) ∈ s.held
    · simp only [hread, if_true]
      exact hpages addr'
    · simp only [hread, if_false]
      exact samePages_update hpages (hothers s.calls _ _ (hpages addr)) addr'

theorem nodeClaim_agrees (addr : Addr) :
    Agrees SameThread Eq (nodeClaim outcomes addr) (nodeClaim (outcomes.withOthers others) addr) := by
  rintro s _ ⟨pages, rfl, hpages⟩
  simp only [nodeClaim, runFrom_bind, runFrom_get]
  by_cases h : (addr, Latch.read) ∈ s.held
  · simp only [h, if_true, runFrom_bind, runFrom_modify, runFrom_pure]
    exact ⟨rfl, pages, rfl, hpages⟩
  · simp only [h, if_false, runFrom_throw]
    exact ⟨rfl, pages, rfl, hpages⟩

theorem nodeLock_agrees (addr : Addr) : Agrees SameThread Eq
    (nodeLock addr : Action (Thread K) Unit) (nodeLock addr) := by
  rintro s _ ⟨pages, rfl, hpages⟩
  simp only [nodeLock, runFrom_bind, runFrom_get]
  by_cases hclaim : (addr, Latch.claim) ∈ s.held
  · by_cases hwrite : (addr, Latch.write) ∈ s.held
    · simp only [hclaim, hwrite, if_true, runFrom_throw]
      exact ⟨rfl, pages, rfl, hpages⟩
    by_cases hreaders : 1 < s.held.count (addr, Latch.read)
    · simp only [hclaim, hwrite, hreaders, if_true, if_false, runFrom_throw]
      exact ⟨rfl, pages, rfl, hpages⟩
    · simp only [hclaim, hwrite, hreaders, if_true, if_false, runFrom_modify]
      exact ⟨rfl, pages, rfl, hpages⟩
  · simp only [hclaim, if_false, runFrom_throw]
    exact ⟨rfl, pages, rfl, hpages⟩

theorem btreeAlloc_agrees :
    Agrees SameThread Eq (btreeAlloc outcomes) (btreeAlloc (outcomes.withOthers others)) := by
  rintro s _ ⟨pages, rfl, hpages⟩
  exact ⟨rfl, pages, rfl, hpages⟩

theorem createSpec_agrees [LinearOrder K] (addr : Addr) (tupleKey : K) (msg : Message) :
    Agrees SameThread Eq (createSpec outcomes addr tupleKey msg)
      (createSpec (outcomes.withOthers others) addr tupleKey msg) := by
  rintro s _ ⟨pages, rfl, hpages⟩
  simp only [createSpec, runFrom_bind, runFrom_get, runFrom_modify, runFrom_pure]
  have hspec := (hpages addr).congr
    (f := fun p => p.createLeafIncorporateSpec (outcomes.initAccumulator s.calls)
      (outcomes.callbacks s.calls).dataMergeTuples tupleKey msg)
    fun p => p.createLeafIncorporateSpec_eraseMeta _ _ tupleKey msg
  simp only [Outcomes.withOthers, ← hspec]
  exact ⟨rfl, pages, rfl, hpages⟩

theorem tryPerformSpec_agrees (addr : Addr) (spec : LeafIncorporateSpec K) :
    Agrees SameThread Eq (tryPerformSpec cfg addr spec)
      (tryPerformSpec cfg addr spec) := by
  rintro s _ ⟨pages, rfl, hpages⟩
  have hperform : ((s.pages addr).tryPerformLeafIncorporateSpec cfg spec).map
      (fun r => (r.1.eraseMeta, r.2)) =
        ((pages addr).tryPerformLeafIncorporateSpec cfg spec).map fun r => (r.1.eraseMeta, r.2) := by
    rw [← Page.tryPerformLeafIncorporateSpec_eraseMeta, hpages addr,
      Page.tryPerformLeafIncorporateSpec_eraseMeta]
  simp only [tryPerformSpec, runFrom_bind, runFrom_get]
  cases hr : (s.pages addr).tryPerformLeafIncorporateSpec cfg spec with
  | none =>
      rw [hr, Option.map_none, eq_comm, Option.map_eq_none_iff] at hperform
      rw [hperform]
      exact ⟨rfl, pages, rfl, hpages⟩
  | some r =>
      rw [hr] at hperform
      obtain ⟨r', hr', heq⟩ := Option.map_eq_some_iff.mp hperform.symm
      obtain ⟨hpage, hgeneration⟩ := Prod.mk.inj heq
      rw [hr']
      refine ⟨rfl, Function.update pages addr r'.1, ?_, samePages_update hpages hpage.symm⟩
      rw [hgeneration]

theorem performSpec_agrees (addr : Addr) (spec : LeafIncorporateSpec K) :
    Agrees SameThread Eq (performSpec cfg addr spec)
      (performSpec cfg addr spec) := by
  refine (tryPerformSpec_agrees addr spec).bind_eq fun incorporated => ?_
  exact Agrees.ite Iff.rfl (Agrees.pure rfl) (Agrees.throw .asserts)

theorem setWasUnique_agrees (spec : LeafIncorporateSpec K) : Agrees SameThread Eq
    (setWasUnique spec : Action (Thread K) Unit) (setWasUnique spec) := by
  rintro s _ ⟨pages, rfl, hpages⟩
  exact ⟨rfl, pages, rfl, hpages⟩

/-! ## Index nodes -/

theorem growRoot_agrees (root : Addr) :
    Agrees SameThread Eq (growRoot cfg outcomes root) (growRoot cfg (outcomes.withOthers others) root) := by
  refine (readPage_agrees root).bind fun hdr hdr' hsame => ?_
  refine btreeAlloc_agrees.bind_eq fun child => ?_
  refine (writePage_agrees child hsame).bind_eq fun _ => ?_
  refine (nodeUnlock_agrees child).bind_eq fun _ => ?_
  refine (nodeUnclaim_agrees child).bind_eq fun _ => ?_
  refine Agrees.bind_eq (writePageAsserted_agrees root ?_) fun _ => nodeUnget_agrees child
  have hpivot : (hdr.getIndexEntry 0).map OndiskIndexEntry.pivot =
      (hdr'.getIndexEntry 0).map OndiskIndexEntry.pivot := by
    rcases hsame.getIndexEntry 0 with ⟨h, h'⟩ | ⟨e, e', h, h', heq⟩
    · rw [h, h']
    · rw [h, h', Option.map_some, Option.map_some, (same_of_eraseMeta_eq heq).1]
  have hleaf : hdr.getLeafEntry 0 = hdr'.getLeafEntry 0 :=
    hsame.congr (f := fun p => p.getLeafEntry 0) fun p => p.getLeafEntry_eraseMeta 0
  have hgrown : SamePage { hdr.resetNodeEntries cfg with height := hdr.height + 1 }
      { hdr'.resetNodeEntries cfg with height := hdr'.height + 1 } :=
    hsame.map (f := fun p => { p.resetNodeEntries cfg with height := p.height + 1 }) fun _ => rfl
  rw [hpivot, hleaf, hsame.height]
  rw [hsame.height] at hgrown
  generalize (if hdr'.height = 0 then (hdr'.getLeafEntry 0).map fun e => Key.user e.key
    else (hdr'.getIndexEntry 0).map OndiskIndexEntry.pivot) = newPivot
  cases newPivot with
  | none => rfl
  | some pivot => exact hgrown.setIndexEntry cfg 0 pivot pivotStatsUnknown rfl

theorem setMinKey_agrees (addr : Addr) (tupleKey : K) :
    Agrees SameThread Eq (setMinKey cfg addr tupleKey) (setMinKey cfg addr tupleKey) := by
  refine (readPage_agrees addr).bind fun hdr hdr' hsame => ?_
  rcases hsame.getIndexEntry 0 with ⟨h, h'⟩ | ⟨e, e', h, h', heq⟩
  · rw [h, h']
    exact Agrees.throw .asserts
  · rw [h, h']
    obtain ⟨-, haddr, hstats⟩ := same_of_eraseMeta_eq heq
    have hset := hsame.setIndexEntry cfg 0 (Key.user tupleKey) e.pivotData.stats
      (congrArg (withByte0 · 0) haddr)
    rw [hstats] at hset
    dsimp only
    rw [hstats]
    cases hnew : hdr.setIndexEntry cfg 0 (Key.user tupleKey) e.maskedChildAddr
        e'.pivotData.stats with
    | none =>
        rw [hnew, SamePage?, Option.map_none, eq_comm, Option.map_eq_none_iff] at hset
        rw [hset]
        exact Agrees.pure rfl
    | some p =>
        rw [hnew] at hset
        obtain ⟨p', hp', hsame'⟩ := Option.map_eq_some_iff.mp hset.symm
        rw [hp']
        exact (writePage_agrees addr hsame'.symm).bind_pure _

theorem trySetMinKey_agrees (addr : Addr) (tupleKey : K) (childIdx : Int) :
    Agrees SameThread Eq (trySetMinKey cfg addr tupleKey childIdx)
      (trySetMinKey cfg addr tupleKey childIdx) := by
  refine Agrees.ite Iff.rfl ?_ (Agrees.pure rfl)
  exact (setMinKey_agrees addr tupleKey).bind_pure _

theorem setMinKeyIfNeeded_agrees (addr : Addr) (tupleKey : K) (needToSetMinKey : Bool) :
    Agrees SameThread Eq (setMinKeyIfNeeded cfg addr tupleKey needToSetMinKey)
      (setMinKeyIfNeeded cfg addr tupleKey needToSetMinKey) := by
  refine Agrees.ite Iff.rfl ?_ (Agrees.pure rfl)
  refine (setMinKey_agrees addr tupleKey).bind_eq fun success => ?_
  exact Agrees.ite Iff.rfl (Agrees.pure rfl) (Agrees.throw .asserts)

private theorem isFull_iff {hdr hdr' : Page K} (h : SamePage hdr hdr') :
    hdr.indexIsFull cfg = true ↔ hdr'.indexIsFull cfg = true := by rw [h.indexIsFull cfg]

theorem growRootIfFull_agrees (root : Addr) (childIdx : Nat) :
    Agrees SameThread Eq (growRootIfFull cfg outcomes root childIdx)
      (growRootIfFull cfg (outcomes.withOthers others) root childIdx) := by
  refine (readPage_agrees root).bind fun hdr hdr' hsame => ?_
  refine Agrees.ite (isFull_iff hsame) ?_ (Agrees.pure rfl)
  exact (growRoot_agrees root).bind_pure _

theorem fixRoot_agrees (root : Addr) (tupleKey : K) (childIdx : Int) :
    Agrees SameThread Eq (fixRoot cfg outcomes root tupleKey childIdx)
      (fixRoot cfg (outcomes.withOthers others) root tupleKey childIdx) := by
  refine (nodeLock_agrees root).bind_eq fun _ => ?_
  refine (trySetMinKey_agrees root tupleKey childIdx).bind_eq fun needToSetMinKey => ?_
  refine (growRootIfFull_agrees root childIdx.toNat).bind_eq fun childIdx => ?_
  refine (setMinKeyIfNeeded_agrees root tupleKey needToSetMinKey).bind_eq fun _ => ?_
  refine (nodeUnlock_agrees root).bind_eq fun _ => ?_
  exact (nodeUnclaim_agrees root).bind_pure _

theorem splitChildIndex_agrees (parent : Addr) (indexOfChildInParent : Nat) (child : Addr)
    (nextChildIdx : Nat) :
    Agrees SameThread Eq
      (splitChildIndex cfg outcomes parent indexOfChildInParent child nextChildIdx)
      (splitChildIndex cfg (outcomes.withOthers others) parent indexOfChildInParent child nextChildIdx) := by
  refine (readPage_agrees child).bind fun hdr hdr' hsame => ?_
  refine btreeAlloc_agrees.bind_eq fun rightChild => ?_
  refine (readPage_agrees parent).bind fun parentHdr parentHdr' hparent => ?_
  have hidx : hdr.chooseIndexSplit cfg = hdr'.chooseIndexSplit cfg :=
    hsame.congr fun p => p.chooseIndexSplit_eraseMeta cfg
  have htruncate : SamePage? (hdr.truncateIndex cfg (hdr'.chooseIndexSplit cfg))
      (hdr'.truncateIndex cfg (hdr'.chooseIndexSplit cfg)) :=
    hsame.map? (f := fun p => p.truncateIndex cfg _) fun p => p.truncateIndex_eraseMeta cfg _
  rw [hidx]
  rcases hsame.getIndexEntry (hdr'.chooseIndexSplit cfg) with ⟨h, h'⟩ | ⟨e, e', h, h', heq⟩
  · rw [h, h']
    exact Agrees.throw .asserts
  · rw [h, h']
    dsimp only
    rw [(same_of_eraseMeta_eq heq).1]
    refine Agrees.bind_eq (writePage_agrees parent
      ((hparent.insertIndexEntry cfg _ _ _ _).getD hparent)) fun _ => ?_
    refine (nodeFullUnlock_agrees parent).bind_eq fun _ => ?_
    refine Agrees.bind_eq (writePageAsserted_agrees rightChild
      (hsame.map? (f := fun p => p.splitIndexBuildRightNode cfg _) fun p =>
        p.splitIndexBuildRightNode_eraseMeta cfg _)) fun _ => ?_
    refine Agrees.ite Iff.rfl ?_ ?_
    · refine (nodeFullUnlock_agrees rightChild).bind_eq fun _ => ?_
      exact (writePageAsserted_agrees child htruncate).bind_pure _
    · refine (writePageAsserted_agrees child htruncate).bind_eq fun _ => ?_
      exact (nodeFullUnlock_agrees child).bind_pure _

theorem defragmentOrSplitChildIndex_agrees (parent : Addr) (indexOfChildInParent : Nat)
    (child : Addr) (nextChildIdx : Nat) :
    Agrees SameThread Eq
      (defragmentOrSplitChildIndex cfg outcomes parent indexOfChildInParent child nextChildIdx)
      (defragmentOrSplitChildIndex cfg (outcomes.withOthers others) parent indexOfChildInParent child nextChildIdx) := by
  refine (readPage_agrees child).bind fun hdr hdr' hsame => ?_
  have hlive : Page.liveBytes cfg hdr.slots = Page.liveBytes cfg hdr'.slots :=
    hsame.congr (f := fun p => Page.liveBytes cfg p.slots) fun p => Page.liveBytes_eraseMeta cfg p.slots
  have hnum : hdr.numEntries = hdr'.numEntries := hsame.congr fun p => p.numEntries_eraseMeta
  refine Agrees.ite (by rw [hlive, hnum]) ?_ ?_
  · refine (nodeFullUnlock_agrees parent).bind_eq fun _ => ?_
    refine Agrees.bind_eq (writePageAsserted_agrees child
      (hsame.map? fun p => p.defragmentIndex_eraseMeta cfg)) fun _ => ?_
    exact Agrees.pure rfl
  · exact splitChildIndex_agrees parent indexOfChildInParent child nextChildIdx

theorem makeRoomInChild_agrees (parent : Addr) (childIdx : Nat) (child : Addr)
    (nextChildIdx : Nat) :
    Agrees SameThread Eq (makeRoomInChild cfg outcomes parent childIdx child nextChildIdx)
      (makeRoomInChild cfg (outcomes.withOthers others) parent childIdx child nextChildIdx) := by
  refine (readPage_agrees child).bind fun hdr hdr' hsame => ?_
  refine Agrees.ite (isFull_iff hsame)
    (defragmentOrSplitChildIndex_agrees parent childIdx child nextChildIdx) ?_
  exact (nodeFullUnlock_agrees parent).bind_pure _

theorem fixChild_agrees (parent : Addr) (childIdx : Nat) (child : Addr) (tupleKey : K)
    (nextChildIdx : Int) :
    Agrees SameThread Eq (fixChild cfg outcomes parent childIdx child tupleKey nextChildIdx)
      (fixChild cfg (outcomes.withOthers others) parent childIdx child tupleKey nextChildIdx) := by
  refine (nodeLock_agrees parent).bind_eq fun _ => ?_
  refine (nodeLock_agrees child).bind_eq fun _ => ?_
  refine (trySetMinKey_agrees child tupleKey nextChildIdx).bind_eq fun needToSetMinKey => ?_
  refine (makeRoomInChild_agrees parent childIdx child nextChildIdx.toNat).bind_eq fun r => ?_
  refine (setMinKeyIfNeeded_agrees r.1 tupleKey needToSetMinKey).bind_eq fun _ => ?_
  refine (nodeUnlock_agrees r.1).bind_eq fun _ => ?_
  exact (nodeUnclaim_agrees r.1).bind_pure _

/-! ## Leaves -/

theorem relinkChildNext_agrees (childNext rightChild : Addr) :
    Agrees SameThread Eq (relinkChildNext childNext rightChild : Action (Thread K) Unit)
      (relinkChildNext childNext rightChild) := by
  refine Agrees.ite Iff.rfl (Agrees.pure rfl) ?_
  refine (readPage_agrees childNext).bind fun hdr hdr' hsame => ?_
  have hlinked := hsame.map (f := fun p => { p with prevAddr := rightChild }) fun _ => rfl
  refine (writePage_agrees childNext hlinked).bind_eq fun _ => ?_
  exact nodeFullUnlock_agrees childNext

theorem writeRightLeaf_agrees (rightChild : Addr)
    {right right' : Option (Page K × LeafIncorporateSpec K × Option Nat)}
    (h : right.map (fun r => (r.1.eraseMeta, r.2)) = right'.map fun r => (r.1.eraseMeta, r.2)) :
    Agrees SameThread Eq (writeRightLeaf rightChild right) (writeRightLeaf rightChild right') := by
  cases right with
  | none =>
      rw [Option.map_none, eq_comm, Option.map_eq_none_iff] at h
      rw [h]
      exact Agrees.throw .asserts
  | some r =>
      obtain ⟨r', rfl, heq⟩ := Option.map_eq_some_iff.mp h.symm
      obtain ⟨hpage, hrest⟩ := Prod.mk.inj heq
      rintro s _ ⟨pages, rfl, hpages⟩
      refine ⟨congrArg Prod.fst hrest.symm, _, ?_, samePages_update hpages hpage.symm⟩
      dsimp only
      rw [hrest]

theorem performSpecIfLeft_agrees (child : Addr) (spec : LeafIncorporateSpec K)
    (plan : LeafSplittingPlan) :
    Agrees SameThread Eq (performSpecIfLeft cfg child spec plan)
      (performSpecIfLeft cfg child spec plan) :=
  Agrees.ite Iff.rfl (performSpec_agrees child spec) (Agrees.pure rfl)

theorem splitLockedLeaf_agrees (parent : Addr) (indexOfChildInParent : Nat)
    (child rightChild childNext : Addr) (spec : LeafIncorporateSpec K) (plan : LeafSplittingPlan) :
    Agrees SameThread Eq
      (splitLockedLeaf cfg parent indexOfChildInParent child rightChild childNext spec plan)
      (splitLockedLeaf cfg parent indexOfChildInParent child rightChild childNext spec plan) := by
  refine (readPage_agrees child).bind fun hdr hdr' hsame => ?_
  refine (readPage_agrees parent).bind fun parentHdr parentHdr' hparent => ?_
  have hpivot : hdr.splittingPivot spec plan = hdr'.splittingPivot spec plan :=
    hsame.congr (f := fun p => p.splittingPivot spec plan) fun p => p.splittingPivot_eraseMeta spec plan
  rw [hpivot]
  refine Agrees.bind_eq (writePageAsserted_agrees parent ?_) fun _ => ?_
  · cases hdr'.splittingPivot spec plan with
    | none => rfl
    | some pivotKey => exact hparent.insertIndexEntry cfg _ pivotKey rightChild pivotStatsUnknown
  refine (nodeFullUnlock_agrees parent).bind_eq fun _ => ?_
  refine (relinkChildNext_agrees childNext rightChild).bind_eq fun _ => ?_
  refine Agrees.bind_eq (writeRightLeaf_agrees rightChild ?_) fun spec => ?_
  · rw [← Page.splitLeafBuildRightNode_eraseMeta, hsame, Page.splitLeafBuildRightNode_eraseMeta]
  refine (nodeFullUnlock_agrees rightChild).bind_eq fun _ => ?_
  obtain ⟨hpage, hspec⟩ := Prod.mk.inj ((Page.splitLeafCleanupLeftNode_eraseMeta cfg hdr spec plan
    rightChild).symm.trans ((congrArg (·.splitLeafCleanupLeftNode cfg spec plan rightChild) hsame).trans
      (Page.splitLeafCleanupLeftNode_eraseMeta cfg hdr' spec plan rightChild)))
  refine (writePage_agrees child hpage).bind_eq fun _ => ?_
  rw [hspec]
  refine (performSpecIfLeft_agrees child _ plan).bind_eq fun _ => ?_
  exact nodeFullUnlock_agrees child

/-! ## What meets other threads -/

section Others

variable (hothers : outcomes.OthersMatch others)

include hothers

theorem getChild_agrees (parent : Addr) (childIdx : Nat) :
    Agrees SameThread Eq (getChild outcomes parent childIdx) (getChild (outcomes.withOthers others) parent childIdx) := by
  refine (readPage_agrees parent).bind fun hdr hdr' hsame => ?_
  rcases hsame.getIndexEntry childIdx with ⟨h, h'⟩ | ⟨e, e', h, h', heq⟩
  · rw [h, h']
    exact Agrees.throw .asserts
  · rw [h, h']
    dsimp only
    rw [(same_of_eraseMeta_eq heq).2.1]
    exact (nodeGet_agrees hothers e'.maskedChildAddr).bind_pure _

theorem claimChildNext_agrees (childNext : Addr) (retries : Nat) :
    Agrees SameThread Eq (claimChildNext outcomes childNext retries)
      (claimChildNext (outcomes.withOthers others) childNext retries) := by
  induction retries with
  | zero =>
      refine (nodeClaim_agrees childNext).bind_eq fun claimed => ?_
      refine Agrees.ite Iff.rfl (Agrees.pure rfl) ?_
      exact (nodeUnget_agrees childNext).bind_pure _
  | succ retries ih =>
      refine (nodeClaim_agrees childNext).bind_eq fun claimed => ?_
      refine Agrees.ite Iff.rfl (Agrees.pure rfl) ?_
      refine (nodeUnget_agrees childNext).bind_eq fun _ => ?_
      refine (nodeGet_agrees hothers childNext).bind_eq fun _ => ?_
      exact ih

theorem lockChildNext_agrees (childNext : Addr) :
    Agrees SameThread Eq (lockChildNext outcomes childNext) (lockChildNext (outcomes.withOthers others) childNext) := by
  refine Agrees.ite Iff.rfl (Agrees.pure rfl) ?_
  refine (nodeGet_agrees hothers childNext).bind_eq fun _ => ?_
  refine (claimChildNext_agrees hothers childNext 100).bind_eq fun claimed => ?_
  refine Agrees.ite Iff.rfl ?_ (Agrees.pure rfl)
  exact (nodeLock_agrees childNext).bind_pure _

theorem splitChildLeaf_agrees (parent : Addr)
    (indexOfChildInParent : Nat) (child : Addr) (spec : LeafIncorporateSpec K) :
    Agrees SameThread Eq (splitChildLeaf cfg outcomes parent indexOfChildInParent child spec)
      (splitChildLeaf cfg (outcomes.withOthers others) parent indexOfChildInParent child spec) := by
  refine (readPage_agrees child).bind fun hdr hdr' hsame => ?_
  have hplan : hdr.buildLeafSplittingPlan cfg spec = hdr'.buildLeafSplittingPlan cfg spec :=
    hsame.congr (f := fun p => p.buildLeafSplittingPlan cfg spec) fun p =>
      p.buildLeafSplittingPlan_eraseMeta cfg spec
  have hnext : hdr.nextAddr = hdr'.nextAddr := hsame.congr fun _ => rfl
  dsimp only
  rw [hplan, hnext]
  refine btreeAlloc_agrees.bind_eq fun rightChild => ?_
  refine (nodeLock_agrees parent).bind_eq fun _ => ?_
  refine (lockChildNext_agrees hothers hdr'.nextAddr).bind_eq fun locked => ?_
  refine Agrees.ite Iff.rfl ?_ ?_
  · refine (nodeLock_agrees child).bind_eq fun _ => ?_
    exact (splitLockedLeaf_agrees parent _ child rightChild _ spec _).bind_pure _
  · refine (nodeFullUnlock_agrees rightChild).bind_eq fun _ => ?_
    refine (nodeFullUnlock_agrees parent).bind_eq fun _ => ?_
    refine (nodeUnclaim_agrees child).bind_eq fun _ => ?_
    exact (nodeUnget_agrees child).bind_pure _

theorem defragmentOrSplitChildLeaf_agrees (parent : Addr)
    (indexOfChildInParent : Nat) (child : Addr) (spec : LeafIncorporateSpec K) :
    Agrees SameThread Eq
      (defragmentOrSplitChildLeaf cfg outcomes parent indexOfChildInParent child spec)
      (defragmentOrSplitChildLeaf cfg (outcomes.withOthers others) parent indexOfChildInParent child spec) := by
  refine (readPage_agrees child).bind fun hdr hdr' hsame => ?_
  have hspace : hdr.totalSpaceRequired cfg spec = hdr'.totalSpaceRequired cfg spec :=
    hsame.congr (f := fun p => p.totalSpaceRequired cfg spec) fun p =>
      p.totalSpaceRequired_eraseMeta cfg spec
  refine Agrees.ite (by rw [hspace]) ?_
    (splitChildLeaf_agrees hothers parent indexOfChildInParent child spec)
  refine (nodeUnclaim_agrees parent).bind_eq fun _ => ?_
  refine (nodeUnget_agrees parent).bind_eq fun _ => ?_
  refine (nodeLock_agrees child).bind_eq fun _ => ?_
  obtain ⟨hpage, hspec⟩ := Prod.mk.inj ((Page.defragmentLeaf_eraseMeta cfg hdr spec).symm.trans
    ((congrArg (·.defragmentLeaf cfg spec) hsame).trans (Page.defragmentLeaf_eraseMeta cfg hdr' spec)))
  refine (writePage_agrees child hpage).bind_eq fun _ => ?_
  rw [hspec]
  refine (performSpec_agrees child _).bind_eq fun _ => ?_
  exact (nodeFullUnlock_agrees child).bind_pure _

theorem claimLeaf_agrees (child : Addr) (fuel : Nat) :
    Agrees SameThread Eq (claimLeaf outcomes child fuel) (claimLeaf (outcomes.withOthers others) child fuel) := by
  induction fuel with
  | zero => exact Agrees.throw .waits
  | succ fuel ih =>
      refine (nodeClaim_agrees child).bind_eq fun claimed => ?_
      refine Agrees.ite Iff.rfl (Agrees.pure rfl) ?_
      refine (nodeUnget_agrees child).bind_eq fun _ => ?_
      refine (nodeGet_agrees hothers child).bind_eq fun _ => ?_
      refine ih.bind_eq fun _ => ?_
      exact Agrees.pure rfl

theorem splitAndInsert_agrees (parent : Addr) (childIdx : Nat)
    (child : Addr) (spec : LeafIncorporateSpec K) :
    Agrees SameThread Eq (splitAndInsert cfg outcomes parent childIdx child spec)
      (splitAndInsert cfg (outcomes.withOthers others) parent childIdx child spec) := by
  refine (defragmentOrSplitChildLeaf_agrees hothers parent childIdx child spec).bind_eq fun done => ?_
  refine Agrees.ite Iff.rfl ?_ (Agrees.pure rfl)
  exact (setWasUnique_agrees spec).bind_pure _

variable [LinearOrder K]

theorem claimLeafAndSplit_agrees (fuel : Nat) (parent : Addr)
    (childIdx : Nat) (child : Addr) (tupleKey : K) (msg : Message) (spec : LeafIncorporateSpec K) :
    Agrees SameThread Eq
      (claimLeafAndSplit cfg outcomes fuel parent childIdx child tupleKey msg spec)
      (claimLeafAndSplit cfg (outcomes.withOthers others) fuel parent childIdx child tupleKey msg spec) := by
  refine (claimLeaf_agrees hothers child fuel).bind_eq fun needToRebuildSpec => ?_
  refine Agrees.ite Iff.rfl ?_ (splitAndInsert_agrees hothers parent childIdx child spec)
  refine (createSpec_agrees child tupleKey msg).bind_eq fun rebuilt => ?_
  cases rebuilt with
  | ok spec => exact splitAndInsert_agrees hothers parent childIdx child spec
  | error rc =>
      refine (nodeUnget_agrees parent).bind_eq fun _ => ?_
      refine (nodeUnclaim_agrees child).bind_eq fun _ => ?_
      exact (nodeUnget_agrees child).bind_pure _

theorem insertIntoLeaf_agrees (fuel : Nat) (parent : Addr)
    (childIdx : Nat) (child : Addr) (tupleKey : K) (msg : Message) :
    Agrees SameThread Eq (insertIntoLeaf cfg outcomes fuel parent childIdx child tupleKey msg)
      (insertIntoLeaf cfg (outcomes.withOthers others) fuel parent childIdx child tupleKey msg) := by
  refine (createSpec_agrees child tupleKey msg).bind_eq fun built => ?_
  cases built with
  | error rc =>
      refine (nodeUnget_agrees parent).bind_eq fun _ => ?_
      exact (nodeUnget_agrees child).bind_pure _
  | ok spec =>
      refine (readPage_agrees child).bind fun hdr hdr' hsame => ?_
      have hcan : hdr.canPerformLeafIncorporateSpec cfg spec =
          hdr'.canPerformLeafIncorporateSpec cfg spec :=
        hsame.congr (f := fun p => p.canPerformLeafIncorporateSpec cfg spec) fun p =>
          p.canPerformLeafIncorporateSpec_eraseMeta cfg spec
      refine Agrees.ite (by rw [hcan]) ?_ ?_
      · refine (nodeUnget_agrees parent).bind_eq fun _ => ?_
        refine (nodeClaim_agrees child).bind_eq fun claimed => ?_
        refine Agrees.ite Iff.rfl ?_ ?_
        · refine (nodeLock_agrees child).bind_eq fun _ => ?_
          refine (performSpec_agrees child spec).bind_eq fun _ => ?_
          refine (nodeFullUnlock_agrees child).bind_eq fun _ => ?_
          exact (setWasUnique_agrees spec).bind_pure _
        · exact (nodeUnget_agrees child).bind_pure _
      · refine (nodeClaim_agrees parent).bind_eq fun claimed => ?_
        refine Agrees.ite Iff.rfl
          (claimLeafAndSplit_agrees hothers fuel parent childIdx child tupleKey msg spec) ?_
        refine (nodeUnget_agrees parent).bind_eq fun _ => ?_
        exact (nodeUnget_agrees child).bind_pure _

/-! ## The descent -/

theorem insertDescend_agrees (fuel : Nat) (tupleKey : K)
    (msg : Message) (height : Nat) (parent : Addr) (childIdx : Nat) (child : Addr) :
    Agrees SameThread Eq (insertDescend cfg outcomes fuel tupleKey msg height parent childIdx child)
      (insertDescend cfg (outcomes.withOthers others) fuel tupleKey msg height parent childIdx child) := by
  induction height generalizing parent childIdx child with
  | zero => exact insertIntoLeaf_agrees hothers fuel parent childIdx child tupleKey msg
  | succ height ih =>
      cases height with
      | zero => exact insertIntoLeaf_agrees hothers fuel parent childIdx child tupleKey msg
      | succ height =>
          refine (readPage_agrees child).bind fun hdr hdr' hsame => ?_
          have hfind : hdr.findPivot (Key.user tupleKey) = hdr'.findPivot (Key.user tupleKey) :=
            hsame.findPivot _
          dsimp only
          rw [hfind]
          refine Agrees.ite (by rw [hsame.indexIsFull cfg]) ?_ ?_
          · refine (nodeClaim_agrees parent).bind_eq fun parentClaimed => ?_
            refine Agrees.ite Iff.rfl ?_ ?_
            · refine (nodeClaim_agrees child).bind_eq fun childClaimed => ?_
              refine Agrees.ite Iff.rfl ?_ ?_
              · refine (fixChild_agrees parent childIdx child tupleKey _).bind_eq fun r => ?_
                refine (getChild_agrees hothers r.1 r.2).bind_eq fun next => ?_
                exact ih r.1 r.2 next
              · refine (nodeUnclaim_agrees parent).bind_eq fun _ => ?_
                refine (nodeUnget_agrees parent).bind_eq fun _ => ?_
                exact (nodeUnget_agrees child).bind_pure _
            · refine (nodeUnget_agrees parent).bind_eq fun _ => ?_
              exact (nodeUnget_agrees child).bind_pure _
          · refine (nodeUnget_agrees parent).bind_eq fun _ => ?_
            refine (getChild_agrees hothers child _).bind_eq fun next => ?_
            exact ih child _ next

theorem insertFrom_agrees (fuel : Nat) (root : Addr)
    (childIdx : Nat) (tupleKey : K) (msg : Message) :
    Agrees SameThread Eq (insertFrom cfg outcomes fuel root childIdx tupleKey msg)
      (insertFrom cfg (outcomes.withOthers others) fuel root childIdx tupleKey msg) := by
  refine (getChild_agrees hothers root childIdx).bind_eq fun child => ?_
  refine (readPage_agrees root).bind fun hdr hdr' hsame => ?_
  rw [hsame.height]
  exact insertDescend_agrees hothers fuel tupleKey msg hdr'.height root childIdx child

theorem insertBelowRoot_agrees (fuel : Nat) (root : Addr)
    (tupleKey : K) (msg : Message) :
    Agrees SameThread Eq (insertBelowRoot cfg outcomes fuel root tupleKey msg)
      (insertBelowRoot cfg (outcomes.withOthers others) fuel root tupleKey msg) := by
  refine (readPage_agrees root).bind fun hdr hdr' hsame => ?_
  have hfind : hdr.findPivot (Key.user tupleKey) = hdr'.findPivot (Key.user tupleKey) :=
    hsame.findPivot _
  dsimp only
  rw [hfind]
  refine Agrees.ite (by rw [hsame.indexIsFull cfg]) ?_
    (insertFrom_agrees hothers fuel root _ tupleKey msg)
  refine (nodeClaim_agrees root).bind_eq fun claimed => ?_
  refine Agrees.ite Iff.rfl ?_ ?_
  · refine (fixRoot_agrees root tupleKey _).bind_eq fun childIdx => ?_
    exact insertFrom_agrees hothers fuel root childIdx tupleKey msg
  · exact (nodeUnget_agrees root).bind_pure _

theorem insertIntoRootLeaf_agrees (fuel : Nat) (root : Addr)
    (tupleKey : K) (msg : Message) :
    Agrees SameThread Eq (insertIntoRootLeaf cfg outcomes fuel root tupleKey msg)
      (insertIntoRootLeaf cfg (outcomes.withOthers others) fuel root tupleKey msg) := by
  refine (createSpec_agrees root tupleKey msg).bind_eq fun built => ?_
  cases built with
  | error rc =>
      exact (nodeUnget_agrees root).bind_pure _
  | ok spec =>
      refine (nodeClaim_agrees root).bind_eq fun claimed => ?_
      refine Agrees.ite Iff.rfl ?_ ?_
      · refine (nodeLock_agrees root).bind_eq fun _ => ?_
        refine (tryPerformSpec_agrees root spec).bind_eq fun incorporated => ?_
        refine Agrees.ite Iff.rfl ?_ ?_
        · refine (setWasUnique_agrees spec).bind_eq fun _ => ?_
          exact (nodeFullUnlock_agrees root).bind_pure _
        · refine (growRoot_agrees root).bind_eq fun _ => ?_
          refine (nodeUnlock_agrees root).bind_eq fun _ => ?_
          refine (nodeUnclaim_agrees root).bind_eq fun _ => ?_
          exact insertBelowRoot_agrees hothers fuel root tupleKey msg
      · exact (nodeUnget_agrees root).bind_pure _

theorem insertAttempt_agrees (fuel : Nat) (root : Addr)
    (tupleKey : K) (msg : Message) :
    Agrees SameThread Eq (insertAttempt cfg outcomes fuel root tupleKey msg)
      (insertAttempt cfg (outcomes.withOthers others) fuel root tupleKey msg) := by
  refine (nodeGet_agrees hothers root).bind_eq fun _ => ?_
  refine (readPage_agrees root).bind fun hdr hdr' hsame => ?_
  exact Agrees.ite (by rw [hsame.height]) (insertIntoRootLeaf_agrees hothers fuel root tupleKey msg)
    (insertBelowRoot_agrees hothers fuel root tupleKey msg)

/-- **Insertions do not see the borrowed bytes.**  On trees that are equal up to them, and with
other threads whose doings are equal up to them, two insertions go the same way, return the same
result and leave trees that are equal up to them. -/
theorem btreeInsert_agrees (fuel : Nat) (root : Addr)
    (tupleKey : K) (msg : Message) :
    Agrees SameThread Eq (btreeInsert cfg outcomes fuel root tupleKey msg)
      (btreeInsert cfg (outcomes.withOthers others) fuel root tupleKey msg) := by
  refine Agrees.ite Iff.rfl (Agrees.pure rfl) ?_
  refine Agrees.ite Iff.rfl (Agrees.pure rfl) ?_
  refine Agrees.ite Iff.rfl (Agrees.pure rfl) ?_
  induction fuel with
  | zero => exact Agrees.throw .waits
  | succ fuel ih =>
      refine (insertAttempt_agrees hothers fuel root tupleKey msg).bind_eq fun exit => ?_
      cases exit with
      | startOver => exact ih
      | returns rc => exact Agrees.pure rfl

end Others

end Btree
end TreePass
