import TreePass.Btree.Insert
import TreePass.Btree.LatchSpecs

/-!
# The lock discipline of insertions

What a thread holds at each point of `btree_insert`, one triple for each function.  The triples are
about every outcome the thread can meet and about all contents of the pages it reads, so they cover
every interleaving with other threads.

* No run releases what it does not hold, claims a page it has no reference to, or upgrades to a write
  lock without the claim.
* A run that returns holds nothing, with one exception: if the leaf had to be given up to claim it
  and the specification of the update cannot be built a second time, the parent stays claimed.
* `RebuildFailed` is this exception as a condition on the outcomes met, and
  `lockDiscipline_iff_not_rebuildFailed` says that it is the only one.
-/

namespace TreePass
namespace Btree

open Lib Lib.Action

variable {K : Type} {cfg : Config K} {outcomes : Outcomes K}

/-! ## Index nodes -/

theorem growRoot_spec (root : Addr) (H : Multiset (Addr × Latch)) :
    Triple (Holds H) (growRoot cfg outcomes root) fun _ => Holds H := by
  refine readPage_spec root fun hdr => ?_
  refine step_holds (btreeAlloc_spec H) rfl fun child => ?_
  refine step_same (writePage_spec child hdr) fun _ => ?_
  refine step_holds (nodeUnlock_spec child H) rfl fun _ => ?_
  refine step_holds (nodeUnclaim_spec child H) rfl fun _ => ?_
  refine step_same (writePageAsserted_spec root _) fun _ => ?_
  exact nodeUnget_spec child H

theorem setMinKey_spec (addr : Addr) (tupleKey : K) (H : Multiset (Addr × Latch)) :
    Triple (Holds H) (setMinKey cfg addr tupleKey) fun _ => Holds H := by
  refine readPage_spec addr fun hdr => ?_
  cases hdr.getIndexEntry 0 with
  | none => exact Triple.throw (by decide)
  | some e =>
      dsimp only
      cases hdr.setIndexEntry cfg 0 (Key.user tupleKey) e.maskedChildAddr e.pivotData.stats with
      | none => exact Triple.pure fun _ hs => hs
      | some h =>
          refine step_same (writePage_spec addr h) fun _ => ?_
          exact Triple.pure fun _ hs => hs

theorem trySetMinKey_spec (addr : Addr) (tupleKey : K) (childIdx : Int)
    (H : Multiset (Addr × Latch)) :
    Triple (Holds H) (trySetMinKey cfg addr tupleKey childIdx) fun _ => Holds H := by
  refine Triple.ite (fun _ => ?_) fun _ => Triple.pure fun _ hs => hs
  refine step_same (setMinKey_spec addr tupleKey) fun success => ?_
  exact Triple.pure fun _ hs => hs

theorem setMinKeyIfNeeded_spec (addr : Addr) (tupleKey : K) (needToSetMinKey : Bool)
    (H : Multiset (Addr × Latch)) :
    Triple (Holds H) (setMinKeyIfNeeded cfg addr tupleKey needToSetMinKey) fun _ => Holds H := by
  refine Triple.ite (fun _ => ?_) fun _ => Triple.pure fun _ hs => hs
  refine step_same (setMinKey_spec addr tupleKey) fun success => ?_
  exact Triple.ite (fun _ => Triple.pure fun _ hs => hs) fun _ => Triple.throw (by decide)

theorem growRootIfFull_spec (root : Addr) (childIdx : Nat) (H : Multiset (Addr × Latch)) :
    Triple (Holds H) (growRootIfFull cfg outcomes root childIdx) fun _ => Holds H := by
  refine readPage_spec root fun hdr => ?_
  refine Triple.ite (fun _ => ?_) fun _ => Triple.pure fun _ hs => hs
  refine step_same (growRoot_spec root) fun _ => ?_
  exact Triple.pure fun _ hs => hs

theorem fixRoot_spec (root : Addr) (tupleKey : K) (childIdx : Int) :
    Triple (Holds (claimOn root)) (fixRoot cfg outcomes root tupleKey childIdx)
      fun _ => Holds (readOn root) := by
  refine step_holds (nodeLock_spec root 0) (add_zero _).symm fun _ => ?_
  refine step_same (trySetMinKey_spec root tupleKey childIdx) fun needToSetMinKey => ?_
  refine step_same (growRootIfFull_spec root childIdx.toNat) fun childIdx => ?_
  refine step_same (setMinKeyIfNeeded_spec root tupleKey needToSetMinKey) fun _ => ?_
  refine step_holds (nodeUnlock_spec root 0) rfl fun _ => ?_
  refine step_holds (nodeUnclaim_spec root 0) rfl fun _ => ?_
  rw [add_zero]
  exact Triple.pure fun _ hs => hs

theorem splitChildIndex_spec (parent : Addr) (indexOfChildInParent : Nat) (child : Addr)
    (nextChildIdx : Nat) :
    Triple (Holds (writeOn parent + writeOn child))
      (splitChildIndex cfg outcomes parent indexOfChildInParent child nextChildIdx)
      fun r => Holds (writeOn r.1) := by
  refine readPage_spec child fun hdr => ?_
  refine step_holds (btreeAlloc_spec _) rfl fun rightChild => ?_
  refine readPage_spec parent fun parentHdr => ?_
  cases hdr.getIndexEntry (hdr.chooseIndexSplit cfg) with
  | none => exact Triple.throw (by decide)
  | some e =>
      refine step_same (writePage_spec parent _) fun _ => ?_
      refine step_holds (nodeFullUnlock_spec parent (writeOn rightChild + writeOn child))
        (by ac_rfl) fun _ => ?_
      refine step_same (writePageAsserted_spec rightChild _) fun _ => ?_
      refine Triple.ite (fun _ => ?_) fun _ => ?_
      · refine step_holds (nodeFullUnlock_spec rightChild (writeOn child)) rfl fun _ => ?_
        refine step_same (writePageAsserted_spec child _) fun _ => ?_
        exact Triple.pure fun _ hs => hs
      · refine step_same (writePageAsserted_spec child _) fun _ => ?_
        refine step_holds (nodeFullUnlock_spec child (writeOn rightChild)) (add_comm _ _) fun _ => ?_
        exact Triple.pure fun _ hs => hs

theorem defragmentOrSplitChildIndex_spec (parent : Addr) (indexOfChildInParent : Nat) (child : Addr)
    (nextChildIdx : Nat) :
    Triple (Holds (writeOn parent + writeOn child))
      (defragmentOrSplitChildIndex cfg outcomes parent indexOfChildInParent child nextChildIdx)
      fun r => Holds (writeOn r.1) := by
  refine readPage_spec child fun hdr => ?_
  refine Triple.ite (fun _ => ?_) fun _ => splitChildIndex_spec parent _ child nextChildIdx
  refine step_holds (nodeFullUnlock_spec parent (writeOn child)) rfl fun _ => ?_
  refine step_same (writePageAsserted_spec child _) fun _ => ?_
  exact Triple.pure fun _ hs => hs

theorem makeRoomInChild_spec (parent : Addr) (childIdx : Nat) (child : Addr) (nextChildIdx : Nat) :
    Triple (Holds (writeOn parent + writeOn child))
      (makeRoomInChild cfg outcomes parent childIdx child nextChildIdx)
      fun r => Holds (writeOn r.1) := by
  refine readPage_spec child fun hdr => ?_
  refine Triple.ite (fun _ => defragmentOrSplitChildIndex_spec parent childIdx child nextChildIdx)
    fun _ => ?_
  refine step_holds (nodeFullUnlock_spec parent (writeOn child)) rfl fun _ => ?_
  exact Triple.pure fun _ hs => hs

theorem fixChild_spec (parent : Addr) (childIdx : Nat) (child : Addr) (tupleKey : K)
    (nextChildIdx : Int) :
    Triple (Holds (claimOn parent + claimOn child))
      (fixChild cfg outcomes parent childIdx child tupleKey nextChildIdx)
      fun r => Holds (readOn r.1) := by
  refine step_holds (nodeLock_spec parent (claimOn child)) rfl fun _ => ?_
  refine step_holds (nodeLock_spec child (writeOn parent)) (add_comm _ _) fun _ => ?_
  refine step_same (trySetMinKey_spec child tupleKey nextChildIdx) fun needToSetMinKey => ?_
  refine step_holds (makeRoomInChild_spec parent childIdx child nextChildIdx.toNat) (add_comm _ _)
    fun r => ?_
  refine step_same (setMinKeyIfNeeded_spec r.1 tupleKey needToSetMinKey) fun _ => ?_
  refine step_holds (nodeUnlock_spec r.1 0) (add_zero _).symm fun _ => ?_
  refine step_holds (nodeUnclaim_spec r.1 0) rfl fun _ => ?_
  rw [add_zero]
  exact Triple.pure fun _ hs => hs

theorem getChild_spec (parent : Addr) (childIdx : Nat) :
    Triple (Holds (readOn parent)) (getChild outcomes parent childIdx)
      fun child => HoldsAfter (.got child) (readOn parent + readOn child) := by
  refine readPage_spec parent fun hdr => ?_
  cases hdr.getIndexEntry childIdx with
  | none => exact Triple.throw (by decide)
  | some e =>
      refine step_holds (nodeGet_after e.maskedChildAddr (readOn parent)) rfl fun _ => ?_
      rw [add_comm]
      exact Triple.pure fun _ hs => hs

/-! ## Leaves -/

theorem claimChildNext_spec (childNext : Addr) (retries : Nat) (H : Multiset (Addr × Latch)) :
    Triple (Holds (readOn childNext + H)) (claimChildNext outcomes childNext retries)
      fun claimed => Holds (if claimed then claimOn childNext + H else H) := by
  induction retries with
  | zero =>
      refine (nodeClaim_spec childNext H).bind fun claimed => ?_
      cases claimed with
      | true => exact Triple.pure fun _ hs => hs
      | false =>
          refine step_holds (nodeUnget_spec childNext H) rfl fun _ => ?_
          exact Triple.pure fun _ hs => hs
  | succ retries ih =>
      refine (nodeClaim_spec childNext H).bind fun claimed => ?_
      cases claimed with
      | true => exact Triple.pure fun _ hs => hs
      | false =>
          refine step_holds (nodeUnget_spec childNext H) rfl fun _ => ?_
          refine step_holds (nodeGet_spec childNext H) rfl fun _ => ?_
          exact ih

private def nextOn (childNext : Addr) : Multiset (Addr × Latch) :=
  if childNext = 0 then 0 else writeOn childNext

theorem lockChildNext_spec (childNext : Addr) (H : Multiset (Addr × Latch)) :
    Triple (Holds H) (lockChildNext outcomes childNext)
      fun locked => Holds (if locked then nextOn childNext + H else H) := by
  refine Triple.ite (fun hzero => ?_) fun hzero => ?_
  · refine Triple.pure fun s hs => ?_
    rwa [if_pos rfl, nextOn, if_pos hzero, zero_add]
  · refine step_holds (nodeGet_spec childNext H) rfl fun _ => ?_
    refine (claimChildNext_spec childNext 100 H).bind fun claimed => ?_
    cases claimed with
    | false => exact Triple.pure fun _ hs => hs
    | true =>
        refine step_holds (nodeLock_spec childNext H) rfl fun _ => ?_
        refine Triple.pure fun s hs => ?_
        rwa [if_pos rfl, nextOn, if_neg hzero]

theorem relinkChildNext_spec (childNext rightChild : Addr) (H : Multiset (Addr × Latch)) :
    Triple (Holds (nextOn childNext + H))
      (relinkChildNext childNext rightChild : Action (Thread K) Unit) fun _ => Holds H := by
  refine Triple.ite (fun hzero => ?_) fun hzero => ?_
  · refine Triple.pure fun s hs => ?_
    rwa [nextOn, if_pos hzero, zero_add] at hs
  · rw [nextOn, if_neg hzero]
    refine readPage_spec childNext fun hdr => ?_
    refine step_same (writePage_spec childNext _) fun _ => ?_
    exact nodeFullUnlock_spec childNext H

theorem writeRightLeaf_spec (rightChild : Addr)
    (right : Option (Page K × LeafIncorporateSpec K × Option Nat)) (H : Multiset (Addr × Latch)) :
    Triple (Holds H) (writeRightLeaf rightChild right) fun _ => Holds H := by
  cases right with
  | none => exact Triple.throw (by decide)
  | some r => exact fun s hs => hs

theorem performSpecIfLeft_spec (child : Addr) (spec : LeafIncorporateSpec K)
    (plan : LeafSplittingPlan) (H : Multiset (Addr × Latch)) :
    Triple (Holds H) (performSpecIfLeft cfg child spec plan) fun _ => Holds H :=
  Triple.ite (fun _ => performSpec_spec cfg child spec H) fun _ => Triple.pure fun _ hs => hs

theorem splitLockedLeaf_spec (parent : Addr) (indexOfChildInParent : Nat)
    (child rightChild childNext : Addr) (spec : LeafIncorporateSpec K) (plan : LeafSplittingPlan) :
    Triple (Holds (writeOn parent + (nextOn childNext + (writeOn rightChild + writeOn child))))
      (splitLockedLeaf cfg parent indexOfChildInParent child rightChild childNext spec plan)
      fun _ => Holds 0 := by
  refine readPage_spec child fun hdr => ?_
  refine readPage_spec parent fun parentHdr => ?_
  refine step_same (writePageAsserted_spec parent _) fun _ => ?_
  refine step_holds (nodeFullUnlock_spec parent _) rfl fun _ => ?_
  refine step_holds (relinkChildNext_spec childNext rightChild _) rfl fun _ => ?_
  refine step_same (writeRightLeaf_spec rightChild _) fun spec => ?_
  refine step_holds (nodeFullUnlock_spec rightChild _) rfl fun _ => ?_
  refine step_same (writePage_spec child _) fun _ => ?_
  refine step_same (performSpecIfLeft_spec child _ plan) fun _ => ?_
  refine (nodeFullUnlock_spec child 0).weaken (fun _ hs => ?_) fun _ _ hs => hs
  rwa [add_zero]

theorem splitChildLeaf_spec (parent : Addr) (indexOfChildInParent : Nat) (child : Addr)
    (spec : LeafIncorporateSpec K) :
    Triple (Holds (claimOn parent + claimOn child))
      (splitChildLeaf cfg outcomes parent indexOfChildInParent child spec) fun _ => Holds 0 := by
  refine readPage_spec child fun hdr => ?_
  refine step_holds (btreeAlloc_spec _) rfl fun rightChild => ?_
  refine step_holds (nodeLock_spec parent (writeOn rightChild + claimOn child)) (by ac_rfl)
    fun _ => ?_
  refine step_holds (lockChildNext_spec hdr.nextAddr _) rfl fun locked => ?_
  cases locked with
  | true =>
      refine step_holds
        (nodeLock_spec child (nextOn hdr.nextAddr + (writeOn parent + writeOn rightChild)))
        (by simp only [if_true]; ac_rfl) fun _ => ?_
      refine step_holds (splitLockedLeaf_spec parent indexOfChildInParent child rightChild
        hdr.nextAddr spec _) (by ac_rfl) fun _ => ?_
      exact Triple.pure fun _ hs => hs
  | false =>
      refine step_holds (nodeFullUnlock_spec rightChild (writeOn parent + claimOn child))
        (by simp only [Bool.false_eq_true, if_false]; ac_rfl) fun _ => ?_
      refine step_holds (nodeFullUnlock_spec parent (claimOn child)) rfl fun _ => ?_
      refine step_holds (nodeUnclaim_spec child 0) (add_zero _).symm fun _ => ?_
      refine step_holds (nodeUnget_spec child 0) rfl fun _ => ?_
      exact Triple.pure fun _ hs => hs

theorem defragmentOrSplitChildLeaf_spec (parent : Addr) (indexOfChildInParent : Nat) (child : Addr)
    (spec : LeafIncorporateSpec K) :
    Triple (Holds (claimOn parent + claimOn child))
      (defragmentOrSplitChildLeaf cfg outcomes parent indexOfChildInParent child spec)
      fun _ => Holds 0 := by
  refine readPage_spec child fun hdr => ?_
  refine Triple.ite (fun _ => ?_) fun _ => splitChildLeaf_spec parent indexOfChildInParent child spec
  refine step_holds (nodeUnclaim_spec parent (claimOn child)) rfl fun _ => ?_
  refine step_holds (nodeUnget_spec parent (claimOn child)) rfl fun _ => ?_
  refine step_holds (nodeLock_spec child 0) (add_zero _).symm fun _ => ?_
  refine step_same (writePage_spec child _) fun _ => ?_
  refine step_same (performSpec_spec cfg child _) fun _ => ?_
  refine step_holds (nodeFullUnlock_spec child 0) rfl fun _ => ?_
  exact Triple.pure fun _ hs => hs

/-! ## How an attempt ends -/

/-- **The outcomes of the exception.**  The specification of the update could not be built directly
after the leaf had been claimed; everywhere else it is built directly after a page was got. -/
def RebuildFailed (met : List Event) : Prop :=
  ∃ addr, SpecFailedAfter addr (.claimed addr true) met

def EndsAttempt : Exit → Thread K → Prop
  | .startOver, s => Holds 0 s
  | .returns _, s => s.held = 0 ↔ ¬ RebuildFailed s.met

private theorem endsAttempt_of_holds {rc : Except PlatformStatus Unit} {s : Thread K}
    (hs : Holds 0 s) : EndsAttempt (.returns rc) s := by
  refine ⟨fun _ => ?_, fun _ => hs.1⟩
  rintro ⟨addr, rest, hmet⟩
  exact hs.2 addr _ hmet

private theorem endsAttempt_of_got {rc : Except PlatformStatus Unit} {s : Thread K}
    {addr addr' : Addr}
    (hs : HoldsWith (SpecFailedAfter addr (.got addr')) 0 s) :
    EndsAttempt (.returns rc) s := by
  obtain ⟨hheld, rest, hmet⟩ := hs
  refine ⟨fun _ => ?_, fun _ => hheld⟩
  rintro ⟨addr'', rest', heq⟩
  rw [hmet] at heq
  exact Event.noConfusion (List.cons.inj (List.cons.inj heq).2).1

private theorem endsAttempt_of_rebuild {rc : Except PlatformStatus Unit} {s : Thread K}
    {addr parent : Addr}
    (hs : HoldsWith (SpecFailedAfter addr (.claimed addr true)) {(parent, .claim)} s) :
    EndsAttempt (.returns rc) s := by
  obtain ⟨hheld, rest, hmet⟩ := hs
  refine ⟨fun hzero => ?_, fun hnot => absurd ⟨addr, rest, hmet⟩ hnot⟩
  rw [hheld] at hzero
  exact absurd hzero (Multiset.singleton_ne_zero _)

/-! ## The end of the descent -/

theorem claimLeaf_spec (child : Addr) (fuel : Nat) (H : Multiset (Addr × Latch)) :
    Triple (Holds (readOn child + H)) (claimLeaf outcomes child fuel)
      fun _ => HoldsAfter (.claimed child true) (claimOn child + H) := by
  induction fuel with
  | zero => exact Triple.throw (by decide)
  | succ fuel ih =>
      refine (nodeClaim_after child H).bind fun claimed => ?_
      cases claimed with
      | true => exact Triple.pure fun _ hs => hs
      | false =>
          refine step_holds (nodeUnget_spec child H) rfl fun _ => ?_
          refine Triple.step (nodeGet_spec child H)
            (fun s hs => HoldsAfter.holds hs fun _ => Event.noConfusion) fun _ => ?_
          refine ih.bind fun _ => ?_
          exact Triple.pure fun _ hs => hs

theorem splitAndInsert_spec (parent : Addr) (childIdx : Nat) (child : Addr)
    (spec : LeafIncorporateSpec K) :
    Triple (Holds (claimOn parent + claimOn child))
      (splitAndInsert cfg outcomes parent childIdx child spec) EndsAttempt := by
  refine (defragmentOrSplitChildLeaf_spec parent childIdx child spec).bind fun done => ?_
  refine Triple.ite (fun _ => ?_) fun _ => Triple.pure fun _ hs => hs
  refine Triple.bind (Q := fun _ => Holds 0) (fun _ hs => hs) fun _ => ?_
  exact Triple.pure fun _ hs => endsAttempt_of_holds hs

variable [LinearOrder K]

theorem claimLeafAndSplit_spec (fuel : Nat) (parent : Addr) (childIdx : Nat) (child : Addr)
    (tupleKey : K) (msg : Message) (spec : LeafIncorporateSpec K) :
    Triple (Holds (claimOn parent + readOn child))
      (claimLeafAndSplit cfg outcomes fuel parent childIdx child tupleKey msg spec) EndsAttempt := by
  refine step_holds (claimLeaf_spec child fuel (claimOn parent)) (add_comm _ _)
    fun needToRebuildSpec => ?_
  refine Triple.ite (fun _ => ?_) fun _ => ?_
  · refine (createSpec_spec child tupleKey msg _ _).bind fun rebuilt => ?_
    cases rebuilt with
    | ok spec =>
        refine (splitAndInsert_spec parent childIdx child spec).weaken (fun s hs => ?_)
          fun _ _ hs => hs
        rw [add_comm]
        exact hs
    | error rc =>
        refine step_holds (nodeUnget_spec parent ({(parent, .claim)} + claimOn child))
          (by simp only [claimOn]; ac_rfl) fun _ => ?_
        refine step_holds (nodeUnclaim_spec child {(parent, .claim)}) (add_comm _ _) fun _ => ?_
        refine step_holds (nodeUnget_spec child {(parent, .claim)}) rfl fun _ => ?_
        exact Triple.pure fun _ hs => endsAttempt_of_rebuild hs
  · refine (splitAndInsert_spec parent childIdx child spec).weaken (fun s hs => ?_) fun _ _ hs => hs
    rw [add_comm]
    exact HoldsAfter.holds hs fun _ => Event.noConfusion

theorem insertIntoLeaf_spec (fuel : Nat) (parent : Addr) (childIdx : Nat) (child : Addr)
    (tupleKey : K) (msg : Message) :
    Triple (HoldsAfter (.got child) (readOn parent + readOn child))
      (insertIntoLeaf cfg outcomes fuel parent childIdx child tupleKey msg) EndsAttempt := by
  refine (createSpec_spec child tupleKey msg _ _).bind fun built => ?_
  cases built with
  | error rc =>
      refine step_holds (nodeUnget_spec parent (readOn child)) rfl fun _ => ?_
      refine step_holds (nodeUnget_spec child 0) (add_zero _).symm fun _ => ?_
      exact Triple.pure fun _ hs => endsAttempt_of_got hs
  | ok spec =>
      refine readPage_spec child fun hdr => ?_
      refine Triple.ite (fun _ => ?_) fun _ => ?_
      · refine step_holds (nodeUnget_spec parent (readOn child)) rfl fun _ => ?_
        refine step_holds (nodeClaim_spec child 0) (add_zero _).symm fun claimed => ?_
        cases claimed with
        | false =>
            refine step_holds (nodeUnget_spec child 0) rfl fun _ => ?_
            exact Triple.pure fun _ hs => hs
        | true =>
            refine step_holds (nodeLock_spec child 0) rfl fun _ => ?_
            refine step_same (performSpec_spec cfg child spec) fun _ => ?_
            refine step_holds (nodeFullUnlock_spec child 0) rfl fun _ => ?_
            refine Triple.bind (Q := fun _ => Holds 0) (fun _ hs => hs) fun _ => ?_
            exact Triple.pure fun _ hs => endsAttempt_of_holds hs
      · refine step_holds (nodeClaim_spec parent (readOn child)) rfl fun claimed => ?_
        cases claimed with
        | true => exact claimLeafAndSplit_spec fuel parent childIdx child tupleKey msg spec
        | false =>
            refine step_holds (nodeUnget_spec parent (readOn child)) rfl fun _ => ?_
            refine step_holds (nodeUnget_spec child 0) (add_zero _).symm fun _ => ?_
            exact Triple.pure fun _ hs => hs

/-! ## The descent -/

theorem insertDescend_spec (fuel : Nat) (tupleKey : K) (msg : Message) (height : Nat)
    (parent : Addr) (childIdx : Nat) (child : Addr) :
    Triple (HoldsAfter (.got child) (readOn parent + readOn child))
      (insertDescend cfg outcomes fuel tupleKey msg height parent childIdx child) EndsAttempt := by
  induction height generalizing parent childIdx child with
  | zero => exact insertIntoLeaf_spec fuel parent childIdx child tupleKey msg
  | succ height ih =>
      cases height with
      | zero => exact insertIntoLeaf_spec fuel parent childIdx child tupleKey msg
      | succ height =>
          refine readPage_spec child fun hdr => ?_
          refine Triple.ite (fun _ => ?_) fun _ => ?_
          · refine Triple.step (nodeClaim_spec parent (readOn child))
              (fun s hs => HoldsAfter.holds hs fun _ => Event.noConfusion) fun parentClaimed => ?_
            cases parentClaimed with
            | false =>
                refine step_holds (nodeUnget_spec parent (readOn child)) rfl fun _ => ?_
                refine step_holds (nodeUnget_spec child 0) (add_zero _).symm fun _ => ?_
                exact Triple.pure fun _ hs => hs
            | true =>
                refine step_holds (nodeClaim_spec child (claimOn parent)) (add_comm _ _)
                  fun childClaimed => ?_
                cases childClaimed with
                | false =>
                    refine step_holds (nodeUnclaim_spec parent (readOn child)) (add_comm _ _)
                      fun _ => ?_
                    refine step_holds (nodeUnget_spec parent (readOn child)) rfl fun _ => ?_
                    refine step_holds (nodeUnget_spec child 0) (add_zero _).symm fun _ => ?_
                    exact Triple.pure fun _ hs => hs
                | true =>
                    refine step_holds (fixChild_spec parent childIdx child tupleKey _)
                      (add_comm _ _) fun r => ?_
                    refine (getChild_spec r.1 r.2).bind fun next => ?_
                    exact ih r.1 r.2 next
          · refine Triple.step (nodeUnget_spec parent (readOn child))
              (fun s hs => HoldsAfter.holds hs fun _ => Event.noConfusion) fun _ => ?_
            refine (getChild_spec child _).bind fun next => ?_
            exact ih child _ next

theorem insertFrom_spec (fuel : Nat) (root : Addr) (childIdx : Nat) (tupleKey : K) (msg : Message) :
    Triple (Holds (readOn root)) (insertFrom cfg outcomes fuel root childIdx tupleKey msg)
      EndsAttempt := by
  refine (getChild_spec root childIdx).bind fun child => ?_
  refine readPage_spec root fun hdr => ?_
  exact insertDescend_spec fuel tupleKey msg hdr.height root childIdx child

theorem insertBelowRoot_spec (fuel : Nat) (root : Addr) (tupleKey : K) (msg : Message) :
    Triple (Holds (readOn root)) (insertBelowRoot cfg outcomes fuel root tupleKey msg)
      EndsAttempt := by
  refine readPage_spec root fun hdr => ?_
  refine Triple.ite (fun _ => ?_) fun _ => insertFrom_spec fuel root _ tupleKey msg
  refine step_holds (nodeClaim_spec root 0) (add_zero _).symm fun claimed => ?_
  cases claimed with
  | false =>
      refine step_holds (nodeUnget_spec root 0) rfl fun _ => ?_
      exact Triple.pure fun _ hs => hs
  | true =>
      refine step_holds (fixRoot_spec root tupleKey _) (add_zero _) fun childIdx => ?_
      exact insertFrom_spec fuel root childIdx tupleKey msg

theorem insertIntoRootLeaf_spec (fuel : Nat) (root : Addr) (tupleKey : K) (msg : Message) :
    Triple (HoldsAfter (.got root) (readOn root))
      (insertIntoRootLeaf cfg outcomes fuel root tupleKey msg) EndsAttempt := by
  refine (createSpec_spec root tupleKey msg _ _).bind fun built => ?_
  cases built with
  | error rc =>
      refine step_holds (nodeUnget_spec root 0) (add_zero _).symm fun _ => ?_
      exact Triple.pure fun _ hs => endsAttempt_of_got hs
  | ok spec =>
      refine step_holds (nodeClaim_spec root 0) (add_zero _).symm fun claimed => ?_
      cases claimed with
      | false =>
          refine step_holds (nodeUnget_spec root 0) rfl fun _ => ?_
          exact Triple.pure fun _ hs => hs
      | true =>
          refine step_holds (nodeLock_spec root 0) rfl fun _ => ?_
          refine step_same (tryPerformSpec_spec cfg root spec) fun incorporated => ?_
          refine Triple.ite (fun _ => ?_) fun _ => ?_
          · refine Triple.bind (Q := fun _ => Holds (writeOn root + 0)) (fun _ hs => hs) fun _ => ?_
            refine step_holds (nodeFullUnlock_spec root 0) rfl fun _ => ?_
            exact Triple.pure fun _ hs => endsAttempt_of_holds hs
          · refine step_same (growRoot_spec root) fun _ => ?_
            refine step_holds (nodeUnlock_spec root 0) rfl fun _ => ?_
            refine step_holds (nodeUnclaim_spec root 0) rfl fun _ => ?_
            rw [add_zero]
            exact insertBelowRoot_spec fuel root tupleKey msg

theorem insertAttempt_spec (fuel : Nat) (root : Addr) (tupleKey : K) (msg : Message) :
    Triple (Holds 0) (insertAttempt cfg outcomes fuel root tupleKey msg) EndsAttempt := by
  refine (nodeGet_after root 0).bind fun _ => ?_
  rw [add_zero]
  refine readPage_spec root fun hdr => ?_
  refine Triple.ite (fun _ => insertIntoRootLeaf_spec fuel root tupleKey msg) fun _ => ?_
  exact (insertBelowRoot_spec fuel root tupleKey msg).weaken
    (fun s hs => HoldsAfter.holds hs fun _ => Event.noConfusion) fun _ _ hs => hs

theorem insertLoop_spec (fuel : Nat) (root : Addr) (tupleKey : K) (msg : Message) :
    Triple (Holds 0) (insertLoop cfg outcomes root tupleKey msg fuel)
      fun rc => EndsAttempt (.returns rc) := by
  induction fuel with
  | zero => exact Triple.throw (by decide)
  | succ fuel ih =>
      refine (insertAttempt_spec fuel root tupleKey msg).bind fun exit => ?_
      cases exit with
      | startOver => exact ih
      | returns rc => exact Triple.pure fun _ hs => hs

theorem btreeInsert_spec (fuel : Nat) (root : Addr) (tupleKey : K) (msg : Message) :
    Triple (Holds 0) (btreeInsert cfg outcomes fuel root tupleKey msg)
      fun rc => EndsAttempt (.returns rc) := by
  refine Triple.ite (fun _ => Triple.pure fun _ hs => endsAttempt_of_holds hs) fun _ => ?_
  refine Triple.ite (fun _ => Triple.pure fun _ hs => endsAttempt_of_holds hs) fun _ => ?_
  refine Triple.ite (fun _ => Triple.pure fun _ hs => endsAttempt_of_holds hs) fun _ => ?_
  exact insertLoop_spec fuel root tupleKey msg

/-! ## The discipline -/

/-- A thread that calls `btree_insert`: it holds nothing on the pages of the tree. -/
def Thread.start (pages : Addr → Page K) : Thread K := ⟨pages, 0, 0, [], 0, false⟩

/-- **Lock discipline** of a run of `btree_insert`: no lock is released that is not held, no claim
is missing where a write lock is taken, and nothing is held on return. -/
def LockDiscipline (r : Except Stop (Except PlatformStatus Unit) × Thread K) : Prop :=
  r.1 ≠ .error .misuse ∧ ∀ rc, r.1 = .ok rc → r.2.held = 0

/-- **The exact condition.**  For every tree, every key and message, and every sequence of outcomes,
an insertion keeps the lock discipline if and only if it does not return because the specification
could not be rebuilt after the leaf had been given up to claim it. -/
theorem lockDiscipline_iff_not_rebuildFailed (cfg : Config K) (outcomes : Outcomes K)
    (pages : Addr → Page K) (fuel : Nat) (root : Addr) (tupleKey : K) (msg : Message) :
    let r := (btreeInsert cfg outcomes fuel root tupleKey msg).runFrom (.start pages)
    LockDiscipline r ↔ ∀ rc, r.1 = .ok rc → ¬ RebuildFailed r.2.met := by
  intro r
  have hstart : Holds 0 (Thread.start pages) :=
    ⟨rfl, fun addr rest h => List.noConfusion rfl (heq_of_eq h)⟩
  have hends : Ends _ r := btreeInsert_spec fuel root tupleKey msg _ hstart
  rcases hr : r with ⟨e | rc, s⟩
  · rw [hr] at hends
    constructor
    · rintro - rc ⟨⟩
    · intro _
      refine ⟨fun h => hends (Except.error.inj h), ?_⟩
      rintro rc ⟨⟩
  · rw [hr] at hends
    constructor
    · intro h _ _
      exact hends.mp (h.2 rc rfl)
    · intro h
      refine ⟨?_, fun _ _ => hends.mpr (h rc rfl)⟩
      rintro ⟨⟩

/-! ## A claim that is left behind -/

section FullLeaf

private def fullCfg : Config Nat := ⟨4096, fun _ => 512⟩

/-- A root of height 1 with one child, a leaf with seven tuples that leave no room for an eighth. -/
private def fullPages : Addr → Page Nat := fun addr =>
  if addr = 0x1000 then
    ⟨0, 0, 0, 0, 1, 3561, [⟨3561, .index ⟨⟨0x2000, pivotStatsUnknown⟩, Key.user 0⟩⟩]⟩
  else
    ⟨0, 0, 0, 7, 0, 470, (List.range 7).map fun i =>
      ⟨4096 - 518 * (i + 1), .leaf ⟨i, ⟨.delete, []⟩⟩⟩⟩

/-- The first claim of the leaf fails, the second succeeds, and there is no memory after that. -/
private def shortOfMemory : Outcomes Nat where
  tryClaim n := n != 4
  initAccumulator n := n == 2
  callbacks _ := ⟨fun _ _ _ => none, fun _ _ => none⟩
  miniAlloc _ := 0x3000
  others _ hdr := hdr

/-- **A failed rebuild leaves the parent claimed.**  A tuple is updated in a full leaf; the leaf
is claimed at the second try, and the memory for the merge accumulator is gone by then. -/
theorem failed_rebuild_keeps_claim :
    ¬ LockDiscipline
      ((btreeInsert fullCfg shortOfMemory 3 0x1000 0 ⟨.insert, [1]⟩).runFrom (.start fullPages)) := by
  intro h
  have hreturn : ((btreeInsert fullCfg shortOfMemory 3 0x1000 0 ⟨.insert, [1]⟩).runFrom
      (.start fullPages)).1 = .ok (.error .noMemory) := by decide +kernel
  have hheld := h.2 _ hreturn
  revert hheld
  decide +kernel

end FullLeaf
end Btree
end TreePass
