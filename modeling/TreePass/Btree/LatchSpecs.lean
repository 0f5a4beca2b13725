import TreePass.Btree.Latches

/-!
# What the node operations do to what is held

One triple for each operation on a node.  What a thread holds is written as a sum, one summand for
each node in hand: `readOn`, `claimOn` and `writeOn` are the three grades of holding a node, and
an operation changes the grade of its node and leaves the rest of the sum alone.
-/

namespace TreePass
namespace Btree

open Lib Lib.Action

def readOn (addr : Addr) : Multiset (Addr × Latch) := {(addr, .read)}

def claimOn (addr : Addr) : Multiset (Addr × Latch) := readOn addr + {(addr, .claim)}

def writeOn (addr : Addr) : Multiset (Addr × Latch) := claimOn addr + {(addr, .write)}

/-- The last outcome is not a specification that could not be built. -/
def Settled (met : List Event) : Prop := ∀ addr rest, met ≠ .specBuilt addr false :: rest

variable {K : Type} {outcomes : Outcomes K}

/-- The thread holds exactly these latches, and this is known of the outcomes it has met. -/
def HoldsWith (L : List Event → Prop) (held : Multiset (Addr × Latch)) (s : Thread K) : Prop :=
  s.held = held ∧ L s.met

/-- The thread holds exactly these latches and goes on after an outcome that does not end it. -/
abbrev Holds (held : Multiset (Addr × Latch)) : Thread K → Prop := HoldsWith Settled held

abbrev HoldsAfter (event : Event) (held : Multiset (Addr × Latch)) : Thread K → Prop :=
  HoldsWith (fun met => ∃ rest, met = event :: rest) held

variable {held H : Multiset (Addr × Latch)} {L : List Event → Prop} {α β : Type}

theorem HoldsAfter.holds {event : Event} {s : Thread K} (h : HoldsAfter event held s)
    (hevent : ∀ addr, event ≠ .specBuilt addr false) : Holds held s := by
  obtain ⟨hheld, rest, hmet⟩ := h
  refine ⟨hheld, fun addr rest' heq => ?_⟩
  rw [hmet] at heq
  exact hevent addr (List.cons.inj heq).1

theorem step_holds {m : Action (Thread K) α} {f : α → Action (Thread K) β}
    {Q : α → Thread K → Prop} {R : β → Thread K → Prop} (hm : Triple (HoldsWith L held) m Q)
    (hheld : H = held) (hf : ∀ a, Triple (Q a) (f a) R) : Triple (HoldsWith L H) (m >>= f) R := by
  subst hheld
  exact hm.bind hf

theorem step_same {m : Action (Thread K) α} {f : α → Action (Thread K) β}
    {R : β → Thread K → Prop} (hm : ∀ H : Multiset (Addr × Latch), Triple (Holds H) m fun _ => Holds H)
    (hf : ∀ a, Triple (Holds H) (f a) R) : Triple (Holds H) (m >>= f) R :=
  (hm H).bind hf

/-! ## Pages -/

theorem readPage_spec (addr : Addr) {f : Page K → Action (Thread K) β} {P : Thread K → Prop}
    {R : β → Thread K → Prop} (hf : ∀ hdr, Triple P (f hdr) R) :
    Triple P (readPage addr >>= f) R := by
  refine Triple.bind (Q := fun _ => P) ?_ hf
  exact fun s hs => hs

theorem writePage_spec (addr : Addr) (hdr : Page K) (H : Multiset (Addr × Latch)) :
    Triple (Holds H) (writePage addr hdr) fun _ => Holds H := fun _ hs => hs

theorem writePageAsserted_spec (addr : Addr) (hdr : Option (Page K)) (H : Multiset (Addr × Latch)) :
    Triple (Holds H) (writePageAsserted addr hdr) fun _ => Holds H := by
  cases hdr with
  | none => exact Triple.throw (by decide)
  | some hdr => exact writePage_spec addr hdr H

theorem tryPerformSpec_spec (cfg : Config K) (addr : Addr) (spec : LeafIncorporateSpec K)
    (H : Multiset (Addr × Latch)) :
    Triple (Holds H) (tryPerformSpec cfg addr spec) fun _ => Holds H := by
  intro s hs
  rw [tryPerformSpec, runFrom_bind, runFrom_get]
  dsimp only
  cases (s.pages addr).tryPerformLeafIncorporateSpec cfg spec with
  | none => exact hs
  | some r => exact hs

theorem performSpec_spec (cfg : Config K) (addr : Addr) (spec : LeafIncorporateSpec K)
    (H : Multiset (Addr × Latch)) :
    Triple (Holds H) (performSpec cfg addr spec) fun _ => Holds H := by
  refine step_same (tryPerformSpec_spec cfg addr spec) fun incorporated => ?_
  exact Triple.ite (fun _ => Triple.pure fun _ hs => hs) fun _ => Triple.throw (by decide)

/-! ## Locks -/

private theorem release_spec (addr : Addr) (latch : Latch) (H : Multiset (Addr × Latch)) :
    Triple (HoldsWith L (H + {(addr, latch)})) (release addr latch : Action (Thread K) Unit)
      fun _ => HoldsWith L H := by
  rintro s ⟨hheld, hmet⟩
  have hmem : (addr, latch) ∈ s.held := by
    rw [hheld]
    exact Multiset.mem_add.mpr (.inr (Multiset.mem_singleton_self _))
  rw [release, runFrom_bind, runFrom_get]
  simp only [hmem, if_true, runFrom_modify]
  refine ⟨?_, hmet⟩
  change s.held.erase (addr, latch) = H
  rw [hheld, add_comm, Multiset.singleton_add, Multiset.erase_cons_head]

theorem nodeUnlock_spec (addr : Addr) (H : Multiset (Addr × Latch)) :
    Triple (HoldsWith L (writeOn addr + H)) (nodeUnlock addr : Action (Thread K) Unit)
      fun _ => HoldsWith L (claimOn addr + H) := by
  have hsum : writeOn addr + H = claimOn addr + H + {(addr, .write)} := by
    rw [writeOn]
    ac_rfl
  rw [hsum]
  exact release_spec addr .write _

theorem nodeUnclaim_spec (addr : Addr) (H : Multiset (Addr × Latch)) :
    Triple (HoldsWith L (claimOn addr + H)) (nodeUnclaim addr : Action (Thread K) Unit)
      fun _ => HoldsWith L (readOn addr + H) := by
  have hsum : claimOn addr + H = readOn addr + H + {(addr, .claim)} := by
    rw [claimOn]
    ac_rfl
  rw [hsum]
  exact release_spec addr .claim _

theorem nodeUnget_spec (addr : Addr) (H : Multiset (Addr × Latch)) :
    Triple (HoldsWith L (readOn addr + H)) (nodeUnget addr : Action (Thread K) Unit)
      fun _ => HoldsWith L H := by
  rw [readOn, add_comm]
  exact release_spec addr .read H

theorem nodeFullUnlock_spec (addr : Addr) (H : Multiset (Addr × Latch)) :
    Triple (HoldsWith L (writeOn addr + H)) (nodeFullUnlock addr : Action (Thread K) Unit)
      fun _ => HoldsWith L H := by
  refine (nodeUnlock_spec addr H).bind fun _ => ?_
  refine (nodeUnclaim_spec addr H).bind fun _ => ?_
  exact nodeUnget_spec addr H

theorem nodeGet_after (addr : Addr) (H : Multiset (Addr × Latch)) :
    Triple (Holds H) (nodeGet outcomes addr) fun _ => HoldsAfter (.got addr) (readOn addr + H) := by
  rintro s ⟨hheld, -⟩
  rw [nodeGet, runFrom_bind, runFrom_get]
  by_cases hwrite : (addr, Latch.write) ∈ s.held
  · simp only [hwrite, if_true]
    exact Stop.noConfusion
  · simp only [hwrite, if_false, runFrom_modify]
    exact ⟨by rw [← hheld]; rfl, _, rfl⟩

theorem nodeGet_spec (addr : Addr) (H : Multiset (Addr × Latch)) :
    Triple (Holds H) (nodeGet outcomes addr) fun _ => Holds (readOn addr + H) :=
  (nodeGet_after addr H).weaken (fun _ hs => hs) fun _ _ hs => hs.holds fun _ => Event.noConfusion

def claimedOn (addr : Addr) (success : Bool) : Multiset (Addr × Latch) :=
  if success then claimOn addr else readOn addr

theorem nodeClaim_after (addr : Addr) (H : Multiset (Addr × Latch)) :
    Triple (Holds (readOn addr + H)) (nodeClaim outcomes addr)
      fun success => HoldsAfter (.claimed addr success) (claimedOn addr success + H) := by
  rintro s ⟨hheld, -⟩
  have hmem : (addr, Latch.read) ∈ s.held := by
    rw [hheld]
    exact Multiset.mem_add.mpr (.inl (Multiset.mem_singleton_self _))
  rw [nodeClaim, runFrom_bind, runFrom_get]
  simp only [hmem, if_true, runFrom_bind, runFrom_modify, runFrom_pure]
  refine ⟨?_, _, rfl⟩
  generalize (outcomes.tryClaim s.calls && decide ((addr, Latch.claim) ∉ s.held)) = success
  cases success with
  | false => exact hheld
  | true =>
      change {(addr, Latch.claim)} + s.held = claimOn addr + H
      rw [hheld, claimOn]
      ac_rfl

theorem nodeClaim_spec (addr : Addr) (H : Multiset (Addr × Latch)) :
    Triple (Holds (readOn addr + H)) (nodeClaim outcomes addr)
      fun success => Holds (claimedOn addr success + H) :=
  (nodeClaim_after addr H).weaken (fun _ hs => hs) fun _ _ hs => hs.holds fun _ => Event.noConfusion

theorem nodeLock_spec (addr : Addr) (H : Multiset (Addr × Latch)) :
    Triple (Holds (claimOn addr + H)) (nodeLock addr : Action (Thread K) Unit)
      fun _ => Holds (writeOn addr + H) := by
  rintro s ⟨hheld, hmet⟩
  have hmem : (addr, Latch.claim) ∈ s.held := by
    rw [hheld, claimOn]
    simp only [Multiset.mem_add, Multiset.mem_singleton, or_true, true_or]
  rw [nodeLock, runFrom_bind, runFrom_get]
  simp only [hmem, if_true]
  by_cases hwrite : (addr, Latch.write) ∈ s.held
  · simp only [hwrite, if_true]
    exact Stop.noConfusion
  by_cases hreaders : 1 < s.held.count (addr, Latch.read)
  · simp only [hwrite, if_false, hreaders, if_true]
    exact Stop.noConfusion
  · simp only [hwrite, if_false, hreaders, runFrom_modify]
    refine ⟨?_, hmet⟩
    change {(addr, Latch.write)} + s.held = writeOn addr + H
    rw [hheld, writeOn]
    ac_rfl

theorem btreeAlloc_spec (H : Multiset (Addr × Latch)) :
    Triple (Holds H) (btreeAlloc outcomes) fun addr => Holds (writeOn addr + H) := by
  rintro s ⟨hheld, hmet⟩
  refine ⟨?_, hmet⟩
  rw [← hheld]
  rfl

/-! ## Specifications of updates -/

/-- The specification of an update could not be built, directly after another outcome. -/
def SpecFailedAfter (addr : Addr) (event : Event) (met : List Event) : Prop :=
  ∃ rest, met = .specBuilt addr false :: event :: rest

/-- What is known after the specification of an update has been built, or not: `event` was the
last outcome before. -/
def AfterSpec (addr : Addr) (event : Event) (H : Multiset (Addr × Latch)) :
    Except PlatformStatus (LeafIncorporateSpec K) → Thread K → Prop
  | .ok _ => Holds H
  | .error _ => HoldsWith (SpecFailedAfter addr event) H

theorem createSpec_spec [LinearOrder K] (addr : Addr) (tupleKey : K) (msg : Message) (event : Event)
    (H : Multiset (Addr × Latch)) :
    Triple (HoldsAfter event H) (createSpec outcomes addr tupleKey msg) (AfterSpec addr event H) := by
  rintro s ⟨hheld, rest, hmet⟩
  rw [createSpec, runFrom_bind, runFrom_get]
  simp only [runFrom_bind, runFrom_modify, runFrom_pure]
  generalize (s.pages addr).createLeafIncorporateSpec (outcomes.initAccumulator s.calls)
    (outcomes.callbacks s.calls).dataMergeTuples tupleKey msg = spec
  cases spec with
  | error rc => exact ⟨hheld, rest, by rw [← hmet]; rfl⟩
  | ok spec =>
      refine ⟨hheld, fun addr' rest' heq => ?_⟩
      have hhead := (List.cons.inj heq).1
      exact Bool.noConfusion (Event.specBuilt.inj hhead).2

end Btree
end TreePass
