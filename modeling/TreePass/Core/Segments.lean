import TreePass.Core.Store
import Mathlib.Tactic.Common

/-!
# The history of a key, in segments

The messages of a key, newest first, are cut into segments: one for each generation whose
memtable is not in the trunk yet, and what the trunk holds.  Inserting extends the newest segment,
rotating starts a new one, and the commit of an incorporation moves the oldest one under the root;
the whole list only ever grows at its front.

* `Meets` are the specifications of the trees and of the trunk.
* `SharedInv` cuts the history into segments; `SharedInv.insert`, `SharedInv.rotate`,
  `SharedInv.commit` and `SharedInv.recycle` are the steps that change the cut.
-/

namespace TreePass
namespace Core

open Lib Lib.System

variable {K : Type}

/-- The merge of an older message under a newer one, in the order of a lookup. -/
def mergeOp (cfg : DataConfig K) (k : K) (newer older : Message) : Option Message :=
  cfg.dataMergeTuples k older newer

/-- `data_merge_tuples` does not fail on messages of an application and is associative. -/
def MergeAssoc (cfg : DataConfig K) : Prop := ∀ k, AssocOn isUserMessage (mergeOp cfg k)

/-- **Specifications of the components.**  `trunkMergeLookup root k none` is what the trunk holds
for the key. -/
structure Meets (cfg : DataConfig K) (C : Components K) : Prop where
  create : ∀ k, C.btreeLookup C.btreeCreate k = none
  insert : ∀ tree k msg tree', isUserMessage msg → C.btreeInsert tree k msg = some tree' →
    mergeUnder cfg k (some msg) (C.btreeLookup tree k) = some (C.btreeLookup tree' k) ∧
      ∀ k', k' ≠ k → C.btreeLookup tree' k' = C.btreeLookup tree k'
  pack : ∀ tree branch, C.btreePack tree = some branch →
    ∀ k, C.branchLookup branch k = C.btreeLookup tree k
  emptyRoot : ∀ k, C.trunkMergeLookup C.emptyRoot k none = some none
  incorporate : ∀ plan root branch root', C.trunkIncorporatePrepare plan root branch = some root' →
    ∀ k, C.trunkMergeLookup root' k none =
      (C.trunkMergeLookup root k none).bind (mergeUnder cfg k (C.branchLookup branch k))
  modify : ∀ plan root root', C.trunkModify plan root = some root' →
    ∀ k, C.trunkMergeLookup root' k none = C.trunkMergeLookup root k none
  accumulate : ∀ root k acc, AllSome isUserMessage acc → C.trunkMergeLookup root k acc =
    (C.trunkMergeLookup root k none).bind (mergeUnder cfg k acc)
  async : ∀ root k acc, C.trunkMergeLookupAsync root k acc = C.trunkMergeLookup root k acc

/-! ## Segments -/

/-- The segments of the generations `hi`, `hi - 1`, … of a key, `count` of them. -/
def gather (seg : Int → List Message) : Int → Nat → List Message
  | _, 0 => []
  | hi, count + 1 => seg hi ++ gather seg (hi - 1) count

theorem gather_congr {seg seg' : Int → List Message} (count : Nat) :
    ∀ hi : Int, (∀ g, hi - count < g → g ≤ hi → seg g = seg' g) →
      gather seg hi count = gather seg' hi count := by
  induction count with
  | zero => intro hi _; rfl
  | succ count ih =>
      intro hi h
      rw [gather, gather, h hi (by omega) (by omega), ih (hi - 1) fun g hlo hhi => h g (by omega) (by omega)]

theorem gather_snoc (seg : Int → List Message) (count : Nat) :
    ∀ hi : Int, gather seg hi (count + 1) = gather seg hi count ++ seg (hi - count) := by
  induction count with
  | zero => intro hi; simp [gather]
  | succ count ih =>
      intro hi
      rw [gather, ih (hi - 1), gather, List.append_assoc]
      congr 3
      omega

theorem gather_first (seg : Int → List Message) {lo hi : Int} (h : lo < hi) :
    gather seg hi (hi - lo).toNat = seg hi ++ gather seg (hi - 1) (hi - 1 - lo).toNat := by
  have hcount : (hi - lo).toNat = (hi - 1 - lo).toNat + 1 := by omega
  rw [hcount, gather]

theorem mem_gather {seg : Int → List Message} {m : Message} (count : Nat) :
    ∀ hi : Int, m ∈ gather seg hi count → ∃ g, m ∈ seg g := by
  induction count with
  | zero => intro hi hm; cases hm
  | succ count ih =>
      intro hi hm
      rcases List.mem_append.mp hm with hfirst | hrest
      · exact ⟨hi, hfirst⟩
      · exact ih (hi - 1) hrest

/-! ## Slots -/

theorem memtableIdx_inj {r g g' : Int} (hlo : r < g) (hhi : g ≤ r + 4) (hlo' : r < g')
    (hhi' : g' ≤ r + 4) (h : memtableIdx g = memtableIdx g') : g = g' := by
  have hfour : (coreNumMemtables : Int) = 4 := rfl
  rw [memtableIdx, memtableIdx, hfour] at h
  omega

theorem memtableIdx_add (g : Int) : memtableIdx (g + 4) = memtableIdx g := by
  have hfour : (coreNumMemtables : Int) = 4 := rfl
  rw [memtableIdx, memtableIdx, hfour]
  omega

section Slots

variable {Tree : Type} (ctxt : MemtableContext Tree)

@[simp] theorem withState_state (mt : Memtable Tree) (state : MemtableState) :
    (mt.withState state).state = state := rfl

@[simp] theorem withState_generation (mt : Memtable Tree) (state : MemtableState) :
    (mt.withState state).generation = mt.generation := rfl

@[simp] theorem withState_root (mt : Memtable Tree) (state : MemtableState) :
    (mt.withState state).root = mt.root := rfl

@[simp] theorem slot_setSlot (g : Int) (mt : Memtable Tree) : (ctxt.setSlot g mt).slot g = mt := by
  simp [MemtableContext.slot, MemtableContext.setSlot]

theorem slot_setSlot_other {g g' : Int} (mt : Memtable Tree) (h : memtableIdx g' ≠ memtableIdx g) :
    (ctxt.setSlot g mt).slot g' = ctxt.slot g' := by
  simp [MemtableContext.slot, MemtableContext.setSlot, h]

@[simp] theorem setSlot_setSlot (g : Int) (mt mt' : Memtable Tree) :
    (ctxt.setSlot g mt).setSlot g mt' = ctxt.setSlot g mt' := by
  simp [MemtableContext.setSlot]

@[simp] theorem setSlot_generation (g : Int) (mt : Memtable Tree) :
    (ctxt.setSlot g mt).generation = ctxt.generation := rfl

@[simp] theorem setSlot_generationRetired (g : Int) (mt : Memtable Tree) :
    (ctxt.setSlot g mt).generationRetired = ctxt.generationRetired := rfl

@[simp] theorem setSlot_generationToIncorporate (g : Int) (mt : Memtable Tree) :
    (ctxt.setSlot g mt).generationToIncorporate = ctxt.generationToIncorporate := rfl

variable {ctxt}

theorem getMemtable_eq_some {g : Int} {mt : Memtable Tree} (h : ctxt.getMemtable g = some mt) :
    mt = ctxt.slot g ∧ mt.generation = g := by
  rw [MemtableContext.getMemtable, Option.ite_none_right_eq_some, Option.some.injEq] at h
  exact ⟨h.2.symm, h.2 ▸ h.1⟩

/-- **What a transition does**: it finds the memtable of its generation in the old state and
changes nothing but that state. -/
theorem transition_eq_some {g : Int} {old new : MemtableState} {ctxt' : MemtableContext Tree}
    (h : ctxt.transition g old new = some ctxt') :
    (ctxt.slot g).generation = g ∧ (ctxt.slot g).state = old ∧
      ctxt' = ctxt.setSlot g ((ctxt.slot g).withState new) := by
  obtain ⟨mt, hget, hmap⟩ := Option.bind_eq_some_iff.mp h
  obtain ⟨mt', htry, rfl⟩ := Option.map_eq_some_iff.mp hmap
  obtain ⟨rfl, hgen⟩ := getMemtable_eq_some hget
  rw [Memtable.tryTransition, Option.ite_none_right_eq_some, Option.some.injEq] at htry
  exact ⟨hgen, htry.1, by rw [htry.2]⟩

end Slots

/-! ## The shared state -/

variable {cfg : DataConfig K} {C : Components K} {n : Nat}

def MemtableState.Waiting (state : MemtableState) : Prop :=
  state = .finalized ∨ state = .compacting ∨ state = .compacted ∨ state = .incorporationAssigned

/-- The slot of generation `g`, when the active generation is `active`: its memtable and its
packed branch hold the segment, or it is spare. -/
structure SlotInv (cfg : DataConfig K) (C : Components K) (seg : K → Int → List Message)
    (active g : Int) (mt : Memtable C.Tree) (branch : Option C.Branch) : Prop where
  generation : g ≤ active → mt.generation = g
  content : g ≤ active → ∀ k, foldAll (mergeOp cfg k) (seg k g) = some (C.btreeLookup mt.root k)
  active_ready : g = active → mt.state = .ready
  waiting : g < active → mt.state.Waiting
  packed : g ≤ active → mt.okToLookupCompacted = true →
    ∃ b, branch = some b ∧ ∀ k, C.branchLookup b k = C.btreeLookup mt.root k
  spare : active < g → (mt.generation = g ∧ mt.state = .ready ∧ ∀ k, C.btreeLookup mt.root k = none) ∨
    (mt.generation = g - 4 ∧ mt.state = .incorporated)

/-- **The history of every key**, cut into the segments of the memtables and the part of the
trunk. -/
structure SharedInv (cfg : DataConfig K) (hist : K → List Message) (seg : K → Int → List Message)
    (old : K → List Message) (s : StoreState C n) : Prop where
  seg_user : ∀ k g, ∀ m ∈ seg k g, isUserMessage m
  old_user : ∀ k, ∀ m ∈ old k, isUserMessage m
  retired_lt : s.ctxt.generationRetired < s.ctxt.generation
  generation_le : s.ctxt.generation ≤ s.ctxt.generationRetired + 4
  toIncorporate_le : s.ctxt.generationToIncorporate ≤ s.ctxt.generationRetired + 1
  hist_eq : ∀ k, hist k = gather (seg k) s.ctxt.generation
    (s.ctxt.generation - s.ctxt.generationRetired).toNat ++ old k
  root_eq : ∀ k, C.trunkMergeLookup s.root k none = foldAll (mergeOp cfg k) (old k)
  slot : ∀ g, s.ctxt.generationRetired < g → g ≤ s.ctxt.generationRetired + 4 →
    SlotInv cfg C seg s.ctxt.generation g (s.ctxt.slot g) (s.compacted (memtableIdx g))

/-! ## What a step does to the shared state -/

section Steps

variable {hist : K → List Message} {seg : K → Int → List Message} {old : K → List Message}
  {s : StoreState C n}

theorem SharedInv.of_eq (h : SharedInv cfg hist seg old s) {s' : StoreState C n}
    (hctxt : s'.ctxt = s.ctxt) (hcompacted : s'.compacted = s.compacted) (hroot : s'.root = s.root) :
    SharedInv cfg hist seg old s' := by
  obtain ⟨ctxt, compacted, root, postRoot, modifying, thread⟩ := s'
  dsimp only at hctxt hcompacted hroot
  subst hctxt hcompacted hroot
  obtain ⟨hseg, hold, hretired, hgeneration, hto, hhist, hroot, hslot⟩ := h
  exact ⟨hseg, hold, hretired, hgeneration, hto, hhist, hroot, hslot⟩

theorem SharedInv.setSlot (h : SharedInv cfg hist seg old s) {g : Int}
    (hlo : s.ctxt.generationRetired < g) (hhi : g ≤ s.ctxt.generationRetired + 4)
    {mt : Memtable C.Tree} {compacted : Nat → Option C.Branch}
    (hother : ∀ i, i ≠ memtableIdx g → compacted i = s.compacted i)
    (hslot : SlotInv cfg C seg s.ctxt.generation g mt (compacted (memtableIdx g))) :
    SharedInv cfg hist seg old { s with ctxt := s.ctxt.setSlot g mt, compacted := compacted } where
  seg_user := h.seg_user
  old_user := h.old_user
  retired_lt := h.retired_lt
  generation_le := h.generation_le
  toIncorporate_le := h.toIncorporate_le
  hist_eq := h.hist_eq
  root_eq := h.root_eq
  slot g' hlo' hhi' := by
    by_cases hg : g' = g
    · subst hg
      simpa using hslot
    · have hidx : memtableIdx g' ≠ memtableIdx g :=
        fun heq => hg (memtableIdx_inj hlo' hhi' hlo hhi heq)
      have hkept := h.slot g' hlo' hhi'
      change SlotInv cfg C seg s.ctxt.generation g' ((s.ctxt.setSlot g mt).slot g')
        (compacted (memtableIdx g'))
      rwa [slot_setSlot_other _ _ hidx, hother _ hidx]

theorem SlotInv.setState {g active : Int} {mt : Memtable C.Tree} {branch branch' : Option C.Branch}
    (h : SlotInv cfg C seg active g mt branch) (hlt : g < active) {state : MemtableState}
    (hstate : state.Waiting)
    (hpacked : (mt.withState state).okToLookupCompacted = true →
      ∃ b, branch' = some b ∧ ∀ k, C.branchLookup b k = C.btreeLookup mt.root k) :
    SlotInv cfg C seg active g (mt.withState state) branch' where
  generation := h.generation
  content := h.content
  active_ready heq := absurd heq (Int.ne_of_lt hlt)
  waiting _ := hstate
  packed _ := hpacked
  spare hgt := absurd hgt (by omega)

theorem SharedInv.transition (h : SharedInv cfg hist seg old s) {g : Int}
    (hlo : s.ctxt.generationRetired < g) (hlt : g < s.ctxt.generation) (state : MemtableState)
    (hstate : state.Waiting) (compacted : Nat → Option C.Branch)
    (hother : ∀ i, i ≠ memtableIdx g → compacted i = s.compacted i)
    (hpacked : ((s.ctxt.slot g).withState state).okToLookupCompacted = true →
      ∃ b, compacted (memtableIdx g) = some b ∧
        ∀ k, C.branchLookup b k = C.btreeLookup (s.ctxt.slot g).root k) :
    SharedInv cfg hist seg old { s with
      ctxt := s.ctxt.setSlot g ((s.ctxt.slot g).withState state), compacted := compacted } := by
  have hle := h.generation_le
  exact h.setSlot hlo (by omega) hother ((h.slot g hlo (by omega)).setState hlt hstate hpacked)

theorem exists_window (r g : Int) :
    ∃ g', r < g' ∧ g' ≤ r + 4 ∧ memtableIdx g' = memtableIdx g := by
  have hfour : (coreNumMemtables : Int) = 4 := rfl
  refine ⟨r + 1 + (g - r - 1) % 4, by omega, by omega, ?_⟩
  rw [memtableIdx, memtableIdx, hfour]
  omega

theorem SharedInv.live_of_state (h : SharedInv cfg hist seg old s) {g : Int}
    (hgen : (s.ctxt.slot g).generation = g) (hwaiting : (s.ctxt.slot g).state.Waiting) :
    s.ctxt.generationRetired < g ∧ g < s.ctxt.generation := by
  obtain ⟨g', hlo, hhi, hidx⟩ := exists_window s.ctxt.generationRetired g
  have hslot := h.slot g' hlo hhi
  have heq : s.ctxt.slot g' = s.ctxt.slot g := by rw [MemtableContext.slot, hidx]; rfl
  rw [heq] at hslot
  rcases Int.lt_or_le s.ctxt.generation g' with hgt | hle
  · rcases hslot.spare hgt with ⟨-, hready, -⟩ | ⟨-, hincorporated⟩
    · simp [MemtableState.Waiting, hready] at hwaiting
    · simp [MemtableState.Waiting, hincorporated] at hwaiting
  · have hg : g' = g := (hslot.generation hle).symm.trans hgen
    subst hg
    refine ⟨hlo, lt_of_le_of_ne hle fun hactive => ?_⟩
    simp [MemtableState.Waiting, hslot.active_ready hactive] at hwaiting

/-- The segments after a message for `k` in generation `g`. -/
def pushSeg [DecidableEq K] (seg : K → Int → List Message) (k : K) (g : Int) (msg : Message) :
    K → Int → List Message :=
  fun k' g' => if k' = k ∧ g' = g then msg :: seg k' g' else seg k' g'

theorem SlotInv.congr {seg' : K → Int → List Message} {active g : Int} {mt : Memtable C.Tree}
    {branch : Option C.Branch} (h : SlotInv cfg C seg active g mt branch)
    (heq : g ≤ active → ∀ k, seg' k g = seg k g) : SlotInv cfg C seg' active g mt branch where
  generation := h.generation
  content hle k := by rw [heq hle k]; exact h.content hle k
  active_ready := h.active_ready
  waiting := h.waiting
  packed := h.packed
  spare := h.spare

theorem SharedInv.insert [DecidableEq K] (h : SharedInv cfg hist seg old s)
    (hmerge : MergeAssoc cfg) (hmeets : Meets cfg C) {k : K} {msg : Message}
    {s' : StoreState C n} (hinsert : coreMemtableInsert s k msg = some s') :
    SharedInv cfg (fun k' => if k' = k then msg :: hist k' else hist k')
        (pushSeg seg k s.ctxt.generation msg) old s' ∧
      ∃ mt, s' = { s with ctxt := s.ctxt.setSlot s.ctxt.generation mt } := by
  have hlt := h.retired_lt
  have hle := h.generation_le
  rw [coreMemtableInsert, Option.ite_none_right_eq_some] at hinsert
  obtain ⟨⟨huser, hready⟩, hrest⟩ := hinsert
  obtain ⟨mt, hget, hmap⟩ := Option.bind_eq_some_iff.mp hrest
  obtain ⟨root, htree, rfl⟩ := Option.map_eq_some_iff.mp hmap
  obtain ⟨rfl, hgen⟩ := getMemtable_eq_some hget
  refine ⟨?_, _, rfl⟩
  obtain ⟨hnew, hkept⟩ := hmeets.insert _ _ _ _ huser htree
  have hslot := h.slot s.ctxt.generation hlt (by omega)
  have hsame : ∀ k' g, g ≠ s.ctxt.generation → pushSeg seg k s.ctxt.generation msg k' g = seg k' g :=
    fun k' g hg => if_neg fun hboth => hg hboth.2
  have hcontent : ∀ k', foldAll (mergeOp cfg k') (pushSeg seg k s.ctxt.generation msg k'
      s.ctxt.generation) = some (C.btreeLookup root k') := by
    intro k'
    have hbefore := hslot.content (Int.le_refl _) k'
    by_cases hk : k' = k
    · subst hk
      have hsingle : foldAll (mergeOp cfg k') [msg] = some (some msg) := rfl
      have hcons := foldAll_append_of (hmerge k') (by simpa using huser) (h.seg_user k' _) hsingle hbefore
      rw [pushSeg, if_pos ⟨rfl, rfl⟩, ← List.singleton_append, hcons]
      exact hnew
    · rw [pushSeg, if_neg fun hboth => hk hboth.1, hbefore, hkept k' hk]
  refine ⟨?_, h.old_user, hlt, hle, h.toIncorporate_le, ?_, h.root_eq, ?_⟩
  · intro k' g m hm
    rw [pushSeg] at hm
    split at hm
    · rcases List.mem_cons.mp hm with rfl | hrest
      · exact huser
      · exact h.seg_user k' g m hrest
    · exact h.seg_user k' g m hm
  · intro k'
    have hrest : ∀ count, gather (pushSeg seg k s.ctxt.generation msg k') (s.ctxt.generation - 1) count =
        gather (seg k') (s.ctxt.generation - 1) count :=
      fun count => gather_congr count _ fun g _ hhi => hsame k' g (by omega)
    change (if k' = k then msg :: hist k' else hist k') = gather _ s.ctxt.generation
      (s.ctxt.generation - s.ctxt.generationRetired).toNat ++ old k'
    have hbefore := h.hist_eq k'
    rw [gather_first _ hlt] at hbefore ⊢
    rw [hrest]
    by_cases hk : k' = k
    · rw [if_pos hk, pushSeg, if_pos ⟨hk, rfl⟩, hbefore]
      rfl
    · rw [if_neg hk, pushSeg, if_neg fun hboth => hk hboth.1, hbefore]
  · intro g hlo hhi
    change s.ctxt.generationRetired < g at hlo
    change g ≤ s.ctxt.generationRetired + 4 at hhi
    by_cases hg : g = s.ctxt.generation
    · subst hg
      change SlotInv cfg C _ s.ctxt.generation s.ctxt.generation ((s.ctxt.setSlot _ _).slot _) _
      rw [slot_setSlot]
      refine ⟨hslot.generation, fun _ => hcontent, hslot.active_ready, hslot.waiting, ?_,
        fun hgt => absurd hgt (Int.lt_irrefl _)⟩
      intro _ hpacked
      simp [Memtable.okToLookupCompacted, hready] at hpacked
    · have hidx : memtableIdx g ≠ memtableIdx s.ctxt.generation :=
        fun heq => hg (memtableIdx_inj hlo hhi hlt (by omega) heq)
      change SlotInv cfg C _ s.ctxt.generation g ((s.ctxt.setSlot _ _).slot g) _
      rw [slot_setSlot_other _ _ hidx]
      exact (h.slot g hlo hhi).congr fun _ k' => hsame k' g hg

def startSeg (seg : K → Int → List Message) (g : Int) : K → Int → List Message :=
  fun k g' => if g' = g then [] else seg k g'

theorem SharedInv.rotate (h : SharedInv cfg hist seg old s) {s' : StoreState C n}
    (hrotate : memtableRotate s = some s') :
    SharedInv cfg hist (startSeg seg (s.ctxt.generation + 1)) old s' ∧
      ∃ mt, s' = { s with ctxt :=
        { s.ctxt.setSlot s.ctxt.generation mt with generation := s.ctxt.generation + 1 } } := by
  have hlt := h.retired_lt
  have hle := h.generation_le
  rw [memtableRotate, Option.ite_none_right_eq_some] at hrotate
  obtain ⟨hnext, hrest⟩ := hrotate
  obtain ⟨mt, htry, hrest⟩ := Option.bind_eq_some_iff.mp hrest
  rw [Memtable.tryTransition, Option.ite_none_right_eq_some, Option.some.injEq] at htry
  rw [Option.ite_none_right_eq_some, Option.some.injEq] at hrest
  obtain ⟨-, rfl⟩ := htry
  obtain ⟨hroom, rfl⟩ := hrest
  have hfour : (coreNumMemtables : Int) = 4 := rfl
  rw [hfour] at hroom
  refine ⟨?_, _, rfl⟩
  have hold : ∀ k g, g ≤ s.ctxt.generation → startSeg seg (s.ctxt.generation + 1) k g = seg k g :=
    fun k g hg => if_neg (by omega)
  refine ⟨?_, h.old_user, ?_, ?_, h.toIncorporate_le, ?_, h.root_eq, ?_⟩
  · intro k g m hm
    rw [startSeg] at hm
    split at hm
    · cases hm
    · exact h.seg_user k g m hm
  · change s.ctxt.generationRetired < s.ctxt.generation + 1
    omega
  · change s.ctxt.generation + 1 ≤ s.ctxt.generationRetired + 4
    omega
  · intro k
    change hist k = gather _ (s.ctxt.generation + 1)
      (s.ctxt.generation + 1 - s.ctxt.generationRetired).toNat ++ old k
    rw [gather_first _ (by omega), startSeg, if_pos rfl, List.nil_append, Int.add_sub_cancel,
      h.hist_eq k]
    congr 1
    exact gather_congr _ _ fun g _ hg => (hold k g hg).symm
  · intro g hlo hhi
    change s.ctxt.generationRetired < g at hlo
    change g ≤ s.ctxt.generationRetired + 4 at hhi
    have hslot := h.slot g hlo hhi
    by_cases hg : g = s.ctxt.generation
    · subst hg
      change SlotInv cfg C _ (s.ctxt.generation + 1) s.ctxt.generation
        ((s.ctxt.setSlot _ _).slot _) _
      rw [slot_setSlot]
      refine ⟨fun _ => hslot.generation (Int.le_refl _), fun _ k => ?_, fun heq => by omega,
        fun _ => Or.inl rfl, fun _ hpacked => ?_, fun hgt => by omega⟩
      · rw [hold k _ (Int.le_refl _)]
        exact hslot.content (Int.le_refl _) k
      · simp [Memtable.okToLookupCompacted] at hpacked
    · have hidx : memtableIdx g ≠ memtableIdx s.ctxt.generation :=
        fun heq => hg (memtableIdx_inj hlo hhi hlt (by omega) heq)
      change SlotInv cfg C _ (s.ctxt.generation + 1) g ((s.ctxt.setSlot _ _).slot g) _
      rw [slot_setSlot_other _ _ hidx]
      by_cases hnew : g = s.ctxt.generation + 1
      · -- The new active memtable is spare and ready, so it is empty.
        subst hnew
        rcases hslot.spare (by omega) with ⟨hgen, hready, hempty⟩ | ⟨-, hincorporated⟩
        · refine ⟨fun _ => hgen, fun _ k => ?_, fun _ => hready, fun hlt => by omega,
            fun _ hpacked => ?_, fun hgt => by omega⟩
          · rw [startSeg, if_pos rfl, hempty k]
            rfl
          · simp [Memtable.okToLookupCompacted, hready] at hpacked
        · rw [hincorporated] at hnext
          cases hnext
      · refine ⟨fun hle => hslot.generation (by omega), fun hle k => ?_, fun heq => absurd heq hnew,
          fun hlt => hslot.waiting (by omega), fun hle => hslot.packed (by omega),
          fun hgt => hslot.spare (by omega)⟩
        rw [hold k g (by omega)]
        exact hslot.content (by omega) k

theorem SharedInv.commit (h : SharedInv cfg hist seg old s) {g : Int} {s' : StoreState C n}
    (hcommit : coreMemtableCommit s g = some s')
    (hpost : ∀ root, s.postRoot = some root → ∀ k,
      C.trunkMergeLookup root k none = foldAll (mergeOp cfg k) (seg k g ++ old k)) :
    SharedInv cfg hist seg (fun k => seg k g ++ old k) s' ∧
      (∀ t, (s.thread t).holdsLookupLock = false) ∧ s.ctxt.generationRetired + 1 = g ∧
      ∃ mt root, s' = { s with
        ctxt := { s.ctxt.setSlot g mt with generationRetired := g }, root := root, postRoot := none } := by
  have hlt := h.retired_lt
  have hle := h.generation_le
  rw [coreMemtableCommit, Option.ite_none_right_eq_some] at hcommit
  obtain ⟨⟨hlock, hnext⟩, hrest⟩ := hcommit
  obtain ⟨ctxt, hfirst, hrest⟩ := Option.bind_eq_some_iff.mp hrest
  obtain ⟨ctxt', hsecond, hrest⟩ := Option.bind_eq_some_iff.mp hrest
  obtain ⟨root, hroot, rfl⟩ := Option.map_eq_some_iff.mp hrest
  obtain ⟨hgen, hassigned, rfl⟩ := transition_eq_some hfirst
  obtain ⟨-, -, rfl⟩ := transition_eq_some hsecond
  obtain ⟨-, hwaiting⟩ := h.live_of_state hgen (by rw [hassigned]; simp [MemtableState.Waiting])
  subst hnext
  simp only [setSlot_setSlot, slot_setSlot, setSlot_generationRetired]
  refine ⟨?_, hlock, trivial, _, _, rfl⟩
  refine ⟨h.seg_user, ?_, hwaiting, ?_, ?_, ?_, hpost root hroot, ?_⟩
  · intro k m hm
    rcases List.mem_append.mp hm with hseg | hold
    · exact h.seg_user k _ m hseg
    · exact h.old_user k m hold
  · change s.ctxt.generation ≤ s.ctxt.generationRetired + 1 + 4
    omega
  · have hto := h.toIncorporate_le
    change s.ctxt.generationToIncorporate ≤ s.ctxt.generationRetired + 1 + 1
    omega
  · intro k
    change hist k = gather (seg k) s.ctxt.generation
      (s.ctxt.generation - (s.ctxt.generationRetired + 1)).toNat ++ _
    have hcount : (s.ctxt.generation - s.ctxt.generationRetired).toNat =
        (s.ctxt.generation - (s.ctxt.generationRetired + 1)).toNat + 1 := by omega
    have hlast : s.ctxt.generation - ((s.ctxt.generation - (s.ctxt.generationRetired + 1)).toNat : Int) =
        s.ctxt.generationRetired + 1 := by omega
    rw [h.hist_eq k, hcount, gather_snoc, hlast, List.append_assoc]
  · intro g hlo hhi
    change s.ctxt.generationRetired + 1 < g at hlo
    change g ≤ s.ctxt.generationRetired + 1 + 4 at hhi
    change SlotInv cfg C seg s.ctxt.generation g ((s.ctxt.setSlot _ _).slot g) _
    by_cases hg : g = s.ctxt.generationRetired + 1 + 4
    · -- The slot of the incorporated memtable becomes the last one of the window.
      subst hg
      have hsame : ∀ c : MemtableContext C.Tree,
          c.slot (s.ctxt.generationRetired + 1 + 4) = c.slot (s.ctxt.generationRetired + 1) := by
        intro c
        rw [MemtableContext.slot, memtableIdx_add]
        rfl
      rw [hsame, slot_setSlot]
      refine ⟨fun hle' => by omega, fun hle' => by omega, fun heq => by omega, fun hlt' => by omega,
        fun hle' => by omega, fun _ => Or.inr ⟨?_, rfl⟩⟩
      change (s.ctxt.slot (s.ctxt.generationRetired + 1)).generation = _
      rw [hgen]
      omega
    · have hidx : memtableIdx g ≠ memtableIdx (s.ctxt.generationRetired + 1) := by
        intro heq
        have := memtableIdx_inj (r := s.ctxt.generationRetired) (by omega) (by omega) (by omega) (by omega) heq
        omega
      rw [slot_setSlot_other _ _ hidx]
      exact h.slot g (by omega) (by omega)

theorem SharedInv.recycle (h : SharedInv cfg hist seg old s) (hmeets : Meets cfg C) {g : Int}
    {s' : StoreState C n} (hrecycle : memtableRecycle s g = some s') :
    SharedInv cfg hist seg old s' ∧ s.ctxt.generation < g + 4 ∧ g ≤ s.ctxt.generationRetired ∧
      ∃ mt, s' = { s with ctxt := s.ctxt.setSlot g mt } := by
  obtain ⟨mt, hget, hrest⟩ := Option.bind_eq_some_iff.mp hrecycle
  obtain ⟨rfl, hgen⟩ := getMemtable_eq_some hget
  rw [Option.ite_none_right_eq_some, Option.some.injEq] at hrest
  obtain ⟨hstate, rfl⟩ := hrest
  obtain ⟨g', hlo, hhi, hidx⟩ := exists_window s.ctxt.generationRetired g
  have hslot := h.slot g' hlo hhi
  have heq : s.ctxt.slot g' = s.ctxt.slot g := by rw [MemtableContext.slot, hidx]; rfl
  rw [heq] at hslot
  have hgt : s.ctxt.generation < g' := by
    by_contra hle
    rcases lt_or_eq_of_le (not_lt.mp hle) with hlt | hactive
    · have hwaiting := hslot.waiting hlt
      simp [MemtableState.Waiting, hstate] at hwaiting
    · have hready := hslot.active_ready hactive
      rw [hready] at hstate
      cases hstate
  have hg' : g' = g + 4 := by
    rcases hslot.spare hgt with ⟨-, hready, -⟩ | ⟨hold, -⟩
    · rw [hready] at hstate
      cases hstate
    · omega
  subst hg'
  refine ⟨?_, hgt, by omega, _, rfl⟩
  have hset : ∀ mt, s.ctxt.setSlot g mt = s.ctxt.setSlot (g + 4) mt := by
    intro mt
    rw [MemtableContext.setSlot, MemtableContext.setSlot, memtableIdx_add]
  rw [hset]
  refine h.setSlot hlo hhi (fun _ _ => rfl) ⟨fun hle => by omega, fun hle => by omega,
    fun heq => by omega, fun hlt => by omega, fun hle => by omega, fun _ => Or.inl ⟨?_, rfl, hmeets.create⟩⟩
  change (s.ctxt.slot g).generation + coreNumMemtables = g + 4
  rw [hgen]
  rfl

theorem SharedInv.modify (h : SharedInv cfg hist seg old s) (hmeets : Meets cfg C) {plan : C.Plan}
    {root : C.Root} (hmodify : C.trunkModify plan s.root = some root) :
    SharedInv cfg hist seg old { s with root := root } where
  seg_user := h.seg_user
  old_user := h.old_user
  retired_lt := h.retired_lt
  generation_le := h.generation_le
  toIncorporate_le := h.toIncorporate_le
  hist_eq := h.hist_eq
  root_eq k := (hmeets.modify _ _ _ hmodify k).trans (h.root_eq k)
  slot := h.slot

theorem sharedInv_newStore (hmeets : Meets cfg C) :
    SharedInv cfg (fun _ => []) (fun _ _ => []) (fun _ => []) (newStore C n) := by
  have hretired : (newStore C n).ctxt.generationRetired = -1 := rfl
  have hactive : (newStore C n).ctxt.generation = 0 := rfl
  have hto : (newStore C n).ctxt.generationToIncorporate = 0 := rfl
  refine ⟨fun _ _ _ hm => (List.not_mem_nil hm).elim, fun _ _ hm => (List.not_mem_nil hm).elim,
    by omega, by omega, by omega, fun _ => rfl, hmeets.emptyRoot, ?_⟩
  intro g hlo hhi
  have hfour : (coreNumMemtables : Int) = 4 := rfl
  have hgen : ((newStore C n).ctxt.slot g).generation = g := by
    change ((memtableIdx g : Nat) : Int) = g
    rw [memtableIdx, hfour]
    omega
  refine ⟨fun _ => hgen, fun _ k => ?_, fun _ => rfl, fun hlt => by omega, fun _ hpacked => ?_,
    fun _ => Or.inl ⟨hgen, rfl, hmeets.create⟩⟩
  · rw [foldAll_nil]
    exact congrArg some (hmeets.create k).symm
  · cases hpacked

end Steps

end Core
end TreePass
