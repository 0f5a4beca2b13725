import TreePass.Core.Segments
import Mathlib.Tactic.Common

/-!
# Threads and the segments they have still to read

A lookup walks down the segments, and those it has still to read no longer change; a flush works
on one generation, which nobody else is working on.

* `ThreadInv` says where a thread stands in the history.
* `SharedInv.lookupTurn` and `lookupTrunk`: what a lookup does with it.
* `ThreadInv.frame`: a thread does not notice the steps of others.
-/

namespace TreePass
namespace Core

open Lib Lib.System

variable {K : Type} {cfg : DataConfig K} {C : Components K} {n : Nat}

/-! ## Threads -/

/-- What a lookup of a key returns when the messages of the key, newest first, are `msgs`. -/
def finalFold (cfg : DataConfig K) (k : K) (msgs : List Message) : Option (Option Message) :=
  (foldAll (mergeOp cfg k) msgs).bind fun result => (mergeFinal cfg k result).map normalize

/-- The accumulator of a lookup is the fold of the newer part of what it is to see; `older` is
still to be read. -/
def Split (cfg : DataConfig K) (k : K) (seen : K → List Message → Prop) (result : Option Message)
    (older : List Message) : Prop :=
  ∃ newer, seen k (newer ++ older) ∧ foldAll (mergeOp cfg k) newer = some result ∧
    (∀ m ∈ newer, isUserMessage m) ∧ ∀ m ∈ older, isUserMessage m

/-- The generation to be incorporated next is assigned. -/
structure AtHead (s : StoreState C n) (g : Int) : Prop where
  next : s.ctxt.generationRetired + 1 = g
  toIncorporate : s.ctxt.generationToIncorporate = g
  waiting : g < s.ctxt.generation
  state : (s.ctxt.slot g).state = .incorporationAssigned

def ThreadInv (cfg : DataConfig K) (seg : K → Int → List Message) (old : K → List Message)
    (s : StoreState C n) (seen : K → List Message → Prop) : Pc C → Prop
  | .idle | .compacted _ => True
  | .scanning _ k mtGen mtGenEnd result =>
      mtGenEnd = s.ctxt.generationRetired ∧ mtGenEnd ≤ mtGen ∧ mtGen < s.ctxt.generation ∧
        Split cfg k seen result (gather (seg k) mtGen (mtGen - mtGenEnd).toNat ++ old k)
  | .holding _ k root result =>
      ∃ older, C.trunkMergeLookup root k none = foldAll (mergeOp cfg k) older ∧
        Split cfg k seen result older
  | .returned k result => ∃ msgs, seen k msgs ∧ finalFold cfg k msgs = some result
  | .compacting g tree => s.ctxt.generationRetired < g ∧ g < s.ctxt.generation ∧
      (s.ctxt.slot g).state = .compacting ∧ (s.ctxt.slot g).root = tree
  | .assigned g => AtHead s g
  | .prepared g => AtHead s g ∧ s.modifying = true ∧ ∃ root, s.postRoot = some root ∧
      ∀ k, C.trunkMergeLookup root k none = foldAll (mergeOp cfg k) (seg k g ++ old k)
  | .committed g => s.ctxt.generationRetired = g ∧ s.ctxt.generationToIncorporate = g ∧
      s.modifying = true
  | .continuing g => s.ctxt.generationRetired + 1 = g ∧ s.ctxt.generationToIncorporate + 1 = g

def Pc.incorporates : Pc C → Bool
  | .assigned _ | .prepared _ | .committed _ | .continuing _ => true
  | _ => false

section Lookups

variable {hist : K → List Message} {seg : K → Int → List Message} {old : K → List Message}
  {s : StoreState C n} {seen : K → List Message → Prop}

theorem SharedInv.memtableLookup (h : SharedInv cfg hist seg old s) {g : Int}
    (hlo : s.ctxt.generationRetired < g) (hle : g ≤ s.ctxt.generation) (k : K)
    (result : Option Message) :
    ∃ found, foldAll (mergeOp cfg k) (seg k g) = some found ∧
      coreMemtableLookup cfg s g k result = mergeUnder cfg k result found := by
  have hbound := h.generation_le
  have hslot := h.slot g hlo (by omega)
  refine ⟨_, hslot.content hle k, ?_⟩
  have hget : s.ctxt.getMemtable g = some (s.ctxt.slot g) := if_pos (hslot.generation hle)
  have hok : (s.ctxt.slot g).okToLookup = true := by
    rcases lt_or_eq_of_le hle with hlt | hactive
    · rcases hslot.waiting hlt with hst | hst | hst | hst <;> simp [Memtable.okToLookup, hst]
    · simp [Memtable.okToLookup, hslot.active_ready hactive]
  rw [coreMemtableLookup, hget, Option.bind_some, hok]
  by_cases hpacked : (s.ctxt.slot g).okToLookupCompacted = true
  · obtain ⟨branch, hbranch, hlookup⟩ := hslot.packed hle hpacked
    simp [hpacked, hbranch, hlookup]
  · simp [hpacked]

theorem Split.read (hmerge : MergeAssoc cfg) {k : K} {result result' found : Option Message}
    {part older : List Message} (h : Split cfg k seen result (part ++ older))
    (hfound : foldAll (mergeOp cfg k) part = some found)
    (hmerged : mergeUnder cfg k result found = some result') : Split cfg k seen result' older := by
  obtain ⟨newer, hseen, hfold, hnewer, hrest⟩ := h
  have hpart : ∀ m ∈ part, isUserMessage m := fun m hm => hrest m (List.mem_append_left _ hm)
  refine ⟨newer ++ part, by rwa [List.append_assoc], ?_, ?_,
    fun m hm => hrest m (List.mem_append_right _ hm)⟩
  · rw [foldAll_append_of (hmerge k) hnewer hpart hfold hfound]
    exact hmerged
  · intro m hm
    rcases List.mem_append.mp hm with hm | hm
    · exact hnewer m hm
    · exact hpart m hm

theorem Split.definitive (hmerge : MergeAssoc cfg) {k : K} {result : Option Message}
    {older : List Message} (h : Split cfg k seen result older) (hdef : isDefinitive result = true) :
    ∃ msgs, seen k msgs ∧ finalFold cfg k msgs = some (normalize result) := by
  obtain ⟨newer, hseen, hfold, hnewer, holder⟩ := h
  obtain ⟨m, rfl⟩ : ∃ m, result = some m := by
    cases result with
    | none => cases hdef
    | some m => exact ⟨m, rfl⟩
  obtain ⟨rest, hrest, -⟩ := foldAll_total (hmerge k) holder
  have hkeep : combine (mergeOp cfg k) (some m) rest = some (some m) := by
    have hmdef : m.isDefinitive = true := hdef
    cases rest with
    | none => rfl
    | some older => simp [mergeOp, DataConfig.dataMergeTuples, hmdef]
  refine ⟨_, hseen, ?_⟩
  have hmdef : m.isDefinitive = true := hdef
  rw [finalFold, foldAll_append_of (hmerge k) hnewer holder hfold hrest, hkeep, Option.bind_some,
    mergeFinal, if_pos hmdef, Option.map_some]

theorem SharedInv.lookupTurn (h : SharedInv cfg hist seg old s) (hmerge : MergeAssoc cfg)
    {async : Bool} {k : K} {mtGen : Int} {result : Option Message} {pc : Pc C}
    (hlo : s.ctxt.generationRetired ≤ mtGen) (hhi : mtGen ≤ s.ctxt.generation)
    (hsplit : Split cfg k seen result
      (gather (seg k) mtGen (mtGen - s.ctxt.generationRetired).toNat ++ old k))
    (hturn : coreLookupTurn cfg s async k mtGen s.ctxt.generationRetired result = some pc) :
    ThreadInv cfg seg old s seen pc := by
  by_cases hend : mtGen = s.ctxt.generationRetired
  · rw [coreLookupTurn, if_pos hend, Option.some.injEq] at hturn
    subst hturn
    refine ⟨old k, h.root_eq k, ?_⟩
    rw [hend, Int.sub_self] at hsplit
    exact hsplit
  · rw [coreLookupTurn, if_neg hend] at hturn
    obtain ⟨result', hread, rfl⟩ := Option.map_eq_some_iff.mp hturn
    obtain ⟨found, hfound, hlookup⟩ := h.memtableLookup (by omega) hhi k result
    rw [hlookup] at hread
    rw [gather_first _ (by omega), List.append_assoc] at hsplit
    have hrest := hsplit.read hmerge hfound hread
    split
    · rename_i hdef
      exact hrest.definitive hmerge hdef
    · exact ⟨rfl, by omega, by omega, hrest⟩

theorem lookupTrunk (hmerge : MergeAssoc cfg) (hmeets : Meets cfg C) {async : Bool} {k : K}
    {root : C.Root} {result : Option Message} {pc : Pc C}
    (hinv : ThreadInv cfg seg old s seen (.holding async k root result))
    (htrunk : coreLookupTrunk cfg async k root result = some pc) :
    ThreadInv cfg seg old s seen pc := by
  obtain ⟨older, htrunkValue, newer, hseen, hfold, hnewer, holder⟩ := hinv
  obtain ⟨x, hfoldTotal, huser⟩ := foldAll_total (hmerge k) hnewer
  have hx : AllSome isUserMessage result := by
    rw [hfold, Option.some.injEq] at hfoldTotal
    exact hfoldTotal ▸ huser
  have hlookup : (if async then C.trunkMergeLookupAsync root k result
      else C.trunkMergeLookup root k result) = foldAll (mergeOp cfg k) (newer ++ older) := by
    rw [hmeets.async, ite_self, hmeets.accumulate _ _ _ hx, htrunkValue,
      foldAll_append (hmerge k) hnewer holder, hfold, Option.bind_some]
    rfl
  rw [coreLookupTrunk, hlookup] at htrunk
  obtain ⟨answer, hall, hrest⟩ := Option.bind_eq_some_iff.mp htrunk
  obtain ⟨final, hfinal, rfl⟩ := Option.map_eq_some_iff.mp hrest
  refine ⟨newer ++ older, hseen, ?_⟩
  rw [finalFold, hall, Option.bind_some, hfinal, Option.map_some]

end Lookups

/-! ## Frames -/

/-- The invariant of the store and of all threads. -/
structure StoreInv (cfg : DataConfig K) (hist : K → List Message) (seg : K → Int → List Message)
    (old : K → List Message) (seen : Fin n → K → List Message → Prop) (s : StoreState C n) : Prop where
  shared : SharedInv cfg hist seg old s
  thread : ∀ t, ThreadInv cfg seg old s (seen t) (s.thread t)
  one_incorporator : ∀ t u, (s.thread t).incorporates = true → (s.thread u).incorporates = true → t = u
  one_compactor : ∀ t u g tree tree', s.thread t = .compacting g tree →
    s.thread u = .compacting g tree' → t = u

/-- What a step of another thread leaves alone of what a thread at `pc` relies on. -/
structure Frame (s s' : StoreState C n) (pc : Pc C) : Prop where
  retired : s'.ctxt.generationRetired = s.ctxt.generationRetired
  generation : s.ctxt.generation ≤ s'.ctxt.generation
  compacting : ∀ g tree, pc = .compacting g tree → s.ctxt.generationRetired < g →
    g < s.ctxt.generation → (s.ctxt.slot g).state = .compacting → s'.ctxt.slot g = s.ctxt.slot g
  incorporating : pc.incorporates = true →
    s'.ctxt.generationToIncorporate = s.ctxt.generationToIncorporate ∧ s'.modifying = s.modifying ∧
      s'.postRoot = s.postRoot
  assigned : pc.incorporates = true → ∀ g, s.ctxt.generationRetired < g → g < s.ctxt.generation →
    (s.ctxt.slot g).state = .incorporationAssigned → s'.ctxt.slot g = s.ctxt.slot g

section Frames

variable {hist : K → List Message} {seg seg' : K → Int → List Message} {old : K → List Message}
  {s s' : StoreState C n}

theorem Split.mono {seen seen' : K → List Message → Prop} (hseen : ∀ k msgs, seen k msgs → seen' k msgs)
    {k : K} {result : Option Message} {older : List Message} (h : Split cfg k seen result older) :
    Split cfg k seen' result older := by
  obtain ⟨newer, hold, hrest⟩ := h
  exact ⟨newer, hseen _ _ hold, hrest⟩

theorem AtHead.frame {g : Int} (h : AtHead s g) {pc : Pc C} (hframe : Frame s s' pc)
    (hinc : pc.incorporates = true) : AtHead s' g := by
  obtain ⟨hto, -, -⟩ := hframe.incorporating hinc
  have hslot := hframe.assigned hinc g (by have := h.next; omega) h.waiting h.state
  exact ⟨by rw [hframe.retired]; exact h.next, by rw [hto]; exact h.toIncorporate,
    lt_of_lt_of_le h.waiting hframe.generation, by rw [hslot]; exact h.state⟩

theorem ThreadInv.frame {seen seen' : K → List Message → Prop} {pc : Pc C}
    (h : ThreadInv cfg seg old s seen pc) (hframe : Frame s s' pc)
    (hseg : ∀ k g, g < s.ctxt.generation → seg' k g = seg k g)
    (hseen : ∀ k msgs, seen k msgs → seen' k msgs) : ThreadInv cfg seg' old s' seen' pc := by
  cases pc with
  | idle => trivial
  | compacted g => trivial
  | scanning async k mtGen mtGenEnd result =>
      obtain ⟨hend, hle, hlt, hsplit⟩ := h
      refine ⟨hend.trans hframe.retired.symm, hle, lt_of_lt_of_le hlt hframe.generation, ?_⟩
      rw [gather_congr _ mtGen fun g _ hg => hseg k g (lt_of_le_of_lt hg hlt)]
      exact hsplit.mono hseen
  | holding async k root result =>
      obtain ⟨older, hroot, hsplit⟩ := h
      exact ⟨older, hroot, hsplit.mono hseen⟩
  | returned k result =>
      obtain ⟨msgs, hmsgs, hfinal⟩ := h
      exact ⟨msgs, hseen k msgs hmsgs, hfinal⟩
  | compacting g tree =>
      obtain ⟨hlo, hlt, hstate, htree⟩ := h
      have hslot := hframe.compacting g tree rfl hlo hlt hstate
      exact ⟨by rw [hframe.retired]; exact hlo, lt_of_lt_of_le hlt hframe.generation,
        by rw [hslot]; exact hstate, by rw [hslot]; exact htree⟩
  | assigned g => exact AtHead.frame h hframe rfl
  | prepared g =>
      obtain ⟨hhead, hmodifying, root, hroot, hvalue⟩ := h
      obtain ⟨-, hmod, hpost⟩ := hframe.incorporating rfl
      refine ⟨hhead.frame hframe rfl, hmod.trans hmodifying, root, hpost.trans hroot, fun k => ?_⟩
      rw [hseg k g hhead.waiting]
      exact hvalue k
  | committed g =>
      obtain ⟨hretired, hto, hmodifying⟩ := h
      obtain ⟨hto', hmod, -⟩ := hframe.incorporating rfl
      exact ⟨hframe.retired.trans hretired, hto'.trans hto, hmod.trans hmodifying⟩
  | continuing g =>
      obtain ⟨hretired, hto⟩ := h
      obtain ⟨hto', -, -⟩ := hframe.incorporating rfl
      exact ⟨by rw [hframe.retired]; exact hretired, by rw [hto']; exact hto⟩

theorem StoreInv.move {seen seen' : Fin n → K → List Message → Prop} {hist' : K → List Message}
    (h : StoreInv cfg hist seg old seen s) (t : Fin n) (pc : Pc C)
    (hthread : s'.thread = Function.update s.thread t pc) {old' : K → List Message}
    (hshared : SharedInv cfg hist' seg' old' s') (hown : ThreadInv cfg seg' old' s' (seen' t) pc)
    (hothers : ∀ u, u ≠ t → ThreadInv cfg seg' old' s' (seen' u) (s.thread u))
    (hinc : pc.incorporates = true → (s.thread t).incorporates = true ∨
      ∀ u, u ≠ t → (s.thread u).incorporates = false)
    (hcompacting : ∀ g tree, pc = .compacting g tree → ∀ u, u ≠ t → ∀ tree',
      s.thread u ≠ .compacting g tree') : StoreInv cfg hist' seg' old' seen' s' where
  shared := hshared
  thread u := by
    rw [hthread]
    by_cases hu : u = t
    · subst hu
      rwa [Function.update_self]
    · rw [Function.update_of_ne hu]
      exact hothers u hu
  one_incorporator u v hu hv := by
    rw [hthread] at hu hv
    by_cases hut : u = t <;> by_cases hvt : v = t
    · rw [hut, hvt]
    · subst hut
      rw [Function.update_self] at hu
      rw [Function.update_of_ne hvt] at hv
      rcases hinc hu with hheld | hnone
      · exact h.one_incorporator _ _ hheld hv
      · rw [hnone v hvt] at hv
        cases hv
    · subst hvt
      rw [Function.update_self] at hv
      rw [Function.update_of_ne hut] at hu
      rcases hinc hv with hheld | hnone
      · exact h.one_incorporator _ _ hu hheld
      · rw [hnone u hut] at hu
        cases hu
    · rw [Function.update_of_ne hut] at hu
      rw [Function.update_of_ne hvt] at hv
      exact h.one_incorporator _ _ hu hv
  one_compactor u v g tree tree' hu hv := by
    rw [hthread] at hu hv
    by_cases hut : u = t <;> by_cases hvt : v = t
    · rw [hut, hvt]
    · subst hut
      rw [Function.update_self] at hu
      rw [Function.update_of_ne hvt] at hv
      exact absurd hv (hcompacting g tree hu v hvt tree')
    · subst hvt
      rw [Function.update_self] at hv
      rw [Function.update_of_ne hut] at hu
      exact absurd hu (hcompacting g tree' hv u hut tree)
    · rw [Function.update_of_ne hut] at hu
      rw [Function.update_of_ne hvt] at hv
      exact h.one_compactor _ _ _ _ _ hu hv

end Frames

end Core
end TreePass
