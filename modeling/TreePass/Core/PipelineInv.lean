import TreePass.Core.Pipeline

/-!
# The invariant of the incorporation pipeline

Each of the four slots stands for one generation that is not retired yet.  It holds the memtable
of that generation, in the state its flush task has brought it to, or still the memtable of four
generations earlier, which is incorporated and waits for its last reference to go.

* `Incorporator`: at most one task is inside incorporation, and where it stands.
* `SlotOk`: what a slot holds.
* `PipelineInv` puts them together with the counters; each step of `perform` keeps it, with the
  exception of a task that starts a generation another task has already taken on.
-/

namespace TreePass
namespace Core
namespace Pipeline

open Lib

/-! ## What the invariant says -/

def FlushPc.late (pc : FlushPc) : Prop := pc = .compacted ∨ pc = .done ∨ pc.inside = true

/-- The place of the incorporating task, `done` when there is none. -/
def Incorporator (task : Int → FlushPc) (inc : FlushPc) : Prop :=
  (inc = .done ∧ ∀ t, (task t).inside = false) ∨
    ∃ t, inc.inside = true ∧ task t = inc ∧ ∀ t', (task t').inside = true → t' = t

/-- `generation_to_incorporate` is the oldest generation that is not retired, or, between a commit
and the decision whether to continue, the last retired one. -/
def PhaseOk (s : PipelineState) : FlushPc → Prop
  | .assigned g => g = s.ctxt.generationRetired + 1 ∧ g < s.ctxt.generation ∧
      s.ctxt.generationToIncorporate = g ∧ (s.ctxt.slot g).state = .incorporationAssigned
  | .prepared g => g = s.ctxt.generationRetired + 1 ∧ g < s.ctxt.generation ∧
      s.ctxt.generationToIncorporate = g ∧ (s.ctxt.slot g).state = .incorporationAssigned
  | .committed g => g = s.ctxt.generationRetired ∧ s.ctxt.generationToIncorporate = g
  | .recycling g => g = s.ctxt.generationRetired ∧ s.ctxt.generationToIncorporate = g
  | .continuing g => g = s.ctxt.generationRetired + 1 ∧
      s.ctxt.generationToIncorporate + 1 = g
  | _ => s.ctxt.generationToIncorporate = s.ctxt.generationRetired + 1

/-- The state of a finalized memtable and the place of its flush task fit together.  When the
memtable is compacted and next to be incorporated, its task has still to try to start. -/
def Matches (toIncorporate g : Int) (inc : FlushPc) : MemtableState → FlushPc → Prop
  | .finalized, pc => pc = .finalized ∨ pc = .queued
  | .compacting, pc => pc = .compacting
  | .compacted, pc => pc = .compacted ∨ pc = .done ∧ g ≠ toIncorporate
  | .incorporationAssigned, pc => pc.late ∧ (inc = .assigned g ∨ inc = .prepared g)
  | _, _ => False

/-- The slot of `g` holds the memtable of `g`, and nothing is left of the one before. -/
structure Live (s : PipelineState) (inc : FlushPc) (g : Int) : Prop where
  generation : (s.ctxt.slot g).generation = g
  refs : s.refs (memtableIdx g) = s.held g + 1
  held_before : s.held (g - 4) = 0
  recycled_before : s.recycling (g - 4) = none
  cleaned_before : inc ≠ .committed (g - 4)
  active : s.ctxt.generation ≤ g → (s.ctxt.slot g).state = .ready
  waiting : g < s.ctxt.generation →
    Matches s.ctxt.generationToIncorporate g inc (s.ctxt.slot g).state (s.task g)

/-- The references to the retired memtable of `q`, and how far recycling it is. -/
inductive Remains (s : PipelineState) (inc : FlushPc) (q : Int) : Prop where
  | cleaning (hgen : (s.ctxt.slot q).generation = q) (hrec : s.recycling q = none)
      (hinc : inc = .committed q) (hrefs : s.refs (memtableIdx q) = s.held q + 1)
  | held (hgen : (s.ctxt.slot q).generation = q) (hrec : s.recycling q = none)
      (hinc : inc ≠ .committed q) (hrefs : s.refs (memtableIdx q) = s.held q)
      (hpos : 0 < s.held q)
  | freed (hgen : (s.ctxt.slot q).generation = q) (hrec : s.recycling q = some .freed)
      (hinc : inc ≠ .committed q) (hheld : s.held q = 0)
  | created (hgen : (s.ctxt.slot q).generation = q) (hrec : s.recycling q = some .created)
      (hinc : inc ≠ .committed q) (hheld : s.held q = 0) (hrefs : s.refs (memtableIdx q) = 1)
  | bumped (hgen : (s.ctxt.slot q).generation = q + 4) (hrec : s.recycling q = some .bumped)
      (hinc : inc ≠ .committed q) (hheld : s.held q = 0) (hrefs : s.refs (memtableIdx q) = 1)

/-- What the slot of `g` holds. -/
def SlotOk (s : PipelineState) (inc : FlushPc) (g : Int) : Prop :=
  Live s inc g ∨
    s.ctxt.generation < g ∧ (s.ctxt.slot g).state = .incorporated ∧ Remains s inc (g - 4)

/-- **The invariant.** -/
structure PipelineInv (s : PipelineState) (inc : FlushPc) : Prop where
  not_failed : s.failed = false
  retired_ge : -1 ≤ s.ctxt.generationRetired
  retired_lt : s.ctxt.generationRetired < s.ctxt.generation
  generation_le : s.ctxt.generation ≤ s.ctxt.generationRetired + 4
  incorporator : Incorporator s.task inc
  phase : PhaseOk s inc
  absent : ∀ g, g < 0 ∨ s.ctxt.generation ≤ g → s.task g = .absent
  late : ∀ g, 0 ≤ g → g ≤ s.ctxt.generationRetired → (s.task g).late
  held_window : ∀ g, s.held g ≠ 0 →
    s.ctxt.generationRetired - 4 < g ∧ g ≤ s.ctxt.generation
  recycling_window : ∀ g, s.recycling g ≠ none →
    s.ctxt.generationRetired - 4 < g ∧ g ≤ s.ctxt.generationRetired
  slot : ∀ g, s.ctxt.generationRetired < g → g ≤ s.ctxt.generationRetired + 4 → SlotOk s inc g

theorem Matches.assigned_of_inside {toIncorporate g : Int} {inc pc : FlushPc}
    {state : MemtableState} (h : Matches toIncorporate g inc state pc) (hinside : pc.inside = true) :
    inc = .assigned g ∨ inc = .prepared g := by
  cases state with
  | finalized => rcases h with rfl | rfl <;> cases hinside
  | compacting => cases h; cases hinside
  | compacted => rcases h with rfl | ⟨rfl, -⟩ <;> cases hinside
  | incorporationAssigned => exact h.2
  | _ => exact absurd h (by simp [Matches])

/-! ## Slots and transitions -/

section Transitions

variable {ctxt : MemtableContext Unit} {g : Int}

theorem getMemtable_of_generation (h : (ctxt.slot g).generation = g) :
    ctxt.getMemtable g = some (ctxt.slot g) := by
  rw [MemtableContext.getMemtable, if_pos h]

theorem memtableTransition_eq {old new : MemtableState} (hstate : (ctxt.slot g).state = old)
    (hnext : nextState old = some new) :
    memtableTransition ctxt g old new = some (ctxt.setSlot g ((ctxt.slot g).withState new)) := by
  have htry : memtableTryTransition (ctxt.slot g) old new =
      some (true, (ctxt.slot g).withState new) := by
    rw [memtableTryTransition, if_neg (not_not.mpr hnext), if_pos hstate]
  rw [memtableTransition, htry]

theorem hasCompactedMemtable_eq (hgen : (ctxt.slot g).generation = g)
    (hstate : (ctxt.slot g).state ≠ .ready) : hasCompactedMemtable ctxt g = true := by
  rw [hasCompactedMemtable, getMemtable_of_generation hgen]
  exact bne_iff_ne.mpr hstate

theorem tryAssign_compacted (hstate : (ctxt.slot g).state = .compacted) :
    tryAssign ctxt g =
      some (true, ctxt.setSlot g ((ctxt.slot g).withState .incorporationAssigned)) := by
  have hnext : nextState .compacted = some .incorporationAssigned := rfl
  rw [tryAssign, memtableTryTransition, if_neg (not_not.mpr hnext), if_pos hstate, Option.map_some]

theorem setSlot_slot_self : ctxt.setSlot g (ctxt.slot g) = ctxt := by
  rw [MemtableContext.setSlot, MemtableContext.slot, Function.update_eq_self]

theorem tryAssign_other (hcompacted : (ctxt.slot g).state ≠ .compacted)
    (hassigned : (ctxt.slot g).state ≠ .incorporationAssigned)
    (hincorporating : (ctxt.slot g).state ≠ .incorporating) :
    tryAssign ctxt g = some (false, ctxt) := by
  have hnext : nextState .compacted = some .incorporationAssigned := rfl
  rw [tryAssign, memtableTryTransition, if_neg (not_not.mpr hnext), if_neg hcompacted,
    if_pos ⟨rfl, hassigned, hincorporating⟩, Option.map_some, setSlot_slot_self]

theorem tryAssign_assigned (hassigned : (ctxt.slot g).state = .incorporationAssigned) :
    tryAssign ctxt g = none := by
  have hnext : nextState .compacted = some .incorporationAssigned := rfl
  rw [tryAssign, memtableTryTransition, if_neg (not_not.mpr hnext), hassigned, if_neg (by decide),
    if_neg (by decide), Option.map_none]

theorem memtableIdx_sub_four (g : Int) : memtableIdx (g - 4) = memtableIdx g := by
  rw [← memtableIdx_add (g - 4), Int.sub_add_cancel]

theorem slot_sub_four (g : Int) : ctxt.slot (g - 4) = ctxt.slot g := by
  rw [MemtableContext.slot, MemtableContext.slot, memtableIdx_sub_four]

theorem slot_add_four (g : Int) : ctxt.slot (g + 4) = ctxt.slot g := by
  rw [MemtableContext.slot, MemtableContext.slot, memtableIdx_add]

theorem slot_setSlot_window {r g' : Int} (mt : Memtable Unit) (hlo : r < g) (hhi : g ≤ r + 4)
    (hlo' : r < g') (hhi' : g' ≤ r + 4) (hne : g' ≠ g) :
    (ctxt.setSlot g mt).slot g' = ctxt.slot g' :=
  slot_setSlot_other ctxt mt fun heq => hne (memtableIdx_inj hlo' hhi' hlo hhi heq)

end Transitions

/-! ## The incorporating task -/

section Incorporators

variable {task : Int → FlushPc} {inc pc : FlushPc} {t : Int}

theorem inside_update (t t' : Int) (pc : FlushPc) :
    (Function.update task t pc t').inside = if t' = t then pc.inside else (task t').inside := by
  by_cases h : t' = t
  · rw [if_pos h, h, Function.update_self]
  · rw [if_neg h, Function.update_of_ne h]

theorem Incorporator.outside (h : Incorporator task inc) (hold : (task t).inside = false)
    (hnew : pc.inside = false) : Incorporator (Function.update task t pc) inc := by
  rcases h with ⟨hdone, hnone⟩ | ⟨t₀, hinside, hpc, hone⟩
  · refine Or.inl ⟨hdone, fun t' => ?_⟩
    rw [inside_update]
    split
    · exact hnew
    · exact hnone t'
  · have hne : t₀ ≠ t := by
      rintro rfl
      rw [hpc, hinside] at hold
      cases hold
    refine Or.inr ⟨t₀, hinside, by rw [Function.update_of_ne hne, hpc], fun t' ht' => ?_⟩
    rw [inside_update] at ht'
    split at ht'
    · rw [hnew] at ht'
      cases ht'
    · exact hone t' ht'

theorem Incorporator.start (h : Incorporator task .done) (hnew : pc.inside = true) :
    Incorporator (Function.update task t pc) pc := by
  rcases h with ⟨-, hnone⟩ | ⟨-, hinside, -⟩
  · refine Or.inr ⟨t, hnew, Function.update_self .., fun t' ht' => ?_⟩
    rw [inside_update] at ht'
    split at ht'
    · assumption
    · rw [hnone t'] at ht'
      cases ht'
  · cases hinside

theorem Incorporator.eq (h : Incorporator task inc) (hinside : (task t).inside = true) :
    inc = task t ∧ ∀ t', (task t').inside = true → t' = t := by
  rcases h with ⟨-, hnone⟩ | ⟨t₀, -, hpc, hone⟩
  · rw [hnone t] at hinside
    cases hinside
  · obtain rfl := hone t hinside
    exact ⟨hpc.symm, hone⟩

theorem Incorporator.move (h : Incorporator task inc) (hinside : (task t).inside = true)
    (hnew : pc.inside = true) : Incorporator (Function.update task t pc) pc := by
  obtain ⟨-, hone⟩ := h.eq hinside
  refine Or.inr ⟨t, hnew, Function.update_self .., fun t' ht' => ?_⟩
  rw [inside_update] at ht'
  split at ht'
  · assumption
  · exact hone t' ht'

theorem Incorporator.stop (h : Incorporator task inc) (hinside : (task t).inside = true) :
    Incorporator (Function.update task t .done) .done := by
  obtain ⟨-, hone⟩ := h.eq hinside
  refine Or.inl ⟨rfl, fun t' => ?_⟩
  rw [inside_update]
  split
  · rfl
  · rename_i hne
    exact Bool.eq_false_iff.mpr fun ht' => hne (hone t' ht')

end Incorporators

/-! ## Frames -/

section Frames

variable {s s' : PipelineState} {inc inc' : FlushPc} {g : Int}

/-- What a step leaves alone in a slot. -/
structure SameSlot (s s' : PipelineState) (inc inc' : FlushPc) (g : Int) : Prop where
  slot : s'.ctxt.slot g = s.ctxt.slot g
  refs : s'.refs (memtableIdx g) = s.refs (memtableIdx g)
  held : s'.held g = s.held g
  held_before : s'.held (g - 4) = s.held (g - 4)
  recycling : s'.recycling (g - 4) = s.recycling (g - 4)
  cleaning : inc' = .committed (g - 4) ↔ inc = .committed (g - 4)

theorem Live.frame (h : Live s inc g) (hsame : SameSlot s s' inc inc' g)
    (hactive : s'.ctxt.generation ≤ g ↔ s.ctxt.generation ≤ g)
    (hmatch : ∀ state, (s.ctxt.slot g).state = state →
      Matches s.ctxt.generationToIncorporate g inc state (s.task g) →
        Matches s'.ctxt.generationToIncorporate g inc' state (s'.task g)) : Live s' inc' g where
  generation := by rw [hsame.slot, h.generation]
  refs := by rw [hsame.refs, hsame.held, h.refs]
  held_before := by rw [hsame.held_before, h.held_before]
  recycled_before := by rw [hsame.recycling, h.recycled_before]
  cleaned_before := fun hinc => h.cleaned_before (hsame.cleaning.mp hinc)
  active := fun hle => by rw [hsame.slot, h.active (hactive.mp hle)]
  waiting := fun hlt => by
    rw [hsame.slot]
    exact hmatch _ rfl (h.waiting (lt_of_not_ge fun hle => absurd hlt (not_lt.mpr (hactive.mpr hle))))

theorem Remains.frame (h : Remains s inc (g - 4)) (hsame : SameSlot s s' inc inc' g) :
    Remains s' inc' (g - 4) := by
  have hslot : s'.ctxt.slot (g - 4) = s.ctxt.slot (g - 4) := by
    rw [slot_sub_four, slot_sub_four, hsame.slot]
  have hrefs' : s'.refs (memtableIdx (g - 4)) = s.refs (memtableIdx (g - 4)) := by
    rw [memtableIdx_sub_four, hsame.refs]
  have hinc' : inc ≠ .committed (g - 4) → inc' ≠ .committed (g - 4) := mt hsame.cleaning.mp
  cases h with
  | cleaning hgen hrec hinc hrefs =>
      exact .cleaning (by rw [hslot, hgen]) (by rw [hsame.recycling, hrec])
        (hsame.cleaning.mpr hinc) (by rw [hrefs', hsame.held_before, hrefs])
  | held hgen hrec hinc hrefs hpos =>
      exact .held (by rw [hslot, hgen]) (by rw [hsame.recycling, hrec]) (hinc' hinc)
        (by rw [hrefs', hsame.held_before, hrefs]) (by rw [hsame.held_before]; exact hpos)
  | freed hgen hrec hinc hheld =>
      exact .freed (by rw [hslot, hgen]) (by rw [hsame.recycling, hrec]) (hinc' hinc)
        (by rw [hsame.held_before, hheld])
  | created hgen hrec hinc hheld hrefs =>
      exact .created (by rw [hslot, hgen]) (by rw [hsame.recycling, hrec]) (hinc' hinc)
        (by rw [hsame.held_before, hheld]) (by rw [hrefs', hrefs])
  | bumped hgen hrec hinc hheld hrefs =>
      exact .bumped (by rw [hslot, hgen]) (by rw [hsame.recycling, hrec]) (hinc' hinc)
        (by rw [hsame.held_before, hheld]) (by rw [hrefs', hrefs])

theorem SlotOk.frame (h : SlotOk s inc g) (hsame : SameSlot s s' inc inc' g)
    (hgeneration : s'.ctxt.generation = s.ctxt.generation)
    (hmatch : ∀ state, (s.ctxt.slot g).state = state →
      Matches s.ctxt.generationToIncorporate g inc state (s.task g) →
        Matches s'.ctxt.generationToIncorporate g inc' state (s'.task g)) : SlotOk s' inc' g := by
  rcases h with hlive | ⟨hspare, hstate, hremains⟩
  · exact Or.inl (hlive.frame hsame (by rw [hgeneration]) hmatch)
  · exact Or.inr ⟨by rw [hgeneration]; exact hspare, by rw [hsame.slot, hstate],
      hremains.frame hsame⟩

end Frames

/-! ## What the invariant says about one task -/

section Facts

variable {s : PipelineState} {inc : FlushPc} {g t : Int}

theorem PipelineInv.live (h : PipelineInv s inc) (hlo : s.ctxt.generationRetired < g)
    (hhi : g ≤ s.ctxt.generation) : Live s inc g := by
  have hwindow := h.generation_le
  rcases h.slot g hlo (by omega) with hlive | ⟨hspare, -, -⟩
  · exact hlive
  · omega

theorem PipelineInv.window (h : PipelineInv s inc) (habsent : s.task t ≠ .absent)
    (hlate : ¬ (s.task t).late) : s.ctxt.generationRetired < t ∧ t < s.ctxt.generation := by
  have hstarted : ¬ (t < 0 ∨ s.ctxt.generation ≤ t) := fun hout => habsent (h.absent t hout)
  refine ⟨lt_of_not_ge fun hle => hlate (h.late t (by omega) hle), by omega⟩

theorem PipelineInv.finalized (h : PipelineInv s inc) (habsent : s.task t ≠ .absent) :
    0 ≤ t ∧ t < s.ctxt.generation := by
  have hstarted : ¬ (t < 0 ∨ s.ctxt.generation ≤ t) := fun hout => habsent (h.absent t hout)
  omega

theorem Incorporator.done_or_inside {task : Int → FlushPc} (h : Incorporator task inc) :
    inc = .done ∨ inc.inside = true := by
  rcases h with ⟨hdone, -⟩ | ⟨-, hinside, -⟩
  · exact Or.inl hdone
  · exact Or.inr hinside

theorem PipelineInv.toIncorporate (h : PipelineInv s inc) :
    s.ctxt.generationToIncorporate = s.ctxt.generationRetired ∨
      s.ctxt.generationToIncorporate = s.ctxt.generationRetired + 1 := by
  have hphase := h.phase
  cases inc <;> simp only [PhaseOk] at hphase <;> omega

theorem PipelineInv.incorporated (h : PipelineInv s inc)
    (hlo : s.ctxt.generationRetired - 4 < g) (hhi : g ≤ s.ctxt.generationRetired)
    (hgen : (s.ctxt.slot g).generation = g) : (s.ctxt.slot g).state = .incorporated := by
  rcases h.slot (g + 4) (by omega) (by omega) with hlive | ⟨-, hstate, -⟩
  · have hgen' := hlive.generation
    rw [slot_add_four, hgen] at hgen'
    omega
  · rwa [slot_add_four] at hstate

theorem PipelineInv.phase_of (h : PipelineInv s inc) {pc : FlushPc} (hpc : s.task t = pc)
    (hinside : pc.inside = true) : inc = pc := by
  rw [← hpc] at hinside ⊢
  exact (h.incorporator.eq hinside).1

end Facts

end Pipeline
end Core
end TreePass
