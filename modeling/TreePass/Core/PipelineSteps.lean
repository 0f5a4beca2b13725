import TreePass.Core.PipelineInv
import Mathlib.Tactic.Common

/-!
# The steps of the incorporation pipeline

One lemma for each critical section: from a state that meets the invariant its assertions pass and
it leads to a state that meets the invariant again.

* `PipelineInv.rotate`, `PipelineInv.acquire`, `PipelineInv.release` and `PipelineInv.recycle` are
  the steps outside the flush tasks.
* `PipelineInv.flush` is every critical section of a flush task; only a task that starts a
  generation which is taken on already fails an assertion (`PipelineInv.start_fails`).
-/

namespace TreePass
namespace Core
namespace Pipeline

open Lib

def Keeps (r : Option PipelineState) : Prop := ∃ s' inc', r = some s' ∧ PipelineInv s' inc'

variable {s : PipelineState} {inc : FlushPc} {g t : Int}

/-! ## Tasks outside incorporation -/

theorem PipelineInv.moves (h : PipelineInv s inc) (ctxt : MemtableContext Unit) {inc' pc : FlushPc}
    (hstarted : s.task t ≠ .absent) (hgeneration : ctxt.generation = s.ctxt.generation)
    (hretired : ctxt.generationRetired = s.ctxt.generationRetired)
    (hlate : t ≤ s.ctxt.generationRetired → pc.late)
    (hincorporator : Incorporator (Function.update s.task t pc) inc')
    (hphase : PhaseOk (s.setCtxt ctxt) inc')
    (hslot : ∀ g, s.ctxt.generationRetired < g → g ≤ s.ctxt.generationRetired + 4 →
      SlotOk ((s.setCtxt ctxt).goto t pc) inc' g) :
    PipelineInv ((s.setCtxt ctxt).goto t pc) inc' := by
  obtain ⟨hnonneg, hlt⟩ := h.finalized hstarted
  have hretired' : ((s.setCtxt ctxt).goto t pc).ctxt.generationRetired = s.ctxt.generationRetired :=
    hretired
  have hgeneration' : ((s.setCtxt ctxt).goto t pc).ctxt.generation = s.ctxt.generation := hgeneration
  refine
    { not_failed := h.not_failed
      retired_ge := hretired' ▸ h.retired_ge
      retired_lt := by rw [hretired', hgeneration']; exact h.retired_lt
      generation_le := by rw [hretired', hgeneration']; exact h.generation_le
      incorporator := hincorporator
      phase := by cases inc' <;> exact hphase
      absent := fun g hg => ?_
      late := fun g hg hle => ?_
      held_window := by rw [hretired', hgeneration']; exact h.held_window
      recycling_window := by rw [hretired']; exact h.recycling_window
      slot := fun g hlo hhi => hslot g (hretired' ▸ hlo) (hretired' ▸ hhi) }
  · rw [hgeneration'] at hg
    rw [goto_task_of_ne (by omega)]
    exact h.absent g hg
  · rw [hretired'] at hle
    by_cases hne : g = t
    · subst hne
      rw [goto_task_self]
      exact hlate hle
    · rw [goto_task_of_ne hne]
      exact h.late g hg hle

theorem PipelineInv.goto_outside (h : PipelineInv s inc) {pc : FlushPc}
    (habsent : s.task t ≠ .absent) (hold : (s.task t).inside = false) (hnew : pc.inside = false)
    (hlate : t ≤ s.ctxt.generationRetired → pc.late)
    (hmatch : s.ctxt.generationRetired < t → ∀ state, (s.ctxt.slot t).state = state →
      Matches s.ctxt.generationToIncorporate t inc state (s.task t) →
        Matches s.ctxt.generationToIncorporate t inc state pc) : PipelineInv (s.goto t pc) inc := by
  refine h.moves s.ctxt habsent rfl rfl hlate (h.incorporator.outside hold hnew) h.phase
    fun g hlo hhi => (h.slot g hlo hhi).frame ⟨rfl, rfl, rfl, rfl, rfl, Iff.rfl⟩ rfl
      fun state hstate => ?_
  change _ → Matches s.ctxt.generationToIncorporate g inc state ((s.goto t pc).task g)
  by_cases hg : g = t
  · subst hg
    rw [goto_task_self]
    exact hmatch hlo state hstate
  · rw [goto_task_of_ne hg]
    exact id

theorem PipelineInv.advance (h : PipelineInv s inc) (pc : FlushPc) (state : MemtableState)
    (hlo : s.ctxt.generationRetired < t) (hhi : t < s.ctxt.generation)
    (hold : (s.task t).inside = false) (hnew : pc.inside = false)
    (hstate : (s.ctxt.slot t).state ≠ .incorporationAssigned)
    (hmatch : Matches s.ctxt.generationToIncorporate t inc state pc) :
    PipelineInv ((s.setCtxt (s.ctxt.setSlot t ((s.ctxt.slot t).withState state))).goto t pc)
      inc := by
  have hwindow := h.generation_le
  have hlive := h.live hlo (by omega)
  have hother : ∀ g, s.ctxt.generationRetired < g → g ≤ s.ctxt.generationRetired + 4 → g ≠ t →
      (s.ctxt.setSlot t ((s.ctxt.slot t).withState state)).slot g = s.ctxt.slot g :=
    fun g hglo hghi hne => slot_setSlot_window _ hlo (by omega) hglo hghi hne
  have hstarted : s.task t ≠ .absent := by
    intro habsent
    have hwaiting := hlive.waiting hhi
    rw [habsent] at hwaiting
    cases hslot : (s.ctxt.slot t).state <;> rw [hslot] at hwaiting <;>
      simp_all [Matches, FlushPc.late, FlushPc.inside]
  refine h.moves _ hstarted rfl rfl (fun hle => by omega) (h.incorporator.outside hold hnew) ?_
    fun g hglo hghi => ?_
  · have hphase := h.phase
    have hassigned : ∀ g, g = s.ctxt.generationRetired + 1 → g < s.ctxt.generation →
        (s.ctxt.slot g).state = .incorporationAssigned →
        ((s.ctxt.setSlot t ((s.ctxt.slot t).withState state)).slot g).state =
          .incorporationAssigned := by
      intro g hg hlt hslot
      rw [hother g (by omega) (by omega) (by rintro rfl; exact hstate hslot)]
      exact hslot
    cases inc with
    | assigned g => exact ⟨hphase.1, hphase.2.1, hphase.2.2.1, hassigned g hphase.1 hphase.2.1 hphase.2.2.2⟩
    | prepared g => exact ⟨hphase.1, hphase.2.1, hphase.2.2.1, hassigned g hphase.1 hphase.2.1 hphase.2.2.2⟩
    | _ => exact hphase
  · by_cases hg : g = t
    · subst hg
      refine Or.inl
        { generation := ?_
          refs := hlive.refs
          held_before := hlive.held_before
          recycled_before := hlive.recycled_before
          cleaned_before := hlive.cleaned_before
          active := fun hle => absurd hhi (not_lt.mpr hle)
          waiting := fun _ => ?_ }
      · change ((s.ctxt.setSlot g ((s.ctxt.slot g).withState state)).slot g).generation = g
        rw [slot_setSlot, withState_generation, hlive.generation]
      · rw [goto_task_self]
        change Matches _ g inc ((s.ctxt.setSlot g ((s.ctxt.slot g).withState state)).slot g).state pc
        rw [slot_setSlot, withState_state]
        exact hmatch
    · refine (h.slot g hglo hghi).frame ⟨hother g hglo hghi hg, rfl, rfl, rfl, rfl, Iff.rfl⟩ rfl
        fun st _ => ?_
      rw [goto_task_of_ne hg]
      exact id

theorem PipelineInv.enqueue (h : PipelineInv s inc) (hpc : s.task t = .finalized) :
    Keeps (flushStep s t) := by
  obtain ⟨hlo, hhi⟩ := h.window (by rw [hpc]; decide) (by rw [hpc]; simp [FlushPc.late, FlushPc.inside])
  have hlive := h.live hlo hhi.le
  have hmatch := hlive.waiting hhi
  have hstate : (s.ctxt.slot t).state ≠ .ready := by
    intro hready
    rw [hready] at hmatch
    exact hmatch
  refine ⟨s.goto t .queued, inc, ?_, ?_⟩
  · rw [flushStep, hpc]
    exact if_pos (hasCompactedMemtable_eq hlive.generation hstate)
  · refine h.goto_outside (by rw [hpc]; decide) (by rw [hpc]; rfl) rfl (fun hle => by omega) ?_
    intro _ state _ hold
    rw [hpc] at hold
    cases state <;> simp_all [Matches, FlushPc.late, FlushPc.inside]

theorem PipelineInv.compact (h : PipelineInv s inc) (hpc : s.task t = .queued) :
    Keeps (flushStep s t) := by
  obtain ⟨hlo, hhi⟩ := h.window (by rw [hpc]; decide) (by rw [hpc]; simp [FlushPc.late, FlushPc.inside])
  have hlive := h.live hlo hhi.le
  have hmatch := hlive.waiting hhi
  have hstate : (s.ctxt.slot t).state = .finalized := by
    rw [hpc] at hmatch
    cases hslot : (s.ctxt.slot t).state <;> rw [hslot] at hmatch <;>
      simp_all [Matches, FlushPc.late, FlushPc.inside]
  refine ⟨_, inc, ?_, h.advance .compacting .compacting hlo hhi
    (by rw [hpc]; rfl) rfl (by rw [hstate]; decide) rfl⟩
  have hcompacted : hasCompactedMemtable
      (s.ctxt.setSlot t ((s.ctxt.slot t).withState .compacting)) t = true :=
    hasCompactedMemtable_eq (by rw [slot_setSlot, withState_generation, hlive.generation])
      (by rw [slot_setSlot, withState_state]; decide)
  simp only [flushStep, hpc, getMemtable_of_generation hlive.generation, Option.bind_some,
    memtableTransition_eq hstate rfl, hcompacted, if_true]

theorem PipelineInv.compacted (h : PipelineInv s inc) (hpc : s.task t = .compacting) :
    Keeps (flushStep s t) := by
  obtain ⟨hlo, hhi⟩ := h.window (by rw [hpc]; decide) (by rw [hpc]; simp [FlushPc.late, FlushPc.inside])
  have hlive := h.live hlo hhi.le
  have hmatch := hlive.waiting hhi
  have hstate : (s.ctxt.slot t).state = .compacting := by
    rw [hpc] at hmatch
    cases hslot : (s.ctxt.slot t).state <;> rw [hslot] at hmatch <;>
      simp_all [Matches, FlushPc.late, FlushPc.inside]
  refine ⟨_, inc, ?_, h.advance .compacted .compacted hlo hhi
    (by rw [hpc]; rfl) rfl (by rw [hstate]; decide) (Or.inl rfl)⟩
  simp only [flushStep, hpc, memtableTransition_eq hstate rfl, Option.map_some]

/-! ## Starting and continuing -/

theorem PipelineInv.assign (h : PipelineInv s inc) (ctxt : MemtableContext Unit)
    (hg : g = s.ctxt.generationRetired + 1) (hlt : g < s.ctxt.generation)
    (hstate : (s.ctxt.slot g).state = .compacted)
    (hgeneration : ctxt.generation = s.ctxt.generation)
    (hretired : ctxt.generationRetired = s.ctxt.generationRetired)
    (htoIncorporate : ctxt.generationToIncorporate = g)
    (hslot : ∀ g', ctxt.slot g' =
      (s.ctxt.setSlot g ((s.ctxt.slot g).withState .incorporationAssigned)).slot g')
    (hother : ∀ g', inc ≠ .assigned g' ∧ inc ≠ .prepared g' ∧ inc ≠ .committed g')
    (htask : t = g ∨ (s.task t).inside = true)
    (hincorporator : Incorporator (Function.update s.task t (.assigned g)) (.assigned g)) :
    PipelineInv ((s.setCtxt ctxt).goto t (.assigned g)) (.assigned g) := by
  have hwindow := h.generation_le
  have hge := h.retired_ge
  have hlive := h.live (g := g) (by omega) hlt.le
  have hself : ctxt.slot g = (s.ctxt.slot g).withState .incorporationAssigned := by
    rw [hslot, slot_setSlot]
  have hrest : ∀ g', s.ctxt.generationRetired < g' → g' ≤ s.ctxt.generationRetired + 4 → g' ≠ g →
      ctxt.slot g' = s.ctxt.slot g' := by
    intro g' hlo hhi hne
    rw [hslot, slot_setSlot_window (r := s.ctxt.generationRetired) _ (by omega) (by omega) hlo hhi hne]
  have hstarted : s.task t ≠ .absent := by
    rcases htask with rfl | hinside
    · intro habsent
      have hmatch := hlive.waiting hlt
      rw [hstate, habsent] at hmatch
      simp [Matches] at hmatch
    · intro habsent
      rw [habsent] at hinside
      cases hinside
  refine h.moves ctxt hstarted hgeneration hretired (fun _ => Or.inr (Or.inr rfl)) hincorporator ?_
    fun g' hlo hhi => ?_
  · change g = ctxt.generationRetired + 1 ∧ g < ctxt.generation ∧
      ctxt.generationToIncorporate = g ∧ (ctxt.slot g).state = .incorporationAssigned
    rw [hself, withState_state]
    exact ⟨by omega, by omega, htoIncorporate, rfl⟩
  · by_cases hne : g' = g
    · subst hne
      refine Or.inl
        { generation := ?_
          refs := hlive.refs
          held_before := hlive.held_before
          recycled_before := hlive.recycled_before
          cleaned_before := by simp
          active := fun hle => ?_
          waiting := fun _ => ?_ }
      · change (ctxt.slot g').generation = g'
        rw [hself, withState_generation, hlive.generation]
      · change ctxt.generation ≤ g' at hle
        omega
      · change Matches ctxt.generationToIncorporate g' _ (ctxt.slot g').state _
        rw [hself, withState_state]
        refine ⟨?_, Or.inl rfl⟩
        by_cases hself' : g' = t
        · subst hself'
          rw [goto_task_self]
          exact Or.inr (Or.inr rfl)
        · rw [goto_task_of_ne hself']
          have hmatch := hlive.waiting hlt
          rw [hstate] at hmatch
          exact hmatch.imp id fun hdone => Or.inl hdone.1
    · refine (h.slot g' hlo hhi).frame
        ⟨hrest g' hlo hhi hne, rfl, rfl, rfl, rfl, ?_⟩ hgeneration fun state _ hmatch => ?_
      · exact ⟨fun hinc => by simp at hinc, fun hinc => absurd hinc (hother _).2.2⟩
      · change Matches ctxt.generationToIncorporate g' _ state _
        rw [htoIncorporate]
        by_cases hself' : g' = t
        · -- a task inside incorporation never stands for a waiting memtable
          subst hself'
          rcases hmatch.assigned_of_inside (htask.resolve_left hne) with hinc | hinc
          · exact absurd hinc (hother _).1
          · exact absurd hinc (hother _).2.1
        · rw [goto_task_of_ne hself']
          cases state with
          | compacted => exact hmatch.imp id fun hdone => ⟨hdone.1, hne⟩
          | incorporationAssigned =>
              rcases hmatch.2 with hinc | hinc
              · exact absurd hinc (hother _).1
              · exact absurd hinc (hother _).2.1
          | _ => exact hmatch

/-- `core_try_start_incorporate` after the task has compacted its memtable, unless another task
has taken the generation on. -/
theorem PipelineInv.start (h : PipelineInv s inc) (hpc : s.task t = .compacted)
    (hfree : inc ≠ .assigned t ∧ inc ≠ .prepared t) : Keeps (flushStep s t) := by
  have hwindow := h.generation_le
  obtain ⟨hnonneg, hlt⟩ := h.finalized (by rw [hpc]; decide)
  have hleave : t ≤ s.ctxt.generationRetired ∨ t ≠ s.ctxt.generationToIncorporate →
      PipelineInv (s.goto t .done) inc := by
    intro hwhy
    refine h.goto_outside (by rw [hpc]; decide) (by rw [hpc]; rfl) rfl
      (fun _ => Or.inr (Or.inl rfl)) fun hlo state _ hold => ?_
    cases state with
    | compacted => exact Or.inr ⟨rfl, hwhy.resolve_left (not_le.mpr hlo)⟩
    | incorporationAssigned => exact ⟨Or.inr (Or.inl rfl), hold.2⟩
    | _ => rw [hpc] at hold; simp [Matches] at hold
  by_cases hgen : (s.ctxt.slot t).generation = t
  swap
  · refine ⟨_, inc, ?_, hleave (Or.inl ?_)⟩
    · have hget : s.ctxt.getMemtable t = none := by rw [MemtableContext.getMemtable, if_neg hgen]
      simp only [flushStep, hpc, coreTryStartIncorporate, hget, Option.map_some]
      rfl
    · by_contra hlo
      exact hgen (h.live (by omega) hlt.le).generation
  have hget := getMemtable_of_generation hgen
  by_cases hnext : t = s.ctxt.generationToIncorporate
  swap
  · refine ⟨_, inc, ?_, hleave (Or.inr hnext)⟩
    simp only [flushStep, hpc, coreTryStartIncorporate, hget, if_pos hnext, Option.map_some]
    rfl
  have htry : flushStep s t = (tryAssign s.ctxt t).map fun r =>
      (s.setCtxt r.2).goto t (if r.1 then .assigned t else .done) := by
    simp only [flushStep, hpc, coreTryStartIncorporate, hget, if_neg (not_not.mpr hnext)]
  by_cases hlo : s.ctxt.generationRetired < t
  swap
  · have hstate := h.incorporated (by have := h.toIncorporate; omega) (by omega) hgen
    refine ⟨_, inc, ?_, hleave (Or.inl (by omega))⟩
    rw [htry, tryAssign_other (by simp [hstate]) (by simp [hstate]) (by simp [hstate])]
    rfl
  have hfirst : t = s.ctxt.generationRetired + 1 := by
    have := h.toIncorporate
    omega
  have hlive := h.live hlo hlt.le
  have hmatch := hlive.waiting hlt
  rw [hpc] at hmatch
  have hstate : (s.ctxt.slot t).state = .compacted := by
    cases hslot : (s.ctxt.slot t).state with
    | compacted => rfl
    | incorporationAssigned =>
        rw [hslot] at hmatch
        exact absurd hmatch.2 (by simp [hfree])
    | _ => rw [hslot] at hmatch; simp [Matches] at hmatch
  have hdone : inc = .done := by
    have hphase := h.phase
    rcases h.incorporator.done_or_inside with hdone | hinside
    · exact hdone
    · cases inc with
      | assigned g => exact absurd (hphase.1.trans hfirst.symm) (by rintro rfl; simp at hfree)
      | prepared g => exact absurd (hphase.1.trans hfirst.symm) (by rintro rfl; simp at hfree)
      | committed g => have := hphase.2; have := hphase.1; omega
      | recycling g => have := hphase.2; have := hphase.1; omega
      | continuing g => have := hphase.2; have := hphase.1; omega
      | _ => cases hinside
  subst hdone
  refine ⟨_, .assigned t, ?_, h.assign
    (s.ctxt.setSlot t ((s.ctxt.slot t).withState .incorporationAssigned)) hfirst hlt hstate
    rfl rfl hnext.symm (fun _ => rfl) (by simp) (Or.inl rfl) (h.incorporator.start rfl)⟩
  rw [htry, tryAssign_compacted hstate]
  rfl

/-- A task that starts a generation which another task has taken on fails the assertion of
`memtable_try_transition`. -/
theorem PipelineInv.start_fails (h : PipelineInv s inc) (hpc : s.task t = .compacted)
    (htaken : inc = .assigned t ∨ inc = .prepared t) : flushStep s t = none := by
  have hphase : t = s.ctxt.generationRetired + 1 ∧ t < s.ctxt.generation ∧
      s.ctxt.generationToIncorporate = t ∧ (s.ctxt.slot t).state = .incorporationAssigned := by
    rcases htaken with rfl | rfl
    · exact h.phase
    · exact h.phase
  obtain ⟨hfirst, hlt, hnext, hstate⟩ := hphase
  have hgen := (h.live (by omega) hlt.le).generation
  simp only [flushStep, hpc, coreTryStartIncorporate, getMemtable_of_generation hgen,
    if_neg (not_not.mpr hnext.symm), tryAssign_assigned hstate, Option.map_none]

/-! ## Inside incorporation -/

theorem PipelineInv.goto_inside (h : PipelineInv s inc) {pc : FlushPc}
    (hold : (s.task t).inside = true) (hnew : pc.inside = true) (hphase : PhaseOk s pc)
    (hcleaning : ∀ q, pc = .committed q ↔ inc = .committed q)
    (hassigned : ∀ q, inc = .assigned q ∨ inc = .prepared q → pc = .assigned q ∨ pc = .prepared q) :
    PipelineInv (s.goto t pc) pc := by
  have habsent : s.task t ≠ .absent := by
    intro habsent
    rw [habsent] at hold
    cases hold
  refine h.moves s.ctxt habsent rfl rfl (fun _ => Or.inr (Or.inr hnew)) (h.incorporator.move hold hnew)
    hphase fun g hlo hhi => (h.slot g hlo hhi).frame ⟨rfl, rfl, rfl, rfl, rfl, hcleaning _⟩ rfl
      fun state _ hmatch => ?_
  change Matches s.ctxt.generationToIncorporate g pc state ((s.goto t pc).task g)
  by_cases hne : g = t
  · subst hne
    have hinc := hmatch.assigned_of_inside hold
    cases state with
    | incorporationAssigned =>
        rw [goto_task_self]
        exact ⟨Or.inr (Or.inr hnew), hassigned _ hinc⟩
    | compacted => rcases hmatch with hpc | ⟨hpc, -⟩ <;> rw [hpc] at hold <;> cases hold
    | finalized => rcases hmatch with hpc | hpc <;> rw [hpc] at hold <;> cases hold
    | compacting => rw [hmatch] at hold; cases hold
    | _ => exact absurd hmatch (by simp [Matches])
  · rw [goto_task_of_ne hne]
    cases state with
    | incorporationAssigned => exact ⟨hmatch.1, hassigned _ hmatch.2⟩
    | _ => exact hmatch

theorem PipelineInv.prepare (h : PipelineInv s inc) (hpc : s.task t = .assigned g) :
    Keeps (flushStep s t) := by
  obtain rfl := h.phase_of hpc rfl
  obtain ⟨hfirst, hlt, hnext, hstate⟩ := h.phase
  have hgen := (h.live (by omega) hlt.le).generation
  refine ⟨s.goto t (.prepared g), .prepared g, ?_, h.goto_inside (by rw [hpc]; rfl) rfl
    ⟨hfirst, hlt, hnext, hstate⟩ (by simp) (by simp)⟩
  simp only [flushStep, hpc, hasCompactedMemtable_eq hgen (by simp [hstate] : (s.ctxt.slot g).state ≠ .ready),
    if_true]

theorem PipelineInv.resume (h : PipelineInv s inc) (hpc : s.task t = .recycling g) :
    Keeps (flushStep s t) := by
  obtain rfl := h.phase_of hpc rfl
  obtain ⟨hretired, hnext⟩ := h.phase
  refine ⟨s.goto t (.continuing (g + 1)), .continuing (g + 1), ?_,
    h.goto_inside (by rw [hpc]; rfl) rfl ⟨by omega, by omega⟩ (by simp) (by simp)⟩
  simp only [flushStep, hpc]

/-- **The commit**: the oldest generation that is not retired is, and its slot now stands for the
generation four later. -/
theorem PipelineInv.commit (h : PipelineInv s inc) (hpc : s.task t = .prepared g) :
    Keeps (flushStep s t) ∧ g = s.ctxt.generationRetired + 1 := by
  obtain rfl := h.phase_of hpc rfl
  obtain ⟨hfirst, hlt, hnext, hstate⟩ := h.phase
  have hwindow := h.generation_le
  have hge := h.retired_ge
  have hlive := h.live (by omega) hlt.le
  have hinside : (s.task t).inside = true := by rw [hpc]; rfl
  have habsent : s.task t ≠ .absent := by simp [hpc]
  refine ⟨?_, hfirst⟩
  let mt := (s.ctxt.slot g).withState .incorporated
  let ctxt : MemtableContext Unit :=
    { s.ctxt.setSlot g mt with generationRetired := s.ctxt.generationRetired + 1 }
  have hself : ctxt.slot g = mt := slot_setSlot s.ctxt g mt
  have hrest : ∀ g', s.ctxt.generationRetired < g' → g' ≤ s.ctxt.generationRetired + 4 → g' ≠ g →
      ctxt.slot g' = s.ctxt.slot g' := fun g' hlo hhi hne =>
    slot_setSlot_window (r := s.ctxt.generationRetired) mt (by omega) (by omega) hlo hhi hne
  refine ⟨(s.setCtxt ctxt).goto t (.committed g), .committed g, ?_,
    { not_failed := h.not_failed
      retired_ge := by change -1 ≤ s.ctxt.generationRetired + 1; omega
      retired_lt := by change s.ctxt.generationRetired + 1 < s.ctxt.generation; omega
      generation_le := by change s.ctxt.generation ≤ s.ctxt.generationRetired + 1 + 4; omega
      incorporator := h.incorporator.move hinside rfl
      phase := ⟨hfirst, hnext⟩
      absent := fun g' hg' => ?_
      late := fun g' hg' hle => ?_
      held_window := fun g' hheld => ?_
      recycling_window := fun g' hrec => ?_
      slot := fun g' hlo hhi => ?_ }⟩
  · have hassigned : memtableTransition s.ctxt g .incorporationAssigned .incorporating =
        some (s.ctxt.setSlot g ((s.ctxt.slot g).withState .incorporating)) :=
      memtableTransition_eq hstate rfl
    have hincorporating : memtableTransition
        (s.ctxt.setSlot g ((s.ctxt.slot g).withState .incorporating)) g .incorporating
          .incorporated = some (s.ctxt.setSlot g mt) := by
      rw [memtableTransition_eq (by rw [slot_setSlot, withState_state]) rfl, slot_setSlot,
        setSlot_setSlot]
      rfl
    have hretire : incrementToGenerationRetired (s.ctxt.setSlot g mt) g = some ctxt :=
      if_pos hfirst.symm
    simp only [flushStep, hpc, coreMemtableCommit, getMemtable_of_generation hlive.generation,
      Option.bind_some, if_pos hnext.symm, hassigned, hincorporating, hretire, Option.map_some]
  · change g' < 0 ∨ s.ctxt.generation ≤ g' at hg'
    have hfinalized := h.finalized habsent
    rw [goto_task_of_ne (by omega)]
    exact h.absent g' hg'
  · change g' ≤ s.ctxt.generationRetired + 1 at hle
    by_cases hne : g' = t
    · subst hne
      rw [goto_task_self]
      exact Or.inr (Or.inr rfl)
    · rw [goto_task_of_ne hne]
      by_cases hlast : g' = g
      · have hmatch := hlive.waiting hlt
        rw [hstate] at hmatch
        rw [hlast]
        exact hmatch.1
      · exact h.late g' hg' (by omega)
  · change s.ctxt.generationRetired + 1 - 4 < g' ∧ g' ≤ s.ctxt.generation
    obtain ⟨hlo, hhi⟩ := h.held_window g' hheld
    have hne : g' ≠ g - 4 := fun heq => hheld (heq ▸ hlive.held_before)
    omega
  · change s.ctxt.generationRetired + 1 - 4 < g' ∧ g' ≤ s.ctxt.generationRetired + 1
    obtain ⟨hlo, hhi⟩ := h.recycling_window g' hrec
    have hne : g' ≠ g - 4 := fun heq => hrec (heq ▸ hlive.recycled_before)
    omega
  · change s.ctxt.generationRetired + 1 < g' at hlo
    change g' ≤ s.ctxt.generationRetired + 1 + 4 at hhi
    by_cases hlast : g' = g + 4
    · subst hlast
      have hbefore : g + 4 - 4 = g := by omega
      refine Or.inr ⟨by change s.ctxt.generation < g + 4; omega, ?_, ?_⟩
      · change (ctxt.slot (g + 4)).state = .incorporated
        rw [slot_add_four, hself]
        rfl
      · rw [hbefore]
        refine .cleaning ?_ ?_ rfl hlive.refs
        · change (ctxt.slot g).generation = g
          rw [hself]
          exact hlive.generation
        · change s.recycling g = none
          by_contra hrec
          have := (h.recycling_window g hrec).2
          omega
    · refine (h.slot g' (by omega) (by omega)).frame
        ⟨hrest g' (by omega) (by omega) (by omega), rfl, rfl, rfl, rfl, ?_⟩ rfl
        fun state _ hmatch => ?_
      · simp only [FlushPc.committed.injEq, reduceCtorEq, iff_false]
        omega
      · have hwaiting : ∀ q, ¬ (FlushPc.prepared g = .assigned q ∨ FlushPc.prepared g = .prepared q) ∨
            q = g := by
          intro q
          by_cases hq : q = g
          · exact Or.inr hq
          · exact Or.inl (by simp [Ne.symm hq])
        have hno := (hwaiting g').resolve_right (by omega)
        have hne : g' ≠ t := by
          rintro rfl
          exact hno (hmatch.assigned_of_inside hinside)
        rw [goto_task_of_ne hne]
        cases state with
        | incorporationAssigned => exact absurd hmatch.2 hno
        | _ => exact hmatch

theorem PipelineInv.leave (h : PipelineInv s (.continuing g)) (hpc : s.task t = .continuing g)
    (ctxt : MemtableContext Unit) (hgeneration : ctxt.generation = s.ctxt.generation)
    (hretired : ctxt.generationRetired = s.ctxt.generationRetired)
    (htoIncorporate : ctxt.generationToIncorporate = g)
    (hslot : ∀ g', ctxt.slot g' = s.ctxt.slot g')
    (hstate : (s.ctxt.slot g).state ≠ .compacted) :
    PipelineInv ((s.setCtxt ctxt).goto t .done) .done := by
  obtain ⟨hfirst, hnext⟩ := h.phase
  have hinside : (s.task t).inside = true := by rw [hpc]; rfl
  have hnot : ∀ g', ¬ (FlushPc.continuing g = .assigned g' ∨ FlushPc.continuing g = .prepared g') := by
    simp
  refine h.moves ctxt (by simp [hpc]) hgeneration hretired (fun _ => Or.inr (Or.inl rfl))
    (h.incorporator.stop hinside) ?_ fun g' hlo hhi => ?_
  · change ctxt.generationToIncorporate = ctxt.generationRetired + 1
    rw [htoIncorporate, hretired, hfirst]
  · refine (h.slot g' hlo hhi).frame ⟨hslot g', rfl, rfl, rfl, rfl, by simp⟩ hgeneration
      fun state hcase hmatch => ?_
    change Matches ctxt.generationToIncorporate g' .done state _
    rw [htoIncorporate,
      goto_task_of_ne (by rintro rfl; exact hnot g' (hmatch.assigned_of_inside hinside))]
    cases state with
    | compacted =>
        refine hmatch.imp id fun hdone => ⟨hdone.1, ?_⟩
        rintro rfl
        exact hstate hcase
    | incorporationAssigned => exact absurd hmatch.2 (hnot _)
    | _ => exact hmatch

theorem PipelineInv.next (h : PipelineInv s inc) (hpc : s.task t = .continuing g) :
    Keeps (flushStep s t) := by
  obtain rfl := h.phase_of hpc rfl
  obtain ⟨hfirst, hnext⟩ := h.phase
  have hinside : (s.task t).inside = true := by rw [hpc]; rfl
  have hlt := h.retired_lt
  have hlive := h.live (g := g) (by omega) (by omega)
  have hget := getMemtable_of_generation hlive.generation
  by_cases hstate : (s.ctxt.slot g).state = .compacted
  · have hwaits : g < s.ctxt.generation := by
      by_contra hle
      have hready := hlive.active (by omega)
      rw [hstate] at hready
      cases hready
    let assigned := s.ctxt.setSlot g ((s.ctxt.slot g).withState .incorporationAssigned)
    let ctxt := { assigned with generationToIncorporate := assigned.generationToIncorporate + 1 }
    have hincrement : incrementToGenerationToIncorporate assigned g = some ctxt := if_pos hnext
    refine ⟨_, .assigned g, ?_, h.assign ctxt hfirst hwaits hstate rfl rfl hnext
      (fun _ => rfl) (by simp) (Or.inr hinside) (h.incorporator.move hinside rfl)⟩
    have hcontinue : coreTryContinueIncorporate s.ctxt g = some (true, ctxt) := by
      simp only [coreTryContinueIncorporate, hget, tryAssign_compacted hstate, Option.bind_some]
      rw [hincrement, Option.map_some]
    simp only [flushStep, hpc, hcontinue, Option.map_some, if_true]
  · let ctxt := { s.ctxt with generationToIncorporate := s.ctxt.generationToIncorporate + 1 }
    have hincrement : incrementToGenerationToIncorporate s.ctxt g = some ctxt := if_pos hnext
    have hstates : (s.ctxt.slot g).state ≠ .incorporationAssigned ∧
        (s.ctxt.slot g).state ≠ .incorporating := by
      by_cases hwaits : g < s.ctxt.generation
      · have hmatch := hlive.waiting hwaits
        constructor <;> intro hslot <;> rw [hslot] at hmatch
        · exact absurd hmatch.2 (by simp)
        · exact hmatch
      · rw [hlive.active (by omega)]
        decide
    have hcontinue : coreTryContinueIncorporate s.ctxt g = some (false, ctxt) := by
      simp only [coreTryContinueIncorporate, hget, tryAssign_other hstate hstates.1 hstates.2,
        Option.bind_some, hincrement, Option.map_some]
    refine ⟨_, .done, ?_, h.leave hpc ctxt rfl rfl hnext (fun _ => rfl) hstate⟩
    simp only [flushStep, hpc, hcontinue, Option.map_some, Bool.false_eq_true, if_false]

/-! ## References to retired memtables -/

theorem PipelineInv.around (h : PipelineInv s inc) {s' : PipelineState} {inc' : FlushPc} {q : Int}
    (hlo : s.ctxt.generationRetired - 4 < q) (hhi : q ≤ s.ctxt.generationRetired)
    (hspare : s.ctxt.generation < q + 4)
    (hfailed : s'.failed = false) (hgeneration : s'.ctxt.generation = s.ctxt.generation)
    (hretired : s'.ctxt.generationRetired = s.ctxt.generationRetired)
    (htoIncorporate : s'.ctxt.generationToIncorporate = s.ctxt.generationToIncorporate)
    (hslot : ∀ g, memtableIdx g ≠ memtableIdx q → s'.ctxt.slot g = s.ctxt.slot g)
    (hrefs : ∀ g, memtableIdx g ≠ memtableIdx q →
      s'.refs (memtableIdx g) = s.refs (memtableIdx g))
    (hheld : ∀ g, g ≠ q → s'.held g = s.held g)
    (hrecycling : ∀ g, g ≠ q → s'.recycling g = s.recycling g)
    (hincorporator : Incorporator s'.task inc') (hphase : PhaseOk s inc')
    (habsent : ∀ g, s.task g = .absent → s'.task g = .absent)
    (hlate : ∀ g, (s.task g).late → (s'.task g).late)
    (hcleaning : ∀ g, g ≠ q → (inc' = .committed g ↔ inc = .committed g))
    (hmatch : ∀ g state, Matches s.ctxt.generationToIncorporate g inc state (s.task g) →
      Matches s.ctxt.generationToIncorporate g inc' state (s'.task g))
    (hself : SlotOk s' inc' (q + 4)) : PipelineInv s' inc' := by
  have hother : ∀ g, s.ctxt.generationRetired < g → g ≤ s.ctxt.generationRetired + 4 → g ≠ q + 4 →
      memtableIdx g ≠ memtableIdx q := by
    intro g hglo hghi hne heq
    rw [← memtableIdx_add q] at heq
    exact hne (memtableIdx_inj hglo hghi (by omega) (by omega) heq)
  refine
    { not_failed := hfailed
      retired_ge := by rw [hretired]; exact h.retired_ge
      retired_lt := by rw [hretired, hgeneration]; exact h.retired_lt
      generation_le := by rw [hretired, hgeneration]; exact h.generation_le
      incorporator := hincorporator
      phase := ?_
      absent := fun g hg => habsent g (h.absent g (by rwa [hgeneration] at hg))
      late := fun g hg hle => hlate g (h.late g hg (by rwa [hretired] at hle))
      held_window := fun g hg => ?_
      recycling_window := fun g hg => ?_
      slot := fun g hglo hghi => ?_ }
  · have hassigned : ∀ g, g = s.ctxt.generationRetired + 1 → g < s.ctxt.generation →
        (s'.ctxt.slot g).state = (s.ctxt.slot g).state := by
      intro g hg hlt
      rw [hslot g (hother g (by omega) (by omega) (by omega))]
    cases inc' <;> simp only [PhaseOk] at hphase ⊢ <;>
      rw [hretired, htoIncorporate] <;> try exact hphase
    · rw [hgeneration, hassigned _ hphase.1 hphase.2.1]
      exact hphase
    · rw [hgeneration, hassigned _ hphase.1 hphase.2.1]
      exact hphase
  · rw [hretired, hgeneration]
    by_cases hne : g = q
    · subst hne
      have hlt := h.retired_lt
      omega
    · exact h.held_window g (by rwa [hheld g hne] at hg)
  · rw [hretired]
    by_cases hne : g = q
    · subst hne
      exact ⟨hlo, hhi⟩
    · exact h.recycling_window g (by rwa [hrecycling g hne] at hg)
  · rw [hretired] at hglo hghi
    by_cases hne : g = q + 4
    · subst hne
      exact hself
    · have hidx := hother g hglo hghi hne
      refine (h.slot g hglo hghi).frame ⟨hslot g hidx, hrefs g hidx, hheld g (by omega),
        hheld _ (by omega), hrecycling _ (by omega), hcleaning _ (by omega)⟩ hgeneration
        fun state _ hold => ?_
      rw [htoIncorporate]
      exact hmatch g state hold

theorem PipelineInv.remains (h : PipelineInv s inc) {q : Int}
    (hlo : s.ctxt.generationRetired - 4 < q) (hhi : q ≤ s.ctxt.generationRetired)
    (hleft : s.held q ≠ 0 ∨ s.recycling q ≠ none ∨ inc = .committed q) :
    s.ctxt.generation < q + 4 ∧ (s.ctxt.slot q).state = .incorporated ∧ Remains s inc q := by
  have hbefore : q + 4 - 4 = q := by omega
  rcases h.slot (q + 4) (by omega) (by omega) with hlive | hrest
  · have hheld := hlive.held_before
    have hrec := hlive.recycled_before
    have hclean := hlive.cleaned_before
    rw [hbefore] at hheld hrec hclean
    rcases hleft with hleft | hleft | hleft
    · exact absurd hheld hleft
    · exact absurd hrec hleft
    · exact absurd hleft hclean
  · rwa [slot_add_four, hbefore] at hrest

theorem slotOk_of_remains {s : PipelineState} {inc : FlushPc} {q : Int}
    (hspare : s.ctxt.generation < q + 4) (hstate : (s.ctxt.slot q).state = .incorporated)
    (h : Remains s inc q) : SlotOk s inc (q + 4) := by
  have hbefore : q + 4 - 4 = q := by omega
  refine Or.inr ⟨hspare, ?_, ?_⟩
  · rwa [slot_add_four]
  · rwa [hbefore]

theorem PipelineInv.drop (h : PipelineInv s inc) (hpc : s.task t = .committed g) :
    Keeps (flushStep s t) := by
  obtain rfl := h.phase_of hpc rfl
  obtain ⟨hretired, hnext⟩ := h.phase
  have hinside : (s.task t).inside = true := by rw [hpc]; rfl
  obtain ⟨hspare, hstate, hremains⟩ := h.remains (q := g) (by omega) (by omega) (Or.inr (Or.inr rfl))
  obtain ⟨hgen, hrec, hrefs⟩ : (s.ctxt.slot g).generation = g ∧ s.recycling g = none ∧
      s.refs (memtableIdx g) = s.held g + 1 := by
    cases hremains with
    | cleaning hgen hrec _ hrefs => exact ⟨hgen, hrec, hrefs⟩
    | held _ _ hinc => exact absurd rfl hinc
    | freed _ _ hinc => exact absurd rfl hinc
    | created _ _ hinc => exact absurd rfl hinc
    | bumped _ _ hinc => exact absurd rfl hinc
  -- what both outcomes have in common
  have hkeep : ∀ (s₁ : PipelineState) (pc : FlushPc), s₁.ctxt = s.ctxt → s₁.failed = s.failed →
      (∀ g', memtableIdx g' ≠ memtableIdx g → s₁.refs (memtableIdx g') = s.refs (memtableIdx g')) →
      s₁.held = s.held → (∀ g', g' ≠ g → s₁.recycling g' = s.recycling g') → s₁.task = s.task →
      pc.inside = true → PhaseOk s pc → (∀ q, pc ≠ .committed q) →
      Remains (s₁.goto t pc) pc g → PipelineInv (s₁.goto t pc) pc := by
    intro s₁ pc hctxt hfailed hrefs₁ hheld hrec₁ htask hnew hphase hclean hself
    have hctxt' : (s₁.goto t pc).ctxt = s.ctxt := hctxt
    have htasks : ∀ g', g' ≠ t → (s₁.goto t pc).task g' = s.task g' := fun g' hne => by
      rw [goto_task_of_ne hne, htask]
    refine h.around (q := g) (by omega) (by omega) hspare (hfailed.trans h.not_failed)
      (by rw [hctxt']) (by rw [hctxt']) (by rw [hctxt']) (fun g' _ => by rw [hctxt']) hrefs₁
      (fun g' _ => congrFun hheld g') hrec₁ ?_ hphase ?_ ?_ ?_ ?_
      (slotOk_of_remains (by rw [hctxt']; exact hspare) (by rw [hctxt']; exact hstate) hself)
    · rw [PipelineState.goto, htask]
      exact h.incorporator.move hinside hnew
    · intro g' habsent
      rw [htasks g' (by rintro rfl; rw [habsent] at hpc; cases hpc), habsent]
    · intro g' hlate
      by_cases hne : g' = t
      · subst hne
        rw [goto_task_self]
        exact Or.inr (Or.inr hnew)
      · rw [htasks g' hne]
        exact hlate
    · intro g' hne
      simp only [hclean g', false_iff, FlushPc.committed.injEq]
      exact hne.symm
    · intro g' state hold
      have hnot : ¬ (FlushPc.committed g = .assigned g' ∨ FlushPc.committed g = .prepared g') := by
        simp
      rw [htasks g' (by rintro rfl; exact hnot (hold.assigned_of_inside hinside))]
      cases state with
      | incorporationAssigned => exact absurd hold.2 hnot
      | _ => exact hold
  cases hheld : s.held g with
  | zero =>
      rw [hheld] at hrefs
      refine ⟨((s.setRefs g 0).setRecycling g (some .freed)).goto t (.recycling g), .recycling g,
        ?_, hkeep _ _ rfl rfl (fun g' hne => setRefs_refs_of_ne hne) rfl
          (fun g' hne => setRecycling_recycling_of_ne hne) rfl rfl ⟨hretired, hnext⟩ (by simp)
          (.freed hgen setRecycling_recycling_self (by simp) hheld)⟩
      simp only [flushStep, hpc, memtableDecRef, hrefs, Option.map_some, if_true]
  | succ count =>
      rw [hheld] at hrefs
      refine ⟨(s.setRefs g (count + 1)).goto t (.continuing (g + 1)), .continuing (g + 1), ?_,
        hkeep _ _ rfl rfl (fun g' hne => setRefs_refs_of_ne hne) rfl (fun _ _ => rfl) rfl rfl
          ⟨by omega, by omega⟩ (by simp)
          (.held hgen hrec (by simp) (setRefs_refs_self.trans hheld.symm)
            (show 0 < s.held g by omega))⟩
      simp only [flushStep, hpc, memtableDecRef, hrefs, Option.map_some, Bool.false_eq_true,
        if_false]

theorem PipelineInv.around_refs (h : PipelineInv s inc) (s' : PipelineState) {q : Int}
    (hlo : s.ctxt.generationRetired - 4 < q) (hhi : q ≤ s.ctxt.generationRetired)
    (hspare : s.ctxt.generation < q + 4)
    (hfailed : s'.failed = s.failed) (htask : s'.task = s.task)
    (hgeneration : s'.ctxt.generation = s.ctxt.generation)
    (hretired : s'.ctxt.generationRetired = s.ctxt.generationRetired)
    (htoIncorporate : s'.ctxt.generationToIncorporate = s.ctxt.generationToIncorporate)
    (hslot : ∀ g, memtableIdx g ≠ memtableIdx q → s'.ctxt.slot g = s.ctxt.slot g)
    (hrefs : ∀ g, memtableIdx g ≠ memtableIdx q →
      s'.refs (memtableIdx g) = s.refs (memtableIdx g))
    (hheld : ∀ g, g ≠ q → s'.held g = s.held g)
    (hrecycling : ∀ g, g ≠ q → s'.recycling g = s.recycling g)
    (hself : SlotOk s' inc (q + 4)) : PipelineInv s' inc :=
  h.around hlo hhi hspare (hfailed.trans h.not_failed) hgeneration hretired htoIncorporate hslot
    hrefs hheld hrecycling (htask ▸ h.incorporator) h.phase
    (fun g habsent => (congrFun htask g).trans habsent)
    (fun g hlate => by rw [htask]; exact hlate) (fun _ _ => Iff.rfl)
    (fun g _ hold => by rw [htask]; exact hold) hself

/-! ## Iterators -/

theorem PipelineInv.count (h : PipelineInv s inc) {q : Int} (count : Nat)
    (hlo : s.ctxt.generationRetired < q) (hhi : q ≤ s.ctxt.generation) :
    PipelineInv ((s.setRefs q (count + 1)).setHeld q count) inc := by
  have hwindow := h.generation_le
  have hlive := h.live hlo hhi
  refine
    { not_failed := h.not_failed
      retired_ge := h.retired_ge
      retired_lt := h.retired_lt
      generation_le := h.generation_le
      incorporator := h.incorporator
      phase := by cases inc <;> exact h.phase
      absent := h.absent
      late := h.late
      held_window := fun g hg => ?_
      recycling_window := h.recycling_window
      slot := fun g hglo hghi => ?_ }
  · change s.ctxt.generationRetired - 4 < g ∧ g ≤ s.ctxt.generation
    by_cases hne : g = q
    · omega
    · rw [setHeld_held_of_ne hne] at hg
      exact h.held_window g hg
  · change s.ctxt.generationRetired < g at hglo
    change g ≤ s.ctxt.generationRetired + 4 at hghi
    by_cases hne : g = q
    · subst hne
      refine Or.inl
        { generation := hlive.generation
          refs := ?_
          held_before := (setHeld_held_of_ne (by omega)).trans hlive.held_before
          recycled_before := hlive.recycled_before
          cleaned_before := hlive.cleaned_before
          active := hlive.active
          waiting := hlive.waiting }
      rw [setHeld_held_self]
      exact setRefs_refs_self
    · have hidx : memtableIdx g ≠ memtableIdx q := fun heq =>
        hne (memtableIdx_inj hglo hghi hlo (by omega) heq)
      exact (h.slot g hglo hghi).frame ⟨rfl, setRefs_refs_of_ne hidx, setHeld_held_of_ne hne,
        setHeld_held_of_ne (by omega), rfl, Iff.rfl⟩ rfl fun _ _ hmatch => hmatch

theorem PipelineInv.acquire (h : PipelineInv s inc) (hlo : s.ctxt.generationRetired < g)
    (hhi : g ≤ s.ctxt.generation) : Keeps (acquireMemtable s g) := by
  have hlive := h.live hlo hhi
  have hget := getMemtable_of_generation hlive.generation
  have hlookup : (s.ctxt.slot g).okToLookup = true := by
    by_cases hwaits : g < s.ctxt.generation
    · have hmatch := hlive.waiting hwaits
      cases hslot : (s.ctxt.slot g).state <;> rw [hslot] at hmatch <;>
        first | exact absurd hmatch id | simp [Memtable.okToLookup, hslot]
    · simp [Memtable.okToLookup, hlive.active (by omega)]
  by_cases hcompacted : (s.ctxt.slot g).okToLookupCompacted = true
  · have hready : (s.ctxt.slot g).state ≠ .ready := by
      intro hready
      simp [Memtable.okToLookupCompacted, hready] at hcompacted
    refine ⟨s, inc, ?_, h⟩
    simp [acquireMemtable, hget, hlookup, hcompacted,
      hasCompactedMemtable_eq hlive.generation hready]
  · refine ⟨_, inc, ?_, h.count (s.held g + 1) hlo hhi⟩
    simp [acquireMemtable, hget, hlookup, hcompacted, hlive.refs]

theorem PipelineInv.release (h : PipelineInv s inc) (hheld : 0 < s.held g) :
    Keeps (releaseMemtable s g) := by
  obtain ⟨hlo, hhi⟩ := h.held_window g (by omega)
  by_cases hretired : s.ctxt.generationRetired < g
  · have hlive := h.live hretired hhi
    have hget := getMemtable_of_generation hlive.generation
    have hrefs : s.refs (memtableIdx g) = s.held g - 1 + 2 := by
      rw [hlive.refs]
      omega
    refine ⟨_, inc, ?_, h.count (s.held g - 1) hretired hhi⟩
    have hdec : memtableDecRef (s.setHeld g (s.held g - 1)) g =
        some (false, (s.setHeld g (s.held g - 1)).setRefs g (s.held g - 1 + 1)) := by
      rw [memtableDecRef, show (s.setHeld g (s.held g - 1)).refs (memtableIdx g) =
        s.held g - 1 + 2 from hrefs]
    rw [releaseMemtable, hget, Option.bind_some, hdec]
    rfl
  · obtain ⟨hspare, hstate, hremains⟩ :=
      h.remains (q := g) (by omega) (by omega) (Or.inl (by omega))
    obtain ⟨count, hcount⟩ : ∃ count, s.held g = count + 1 := ⟨s.held g - 1, by omega⟩
    have hrelease : ∀ r, (s.ctxt.slot g).generation = g →
        memtableDecRef (s.setHeld g count) g = some r → releaseMemtable s g = some r.2 := by
      intro r hgen hdec
      rw [releaseMemtable, getMemtable_of_generation hgen, Option.bind_some, hcount,
        Nat.add_sub_cancel, hdec]
      rfl
    have hkeep : ∀ refs stage, (∀ g', g' ≠ g → (stage g' : Option RecycleStage) = s.recycling g') →
        let s' : PipelineState :=
          { (s.setHeld g count).setRefs g refs with recycling := stage }
        Remains s' inc g → PipelineInv s' inc := by
      intro refs stage hstage s' hself
      exact h.around_refs s' (q := g) (by omega) (by omega) hspare rfl rfl rfl rfl rfl
        (fun _ _ => rfl) (fun g' hne => setRefs_refs_of_ne hne)
        (fun g' hne => setHeld_held_of_ne hne) hstage (slotOk_of_remains hspare hstate hself)
    cases hremains with
    | cleaning hgen hrec hinc hrefs =>
        have hdec : memtableDecRef (s.setHeld g count) g =
            some (false, (s.setHeld g count).setRefs g (count + 1)) := by
          rw [hcount] at hrefs
          rw [memtableDecRef, show (s.setHeld g count).refs (memtableIdx g) = count + 2 from hrefs]
        exact ⟨_, inc, hrelease _ hgen hdec, hkeep (count + 1) s.recycling (fun _ _ => rfl)
          (.cleaning hgen hrec hinc (setRefs_refs_self.trans (by simp [PipelineState.setRefs])))⟩
    | held hgen hrec hinc hrefs _ =>
        rw [hcount] at hrefs
        cases count with
        | zero =>
            have hdec : memtableDecRef (s.setHeld g 0) g =
                some (true, ((s.setHeld g 0).setRefs g 0).setRecycling g (some .freed)) := by
              rw [memtableDecRef, show (s.setHeld g 0).refs (memtableIdx g) = 1 from hrefs]
            exact ⟨_, inc, hrelease _ hgen hdec, hkeep 0 _
              (fun g' hne => setRecycling_recycling_of_ne hne)
              (.freed hgen setRecycling_recycling_self hinc setHeld_held_self)⟩
        | succ count =>
            have hdec : memtableDecRef (s.setHeld g (count + 1)) g =
                some (false, (s.setHeld g (count + 1)).setRefs g (count + 1)) := by
              rw [memtableDecRef,
                show (s.setHeld g (count + 1)).refs (memtableIdx g) = count + 2 from hrefs]
            exact ⟨_, inc, hrelease _ hgen hdec, hkeep (count + 1) s.recycling (fun _ _ => rfl)
              (.held hgen hrec hinc (setRefs_refs_self.trans setHeld_held_self.symm)
                (setHeld_held_self.symm ▸ Nat.succ_pos count))⟩
    | freed _ _ _ hnone => omega
    | created _ _ _ hnone => omega
    | bumped _ _ _ hnone => omega

theorem PipelineInv.recycle (h : PipelineInv s inc) (hrec : s.recycling g ≠ none) :
    Keeps (recycleStep s g) := by
  obtain ⟨hlo, hhi⟩ := h.recycling_window g hrec
  obtain ⟨hspare, hstate, hremains⟩ := h.remains hlo hhi (Or.inr (Or.inl hrec))
  cases hremains with
  | cleaning _ hnone => exact absurd hnone hrec
  | held _ hnone => exact absurd hnone hrec
  | freed hgen hstage hinc hheld =>
      refine ⟨_, inc, ?_, h.around_refs (q := g)
        ((s.setRefs g 1).setRecycling g (some .created)) hlo hhi hspare rfl rfl rfl rfl rfl
        (fun _ _ => rfl) (fun g' hne => setRefs_refs_of_ne hne) (fun _ _ => rfl)
        (fun g' hne => setRecycling_recycling_of_ne hne) (slotOk_of_remains hspare hstate
          (.created hgen setRecycling_recycling_self hinc hheld setRefs_refs_self))⟩
      simp only [recycleStep, hstage, hstate, if_true]
  | created hgen hstage hinc hheld hrefs =>
      let mt : Memtable Unit :=
        ⟨(s.ctxt.slot g).state, (s.ctxt.slot g).generation + coreNumMemtables, ()⟩
      have hmt : (s.ctxt.setSlot g mt).slot g = mt := slot_setSlot ..
      refine ⟨_, inc, ?_, h.around_refs (q := g)
        ((s.setCtxt (s.ctxt.setSlot g mt)).setRecycling g (some .bumped)) hlo hhi hspare rfl
        rfl rfl rfl rfl (fun g' hne => slot_setSlot_other _ _ hne) (fun _ _ => rfl)
        (fun _ _ => rfl) (fun g' hne => setRecycling_recycling_of_ne hne)
        (slotOk_of_remains hspare ?_ (.bumped ?_ setRecycling_recycling_self hinc hheld hrefs))⟩
      · simp only [recycleStep, hstage]
        rfl
      · change ((s.ctxt.setSlot g mt).slot g).state = .incorporated
        rw [hmt]
        exact hstate
      · change ((s.ctxt.setSlot g mt).slot g).generation = g + 4
        rw [hmt]
        change (s.ctxt.slot g).generation + 4 = g + 4
        rw [hgen]
  | bumped hgen hstage hinc hheld hrefs =>
      let ctxt := s.ctxt.setSlot g ((s.ctxt.slot g).withState .ready)
      have hbefore : g + 4 - 4 = g := by omega
      have hslot : ctxt.slot (g + 4) = (s.ctxt.slot g).withState .ready := by
        rw [slot_add_four, slot_setSlot]
      refine ⟨_, inc, ?_, h.around_refs (q := g)
        ((s.setCtxt ctxt).setRecycling g none) hlo hhi hspare rfl
        rfl rfl rfl rfl (fun g' hne => slot_setSlot_other _ _ hne) (fun _ _ => rfl)
        (fun _ _ => rfl) (fun g' hne => setRecycling_recycling_of_ne hne) (Or.inl ?_)⟩
      · simp only [recycleStep, hstage, memtableTransition_eq hstate rfl, Option.map_some]
        rfl
      · have hunheld : s.held (g + 4) = 0 := by
          by_contra hne
          have := (h.held_window (g + 4) hne).2
          omega
        exact
          { generation := by
              change (ctxt.slot (g + 4)).generation = g + 4
              rw [hslot, withState_generation, hgen]
            refs := by
              change s.refs (memtableIdx (g + 4)) = s.held (g + 4) + 1
              rw [memtableIdx_add, hrefs, hunheld]
            held_before := by rw [hbefore]; exact hheld
            recycled_before := by rw [hbefore]; exact setRecycling_recycling_self
            cleaned_before := by rw [hbefore]; exact hinc
            active := fun _ => by
              change (ctxt.slot (g + 4)).state = .ready
              rw [hslot, withState_state]
            waiting := fun hlt => absurd hlt (not_lt.mpr hspare.le) }

/-! ## Rotation -/

theorem PipelineInv.rotate (h : PipelineInv s inc)
    (hready : (s.ctxt.slot s.ctxt.generation).state = .ready)
    (hnext : (s.ctxt.slot (s.ctxt.generation + 1)).state = .ready) : Keeps (memtableRotate s) := by
  have hlt := h.retired_lt
  have hge := h.retired_ge
  have hle := h.generation_le
  -- the slot of the next generation would still wait for the oldest one
  have hroom : s.ctxt.generation < s.ctxt.generationRetired + 4 := by
    by_contra hfull
    have hoff : s.ctxt.generation + 1 - 4 = s.ctxt.generationRetired + 1 := by omega
    rw [← slot_sub_four, hoff] at hnext
    have hmatch := (h.live (g := s.ctxt.generationRetired + 1) (by omega) (by omega)).waiting
      (by omega)
    rw [hnext] at hmatch
    exact hmatch
  have hlive := h.live hlt le_rfl
  have habsent := h.absent s.ctxt.generation (Or.inr le_rfl)
  let mt := (s.ctxt.slot s.ctxt.generation).withState .finalized
  let ctxt : MemtableContext Unit :=
    { s.ctxt.setSlot s.ctxt.generation mt with generation := s.ctxt.generation + 1 }
  have hself : ctxt.slot s.ctxt.generation = mt := slot_setSlot s.ctxt s.ctxt.generation mt
  have hrest : ∀ g, s.ctxt.generationRetired < g → g ≤ s.ctxt.generationRetired + 4 →
      g ≠ s.ctxt.generation → ctxt.slot g = s.ctxt.slot g := fun g hlo hhi hne =>
    slot_setSlot_window (r := s.ctxt.generationRetired) mt hlt hle hlo hhi hne
  refine ⟨(s.setCtxt ctxt).goto s.ctxt.generation .finalized, inc, ?_,
    { not_failed := h.not_failed
      retired_ge := h.retired_ge
      retired_lt := by change s.ctxt.generationRetired < s.ctxt.generation + 1; omega
      generation_le := by change s.ctxt.generation + 1 ≤ s.ctxt.generationRetired + 4; omega
      incorporator := h.incorporator.outside (by rw [habsent]; rfl) rfl
      phase := ?_
      absent := fun g hg => ?_
      late := fun g hg hle => ?_
      held_window := fun g hg => ?_
      recycling_window := h.recycling_window
      slot := fun g hglo hghi => ?_ }⟩
  · have hlimit : s.ctxt.generation + 1 - s.ctxt.generationRetired ≤ coreNumMemtables := by
      change s.ctxt.generation + 1 - s.ctxt.generationRetired ≤ 4
      omega
    simp only [memtableRotate, memtableTransition_eq hready rfl, Option.bind_some]
    exact if_pos hlimit
  · have hphase := h.phase
    have hassigned : ∀ g, g = s.ctxt.generationRetired + 1 → g < s.ctxt.generation →
        (ctxt.slot g).state = (s.ctxt.slot g).state := fun g hg hlt => by
      rw [hrest g (by omega) (by omega) (by omega)]
    cases inc with
    | assigned g =>
        exact ⟨hphase.1, Int.lt_add_one_of_le hphase.2.1.le, hphase.2.2.1,
          (hassigned g hphase.1 hphase.2.1).trans hphase.2.2.2⟩
    | prepared g =>
        exact ⟨hphase.1, Int.lt_add_one_of_le hphase.2.1.le, hphase.2.2.1,
          (hassigned g hphase.1 hphase.2.1).trans hphase.2.2.2⟩
    | _ => exact hphase
  · change g < 0 ∨ s.ctxt.generation + 1 ≤ g at hg
    rw [goto_task_of_ne (by omega)]
    exact h.absent g (by omega)
  · change g ≤ s.ctxt.generationRetired at hle
    rw [goto_task_of_ne (by omega)]
    exact h.late g hg hle
  · change s.ctxt.generationRetired - 4 < g ∧ g ≤ s.ctxt.generation + 1
    have hbounds := h.held_window g hg
    omega
  · change s.ctxt.generationRetired < g at hglo
    change g ≤ s.ctxt.generationRetired + 4 at hghi
    by_cases hne : g = s.ctxt.generation
    · subst hne
      refine Or.inl
        { generation := ?_
          refs := hlive.refs
          held_before := hlive.held_before
          recycled_before := hlive.recycled_before
          cleaned_before := hlive.cleaned_before
          active := fun habove => ?_
          waiting := fun _ => ?_ }
      · change (ctxt.slot s.ctxt.generation).generation = s.ctxt.generation
        rw [hself]
        exact hlive.generation
      · change s.ctxt.generation + 1 ≤ s.ctxt.generation at habove
        omega
      · change Matches _ _ inc (ctxt.slot s.ctxt.generation).state _
        rw [hself, goto_task_self]
        exact Or.inl rfl
    · have hsame : SameSlot s ((s.setCtxt ctxt).goto s.ctxt.generation .finalized) inc inc g :=
        ⟨hrest g hglo hghi hne, rfl, rfl, rfl, rfl, Iff.rfl⟩
      have hactive : s.ctxt.generation + 1 ≤ g ↔ s.ctxt.generation ≤ g := by omega
      rcases h.slot g hglo hghi with hother | ⟨hspare, hstate, hremains⟩
      · refine Or.inl (hother.frame hsame hactive fun state _ hmatch => ?_)
        rw [goto_task_of_ne hne]
        exact hmatch
      · have hbelow : s.ctxt.generation + 1 ≠ g := by
          rintro rfl
          rw [hnext] at hstate
          cases hstate
        refine Or.inr ⟨?_, ?_, hremains.frame hsame⟩
        · change s.ctxt.generation + 1 < g
          omega
        · change (ctxt.slot g).state = .incorporated
          rw [hrest g hglo hghi hne, hstate]

end Pipeline
end Core
end TreePass
