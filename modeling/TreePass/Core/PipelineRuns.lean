import TreePass.Core.PipelineSteps

/-!
# Runs of the incorporation pipeline

Every finalized generation is incorporated once, in order, by one task at a time, no assertion
fails and no wakeup is lost, in every run in which no task tries to start a generation that another
task has taken on.  A task does so when the incorporating task comes to its generation after the
memtable is compacted and before the task itself looks: the case the comment of
`core_try_start_incorporate` describes, and an assertion of `memtable_try_transition` rules out.

* `Sound` is what holds in a state, `Correct` what holds of a run.
* `pipeline_correct_iff`: a run is correct exactly when every step meets `NotTakenOn`.
* `pipeline_run_fails`: the shortest run that does not.
-/

namespace TreePass
namespace Core
namespace Pipeline

open Lib Lib.System

/-! ## What is to hold -/

/-- No assertion has failed, one task incorporates at a time, and a memtable that is compacted and
next while nobody incorporates has a task that has still to try to start. -/
structure Sound (s : PipelineState) : Prop where
  no_failure : s.failed = false
  one_at_a_time : ∀ t t', (s.task t).inside = true → (s.task t').inside = true → t = t'
  no_lost_wakeup : (∀ t, (s.task t).inside = false) →
    ∀ mt, s.ctxt.getMemtable s.ctxt.generationToIncorporate = some mt → mt.state = .compacted →
      s.task s.ctxt.generationToIncorporate = .compacted

/-- The generation a step incorporates: the commit of `core_memtable_incorporate`. -/
def commitOf (p : PipelineState × PipelineAct) : Option Int :=
  match p.2 with
  | .flush t =>
      match p.1.task t with
      | .prepared g => some g
      | _ => none
  | _ => none

def incorporated (tr : List (PipelineState × PipelineAct)) : List Int := tr.filterMap commitOf

/-- The generations from 0 to `last`. -/
def generationsTo (last : Int) : List Int := (List.range (last + 1).toNat).map Int.ofNat

/-- **A correct run**: sound in every state, the generations 0, 1, 2, … incorporated once each, and
all finalized ones as soon as no flush task is left. -/
structure Correct (tr : List (PipelineState × PipelineAct)) (s : PipelineState) : Prop where
  sound : Visits Sound tr s
  in_order : incorporated tr = generationsTo s.ctxt.generationRetired
  complete : (∀ t, s.task t = .absent ∨ s.task t = .done) →
    s.ctxt.generationRetired + 1 = s.ctxt.generation

/-- A task that tries to start its generation finds that no task has taken it on. -/
def NotTakenOn (s : PipelineState) (a : PipelineAct) : Prop :=
  ∀ t, a = .flush t → s.task t = .compacted →
    ∀ t', s.task t' ≠ .assigned t ∧ s.task t' ≠ .prepared t

/-! ## States -/

section States

variable {s s' : PipelineState} {inc : FlushPc} {a : PipelineAct}

theorem pipelineInv_new : PipelineInv newPipeline .done where
  not_failed := rfl
  retired_ge := le_rfl
  retired_lt := by decide
  generation_le := by decide
  incorporator := Or.inl ⟨rfl, fun _ => rfl⟩
  phase := rfl
  absent := fun _ _ => rfl
  late := fun g hg hle => absurd hle (by change ¬ g ≤ -1; omega)
  held_window := fun _ hheld => absurd rfl hheld
  recycling_window := fun _ hrec => absurd rfl hrec
  slot := fun g hlo hhi => by
    change -1 < g at hlo
    change g ≤ -1 + 4 at hhi
    have hfour : (coreNumMemtables : Int) = 4 := rfl
    have hidx : ((memtableIdx g : Nat) : Int) = g := by
      rw [memtableIdx, hfour]
      omega
    exact Or.inl
      { generation := hidx
        refs := rfl
        held_before := rfl
        recycled_before := rfl
        cleaned_before := by simp
        active := fun _ => rfl
        waiting := fun hlt => absurd hlt (by change ¬ g < 0; omega) }

theorem PipelineInv.nobody (h : PipelineInv s inc) (hnone : ∀ t, (s.task t).inside = false) :
    inc = .done := by
  rcases h.incorporator with ⟨hdone, -⟩ | ⟨t, hinside, hpc, -⟩
  · exact hdone
  · rw [← hpc, hnone t] at hinside
    cases hinside

theorem PipelineInv.sound (h : PipelineInv s inc) : Sound s where
  no_failure := h.not_failed
  one_at_a_time := fun _ t' ht ht' => (h.incorporator.eq ht').2 _ ht
  no_lost_wakeup := fun hnone mt hget hstate => by
    obtain rfl := h.nobody hnone
    have hnext : s.ctxt.generationToIncorporate = s.ctxt.generationRetired + 1 := h.phase
    obtain ⟨rfl, -⟩ := getMemtable_eq_some hget
    have hlt := h.retired_lt
    have hlive := h.live (g := s.ctxt.generationToIncorporate) (by omega) (by omega)
    by_cases hwaits : s.ctxt.generationToIncorporate < s.ctxt.generation
    · have hmatch := hlive.waiting hwaits
      rw [hstate] at hmatch
      exact hmatch.resolve_right fun hdone => hdone.2 rfl
    · rw [hlive.active (by omega)] at hstate
      cases hstate

theorem PipelineInv.complete (h : PipelineInv s inc)
    (hleft : ∀ t, s.task t = .absent ∨ s.task t = .done) :
    s.ctxt.generationRetired + 1 = s.ctxt.generation := by
  have hnone : ∀ t, (s.task t).inside = false := fun t => by
    rcases hleft t with hpc | hpc <;> rw [hpc] <;> rfl
  obtain rfl := h.nobody hnone
  have hnext : s.ctxt.generationToIncorporate = s.ctxt.generationRetired + 1 := h.phase
  have hlt := h.retired_lt
  by_contra hmore
  have hmatch := (h.live (g := s.ctxt.generationRetired + 1) (by omega) (by omega)).waiting
    (by omega)
  cases hstate : (s.ctxt.slot (s.ctxt.generationRetired + 1)).state <;> rw [hstate] at hmatch <;>
    rcases hleft (s.ctxt.generationRetired + 1) with hpc | hpc <;> rw [hpc] at hmatch <;>
    simp_all [Matches]

/-! ## Steps -/

theorem PipelineInv.perform (h : PipelineInv s inc) (henabled : enabled s a = true) :
    (NotTakenOn s a → Keeps (perform s a)) ∧ (¬ NotTakenOn s a → perform s a = none) := by
  have hfree : (∀ t, a = .flush t → s.task t ≠ .compacted) → NotTakenOn s a :=
    fun hpc t ht hcompacted => absurd hcompacted (hpc t ht)
  cases a with
  | rotate =>
      rw [enabled, Bool.and_eq_true, beq_iff_eq, beq_iff_eq] at henabled
      exact ⟨fun _ => h.rotate henabled.1 henabled.2, fun hnot => absurd (hfree (by simp)) hnot⟩
  | acquire g =>
      rw [enabled, Bool.and_eq_true, decide_eq_true_eq, decide_eq_true_eq] at henabled
      exact ⟨fun _ => h.acquire henabled.1 henabled.2, fun hnot => absurd (hfree (by simp)) hnot⟩
  | release g =>
      rw [enabled, decide_eq_true_eq] at henabled
      exact ⟨fun _ => h.release henabled, fun hnot => absurd (hfree (by simp)) hnot⟩
  | recycle g =>
      rw [enabled, Option.isSome_iff_ne_none] at henabled
      exact ⟨fun _ => h.recycle henabled, fun hnot => absurd (hfree (by simp)) hnot⟩
  | flush t =>
      have hother : s.task t ≠ .compacted → Keeps (flushStep s t) →
          (NotTakenOn s (.flush t) → Keeps (flushStep s t)) ∧
            (¬ NotTakenOn s (.flush t) → flushStep s t = none) := fun hpc hkeeps =>
        ⟨fun _ => hkeeps, fun hnot => absurd (hfree (by rintro _ ⟨⟩; exact hpc)) hnot⟩
      change (NotTakenOn s (.flush t) → Keeps (flushStep s t)) ∧
        (¬ NotTakenOn s (.flush t) → flushStep s t = none)
      cases hpc : s.task t with
      | absent => simp [enabled, hpc] at henabled
      | done => simp [enabled, hpc] at henabled
      | finalized => exact hother (by simp [hpc]) (h.enqueue hpc)
      | queued => exact hother (by simp [hpc]) (h.compact hpc)
      | compacting => exact hother (by simp [hpc]) (h.compacted hpc)
      | assigned g => exact hother (by simp [hpc]) (h.prepare hpc)
      | prepared g => exact hother (by simp [hpc]) (h.commit hpc).1
      | committed g => exact hother (by simp [hpc]) (h.drop hpc)
      | recycling g => exact hother (by simp [hpc]) (h.resume hpc)
      | continuing g => exact hother (by simp [hpc]) (h.next hpc)
      | compacted =>
          -- the incorporating task is the only one that can have taken the generation on
          have htaken : ∀ pc, pc = inc → pc.inside = true → ∃ t', s.task t' = pc := by
            rintro _ rfl hinside
            rcases h.incorporator with ⟨rfl, -⟩ | ⟨t', -, hpc', -⟩
            · cases hinside
            · exact ⟨t', hpc'⟩
          constructor
          · intro hnot
            refine h.start hpc ⟨?_, ?_⟩
            · rintro rfl
              obtain ⟨t', hpc'⟩ := htaken (.assigned t) rfl rfl
              exact (hnot t rfl hpc t').1 hpc'
            · rintro rfl
              obtain ⟨t', hpc'⟩ := htaken (.prepared t) rfl rfl
              exact (hnot t rfl hpc t').2 hpc'
          · intro hnot
            refine h.start_fails hpc ?_
            by_contra hneither
            rw [not_or] at hneither
            refine hnot fun t₁ ht₁ _ t' => ?_
            obtain rfl : t = t₁ := by simpa using ht₁
            exact ⟨fun hpc' => hneither.1 (h.phase_of hpc' rfl),
              fun hpc' => hneither.2 (h.phase_of hpc' rfl)⟩

/-! ## What is retired -/

theorem memtableTransition_retired {ctxt ctxt' : MemtableContext Unit} {g : Int}
    {old new : MemtableState} (h : memtableTransition ctxt g old new = some ctxt') :
    ctxt'.generationRetired = ctxt.generationRetired := by
  rw [memtableTransition] at h
  split at h
  · obtain rfl := Option.some.inj h
    rfl
  · cases h
  · cases h

theorem tryAssign_retired {ctxt : MemtableContext Unit} {g : Int}
    {r : Bool × MemtableContext Unit} (h : tryAssign ctxt g = some r) :
    r.2.generationRetired = ctxt.generationRetired := by
  obtain ⟨r', -, rfl⟩ := Option.map_eq_some_iff.mp h
  rfl

theorem coreTryStartIncorporate_retired {ctxt : MemtableContext Unit} {g : Int}
    {r : Bool × MemtableContext Unit} (h : coreTryStartIncorporate ctxt g = some r) :
    r.2.generationRetired = ctxt.generationRetired := by
  rw [coreTryStartIncorporate] at h
  split at h
  · obtain rfl := Option.some.inj h
    rfl
  · split at h
    · obtain rfl := Option.some.inj h
      rfl
    · exact tryAssign_retired h

theorem coreTryContinueIncorporate_retired {ctxt : MemtableContext Unit} {g : Int}
    {r : Bool × MemtableContext Unit} (h : coreTryContinueIncorporate ctxt g = some r) :
    r.2.generationRetired = ctxt.generationRetired := by
  rw [coreTryContinueIncorporate] at h
  split at h
  · obtain rfl := Option.some.inj h
    rfl
  · obtain ⟨r', hassign, hmap⟩ := Option.bind_eq_some_iff.mp h
    obtain ⟨ctxt', hincrement, rfl⟩ := Option.map_eq_some_iff.mp hmap
    rw [incrementToGenerationToIncorporate, Option.ite_none_right_eq_some] at hincrement
    obtain rfl := Option.some.inj hincrement.2
    have hkept := tryAssign_retired hassign
    exact hkept

theorem coreMemtableCommit_retired {ctxt ctxt' : MemtableContext Unit} {g : Int}
    (h : coreMemtableCommit ctxt g = some ctxt') :
    ctxt.generationRetired + 1 = g ∧ ctxt'.generationRetired = g := by
  obtain ⟨-, -, h⟩ := Option.bind_eq_some_iff.mp h
  rw [Option.ite_none_right_eq_some] at h
  obtain ⟨ctxt₁, hfirst, h⟩ := Option.bind_eq_some_iff.mp h.2
  obtain ⟨ctxt₂, hsecond, h⟩ := Option.bind_eq_some_iff.mp h
  rw [incrementToGenerationRetired, Option.ite_none_right_eq_some] at h
  obtain ⟨hretired, hctxt⟩ := h
  obtain rfl := Option.some.inj hctxt
  rw [memtableTransition_retired hsecond, memtableTransition_retired hfirst] at hretired
  refine ⟨hretired, ?_⟩
  change ctxt₂.generationRetired + 1 = g
  rw [memtableTransition_retired hsecond, memtableTransition_retired hfirst, hretired]

theorem memtableDecRef_ctxt {r : Bool × PipelineState} {g : Int}
    (h : memtableDecRef s g = some r) : r.2.ctxt = s.ctxt := by
  rw [memtableDecRef] at h
  split at h
  · cases h
  · obtain rfl := Option.some.inj h
    rfl
  · obtain rfl := Option.some.inj h
    rfl

theorem flushStep_retired {t : Int} (h : flushStep s t = some s') :
    match commitOf (s, .flush t) with
    | some g => s.ctxt.generationRetired + 1 = g ∧ s'.ctxt.generationRetired = g
    | none => s'.ctxt.generationRetired = s.ctxt.generationRetired := by
  simp only [commitOf]
  rw [flushStep] at h
  cases hpc : s.task t with
  | prepared g =>
      rw [hpc] at h
      obtain ⟨ctxt, hcommit, rfl⟩ := Option.map_eq_some_iff.mp h
      exact coreMemtableCommit_retired hcommit
  | absent => rw [hpc] at h; cases h
  | done => rw [hpc] at h; cases h
  | finalized =>
      rw [hpc] at h
      simp only [Option.ite_none_right_eq_some, Option.some.injEq] at h
      obtain ⟨-, rfl⟩ := h
      rfl
  | assigned g =>
      rw [hpc] at h
      simp only [Option.ite_none_right_eq_some, Option.some.injEq] at h
      obtain ⟨-, rfl⟩ := h
      rfl
  | recycling g =>
      rw [hpc] at h
      obtain rfl := Option.some.inj h
      rfl
  | queued =>
      rw [hpc] at h
      obtain ⟨-, -, h⟩ := Option.bind_eq_some_iff.mp h
      obtain ⟨ctxt, htransition, h⟩ := Option.bind_eq_some_iff.mp h
      rw [Option.ite_none_right_eq_some] at h
      obtain rfl := Option.some.inj h.2
      exact memtableTransition_retired htransition
  | compacting =>
      rw [hpc] at h
      obtain ⟨ctxt, htransition, rfl⟩ := Option.map_eq_some_iff.mp h
      exact memtableTransition_retired htransition
  | compacted =>
      rw [hpc] at h
      obtain ⟨r, hstart, rfl⟩ := Option.map_eq_some_iff.mp h
      exact coreTryStartIncorporate_retired hstart
  | continuing g =>
      rw [hpc] at h
      obtain ⟨r, hcontinue, rfl⟩ := Option.map_eq_some_iff.mp h
      exact coreTryContinueIncorporate_retired hcontinue
  | committed g =>
      rw [hpc] at h
      obtain ⟨r, hdec, rfl⟩ := Option.map_eq_some_iff.mp h
      exact congrArg MemtableContext.generationRetired (memtableDecRef_ctxt hdec)

theorem perform_retired (h : Pipeline.perform s a = some s') :
    match commitOf (s, a) with
    | some g => s.ctxt.generationRetired + 1 = g ∧ s'.ctxt.generationRetired = g
    | none => s'.ctxt.generationRetired = s.ctxt.generationRetired := by
  cases a with
  | flush t => exact flushStep_retired h
  | rotate =>
      obtain ⟨ctxt, htransition, h⟩ := Option.bind_eq_some_iff.mp h
      rw [Option.ite_none_right_eq_some] at h
      obtain rfl := Option.some.inj h.2
      have hkept := memtableTransition_retired htransition
      exact hkept
  | acquire g =>
      obtain ⟨mt, -, h⟩ := Option.bind_eq_some_iff.mp h
      split at h
      · cases h
      · split at h
        · rw [Option.ite_none_right_eq_some] at h
          obtain rfl := Option.some.inj h.2
          rfl
        · obtain rfl := Option.some.inj h
          rfl
  | release g =>
      obtain ⟨mt, -, h⟩ := Option.bind_eq_some_iff.mp h
      obtain ⟨r, hdec, rfl⟩ := Option.map_eq_some_iff.mp h
      have hkept := congrArg MemtableContext.generationRetired (memtableDecRef_ctxt hdec)
      exact hkept
  | recycle g =>
      change recycleStep s g = some s' at h
      simp only [recycleStep] at h
      split at h
      · cases h
      · rw [Option.ite_none_right_eq_some] at h
        obtain rfl := Option.some.inj h.2
        rfl
      · obtain rfl := Option.some.inj h
        rfl
      · obtain ⟨ctxt, htransition, rfl⟩ := Option.map_eq_some_iff.mp h
        exact memtableTransition_retired htransition

end States

/-! ## Runs -/

theorem generationsTo_succ {last : Int} (h : -1 ≤ last) :
    generationsTo (last + 1) = generationsTo last ++ [last + 1] := by
  have hcount : (last + 1 + 1).toNat = (last + 1).toNat + 1 := by omega
  have hlast : Int.ofNat (last + 1).toNat = last + 1 := Int.toNat_of_nonneg (by omega)
  rw [generationsTo, generationsTo, hcount, List.range_succ, List.map_append, List.map_singleton,
    hlast]

theorem pipeline_trace {tr : List (PipelineState × PipelineAct)} {s : PipelineState}
    (hrun : pipeline.Run newPipeline tr s) :
    (Guarded NotTakenOn tr ∧ incorporated tr = generationsTo s.ctxt.generationRetired ∧
      ∃ inc, PipelineInv s inc) ∨ (¬ Guarded NotTakenOn tr ∧ s.failed = true) := by
  refine hrun.trace_invariant (P := fun tr s =>
    (Guarded NotTakenOn tr ∧ incorporated tr = generationsTo s.ctxt.generationRetired ∧
      ∃ inc, PipelineInv s inc) ∨ (¬ Guarded NotTakenOn tr ∧ s.failed = true))
    (Or.inl ⟨guarded_nil _, rfl, .done, pipelineInv_new⟩) ?_
  intro tr s a s' hbefore hstep
  change pipelineNext s a = some s' at hstep
  rw [pipelineNext, Option.ite_none_right_eq_some, Bool.and_eq_true, Bool.not_eq_true'] at hstep
  obtain ⟨⟨hok, henabled⟩, hstep⟩ := hstep
  rcases hbefore with ⟨hguarded, horder, inc, hinv⟩ | ⟨-, hfailed⟩
  swap
  · rw [hok] at hfailed
    cases hfailed
  obtain ⟨hgood, hbad⟩ := hinv.perform henabled
  rw [guarded_snoc]
  by_cases hnot : NotTakenOn s a
  · obtain ⟨s₁, inc', hperform, hinv'⟩ := hgood hnot
    rw [hperform] at hstep
    obtain rfl := Option.some.inj hstep
    refine Or.inl ⟨⟨hguarded, hnot⟩, ?_, inc', hinv'⟩
    have hretired := perform_retired hperform
    rw [incorporated, List.filterMap_append, ← incorporated, horder]
    cases hcommit : commitOf (s, a) with
    | none =>
        rw [hcommit] at hretired
        rw [List.filterMap_cons_none hcommit, List.filterMap_nil, List.append_nil, hretired]
    | some g =>
        rw [hcommit] at hretired
        obtain ⟨hnext, hnow⟩ := hretired
        rw [List.filterMap_cons_some hcommit, List.filterMap_nil, hnow, ← hnext,
          generationsTo_succ hinv.retired_ge]
  · rw [hbad hnot] at hstep
    obtain rfl := Option.some.inj hstep
    exact Or.inr ⟨fun hboth => hnot hboth.2, rfl⟩

theorem guarded_of_not_failed {tr : List (PipelineState × PipelineAct)} {s : PipelineState}
    (hrun : pipeline.Run newPipeline tr s) (hok : s.failed = false) : Guarded NotTakenOn tr := by
  rcases pipeline_trace hrun with ⟨hguarded, -⟩ | ⟨-, hfailed⟩
  · exact hguarded
  · rw [hok] at hfailed
    cases hfailed

/-- **When the incorporation pipeline works**: no assertion fails, one task incorporates at a time,
no wakeup is lost and every finalized generation is incorporated once and in order, exactly when no
task tries to start a generation that another task has taken on. -/
theorem pipeline_correct_iff {tr : List (PipelineState × PipelineAct)} {s : PipelineState}
    (hrun : pipeline.Run newPipeline tr s) : Correct tr s ↔ Guarded NotTakenOn tr := by
  constructor
  · intro hcorrect
    exact guarded_of_not_failed hrun hcorrect.sound.last.no_failure
  · intro hguarded
    have hsound : Visits (fun s => ∃ inc, PipelineInv s inc) tr s := by
      refine hrun.invariant ⟨.done, pipelineInv_new⟩ ?_ hguarded
      rintro s a s' ⟨inc, hinv⟩ hnot hstep
      change pipelineNext s a = some s' at hstep
      rw [pipelineNext, Option.ite_none_right_eq_some, Bool.and_eq_true] at hstep
      obtain ⟨s₁, inc', hperform, hinv'⟩ := (hinv.perform hstep.1.2).1 hnot
      rw [hperform] at hstep
      obtain rfl := Option.some.inj hstep.2
      exact ⟨inc', hinv'⟩
    obtain ⟨inc, hinv⟩ := hsound.last
    refine ⟨hsound.mono fun s ⟨_, hinv⟩ => hinv.sound, ?_, hinv.complete⟩
    rcases pipeline_trace hrun with ⟨-, horder, -⟩ | ⟨hnot, -⟩
    · exact horder
    · exact absurd hguarded hnot

/-- Task 0 incorporates generation 0 and then generation 1, which its own task has left to it. -/
def handover : List PipelineAct :=
  [.rotate, .rotate, .flush 0, .flush 0, .flush 0, .flush 0, .flush 1, .flush 1, .flush 1, .flush 1,
    .flush 0, .flush 0, .flush 0, .recycle 0, .recycle 0, .recycle 0, .flush 0, .flush 0, .flush 0,
    .flush 0, .flush 0, .recycle 1, .recycle 1, .recycle 1, .flush 0, .flush 0]

/-- The run of `handover` is correct and incorporates both generations. -/
theorem pipeline_correct_handover : ∃ tr s, pipeline.Run newPipeline tr s ∧
    incorporated tr = [0, 1] ∧ Correct tr s := by
  obtain ⟨tr, s, hrun, hend⟩ := exists_run (· = newPipeline) pipelineNext newPipeline
    handover (P := fun tr s => !s.failed && decide (incorporated tr = [0, 1])) (by decide)
  rw [Bool.and_eq_true, Bool.not_eq_true', decide_eq_true_eq] at hend
  exact ⟨tr, s, hrun, hend.2, (pipeline_correct_iff hrun).mpr (guarded_of_not_failed hrun hend.1)⟩

/-- The shortest overtaking: both memtables are compacted, and the task of generation 0
incorporates it and takes on generation 1 before the task of generation 1 tries to start. -/
def overtaking : List PipelineAct :=
  [.rotate, .rotate, .flush 0, .flush 0, .flush 0, .flush 1, .flush 1, .flush 1, .flush 0, .flush 0,
    .flush 0, .flush 0, .recycle 0, .recycle 0, .recycle 0, .flush 0, .flush 0, .flush 1]

/-- **An assertion fails**: in the run of `overtaking` the task of generation 1 finds its memtable
in the state `incorporationAssigned`. -/
theorem pipeline_run_fails : ∃ tr s, pipeline.Run newPipeline tr s ∧ s.failed = true ∧
    (s.ctxt.slot 1).state = .incorporationAssigned ∧ s.task 1 = .compacted ∧ ¬ Correct tr s := by
  obtain ⟨tr, s, hrun, hend⟩ := exists_run (· = newPipeline) pipelineNext newPipeline
    overtaking (P := fun _ s => s.failed && decide ((s.ctxt.slot 1).state = .incorporationAssigned) &&
      decide (s.task 1 = .compacted)) (by decide)
  simp only [Bool.and_eq_true, decide_eq_true_eq] at hend
  obtain ⟨⟨hfailed, hstate⟩, hpc⟩ := hend
  refine ⟨tr, s, hrun, hfailed, hstate, hpc, fun hcorrect => ?_⟩
  rw [hcorrect.sound.last.no_failure] at hfailed
  cases hfailed

end Pipeline
end Core
end TreePass
