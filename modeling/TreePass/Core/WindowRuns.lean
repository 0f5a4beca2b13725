import TreePass.Core.Window
import TreePass.Core.PipelineRuns

/-!
# Runs of the memtable window

The window of generations holds between one and four memtables, all of them there for lookups, and
`is_empty` tells whether the active one holds a tuple, in every run in which a shutdown that rotates
finds the next memtable ready and every rotation happens where a fresh memtable is not full.

* `TreesOk` is the invariant of the trees; `Quiet` is what most steps do to the pipeline, seen from
  there.
* `window_ok_iff`: the steps a run may take for `WindowOk` to hold throughout.
* `window_ok_shutdown`, `window_fails`: a run with and a run without a next memtable at shutdown.
-/

namespace TreePass
namespace Core
namespace Window

open Lib Lib.System Pipeline

variable {K : Type} {maxExtents : Nat}

/-! ## What is to hold -/

/-- **The window.** -/
structure WindowOk (s : WindowState K) : Prop where
  no_failure : s.pipe.failed = false
  not_empty : 1 ≤ s.generation - s.generationRetired
  at_most : s.generation - s.generationRetired ≤ coreNumMemtables
  readable : ∀ g, s.generationRetired < g → g ≤ s.generation →
    ∃ mt, s.pipe.ctxt.getMemtable g = some mt ∧ mt.okToLookup = true
  is_empty : s.isEmpty = true ↔ (s.treeOf s.generation).keys = []
  compacts_tuples : ∀ g, s.pipe.task g = .finalized ∨ s.pipe.task g = .queued ∨
    s.pipe.task g = .compacting → (s.treeOf g).keys ≠ []

/-- A shutdown that rotates finds the next memtable ready, and a rotation happens only where a fresh
memtable is not full. -/
def NextReady (maxExtents : Nat) (s : WindowState K) : WindowAct K → Prop
  | .shutdown => s.isEmpty = false → (s.pipe.ctxt.slot (s.generation + 1)).state = .ready
  | .pipe .rotate => initialExtents < maxExtents
  | _ => True

/-! ## Flush tasks -/

section Flush

variable {s s' : PipelineState} {inc : FlushPc} {t g : Int}

theorem releaseFlush_of_flushStep (h : flushStep s t = some s') : releaseFlush s t = some s' := by
  have hassign : ∀ {ctxt : MemtableContext Unit} {g : Int} {r : Bool × MemtableContext Unit},
      tryAssign ctxt g = some r → releaseTryAssign ctxt g = r := by
    intro ctxt g r hr
    obtain ⟨⟨success, mt⟩, htry, rfl⟩ := Option.map_eq_some_iff.mp hr
    rw [memtableTryTransition, if_neg (by simp [nextState])] at htry
    split at htry
    next hstate =>
      obtain ⟨rfl, rfl⟩ := Prod.mk.inj (Option.some.inj htry)
      rw [releaseTryAssign, if_pos hstate]
    next hstate =>
      rw [Option.ite_none_right_eq_some] at htry
      obtain ⟨rfl, rfl⟩ := Prod.mk.inj (Option.some.inj htry.2)
      rw [releaseTryAssign, if_neg hstate, setSlot_slot_self]
  cases hpc : s.task t with
  | compacted =>
      simp only [flushStep, hpc] at h
      obtain ⟨r, hr, rfl⟩ := Option.map_eq_some_iff.mp h
      have hstart : releaseTryStart s.ctxt t = r := by
        rw [Pipeline.coreTryStartIncorporate] at hr
        rw [releaseTryStart]
        cases hget : s.ctxt.getMemtable t with
        | none =>
            rw [hget] at hr
            exact Option.some.inj hr
        | some mt =>
            rw [hget] at hr
            by_cases hnext : t = s.ctxt.generationToIncorporate
            · simp only [if_neg (not_not.mpr hnext)] at hr ⊢
              exact hassign hr
            · simp only [if_pos hnext] at hr ⊢
              exact Option.some.inj hr
      simp only [releaseFlush, hpc, hstart]
  | prepared g =>
      simp only [flushStep, hpc] at h
      obtain ⟨ctxt, hcommit, rfl⟩ := Option.map_eq_some_iff.mp h
      have hrelease : releaseCommit s.ctxt g = some ctxt := by
        obtain ⟨mt, hget, hrest⟩ := Option.bind_eq_some_iff.mp hcommit
        rw [Option.ite_none_right_eq_some] at hrest
        rw [releaseCommit, hget]
        exact hrest.2
      simp only [releaseFlush, hpc, hrelease, Option.map_some]
  | continuing g =>
      simp only [flushStep, hpc] at h
      obtain ⟨r, hr, rfl⟩ := Option.map_eq_some_iff.mp h
      have hcontinue : releaseTryContinue s.ctxt g = some r := by
        rw [Pipeline.coreTryContinueIncorporate] at hr
        rw [releaseTryContinue]
        cases hget : s.ctxt.getMemtable g with
        | none =>
            rw [hget] at hr
            exact hr
        | some mt =>
            rw [hget] at hr
            obtain ⟨r', hr', hrest⟩ := Option.bind_eq_some_iff.mp hr
            simp only [hassign hr']
            exact hrest
      simp only [releaseFlush, hpc, hcontinue, Option.map_some]
  | _ =>
      simp only [releaseFlush, hpc]
      exact h

/-- **A flush task of a release build** passes its assertions and keeps the invariant, also when
its generation is taken on already. -/
theorem Keeps.releaseFlush (h : PipelineInv s inc) (henabled : enabled s (.flush t) = true) :
    Keeps (releaseFlush s t) := by
  have hsame : Keeps (flushStep s t) → Keeps (Window.releaseFlush s t) := by
    rintro ⟨s', inc', hstep, hinv⟩
    exact ⟨s', inc', releaseFlush_of_flushStep hstep, hinv⟩
  cases hpc : s.task t with
  | absent => simp [enabled, hpc] at henabled
  | done => simp [enabled, hpc] at henabled
  | finalized => exact hsame (h.enqueue hpc)
  | queued => exact hsame (h.compact hpc)
  | compacting => exact hsame (h.compacted hpc)
  | assigned g => exact hsame (h.prepare hpc)
  | prepared g => exact hsame (h.commit hpc).1
  | committed g => exact hsame (h.drop hpc)
  | recycling g => exact hsame (h.resume hpc)
  | continuing g => exact hsame (h.next hpc)
  | compacted =>
      by_cases htaken : inc = .assigned t ∨ inc = .prepared t
      swap
      · exact hsame (h.start hpc (not_or.mp htaken))
      have hphase : t = s.ctxt.generationRetired + 1 ∧ t < s.ctxt.generation ∧
          s.ctxt.generationToIncorporate = t ∧
          (s.ctxt.slot t).state = .incorporationAssigned := by
        rcases htaken with rfl | rfl
        · exact h.phase
        · exact h.phase
      obtain ⟨hfirst, hlt, hnext, hstate⟩ := hphase
      have hget := getMemtable_of_generation (h.live (by omega) hlt.le).generation
      refine ⟨s.goto t .done, inc, ?_, h.goto_outside (by rw [hpc]; decide) (by rw [hpc]; rfl) rfl
        (fun _ => Or.inr (Or.inl rfl)) fun _ state hslot hold => ?_⟩
      · have hassign : releaseTryAssign s.ctxt t = (false, s.ctxt) := by
          rw [releaseTryAssign, if_neg (by simp [hstate])]
        have hstart : releaseTryStart s.ctxt t = (false, s.ctxt) := by
          simp only [releaseTryStart, hget, if_neg (not_not.mpr hnext.symm), hassign]
        simp only [Window.releaseFlush, hpc, hstart]
        rfl
      · obtain rfl := hstate.symm.trans hslot
        exact ⟨Or.inr (Or.inl rfl), hold.2⟩

end Flush

/-! ## Quiet steps -/

/-- A step of the contexts that makes no memtable ready and leaves the active generation. -/
structure QuietCtxt (ctxt ctxt' : MemtableContext Unit) : Prop where
  generation : ctxt'.generation = ctxt.generation
  retired : ctxt.generationRetired ≤ ctxt'.generationRetired
  ready : ∀ i, (ctxt'.mt i).state = .ready → (ctxt.mt i).state = .ready

theorem QuietCtxt.refl (ctxt : MemtableContext Unit) : QuietCtxt ctxt ctxt :=
  ⟨rfl, le_rfl, fun _ h => h⟩

theorem QuietCtxt.trans {c₁ c₂ c₃ : MemtableContext Unit} (h : QuietCtxt c₁ c₂)
    (h' : QuietCtxt c₂ c₃) : QuietCtxt c₁ c₃ :=
  ⟨h'.generation.trans h.generation, h.retired.trans h'.retired, fun i hi => h.ready i (h'.ready i hi)⟩

theorem quietCtxt_setSlot (ctxt : MemtableContext Unit) (g : Int) {mt : Memtable Unit}
    (hstate : mt.state ≠ .ready) : QuietCtxt ctxt (ctxt.setSlot g mt) where
  generation := rfl
  retired := le_rfl
  ready := fun i hi => by
    change (Function.update ctxt.mt (memtableIdx g) mt i).state = .ready at hi
    by_cases heq : i = memtableIdx g
    · subst heq
      rw [Function.update_self] at hi
      exact absurd hi hstate
    · rwa [Function.update_of_ne heq] at hi

theorem quietCtxt_transition {ctxt ctxt' : MemtableContext Unit} {g : Int} {old new : MemtableState}
    (h : memtableTransition ctxt g old new = some ctxt') (hnew : new ≠ .ready) :
    QuietCtxt ctxt ctxt' := by
  rw [memtableTransition] at h
  split at h
  next mt htry =>
    obtain rfl := Option.some.inj h
    rw [memtableTryTransition] at htry
    split at htry
    · cases htry
    · split at htry
      · obtain ⟨-, rfl⟩ := Prod.mk.inj (Option.some.inj htry)
        exact quietCtxt_setSlot ctxt g hnew
      · rw [Option.ite_none_right_eq_some] at htry
        cases htry.2
  · cases h
  · cases h

theorem quietCtxt_tryAssign (ctxt : MemtableContext Unit) (g : Int) :
    QuietCtxt ctxt (releaseTryAssign ctxt g).2 := by
  rw [releaseTryAssign]
  split
  · exact quietCtxt_setSlot ctxt g (by rw [withState_state]; decide)
  · exact QuietCtxt.refl ctxt

theorem quietCtxt_tryStart (ctxt : MemtableContext Unit) (g : Int) :
    QuietCtxt ctxt (releaseTryStart ctxt g).2 := by
  rw [releaseTryStart]
  split
  · exact QuietCtxt.refl ctxt
  · split
    · exact QuietCtxt.refl ctxt
    · exact quietCtxt_tryAssign ctxt g

theorem quietCtxt_tryContinue {ctxt : MemtableContext Unit} {g : Int}
    {r : Bool × MemtableContext Unit} (h : releaseTryContinue ctxt g = some r) :
    QuietCtxt ctxt r.2 := by
  rw [releaseTryContinue] at h
  split at h
  · obtain rfl := Option.some.inj h
    exact QuietCtxt.refl ctxt
  · obtain ⟨ctxt', hincrement, rfl⟩ := Option.map_eq_some_iff.mp h
    rw [incrementToGenerationToIncorporate, Option.ite_none_right_eq_some] at hincrement
    obtain rfl := Option.some.inj hincrement.2
    have hassign := quietCtxt_tryAssign ctxt g
    exact ⟨hassign.generation, hassign.retired, hassign.ready⟩

theorem quietCtxt_commit {ctxt ctxt' : MemtableContext Unit} {g : Int}
    (h : releaseCommit ctxt g = some ctxt') : QuietCtxt ctxt ctxt' := by
  obtain ⟨-, -, h⟩ := Option.bind_eq_some_iff.mp h
  obtain ⟨ctxt₁, hfirst, h⟩ := Option.bind_eq_some_iff.mp h
  obtain ⟨ctxt₂, hsecond, h⟩ := Option.bind_eq_some_iff.mp h
  rw [incrementToGenerationRetired, Option.ite_none_right_eq_some] at h
  obtain rfl := Option.some.inj h.2
  have hboth := (quietCtxt_transition hfirst (by decide)).trans
    (quietCtxt_transition hsecond (by decide))
  exact ⟨hboth.generation, hboth.retired.trans (Int.le_add_one le_rfl), hboth.ready⟩

/-- A step of the pipeline that makes no memtable ready, leaves the active generation, and at most
starts to recycle a generation. -/
structure Quiet (s s' : PipelineState) : Prop where
  ctxt : QuietCtxt s.ctxt s'.ctxt
  recycling : ∀ g, s'.recycling g = some .freed ∨ s'.recycling g = s.recycling g

section QuietSteps

variable {s s' : PipelineState} {t g : Int}

theorem quiet_of_ctxt (h : QuietCtxt s.ctxt s'.ctxt) (hrec : s'.recycling = s.recycling) :
    Quiet s s' := ⟨h, fun g => Or.inr (congrFun hrec g)⟩

theorem quiet_decRef {r : Bool × PipelineState} (h : memtableDecRef s g = some r) : Quiet s r.2 := by
  rw [memtableDecRef] at h
  split at h
  · cases h
  · obtain rfl := Option.some.inj h
    refine ⟨QuietCtxt.refl _, fun g' => ?_⟩
    by_cases hne : g' = g
    · subst hne
      exact Or.inl setRecycling_recycling_self
    · exact Or.inr (setRecycling_recycling_of_ne hne)
  · obtain rfl := Option.some.inj h
    exact quiet_of_ctxt (QuietCtxt.refl _) rfl

theorem quiet_flushStep (hcompacted : s.task t ≠ .compacted) (hprepared : ∀ g, s.task t ≠ .prepared g)
    (hcontinuing : ∀ g, s.task t ≠ .continuing g) (h : flushStep s t = some s') : Quiet s s' := by
  rw [flushStep] at h
  cases hpc : s.task t with
  | compacted => exact absurd hpc hcompacted
  | prepared g => exact absurd hpc (hprepared g)
  | continuing g => exact absurd hpc (hcontinuing g)
  | absent => rw [hpc] at h; cases h
  | done => rw [hpc] at h; cases h
  | finalized =>
      rw [hpc] at h
      simp only [Option.ite_none_right_eq_some, Option.some.injEq] at h
      obtain ⟨-, rfl⟩ := h
      exact quiet_of_ctxt (QuietCtxt.refl _) rfl
  | assigned g =>
      rw [hpc] at h
      simp only [Option.ite_none_right_eq_some, Option.some.injEq] at h
      obtain ⟨-, rfl⟩ := h
      exact quiet_of_ctxt (QuietCtxt.refl _) rfl
  | recycling g =>
      rw [hpc] at h
      obtain rfl := Option.some.inj h
      exact quiet_of_ctxt (QuietCtxt.refl _) rfl
  | queued =>
      rw [hpc] at h
      obtain ⟨-, -, h⟩ := Option.bind_eq_some_iff.mp h
      obtain ⟨ctxt, htransition, h⟩ := Option.bind_eq_some_iff.mp h
      rw [Option.ite_none_right_eq_some] at h
      obtain rfl := Option.some.inj h.2
      exact quiet_of_ctxt (quietCtxt_transition htransition (by decide)) rfl
  | compacting =>
      rw [hpc] at h
      obtain ⟨ctxt, htransition, rfl⟩ := Option.map_eq_some_iff.mp h
      exact quiet_of_ctxt (quietCtxt_transition htransition (by decide)) rfl
  | committed g =>
      rw [hpc] at h
      obtain ⟨r, hdec, rfl⟩ := Option.map_eq_some_iff.mp h
      have hquiet := quiet_decRef hdec
      exact ⟨hquiet.ctxt, hquiet.recycling⟩

theorem quiet_releaseFlush (h : releaseFlush s t = some s') : Quiet s s' := by
  rw [releaseFlush] at h
  split at h
  · obtain rfl := Option.some.inj h
    exact quiet_of_ctxt (quietCtxt_tryStart _ _) rfl
  · obtain ⟨ctxt, hcommit, rfl⟩ := Option.map_eq_some_iff.mp h
    exact quiet_of_ctxt (quietCtxt_commit hcommit) rfl
  · obtain ⟨r, hcontinue, rfl⟩ := Option.map_eq_some_iff.mp h
    exact quiet_of_ctxt (quietCtxt_tryContinue hcontinue) rfl
  next hcompacted hprepared hcontinuing =>
    exact quiet_flushStep hcompacted hprepared hcontinuing h

theorem quiet_acquire (h : acquireMemtable s g = some s') : Quiet s s' := by
  obtain ⟨mt, -, h⟩ := Option.bind_eq_some_iff.mp h
  split at h
  · cases h
  · split at h
    · rw [Option.ite_none_right_eq_some] at h
      obtain rfl := Option.some.inj h.2
      exact quiet_of_ctxt (QuietCtxt.refl _) rfl
    · obtain rfl := Option.some.inj h
      exact quiet_of_ctxt (QuietCtxt.refl _) rfl

theorem quiet_release (h : releaseMemtable s g = some s') : Quiet s s' := by
  obtain ⟨mt, -, h⟩ := Option.bind_eq_some_iff.mp h
  obtain ⟨r, hdec, rfl⟩ := Option.map_eq_some_iff.mp h
  have hquiet := quiet_decRef hdec
  exact ⟨hquiet.ctxt, hquiet.recycling⟩

end QuietSteps

/-! ## The invariant -/

/-- **The invariant of the trees**: a memtable that waits to be incorporated has a tuple, the others
have fresh trees, and `is_empty` says which holds for the active one. -/
structure TreesOk (maxExtents : Nat) (s : WindowState K) : Prop where
  waiting : ∀ g, s.generationRetired < g → g < s.generation → (s.treeOf g).keys ≠ []
  active : s.isEmpty = true ↔ (s.treeOf s.generation).keys = []
  fresh : (s.treeOf s.generation).keys = [] → s.treeOf s.generation = btreeCreate
  spare : ∀ i, i ≠ memtableIdx s.generation → (s.pipe.ctxt.mt i).state = .ready →
    s.tree i = btreeCreate
  recycled : ∀ g, s.pipe.recycling g = some .created ∨ s.pipe.recycling g = some .bumped →
    s.treeOf g = btreeCreate
  extents : ∀ i, initialExtents ≤ (s.tree i).numExtents
  small : maxExtents ≤ initialExtents → ∀ i, (s.tree i).keys = []

/-- **The invariant.** -/
structure WindowInv (maxExtents : Nat) (s : WindowState K) : Prop where
  pipe : ∃ inc, PipelineInv s.pipe inc
  trees : TreesOk maxExtents s

section Steps

variable {s s' : WindowState K} {g : Int}

theorem canLookup_of_inv {p : PipelineState} {inc : FlushPc} (h : PipelineInv p inc)
    (hlo : p.ctxt.generationRetired < g) (hhi : g ≤ p.ctxt.generation) :
    p.ctxt.getMemtable g = some (p.ctxt.slot g) ∧ (p.ctxt.slot g).okToLookup = true ∧
      canLookup p.ctxt g = true := by
  have hlive := h.live hlo hhi
  have hget := getMemtable_of_generation hlive.generation
  have hlookup : (p.ctxt.slot g).okToLookup = true := by
    by_cases hwaits : g < p.ctxt.generation
    · have hmatch := hlive.waiting hwaits
      cases hslot : (p.ctxt.slot g).state <;> rw [hslot] at hmatch <;>
        first | exact absurd hmatch id | simp [Memtable.okToLookup, hslot]
    · simp [Memtable.okToLookup, hlive.active (by omega)]
  refine ⟨hget, hlookup, ?_⟩
  rw [canLookup, hget]
  by_cases hcompacted : (p.ctxt.slot g).okToLookupCompacted = true
  · have hready : (p.ctxt.slot g).state ≠ .ready := by
      intro hready
      simp [Memtable.okToLookupCompacted, hready] at hcompacted
    simp [hlookup, hasCompactedMemtable_eq hlive.generation hready]
  · simp [hlookup, hcompacted]

theorem WindowInv.ok (h : WindowInv maxExtents s) : WindowOk s := by
  obtain ⟨inc, hpipe⟩ := h.pipe
  have hlt := hpipe.retired_lt
  have hle := hpipe.generation_le
  exact
    { no_failure := hpipe.not_failed
      not_empty := by change 1 ≤ s.pipe.ctxt.generation - s.pipe.ctxt.generationRetired; omega
      at_most := by change s.pipe.ctxt.generation - s.pipe.ctxt.generationRetired ≤ 4; omega
      readable := fun g hlo hhi =>
        have hcan := canLookup_of_inv hpipe hlo hhi
        ⟨_, hcan.1, hcan.2.1⟩
      is_empty := h.trees.active
      compacts_tuples := fun g hpc => by
        have hnotLate : s.pipe.task g ≠ .absent ∧ ¬ (s.pipe.task g).late := by
          rcases hpc with hpc | hpc | hpc <;> rw [hpc] <;> simp [FlushPc.late, FlushPc.inside]
        obtain ⟨hlo, hhi⟩ := hpipe.window hnotLate.1 hnotLate.2
        exact h.trees.waiting g hlo hhi }

theorem windowInv_new : WindowInv maxExtents (newWindow : WindowState K) where
  pipe := ⟨.done, pipelineInv_new⟩
  trees :=
    { waiting := fun g hlo hhi => by
        change -1 < g at hlo
        change g < 0 at hhi
        omega
      active := by simp [newWindow, WindowState.treeOf, btreeCreate]
      fresh := fun _ => rfl
      spare := fun _ _ _ => rfl
      recycled := fun _ _ => rfl
      extents := fun _ => le_rfl
      small := fun _ _ => rfl }

theorem TreesOk.quiet (h : TreesOk maxExtents s) {p : PipelineState} (hquiet : Quiet s.pipe p) :
    TreesOk maxExtents (⟨p, s.isEmpty, s.tree⟩ : WindowState K) := by
  have hgeneration : p.ctxt.generation = s.generation := hquiet.ctxt.generation
  refine
    { waiting := fun g hlo hhi => h.waiting g (lt_of_le_of_lt hquiet.ctxt.retired hlo) ?_
      active := ?_
      fresh := ?_
      spare := fun i hi hready => h.spare i ?_ (hquiet.ctxt.ready i hready)
      recycled := fun g hg => ?_
      extents := h.extents
      small := h.small }
  · rw [← hgeneration]
    exact hhi
  · change s.isEmpty = true ↔ (s.treeOf p.ctxt.generation).keys = []
    rw [hgeneration]
    exact h.active
  · change (s.treeOf p.ctxt.generation).keys = [] → s.treeOf p.ctxt.generation = btreeCreate
    rw [hgeneration]
    exact h.fresh
  · rw [← hgeneration]
    exact hi
  · rcases hquiet.recycling g with hfreed | hsame
    · change p.recycling g = _ ∨ p.recycling g = _ at hg
      rw [hfreed] at hg
      rcases hg with hg | hg <;> cases hg
    · change p.recycling g = _ ∨ p.recycling g = _ at hg
      rw [hsame] at hg
      exact h.recycled g hg

theorem WindowInv.rotate (h : WindowInv maxExtents s)
    (hready : (s.pipe.ctxt.slot s.generation).state = .ready)
    (hnext : (s.pipe.ctxt.slot (s.generation + 1)).state = .ready)
    (hkeys : (s.treeOf s.generation).keys ≠ []) :
    ∃ p, Pipeline.memtableRotate s.pipe = some p ∧ WindowInv maxExtents ⟨p, true, s.tree⟩ := by
  obtain ⟨inc, hpipe⟩ := h.pipe
  obtain ⟨p, inc', hrotate, hinv⟩ := hpipe.rotate hready hnext
  refine ⟨p, hrotate, ⟨inc', hinv⟩, ?_⟩
  obtain ⟨ctxt, htransition, hrest⟩ := Option.bind_eq_some_iff.mp hrotate
  rw [Option.ite_none_right_eq_some] at hrest
  obtain rfl := Option.some.inj hrest.2
  obtain rfl := Option.some.inj ((memtableTransition_eq hready rfl).symm.trans htransition)
  have hidx : memtableIdx s.generation ≠ memtableIdx (s.generation + 1) := by
    intro heq
    have := memtableIdx_inj (r := s.generation - 1) (by omega) (by omega) (by omega) (by omega) heq
    omega
  have hfresh : s.treeOf (s.generation + 1) = btreeCreate := h.trees.spare _ hidx.symm hnext
  refine
    { waiting := fun g hlo hhi => ?_
      active := ?_
      fresh := fun _ => hfresh
      spare := fun i hi hstate => ?_
      recycled := h.trees.recycled
      extents := h.trees.extents
      small := h.trees.small }
  · change g < s.generation + 1 at hhi
    by_cases heq : g = s.generation
    · subst heq
      exact hkeys
    · exact h.trees.waiting g hlo (by omega)
  · change true = true ↔ (s.treeOf (s.generation + 1)).keys = []
    rw [hfresh]
    exact iff_of_true rfl rfl
  · change i ≠ memtableIdx (s.generation + 1) at hi
    change (Function.update s.pipe.ctxt.mt (memtableIdx s.generation) _ i).state = .ready at hstate
    by_cases heq : i = memtableIdx s.generation
    · subst heq
      rw [Function.update_self] at hstate
      cases hstate
    · rw [Function.update_of_ne heq] at hstate
      exact h.trees.spare i heq hstate

theorem WindowInv.setActive (h : WindowInv maxExtents s) {tree : MemtableTree K} {empty : Bool}
    (hempty : empty = true ↔ tree.keys = []) (hfresh : tree.keys = [] → tree = btreeCreate)
    (hextents : initialExtents ≤ tree.numExtents) (hlarge : initialExtents < maxExtents) :
    WindowInv maxExtents { s.setTree s.generation tree with isEmpty := empty } := by
  obtain ⟨inc, hpipe⟩ := h.pipe
  have hle := hpipe.generation_le
  have hlt := hpipe.retired_lt
  have hself : Function.update s.tree (memtableIdx s.generation) tree (memtableIdx s.generation) =
      tree := Function.update_self ..
  have hother : ∀ i, i ≠ memtableIdx s.generation →
      Function.update s.tree (memtableIdx s.generation) tree i = s.tree i :=
    fun i hi => Function.update_of_ne hi ..
  refine ⟨⟨inc, hpipe⟩,
    { waiting := fun g hlo hhi => ?_
      active := ?_
      fresh := ?_
      spare := fun i hi hready => (hother i hi).trans (h.trees.spare i hi hready)
      recycled := fun g hg => ?_
      extents := fun i => ?_
      small := fun hsmall => absurd hlarge (not_lt.mpr hsmall) }⟩
  · change s.pipe.ctxt.generationRetired < g at hlo
    change g < s.pipe.ctxt.generation at hhi
    have hidx : memtableIdx g ≠ memtableIdx s.generation := fun heq =>
      absurd (memtableIdx_inj hlo (by omega) hlt hle heq) (by omega)
    change (Function.update s.tree (memtableIdx s.generation) tree (memtableIdx g)).keys ≠ []
    rw [hother _ hidx]
    exact h.trees.waiting g hlo hhi
  · change empty = true ↔
      (Function.update s.tree (memtableIdx s.generation) tree (memtableIdx s.generation)).keys = []
    rw [hself]
    exact hempty
  · change (Function.update s.tree _ tree (memtableIdx s.generation)).keys = [] →
      Function.update s.tree _ tree (memtableIdx s.generation) = btreeCreate
    rw [hself]
    exact hfresh
  · have hnone : s.pipe.recycling g ≠ none := by
      change s.pipe.recycling g = _ ∨ s.pipe.recycling g = _ at hg
      rcases hg with hg | hg <;> rw [hg] <;> simp
    obtain ⟨hlo, hhi⟩ := hpipe.recycling_window g hnone
    obtain ⟨hspare, -, -⟩ := hpipe.remains hlo hhi (Or.inr (Or.inl hnone))
    have hidx : memtableIdx g ≠ memtableIdx s.generation := fun heq =>
      absurd (memtableIdx_inj (r := s.pipe.ctxt.generationRetired) (by omega) (by omega) hlt hle
        ((memtableIdx_add g).trans heq)) (by omega)
    change Function.update s.tree _ tree (memtableIdx g) = btreeCreate
    rw [hother _ hidx]
    exact h.trees.recycled g hg
  · change initialExtents ≤ (Function.update s.tree _ tree i).numExtents
    by_cases hi : i = memtableIdx s.generation
    · subst hi
      rw [hself]
      exact hextents
    · rw [hother i hi]
      exact h.trees.extents i

theorem TreesOk.create (h : TreesOk maxExtents s)
    (hidx : ∀ g', s.generationRetired < g' → g' ≤ s.generation → memtableIdx g' ≠ memtableIdx g)
    (hlt : s.generationRetired < s.generation) {p : PipelineState} (hctxt : p.ctxt = s.pipe.ctxt)
    (hrec : ∀ g', g' ≠ g → p.recycling g' = s.pipe.recycling g') :
    TreesOk maxExtents
      ⟨p, s.isEmpty, Function.update s.tree (memtableIdx g) btreeCreate⟩ := by
  have hself : Function.update s.tree (memtableIdx g) btreeCreate (memtableIdx g) = btreeCreate :=
    Function.update_self ..
  have hother : ∀ i, i ≠ memtableIdx g →
      Function.update s.tree (memtableIdx g) btreeCreate i = s.tree i :=
    fun i hi => Function.update_of_ne hi ..
  have hactive := hother _ (hidx s.generation hlt le_rfl)
  have hgeneration : p.ctxt.generation = s.generation := congrArg MemtableContext.generation hctxt
  have hretired : p.ctxt.generationRetired = s.generationRetired :=
    congrArg MemtableContext.generationRetired hctxt
  refine
    { waiting := fun g' hlo hhi => ?_
      active := ?_
      fresh := ?_
      spare := fun i hi hready => ?_
      recycled := fun g' hg' => ?_
      extents := fun i => ?_
      small := fun hsmall i => ?_ }
  · change p.ctxt.generationRetired < g' at hlo
    change g' < p.ctxt.generation at hhi
    rw [hretired] at hlo
    rw [hgeneration] at hhi
    change (Function.update s.tree (memtableIdx g) btreeCreate (memtableIdx g')).keys ≠ []
    rw [hother _ (hidx g' hlo (le_of_lt hhi))]
    exact h.waiting g' hlo hhi
  · change s.isEmpty = true ↔
      (Function.update s.tree (memtableIdx g) btreeCreate (memtableIdx p.ctxt.generation)).keys = []
    rw [hgeneration, hactive]
    exact h.active
  · change (Function.update s.tree (memtableIdx g) _ (memtableIdx p.ctxt.generation)).keys = [] →
      Function.update s.tree (memtableIdx g) _ (memtableIdx p.ctxt.generation) = btreeCreate
    rw [hgeneration, hactive]
    exact h.fresh
  · change i ≠ memtableIdx p.ctxt.generation at hi
    change (p.ctxt.mt i).state = .ready at hready
    change Function.update s.tree (memtableIdx g) btreeCreate i = btreeCreate
    rw [hgeneration] at hi
    rw [hctxt] at hready
    by_cases heq : i = memtableIdx g
    · rw [heq, hself]
    · rw [hother i heq]
      exact h.spare i hi hready
  · change Function.update s.tree (memtableIdx g) btreeCreate (memtableIdx g') = btreeCreate
    by_cases heq : memtableIdx g' = memtableIdx g
    · rw [heq, hself]
    · have hne : g' ≠ g := fun hg => heq (by rw [hg])
      change p.recycling g' = _ ∨ p.recycling g' = _ at hg'
      rw [hrec g' hne] at hg'
      rw [hother _ heq]
      exact h.recycled g' hg'
  · change initialExtents ≤ (Function.update s.tree (memtableIdx g) btreeCreate i).numExtents
    by_cases heq : i = memtableIdx g
    · rw [heq, hself]
      exact le_rfl
    · rw [hother i heq]
      exact h.extents i
  · change (Function.update s.tree (memtableIdx g) btreeCreate i).keys = []
    by_cases heq : i = memtableIdx g
    · rw [heq, hself]
      rfl
    · rw [hother i heq]
      exact h.small hsmall i

theorem TreesOk.refit (h : TreesOk maxExtents s) (hfresh : s.treeOf g = btreeCreate)
    {p : PipelineState} (hgeneration : p.ctxt.generation = s.generation)
    (hretired : p.ctxt.generationRetired = s.generationRetired)
    (hmt : ∀ i, i ≠ memtableIdx g → p.ctxt.mt i = s.pipe.ctxt.mt i)
    (hrec : ∀ g', g' ≠ g → p.recycling g' = s.pipe.recycling g') :
    TreesOk maxExtents ⟨p, s.isEmpty, s.tree⟩ := by
  refine
    { waiting := fun g' hlo hhi => h.waiting g' ?_ ?_
      active := ?_
      fresh := ?_
      spare := fun i hi hready => ?_
      recycled := fun g' hg' => ?_
      extents := h.extents
      small := h.small }
  · rw [← hretired]
    exact hlo
  · rw [← hgeneration]
    exact hhi
  · change s.isEmpty = true ↔ (s.treeOf p.ctxt.generation).keys = []
    rw [hgeneration]
    exact h.active
  · change (s.treeOf p.ctxt.generation).keys = [] → s.treeOf p.ctxt.generation = btreeCreate
    rw [hgeneration]
    exact h.fresh
  · change i ≠ memtableIdx p.ctxt.generation at hi
    change (p.ctxt.mt i).state = .ready at hready
    by_cases heq : i = memtableIdx g
    · rw [heq]
      exact hfresh
    · rw [hgeneration] at hi
      rw [hmt i heq] at hready
      exact h.spare i hi hready
  · by_cases heq : g' = g
    · rw [heq]
      exact hfresh
    · change p.recycling g' = _ ∨ p.recycling g' = _ at hg'
      rw [hrec g' heq] at hg'
      exact h.recycled g' hg'

theorem WindowInv.recycle [DecidableEq K] (h : WindowInv maxExtents s)
    (hrec : s.pipe.recycling g ≠ none) :
    ∃ s', windowPerform s (.pipe (.recycle g)) = some s' ∧ WindowInv maxExtents s' := by
  obtain ⟨inc, hpipe⟩ := h.pipe
  have hle := hpipe.generation_le
  have hlt := hpipe.retired_lt
  obtain ⟨hlo, hhi⟩ := hpipe.recycling_window g hrec
  obtain ⟨hspare, -, -⟩ := hpipe.remains hlo hhi (Or.inr (Or.inl hrec))
  obtain ⟨p, inc', hrecycle, hinv⟩ := hpipe.recycle hrec
  have hidx : ∀ g', s.generationRetired < g' → g' ≤ s.generation → memtableIdx g' ≠ memtableIdx g := by
    intro g' hlo' hhi' heq
    change s.pipe.ctxt.generationRetired < g' at hlo'
    change g' ≤ s.pipe.ctxt.generation at hhi'
    have := memtableIdx_inj hlo' (by omega) (by omega) (by omega)
      (heq.trans (memtableIdx_add g).symm)
    omega
  refine ⟨_, by simp only [windowPerform, hrecycle, Option.map_some]; rfl, ⟨inc', hinv⟩, ?_⟩
  cases hstage : s.pipe.recycling g with
  | none => exact absurd hstage hrec
  | some stage =>
      simp only [recycleStep, hstage] at hrecycle
      cases stage with
      | freed =>
          rw [Option.ite_none_right_eq_some] at hrecycle
          obtain rfl := Option.some.inj hrecycle.2
          rw [if_pos rfl]
          exact h.trees.create hidx hlt rfl fun g' hne => setRecycling_recycling_of_ne hne
      | created =>
          obtain rfl := Option.some.inj hrecycle
          rw [if_neg (by simp)]
          exact h.trees.refit (h.trees.recycled g (Or.inl hstage)) rfl rfl
            (fun i hi => Function.update_of_ne hi ..) fun g' hne => setRecycling_recycling_of_ne hne
      | bumped =>
          obtain ⟨ctxt, htransition, rfl⟩ := Option.map_eq_some_iff.mp hrecycle
          rw [if_neg (by simp)]
          rw [memtableTransition] at htransition
          split at htransition
          next mt htry =>
            obtain rfl := Option.some.inj htransition
            exact h.trees.refit (h.trees.recycled g (Or.inr hstage)) rfl rfl
              (fun i hi => Function.update_of_ne hi ..) fun g' hne => setRecycling_recycling_of_ne hne
          · cases htransition
          · cases htransition

theorem lookupPasses_of_inv {p : PipelineState} {inc : FlushPc} (h : PipelineInv p inc) :
    lookupPasses p.ctxt = true := by
  have hlt := h.retired_lt
  have hle := h.generation_le
  have hfour : (coreNumMemtables : Int) = 4 := rfl
  rw [lookupPasses, Bool.and_eq_true, Bool.and_eq_true, decide_eq_true_eq, decide_eq_true_eq,
    List.all_eq_true]
  refine ⟨⟨by omega, by omega⟩, fun i hi => ?_⟩
  rw [List.mem_range] at hi
  exact (canLookup_of_inv h (by omega) (by omega)).2.2

end Steps

/-! ## One step -/

section OneStep

variable [DecidableEq K] {s s' : WindowState K} {a : WindowAct K}

omit [DecidableEq K] in
theorem WindowInv.keys_of_full (h : WindowInv maxExtents s) (hlarge : initialExtents < maxExtents)
    (hfull : memtableIsFull maxExtents (s.treeOf s.generation) = true) :
    (s.treeOf s.generation).keys ≠ [] := by
  intro hempty
  rw [h.trees.fresh hempty, memtableIsFull, decide_eq_true_eq] at hfull
  exact absurd hlarge (not_lt.mpr hfull)

theorem WindowInv.perform (h : WindowInv maxExtents s) (henabled : windowEnabled maxExtents s a = true)
    (hguard : NextReady maxExtents s a) :
    ∃ s', windowPerform s a = some s' ∧ WindowInv maxExtents s' := by
  obtain ⟨inc, hpipe⟩ := h.pipe
  have hactive : (s.pipe.ctxt.slot s.generation).state = .ready :=
    (hpipe.live hpipe.retired_lt le_rfl).active le_rfl
  have hget : s.pipe.ctxt.getMemtable s.generation = some (s.pipe.ctxt.slot s.generation) :=
    getMemtable_of_generation (hpipe.live hpipe.retired_lt le_rfl).generation
  -- a memtable takes inserts only where a fresh one is not full
  have hlarge : memtableIsFull maxExtents (s.treeOf s.generation) = false →
      initialExtents < maxExtents := by
    intro hfull
    rw [memtableIsFull, decide_eq_false_iff_not, not_le] at hfull
    exact lt_of_le_of_lt (h.trees.extents _) hfull
  cases a with
  | insert k newExtents =>
      rw [windowEnabled, Bool.and_eq_true, Bool.not_eq_true'] at henabled
      refine ⟨_, by simp only [windowPerform, hget, Option.map_some]; rfl,
        h.setActive ?_ ?_ ?_ (hlarge henabled.2)⟩
      · rw [btreeInsert]
        split
        next hmem =>
          change (s.isEmpty && !false) = true ↔ (s.treeOf s.generation).keys = []
          rw [Bool.not_false, Bool.and_true]
          exact h.trees.active
        next hmem =>
          change (s.isEmpty && !true) = true ↔ k :: (s.treeOf s.generation).keys = []
          simp
      · rw [btreeInsert]
        split
        next hmem =>
          intro hempty
          change (s.treeOf s.generation).keys = [] at hempty
          rw [hempty] at hmem
          cases hmem
        next hmem =>
          intro hempty
          cases hempty
      · have hextents := h.trees.extents (memtableIdx s.generation)
        rw [btreeInsert]
        split
        · exact Nat.le_trans hextents (Nat.le_add_right _ _)
        · exact Nat.le_trans hextents (Nat.le_add_right _ _)
  | insertFails newExtents =>
      rw [windowEnabled, Bool.and_eq_true, Bool.not_eq_true'] at henabled
      have hperform : windowPerform s (.insertFails newExtents) =
          some (s.setTree s.generation (btreeInsertFails (s.treeOf s.generation) newExtents)) := by
        simp only [windowPerform, hget, Option.map_some]
      refine ⟨_, hperform, h.setActive ?_ ?_ ?_ (hlarge henabled.2)⟩
      · rw [btreeInsertFails]
        split
        · exact h.trees.active
        next hkeys => rw [h.trees.active, hkeys]
      · rw [btreeInsertFails]
        split
        · exact h.trees.fresh
        next hkeys => rw [hkeys]; simp
      · have hextents := h.trees.extents (memtableIdx s.generation)
        rw [btreeInsertFails]
        split
        · exact hextents
        · exact Nat.le_trans hextents (Nat.le_add_right _ _)
  | lookup =>
      exact ⟨s, by rw [windowPerform, lookupPasses_of_inv hpipe, if_pos rfl], h⟩
  | shutdown =>
      cases hempty : s.isEmpty with
      | true => exact ⟨s, by simp only [windowPerform, hempty, if_true], h⟩
      | false =>
          have hkeys : (s.treeOf s.generation).keys ≠ [] := fun hnil => by
            rw [h.trees.active.mpr hnil] at hempty
            cases hempty
          obtain ⟨p, hrotate, hinv⟩ := h.rotate hactive (hguard hempty) hkeys
          refine ⟨_, ?_, hinv⟩
          simp only [windowPerform, hempty, Bool.false_eq_true, if_false, memtableForceFinalize,
            hrotate, Option.map_some]
  | pipe a =>
      cases a with
      | rotate =>
          rw [windowEnabled, enabled, Bool.and_eq_true, Bool.and_eq_true, beq_iff_eq,
            beq_iff_eq] at henabled
          obtain ⟨p, hrotate, hinv⟩ :=
            h.rotate henabled.1.1 henabled.1.2 (h.keys_of_full hguard henabled.2)
          exact ⟨_, by rw [windowPerform, hrotate, Option.map_some], hinv⟩
      | recycle g =>
          rw [windowEnabled, enabled, Option.isSome_iff_ne_none] at henabled
          · exact h.recycle henabled
          · intro hcontra
            cases hcontra
      | acquire g =>
          rw [windowEnabled, enabled, Bool.and_eq_true, decide_eq_true_eq,
            decide_eq_true_eq] at henabled
          · obtain ⟨p, inc', hacquire, hinv⟩ := hpipe.acquire henabled.1 henabled.2
            exact ⟨_, by simp only [windowPerform, Pipeline.perform, hacquire, Option.map_some],
              ⟨inc', hinv⟩, h.trees.quiet (quiet_acquire hacquire)⟩
          · intro hcontra
            cases hcontra
      | release g =>
          rw [windowEnabled, enabled, decide_eq_true_eq] at henabled
          · obtain ⟨p, inc', hrelease, hinv⟩ := hpipe.release henabled
            exact ⟨_, by simp only [windowPerform, Pipeline.perform, hrelease, Option.map_some],
              ⟨inc', hinv⟩, h.trees.quiet (quiet_release hrelease)⟩
          · intro hcontra
            cases hcontra
      | flush t =>
          obtain ⟨p, inc', hflush, hinv⟩ := Keeps.releaseFlush hpipe (t := t) henabled
          have htuple : ¬ (s.pipe.task t = .compacting ∧ (s.treeOf t).keys = []) := fun hboth =>
            h.ok.compacts_tuples t (Or.inr (Or.inr hboth.1)) hboth.2
          exact ⟨_, by simp only [windowPerform, if_neg htuple, hflush, Option.map_some],
            ⟨inc', hinv⟩, h.trees.quiet (quiet_releaseFlush hflush)⟩

theorem memtableRotate_eq_some {p p' : PipelineState} (h : Pipeline.memtableRotate p = some p') :
    p'.ctxt.generation = p.ctxt.generation + 1 ∧
      p.ctxt.generation + 1 - p.ctxt.generationRetired ≤ coreNumMemtables ∧
      p'.ctxt.generationRetired = p.ctxt.generationRetired ∧
      p'.ctxt.slot (p.ctxt.generation + 1) = p.ctxt.slot (p.ctxt.generation + 1) ∧
      p'.task p.ctxt.generation = .finalized := by
  obtain ⟨ctxt, htransition, hrest⟩ := Option.bind_eq_some_iff.mp h
  rw [Option.ite_none_right_eq_some] at hrest
  obtain ⟨hroom, hp'⟩ := hrest
  obtain rfl := Option.some.inj hp'
  have hidx : memtableIdx (p.ctxt.generation + 1) ≠ memtableIdx p.ctxt.generation := by
    intro heq
    have := memtableIdx_inj (r := p.ctxt.generation - 1) (by omega) (by omega) (by omega)
      (by omega) heq
    omega
  rw [memtableTransition] at htransition
  split at htransition
  next mt htry =>
    obtain rfl := Option.some.inj htransition
    exact ⟨rfl, hroom, rfl, slot_setSlot_other _ mt hidx, goto_task_self⟩
  · cases htransition
  · cases htransition

theorem WindowInv.lose (h : WindowInv maxExtents s) (hguard : ¬ NextReady maxExtents s a)
    (hstep : windowNext maxExtents s a = some s') : ¬ WindowOk s' := by
  obtain ⟨inc, hpipe⟩ := h.pipe
  intro hok
  rw [windowNext, Option.ite_none_right_eq_some] at hstep
  obtain ⟨-, hstep⟩ := hstep
  -- the step has not failed, or the state says so
  have hperform : windowPerform s a = some s' := by
    cases hwindow : windowPerform s a with
    | some s₁ =>
        rw [hwindow] at hstep
        exact hstep
    | none =>
        rw [hwindow] at hstep
        obtain rfl := Option.some.inj hstep
        have hfailed := hok.no_failure
        cases hfailed
  cases a with
  | shutdown =>
      rw [NextReady, Classical.not_imp] at hguard
      obtain ⟨hempty, hnotReady⟩ := hguard
      simp only [windowPerform, hempty, Bool.false_eq_true, if_false, memtableForceFinalize] at hperform
      obtain ⟨p, hrotate, rfl⟩ := Option.map_eq_some_iff.mp hperform
      obtain ⟨hgeneration, hroom, hretired, hslot, -⟩ := memtableRotate_eq_some hrotate
      have hlt := hpipe.retired_lt
      have hfour : (coreNumMemtables : Int) = 4 := rfl
      obtain ⟨mt, hget, hlookup⟩ := hok.readable (s.generation + 1)
        (by change p.ctxt.generationRetired < s.pipe.ctxt.generation + 1; omega)
        (by change s.pipe.ctxt.generation + 1 ≤ p.ctxt.generation; omega)
      obtain ⟨rfl, -⟩ := getMemtable_eq_some hget
      change (p.ctxt.slot (s.pipe.ctxt.generation + 1)).okToLookup = true at hlookup
      rw [hslot] at hlookup
      rcases hpipe.slot (s.pipe.ctxt.generation + 1) (by omega) (by omega) with hlive | ⟨-, hstate, -⟩
      · exact hnotReady (hlive.active (by omega))
      · rw [Memtable.okToLookup, hstate] at hlookup
        cases hlookup
  | pipe a =>
      cases a with
      | rotate =>
          have hsmall : maxExtents ≤ initialExtents := not_lt.mp hguard
          obtain ⟨p, hrotate, rfl⟩ := Option.map_eq_some_iff.mp hperform
          obtain ⟨-, -, -, -, htask⟩ := memtableRotate_eq_some hrotate
          exact hok.compacts_tuples s.generation (Or.inl htask) (h.trees.small hsmall _)
      | _ => exact hguard trivial
  | _ => exact hguard trivial

end OneStep

/-! ## Runs -/

section Run

variable [DecidableEq K] {tr : List (WindowState K × WindowAct K)} {s : WindowState K}

/-- **When the window is in order**: the window holds between one and four memtables, all there for
lookups, no assertion fails, `is_empty` is right and only memtables with a tuple are compacted,
throughout a run, exactly when each shutdown that rotates finds the next memtable ready and each
rotation happens where a fresh memtable is not full. -/
theorem window_ok_iff (hrun : (memtables maxExtents).Run newWindow tr s) :
    Visits WindowOk tr s ↔ Guarded (NextReady maxExtents) tr := by
  refine hrun.visits_iff_guarded_of_invariant (I := WindowInv maxExtents) windowInv_new
    (fun s h => h.ok) ?_ fun s a s' h hguard hstep => h.lose hguard hstep
  intro s a s' h hguard hstep
  change windowNext maxExtents s a = some s' at hstep
  rw [windowNext, Option.ite_none_right_eq_some, Bool.and_eq_true] at hstep
  obtain ⟨⟨-, henabled⟩, hstep⟩ := hstep
  obtain ⟨s₁, hperform, hinv⟩ := h.perform henabled hguard
  rw [hperform] at hstep
  obtain rfl := Option.some.inj hstep
  exact hinv

def nextReady (maxExtents : Nat) (s : WindowState K) : WindowAct K → Bool
  | .shutdown => s.isEmpty || (s.pipe.ctxt.slot (s.generation + 1)).state == .ready
  | .pipe .rotate => decide (initialExtents < maxExtents)
  | _ => true

omit [DecidableEq K] in
theorem NextReady.of_test {a : WindowAct K} (h : nextReady maxExtents s a = true) :
    NextReady maxExtents s a := by
  cases a with
  | shutdown =>
      intro hempty
      rw [nextReady, hempty, Bool.false_or, beq_iff_eq] at h
      exact h
  | pipe a =>
      cases a with
      | rotate =>
          rw [nextReady, decide_eq_true_eq] at h
          exact h
      | _ => trivial
  | _ => trivial

end Run

/-- A memtable of ten extents is filled, rotated and enqueued; the next one is not empty when the
store shuts down. -/
def oneRotation : List (WindowAct Nat) :=
  [.insert 0 0, .insert 1 1, .pipe .rotate, .pipe (.flush 0), .insert 2 0, .lookup, .shutdown,
    .pipe (.flush 1)]

/-- The run of `oneRotation` shuts down and keeps the window in order. -/
theorem window_ok_shutdown : ∃ tr s, (memtables 10).Run (newWindow : WindowState Nat) tr s ∧
    s.generation = 2 ∧ Visits WindowOk tr s := by
  obtain ⟨tr, s, hrun, hend⟩ := exists_run (fun s => s = newWindow) (windowNext 10)
    (newWindow : WindowState Nat) oneRotation
    (P := fun tr s => (tr.all fun p => nextReady 10 p.1 p.2) && decide (s.generation = 2)) (by decide)
  rw [Bool.and_eq_true, List.all_eq_true, decide_eq_true_eq] at hend
  exact ⟨tr, s, hrun, hend.2, (window_ok_iff hrun).mpr fun p hp => NextReady.of_test (hend.1 p hp)⟩

/-- Three memtables are filled, rotated and enqueued, but none is compacted yet; the fourth one is
not empty when the store shuts down. -/
def threeRotations : List (WindowAct Nat) :=
  [.insert 0 0, .insert 1 1, .pipe .rotate, .pipe (.flush 0),
    .insert 0 0, .insert 1 1, .pipe .rotate, .pipe (.flush 1),
    .insert 0 0, .insert 1 1, .pipe .rotate, .pipe (.flush 2), .insert 0 0, .shutdown]

/-- **An assertion fails**: in the run of `threeRotations` the shutdown finds no memtable for the
next generation. -/
theorem window_fails : ∃ tr s, (memtables 10).Run (newWindow : WindowState Nat) tr s ∧
    s.pipe.failed = true ∧ ¬ Visits WindowOk tr s := by
  obtain ⟨tr, s, hrun, hend⟩ := exists_run (fun s => s = newWindow) (windowNext 10)
    (newWindow : WindowState Nat) threeRotations
    (P := fun _ s => s.pipe.failed) (by decide)
  refine ⟨tr, s, hrun, hend, fun hvisits => ?_⟩
  rw [hvisits.last.no_failure] at hend
  cases hend

end Window
end Core
end TreePass
