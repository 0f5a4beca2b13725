import TreePass.Lib.Transition
import TreePass.Cache.Evict

/-!
# The clock under interference

`treepass_set_clock_accessed` and `treepass_try_dec_clock` first load the status word, decide on
the clock they saw and then add or subtract one tick unconditionally.  Here each load, add,
subtract, compare-and-exchange, or, and and is one step of one of any number of threads.

* A tick never touches a flag (`flagBits_changed_only_by_flag_ops`).
* The bits above the clock stay 0 along a run exactly when no add meets a full clock and no
  subtract an empty one (`upperBits_clear_iff_no_stale_tick`).
* Two threads that act on the same stale clock break this, and then the page is never
  evicted (`stale_ticks_leak`).
-/

namespace TreePass
namespace Cache

open Lib

/-- Where a thread stands inside a clock function. -/
inductive ClockPc where
  /-- Outside the clock functions. -/
  | idle
  /-- `treepass_set_clock_accessed` has seen a clock below the maximum. -/
  | addPending
  /-- `treepass_try_dec_clock` has seen a nonzero clock. -/
  | subPending
  /-- `treepass_set_clock` is about to compare-and-exchange, expecting `old`. -/
  | casPending (value old : EntryStatus)
  deriving DecidableEq, Repr

/-- The status word and the position of every thread. -/
structure ClockState where
  status : EntryStatus
  pc : Nat → ClockPc

/-- One atomic access of one thread. -/
inductive ClockAct where
  | accessLoad
  | accessAdd
  | decLoad
  | decSub
  | setClockLoad (value : EntryStatus)
  /-- A weak compare-and-exchange may fail although the words agree. -/
  | setClockCas (spurious : Bool)
  | setFlag (f : Flag)
  | clearFlag (f : Flag)
  deriving DecidableEq, Repr

def ClockState.goto (s : ClockState) (tid : Nat) (pc : ClockPc) : ClockState :=
  { s with pc := Function.update s.pc tid pc }

/-- The step of thread `tid`, if it stands where the access is made. -/
def clockNext (s : ClockState) : Nat × ClockAct → Option ClockState
  | (tid, act) =>
      match act, s.pc tid with
      | .accessLoad, .idle =>
          some (if clockOf s.status < tpClockMax then s.goto tid .addPending else s)
      | .accessAdd, .addPending =>
          some { s.goto tid .idle with status := s.status + tpClockOne }
      | .decLoad, .idle =>
          some (if clockOf s.status = 0#32 then s else s.goto tid .subPending)
      | .decSub, .subPending =>
          some { s.goto tid .idle with status := s.status - tpClockOne }
      | .setClockLoad value, .idle => some (s.goto tid (.casPending value s.status))
      | .setClockCas spurious, .casPending value old =>
          if !spurious && s.status == old then
            some { s.goto tid .idle with status := withClock old value }
          else
            some (s.goto tid (.casPending value s.status))
      | .setFlag f, .idle => some { s with status := Cache.setFlag s.status f.mask }
      | .clearFlag f, .idle => some { s with status := Cache.clearFlag s.status f.mask }
      | _, _ => none

/-- The interleavings of the clock and flag functions on one entry.  A run starts with every
thread outside them and nothing above the clock. -/
def clockSystem : System ClockState (Nat × ClockAct) :=
  System.ofFun (fun s => (∀ tid, s.pc tid = .idle) ∧ upperBits s.status = 0) clockNext

/-- The accesses `treepass_set_flag` and `treepass_clear_flag` make. -/
def ClockAct.IsFlagOp : ClockAct → Prop
  | .setFlag _ => True
  | .clearFlag _ => True
  | _ => False

/-- The test the thread made when it loaded the clock still holds when it acts on it. -/
def NotStale (s : ClockState) (a : Nat × ClockAct) : Prop :=
  match a.2 with
  | .accessAdd => clockOf s.status < tpClockMax
  | .decSub => clockOf s.status ≠ 0#32
  | _ => True

instance (s : ClockState) (a : Nat × ClockAct) : Decidable (NotStale s a) :=
  match a with
  | (_, .accessAdd) => inferInstanceAs (Decidable (clockOf s.status < tpClockMax))
  | (_, .decSub) => inferInstanceAs (Decidable (clockOf s.status ≠ 0#32))
  | (_, .accessLoad) | (_, .decLoad) | (_, .setClockLoad _) | (_, .setClockCas _)
  | (_, .setFlag _) | (_, .clearFlag _) => inferInstanceAs (Decidable True)

/-- No bit has leaked out of the clock, and so every page with this status word that is clean,
unpinned, unreferenced and unlocked is evicted within `TP_CLOCK_MAX + 1` normal sweeps. -/
def ClockContained (status : EntryStatus) : Prop :=
  upperBits status = 0 ∧
    ∀ (cc : TreePassCache) (entryNumber tid : Nat), (cc.entry entryNumber).status = status →
      (cc.entry entryNumber).Idle → evictWithin cc entryNumber tid (tpClockMax.toNat + 1) = true

/-- What one step does to the word. -/
inductive StatusStep (s : ClockState) : Nat × ClockAct → EntryStatus → Prop
  | keep {a} : (∀ f, a.2 ≠ .setFlag f ∧ a.2 ≠ .clearFlag f) → a.2 ≠ .accessAdd → a.2 ≠ .decSub →
      StatusStep s a s.status
  | add {tid} : StatusStep s (tid, .accessAdd) (s.status + tpClockOne)
  | sub {tid} : StatusStep s (tid, .decSub) (s.status - tpClockOne)
  | install {tid value spurious} :
      StatusStep s (tid, .setClockCas spurious) (withClock s.status value)
  | set {tid f} : StatusStep s (tid, .setFlag f) (setFlag s.status f.mask)
  | clear {tid f} : StatusStep s (tid, .clearFlag f) (clearFlag s.status f.mask)

theorem clockNext_status {s s' : ClockState} {a : Nat × ClockAct} (h : clockNext s a = some s') :
    StatusStep s a s'.status := by
  obtain ⟨tid, act⟩ := a
  cases act with
  | accessLoad =>
      cases hpc : s.pc tid <;> simp only [clockNext, hpc, Option.some.injEq, reduceCtorEq] at h
      split at h <;> subst h <;> exact .keep (by simp) (by simp) (by simp)
  | accessAdd =>
      cases hpc : s.pc tid <;> simp only [clockNext, hpc, Option.some.injEq, reduceCtorEq] at h
      subst h
      exact .add
  | decLoad =>
      cases hpc : s.pc tid <;> simp only [clockNext, hpc, Option.some.injEq, reduceCtorEq] at h
      split at h <;> subst h <;> exact .keep (by simp) (by simp) (by simp)
  | decSub =>
      cases hpc : s.pc tid <;> simp only [clockNext, hpc, Option.some.injEq, reduceCtorEq] at h
      subst h
      exact .sub
  | setClockLoad value =>
      cases hpc : s.pc tid <;> simp only [clockNext, hpc, Option.some.injEq, reduceCtorEq] at h
      subst h
      exact .keep (by simp) (by simp) (by simp)
  | setClockCas spurious =>
      cases hpc : s.pc tid with
      | casPending value old =>
          simp only [clockNext, hpc] at h
          split at h
          · rename_i hcas
            obtain ⟨-, heq⟩ : _ ∧ s.status = old := by simpa using hcas
            obtain rfl := Option.some.inj h
            rw [← heq]
            exact .install
          · obtain rfl := Option.some.inj h
            exact .keep (by simp) (by simp) (by simp)
      | idle => simp [clockNext, hpc] at h
      | addPending => simp [clockNext, hpc] at h
      | subPending => simp [clockNext, hpc] at h
  | setFlag f =>
      cases hpc : s.pc tid <;> simp only [clockNext, hpc, Option.some.injEq, reduceCtorEq] at h
      subst h
      exact .set
  | clearFlag f =>
      cases hpc : s.pc tid <;> simp only [clockNext, hpc, Option.some.injEq, reduceCtorEq] at h
      subst h
      exact .clear

/-- **Frame.**  Whatever the interleaving, a step that is not a flag operation leaves all six
flags as they were. -/
theorem flagBits_changed_only_by_flag_ops {s s' : ClockState} {a : Nat × ClockAct}
    (hstep : clockSystem.step s a s') (hop : ¬ a.2.IsFlagOp) :
    flagBits s'.status = flagBits s.status := by
  have h := clockNext_status hstep
  generalize s'.status = status' at h ⊢
  cases h with
  | keep _ _ _ => rfl
  | add => exact flagBits_add _
  | sub => exact flagBits_sub _
  | install => exact flagBits_withClock _ _
  | set => exact absurd trivial hop
  | clear => exact absurd trivial hop

theorem upperBits_step {s s' : ClockState} {a : Nat × ClockAct} (hupper : upperBits s.status = 0)
    (hstep : clockSystem.step s a s') : upperBits s'.status = 0 ↔ NotStale s a := by
  have h := clockNext_status hstep
  generalize s'.status = status' at h ⊢
  cases h with
  | keep hflag hadd hsub =>
      refine iff_of_true hupper ?_
      obtain ⟨tid, act⟩ := a
      cases act <;> simp_all [NotStale]
  | add => rw [upperBits_add_eq_zero_iff hupper, ← clockOf_lt_max_iff]; rfl
  | sub =>
      rw [upperBits_sub_eq_zero_iff hupper]
      exact not_congr (clockOf_eq_zero_iff _).symm
  | install => exact iff_of_true ((upperBits_withClock _ _).trans hupper) trivial
  | set => exact iff_of_true ((upperBits_setFlag _ _).trans hupper) trivial
  | clear => exact iff_of_true ((upperBits_clearFlag _ _).trans hupper) trivial

theorem clockContained_iff (status : EntryStatus) :
    ClockContained status ↔ upperBits status = 0 := by
  refine ⟨And.left, fun hupper => ⟨hupper, ?_⟩⟩
  intro cc entryNumber tid hstatus hidle
  apply evictWithin_of_idle entryNumber tid _ cc hidle
  · rw [hstatus]
    exact hupper
  · have hmax : tpClockMax.toNat = 7 := by decide
    have := clockOf_le (cc.entry entryNumber).status
    omega

/-- **Exact containment.**  In a run of any number of threads the flags are only ever changed by
flag operations; and every word the run visits is contained, with the bounded eviction that
follows, if and only if no step acts on a clock that has changed under it: no add meets a full
clock and no subtract an empty one. -/
theorem clock_contained_iff_no_stale_tick {s s' : ClockState} {tr : List (ClockState × Nat × ClockAct)}
    (hinit : clockSystem.init s) (hrun : clockSystem.Run s tr s') :
    (∀ p ∈ tr, ∀ next, clockSystem.step p.1 p.2 next → ¬ p.2.2.IsFlagOp →
        flagBits next.status = flagBits p.1.status) ∧
      (System.Visits (fun t => ClockContained t.status) tr s' ↔ System.Guarded NotStale tr) := by
  refine ⟨fun p _ next hstep hop => flagBits_changed_only_by_flag_ops hstep hop, ?_⟩
  simp only [clockContained_iff]
  exact hrun.visits_iff_guarded hinit.2 fun t a t' hupper hstep => upperBits_step hupper hstep

/-- A clean page just read from disk, with nobody inside a clock function. -/
def freshlyLoaded : ClockState := ⟨tpClean, fun _ => .idle⟩

private theorem freshlyLoaded_init : clockSystem.init freshlyLoaded := ⟨fun _ => rfl, by decide⟩

/-- Two threads may access the page at once as long as the second one still meets a clock below
the maximum: here both load clock 0, both add, and a sweep takes one tick back. -/
theorem clock_contained_of_paired_access :
    ∃ tr last, clockSystem.init freshlyLoaded ∧ clockSystem.Run freshlyLoaded tr last ∧
      last.status = tpClean + tpClockOne ∧
      System.Visits (fun t => ClockContained t.status) tr last := by
  let acts : List (Nat × ClockAct) := [(0, .accessLoad), (1, .accessLoad), (0, .accessAdd),
    (1, .accessAdd), (2, .decLoad), (2, .decSub)]
  have hchecked : (System.exec clockNext freshlyLoaded acts).map
      (fun run => (run.2.status, run.1.all fun p => decide (NotStale p.1 p.2))) =
      some (tpClean + tpClockOne, true) := by decide
  obtain ⟨run, hexec, hrun⟩ := Option.map_eq_some_iff.mp hchecked
  obtain ⟨hlast, hall⟩ := Prod.mk.inj hrun
  have htrace : clockSystem.Run freshlyLoaded run.1 run.2 := System.run_of_exec hexec
  have hguarded : System.Guarded NotStale run.1 := by
    intro p hp
    exact of_decide_eq_true (List.all_eq_true.mp hall p hp)
  exact ⟨run.1, run.2, freshlyLoaded_init, htrace, hlast,
    (clock_contained_iff_no_stale_tick freshlyLoaded_init htrace).2.mpr hguarded⟩

/-- **The leak.**  A page is accessed six times, so that its clock is 6; then two threads both
load that clock, find it below the maximum and both add a tick.  The second add carries into
bit 9.  No number of sweeps ever evicts a page with the resulting word. -/
theorem stale_ticks_leak :
    ∃ tr last, clockSystem.init freshlyLoaded ∧ clockSystem.Run freshlyLoaded tr last ∧
      last.status = 0x202#32 ∧ ¬ ClockContained last.status ∧
      ∀ (cc : TreePassCache) (entryNumber tid passes : Nat),
        (cc.entry entryNumber).status = last.status →
          evictWithin cc entryNumber tid passes = false := by
  let access : List (Nat × ClockAct) := [(0, .accessLoad), (0, .accessAdd)]
  let acts : List (Nat × ClockAct) := access ++ access ++ access ++ access ++ access ++ access ++
    [(0, .accessLoad), (1, .accessLoad), (0, .accessAdd), (1, .accessAdd)]
  have hstatus : (System.exec clockNext freshlyLoaded acts).map (fun run => run.2.status) =
      some 0x202#32 := by decide
  obtain ⟨run, hexec, hlast⟩ := Option.map_eq_some_iff.mp hstatus
  refine ⟨run.1, run.2, freshlyLoaded_init, System.run_of_exec hexec, hlast, ?_, ?_⟩
  · rw [clockContained_iff, hlast]
    decide
  · intro cc entryNumber tid passes heq
    rw [hlast] at heq
    apply evictWithin_of_stray entryNumber tid passes cc
    · rw [heq]
      decide
    · rw [heq]
      decide

end Cache
end TreePass
