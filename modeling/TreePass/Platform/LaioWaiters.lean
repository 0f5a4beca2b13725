import TreePass.Platform.Laio

/-!
# Waiting submitters

A waiter is released by a completion, so somebody must still complete as long as there is a waiter.
That is lost in two ways: the last completion looks at the queue before a refused submitter has
appended itself, and a released submitter fails hard without waking the next one.

* `Attended` says that somebody will still look at the queue, and `Woken` are the steps that leave
  the two ways out.
* `LaioInv` is the invariant of the lock and the queue.
* `exact_step`: one step keeps the waiters attended exactly if it is a woken one.
-/

namespace TreePass
namespace Platform

open Lib Lib.System

variable {n m : Nat}

/-! ## Who releases waiters -/

namespace LaioState

variable (s : LaioState n m)

/-- Some request is in flight, some thread is between the reap of an event and the release of a
waiter, or some released submitter has not yet submitted again. -/
def Attends : Prop :=
  0 < s.inFlight ∨ (∃ j, s.reaper j ≠ .idle) ∨ ∃ i, s.submitter i = .submit true

/-- **No stranded submitter.** -/
def Attended : Prop := s.waiters ≠ [] → s.Attends

/-- A step that does not strand a waiter: a refused submitter is appended while somebody attends, and
a released submitter fails only if nobody waits or somebody else attends. -/
def Woken : LaioAct n m → Prop
  | .next i => s.submitter i = .refused → s.Attends
  | .submit i true => s.submitter i = .submit true → s.waiters ≠ [] →
      0 < s.inFlight ∨ (∃ j, s.reaper j ≠ .idle) ∨ ∃ i', i' ≠ i ∧ s.submitter i' = .submit true
  | _ => True

end LaioState

/-! ## The invariant -/

/-- **The invariant.**  The lock has one holder, and who waits is in the queue or in the hands of
one reaper. -/
structure LaioInv (s : LaioState n m) : Prop where
  submitterLock : ∀ i, (s.submitter i).holds = true ↔ s.lock = some (.inl i)
  reaperLock : ∀ j, (s.reaper j).holds = true ↔ s.lock = some (.inr j)
  waits : ∀ i, (s.submitter i).waits = true ↔ i ∈ s.waiters ∨ ∃ j, (s.reaper j).waiter = some i
  nodup : s.waiters.Nodup
  carried : ∀ j i, (s.reaper j).waiter = some i → i ∉ s.waiters ∧ s.submitter i = .waiting
  unique : ∀ j j' i, (s.reaper j).waiter = some i → (s.reaper j').waiter = some i → j = j'
  popped : ∀ j, s.reaper j = .unlock none → s.waiters = []

theorem laioInv_init : LaioInv (LaioState.init : LaioState n m) where
  submitterLock := fun _ => ⟨nofun, nofun⟩
  reaperLock := fun _ => ⟨nofun, nofun⟩
  waits := by
    intro i
    constructor
    · nofun
    · rintro (hmem | ⟨j, hj⟩)
      · cases hmem
      · cases hj
  nodup := List.nodup_nil
  carried := nofun
  unique := nofun
  popped := nofun

namespace LaioInv

variable {s : LaioState n m} {i : Fin n} {j : Fin (m + 1)}

theorem setInFlight (h : LaioInv s) (inFlight : Nat) : LaioInv (s.setInFlight inFlight) :=
  ⟨h.submitterLock, h.reaperLock, h.waits, h.nodup, h.carried, h.unique, h.popped⟩

theorem setSubmitter (h : LaioInv s) {pc : SubmitPc} (hholds : pc.holds = (s.submitter i).holds)
    (hwaits : pc.waits = (s.submitter i).waits) (hold : s.submitter i ≠ .waiting) :
    LaioInv (s.setSubmitter i pc) := by
  obtain ⟨hsubmitter, hreaper, hqueue, hnodup, hcarried, hunique, hpopped⟩ := h
  unfold LaioState.setSubmitter
  refine ⟨?_, hreaper, ?_, hnodup, ?_, hunique, hpopped⟩
  · grind [Function.update_apply]
  · grind [Function.update_apply]
  · -- a waiter in the hands of a reaper is not the submitter that goes on
    grind [Function.update_apply]

theorem setSubmitterLock (h : LaioInv s) {p : SubmitPc}
    (hfree : s.lock = none ∨ s.lock = some (.inl i)) (hwaits : p.waits = (s.submitter i).waits)
    (hold : s.submitter i ≠ .waiting) :
    LaioInv ((s.setLock (if p.holds then some (.inl i) else none)).setSubmitter i p) := by
  obtain ⟨hsubmitter, hreaper, hqueue, hnodup, hcarried, hunique, hpopped⟩ := h
  unfold LaioState.setSubmitter LaioState.setLock
  refine ⟨?_, ?_, ?_, hnodup, ?_, hunique, hpopped⟩
  · grind [Function.update_apply]
  · grind
  · grind [Function.update_apply]
  · grind [Function.update_apply]

theorem append (h : LaioInv s) (hrefused : s.submitter i = .refused) :
    LaioInv ((s.setWaiters (s.waiters ++ [i])).setSubmitter i .appended) := by
  obtain ⟨hsubmitter, hreaper, hqueue, hnodup, hcarried, hunique, hpopped⟩ := h
  have hnew : i ∉ s.waiters ∧ ∀ j, (s.reaper j).waiter ≠ some i := by
    have hwaits := hqueue i
    rw [hrefused] at hwaits
    exact ⟨fun hmem => Bool.noConfusion (hwaits.mpr (Or.inl hmem)),
      fun j hj => Bool.noConfusion (hwaits.mpr (Or.inr ⟨j, hj⟩))⟩
  have hholds := hsubmitter i
  unfold LaioState.setSubmitter LaioState.setWaiters
  refine ⟨?_, hreaper, ?_, ?_, ?_, hunique, ?_⟩
  · grind [Function.update_apply, SubmitPc.holds]
  · grind [Function.update_apply, SubmitPc.waits]
  · grind
  · grind [Function.update_apply]
  · -- the submitter has the lock, so no reaper has just found the queue empty
    intro k hk
    have hk' := hreaper k
    rw [hk] at hk'
    rw [hrefused] at hholds
    cases (hk'.mp rfl).symm.trans (hholds.mp rfl)

private theorem waiter_update (f : Fin (m + 1) → ReapPc n) {pc : ReapPc n}
    (hwaiter : pc.waiter = (f j).waiter) (k : Fin (m + 1)) :
    (Function.update f j pc k).waiter = (f k).waiter := by
  by_cases hk : k = j
  · rw [hk, Function.update_self, hwaiter]
  · rw [Function.update_of_ne hk]

theorem setReaper (h : LaioInv s) {pc : ReapPc n} (hholds : pc.holds = (s.reaper j).holds)
    (hwaiter : pc.waiter = (s.reaper j).waiter) (hpc : pc ≠ .unlock none) :
    LaioInv (s.setReaper j pc) := by
  obtain ⟨hsubmitter, hreaper, hqueue, hnodup, hcarried, hunique, hpopped⟩ := h
  unfold LaioState.setReaper
  refine ⟨hsubmitter, ?_, ?_, hnodup, ?_, ?_, ?_⟩
  · grind [Function.update_apply]
  · simpa only [waiter_update s.reaper hwaiter] using hqueue
  · simpa only [waiter_update s.reaper hwaiter] using hcarried
  · simpa only [waiter_update s.reaper hwaiter] using hunique
  · grind [Function.update_apply]

theorem setReaperLock (h : LaioInv s) {p : ReapPc n}
    (hfree : s.lock = none ∨ s.lock = some (.inr j)) (hwaiter : p.waiter = (s.reaper j).waiter)
    (hpc : p ≠ .unlock none) :
    LaioInv ((s.setLock (if p.holds then some (.inr j) else none)).setReaper j p) := by
  obtain ⟨hsubmitter, hreaper, hqueue, hnodup, hcarried, hunique, hpopped⟩ := h
  unfold LaioState.setReaper LaioState.setLock
  refine ⟨?_, ?_, ?_, hnodup, ?_, ?_, ?_⟩
  · grind
  · grind [Function.update_apply]
  · simpa only [waiter_update s.reaper hwaiter] using hqueue
  · simpa only [waiter_update s.reaper hwaiter] using hcarried
  · simpa only [waiter_update s.reaper hwaiter] using hunique
  · grind [Function.update_apply]

theorem pop (h : LaioInv s) (hpop : s.reaper j = .pop) :
    LaioInv ((s.setWaiters s.waiters.tail).setReaper j (.unlock s.waiters.head?)) := by
  obtain ⟨hsubmitter, hreaper, hqueue, hnodup, hcarried, hunique, hpopped⟩ := h
  have hholds := hreaper j
  have hother : ∀ j' k, (s.reaper j').waiter = some k → j' ≠ j := by
    rintro j' k hj' rfl
    rw [hpop] at hj'
    cases hj'
  unfold LaioState.setReaper LaioState.setWaiters
  cases hwaiters : s.waiters with
  | nil =>
      have hnone : (ReapPc.unlock none : ReapPc n).waiter = (s.reaper j).waiter := by
        rw [hpop]
        rfl
      rw [hwaiters] at hqueue hcarried
      refine ⟨hsubmitter, ?_, ?_, List.nodup_nil, ?_, ?_, fun _ _ => rfl⟩
      · grind [Function.update_apply, ReapPc.holds]
      · simpa only [List.head?_nil, List.tail_nil, waiter_update s.reaper hnone] using hqueue
      · simpa only [List.head?_nil, List.tail_nil, waiter_update s.reaper hnone] using hcarried
      · simpa only [List.head?_nil, List.tail_nil, waiter_update s.reaper hnone] using hunique
  | cons waiter rest =>
      -- the head cannot be about to unlock: the reaper has the lock
      refine ⟨hsubmitter, ?_, ?_, (hwaiters ▸ hnodup).tail, ?_, ?_, ?_⟩
      · grind [Function.update_apply, ReapPc.holds]
      · intro k
        show (s.submitter k).waits = true ↔ k ∈ rest ∨
          ∃ j', (Function.update s.reaper j (.unlock (some waiter)) j').waiter = some k
        rw [hqueue k, hwaiters, List.mem_cons]
        constructor
        · rintro ((rfl | hmem) | ⟨j', hj'⟩)
          · refine Or.inr ⟨j, ?_⟩
            rw [Function.update_self]
            rfl
          · exact Or.inl hmem
          · refine Or.inr ⟨j', ?_⟩
            rw [Function.update_of_ne (hother j' k hj')]
            exact hj'
        · rintro (hmem | ⟨j', hj'⟩)
          · exact Or.inl (Or.inr hmem)
          · by_cases heq : j' = j
            · rw [heq, Function.update_self] at hj'
              exact Or.inl (Or.inl (Option.some.inj hj').symm)
            · rw [Function.update_of_ne heq] at hj'
              exact Or.inr ⟨j', hj'⟩
      · grind [Function.update_apply, ReapPc.holds, ReapPc.waiter, SubmitPc.holds, SubmitPc.waits]
      · grind [Function.update_apply, ReapPc.waiter]
      · grind [Function.update_apply, ReapPc.holds]

theorem release (h : LaioInv s) {waiter : Fin n} (hrelease : s.reaper j = .release waiter) :
    LaioInv ((s.setSubmitter waiter (.submit true)).setReaper j .idle) := by
  obtain ⟨hsubmitter, hreaper, hqueue, hnodup, hcarried, hunique, hpopped⟩ := h
  have hwaiter : (s.reaper j).waiter = some waiter := by
    rw [hrelease]
    rfl
  have hholds := hreaper j
  unfold LaioState.setReaper LaioState.setSubmitter
  refine ⟨?_, ?_, ?_, hnodup, ?_, ?_, ?_⟩
  · grind [Function.update_apply, SubmitPc.holds]
  · grind [Function.update_apply, ReapPc.holds]
  · intro k
    show (Function.update s.submitter waiter (.submit true) k).waits = true ↔
      k ∈ s.waiters ∨ ∃ j', (Function.update s.reaper j .idle j').waiter = some k
    have hhands : (∃ j', (Function.update s.reaper j .idle j').waiter = some k) ↔
        ∃ j', j' ≠ j ∧ (s.reaper j').waiter = some k := by
      constructor
      · rintro ⟨j', hj'⟩
        have hne : j' ≠ j := by
          rintro rfl
          rw [Function.update_self] at hj'
          cases hj'
        exact ⟨j', hne, by rwa [Function.update_of_ne hne] at hj'⟩
      · rintro ⟨j', hne, hj'⟩
        exact ⟨j', by rwa [Function.update_of_ne hne]⟩
    rw [hhands]
    by_cases hk : k = waiter
    · rw [hk, Function.update_self]
      refine ⟨nofun, ?_⟩
      rintro (hmem | ⟨j', hne, hj'⟩)
      · exact absurd hmem (hcarried j waiter hwaiter).1
      · exact absurd (hunique j' j waiter hj' hwaiter) hne
    · rw [Function.update_of_ne hk, hqueue k]
      apply or_congr_right
      constructor
      · rintro ⟨j', hj'⟩
        refine ⟨j', ?_, hj'⟩
        rintro rfl
        exact hk (Option.some.inj (hj'.symm.trans hwaiter))
      · rintro ⟨j', -, hj'⟩
        exact ⟨j', hj'⟩
  · grind [Function.update_apply, ReapPc.waiter]
  · grind [Function.update_apply, ReapPc.waiter]
  · grind [Function.update_apply]

/-! ## Steps -/

theorem submitNext (h : LaioInv s) {queueSize : Nat} {fails : Bool} {s' : LaioState n m}
    (hstep : s.submitNext queueSize i fails = some s') : LaioInv s' := by
  unfold LaioState.submitNext at hstep
  cases hpc : s.submitter i with
  | submit released =>
      have hto : ∀ pc : SubmitPc, pc.holds = false → pc.waits = false →
          LaioInv (s.setSubmitter i pc) := fun pc hholds hwaits =>
        h.setSubmitter (by rw [hpc, hholds]; rfl) (by rw [hpc, hwaits]; rfl) (by rw [hpc]; nofun)
      rw [hpc] at hstep
      dsimp only at hstep
      split_ifs at hstep
      · exact Option.some.inj hstep ▸ hto .idle rfl rfl
      · exact Option.some.inj hstep ▸ (hto .idle rfl rfl).setInFlight _
      · exact Option.some.inj hstep ▸ hto .wantLock rfl rfl
  | submitLocked =>
      have hto : ∀ pc : SubmitPc, pc.holds = true → pc.waits = false →
          LaioInv (s.setSubmitter i pc) := fun pc hholds hwaits =>
        h.setSubmitter (by rw [hpc, hholds]; rfl) (by rw [hpc, hwaits]; rfl) (by rw [hpc]; nofun)
      rw [hpc] at hstep
      dsimp only at hstep
      split_ifs at hstep
      · exact Option.some.inj hstep ▸ hto .unlock rfl rfl
      · exact Option.some.inj hstep ▸ (hto .unlock rfl rfl).setInFlight _
      · exact Option.some.inj hstep ▸ hto .refused rfl rfl
  | _ =>
      rw [hpc] at hstep
      cases hstep

theorem asyncNext (h : LaioInv s) {s' : LaioState n m} (hstep : s.asyncNext i = some s') :
    LaioInv s' := by
  unfold LaioState.asyncNext at hstep
  have hlock := h.submitterLock i
  cases hpc : s.submitter i with
  | wantLock =>
      rw [hpc] at hstep
      dsimp only at hstep
      by_cases hfree : s.lock = none
      · rw [if_pos hfree] at hstep
        exact Option.some.inj hstep ▸ h.setSubmitterLock (p := .submitLocked) (Or.inl hfree)
          (by rw [hpc]; rfl) (by rw [hpc]; nofun)
      · rw [if_neg hfree] at hstep
        cases hstep
  | refused =>
      rw [hpc] at hstep
      exact Option.some.inj hstep ▸ h.append hpc
  | appended =>
      rw [hpc] at hstep hlock
      exact Option.some.inj hstep ▸ h.setSubmitterLock (p := .waiting) (Or.inr (hlock.mp rfl))
        (by rw [hpc]; rfl) (by rw [hpc]; nofun)
  | unlock =>
      rw [hpc] at hstep hlock
      exact Option.some.inj hstep ▸ h.setSubmitterLock (p := .idle) (Or.inr (hlock.mp rfl))
        (by rw [hpc]; rfl) (by rw [hpc]; nofun)
  | _ =>
      rw [hpc] at hstep
      cases hstep

theorem releaseNext (h : LaioInv s) {s' : LaioState n m} (hstep : s.releaseNext j = some s') :
    LaioInv s' := by
  unfold LaioState.releaseNext at hstep
  have hlock := h.reaperLock j
  cases hpc : s.reaper j with
  | idle =>
      rw [hpc] at hstep
      cases hstep
  | test =>
      rw [hpc] at hstep
      dsimp only at hstep
      split_ifs at hstep
      · exact Option.some.inj hstep ▸ h.setReaper (by rw [hpc]; rfl) (by rw [hpc]; rfl) nofun
      · exact Option.some.inj hstep ▸ h.setReaper (by rw [hpc]; rfl) (by rw [hpc]; rfl) nofun
  | wantLock =>
      rw [hpc] at hstep
      dsimp only at hstep
      by_cases hfree : s.lock = none
      · rw [if_pos hfree] at hstep
        exact Option.some.inj hstep ▸ h.setReaperLock (p := .pop) (Or.inl hfree)
          (by rw [hpc]; rfl) nofun
      · rw [if_neg hfree] at hstep
        cases hstep
  | pop =>
      rw [hpc] at hstep
      exact Option.some.inj hstep ▸ h.pop hpc
  | unlock waiter =>
      rw [hpc] at hstep hlock
      cases waiter with
      | none =>
          exact Option.some.inj hstep ▸ h.setReaperLock (p := .idle) (Or.inr (hlock.mp rfl))
            (by rw [hpc]; rfl) nofun
      | some waiter =>
          exact Option.some.inj hstep ▸ h.setReaperLock (p := .release waiter)
            (Or.inr (hlock.mp rfl)) (by rw [hpc]; rfl) nofun
  | release waiter =>
      rw [hpc] at hstep
      exact Option.some.inj hstep ▸ h.release hpc

theorem step (h : LaioInv s) {queueSize : Nat} {a : LaioAct n m} {s' : LaioState n m}
    (hstep : laioNext queueSize s a = some s') : LaioInv s' := by
  cases a with
  | call i =>
      change (if s.submitter i = .idle then _ else none) = some s' at hstep
      by_cases hidle : s.submitter i = .idle
      · rw [if_pos hidle] at hstep
        exact Option.some.inj hstep ▸ h.setSubmitter (by rw [hidle]; rfl) (by rw [hidle]; rfl)
          (by rw [hidle]; nofun)
      · rw [if_neg hidle] at hstep
        cases hstep
  | submit i fails => exact h.submitNext hstep
  | next i => exact h.asyncNext hstep
  | reap j =>
      change (if s.reaper j = .idle ∧ 0 < s.inFlight then _ else none) = some s' at hstep
      by_cases hreap : s.reaper j = .idle ∧ 0 < s.inFlight
      · rw [if_pos hreap] at hstep
        exact Option.some.inj hstep ▸ (h.setInFlight _).setReaper
          (show (ReapPc.test : ReapPc n).holds = (s.reaper j).holds by rw [hreap.1]; rfl)
          (show (ReapPc.test : ReapPc n).waiter = (s.reaper j).waiter by rw [hreap.1]; rfl) nofun
      · rw [if_neg hreap] at hstep
        cases hstep
  | wake j => exact h.releaseNext hstep

end LaioInv

/-! ## Attended waiters -/

section

variable {s : LaioState n m} {queueSize : Nat}

private theorem attends_setSubmitter {i : Fin n} {p : SubmitPc} (hnew : p ≠ .submit true) :
    (s.setSubmitter i p).Attends ↔
      0 < s.inFlight ∨ (∃ j, s.reaper j ≠ .idle) ∨ ∃ k, k ≠ i ∧ s.submitter k = .submit true := by
  unfold LaioState.Attends
  show (0 < s.inFlight ∨ (∃ j, s.reaper j ≠ .idle) ∨
    ∃ k, Function.update s.submitter i p k = .submit true) ↔ _
  apply or_congr_right
  apply or_congr_right
  constructor
  · rintro ⟨k, hk⟩
    by_cases heq : k = i
    · rw [heq, Function.update_self] at hk
      exact absurd hk hnew
    · rw [Function.update_of_ne heq] at hk
      exact ⟨k, heq, hk⟩
  · rintro ⟨k, hne, hk⟩
    exact ⟨k, by rwa [Function.update_of_ne hne]⟩

private theorem attends_of_setSubmitter {i : Fin n} {p : SubmitPc} (hnew : p ≠ .submit true)
    (h : (s.setSubmitter i p).Attends) : s.Attends := by
  rcases (attends_setSubmitter hnew).mp h with hflight | hreaper | ⟨k, -, hk⟩
  · exact Or.inl hflight
  · exact Or.inr (Or.inl hreaper)
  · exact Or.inr (Or.inr ⟨k, hk⟩)

private theorem attends_setSubmitter_iff {i : Fin n} {p : SubmitPc} (hnew : p ≠ .submit true)
    (hold : s.submitter i ≠ .submit true) : (s.setSubmitter i p).Attends ↔ s.Attends := by
  refine ⟨attends_of_setSubmitter hnew, fun h => (attends_setSubmitter hnew).mpr ?_⟩
  rcases h with hflight | hreaper | ⟨k, hk⟩
  · exact Or.inl hflight
  · exact Or.inr (Or.inl hreaper)
  · refine Or.inr (Or.inr ⟨k, ?_, hk⟩)
    rintro rfl
    exact hold hk

private theorem attends_setReaper {j : Fin (m + 1)} {pc : ReapPc n} (hpc : pc ≠ .idle) :
    (s.setReaper j pc).Attends := by
  refine Or.inr (Or.inl ⟨j, ?_⟩)
  show Function.update s.reaper j pc j ≠ .idle
  rw [Function.update_self]
  exact hpc

/-- What every state has besides: with a kernel queue of no requests nobody ever attends. -/
def NoQueue (queueSize : Nat) (s : LaioState n m) : Prop := queueSize = 0 → ¬ s.Attends

theorem noQueue_init : NoQueue queueSize (LaioState.init : LaioState n m) := by
  rintro - (hflight | ⟨j, hj⟩ | ⟨i, hi⟩)
  · exact Nat.lt_irrefl 0 hflight
  · exact hj rfl
  · cases hi

/-- What an access does for the waiters: they stay attended exactly if it is a woken one. -/
def Exact (queueSize : Nat) (s : LaioState n m) (a : LaioAct n m) (s' : LaioState n m) : Prop :=
  NoQueue queueSize s' ∧ (s'.Attended ↔ s.Woken a)

theorem exact_submitNext {i : Fin n} {fails : Bool} {s' : LaioState n m}
    (hempty : NoQueue queueSize s) (hatt : s.Attended)
    (hstep : s.submitNext queueSize i fails = some s') :
    Exact queueSize s (.submit i fails) s' := by
  have hkeep : ∀ pc : SubmitPc, pc ≠ .submit true → NoQueue queueSize (s.setSubmitter i pc) :=
    fun pc hnew hzero h => hempty hzero (attends_of_setSubmitter hnew h)
  -- a request more in the kernel queue
  have hsubmitted : ∀ pc : SubmitPc, s.inFlight < queueSize →
      Exact queueSize s (.submit i false) ((s.setInFlight (s.inFlight + 1)).setSubmitter i pc) :=
    fun pc hlt => ⟨fun hzero => absurd hzero (Nat.ne_of_gt (Nat.lt_of_le_of_lt (Nat.zero_le _) hlt)),
      fun _ => trivial, fun _ _ => Or.inl (Nat.succ_pos _)⟩
  unfold LaioState.submitNext at hstep
  cases hpc : s.submitter i with
  | submit released =>
      rw [hpc] at hstep
      dsimp only at hstep
      cases fails with
      | true =>
          obtain rfl := Option.some.inj hstep
          refine ⟨hkeep .idle nofun, ?_⟩
          show (s.waiters ≠ [] → (s.setSubmitter i .idle).Attends) ↔ _
          rw [attends_setSubmitter (p := .idle) nofun]
          constructor
          · exact fun h _ => h
          · intro h hwaiters
            cases released with
            | true => exact h hpc hwaiters
            | false =>
                refine (attends_setSubmitter (p := .idle) nofun).mp ?_
                exact (attends_setSubmitter_iff (p := .idle) nofun (by rw [hpc]; nofun)).mpr
                  (hatt hwaiters)
      | false =>
          rw [if_neg Bool.false_ne_true] at hstep
          by_cases hlt : s.inFlight < queueSize
          · rw [if_pos hlt] at hstep
            exact Option.some.inj hstep ▸ hsubmitted .idle hlt
          · rw [if_neg hlt] at hstep
            obtain rfl := Option.some.inj hstep
            refine ⟨hkeep .wantLock nofun, fun _ => trivial, fun _ hwaiters => ?_⟩
            -- the kernel queue is full
            refine (attends_setSubmitter (p := .wantLock) nofun).mpr (Or.inl ?_)
            refine Nat.pos_of_ne_zero fun hzero => ?_
            rw [hzero] at hlt
            exact hempty (Nat.eq_zero_of_not_pos hlt) (hatt hwaiters)
  | submitLocked =>
      have hsame : ∀ pc : SubmitPc, pc ≠ .submit true → (s.setSubmitter i pc).Attended :=
        fun pc hnew hwaiters =>
          (attends_setSubmitter_iff hnew (by rw [hpc]; nofun)).mpr (hatt hwaiters)
      rw [hpc] at hstep
      dsimp only at hstep
      cases fails with
      | true =>
          obtain rfl := Option.some.inj hstep
          refine ⟨hkeep .unlock nofun, fun _ h => ?_, fun _ => hsame .unlock nofun⟩
          rw [hpc] at h
          cases h
      | false =>
          rw [if_neg Bool.false_ne_true] at hstep
          by_cases hlt : s.inFlight < queueSize
          · rw [if_pos hlt] at hstep
            exact Option.some.inj hstep ▸ hsubmitted .unlock hlt
          · rw [if_neg hlt] at hstep
            obtain rfl := Option.some.inj hstep
            exact ⟨hkeep .refused nofun, fun _ => trivial, fun _ => hsame .refused nofun⟩
  | _ =>
      rw [hpc] at hstep
      cases hstep

theorem exact_asyncNext {i : Fin n} {s' : LaioState n m} (hempty : NoQueue queueSize s)
    (hatt : s.Attended) (hstep : s.asyncNext i = some s') : Exact queueSize s (.next i) s' := by
  have hiff : ∀ (pc : SubmitPc) (t : LaioState n m), pc ≠ .submit true →
      s.submitter i ≠ .submit true → t.inFlight = s.inFlight → t.reaper = s.reaper →
      t.submitter = (s.setSubmitter i pc).submitter → (t.Attends ↔ s.Attends) := by
    intro pc t hnew hold hflight hreaper hsubmitter
    rw [← attends_setSubmitter_iff hnew hold]
    unfold LaioState.Attends
    rw [hflight, hreaper, hsubmitter]
    rfl
  -- an access that is not the append leaves the waiters as they are
  have hquiet : ∀ (pc : SubmitPc) (t : LaioState n m), pc ≠ .submit true →
      s.submitter i ≠ .submit true → s.submitter i ≠ .refused → t.inFlight = s.inFlight →
      t.reaper = s.reaper → t.submitter = (s.setSubmitter i pc).submitter →
      t.waiters = s.waiters → Exact queueSize s (.next i) t := by
    intro pc t hnew hold hrefused hflight hreaper hsubmitter hwaiters
    have hattends := hiff pc t hnew hold hflight hreaper hsubmitter
    refine ⟨fun hzero h => hempty hzero (hattends.mp h), fun _ h => absurd h hrefused, ?_⟩
    intro _ hsome
    rw [hwaiters] at hsome
    exact hattends.mpr (hatt hsome)
  unfold LaioState.asyncNext at hstep
  cases hpc : s.submitter i with
  | wantLock =>
      rw [hpc] at hstep hquiet
      dsimp only at hstep
      by_cases hfree : s.lock = none
      · rw [if_pos hfree] at hstep
        exact Option.some.inj hstep ▸ hquiet .submitLocked _ nofun nofun nofun rfl rfl rfl rfl
      · rw [if_neg hfree] at hstep
        cases hstep
  | refused =>
      rw [hpc] at hstep hiff
      obtain rfl := Option.some.inj hstep
      have hattends := hiff .appended
        ((s.setWaiters (s.waiters ++ [i])).setSubmitter i .appended) nofun nofun rfl rfl rfl
      refine ⟨fun hzero h => hempty hzero (hattends.mp h), fun h _ => ?_, fun h _ => ?_⟩
      · exact hattends.mp (h (List.append_ne_nil_of_right_ne_nil _ (List.cons_ne_nil _ _)))
      · exact hattends.mpr (h hpc)
  | appended =>
      rw [hpc] at hstep hquiet
      exact Option.some.inj hstep ▸ hquiet .waiting _ nofun nofun nofun rfl rfl rfl rfl
  | unlock =>
      rw [hpc] at hstep hquiet
      exact Option.some.inj hstep ▸ hquiet .idle _ nofun nofun nofun rfl rfl rfl rfl
  | _ =>
      rw [hpc] at hstep
      cases hstep

/-- **The accesses of a reaper**: it attends until it has released a waiter or there was none. -/
theorem exact_releaseNext {j : Fin (m + 1)} {s' : LaioState n m} (hinv : LaioInv s)
    (hempty : NoQueue queueSize s) (hstep : s.releaseNext j = some s') :
    Exact queueSize s (.wake j) s' := by
  have hzero : s.reaper j ≠ .idle → queueSize ≠ 0 := fun hj h =>
    hempty h (Or.inr (Or.inl ⟨j, hj⟩))
  have hgoes : ∀ (pc : ReapPc n) (t : LaioState n m), s.reaper j ≠ .idle → pc ≠ .idle →
      t.reaper = (s.setReaper j pc).reaper → Exact queueSize s (.wake j) t := by
    intro pc t hj hpc hreaper
    refine ⟨fun h => absurd h (hzero hj), fun _ => trivial, fun _ _ => Or.inr (Or.inl ⟨j, ?_⟩)⟩
    rw [hreaper]
    show Function.update s.reaper j pc j ≠ .idle
    rw [Function.update_self]
    exact hpc
  have hends : ∀ t : LaioState n m, s.reaper j ≠ .idle → t.waiters = [] →
      Exact queueSize s (.wake j) t := fun t hj hwaiters =>
    ⟨fun h => absurd h (hzero hj), fun _ => trivial, fun _ h => absurd hwaiters h⟩
  unfold LaioState.releaseNext at hstep
  cases hpc : s.reaper j with
  | idle =>
      rw [hpc] at hstep
      cases hstep
  | test =>
      rw [hpc] at hstep hgoes hends
      obtain rfl := Option.some.inj hstep
      by_cases hwaiters : s.waiters = []
      · exact hends _ nofun hwaiters
      · refine hgoes .wantLock _ nofun nofun ?_
        rw [if_neg hwaiters]
  | wantLock =>
      rw [hpc] at hstep hgoes
      dsimp only at hstep
      by_cases hfree : s.lock = none
      · rw [if_pos hfree] at hstep
        exact Option.some.inj hstep ▸ hgoes .pop _ nofun nofun rfl
      · rw [if_neg hfree] at hstep
        cases hstep
  | pop =>
      rw [hpc] at hstep hgoes
      exact Option.some.inj hstep ▸ hgoes (.unlock s.waiters.head?) _ nofun nofun rfl
  | unlock waiter =>
      rw [hpc] at hstep hgoes hends
      cases waiter with
      | none => exact Option.some.inj hstep ▸ hends _ nofun (hinv.popped j hpc)
      | some waiter => exact Option.some.inj hstep ▸ hgoes (.release waiter) _ nofun nofun rfl
  | release waiter =>
      rw [hpc] at hstep hzero
      obtain rfl := Option.some.inj hstep
      refine ⟨fun h => absurd h (hzero nofun), fun _ => trivial, fun _ _ => ?_⟩
      refine Or.inr (Or.inr ⟨waiter, ?_⟩)
      show Function.update s.submitter waiter (.submit true) waiter = .submit true
      rw [Function.update_self]

theorem exact_step {a : LaioAct n m} {s' : LaioState n m} (hinv : LaioInv s)
    (hempty : NoQueue queueSize s) (hatt : s.Attended)
    (hstep : laioNext queueSize s a = some s') : Exact queueSize s a s' := by
  cases a with
  | call i =>
      change (if s.submitter i = .idle then _ else none) = some s' at hstep
      by_cases hidle : s.submitter i = .idle
      · rw [if_pos hidle] at hstep
        obtain rfl := Option.some.inj hstep
        have hattends := attends_setSubmitter_iff (s := s) (i := i) (p := .submit false) nofun
          (by rw [hidle]; nofun)
        exact ⟨fun hzero h => hempty hzero (hattends.mp h), fun _ => trivial,
          fun _ hwaiters => hattends.mpr (hatt hwaiters)⟩
      · rw [if_neg hidle] at hstep
        cases hstep
  | submit i fails => exact exact_submitNext hempty hatt hstep
  | next i => exact exact_asyncNext hempty hatt hstep
  | reap j =>
      change (if s.reaper j = .idle ∧ 0 < s.inFlight then _ else none) = some s' at hstep
      by_cases hreap : s.reaper j = .idle ∧ 0 < s.inFlight
      · rw [if_pos hreap] at hstep
        obtain rfl := Option.some.inj hstep
        exact ⟨fun hzero _ => hempty hzero (Or.inl hreap.2), fun _ => trivial,
          fun _ _ => attends_setReaper nofun⟩
      · rw [if_neg hreap] at hstep
        cases hstep
  | wake j => exact exact_releaseNext hinv hempty hstep

end

end Platform
end TreePass
