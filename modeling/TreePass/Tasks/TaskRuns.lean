import TreePass.Tasks.TaskInv

/-!
# Runs of the task system

* `Awake`: while a task waits, not all workers of its group sleep.
* `TasksSafe` is what is true of the tasks in every state: each of them has one fate, those enqueued
  at the tail start in order, the count of waiting tasks is the length of the queue, and what
  `task_system_is_quiescent` calls quiescent is quiescent.
* `tasks_safe_of_reachable` proves it for every interleaving.
-/

namespace TreePass
namespace Tasks

open Lib Lib.System

variable {n g : Nat} {worker : Fin n → Option (Fin g)} {s s' : TaskState n g}
  {queue : Fin g → List Task} {t : Fin n} {k : Fin g}

/-! ## Sleeping workers -/

/-- A group with a waiting task has a worker that does not sleep, if it has workers at all. -/
def Awake (worker : Fin n → Option (Fin g)) (s : TaskState n g) (queue : Fin g → List Task) : Prop :=
  ∀ k, queue k ≠ [] → (∃ w, worker w = some k) → ∃ w, worker w = some k ∧ s.pc w ≠ .wait

theorem Awake.mono (h : Awake worker s queue) {queue' : Fin g → List Task}
    (hqueue : ∀ k, queue' k ≠ [] → queue k ≠ []) (hothers : ∀ u, u ≠ t → s'.pc u = s.pc u)
    (hmine : s'.pc t ≠ .wait) : Awake worker s' queue' := by
  intro k hne hworkers
  obtain ⟨w, hw, hawake⟩ := h k (hqueue k hne) hworkers
  by_cases hwt : w = t
  · subst hwt
    exact ⟨w, hw, hmine⟩
  · exact ⟨w, hw, by rwa [hothers w hwt]⟩

theorem awake_signal {s₁ : TaskState n g} {l : List Task} {wake : Option (Fin n)}
    (h : Awake worker s queue) (hpc : s₁.pc = s.pc) (hsignal : signal worker s₁ k wake = some s') :
    Awake worker s' (Function.update queue k l) := by
  intro k' hne hworkers
  have hother : k' ≠ k → ∃ w, worker w = some k' ∧ s.pc w ≠ .wait := by
    intro hk
    rw [Function.update_of_ne hk] at hne
    exact h k' hne hworkers
  cases wake with
  | some w =>
      simp only [signal] at hsignal
      split at hsignal
      next hwake =>
        obtain rfl := Option.some.inj hsignal
        have hidle : (s₁.setPc w .idle).pc w ≠ .wait := by
          change Function.update s₁.pc w .idle w ≠ .wait
          rw [Function.update_self]
          exact fun heq => by cases heq
        by_cases hk : k' = k
        · exact ⟨w, hk ▸ hwake.1, hidle⟩
        · obtain ⟨v, hv, hawake⟩ := hother hk
          by_cases hvw : v = w
          · exact ⟨w, hvw ▸ hv, hidle⟩
          · refine ⟨v, hv, ?_⟩
            change Function.update s₁.pc w .idle v ≠ .wait
            rwa [Function.update_of_ne hvw, hpc]
      next => cases hsignal
  | none =>
      simp only [signal] at hsignal
      split at hsignal
      next hnobody =>
        obtain rfl := Option.some.inj hsignal
        by_cases hk : k' = k
        · obtain ⟨w, hw⟩ := hworkers
          exact ⟨w, hw, hnobody w (hk ▸ hw)⟩
        · obtain ⟨v, hv, hawake⟩ := hother hk
          exact ⟨v, hv, by rwa [hpc]⟩
      next => cases hsignal

theorem awake_take (h : Awake worker s queue) (hmine : worker t = some k)
    (hothers : ∀ u, u ≠ t → s'.pc u = s.pc u)
    (htask : queue k ≠ [] → ∃ task, s'.pc t = .running k task) :
    Awake worker s' (Function.update queue k (queue k).tail) := by
  intro k' hne hworkers
  by_cases hk : k' = k
  · subst hk
    rw [Function.update_self] at hne
    obtain ⟨task, htask⟩ := htask fun hnil => hne (by rw [hnil]; rfl)
    exact ⟨t, hmine, by rw [htask]; exact fun heq => by cases heq⟩
  · rw [Function.update_of_ne hk] at hne
    obtain ⟨w, hw, hawake⟩ := h k' hne hworkers
    have hwt : w ≠ t := by
      rintro rfl
      exact hk (Option.some.inj (hw.symm.trans hmine))
    exact ⟨w, hw, by rwa [hothers w hwt]⟩

/-! ## Steps -/

def TaskOk (worker : Fin n → Option (Fin g)) (s : TaskState n g) : Prop :=
  ∃ queue, TaskInv worker s queue ∧ Awake worker s queue

theorem update_tail_ne_nil {k' : Fin g}
    (h : Function.update queue k (queue k).tail k' ≠ []) : queue k' ≠ [] := by
  by_cases hk : k' = k
  · subst hk
    rw [Function.update_self] at h
    exact fun hnil => h (by rw [hnil]; rfl)
  · rwa [Function.update_of_ne hk] at h

theorem taskOk_worker_take (hinv : TaskInv worker s queue) (hawake : Awake worker s queue)
    (hpc : s.pc t = .idle) (hmine : worker t = some k) (hlock : s.lock k = none)
    (h : takeTask s t k .wait = some s') : TaskOk worker s' := by
  have hplain : (s.pc t).isPlain = true := by rw [hpc]; rfl
  have hresting : (TaskPc.wait : TaskPc g).isPlain = true := rfl
  obtain ⟨s₁, htake, hinv₁, hothers, htask⟩ :=
    hinv.take hplain hresting hlock fun k' hk' => Option.some.inj (hk'.symm.trans hmine)
  obtain rfl := Option.some.inj (htake.symm.trans h)
  exact ⟨_, hinv₁, awake_take hawake hmine hothers htask⟩

theorem taskOk_next (hok : TaskOk worker s) (h : threadNext worker s t = some s') :
    TaskOk worker s' := by
  obtain ⟨queue, hinv, hawake⟩ := hok
  unfold threadNext at h
  cases hpc : s.pc t with
  | idle =>
      rw [hpc] at h
      cases hmine : worker t with
      | none => simp [hmine] at h
      | some k =>
          simp only [hmine] at h
          split at h
          next hlock => exact taskOk_worker_take hinv hawake hpc hmine hlock h
          next => cases h
  | wait =>
      rw [hpc] at h
      cases h
  | wanted k =>
      simp only [hpc] at h
      split at h
      next hand =>
        obtain ⟨hfore, hlock⟩ := hand
        have hplain : (s.pc t).isPlain = true := by rw [hpc]; rfl
        have hresting : (TaskPc.idle : TaskPc g).isPlain = true := rfl
        obtain ⟨s₁, htake, hinv₁, hothers, -⟩ :=
          hinv.take hplain hresting hlock fun k' hk' => by rw [hfore] at hk'; cases hk'
        obtain rfl := Option.some.inj (htake.symm.trans h)
        refine ⟨_, hinv₁, fun k' hne hworkers => ?_⟩
        obtain ⟨w, hw, hwake⟩ := hawake k' (update_tail_ne_nil hne) hworkers
        have hwt : w ≠ t := by
          rintro rfl
          rw [hfore] at hw
          cases hw
        exact ⟨w, hw, by rwa [hothers w hwt]⟩
      next => cases h
  | running k task =>
      rw [hpc] at h
      obtain rfl := Option.some.inj h
      refine ⟨queue, hinv.finish hpc, hawake.mono (t := t) (fun _ => id) (fun u hu => ?_) ?_⟩
      · exact Function.update_of_ne hu _ _
      · change Function.update s.pc t _ t ≠ _
        rw [Function.update_self]
        exact fun heq => by cases heq
  | ran k task =>
      have hidle : (uncountTask s t k).pc t = .idle := Function.update_self ..
      have hinv₁ := hinv.uncount hpc
      have hawake₁ : Awake worker (uncountTask s t k) queue :=
        hawake.mono (t := t) (fun _ => id) (fun u hu => Function.update_of_ne hu _ _)
          (by rw [hidle]; exact fun heq => by cases heq)
      simp only [hpc] at h
      cases hmine : worker t with
      | some k' =>
          simp only [hmine] at h
          obtain rfl : k = k' := by
            by_contra hne
            have hown := hinv.counts.ownGroup t k' k hmine hne
            rw [hpc, TaskPc.executes, if_pos rfl] at hown
            cases hown
          split at h
          next hlock => exact taskOk_worker_take hinv₁ hawake₁ hidle hmine hlock h
          next => cases h
      | none =>
          simp only [hmine] at h
          obtain rfl := Option.some.inj h
          exact ⟨queue, hinv₁, hawake₁⟩
  | locking j | checking j | unlocking result locked j =>
      rw [hpc] at h
      obtain ⟨hinv₁, hothers, hwait⟩ := hinv.quiescent h
      exact ⟨queue, hinv₁, hawake.mono (fun _ => id) hothers hwait⟩

theorem taskOk_setPc (hok : TaskOk worker s) {pc : TaskPc g} (hold : (s.pc t).isPlain = true)
    (hnew : pc.isPlain = true) (hwait : pc ≠ .wait) : TaskOk worker (s.setPc t pc) := by
  obtain ⟨queue, hinv, hawake⟩ := hok
  refine ⟨queue, hinv.setPc hold hnew,
    hawake.mono (t := t) (fun _ => id) (fun u hu => Function.update_of_ne hu _ _) ?_⟩
  change Function.update s.pc t pc t ≠ _
  rwa [Function.update_self]

theorem taskOk_judge (hok : TaskOk worker s) {pc : TaskPc g} (hwait : pc ≠ .wait)
    (hold : ∀ k, (s.pc t).runs k = 0 ∧ (s.pc t).executes k = 0)
    (hnew : ∀ k, pc.runs k = 0 ∧ pc.executes k = 0)
    (hlocked : ∀ k, pc.HasLocked k ↔ (s.pc t).HasLocked k) (hnone : ∀ k, ¬ pc.HasChecked k)
    (hresult : ∀ locked j, pc ≠ .unlocking true locked j) : TaskOk worker (s.setPc t pc) := by
  obtain ⟨queue, hinv, hawake⟩ := hok
  have hlocks : LockInv (s.setPc t pc) :=
    hinv.locks.judge rfl rfl (fun k u _ => Iff.rfl)
      (fun k => (hinv.locks.lock_iff k t).trans (hlocked k).symm) (fun k hk => absurd hk (hnone k))
      fun locked j heq => absurd heq (hresult locked j)
  refine ⟨queue, hinv.judge (fun k => (hnew k).1.trans (hold k).1.symm)
    (fun k => (hnew k).2.trans (hold k).2.symm) rfl rfl rfl rfl hlocks,
    hawake.mono (t := t) (fun _ => id) (fun u hu => Function.update_of_ne hu _ _) ?_⟩
  change Function.update s.pc t pc t ≠ _
  rwa [Function.update_self]

theorem taskOk_step {a : Fin n × TaskAct n g} (hok : TaskOk worker s)
    (h : taskNext worker s a = some s') : TaskOk worker s' := by
  obtain ⟨t, act⟩ := a
  cases act with
  | enqueue k atHead wake =>
      simp only [taskNext] at h
      split at h
      next hcan =>
        obtain ⟨queue, hinv, hawake⟩ := hok
        obtain ⟨tq, hpush, hinv₁⟩ := hinv.push k atHead hcan.2
        rw [hpush, Option.bind_some] at h
        have hpc : (s.pushed k atHead tq).pc = s.pc := rfl
        refine ⟨Function.update queue k (TaskQueue.enqueued (queue k) ⟨s.nextId, atHead⟩), ?_,
          awake_signal hawake hpc h⟩
        cases wake with
        | some w =>
            simp only [signal] at h
            split at h
            next hwake =>
              obtain rfl := Option.some.inj h
              exact hinv₁.setPc (by rw [hwake.2]; rfl) rfl
            next => cases h
        | none =>
            simp only [signal] at h
            split at h
            next =>
              obtain rfl := Option.some.inj h
              exact hinv₁
            next => cases h
      next => cases h
  | performOne k queueScalePercent =>
      simp only [taskNext] at h
      split at h
      next hidle =>
        obtain rfl := Option.some.inj h
        split
        · exact hok
        · exact taskOk_setPc hok (by rw [hidle.1]; rfl) rfl fun heq => by cases heq
      next => cases h
  | isQuiescent =>
      simp only [taskNext] at h
      split at h
      next hidle =>
        obtain rfl := Option.some.inj h
        refine taskOk_judge hok (fun heq => by cases heq) (fun k => ?_) (fun k => ⟨rfl, rfl⟩)
          (fun k => ?_) (fun k => id) fun _ _ heq => by cases heq
        · rw [hidle.1]
          exact ⟨rfl, rfl⟩
        · rw [hidle.1]
          exact iff_of_false (Nat.not_lt_zero _) id
      next => cases h
  | wakeUp =>
      simp only [taskNext] at h
      split at h
      next hwait =>
        obtain rfl := Option.some.inj h
        exact taskOk_setPc hok (by rw [hwait]; rfl) rfl fun heq => by cases heq
      next => cases h
  | lockFails =>
      simp only [taskNext] at h
      split at h
      next j hpc =>
        split at h
        next hj =>
          obtain rfl := Option.some.inj h
          refine taskOk_judge hok (fun heq => by cases heq) (fun k => ?_) (fun k => ⟨rfl, rfl⟩)
            (fun k => ?_) (fun k => id) fun _ _ heq => by cases heq
          · rw [hpc]
            exact ⟨rfl, rfl⟩
          · rw [hpc]
            change 0 ≤ k.val ∧ k.val < j ↔ k.val < j
            omega
        next => cases h
      next => cases h
  | next => exact taskOk_next hok h

theorem taskOk_of_reachable (h : (taskSystem worker).Reachable s) : TaskOk worker s := by
  refine h.invariant (fun s hinit => ⟨_, taskInv_init hinit, fun k hne => absurd rfl hne⟩) ?_
  exact fun s a s' hok hstep => taskOk_step hok hstep

/-! ## What is true of the tasks -/

def WaitingIn (s : TaskState n g) (k : Fin g) (l : List Task) : Prop :=
  TaskQueue.Linked (s.group k).tq.next (s.group k).tq.head l

/-- What is true of the tasks in a state. -/
structure TasksSafe (worker : Fin n → Option (Fin g)) (s : TaskState n g) : Prop where
  /-- Each task that has been enqueued waits, is being run by one thread or has been run: one of the
  three, and once. -/
  one_fate : ∀ k, ∃ l, WaitingIn s k l ∧
    (enqueuedOf k s.log : Multiset Task) = l + runningOf k s.pc + finishedOf k s.log
  /-- No task is enqueued, started or finished twice, in its group or in two groups. -/
  once : ∀ k, (enqueuedOf k s.log).Nodup ∧ (startedOf k s.log).Nodup ∧ (finishedOf k s.log).Nodup ∧
    ∀ k', k' ≠ k → ∀ task ∈ enqueuedOf k s.log, task ∉ enqueuedOf k' s.log
  /-- Two threads do not run the same task. -/
  one_runner : ∀ t u k task, s.pc t = .running k task → s.pc u = .running k task → t = u
  /-- Tasks enqueued at the tail start in the order of their enqueueing. -/
  fifo : ∀ k, ((startedOf k s.log).filter fun task => !task.atHead) <+:
    (enqueuedOf k s.log).filter fun task => !task.atHead
  /-- The count of waiting tasks is the length of the queue. -/
  waiting_eq : ∀ k, ∃ l, WaitingIn s k l ∧ (s.group k).tq.currentWaitingTasks = l.length
  /-- `task_system_is_quiescent` finds the system quiescent when it is: while it has the locks of all
  groups, no task waits or executes, and every task enqueued so far has been run. -/
  quiescent : ∀ t locked, s.pc t = .unlocking true locked 0 → ∀ k,
    WaitingIn s k [] ∧ (∀ u, (s.pc u).executes k = 0) ∧
      (enqueuedOf k s.log : Multiset Task) = finishedOf k s.log
  /-- Until it gives a lock back, the group stays quiescent. -/
  stays_quiescent : ∀ t locked j k, s.pc t = .unlocking true locked j → j ≤ k.val →
    WaitingIn s k [] ∧ ∀ u, (s.pc u).executes k = 0
  /-- While a task waits, not all workers of its group sleep. -/
  awake : ∀ k l, WaitingIn s k l → l ≠ [] → (∃ w, worker w = some k) →
    ∃ w, worker w = some k ∧ s.pc w ≠ .wait
  /-- The assertions of `task_enqueue` and `task_group_get_next_task` hold. -/
  asserts : ∀ k, (s.group k).tq.pop.isSome ∧
    ∀ atHead, ((s.group k).tq.push ⟨s.nextId, atHead⟩).isSome

theorem linked_unique {next : Task → Option Task} {l : List Task} :
    ∀ {start : Option Task} {l' : List Task}, TaskQueue.Linked next start l →
      TaskQueue.Linked next start l' → l = l' := by
  induction l with
  | nil =>
      rintro start l' rfl h'
      cases l' with
      | nil => rfl
      | cons task rest => cases h'.1
  | cons task rest ih =>
      rintro start l' ⟨rfl, hrest⟩ h'
      cases l' with
      | nil => cases h'
      | cons task' rest' =>
          obtain ⟨heq, hrest'⟩ := h'
          cases heq
          rw [ih hrest hrest']

theorem CountInv.nobody (h : CountInv worker s) (hzero : (s.group k).currentExecutingTasks = 0)
    (u : Fin n) : (s.pc u).executes k = 0 := by
  have hle := le_tally (fun _ pc => TaskPc.executes k pc) s.pc u
  rw [← h.executing_eq k, hzero] at hle
  exact Nat.le_zero.mp hle

theorem TaskPc.runs_of_executes {pc : TaskPc g} (h : pc.executes k = 0) : pc.runs k = 0 := by
  cases pc with
  | running k' task =>
      by_cases hk : k' = k
      · rw [TaskPc.executes, if_pos hk] at h
        cases h
      · rw [TaskPc.runs, if_neg hk]
  | _ => rfl

theorem TaskInv.quiet (h : TaskInv worker s queue) (hchecked : (s.pc t).HasChecked k) :
    queue k = [] ∧ ∀ u, (s.pc u).executes k = 0 := by
  obtain ⟨hexec, hwait⟩ := h.locks.quiet k t hchecked
  refine ⟨?_, h.counts.nobody hexec⟩
  rw [(h.queues.represents k).waiting_eq] at hwait
  exact List.length_eq_zero_iff.mp hwait

theorem TaskInv.fate (h : TaskInv worker s queue) (k : Fin g) :
    (enqueuedOf k s.log : Multiset Task) = queue k + runningOf k s.pc + finishedOf k s.log := by
  have hperm : (enqueuedOf k s.log : Multiset Task) = startedOf k s.log + queue k :=
    Multiset.coe_eq_coe.mpr (h.queues.enqueued_perm k)
  rw [hperm, h.counts.started_eq k]
  abel

theorem TaskInv.safe (h : TaskInv worker s queue) (hawake : Awake worker s queue) :
    TasksSafe worker s where
  one_fate k := ⟨queue k, (h.queues.represents k).linked, h.fate k⟩
  once k := by
    have hsplit := ((h.queues.enqueued_perm k).nodup_iff).mp (h.queues.nodup k)
    have hstarted : (startedOf k s.log).Nodup := hsplit.of_append_left
    refine ⟨h.queues.nodup k, hstarted, ?_, fun k' hne task hmem hmem' =>
      hne (h.queues.apart k' k task hmem' hmem)⟩
    rw [← Multiset.coe_nodup, h.counts.started_eq k] at hstarted
    exact Multiset.coe_nodup.mp (Multiset.nodup_of_le (Multiset.le_add_right _ _) hstarted)
  one_runner t u k task ht hu := by
    by_contra hne
    have hsplit := ((h.queues.enqueued_perm k).nodup_iff).mp (h.queues.nodup k)
    have hstarted : (startedOf k s.log).Nodup := hsplit.of_append_left
    rw [← Multiset.coe_nodup, h.counts.started_eq k] at hstarted
    have hrunning : (runningOf k s.pc).Nodup :=
      Multiset.nodup_of_le (Multiset.le_add_left _ _) hstarted
    have hle := add_le_tally (fun _ pc => (TaskPc.runs k pc).count task) s.pc hne
    have hcount : (runningOf k s.pc).count task = ∑ v, ((s.pc v).runs k).count task :=
      Multiset.count_sum'
    have hone := Multiset.nodup_iff_count_le_one.mp hrunning task
    have hrun : ((TaskPc.running k task).runs k).count task = 1 := by simp [TaskPc.runs]
    rw [← hcount, ht, hu, hrun] at hle
    omega
  fifo k := by
    rw [h.queues.order k, List.filter_append]
    exact List.prefix_append _ _
  waiting_eq k := ⟨queue k, (h.queues.represents k).linked, (h.queues.represents k).waiting_eq⟩
  quiescent t locked ht k := by
    have hlocked := h.locks.allLocked t locked 0 ht
    have hchecked : (s.pc t).HasChecked k := by
      rw [ht, hlocked]
      exact ⟨Nat.zero_le _, k.isLt⟩
    obtain ⟨hqueue, hnobody⟩ := h.quiet hchecked
    refine ⟨?_, hnobody, ?_⟩
    · rw [WaitingIn, ← hqueue]
      exact (h.queues.represents k).linked
    · have hnone : runningOf k s.pc = 0 :=
        Finset.sum_eq_zero fun u _ => TaskPc.runs_of_executes (hnobody u)
      rw [h.fate k, hqueue, hnone]
      simp
  stays_quiescent t locked j k ht hj := by
    have hlocked := h.locks.allLocked t locked j ht
    have hchecked : (s.pc t).HasChecked k := by
      rw [ht, hlocked]
      exact ⟨hj, k.isLt⟩
    obtain ⟨hqueue, hnobody⟩ := h.quiet hchecked
    refine ⟨?_, hnobody⟩
    rw [WaitingIn, ← hqueue]
    exact (h.queues.represents k).linked
  awake k l hl hne := by
    rw [linked_unique hl (h.queues.represents k).linked] at hne
    exact hawake k hne
  asserts k := by
    refine ⟨?_, fun atHead => ?_⟩
    · obtain ⟨tq, hpop, -⟩ := (h.queues.represents k).pop
      rw [hpop]
      rfl
    · obtain ⟨tq, hpush, -⟩ := (h.queues.represents k).push fun hmem =>
        h.queues.fresh k atHead (h.queues.mem_enqueued hmem)
      rw [hpush]
      rfl

/-- **The task system loses no task and runs none twice**, for any number of workers and foreground
threads, in every state of every interleaving. -/
theorem tasks_safe_of_reachable (h : (taskSystem worker).Reachable s) : TasksSafe worker s := by
  obtain ⟨queue, hinv, hawake⟩ := taskOk_of_reachable h
  exact hinv.safe hawake

private def freshSystem : TaskState 1 2 :=
  { group := fun _ => { tq := .empty, currentExecutingTasks := 0, numThreads := 0 }
    lock := fun _ => none, pc := fun _ => .idle, nextId := 0, log := [] }

private def foreground : Fin 1 → Option (Fin 2) := fun _ => none

private theorem exec_oneTask : ∃ acts : List (Fin 1 × TaskAct 1 2),
    (exec (taskNext foreground) freshSystem acts).map (fun r => r.2.pc 0) =
      some (.unlocking true 2 0) :=
  ⟨[(0, .enqueue 0 false none), (0, .performOne 0 0), (0, .next), (0, .next), (0, .next),
    (0, .isQuiescent), (0, .next), (0, .next), (0, .next), (0, .next), (0, .next), (0, .next)],
    by decide⟩

theorem tasks_safe_after_one_task :
    ∃ s, (taskSystem foreground).Reachable s ∧ s.pc 0 = .unlocking true 2 0 ∧
      TasksSafe foreground s := by
  obtain ⟨acts, hlast⟩ := exec_oneTask
  obtain ⟨⟨tr, s⟩, hrun, hpc⟩ := Option.map_eq_some_iff.mp hlast
  have hinit : TaskInit freshSystem :=
    ⟨fun _ => rfl, fun _ => rfl, fun _ => rfl, fun _ => rfl, rfl, rfl⟩
  have hreach : (taskSystem foreground).Reachable s := ⟨freshSystem, tr, hinit, run_of_exec hrun⟩
  exact ⟨s, hreach, hpc, tasks_safe_of_reachable hreach⟩

end Tasks
end TreePass
