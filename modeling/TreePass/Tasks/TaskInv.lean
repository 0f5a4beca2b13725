import TreePass.Tasks.TaskSystem

/-!
# Invariants of the task system

* `QueueInv` ties the queues to the history: what has been enqueued has started or is waiting, and
  the tasks enqueued at the tail keep their order.
* `CountInv` ties the threads to it: what has started has finished or is being run by one thread, and
  the tasks counted as executing are those the threads have.
* `LockInv` is about `task_system_is_quiescent`: the groups it has looked at are locked and quiet.

Each of them is kept by the parts that `taskNext` is made of.
-/

namespace TreePass
namespace Tasks

open Lib

variable {n g : Nat} {worker : Fin n → Option (Fin g)} {s s' : TaskState n g}
  {queue : Fin g → List Task} {t : Fin n} {k : Fin g}

/-! ## Places -/

/-- `task_system_is_quiescent` has the lock of the group. -/
def TaskPc.HasLocked (k : Fin g) : TaskPc g → Prop
  | .locking j => k.val < j
  | .checking _ => True
  | .unlocking _ locked j => j ≤ k.val ∧ k.val < locked
  | _ => False

/-- `task_system_is_quiescent` has found no task in the group and still has its lock. -/
def TaskPc.HasChecked (k : Fin g) : TaskPc g → Prop
  | .checking j => k.val < j
  | .unlocking true locked j => j ≤ k.val ∧ k.val < locked
  | _ => False

theorem TaskPc.hasLocked_of_hasChecked {pc : TaskPc g} (h : pc.HasChecked k) : pc.HasLocked k := by
  cases pc with
  | checking j => trivial
  | unlocking result locked j =>
      cases result with
      | true => exact h
      | false => exact h.elim
  | _ => exact h.elim

def TaskPc.isPlain : TaskPc g → Bool
  | .idle | .wait | .wanted _ => true
  | _ => false

theorem TaskPc.runs_of_isPlain {pc : TaskPc g} (h : pc.isPlain = true) : pc.runs k = 0 := by
  cases pc <;> first | rfl | cases h

theorem TaskPc.executes_of_isPlain {pc : TaskPc g} (h : pc.isPlain = true) : pc.executes k = 0 := by
  cases pc <;> first | rfl | cases h

theorem TaskPc.not_hasLocked_of_isPlain {pc : TaskPc g} (h : pc.isPlain = true) :
    ¬ pc.HasLocked k := by
  cases pc <;> first | exact id | cases h

/-! ## The invariants -/

/-- What the queues hold, and what has become of the tasks enqueued so far. -/
structure QueueInv (s : TaskState n g) (queue : Fin g → List Task) : Prop where
  represents : ∀ k, (s.group k).tq.Represents (queue k)
  enqueued_perm : ∀ k, (enqueuedOf k s.log).Perm (startedOf k s.log ++ queue k)
  order : ∀ k, (enqueuedOf k s.log).filter (fun task => !task.atHead) =
    (startedOf k s.log ++ queue k).filter fun task => !task.atHead
  id_lt : ∀ k, ∀ task ∈ enqueuedOf k s.log, task.id < s.nextId
  nodup : ∀ k, (enqueuedOf k s.log).Nodup
  apart : ∀ k k' task, task ∈ enqueuedOf k s.log → task ∈ enqueuedOf k' s.log → k = k'

/-- What the threads are doing with the tasks that have started. -/
structure CountInv (worker : Fin n → Option (Fin g)) (s : TaskState n g) : Prop where
  started_eq : ∀ k, (startedOf k s.log : Multiset Task) = finishedOf k s.log + runningOf k s.pc
  executing_eq : ∀ k, (s.group k).currentExecutingTasks = ∑ t, (s.pc t).executes k
  ownGroup : ∀ t k k', worker t = some k → k' ≠ k → (s.pc t).executes k' = 0

/-- What `task_system_is_quiescent` has locked and found. -/
structure LockInv (s : TaskState n g) : Prop where
  lock_iff : ∀ k t, s.lock k = some t ↔ (s.pc t).HasLocked k
  quiet : ∀ k t, (s.pc t).HasChecked k →
    (s.group k).currentExecutingTasks = 0 ∧ (s.group k).tq.currentWaitingTasks = 0
  allLocked : ∀ t locked j, s.pc t = .unlocking true locked j → locked = g

/-- The three invariants together. -/
structure TaskInv (worker : Fin n → Option (Fin g)) (s : TaskState n g)
    (queue : Fin g → List Task) : Prop where
  queues : QueueInv s queue
  counts : CountInv worker s
  locks : LockInv s

theorem taskInv_init (h : TaskInit s) : TaskInv worker s fun _ => [] where
  queues := by
    have hlog := h.log_eq
    refine ⟨fun k => ?_, fun k => ?_, fun k => ?_, fun k => ?_, fun k => ?_, fun k k' task => ?_⟩
    · rw [h.tq_eq k]
      exact TaskQueue.represents_empty
    all_goals
      rw [hlog]
      simp [enqueuedOf, startedOf]
  counts := by
    refine ⟨fun k => ?_, fun k => ?_, fun t k k' _ _ => ?_⟩
    · simp [h.log_eq, startedOf, finishedOf, runningOf, h.idle, TaskPc.runs]
    · simp [h.executing_eq k, h.idle, TaskPc.executes]
    · rw [h.idle t]
      rfl
  locks := by
    refine ⟨fun k t => ?_, fun k t hc => ?_, fun t locked j hpc => ?_⟩
    · rw [h.lock_eq k, h.idle t]
      exact ⟨fun hnone => (Option.some_ne_none t hnone.symm).elim, False.elim⟩
    · rw [h.idle t] at hc
      exact hc.elim
    · rw [h.idle t] at hpc
      cases hpc

/-! ## Threads that move -/

theorem CountInv.setPc (h : CountInv worker s) {pc : TaskPc g}
    (hruns : ∀ k, pc.runs k = (s.pc t).runs k) (hexec : ∀ k, pc.executes k = (s.pc t).executes k) :
    CountInv worker (s.setPc t pc) where
  started_eq := by
    intro k
    have hsum := tally_update (fun _ pc => TaskPc.runs k pc) s.pc t pc
    rw [hruns k] at hsum
    change _ = _ + runningOf k (Function.update s.pc t pc)
    rw [show runningOf k (Function.update s.pc t pc) = runningOf k s.pc from add_right_cancel hsum]
    exact h.started_eq k
  executing_eq := by
    intro k
    have hsum := tally_update (fun _ pc => TaskPc.executes k pc) s.pc t pc
    rw [hexec k] at hsum
    exact (h.executing_eq k).trans (Nat.add_right_cancel hsum).symm
  ownGroup := by
    intro u k k' hu hne
    by_cases hut : u = t
    · subst hut
      change (Function.update s.pc u pc u).executes k' = 0
      rw [Function.update_self, hexec k']
      exact h.ownGroup u k k' hu hne
    · change (Function.update s.pc t pc u).executes k' = 0
      rw [Function.update_of_ne hut]
      exact h.ownGroup u k k' hu hne

theorem LockInv.setPc (h : LockInv s) {pc : TaskPc g} (hold : ∀ k, ¬ (s.pc t).HasLocked k)
    (hnew : ∀ k, ¬ pc.HasLocked k) (hresult : ∀ locked j, pc ≠ .unlocking true locked j) :
    LockInv (s.setPc t pc) where
  lock_iff := by
    intro k u
    by_cases hut : u = t
    · subst hut
      change s.lock k = some u ↔ (Function.update s.pc u pc u).HasLocked k
      rw [Function.update_self, h.lock_iff k u]
      exact iff_of_false (hold k) (hnew k)
    · change s.lock k = some u ↔ (Function.update s.pc t pc u).HasLocked k
      rw [Function.update_of_ne hut]
      exact h.lock_iff k u
  quiet := by
    intro k u hu
    change (Function.update s.pc t pc u).HasChecked k at hu
    by_cases hut : u = t
    · subst hut
      rw [Function.update_self] at hu
      exact absurd (TaskPc.hasLocked_of_hasChecked hu) (hnew k)
    · rw [Function.update_of_ne hut] at hu
      exact h.quiet k u hu
  allLocked := by
    intro u locked j hu
    change Function.update s.pc t pc u = _ at hu
    by_cases hut : u = t
    · subst hut
      rw [Function.update_self] at hu
      exact absurd hu (hresult locked j)
    · rw [Function.update_of_ne hut] at hu
      exact h.allLocked u locked j hu

theorem QueueInv.congr (h : QueueInv s queue) (hgroup : ∀ k, (s'.group k).tq = (s.group k).tq)
    (hlog : ∀ k, enqueuedOf k s'.log = enqueuedOf k s.log)
    (hstarted : ∀ k, startedOf k s'.log = startedOf k s.log) (hid : s'.nextId = s.nextId) :
    QueueInv s' queue where
  represents k := (hgroup k).symm ▸ h.represents k
  enqueued_perm k := by
    rw [hlog k, hstarted k]
    exact h.enqueued_perm k
  order k := by
    rw [hlog k, hstarted k]
    exact h.order k
  id_lt k := by
    rw [hlog k, hid]
    exact h.id_lt k
  nodup k := by
    rw [hlog k]
    exact h.nodup k
  apart k k' task := by
    rw [hlog k, hlog k']
    exact h.apart k k' task

theorem TaskInv.setPc (h : TaskInv worker s queue) {pc : TaskPc g} (hold : (s.pc t).isPlain = true)
    (hnew : pc.isPlain = true) : TaskInv worker (s.setPc t pc) queue where
  queues := h.queues.congr (fun _ => rfl) (fun _ => rfl) (fun _ => rfl) rfl
  counts := h.counts.setPc
    (fun k => (TaskPc.runs_of_isPlain hnew).trans (TaskPc.runs_of_isPlain hold).symm)
    (fun k => (TaskPc.executes_of_isPlain hnew).trans (TaskPc.executes_of_isPlain hold).symm)
  locks := h.locks.setPc (fun k => TaskPc.not_hasLocked_of_isPlain hold)
    (fun k => TaskPc.not_hasLocked_of_isPlain hnew) (fun locked j heq => by rw [heq] at hnew; cases hnew)

theorem LockInv.setGroup (h : LockInv s) (group : TaskGroup) (hlock : s.lock k = none) :
    LockInv (s.setGroup k group) where
  lock_iff := h.lock_iff
  quiet := by
    intro k' u hu
    have hne : k' ≠ k := by
      rintro rfl
      have hheld := (h.lock_iff k' u).mpr (TaskPc.hasLocked_of_hasChecked hu)
      rw [hlock] at hheld
      cases hheld
    change (Function.update s.group k group k').currentExecutingTasks = 0 ∧
      (Function.update s.group k group k').tq.currentWaitingTasks = 0
    rw [Function.update_of_ne hne]
    exact h.quiet k' u hu
  allLocked := h.allLocked

/-! ## Enqueueing -/

theorem QueueInv.fresh (h : QueueInv s queue) (k : Fin g) (atHead : Bool) :
    (⟨s.nextId, atHead⟩ : Task) ∉ enqueuedOf k s.log := fun hmem =>
  absurd (h.id_lt k _ hmem) (Nat.lt_irrefl _)

theorem QueueInv.mem_enqueued (h : QueueInv s queue) {task : Task} (hmem : task ∈ queue k) :
    task ∈ enqueuedOf k s.log :=
  (h.enqueued_perm k).mem_iff.mpr (List.mem_append_right _ hmem)

theorem filter_enqueued (xs l : List Task) (task : Task) :
    (xs ++ TaskQueue.enqueued l task).filter (fun task => !task.atHead) =
      (xs ++ l ++ [task]).filter fun task => !task.atHead := by
  unfold TaskQueue.enqueued
  cases hat : task.atHead <;> simp [hat]

theorem mem_enqueuedOf_enqueued {k k' : Fin g} {log : List (TaskEvent g)} {task task' : Task} :
    task' ∈ enqueuedOf k (log ++ [.enqueued k' task]) ↔
      task' ∈ enqueuedOf k log ∨ k' = k ∧ task' = task := by
  rw [enqueuedOf_enqueued]
  by_cases hk : k' = k <;> simp [hk]

theorem QueueInv.pushed (h : QueueInv s queue) {k : Fin g} {atHead : Bool} {tq : TaskQueue}
    (hrep : tq.Represents (TaskQueue.enqueued (queue k) ⟨s.nextId, atHead⟩)) :
    QueueInv (s.pushed k atHead tq)
      (Function.update queue k (TaskQueue.enqueued (queue k) ⟨s.nextId, atHead⟩)) where
  represents := by
    intro k'
    change (Function.update s.group k _ k').tq.Represents _
    by_cases hk : k' = k
    · subst hk
      rw [Function.update_self, Function.update_self]
      exact hrep
    · rw [Function.update_of_ne hk, Function.update_of_ne hk]
      exact h.represents k'
  enqueued_perm := by
    intro k'
    change (enqueuedOf k' (s.log ++ [_])).Perm (startedOf k' (s.log ++ [_]) ++ _)
    rw [enqueuedOf_enqueued, startedOf_enqueued]
    by_cases hk : k' = k
    · subst hk
      rw [if_pos rfl, Function.update_self]
      refine ((h.enqueued_perm k').append_right _).trans ?_
      rw [List.append_assoc]
      exact List.Perm.append_left _
        ((List.perm_append_singleton _ _).trans (TaskQueue.enqueued_perm _ _).symm)
    · rw [if_neg (Ne.symm hk), Function.update_of_ne hk]
      exact h.enqueued_perm k'
  order := by
    intro k'
    change (enqueuedOf k' (s.log ++ [_])).filter _ = (startedOf k' (s.log ++ [_]) ++ _).filter _
    rw [enqueuedOf_enqueued, startedOf_enqueued]
    by_cases hk : k' = k
    · subst hk
      rw [if_pos rfl, Function.update_self, filter_enqueued, List.filter_append,
        @List.filter_append _ _ (startedOf k' s.log ++ queue k'), h.order k']
    · rw [if_neg (Ne.symm hk), Function.update_of_ne hk]
      exact h.order k'
  id_lt := by
    intro k' task hmem
    change task ∈ enqueuedOf k' (s.log ++ [_]) at hmem
    change task.id < s.nextId + 1
    rw [enqueuedOf_enqueued] at hmem
    split at hmem
    · rcases List.mem_append.mp hmem with hmem | hmem
      · exact Nat.lt_succ_of_lt (h.id_lt k' task hmem)
      · rw [List.mem_singleton.mp hmem]
        exact Nat.lt_succ_self _
    · exact Nat.lt_succ_of_lt (h.id_lt k' task hmem)
  nodup := by
    intro k'
    change (enqueuedOf k' (s.log ++ [_])).Nodup
    rw [enqueuedOf_enqueued]
    split
    · refine List.Nodup.append (h.nodup k') (List.nodup_singleton _) ?_
      intro task hmem hlast
      rw [List.mem_singleton.mp hlast] at hmem
      exact h.fresh k' atHead hmem
    · exact h.nodup k'
  apart := by
    intro k' k'' task hmem hmem'
    change task ∈ enqueuedOf k' (s.log ++ [_]) at hmem
    change task ∈ enqueuedOf k'' (s.log ++ [_]) at hmem'
    rw [mem_enqueuedOf_enqueued] at hmem hmem'
    rcases hmem with hmem | ⟨rfl, rfl⟩
    · rcases hmem' with hmem' | ⟨rfl, rfl⟩
      · exact h.apart k' k'' task hmem hmem'
      · exact absurd hmem (h.fresh k' atHead)
    · rcases hmem' with hmem' | ⟨rfl, -⟩
      · exact absurd hmem' (h.fresh k'' atHead)
      · rfl

theorem TaskInv.push (h : TaskInv worker s queue) (k : Fin g) (atHead : Bool)
    (hlock : s.lock k = none) : ∃ tq, pushTask s k atHead = some (s.pushed k atHead tq) ∧
      TaskInv worker (s.pushed k atHead tq)
        (Function.update queue k (TaskQueue.enqueued (queue k) ⟨s.nextId, atHead⟩)) := by
  obtain ⟨tq, hpush, hrep⟩ := (h.queues.represents k).push fun hmem =>
    h.queues.fresh k atHead (h.queues.mem_enqueued hmem)
  refine ⟨tq, by rw [pushTask, hpush, Option.map_some], h.queues.pushed hrep, ?_, ?_⟩
  · refine ⟨fun k' => ?_, fun k' => ?_, h.counts.ownGroup⟩
    · change (startedOf k' (s.log ++ [_]) : Multiset Task) = finishedOf k' (s.log ++ [_]) + _
      rw [startedOf_enqueued, finishedOf_enqueued]
      exact h.counts.started_eq k'
    · change (Function.update s.group k _ k').currentExecutingTasks = _
      by_cases hk : k' = k
      · subst hk
        rw [Function.update_self]
        exact h.counts.executing_eq k'
      · rw [Function.update_of_ne hk]
        exact h.counts.executing_eq k'
  · have hset := h.locks.setGroup { s.group k with tq := tq } hlock
    exact ⟨hset.lock_iff, hset.quiet, hset.allLocked⟩

/-! ## Taking a task -/

theorem QueueInv.took (h : QueueInv s queue) {k : Fin g} {tq : TaskQueue} {task : Task}
    {rest : List Task} (hqueue : queue k = task :: rest) (hrep : tq.Represents rest) :
    QueueInv (s.took t k tq task) (Function.update queue k rest) where
  represents := by
    intro k'
    change (Function.update s.group k _ k').tq.Represents _
    by_cases hk : k' = k
    · subst hk
      rw [Function.update_self, Function.update_self]
      exact hrep
    · rw [Function.update_of_ne hk, Function.update_of_ne hk]
      exact h.represents k'
  enqueued_perm := by
    intro k'
    change (enqueuedOf k' (s.log ++ [_])).Perm (startedOf k' (s.log ++ [_]) ++ _)
    rw [enqueuedOf_started, startedOf_started]
    by_cases hk : k' = k
    · subst hk
      rw [if_pos rfl, Function.update_self, List.append_assoc, List.singleton_append, ← hqueue]
      exact h.enqueued_perm k'
    · rw [if_neg (Ne.symm hk), Function.update_of_ne hk]
      exact h.enqueued_perm k'
  order := by
    intro k'
    change (enqueuedOf k' (s.log ++ [_])).filter _ = (startedOf k' (s.log ++ [_]) ++ _).filter _
    rw [enqueuedOf_started, startedOf_started]
    by_cases hk : k' = k
    · subst hk
      rw [if_pos rfl, Function.update_self, List.append_assoc, List.singleton_append, ← hqueue]
      exact h.order k'
    · rw [if_neg (Ne.symm hk), Function.update_of_ne hk]
      exact h.order k'
  id_lt := by
    intro k'
    change ∀ task' ∈ enqueuedOf k' (s.log ++ [_]), _
    rw [enqueuedOf_started]
    exact h.id_lt k'
  nodup := by
    intro k'
    change (enqueuedOf k' (s.log ++ [_])).Nodup
    rw [enqueuedOf_started]
    exact h.nodup k'
  apart := by
    intro k' k'' task'
    change task' ∈ enqueuedOf k' (s.log ++ [_]) → task' ∈ enqueuedOf k'' (s.log ++ [_]) → _
    rw [enqueuedOf_started, enqueuedOf_started]
    exact h.apart k' k'' task'

theorem CountInv.took (h : CountInv worker s) {tq : TaskQueue} {task : Task}
    (hplain : (s.pc t).isPlain = true) (hown : ∀ k', worker t = some k' → k' = k) :
    CountInv worker (s.took t k tq task) where
  started_eq := by
    intro k'
    change (startedOf k' (s.log ++ [_]) : Multiset Task) = finishedOf k' (s.log ++ [_]) +
      runningOf k' (Function.update s.pc t (.running k task))
    have hsum := tally_update (fun _ pc => TaskPc.runs k' pc) s.pc t (.running k task)
    rw [TaskPc.runs_of_isPlain hplain, add_zero] at hsum
    rw [startedOf_started, finishedOf_started, runningOf, hsum]
    by_cases hk : k = k'
    · subst hk
      rw [if_pos rfl, ← Multiset.coe_add, h.started_eq k, TaskPc.runs, if_pos rfl, runningOf,
        add_assoc]
      rfl
    · rw [if_neg hk, TaskPc.runs, if_neg hk, add_zero]
      exact h.started_eq k'
  executing_eq := by
    intro k'
    change (Function.update s.group k _ k').currentExecutingTasks =
      ∑ u, (Function.update s.pc t (.running k task) u).executes k'
    have hsum := tally_update (fun _ pc => TaskPc.executes k' pc) s.pc t (.running k task)
    rw [TaskPc.executes_of_isPlain hplain, add_zero] at hsum
    rw [hsum]
    by_cases hk : k' = k
    · subst hk
      rw [Function.update_self, TaskPc.executes, if_pos rfl, ← h.executing_eq k']
    · rw [Function.update_of_ne hk, TaskPc.executes, if_neg (Ne.symm hk), add_zero]
      exact h.executing_eq k'
  ownGroup := by
    intro u k₁ k₂ hu hne
    change (Function.update s.pc t (.running k task) u).executes k₂ = 0
    by_cases hut : u = t
    · subst hut
      rw [Function.update_self, TaskPc.executes, if_neg]
      rintro rfl
      exact hne (hown k₁ hu).symm
    · rw [Function.update_of_ne hut]
      exact h.ownGroup u k₁ k₂ hu hne

/-- **Looking for a task** in a group whose lock is free: the first task of the queue starts, or
there is none and the thread rests.  No assertion fails. -/
theorem TaskInv.take (h : TaskInv worker s queue) {resting : TaskPc g}
    (hplain : (s.pc t).isPlain = true) (hresting : resting.isPlain = true) (hlock : s.lock k = none)
    (hown : ∀ k', worker t = some k' → k' = k) :
    ∃ s', takeTask s t k resting = some s' ∧
      TaskInv worker s' (Function.update queue k (queue k).tail) ∧
      (∀ u, u ≠ t → s'.pc u = s.pc u) ∧
      (queue k ≠ [] → ∃ task, s'.pc t = .running k task) := by
  obtain ⟨tq, hpop, hrep⟩ := (h.queues.represents k).pop
  cases hqueue : queue k with
  | nil =>
      rw [hqueue] at hpop hrep
      have hsame : Function.update queue k (([] : List Task).tail) = queue := by
        rw [List.tail_nil, ← hqueue]
        exact Function.update_eq_self k queue
      refine ⟨(s.setGroup k { s.group k with tq := tq }).setPc t resting,
        by rw [takeTask, hpop, Option.map_some]; rfl, ?_, fun u hu => Function.update_of_ne hu _ _,
        fun hne => absurd rfl hne⟩
      rw [hsame]
      refine TaskInv.setPc ⟨?_, ?_, h.locks.setGroup _ hlock⟩ hplain hresting
      · refine { h.queues with represents := fun k' => ?_ }
        change (Function.update s.group k _ k').tq.Represents _
        by_cases hk : k' = k
        · subst hk
          rw [Function.update_self, hqueue]
          exact hrep
        · rw [Function.update_of_ne hk]
          exact h.queues.represents k'
      · refine { h.counts with executing_eq := fun k' => ?_ }
        change (Function.update s.group k _ k').currentExecutingTasks = _
        by_cases hk : k' = k
        · subst hk
          rw [Function.update_self]
          exact h.counts.executing_eq k'
        · rw [Function.update_of_ne hk]
          exact h.counts.executing_eq k'
  | cons task rest =>
      rw [hqueue] at hpop hrep
      refine ⟨s.took t k tq task, by rw [takeTask, hpop, Option.map_some]; rfl, ⟨?_, ?_, ?_⟩,
        fun u hu => Function.update_of_ne hu _ _, fun _ => ⟨task, Function.update_self ..⟩⟩
      · exact h.queues.took hqueue hrep
      · exact h.counts.took hplain hown
      · have hgroup := h.locks.setGroup { s.group k with
            tq := tq
            currentExecutingTasks := (s.group k).currentExecutingTasks + 1 } hlock
        have hset : LockInv ((s.setGroup k _).setPc t (.running k task)) :=
          hgroup.setPc (fun k => TaskPc.not_hasLocked_of_isPlain hplain) (fun _ => id)
            fun _ _ heq => by cases heq
        exact ⟨hset.lock_iff, hset.quiet, hset.allLocked⟩

/-! ## Ending a task -/

theorem TaskInv.finish (h : TaskInv worker s queue) {task : Task} (hpc : s.pc t = .running k task) :
    TaskInv worker ((s.setPc t (.ran k task)).record (.finished k task)) queue where
  queues := h.queues.congr (fun _ => rfl) (fun _ => enqueuedOf_finished _ _ _ _)
    (fun _ => startedOf_finished _ _ _ _) rfl
  counts := by
    refine ⟨fun k' => ?_, fun k' => ?_, fun u k₁ k₂ hu hne => ?_⟩
    · change (startedOf k' (s.log ++ [_]) : Multiset Task) = finishedOf k' (s.log ++ [_]) +
        runningOf k' (Function.update s.pc t (.ran k task))
      have hsum := tally_update (fun _ pc => TaskPc.runs k' pc) s.pc t (.ran k task)
      have hran : TaskPc.runs k' (.ran k task) = 0 := rfl
      rw [hran, add_zero, hpc] at hsum
      rw [startedOf_finished, finishedOf_finished, h.counts.started_eq k', runningOf, runningOf, ← hsum]
      by_cases hk : k = k'
      · subst hk
        rw [if_pos rfl, TaskPc.runs, if_pos rfl, ← Multiset.coe_add, add_assoc,
          add_comm _ ({task} : Multiset Task)]
        rfl
      · rw [if_neg hk, TaskPc.runs, if_neg hk, add_zero]
    · have hsum := tally_update (fun _ pc => TaskPc.executes k' pc) s.pc t (.ran k task)
      rw [hpc] at hsum
      exact (h.counts.executing_eq k').trans (Nat.add_right_cancel hsum).symm
    · change (Function.update s.pc t (.ran k task) u).executes k₂ = 0
      by_cases hut : u = t
      · subst hut
        rw [Function.update_self]
        have hown := h.counts.ownGroup u k₁ k₂ hu hne
        rwa [hpc] at hown
      · rw [Function.update_of_ne hut]
        exact h.counts.ownGroup u k₁ k₂ hu hne
  locks := by
    have hset : LockInv (s.setPc t (.ran k task)) :=
      h.locks.setPc (fun _ => by rw [hpc]; exact id) (fun _ => id) fun _ _ heq => by cases heq
    exact ⟨hset.lock_iff, hset.quiet, hset.allLocked⟩

theorem TaskInv.uncount (h : TaskInv worker s queue) {task : Task} (hpc : s.pc t = .ran k task) :
    TaskInv worker (uncountTask s t k) queue where
  queues := by
    refine h.queues.congr (fun k' => ?_) (fun _ => rfl) (fun _ => rfl) rfl
    change (Function.update s.group k _ k').tq = _
    by_cases hk : k' = k
    · subst hk
      rw [Function.update_self]
    · rw [Function.update_of_ne hk]
  counts := by
    refine ⟨fun k' => ?_, fun k' => ?_, fun u k₁ k₂ hu hne => ?_⟩
    · have hsum := tally_update (fun _ pc => TaskPc.runs k' pc) s.pc t .idle
      rw [hpc] at hsum
      change _ = _ + runningOf k' (Function.update s.pc t .idle)
      have hsame : runningOf k' (Function.update s.pc t .idle) = runningOf k' s.pc :=
        add_right_cancel hsum
      rw [hsame]
      exact h.counts.started_eq k'
    · change (Function.update s.group k _ k').currentExecutingTasks =
        ∑ u, (Function.update s.pc t .idle u).executes k'
      have hsum := tally_update (fun _ pc => TaskPc.executes k' pc) s.pc t .idle
      have hidle : TaskPc.executes k' (.idle : TaskPc g) = 0 := rfl
      have hran : TaskPc.executes k' (.ran k task) = if k = k' then 1 else 0 := rfl
      rw [hidle, add_zero, hpc, hran, ← h.counts.executing_eq k'] at hsum
      by_cases hk : k' = k
      · subst hk
        rw [if_pos rfl] at hsum
        rw [Function.update_self]
        change (s.group k').currentExecutingTasks - 1 = _
        omega
      · rw [if_neg (Ne.symm hk), add_zero] at hsum
        rw [Function.update_of_ne hk]
        exact hsum.symm
    · change (Function.update s.pc t .idle u).executes k₂ = 0
      by_cases hut : u = t
      · subst hut
        rw [Function.update_self]
        rfl
      · rw [Function.update_of_ne hut]
        exact h.counts.ownGroup u k₁ k₂ hu hne
  locks := by
    have hset : LockInv (s.setPc t .idle) :=
      h.locks.setPc (fun _ => by rw [hpc]; exact id) (fun _ => id) fun _ _ heq => by cases heq
    refine ⟨hset.lock_iff, fun k' u hu => ?_, hset.allLocked⟩
    obtain ⟨hexec, hwait⟩ := hset.quiet k' u hu
    change (Function.update s.group k _ k').currentExecutingTasks = 0 ∧
      (Function.update s.group k _ k').tq.currentWaitingTasks = 0
    by_cases hk : k' = k
    · subst hk
      rw [Function.update_self]
      have hexec' : (s.group k').currentExecutingTasks = 0 := hexec
      exact ⟨by change (s.group k').currentExecutingTasks - 1 = 0; omega, hwait⟩
    · rw [Function.update_of_ne hk]
      exact ⟨hexec, hwait⟩

/-! ## Quiescence -/

theorem TaskInv.judge (h : TaskInv worker s queue) {pc : TaskPc g}
    (hruns : ∀ k, pc.runs k = (s.pc t).runs k) (hexec : ∀ k, pc.executes k = (s.pc t).executes k)
    (hpc : s'.pc = Function.update s.pc t pc) (hgroup : s'.group = s.group) (hlog : s'.log = s.log)
    (hid : s'.nextId = s.nextId) (hlocks : LockInv s') : TaskInv worker s' queue where
  queues := h.queues.congr (fun k => by rw [hgroup]) (fun k => by rw [hlog]) (fun k => by rw [hlog]) hid
  counts := by
    have hset := h.counts.setPc hruns hexec
    refine ⟨fun k => ?_, fun k => ?_, fun u k₁ k₂ hu hne => ?_⟩
    · rw [hlog, hpc]
      exact hset.started_eq k
    · rw [hgroup, hpc]
      exact hset.executing_eq k
    · rw [hpc]
      exact hset.ownGroup u k₁ k₂ hu hne
  locks := hlocks

/-- A thread moves inside `task_system_is_quiescent`.  It has to say what it has locked now, and that
what it calls checked is quiet. -/
theorem LockInv.judge (h : LockInv s) {pc : TaskPc g} (hpc : s'.pc = Function.update s.pc t pc)
    (hgroup : s'.group = s.group) (hlock : ∀ k u, u ≠ t → (s'.lock k = some u ↔ s.lock k = some u))
    (hmine : ∀ k, s'.lock k = some t ↔ pc.HasLocked k)
    (hquiet : ∀ k, pc.HasChecked k →
      (s.group k).currentExecutingTasks = 0 ∧ (s.group k).tq.currentWaitingTasks = 0)
    (hresult : ∀ locked j, pc = .unlocking true locked j → locked = g) : LockInv s' where
  lock_iff := by
    intro k u
    rw [hpc]
    by_cases hut : u = t
    · subst hut
      rw [Function.update_self]
      exact hmine k
    · rw [Function.update_of_ne hut, hlock k u hut]
      exact h.lock_iff k u
  quiet := by
    intro k u hu
    rw [hpc] at hu
    rw [hgroup]
    by_cases hut : u = t
    · subst hut
      rw [Function.update_self] at hu
      exact hquiet k hu
    · rw [Function.update_of_ne hut] at hu
      exact h.quiet k u hu
  allLocked := by
    intro u locked j hu
    rw [hpc] at hu
    by_cases hut : u = t
    · subst hut
      rw [Function.update_self] at hu
      exact hresult locked j hu
    · rw [Function.update_of_ne hut] at hu
      exact h.allLocked u locked j hu

theorem lock_taken_iff {u : Fin n} (hfree : s.lock k = none) (k' : Fin g) (hu : u ≠ t) :
    (s.setLock k (some t)).lock k' = some u ↔ s.lock k' = some u := by
  change Function.update s.lock k (some t) k' = some u ↔ _
  by_cases hk : k' = k
  · subst hk
    rw [Function.update_self, hfree]
    exact iff_of_false (fun h => hu (Option.some.inj h).symm) fun h => by cases h
  · rw [Function.update_of_ne hk]

theorem lock_freed_iff {u : Fin n} (hmine : s.lock k = some t) (k' : Fin g) (hu : u ≠ t) :
    (s.setLock k none).lock k' = some u ↔ s.lock k' = some u := by
  change Function.update s.lock k none k' = some u ↔ _
  by_cases hk : k' = k
  · subst hk
    rw [Function.update_self, hmine]
    exact iff_of_false (fun h => by cases h) fun h => hu (Option.some.inj h).symm
  · rw [Function.update_of_ne hk]

theorem LockInv.quiescent (h : LockInv s) (hnext : quiescentNext s t = some s') :
    ∃ pc, s'.pc = Function.update s.pc t pc ∧ s'.group = s.group ∧ s'.log = s.log ∧
      s'.nextId = s.nextId ∧ (∀ k, (s.pc t).runs k = 0 ∧ (s.pc t).executes k = 0) ∧
      (∀ k, pc.runs k = 0 ∧ pc.executes k = 0) ∧ pc ≠ .wait ∧ LockInv s' := by
  have hmine : ∀ k, s.lock k = some t ↔ (s.pc t).HasLocked k := fun k => h.lock_iff k t
  have hchecked := fun k => h.quiet k t
  unfold quiescentNext at hnext
  cases hpc : s.pc t with
  | locking j =>
      rw [hpc] at hnext
      simp only [hpc] at hmine
      by_cases hj : j < g
      · simp only [dif_pos hj] at hnext
        split at hnext
        next hfree =>
          obtain rfl := Option.some.inj hnext
          refine ⟨.locking (j + 1), rfl, rfl, rfl, rfl, fun k => ⟨rfl, rfl⟩, fun k => ⟨rfl, rfl⟩,
            (fun heq => by cases heq), h.judge rfl rfl (fun k u hu => lock_taken_iff hfree k hu) (fun k => ?_)
            (fun k hk => hk.elim) fun _ _ heq => by cases heq⟩
          change Function.update s.lock ⟨j, hj⟩ (some t) k = some t ↔ k.val < j + 1
          by_cases hk : k = ⟨j, hj⟩
          · subst hk
            simp
          · rw [Function.update_of_ne hk, hmine k]
            have hne : k.val ≠ j := fun heq => hk (Fin.ext heq)
            change k.val < j ↔ _
            omega
        next => cases hnext
      · simp only [dif_neg hj] at hnext
        obtain rfl := Option.some.inj hnext
        refine ⟨.checking 0, rfl, rfl, rfl, rfl, fun k => ⟨rfl, rfl⟩, fun k => ⟨rfl, rfl⟩,
          (fun heq => by cases heq), h.judge rfl rfl (fun k u _ => Iff.rfl) (fun k => ?_)
          (fun k hk => absurd hk (Nat.not_lt_zero _)) fun _ _ heq => by cases heq⟩
        exact iff_of_true ((hmine k).mpr (Nat.lt_of_lt_of_le k.isLt (Nat.not_lt.mp hj))) trivial
  | checking j =>
      rw [hpc] at hnext
      simp only [hpc] at hmine hchecked
      obtain rfl := Option.some.inj hnext
      have hlocked : ∀ k, s.lock k = some t := fun k => (hmine k).mpr trivial
      by_cases hj : j < g
      · simp only [dif_pos hj]
        split
        next =>
          refine ⟨.unlocking false g 0, rfl, rfl, rfl, rfl, fun k => ⟨rfl, rfl⟩, fun k => ⟨rfl, rfl⟩,
            (fun heq => by cases heq), h.judge rfl rfl (fun k u _ => Iff.rfl)
            (fun k => iff_of_true (hlocked k) ⟨Nat.zero_le _, k.isLt⟩)
            (fun k hk => hk.elim) fun _ _ heq => by cases heq⟩
        next hquiet =>
          refine ⟨.checking (j + 1), rfl, rfl, rfl, rfl, fun k => ⟨rfl, rfl⟩, fun k => ⟨rfl, rfl⟩,
            (fun heq => by cases heq), h.judge rfl rfl (fun k u _ => Iff.rfl)
            (fun k => iff_of_true (hlocked k) trivial) (fun k hk => ?_) fun _ _ heq => by cases heq⟩
          rcases Nat.lt_succ_iff_lt_or_eq.mp hk with hlt | heq
          · exact hchecked k hlt
          · obtain rfl : k = ⟨j, hj⟩ := Fin.ext heq
            simpa only [ne_eq, not_or, not_not] using hquiet
      · simp only [dif_neg hj]
        have hpassed : ∀ k : Fin g, k.val < j := fun k => Nat.lt_of_lt_of_le k.isLt (Nat.not_lt.mp hj)
        refine ⟨.unlocking true g 0, rfl, rfl, rfl, rfl, fun k => ⟨rfl, rfl⟩, fun k => ⟨rfl, rfl⟩,
          (fun heq => by cases heq), h.judge rfl rfl (fun k u _ => Iff.rfl)
          (fun k => iff_of_true (hlocked k) ⟨Nat.zero_le _, k.isLt⟩)
          (fun k _ => hchecked k (hpassed k)) fun _ _ heq => ?_⟩
        cases heq
        rfl
  | unlocking result locked j =>
      rw [hpc] at hnext
      simp only [hpc] at hmine hchecked
      have hrest : ∀ {k : Fin g}, ¬ (j < g ∧ j < locked) → s.lock k ≠ some t := by
        intro k hnot hheld
        obtain ⟨hle, hlt⟩ := (hmine k).mp hheld
        have hk := k.isLt
        omega
      have hstop : ¬ (j < g ∧ j < locked) → LockInv (s.setPc t .idle) := fun hnot =>
        h.judge rfl rfl (fun k u _ => Iff.rfl) (fun k => iff_of_false (hrest hnot) id)
          (fun k hk => hk.elim) fun _ _ heq => by cases heq
      by_cases hj : j < g
      · simp only [dif_pos hj] at hnext
        split at hnext
        next hlocked =>
          obtain rfl := Option.some.inj hnext
          have hheld : s.lock ⟨j, hj⟩ = some t := (hmine _).mpr ⟨Nat.le_refl _, hlocked⟩
          refine ⟨.unlocking result locked (j + 1), rfl, rfl, rfl, rfl, fun k => ⟨rfl, rfl⟩,
            fun k => ⟨rfl, rfl⟩, (fun heq => by cases heq), h.judge rfl rfl
            (fun k u hu => lock_freed_iff hheld k hu) (fun k => ?_) (fun k hk => ?_)
            fun locked' j' heq => ?_⟩
          · change Function.update s.lock ⟨j, hj⟩ none k = some t ↔ j + 1 ≤ k.val ∧ k.val < locked
            by_cases hk : k = ⟨j, hj⟩
            · subst hk
              simp
            · rw [Function.update_of_ne hk, hmine k]
              have hne : k.val ≠ j := fun heq => hk (Fin.ext heq)
              change j ≤ k.val ∧ k.val < locked ↔ _
              omega
          · cases result with
            | true => exact hchecked k ⟨Nat.le_of_succ_le hk.1, hk.2⟩
            | false => exact hk.elim
          · cases heq
            exact h.allLocked t locked j hpc
        next hlocked =>
          obtain rfl := Option.some.inj hnext
          exact ⟨.idle, rfl, rfl, rfl, rfl, fun k => ⟨rfl, rfl⟩, fun k => ⟨rfl, rfl⟩,
            (fun heq => by cases heq), hstop fun hand => hlocked hand.2⟩
      · simp only [dif_neg hj] at hnext
        obtain rfl := Option.some.inj hnext
        exact ⟨.idle, rfl, rfl, rfl, rfl, fun k => ⟨rfl, rfl⟩, fun k => ⟨rfl, rfl⟩,
          (fun heq => by cases heq), hstop fun hand => hj hand.1⟩
  | _ =>
      rw [hpc] at hnext
      cases hnext

theorem TaskInv.quiescent (h : TaskInv worker s queue) (hnext : quiescentNext s t = some s') :
    TaskInv worker s' queue ∧ (∀ u, u ≠ t → s'.pc u = s.pc u) ∧ s'.pc t ≠ .wait := by
  obtain ⟨pc, hpc, hgroup, hlog, hid, hold, hnew, hwait, hlocks⟩ := h.locks.quiescent hnext
  refine ⟨h.judge (fun k => (hnew k).1.trans (hold k).1.symm)
    (fun k => (hnew k).2.trans (hold k).2.symm) hpc hgroup hlog hid hlocks, fun u hu => ?_, ?_⟩
  · rw [hpc, Function.update_of_ne hu]
  · rw [hpc, Function.update_self]
    exact hwait

end Tasks
end TreePass
