import TreePass.Lib.Transition
import TreePass.Lib.Tally
import TreePass.Tasks.TaskQueue
import Mathlib.Data.Multiset.Count

/-!
# The task system

Tasks of several groups are run by the workers of the group and by foreground threads that lend a
hand.  `TaskState` holds the groups, the lock of each group, where every thread stands, and the
history of what has happened to the tasks.

* A critical section of `task_enqueue`, of the worker loop or of `task_group_perform_one` is one
  step, which needs the lock of the group to be free.  `task_system_is_quiescent` takes the locks one
  after another and keeps them while it looks at the counts, so each of its accesses is a step.
* A task starts when a thread takes it from its queue, where it is counted as executing.
* A failed assertion ends the run: `taskNext` is then `none`.
-/

namespace TreePass
namespace Tasks

open Lib

/-- What happens to the tasks. -/
inductive TaskEvent (g : Nat) where
  | enqueued (k : Fin g) (task : Task)
  | started (k : Fin g) (task : Task)
  | finished (k : Fin g) (task : Task)
  deriving DecidableEq, Repr

/-- `task_group`, without its lock and statistics. -/
structure TaskGroup where
  tq : TaskQueue
  currentExecutingTasks : Nat
  numThreads : Nat

/-- Where a thread stands. -/
inductive TaskPc (g : Nat) where
  /-- A foreground thread between calls, or a worker about to look for a task. -/
  | idle
  /-- A worker in `platform_condvar_wait`. -/
  | wait
  /-- `task_group_perform_one`, about to lock the group. -/
  | wanted (k : Fin g)
  /-- In the function of a task. -/
  | running (k : Fin g) (task : Task)
  /-- The function has returned, the task is still counted as executing. -/
  | ran (k : Fin g) (task : Task)
  /-- `task_system_is_quiescent`: about to lock group `j`, -/
  | locking (j : Nat)
  /-- about to look at the counts of group `j`, -/
  | checking (j : Nat)
  /-- with its result, about to unlock group `j` of the first `locked` ones. -/
  | unlocking (result : Bool) (locked j : Nat)
  deriving DecidableEq, Repr

/-- A call, a wake-up, or the next step of what a thread is doing. -/
inductive TaskAct (n g : Nat) where
  /-- `task_enqueue`; `wake` is the waiting worker that `platform_condvar_signal` wakes. -/
  | enqueue (k : Fin g) (atHead : Bool) (wake : Option (Fin n))
  | performOne (k : Fin g) (queueScalePercent : Nat)
  | isQuiescent
  /-- A worker wakes up without a signal. -/
  | wakeUp
  /-- `task_group_lock` reports an error to `task_system_is_quiescent`. -/
  | lockFails
  | next
  deriving DecidableEq, Repr

variable {n g : Nat}

/-- The groups, their locks between steps, the threads, and the history of the tasks. -/
structure TaskState (n g : Nat) where
  group : Fin g → TaskGroup
  lock : Fin g → Option (Fin n)
  pc : Fin n → TaskPc g
  nextId : Nat
  log : List (TaskEvent g)

namespace TaskState

def setPc (s : TaskState n g) (t : Fin n) (pc : TaskPc g) : TaskState n g :=
  { s with pc := Function.update s.pc t pc }

def setGroup (s : TaskState n g) (k : Fin g) (group : TaskGroup) : TaskState n g :=
  { s with group := Function.update s.group k group }

def setLock (s : TaskState n g) (k : Fin g) (holder : Option (Fin n)) : TaskState n g :=
  { s with lock := Function.update s.lock k holder }

def record (s : TaskState n g) (e : TaskEvent g) : TaskState n g := { s with log := s.log ++ [e] }

/-- A new task has been linked into the queue of a group, which is now `tq`. -/
def pushed (s : TaskState n g) (k : Fin g) (atHead : Bool) (tq : TaskQueue) : TaskState n g :=
  ({ s with nextId := s.nextId + 1 }.setGroup k { s.group k with tq := tq }).record
    (.enqueued k ⟨s.nextId, atHead⟩)

/-- A thread has taken a task from the queue of a group, which is now `tq`. -/
def took (s : TaskState n g) (t : Fin n) (k : Fin g) (tq : TaskQueue) (task : Task) : TaskState n g :=
  ((s.setGroup k { s.group k with
      tq := tq
      currentExecutingTasks := (s.group k).currentExecutingTasks + 1 }).setPc t
    (.running k task)).record (.started k task)

end TaskState

variable (worker : Fin n → Option (Fin g))

def pushTask (s : TaskState n g) (k : Fin g) (atHead : Bool) : Option (TaskState n g) :=
  ((s.group k).tq.push ⟨s.nextId, atHead⟩).map (s.pushed k atHead)

/-- `platform_condvar_signal`: one waiting worker of the group wakes up, if there is one. -/
def signal (s : TaskState n g) (k : Fin g) (wake : Option (Fin n)) : Option (TaskState n g) :=
  match wake with
  | some w => if worker w = some k ∧ s.pc w = .wait then some (s.setPc w .idle) else none
  | none => if ∀ w, worker w = some k → s.pc w ≠ .wait then some s else none

/-- `task_group_get_next_task`, and what a thread does with the result inside the critical section:
it counts the task as executing, or goes to `resting`. -/
def takeTask (s : TaskState n g) (t : Fin n) (k : Fin g) (resting : TaskPc g) :
    Option (TaskState n g) :=
  (s.group k).tq.pop.map fun r =>
    match r.2 with
    | some task => s.took t k r.1 task
    | none => (s.setGroup k { s.group k with tq := r.1 }).setPc t resting

def uncountTask (s : TaskState n g) (t : Fin n) (k : Fin g) : TaskState n g :=
  (s.setGroup k { s.group k with
    currentExecutingTasks := (s.group k).currentExecutingTasks - 1 }).setPc t .idle

/-- Whether `task_group_perform_one` leaves a short queue to the workers. -/
def TaskGroup.leavesToWorkers (group : TaskGroup) (queueScalePercent : Nat) : Bool :=
  decide (queueScalePercent ≠ 0 ∧
    100 * group.tq.currentWaitingTasks / queueScalePercent < group.numThreads)

/-- A step inside `task_system_is_quiescent`. -/
def quiescentNext (s : TaskState n g) (t : Fin n) : Option (TaskState n g) :=
  match s.pc t with
  | .locking j =>
      if hj : j < g then
        if s.lock ⟨j, hj⟩ = none then
          some ((s.setLock ⟨j, hj⟩ (some t)).setPc t (.locking (j + 1)))
        else none
      else some (s.setPc t (.checking 0))
  | .checking j =>
      some (s.setPc t (if hj : j < g then
        if (s.group ⟨j, hj⟩).currentExecutingTasks ≠ 0 ∨
            (s.group ⟨j, hj⟩).tq.currentWaitingTasks ≠ 0 then .unlocking false g 0
        else .checking (j + 1)
      else .unlocking true g 0))
  | .unlocking result locked j =>
      if hj : j < g then
        if j < locked then
          some ((s.setLock ⟨j, hj⟩ none).setPc t (.unlocking result locked (j + 1)))
        else some (s.setPc t .idle)
      else some (s.setPc t .idle)
  | _ => none

def threadNext (s : TaskState n g) (t : Fin n) : Option (TaskState n g) :=
  match s.pc t with
  | .idle =>
      match worker t with
      | some k => if s.lock k = none then takeTask s t k .wait else none
      | none => none
  | .wait => none
  | .wanted k => if worker t = none ∧ s.lock k = none then takeTask s t k .idle else none
  | .running k task => some ((s.setPc t (.ran k task)).record (.finished k task))
  | .ran k _ =>
      match worker t with
      -- The worker takes the lock again, and goes round the loop with it.
      | some k' =>
          if s.lock k' = none then takeTask (uncountTask s t k') t k' .wait else none
      | none => some (uncountTask s t k)
  | .locking _ | .checking _ | .unlocking _ _ _ => quiescentNext s t

/-- Whether a thread can call `task_enqueue`: between calls, or from the function of a task. -/
def TaskPc.canEnqueue (isWorker : Bool) : TaskPc g → Bool
  | .idle => !isWorker
  | .running _ _ => true
  | _ => false

def taskNext (s : TaskState n g) (a : Fin n × TaskAct n g) : Option (TaskState n g) :=
  match a.2 with
  | .enqueue k atHead wake =>
      if (s.pc a.1).canEnqueue (worker a.1).isSome = true ∧ s.lock k = none then
        (pushTask s k atHead).bind fun s => signal worker s k wake
      else none
  | .performOne k queueScalePercent =>
      if s.pc a.1 = .idle ∧ worker a.1 = none then
        some (if (s.group k).leavesToWorkers queueScalePercent then s else s.setPc a.1 (.wanted k))
      else none
  | .isQuiescent =>
      if s.pc a.1 = .idle ∧ worker a.1 = none then some (s.setPc a.1 (.locking 0)) else none
  | .wakeUp => if s.pc a.1 = .wait then some (s.setPc a.1 .idle) else none
  | .lockFails =>
      match s.pc a.1 with
      | .locking j => if j < g then some (s.setPc a.1 (.unlocking false j 0)) else none
      | _ => none
  | .next => threadNext worker s a.1

/-- The system as `task_system_create` leaves it. -/
structure TaskInit (s : TaskState n g) : Prop where
  tq_eq : ∀ k, (s.group k).tq = .empty
  executing_eq : ∀ k, (s.group k).currentExecutingTasks = 0
  lock_eq : ∀ k, s.lock k = none
  idle : ∀ t, s.pc t = .idle
  nextId_eq : s.nextId = 0
  log_eq : s.log = []

def taskSystem : System (TaskState n g) (Fin n × TaskAct n g) :=
  System.ofFun TaskInit (taskNext worker)

/-! ## What the history says -/

def enqueuedOf (k : Fin g) (log : List (TaskEvent g)) : List Task :=
  log.filterMap fun
    | .enqueued k' task => if k' = k then some task else none
    | _ => none

def startedOf (k : Fin g) (log : List (TaskEvent g)) : List Task :=
  log.filterMap fun
    | .started k' task => if k' = k then some task else none
    | _ => none

/-- The tasks of a group that have been run to their end, in this order. -/
def finishedOf (k : Fin g) (log : List (TaskEvent g)) : List Task :=
  log.filterMap fun
    | .finished k' task => if k' = k then some task else none
    | _ => none

def TaskPc.runs (k : Fin g) : TaskPc g → Multiset Task
  | .running k' task => if k' = k then {task} else 0
  | _ => 0

/-- Whether a thread has a task of the group that is counted as executing. -/
def TaskPc.executes (k : Fin g) : TaskPc g → Nat
  | .running k' _ | .ran k' _ => if k' = k then 1 else 0
  | _ => 0

/-- The tasks of a group that threads are in the functions of. -/
def runningOf (k : Fin g) (pc : Fin n → TaskPc g) : Multiset Task := ∑ t, (pc t).runs k

section History

variable (k : Fin g) (log : List (TaskEvent g)) (task : Task)

theorem enqueuedOf_enqueued (k' : Fin g) : enqueuedOf k (log ++ [.enqueued k' task]) =
    if k' = k then enqueuedOf k log ++ [task] else enqueuedOf k log := by
  unfold enqueuedOf
  rw [List.filterMap_append]
  by_cases hk : k' = k <;> simp [hk]

@[simp] theorem enqueuedOf_started (k' : Fin g) :
    enqueuedOf k (log ++ [.started k' task]) = enqueuedOf k log := by simp [enqueuedOf]

@[simp] theorem enqueuedOf_finished (k' : Fin g) :
    enqueuedOf k (log ++ [.finished k' task]) = enqueuedOf k log := by simp [enqueuedOf]

theorem startedOf_started (k' : Fin g) : startedOf k (log ++ [.started k' task]) =
    if k' = k then startedOf k log ++ [task] else startedOf k log := by
  unfold startedOf
  rw [List.filterMap_append]
  by_cases hk : k' = k <;> simp [hk]

@[simp] theorem startedOf_enqueued (k' : Fin g) :
    startedOf k (log ++ [.enqueued k' task]) = startedOf k log := by simp [startedOf]

@[simp] theorem startedOf_finished (k' : Fin g) :
    startedOf k (log ++ [.finished k' task]) = startedOf k log := by simp [startedOf]

theorem finishedOf_finished (k' : Fin g) : finishedOf k (log ++ [.finished k' task]) =
    if k' = k then finishedOf k log ++ [task] else finishedOf k log := by
  unfold finishedOf
  rw [List.filterMap_append]
  by_cases hk : k' = k <;> simp [hk]

@[simp] theorem finishedOf_enqueued (k' : Fin g) :
    finishedOf k (log ++ [.enqueued k' task]) = finishedOf k log := by simp [finishedOf]

@[simp] theorem finishedOf_started (k' : Fin g) :
    finishedOf k (log ++ [.started k' task]) = finishedOf k log := by simp [finishedOf]

end History

end Tasks
end TreePass
