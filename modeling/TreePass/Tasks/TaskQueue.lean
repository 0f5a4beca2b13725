import Mathlib.Data.List.Nodup
import Mathlib.Logic.Function.Basic
import Mathlib.Tactic.Common

/-!
# The queue of a task group

A `task_queue` is a list of tasks linked through their `next` fields, with pointers to its first
and its last task.  `TaskQueue.push` and `TaskQueue.pop` are what `task_enqueue` and
`task_group_get_next_task` do to it; a failed assertion gives `none`.

`Represents q l` says that the links of `q` lead through exactly the tasks of `l`.  Over it `push`
adds at one end or the other, `pop` takes the first task, and no assertion fails.
-/

namespace TreePass
namespace Tasks

/-- A task.  Its number tells it from every other one; how it was enqueued is part of it so that the
order of starting can be compared with the order of enqueueing. -/
structure Task where
  id : Nat
  atHead : Bool
  deriving DecidableEq, Repr

/-- `task_queue`, with the `next` fields of the tasks and the count `current_waiting_tasks`. -/
structure TaskQueue where
  head : Option Task
  tail : Option Task
  next : Task → Option Task
  currentWaitingTasks : Nat

namespace TaskQueue

/-- The part of `task_enqueue` that links a new task in.  The task is fresh from `TYPED_ZALLOC`. -/
def push (q : TaskQueue) (task : Task) : Option TaskQueue :=
  let q := { q with next := Function.update q.next task none }
  match q.tail with
  | some tail =>
      if task.atHead then
        q.head.map fun head =>
          { q with
            next := Function.update q.next task (some head)
            head := some task
            currentWaitingTasks := q.currentWaitingTasks + 1 }
      else
        some { q with
          next := Function.update q.next tail (some task)
          tail := some task
          currentWaitingTasks := q.currentWaitingTasks + 1 }
  | none =>
      if q.head = none then
        some { q with
          head := some task
          tail := some task
          currentWaitingTasks := q.currentWaitingTasks + 1 }
      else none

/-- `task_group_get_next_task`: the task, or none if none is waiting. -/
def pop (q : TaskQueue) : Option (TaskQueue × Option Task) :=
  if q.currentWaitingTasks = 0 then some (q, none)
  else
    match q.head, q.tail with
    | some assigned, some tail =>
        match q.next assigned with
        | some head =>
            some ({ q with
              head := some head
              currentWaitingTasks := q.currentWaitingTasks - 1 }, some assigned)
        | none =>
            if tail = assigned ∧ q.currentWaitingTasks = 1 then
              some ({ q with
                head := none
                tail := none
                currentWaitingTasks := q.currentWaitingTasks - 1 }, some assigned)
            else none
    | _, _ => none

/-- The empty queue of `task_group_init`. -/
def empty : TaskQueue := { head := none, tail := none, next := fun _ => none, currentWaitingTasks := 0 }

/-- Following `next` from a pointer leads through the tasks of a list and ends. -/
def Linked (next : Task → Option Task) : Option Task → List Task → Prop
  | start, [] => start = none
  | start, task :: rest => start = some task ∧ Linked next (next task) rest

/-- The queue holds the tasks of the list, in this order. -/
structure Represents (q : TaskQueue) (l : List Task) : Prop where
  linked : Linked q.next q.head l
  tail_eq : q.tail = l.getLast?
  waiting_eq : q.currentWaitingTasks = l.length
  nodup : l.Nodup

theorem represents_empty : Represents empty [] := ⟨rfl, rfl, rfl, List.nodup_nil⟩

theorem Linked.update {next : Task → Option Task} {task : Task} {link : Option Task} {l : List Task} :
    ∀ {start : Option Task}, Linked next start l → task ∉ l →
      Linked (Function.update next task link) start l := by
  induction l with
  | nil => exact fun h _ => h
  | cons first rest ih =>
      intro start h hnot
      obtain ⟨rfl, hrest⟩ := h
      obtain ⟨hne, hrestnot⟩ := not_or.mp fun hor => hnot (List.mem_cons.mpr hor)
      refine ⟨rfl, ?_⟩
      rw [Function.update_of_ne (Ne.symm hne)]
      exact ih hrest hrestnot

theorem Linked.snoc {next : Task → Option Task} {last task : Task} {l : List Task} :
    ∀ {start : Option Task}, Linked next start (l ++ [last]) → (l ++ [last]).Nodup →
      task ∉ l ++ [last] → next task = none →
      Linked (Function.update next last (some task)) start (l ++ [last] ++ [task]) := by
  induction l with
  | nil =>
      rintro start ⟨rfl, -⟩ - hnot hnext
      have hne : task ≠ last := fun h => hnot (h ▸ List.mem_singleton_self _)
      refine ⟨rfl, ?_⟩
      rw [Function.update_self]
      refine ⟨rfl, ?_⟩
      rw [Function.update_of_ne hne]
      exact hnext
  | cons first rest ih =>
      rintro start ⟨rfl, hrest⟩ hnodup hnot hnext
      obtain ⟨hfirst, hrestnodup⟩ := List.nodup_cons.mp hnodup
      have hne : first ≠ last := fun h => hfirst (h ▸ List.mem_append_right _ (List.mem_singleton_self _))
      refine ⟨rfl, ?_⟩
      rw [Function.update_of_ne hne]
      exact ih hrest hrestnodup (fun h => hnot (List.mem_cons_of_mem _ h)) hnext

def enqueued (l : List Task) (task : Task) : List Task :=
  if task.atHead then task :: l else l ++ [task]

theorem enqueued_perm (l : List Task) (task : Task) : (enqueued l task).Perm (task :: l) := by
  unfold enqueued
  split
  · exact List.Perm.refl _
  · exact List.perm_append_singleton task l

/-- **Enqueueing.**  A task that is not in the queue is added at the end it asks for, and no
assertion fails. -/
theorem Represents.push {q : TaskQueue} {l : List Task} {task : Task} (h : Represents q l)
    (hnot : task ∉ l) : ∃ q', q.push task = some q' ∧ Represents q' (enqueued l task) := by
  have hfresh : Linked (Function.update q.next task none) q.head l := h.linked.update hnot
  have hnodup : (enqueued l task).Nodup :=
    (enqueued_perm l task).nodup_iff.mpr (List.nodup_cons.mpr ⟨hnot, h.nodup⟩)
  rcases List.eq_nil_or_concat l with rfl | ⟨rest, last, rfl⟩
  · have hhead : q.head = none := h.linked
    have htail : q.tail = none := h.tail_eq
    refine ⟨_, by
      simp only [TaskQueue.push, htail, hhead, if_true]
      rfl, ?_⟩
    have hone : enqueued [] task = [task] := by
      unfold enqueued
      split <;> rfl
    rw [hone] at hnodup ⊢
    exact ⟨⟨rfl, by simp [Linked]⟩, rfl, by simp [h.waiting_eq], hnodup⟩
  · rw [List.concat_eq_append] at h hnot hfresh hnodup ⊢
    have htail : q.tail = some last := by simp [h.tail_eq]
    cases hat : task.atHead with
    | true =>
        obtain ⟨first, hfirst⟩ : ∃ first, q.head = some first := by
          cases rest with
          | nil => exact ⟨_, h.linked.1⟩
          | cons first rest => exact ⟨_, h.linked.1⟩
        refine ⟨_, by
          simp only [TaskQueue.push, htail, hat, if_true, hfirst, Option.map_some]
          rfl, ?_⟩
        simp only [enqueued, hat, if_true] at hnodup ⊢
        refine ⟨⟨rfl, ?_⟩, ?_, by simp [h.waiting_eq], hnodup⟩
        · have hlinked := @Linked.update _ task (some first) _ _ hfresh hnot
          rw [hfirst] at hlinked
          simpa only [Function.update_self] using hlinked
        · simp [List.getLast?_cons]
    | false =>
        refine ⟨_, by
          simp only [TaskQueue.push, htail, hat, Bool.false_eq_true, if_false]
          rfl, ?_⟩
        simp only [enqueued, hat, Bool.false_eq_true, if_false] at hnodup ⊢
        refine ⟨?_, ?_, by simp [h.waiting_eq], hnodup⟩
        · exact hfresh.snoc h.nodup hnot (Function.update_self ..)
        · simp

theorem Represents.pop {q : TaskQueue} {l : List Task} (h : Represents q l) :
    ∃ q', q.pop = some (q', l.head?) ∧ Represents q' l.tail := by
  cases l with
  | nil =>
      refine ⟨q, ?_, h⟩
      have hzero : q.currentWaitingTasks = 0 := h.waiting_eq
      simp only [TaskQueue.pop, hzero, if_true]
      rfl
  | cons first rest =>
      obtain ⟨hhead, hrest⟩ := h.linked
      have hwaiting : q.currentWaitingTasks = rest.length + 1 := h.waiting_eq
      have hpos : q.currentWaitingTasks ≠ 0 := by omega
      obtain ⟨-, hnodup⟩ := List.nodup_cons.mp h.nodup
      obtain ⟨last, htail⟩ : ∃ last, q.tail = some last :=
        ⟨_, h.tail_eq.trans (List.getLast?_eq_getLast_of_ne_nil (List.cons_ne_nil _ _))⟩
      cases rest with
      | nil =>
          have hnone : q.next first = none := hrest
          have hlast : last = first := by
            have htail' := h.tail_eq
            rw [htail] at htail'
            exact Option.some.inj htail'
          have hone : q.currentWaitingTasks = 1 := hwaiting
          refine ⟨_, by
            simp only [TaskQueue.pop, hhead, htail, hnone, hlast, hone, and_self, if_true]
            rfl, ?_⟩
          exact ⟨rfl, rfl, rfl, List.nodup_nil⟩
      | cons second rest =>
          have hsome : q.next first = some second := hrest.1
          refine ⟨_, by
            simp only [TaskQueue.pop, if_neg hpos, hhead, htail, hsome]
            rfl, ?_⟩
          refine ⟨?_, ?_, ?_, hnodup⟩
          · exact hsome ▸ hrest
          · exact htail.symm.trans h.tail_eq
          · simp [hwaiting]

end TaskQueue
end Tasks
end TreePass
