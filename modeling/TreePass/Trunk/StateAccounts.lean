import TreePass.Trunk.PivotState
import Mathlib.Algebra.BigOperators.Group.Multiset.Basic
import Mathlib.Data.Multiset.Count

/-!
# A pivot state and its tasks

What holds of a pivot state and the tasks that hold a reference to it, whatever the tasks of other
states and the incorporations do.

* `Finished` and `Covered`: which compactions a task may rely on to have succeeded.
* `StateCounts`: the reference count, the compactions that wait for a task, the one maplet
  compaction at a time, the bundles in the queue.
* `StateOk` adds that a success at the head of the queue does not go unnoticed.
* One lemma for each thing a task does with its state.
-/

namespace TreePass
namespace Trunk

variable {K : Type}

/-! ## Tasks of a state -/

def Task.isPending : Task → Bool
  | .bundle _ => true
  | .picking _ => true
  | _ => false

def Task.isMaplet : Task → Bool
  | .maplet _ => true
  | .building _ _ _ => true
  | .built _ _ _ => true
  | .applied _ _ => true
  | _ => false

def Task.appliedCount : Task → Nat
  | .applied _ count => count
  | _ => 0

def pendingTasks (l : Multiset Task) : Nat := l.countP (·.isPending)

def mapletTasks (l : Multiset Task) : Nat := l.countP (·.isMaplet)

@[simp] theorem pendingTasks_cons (τ : Task) (l : Multiset Task) :
    pendingTasks (τ ::ₘ l) = pendingTasks l + if τ.isPending then 1 else 0 :=
  Multiset.countP_cons _ _ _

@[simp] theorem mapletTasks_cons (τ : Task) (l : Multiset Task) :
    mapletTasks (τ ::ₘ l) = mapletTasks l + if τ.isMaplet then 1 else 0 :=
  Multiset.countP_cons _ _ _

def unapplied (queue : List BundleCompaction) (l : Multiset Task) : List BundleCompaction :=
  queue.drop (l.map Task.appliedCount).sum

/-- The first `count` compactions have succeeded. -/
structure Finished (queue : List BundleCompaction) (count : Nat) : Prop where
  le : count ≤ queue.length
  succeeded : ∀ bc ∈ queue.take count, bc.status = .succeeded

/-- The maplet is that of the state with the filters of the first `count` compactions. -/
def MapletFor (queue : List BundleCompaction) (maplet count newMaplet : Nat) : Prop :=
  (outputBranches queue count = [] ∧ newMaplet = maplet) ∨
    (outputBranches queue count ≠ [] ∧ newMaplet ≠ 0)

def Covered (queue : List BundleCompaction) (maplet : Nat) : Task → Prop
  | .maplet _ => Finished queue 1
  | .building _ count newMaplet => Finished queue (max count 1) ∧
      MapletFor queue maplet count newMaplet
  | .built _ count newMaplet => 0 < count ∧ Finished queue count ∧
      MapletFor queue maplet count newMaplet
  | .applied _ count => 0 < count ∧ Finished queue count
  | _ => True

/-- What holds of a state and its tasks. -/
structure StateCounts (σ : Nat) (st : PivotState K) (l : Multiset Task) : Prop where
  refcount : st.refcount = l.card
  pending : pendingTasks l ≤
    st.bundleCompactions.countP fun bc => bc.status = .notStarted
  compacting : ∀ id, .compacting σ id ∈ l →
    ∃ bc ∈ st.bundleCompactions, bc.id = id ∧ bc.status = .inProgress
  single : ∀ id, l.count (.compacting σ id) ≤ 1
  maplets : mapletTasks l =
    if st.mapletCompactionInitiated && !st.mapletCompactionFailed then 1 else 0
  initiated : st.mapletCompactionFailed = true → st.mapletCompactionInitiated = true
  covered : ∀ τ ∈ l, Covered st.bundleCompactions st.maplet τ
  total : st.totalBundles = (st.bundleCompactions.flatMap (·.inputs)).length
  ids : (st.bundleCompactions.map (·.id)).Nodup
  inputs : ∀ bc ∈ st.bundleCompactions, bc.inputs ≠ [] ∧ ∀ b ∈ bc.inputs, b.branches ≠ []
  outputs : ∀ bc ∈ st.bundleCompactions, bc.status ≠ .succeeded → bc.outputBranch = 0
  full : ∀ i bc, (unapplied st.bundleCompactions l)[i]? = some bc → bc.mergeMode = .full →
    i = 0 ∧ st.pivot.2 = 0 ∧ st.maplet = 0

/-- A success at the head of the queue has started a maplet compaction, or the task that has
succeeded has still to look at the queue. -/
def HeadSeen (σ : Nat) (st : PivotState K) (l : Multiset Task) : Prop :=
  ∀ bc rest, st.bundleCompactions = bc :: rest → bc.status = .succeeded →
    st.mapletCompactionInitiated = true ∨ .ended σ bc.id ∈ l

/-- **A state and its tasks.** -/
structure StateOk (σ : Nat) (st : PivotState K) (l : Multiset Task) : Prop
    extends StateCounts σ st l where
  headSeen : HeadSeen σ st l

/-! ## Queues -/

section Queues

variable {queue : List BundleCompaction} {count : Nat}

theorem Finished.mono (h : Finished queue count) {n : Nat} (hle : n ≤ count) : Finished queue n :=
  ⟨hle.trans h.le, fun bc hbc => h.succeeded bc (List.take_subset_take_left _ hle hbc)⟩

theorem Finished.append (h : Finished queue count) (bc : BundleCompaction) :
    Finished (queue ++ [bc]) count := by
  refine ⟨by simpa using Nat.le_succ_of_le h.le, fun b hb => h.succeeded b ?_⟩
  rwa [List.take_append_of_le_length h.le] at hb

theorem Finished.head (h : Finished queue 1) :
    ∃ head rest, queue = head :: rest ∧ head.status = .succeeded := by
  cases queue with
  | nil => exact absurd h.le (by simp)
  | cons head rest => exact ⟨head, rest, rfl, h.succeeded head (by simp)⟩

theorem finished_one {head : BundleCompaction} {rest : List BundleCompaction}
    (h : head.status = .succeeded) : Finished (head :: rest) 1 :=
  ⟨by simp, by simpa using h⟩

theorem Finished.succ {bc : BundleCompaction} (h : Finished queue count)
    (hbc : queue[count]? = some bc) (hst : bc.status = .succeeded) : Finished queue (count + 1) := by
  obtain ⟨hlt, hget⟩ := List.getElem?_eq_some_iff.mp hbc
  refine ⟨hlt, fun b hb => ?_⟩
  rw [List.take_succ_eq_append_getElem hlt, List.mem_append, List.mem_singleton] at hb
  rcases hb with hb | hb
  · exact h.succeeded b hb
  · exact hb ▸ hget ▸ hst

theorem Finished.getElem? {i : Nat} {bc : BundleCompaction} (h : Finished queue count)
    (hi : i < count) (hbc : queue[i]? = some bc) : bc.status = .succeeded := by
  refine h.succeeded bc (List.mem_iff_getElem?.mpr ⟨i, ?_⟩)
  rw [List.getElem?_take_of_lt hi, hbc]

@[simp] theorem setCompaction_ids (queue : List BundleCompaction) (id : Nat)
    (status : CompactionStatus) (o : Nat) :
    (setCompaction queue id status o).map (·.id) = queue.map (·.id) := by
  rw [setCompaction, List.map_map]
  refine List.map_congr_left fun bc _ => ?_
  by_cases h : bc.id = id <;> simp [h]

@[simp] theorem setCompaction_length (queue : List BundleCompaction) (id : Nat)
    (status : CompactionStatus) (o : Nat) :
    (setCompaction queue id status o).length = queue.length := by simp [setCompaction]

@[simp] theorem setCompaction_inputs (queue : List BundleCompaction) (id : Nat)
    (status : CompactionStatus) (o : Nat) :
    (setCompaction queue id status o).map (·.inputs) = queue.map (·.inputs) := by
  rw [setCompaction, List.map_map]
  refine List.map_congr_left fun bc _ => ?_
  by_cases h : bc.id = id <;> simp [h]

theorem setCompaction_of_not_mem {id : Nat} (status : CompactionStatus) (o : Nat)
    (h : id ∉ queue.map (·.id)) : setCompaction queue id status o = queue := by
  rw [setCompaction]
  conv_rhs => rw [← List.map_id queue]
  refine List.map_congr_left fun bc hbc => ?_
  have hne : bc.id ≠ id := fun heq => h (List.mem_map.mpr ⟨bc, hbc, heq⟩)
  exact if_neg hne

theorem mem_setCompaction {id : Nat} {status : CompactionStatus} {o : Nat} {bc : BundleCompaction}
    (h : bc ∈ setCompaction queue id status o) :
    ∃ bc₀ ∈ queue, (bc₀.id = id ∧ bc = { bc₀ with status := status, outputBranch := o }) ∨
      (bc₀.id ≠ id ∧ bc = bc₀) := by
  obtain ⟨bc₀, hmem, heq⟩ := List.mem_map.mp h
  refine ⟨bc₀, hmem, ?_⟩
  by_cases hid : bc₀.id = id
  · exact Or.inl ⟨hid, by rw [← heq, if_pos hid]⟩
  · exact Or.inr ⟨hid, by rw [← heq, if_neg hid]⟩

theorem setCompaction_eq_cons {id : Nat} {status : CompactionStatus} {o : Nat}
    {b : BundleCompaction} {rest : List BundleCompaction}
    (h : setCompaction queue id status o = b :: rest) :
    ∃ b₀ rest₀, queue = b₀ :: rest₀ ∧
      ((b₀.id = id ∧ b = { b₀ with status := status, outputBranch := o }) ∨
        (b₀.id ≠ id ∧ b = b₀)) := by
  cases queue with
  | nil => cases h
  | cons b₀ rest₀ =>
      refine ⟨b₀, rest₀, rfl, ?_⟩
      rw [setCompaction, List.map_cons] at h
      obtain ⟨hb, -⟩ := List.cons.inj h
      by_cases hid : b₀.id = id
      · exact Or.inl ⟨hid, by rw [← hb, if_pos hid]⟩
      · exact Or.inr ⟨hid, by rw [← hb, if_neg hid]⟩

theorem mergeMode_setCompaction {id : Nat} {status : CompactionStatus} {o : Nat} {l : Multiset Task}
    {i : Nat} {b : BundleCompaction} (h : (unapplied (setCompaction queue id status o) l)[i]? = some b) :
    ∃ b₀, (unapplied queue l)[i]? = some b₀ ∧ b.mergeMode = b₀.mergeMode := by
  rw [unapplied, setCompaction, ← List.map_drop, List.getElem?_map, Option.map_eq_some_iff] at h
  obtain ⟨b₀, hb₀, rfl⟩ := h
  refine ⟨b₀, hb₀, ?_⟩
  by_cases hid : b₀.id = id <;> simp [hid]

theorem setCompaction_split {bc : BundleCompaction} (hids : (queue.map (·.id)).Nodup)
    (hbc : bc ∈ queue) (status : CompactionStatus) (o : Nat) :
    ∃ front back, queue = front ++ bc :: back ∧
      setCompaction queue bc.id status o =
        front ++ { bc with status := status, outputBranch := o } :: back := by
  obtain ⟨front, back, rfl⟩ := List.append_of_mem hbc
  refine ⟨front, back, rfl, ?_⟩
  rw [List.map_append, List.map_cons, List.nodup_append, List.nodup_cons] at hids
  obtain ⟨-, ⟨hback, -⟩, hfront⟩ := hids
  have hfront' : bc.id ∉ front.map (·.id) := fun hin =>
    hfront bc.id hin bc.id List.mem_cons_self rfl
  have hf := setCompaction_of_not_mem status o hfront'
  have hb := setCompaction_of_not_mem status o hback
  rw [setCompaction] at hf hb ⊢
  rw [List.map_append, List.map_cons, hf, hb, if_pos rfl]

theorem take_setCompaction {bc : BundleCompaction} (hids : (queue.map (·.id)).Nodup)
    (hbc : bc ∈ queue) (hst : bc.status ≠ .succeeded) (h : Finished queue count)
    (status : CompactionStatus) (o : Nat) :
    (setCompaction queue bc.id status o).take count = queue.take count := by
  obtain ⟨front, back, hqueue, hset⟩ := setCompaction_split hids hbc status o
  have hle : count ≤ front.length := by
    by_contra hgt
    refine hst (h.getElem? (i := front.length) (by omega) ?_)
    rw [hqueue, List.getElem?_append_right le_rfl, Nat.sub_self, List.getElem?_cons_zero]
  rw [hset, hqueue, List.take_append_of_le_length hle, List.take_append_of_le_length hle]

theorem Finished.setCompaction {bc : BundleCompaction} (hids : (queue.map (·.id)).Nodup)
    (hbc : bc ∈ queue) (hst : bc.status ≠ .succeeded) (h : Finished queue count)
    (status : CompactionStatus) (o : Nat) : Finished (setCompaction queue bc.id status o) count := by
  refine ⟨by simpa using h.le, fun b hb => h.succeeded b ?_⟩
  rwa [take_setCompaction hids hbc hst h] at hb

theorem Covered.append {maplet : Nat} {τ : Task} (h : Covered queue maplet τ)
    (bc : BundleCompaction) : Covered (queue ++ [bc]) maplet τ := by
  have houtputs : ∀ {count}, Finished queue count →
      outputBranches (queue ++ [bc]) count = outputBranches queue count := fun hfin => by
    rw [outputBranches, outputBranches, List.take_append_of_le_length hfin.le]
  cases τ with
  | maplet σ => exact Finished.append h bc
  | building σ count m =>
      refine ⟨h.1.append bc, ?_⟩
      rw [MapletFor, houtputs (h.1.mono (le_max_left _ _))]
      exact h.2
  | built σ count m =>
      refine ⟨h.1, h.2.1.append bc, ?_⟩
      rw [MapletFor, houtputs h.2.1]
      exact h.2.2
  | applied σ count => exact ⟨h.1, h.2.append bc⟩
  | _ => trivial

theorem Covered.setCompaction {maplet : Nat} {τ : Task} (h : Covered queue maplet τ)
    {bc : BundleCompaction} (hids : (queue.map (·.id)).Nodup) (hbc : bc ∈ queue)
    (hst : bc.status ≠ .succeeded) (status : CompactionStatus) (o : Nat) :
    Covered (setCompaction queue bc.id status o) maplet τ := by
  have houtputs : ∀ {count}, Finished queue count →
      outputBranches (Trunk.setCompaction queue bc.id status o) count =
        outputBranches queue count := fun hfin => by
    rw [outputBranches, outputBranches, take_setCompaction hids hbc hst hfin]
  cases τ with
  | maplet σ => exact Finished.setCompaction hids hbc hst h status o
  | building σ count m =>
      refine ⟨h.1.setCompaction hids hbc hst status o, ?_⟩
      rw [MapletFor, houtputs (h.1.mono (le_max_left _ _))]
      exact h.2
  | built σ count m =>
      refine ⟨h.1, h.2.1.setCompaction hids hbc hst status o, ?_⟩
      rw [MapletFor, houtputs h.2.1]
      exact h.2.2
  | applied σ count => exact ⟨h.1, h.2.setCompaction hids hbc hst status o⟩
  | _ => trivial

end Queues

/-! ## What a task does with its state -/

@[simp] theorem unapplied_cons (queue : List BundleCompaction) (τ : Task) (l : Multiset Task) :
    unapplied queue (τ ::ₘ l) = (unapplied queue l).drop τ.appliedCount := by
  rw [unapplied, unapplied, Multiset.map_cons, Multiset.sum_cons, List.drop_drop,
    Nat.add_comm]

theorem unapplied_popped (queue : List BundleCompaction) (σ count : Nat) (l : Multiset Task) :
    unapplied (queue.drop count) (.releasing σ ::ₘ l) =
      unapplied queue (.applied σ count ::ₘ l) := by
  rw [unapplied_cons, unapplied_cons]
  change unapplied (queue.drop count) l = (unapplied queue l).drop count
  rw [unapplied, unapplied, List.drop_drop, List.drop_drop, Nat.add_comm]

section Tasks

variable {σ : Nat} {st : PivotState K} {l : Multiset Task}

theorem StateCounts.move {τ τ' : Task} (h : StateCounts σ st (τ ::ₘ l))
    (hpending : τ'.isPending = true → τ.isPending = true)
    (hmaplet : τ'.isMaplet = τ.isMaplet) (happlied : τ'.appliedCount = τ.appliedCount)
    (hcompacting : ∀ id, τ' ≠ .compacting σ id)
    (hcovered : Covered st.bundleCompactions st.maplet τ') : StateCounts σ st (τ' ::ₘ l) where
  refcount := by simpa using h.refcount
  pending := by
    refine le_trans ?_ h.pending
    rw [pendingTasks_cons, pendingTasks_cons]
    by_cases hτ' : τ'.isPending = true
    · simp [hτ', hpending hτ']
    · simp [hτ']
  compacting id hid := by
    rcases Multiset.mem_cons.mp hid with heq | hid
    · exact absurd heq.symm (hcompacting id)
    · exact h.compacting id (Multiset.mem_cons_of_mem hid)
  single id := by
    rw [Multiset.count_cons_of_ne (hcompacting id).symm]
    exact le_trans (Multiset.count_le_count_cons _ _ _) (h.single id)
  maplets := by
    rw [← h.maplets, mapletTasks_cons, mapletTasks_cons, hmaplet]
  initiated := h.initiated
  covered ρ hρ := by
    rcases Multiset.mem_cons.mp hρ with rfl | hρ
    · exact hcovered
    · exact h.covered ρ (Multiset.mem_cons_of_mem hρ)
  total := h.total
  ids := h.ids
  inputs := h.inputs
  outputs := h.outputs
  full := by
    have hfull := h.full
    rw [unapplied_cons] at hfull ⊢
    rw [happlied]
    exact hfull

theorem HeadSeen.move {τ τ' : Task} (h : HeadSeen σ st (τ ::ₘ l)) (hτ : ∀ id, τ ≠ .ended σ id) :
    HeadSeen σ st (τ' ::ₘ l) := by
  intro bc rest hqueue hst
  refine (h bc rest hqueue hst).imp_right fun hin => ?_
  rcases Multiset.mem_cons.mp hin with heq | hin
  · exact absurd heq.symm (hτ bc.id)
  · exact Multiset.mem_cons_of_mem hin

theorem StateOk.move {τ τ' : Task} (h : StateOk σ st (τ ::ₘ l))
    (hpending : τ'.isPending = true → τ.isPending = true)
    (hmaplet : τ'.isMaplet = τ.isMaplet) (happlied : τ'.appliedCount = τ.appliedCount)
    (hcompacting : ∀ id, τ' ≠ .compacting σ id) (hended : ∀ id, τ ≠ .ended σ id)
    (hcovered : Covered st.bundleCompactions st.maplet τ') : StateOk σ st (τ' ::ₘ l) :=
  ⟨h.toStateCounts.move hpending hmaplet happlied hcompacting hcovered, h.headSeen.move hended⟩

theorem StateOk.abandon (h : StateOk σ st l) : StateOk σ { st with abandoned := true } l where
  refcount := h.refcount
  pending := h.pending
  compacting := h.compacting
  single := h.single
  maplets := h.maplets
  initiated := h.initiated
  covered := h.covered
  total := h.total
  ids := h.ids
  inputs := h.inputs
  outputs := h.outputs
  full := h.full
  headSeen := h.headSeen

theorem StateOk.release (h : StateOk σ st (.releasing σ ::ₘ l)) {count : Nat}
    (hcount : st.refcount = count + 2) : StateOk σ { st with refcount := count + 1 } l where
  refcount := by
    have hcard := h.refcount
    rw [Multiset.card_cons] at hcard
    change count + 1 = l.card
    omega
  pending := by simpa [Task.isPending] using h.pending
  compacting id hid := h.compacting id (Multiset.mem_cons_of_mem hid)
  single id := by simpa using h.single id
  maplets := by simpa [Task.isMaplet] using h.maplets
  initiated := h.initiated
  covered ρ hρ := h.covered ρ (Multiset.mem_cons_of_mem hρ)
  total := h.total
  ids := h.ids
  inputs := h.inputs
  outputs := h.outputs
  full := by simpa [Task.appliedCount] using h.full
  headSeen bc rest hqueue hst := (h.headSeen bc rest hqueue hst).imp_right fun hin => by
    simpa using hin

theorem StateOk.release_last (h : StateOk σ st (.releasing σ ::ₘ l)) (hcount : st.refcount = 1) :
    l = 0 := by
  have hcard := h.refcount
  rw [Multiset.card_cons, hcount] at hcard
  exact Multiset.card_eq_zero.mp (by omega)

private theorem not_mem_of_compacting {id : Nat} (h : StateCounts σ st (.compacting σ id ::ₘ l)) :
    .compacting σ id ∉ l := by
  intro hin
  have hsingle := h.single id
  rw [Multiset.count_cons_self] at hsingle
  have hpos := Multiset.one_le_count_iff_mem.mpr hin
  omega

theorem StateCounts.withStatus {τ τ' : Task} (h : StateCounts σ st (τ ::ₘ l)) {bc : BundleCompaction}
    (hmem : bc ∈ st.bundleCompactions) (hnot : bc.status ≠ .succeeded) {status : CompactionStatus}
    {o : Nat} (hstatus : status = .succeeded ∨ o = 0) (hstarted : status ≠ .notStarted)
    (hpicked : bc.status = .notStarted → τ.isPending = true) (hpending : τ'.isPending = false)
    (hmaplet : τ'.isMaplet = τ.isMaplet) (happlied : τ'.appliedCount = τ.appliedCount)
    (hcovered : ∀ queue m, Covered queue m τ')
    (hcompacting : ∀ id, .compacting σ id ∈ τ' ::ₘ l →
      (id = bc.id ∧ status = .inProgress) ∨ (id ≠ bc.id ∧ .compacting σ id ∈ l))
    (hsingle : ∀ id, (τ' ::ₘ l).count (.compacting σ id) ≤ 1) :
    StateCounts σ { st with bundleCompactions := setCompaction st.bundleCompactions bc.id status o }
      (τ' ::ₘ l) := by
  obtain ⟨front, back, hqueue, hset⟩ := setCompaction_split h.ids hmem status o
  refine ⟨?_, ?_, ?_, hsingle, ?_, h.initiated, ?_, ?_, ?_, ?_, ?_, ?_⟩
  · simpa using h.refcount
  · have hold := h.pending
    change _ ≤ (setCompaction st.bundleCompactions bc.id status o).countP _
    rw [hset, pendingTasks_cons, hpending]
    rw [hqueue, pendingTasks_cons] at hold
    by_cases hst : bc.status = .notStarted
    · simp [hst, hstarted, hpicked hst] at hold ⊢
      omega
    · simp [hst, hstarted] at hold ⊢
      omega
  · intro id hid
    rcases hcompacting id hid with ⟨rfl, rfl⟩ | ⟨hne, hin⟩
    · exact ⟨_, List.mem_map.mpr ⟨bc, hmem, if_pos rfl⟩, rfl, rfl⟩
    · obtain ⟨bc', hmem', rfl, hst'⟩ := h.compacting id (Multiset.mem_cons_of_mem hin)
      exact ⟨bc', List.mem_map.mpr ⟨bc', hmem', if_neg hne⟩, rfl, hst'⟩
  · rw [← h.maplets, mapletTasks_cons, mapletTasks_cons, hmaplet]
  · intro ρ hρ
    rcases Multiset.mem_cons.mp hρ with rfl | hρ
    · exact hcovered _ _
    · exact (h.covered ρ (Multiset.mem_cons_of_mem hρ)).setCompaction h.ids hmem hnot _ _
  · rw [h.total, List.flatMap_def, List.flatMap_def, setCompaction_inputs]
  · rw [setCompaction_ids]
    exact h.ids
  · intro b hb
    obtain ⟨b₀, hb₀, ⟨-, rfl⟩ | ⟨-, rfl⟩⟩ := mem_setCompaction hb
    · exact h.inputs b₀ hb₀
    · exact h.inputs b hb₀
  · intro b hb hst
    obtain ⟨b₀, hb₀, ⟨-, rfl⟩ | ⟨-, rfl⟩⟩ := mem_setCompaction hb
    · exact hstatus.resolve_left hst
    · exact h.outputs b hb₀ hst
  · intro i b hb hfull
    have hold := h.full
    rw [unapplied_cons, happlied] at hb
    rw [unapplied_cons] at hold
    rw [List.getElem?_drop] at hb
    obtain ⟨b₀, hb₀, hmode⟩ := mergeMode_setCompaction hb
    rw [← List.getElem?_drop] at hb₀
    exact hold i b₀ hb₀ (hmode ▸ hfull)

theorem StateOk.pick (h : StateOk σ st (.picking σ ::ₘ l)) :
    ∃ bc, (st.bundleCompactions.find? fun bc => bc.status = .notStarted) = some bc ∧
      0 < (bc.inputs.flatMap (·.branches)).length ∧
      StateOk σ { st with
        bundleCompactions := setCompaction st.bundleCompactions bc.id .inProgress
          bc.outputBranch } (.compacting σ bc.id ::ₘ l) := by
  have hwaiting : 0 < st.bundleCompactions.countP fun bc => bc.status = .notStarted := by
    refine lt_of_lt_of_le ?_ h.pending
    simp [Task.isPending]
  obtain ⟨bc₀, hbc₀, hst₀⟩ := List.countP_pos_iff.mp hwaiting
  obtain ⟨bc, hfind⟩ : ∃ bc, (st.bundleCompactions.find? fun bc => bc.status = .notStarted) =
      some bc := Option.isSome_iff_exists.mp (List.find?_isSome.mpr ⟨bc₀, hbc₀, hst₀⟩)
  have hmem : bc ∈ st.bundleCompactions := List.mem_of_find?_eq_some hfind
  have hst : bc.status = .notStarted := by simpa using List.find?_some hfind
  have hnot : bc.status ≠ .succeeded := by simp [hst]
  have houtput : bc.outputBranch = 0 := h.outputs bc hmem hnot
  refine ⟨bc, hfind, ?_, ?_⟩
  · obtain ⟨hne, hbranches⟩ := h.inputs bc hmem
    obtain ⟨b, rest, hcons⟩ := List.exists_cons_of_ne_nil hne
    have hb := hbranches b (hcons ▸ List.mem_cons_self)
    rw [hcons, List.flatMap_cons, List.length_append]
    have := List.length_pos_of_ne_nil hb
    omega
  -- an id of a compaction in progress is another one
  have hother : ∀ id, .compacting σ id ∈ l → id ≠ bc.id := by
    rintro id hid rfl
    obtain ⟨bc', hmem', hid', hst'⟩ := h.compacting _ (Multiset.mem_cons_of_mem hid)
    have heq : bc' = bc := List.inj_on_of_nodup_map h.ids hmem' hmem hid'
    rw [heq, hst] at hst'
    cases hst'
  refine ⟨h.toStateCounts.withStatus hmem hnot (Or.inr houtput) (by simp) (fun _ => rfl) rfl rfl rfl
    (fun _ _ => trivial) (fun id hid => ?_) fun id => ?_, ?_⟩
  · rcases Multiset.mem_cons.mp hid with heq | hid
    · exact Or.inl ⟨by simpa using heq, rfl⟩
    · exact Or.inr ⟨hother id hid, hid⟩
  · by_cases hid : id = bc.id
    · subst hid
      have hnotIn : Task.compacting σ bc.id ∉ l := fun hin => hother _ hin rfl
      simp [Multiset.count_eq_zero_of_notMem hnotIn]
    · rw [Multiset.count_cons_of_ne (by simpa using hid)]
      exact le_trans (Multiset.count_le_count_cons _ _ _) (h.single id)
  · intro b rest hb hstatus
    obtain ⟨b₀, rest₀, hcons, ⟨-, rfl⟩ | ⟨-, rfl⟩⟩ := setCompaction_eq_cons hb
    · cases hstatus
    · refine (h.headSeen b rest₀ hcons hstatus).imp_right fun hin => ?_
      simpa using hin

theorem StateOk.finish {id : Nat} (h : StateOk σ st (.compacting σ id ::ₘ l))
    {status : CompactionStatus} {o : Nat}
    (hstatus : status = .succeeded ∨ (status = .failed ∧ o = 0)) :
    StateOk σ { st with bundleCompactions := setCompaction st.bundleCompactions id status o }
      (.ended σ id ::ₘ l) := by
  obtain ⟨bc, hmem, rfl, hst⟩ := h.compacting id (Multiset.mem_cons_self _ _)
  have hnot : bc.status ≠ .succeeded := by simp [hst]
  have hne : status ≠ .notStarted := by
    rcases hstatus with rfl | ⟨rfl, -⟩ <;> simp
  refine ⟨h.toStateCounts.withStatus hmem hnot (hstatus.imp_right And.right) hne (by simp [hst]) rfl rfl
    rfl (fun _ _ => trivial) (fun id hid => Or.inr ?_) fun id => ?_, ?_⟩
  · have hin : Task.compacting σ id ∈ l := by simpa using hid
    exact ⟨fun heq => not_mem_of_compacting h.toStateCounts (heq ▸ hin), hin⟩
  · rw [Multiset.count_cons_of_ne (by simp)]
    exact le_trans (Multiset.count_le_count_cons _ _ _) (h.single id)
  · intro b rest hb hstatus'
    obtain ⟨b₀, rest₀, hcons, ⟨hid, rfl⟩ | ⟨-, rfl⟩⟩ := setCompaction_eq_cons hb
    · exact Or.inr (by simp [hid])
    · refine (h.headSeen b rest₀ hcons hstatus').imp_right fun hin => ?_
      have hin' : Task.ended σ b.id ∈ l := by simpa using hin
      exact Multiset.mem_cons_of_mem hin'

theorem StateOk.decideNot {id : Nat} (h : StateOk σ st (.ended σ id ::ₘ l)) {reused : Bool}
    (hnot : isSucceededHead st.bundleCompactions id reused = false ∨
      st.mapletCompactionInitiated = true) : StateOk σ st (.releasing σ ::ₘ l) := by
  refine ⟨h.toStateCounts.move (by simp [Task.isPending]) rfl rfl (by simp) trivial, ?_⟩
  intro bc rest hqueue hst
  rcases h.headSeen bc rest hqueue hst with hinit | hin
  · exact Or.inl hinit
  · rcases Multiset.mem_cons.mp hin with heq | hin
    · obtain rfl : bc.id = id := by simpa using heq
      rcases hnot with hnot | hinit
      · rw [hqueue] at hnot
        simp [isSucceededHead, hst] at hnot
      · exact Or.inl hinit
    · exact Or.inr (Multiset.mem_cons_of_mem hin)

theorem StateCounts.initiate (h : StateCounts σ st l)
    (hinit : st.mapletCompactionInitiated = false) (hfin : Finished st.bundleCompactions 1) :
    StateOk σ { st with mapletCompactionInitiated := true, refcount := st.refcount + 1 }
      (.maplet σ ::ₘ l) := by
  have hfailed : st.mapletCompactionFailed = false := by
    cases hf : st.mapletCompactionFailed with
    | false => rfl
    | true => exact absurd (h.initiated hf) (by simp [hinit])
  refine ⟨⟨?_, ?_, ?_, ?_, ?_, fun _ => rfl, ?_, h.total, h.ids, h.inputs, h.outputs, ?_⟩, ?_⟩
  · simpa using h.refcount
  · simpa [Task.isPending] using h.pending
  · intro id hid
    exact h.compacting id (by simpa using hid)
  · intro id
    rw [Multiset.count_cons_of_ne (by simp)]
    exact h.single id
  · have hold := h.maplets
    simp only [hinit, Bool.false_and, Bool.false_eq_true, if_false] at hold
    simp [hold, hfailed, Task.isMaplet]
  · intro ρ hρ
    rcases Multiset.mem_cons.mp hρ with rfl | hρ
    · exact hfin
    · exact h.covered ρ hρ
  · simpa [Task.appliedCount] using h.full
  · exact fun _ _ _ _ => Or.inl rfl

theorem StateCounts.not_isMaplet {τ : Task} (h : StateCounts σ st (τ ::ₘ l))
    (hτ : τ.isMaplet = true) : ∀ ρ ∈ l, ρ.isMaplet = false := by
  intro ρ hρ
  have hcount := h.maplets
  rw [mapletTasks_cons, if_pos hτ] at hcount
  have hzero : mapletTasks l = 0 := by
    split at hcount <;> omega
  have hall := Multiset.countP_eq_zero.mp hzero ρ hρ
  simpa using hall

theorem StateCounts.goesOn {τ : Task} (h : StateCounts σ st (τ ::ₘ l)) (hτ : τ.isMaplet = true) :
    st.mapletCompactionInitiated = true ∧ st.mapletCompactionFailed = false := by
  have hcount := h.maplets
  rw [mapletTasks_cons, if_pos hτ] at hcount
  by_cases hboth : (st.mapletCompactionInitiated && !st.mapletCompactionFailed) = true
  · simpa using hboth
  · rw [if_neg hboth] at hcount
    omega

theorem covered_of_not_isMaplet {queue : List BundleCompaction} {maplet : Nat} {ρ : Task}
    (h : ρ.isMaplet = false) : Covered queue maplet ρ := by
  cases ρ <;> trivial

theorem StateOk.fail {τ : Task} (h : StateOk σ st (τ ::ₘ l)) (hτ : τ.isMaplet = true)
    (happlied : τ.appliedCount = 0) :
    StateOk σ { st with mapletCompactionFailed := true } (.releasing σ ::ₘ l) := by
  obtain ⟨hinit, hfailed⟩ := h.goesOn hτ
  have hothers := h.not_isMaplet hτ
  refine ⟨⟨?_, ?_, ?_, ?_, ?_, fun _ => hinit, ?_, h.total, h.ids, h.inputs, h.outputs, ?_⟩, ?_⟩
  · simpa using h.refcount
  · have hpending := h.pending
    rw [pendingTasks_cons] at hpending
    rw [pendingTasks_cons]
    simp only [Task.isPending, Bool.false_eq_true, if_false]
    omega
  · intro id hid
    exact h.compacting id (Multiset.mem_cons_of_mem (by simpa using hid))
  · intro id
    rw [Multiset.count_cons_of_ne (by simp)]
    exact le_trans (Multiset.count_le_count_cons _ _ _) (h.single id)
  · have hzero : mapletTasks l = 0 :=
      Multiset.countP_eq_zero.mpr fun ρ hρ => by simp [hothers ρ hρ]
    simp [hzero, Task.isMaplet]
  · intro ρ hρ
    rcases Multiset.mem_cons.mp hρ with rfl | hρ
    · trivial
    · exact covered_of_not_isMaplet (hothers ρ hρ)
  · have hfull := h.full
    rw [unapplied_cons, happlied, List.drop_zero] at hfull
    simpa [Task.appliedCount] using hfull
  · exact fun _ _ _ _ => Or.inl hinit

theorem StateOk.apply {count m : Nat} (h : StateOk σ st (.built σ count m ::ₘ l)) :
    StateOk σ { st with maplet := m } (.applied σ count ::ₘ l) := by
  have hothers := h.not_isMaplet rfl
  obtain ⟨hpos, hfin, -⟩ := h.covered _ (Multiset.mem_cons_self _ _)
  refine ⟨⟨?_, ?_, ?_, ?_, ?_, h.initiated, ?_, h.total, h.ids, h.inputs, h.outputs, ?_⟩, ?_⟩
  · simpa using h.refcount
  · simpa [Task.isPending] using h.pending
  · intro id hid
    exact h.compacting id (Multiset.mem_cons_of_mem (by simpa using hid))
  · intro id
    rw [Multiset.count_cons_of_ne (by simp)]
    exact le_trans (Multiset.count_le_count_cons _ _ _) (h.single id)
  · rw [← h.maplets]
    simp [Task.isMaplet]
  · intro ρ hρ
    rcases Multiset.mem_cons.mp hρ with rfl | hρ
    · exact ⟨hpos, hfin⟩
    · exact covered_of_not_isMaplet (hothers ρ hρ)
  · -- what is to be applied in full mode was the first of the queue
    intro i bc hbc hfull
    have hold := h.full (count + i) bc
    rw [unapplied_cons, Task.appliedCount, List.getElem?_drop] at hbc
    simp only [unapplied_cons, Task.appliedCount, List.drop_zero] at hold
    have hzero := (hold hbc hfull).1
    omega
  · intro bc rest hqueue hst
    refine (h.headSeen bc rest hqueue hst).imp_right fun hin => ?_
    exact Multiset.mem_cons_of_mem (by simpa using hin)

theorem StateOk.pop {count : Nat} (h : StateOk σ st (.applied σ count ::ₘ l)) :
    StateCounts σ { st with
      bundleCompactions := st.bundleCompactions.drop count
      totalBundles := st.totalBundles - (inputBundles st.bundleCompactions count).length
      mapletCompactionInitiated := false } (.releasing σ ::ₘ l) := by
  have hothers := h.not_isMaplet rfl
  obtain ⟨-, hfailed⟩ := h.goesOn rfl
  obtain ⟨hpos, hfin⟩ := h.covered _ (Multiset.mem_cons_self _ _)
  have hmem : ∀ bc ∈ st.bundleCompactions.drop count, bc ∈ st.bundleCompactions :=
    fun bc hbc => List.mem_of_mem_drop hbc
  have hsplit := List.take_append_drop count st.bundleCompactions
  refine ⟨?_, ?_, ?_, ?_, ?_, ?_, ?_, ?_, ?_, fun bc hbc => h.inputs bc (hmem bc hbc),
    fun bc hbc => h.outputs bc (hmem bc hbc), ?_⟩
  · simpa using h.refcount
  · have hpending := h.pending
    have hnone : (st.bundleCompactions.take count).countP (fun bc => bc.status = .notStarted) = 0 :=
      List.countP_eq_zero.mpr fun bc hbc => by simp [hfin.succeeded bc hbc]
    rw [← hsplit, List.countP_append, hnone, Nat.zero_add] at hpending
    simpa [Task.isPending] using hpending
  · intro id hid
    obtain ⟨bc, hbc, hbcId, hst⟩ := h.compacting id (Multiset.mem_cons_of_mem (by simpa using hid))
    refine ⟨bc, ?_, hbcId, hst⟩
    rw [← hsplit, List.mem_append] at hbc
    refine hbc.resolve_left fun htake => ?_
    rw [hfin.succeeded bc htake] at hst
    cases hst
  · intro id
    rw [Multiset.count_cons_of_ne (by simp)]
    exact le_trans (Multiset.count_le_count_cons _ _ _) (h.single id)
  · have hzero : mapletTasks l = 0 :=
      Multiset.countP_eq_zero.mpr fun ρ hρ => by simp [hothers ρ hρ]
    simp [hzero, Task.isMaplet]
  · intro hf
    exact absurd hf (by simp [hfailed])
  · intro ρ hρ
    rcases Multiset.mem_cons.mp hρ with rfl | hρ
    · trivial
    · exact covered_of_not_isMaplet (hothers ρ hρ)
  · have htotal := h.total
    rw [← hsplit, List.flatMap_append, List.length_append] at htotal
    change st.totalBundles - ((st.bundleCompactions.take count).flatMap (·.inputs)).length =
      ((st.bundleCompactions.drop count).flatMap (·.inputs)).length
    omega
  · exact h.ids.sublist ((List.drop_sublist _ _).map _)
  · have hfull := h.full
    rw [unapplied_cons] at hfull ⊢
    simpa [unapplied, Task.appliedCount, List.drop_drop, Nat.add_comm] using hfull

theorem StateOk.append (h : StateOk σ st l) {bc : BundleCompaction}
    (hnew : bc.status = .notStarted ∧ bc.outputBranch = 0)
    (hid : bc.id ∉ st.bundleCompactions.map (·.id))
    (hinputs : bc.inputs ≠ [] ∧ ∀ b ∈ bc.inputs, b.branches ≠ [])
    (hsum : (l.map Task.appliedCount).sum = 0)
    (hfull : bc.mergeMode = .full →
      st.pivot.2 = 0 ∧ st.bundleCompactions = [] ∧ st.maplet = 0) :
    StateOk σ { st with
      refcount := st.refcount + 1
      bundleCompactions := st.bundleCompactions ++ [bc]
      totalBundles := st.totalBundles + bc.inputs.length } (.bundle σ ::ₘ l) := by
  have hcases : ∀ b ∈ st.bundleCompactions ++ [bc], b ∈ st.bundleCompactions ∨ b = bc := by
    simp
  refine ⟨⟨?_, ?_, ?_, ?_, ?_, h.initiated, ?_, ?_, ?_, ?_, ?_, ?_⟩, ?_⟩
  · simpa using h.refcount
  · have hpending := h.pending
    simp only [pendingTasks_cons, Task.isPending, List.countP_append, List.countP_singleton,
      hnew.1, decide_true, if_true]
    omega
  · intro id hid'
    obtain ⟨b, hb, hbid, hst⟩ := h.compacting id (by simpa using hid')
    exact ⟨b, List.mem_append_left _ hb, hbid, hst⟩
  · intro id
    rw [Multiset.count_cons_of_ne (by simp)]
    exact h.single id
  · rw [← h.maplets]
    simp [Task.isMaplet]
  · intro ρ hρ
    rcases Multiset.mem_cons.mp hρ with rfl | hρ
    · trivial
    · exact (h.covered ρ hρ).append bc
  · simp [h.total]
  · rw [List.map_append, List.map_singleton]
    exact List.nodup_append.mpr ⟨h.ids, List.nodup_singleton _, by
      rintro a ha b hb rfl
      exact hid (List.mem_singleton.mp hb ▸ ha)⟩
  · intro b hb
    rcases hcases b hb with hb | rfl
    · exact h.inputs b hb
    · exact hinputs
  · intro b hb hst
    rcases hcases b hb with hb | rfl
    · exact h.outputs b hb hst
    · exact hnew.2
  · intro i b hb hmode
    have hold := h.full
    rw [unapplied, hsum, List.drop_zero] at hold
    rw [unapplied_cons] at hb
    change (unapplied (st.bundleCompactions ++ [bc]) l)[i]? = some b at hb
    rw [unapplied, hsum, List.drop_zero] at hb
    rcases Nat.lt_or_ge i st.bundleCompactions.length with hi | hi
    · rw [List.getElem?_append_left hi] at hb
      exact hold i b hb hmode
    · rw [List.getElem?_append_right hi] at hb
      have hzero : i - st.bundleCompactions.length = 0 := by
        have hlt := (List.getElem?_eq_some_iff.mp hb).1
        simpa using hlt
      rw [hzero, List.getElem?_cons_zero, Option.some.injEq] at hb
      obtain ⟨hleaf, hnil, hmaplet⟩ := hfull (hb ▸ hmode)
      rw [hnil, List.length_nil, Nat.sub_zero] at hzero
      exact ⟨hzero, hleaf, hmaplet⟩
  · intro b rest hqueue hst
    cases hq : st.bundleCompactions with
    | nil =>
        rw [hq, List.nil_append] at hqueue
        obtain ⟨rfl, -⟩ := List.cons.inj hqueue
        rw [hnew.1] at hst
        cases hst
    | cons b₀ rest₀ =>
        rw [hq, List.cons_append] at hqueue
        obtain ⟨rfl, -⟩ := List.cons.inj hqueue
        exact (h.headSeen b₀ rest₀ hq hst).imp_right Multiset.mem_cons_of_mem

end Tasks

end Trunk
end TreePass
